import Pml.Vfs.Resolve
import Pml.Lib.Gauge
import Mathlib

/-!
# The references of `vnode_namei` (`drivers/fs/vtree.c`)

`bookNamei` is `vnode_namei` with its books: the references that its callers and itself hold, without those that
`vnode_add_child` takes for the parent and the child, and the strings that are not freed yet.  The books have no
effect (`bookNamei_carries`), and they are what the reference counts are without the references of the parents and
children (`bookNamei_counts`).
-/

namespace Pml.Vfs

open Scoped Gauge

/-- The references to each vnode that are in somebody's hands, and the strings that are not freed. -/
structure Books (V : Type) where
  held : V → Int
  copies : Int

abbrev Process (V σ : Type) := Scoped (Books V) (Scoped V (World V σ))

abbrev Booked (V σ α : Type) := StateM (Process V σ) α

variable {V σ : Type} [DecidableEq V]

def oneRef : Option V → V → Int
  | none => 0
  | some v => Pi.single v 1

def act {α : Type} (m : Action V σ α) : Booked V σ α := lift (lift m)

def hold (g : V → Int) : Booked V σ Unit := note fun b => { b with held := b.held + g }

/-- `REF_OBJECT` -/
def bookRef (v : V) : Booked V σ Unit := do
  act (refObject v)
  hold (oneRef (some v))

def bookFree : Booked V σ Unit := note fun b => { b with copies := b.copies - 1 }

namespace Tree

variable (t : Tree V σ)

/-- `UNREF_OBJECT` -/
def bookUnref (v : V) : Booked V σ Unit := do
  act (t.unrefObject v)
  hold (-oneRef (some v))

/-- `strdup` or `malloc` -/
def bookAlloc : Booked V σ Bool := do
  let ok ← act t.alloc
  note fun b => { b with copies := if ok then b.copies + 1 else b.copies }
  return ok

/-- The mount point or the child of that name, with a reference. -/
def bookChild (vp : V) (name : Name) : Booked V σ (Option V) := do
  let nvp ← act (t.child vp name)
  hold (oneRef nvp)
  return nvp

/-- The symbolic link `nvp` in the directory `vp`. -/
def bookLink (namei : Path → Booked V σ (Option V)) (linkCount : Int) (vp nvp : V) : Booked V σ (Option V) := do
  let cwd ← lift read
  if linkMax ≤ linkCount then act (fail .ELOOP none)
  else if ← t.bookAlloc then
    lift (assign vp)
    match ← act (t.vfsReadlink nvp) with
    | none =>
      bookFree
      lift (assign cwd)
      return none
    | some buffer =>
      let nvp ← namei buffer
      bookFree
      lift (assign cwd)
      return nvp
  else return none

/-- The child `nvp` of the directory `vp`, followed if it is a symbolic link. -/
def bookEnter (namei : Path → Booked V σ (Option V)) (linkCount : Int) (vp nvp : V) : Booked V σ (Option V) := do
  if 0 ≤ linkCount ∧ (← act (gets (t.isLnk ·.rest nvp))) then t.bookLink namei linkCount vp nvp
  else return some nvp

/-- The vnode that the component `ptr` stands for in the directory `vp`. -/
def bookComponent (namei : Path → Booked V σ (Option V)) (linkCount : Int) (vp : V) (ptr : Name) :
    Booked V σ (Option V) := do
  if ptr = ['.', '.'] then
    let nvp ← act (gets (t.parent ·.rest vp))
    bookRef nvp
    return some nvp
  else
    match ← t.bookChild vp ptr with
    | none => return none
    | some nvp => t.bookEnter namei linkCount vp nvp

def bookWalk (namei : Path → Booked V σ (Option V)) (linkCount : Int) : V → List Name → Booked V σ (Option V)
  | vp, [] => do
    bookFree
    return some vp
  | vp, ptr :: ptrs => do
    if ptr = [] ∨ ptr = ['.'] then bookWalk namei linkCount vp ptrs
    else
      match ← t.bookComponent namei linkCount vp ptr with
      | none =>
        bookFree
        t.bookUnref vp
        return none
      | some nvp => bookWalk namei linkCount nvp ptrs

/-- `vnode_namei`, where `left` is `SYMLOOP_MAX - link_count`. -/
def bookNamei : Nat → Int → Path → Booked V σ (Option V)
  | 0, _, _ => do
    if ← t.bookAlloc then act (fail .ELOOP none) else return none
  | left + 1, linkCount, path => do
    if ← t.bookAlloc then
      match path with
      | '/' :: ptr =>
        bookRef t.rootVnode
        t.bookWalk (bookNamei left (linkCount + 1)) linkCount t.rootVnode (ptr.splitOn '/')
      | ptr =>
        let vp ← lift read
        bookRef vp
        t.bookWalk (bookNamei left (linkCount + 1)) linkCount vp (ptr.splitOn '/')
    else return none

/-- `vnode_namei` -/
def bookVnodeNamei (path : Path) (linkCount : Int) : Booked V σ (Option V) :=
  t.bookNamei (symloopMax - linkCount).toNat linkCount path

/-! ### The books have no effect -/

variable {t} {namei : Path → Booked V σ (Option V)} {namei' : Path → Call V σ (Option V)} {linkCount : Int}

omit [DecidableEq V] in
private theorem bookAlloc_carries : Carries t.bookAlloc (lift t.alloc) := fun _ => ⟨rfl, rfl⟩

private theorem bookRef_carries (v : V) : Carries (bookRef v : Booked V σ Unit) (lift (refObject v)) :=
  fun _ => ⟨rfl, rfl⟩

private theorem bookUnref_carries (v : V) : Carries (t.bookUnref v) (lift (t.unrefObject v)) := fun _ => ⟨rfl, rfl⟩

private theorem bookChild_carries (vp : V) (name : Name) : Carries (t.bookChild vp name) (lift (t.child vp name)) :=
  fun _ => ⟨rfl, rfl⟩

omit [DecidableEq V] in
private theorem bookLink_carries (h : ∀ path, Carries (namei path) (namei' path)) (vp nvp : V) :
    Carries (t.bookLink namei linkCount vp nvp) (t.followLink namei' linkCount vp nvp) := by
  apply Carries.bind (Carries.lift _)
  intro cwd
  apply Carries.ite (Carries.lift _)
  apply Carries.bind bookAlloc_carries
  intro ok
  apply Carries.ite
  · apply Carries.bind (Carries.lift _)
    intro _
    apply Carries.bind (Carries.lift _)
    intro buffer
    cases buffer with
    | none =>
      apply Carries.note
      apply Carries.bind (Carries.lift _)
      intro _
      exact Carries.pure none
    | some buffer =>
      apply Carries.bind (h buffer)
      intro nvp
      apply Carries.note
      apply Carries.bind (Carries.lift _)
      intro _
      exact Carries.pure nvp
  · exact Carries.pure none

private theorem bookComponent_carries (h : ∀ path, Carries (namei path) (namei' path)) (vp : V) (ptr : Name) :
    Carries (t.bookComponent namei linkCount vp ptr) (t.component namei' linkCount vp ptr) := by
  apply Carries.ite
  · apply Carries.bind (Carries.lift _)
    intro nvp
    apply Carries.bind (bookRef_carries nvp)
    intro _
    exact Carries.pure (some nvp)
  · apply Carries.bind (bookChild_carries vp ptr)
    intro nvp
    cases nvp with
    | none => exact Carries.pure none
    | some nvp =>
      apply Carries.bind (Carries.lift _)
      intro lnk
      apply Carries.ite
      · exact bookLink_carries h vp nvp
      · exact Carries.pure (some nvp)

private theorem bookWalk_carries (h : ∀ path, Carries (namei path) (namei' path)) (ptrs : List Name) :
    ∀ vp, Carries (t.bookWalk namei linkCount vp ptrs) (t.walk namei' linkCount vp ptrs) := by
  induction ptrs with
  | nil =>
    intro vp
    apply Carries.note
    exact Carries.pure (some vp)
  | cons ptr ptrs ih =>
    intro vp
    apply Carries.ite (ih vp)
    apply Carries.bind (bookComponent_carries h vp ptr)
    intro nvp
    cases nvp with
    | none =>
      apply Carries.note
      apply Carries.bind (bookUnref_carries vp)
      intro _
      exact Carries.pure none
    | some nvp => exact ih nvp

private theorem bookNamei_carries (t : Tree V σ) (left : Nat) :
    ∀ linkCount path, Carries (t.bookNamei left linkCount path) (t.namei left linkCount path) := by
  induction left with
  | zero =>
    intro linkCount path
    apply Carries.bind bookAlloc_carries
    intro ok
    apply Carries.ite
    · exact Carries.lift _
    · exact Carries.pure none
  | succ left ih =>
    intro linkCount path
    unfold bookNamei namei
    apply Carries.bind bookAlloc_carries
    intro ok
    apply Carries.ite
    · by_cases habs : ∃ ptr, path = '/' :: ptr
      · obtain ⟨ptr, rfl⟩ := habs
        apply Carries.bind (bookRef_carries _)
        intro _
        exact bookWalk_carries (ih (linkCount + 1)) _ _
      · -- both functions go on with the relative path, as no `ptr` is left
        rw [not_exists] at habs
        simp only
        apply Carries.bind (Carries.lift _)
        intro vp
        apply Carries.bind (bookRef_carries vp)
        intro _
        exact bookWalk_carries (ih (linkCount + 1)) _ vp
    · exact Carries.pure none

theorem bookVnodeNamei_carries (t : Tree V σ) (path : Path) (linkCount : Int) :
    Carries (t.bookVnodeNamei path linkCount) (t.vnodeNamei path linkCount) :=
  bookNamei_carries t _ linkCount path

/-! ### No reference is lost from the books

`vnode_namei` drops no reference but that to the vnode at which it fails, so that what is held only grows. -/

def heldOf (s : Process V σ) : V → Int := s.cur.held

omit [DecidableEq V] in
private theorem act_keeps {α : Type} (m : Action V σ α) : Keeps heldOf (act m) := fun _ => rfl

omit [DecidableEq V] in
private theorem lift_keeps {α : Type} (m : Call V σ α) : Keeps heldOf (lift m : Booked V σ α) := fun _ => rfl

omit [DecidableEq V] in
private theorem bookFree_keeps : Keeps heldOf (bookFree : Booked V σ Unit) := fun _ => rfl

omit [DecidableEq V] in
private theorem bookAlloc_keeps : Keeps heldOf t.bookAlloc := fun _ => rfl

private theorem bookRef_gains (v : V) : Gains heldOf (bookRef v : Booked V σ Unit) fun _ => oneRef (some v) :=
  fun _ => le_refl _

private theorem bookUnref_gains (v : V) : Gains heldOf (t.bookUnref v) fun _ => -oneRef (some v) := fun _ => le_refl _

private theorem bookChild_gains (vp : V) (name : Name) : Gains heldOf (t.bookChild vp name) oneRef :=
  fun _ => le_refl _

private theorem oneRef_nonneg (v : Option V) : 0 ≤ oneRef v := by
  cases v with
  | none => exact le_refl 0
  | some v => exact Pi.single_nonneg.mpr zero_le_one

private theorem bookLink_gains (h : ∀ path, Gains heldOf (namei path) oneRef) (vp nvp : V) :
    Gains heldOf (t.bookLink namei linkCount vp nvp) oneRef := by
  have hpure : Gains heldOf (pure none : Booked V σ (Option V)) oneRef := Gains.pure (le_refl 0)
  apply Gains.keeps_bind (lift_keeps _)
  intro cwd
  apply Gains.ite
  · intro s
    exact (add_zero _).le
  · apply Gains.keeps_bind bookAlloc_keeps
    intro ok
    apply Gains.ite
    · apply Gains.keeps_bind (lift_keeps _)
      intro _
      apply Gains.keeps_bind (act_keeps _)
      intro buffer
      cases buffer with
      | none =>
        apply Gains.keeps_bind bookFree_keeps
        intro _
        apply Gains.keeps_bind (lift_keeps _)
        intro _
        exact hpure
      | some buffer =>
        apply Gains.bind (h buffer)
        intro nvp
        apply Gains.keeps_bind bookFree_keeps
        intro _
        apply Gains.keeps_bind (lift_keeps _)
        intro _
        exact Gains.pure (sub_self _).le
    · exact hpure

def entered (nvp : V) : Option V → V → Int
  | none => 0
  | some v => oneRef (some v) - oneRef (some nvp)

private theorem bookEnter_gains (h : ∀ path, Gains heldOf (namei path) oneRef) (vp nvp : V) :
    Gains heldOf (t.bookEnter namei linkCount vp nvp) (entered nvp) := by
  apply Gains.keeps_bind (act_keeps _)
  intro lnk
  apply Gains.ite
  · apply Gains.weaken (bookLink_gains h vp nvp)
    intro r
    cases r with
    | none => exact le_refl 0
    | some v => exact sub_le_self _ (oneRef_nonneg (some nvp))
  · exact Gains.pure (sub_self _).le

private theorem bookComponent_gains (h : ∀ path, Gains heldOf (namei path) oneRef) (vp : V) (ptr : Name) :
    Gains heldOf (t.bookComponent namei linkCount vp ptr) oneRef := by
  apply Gains.ite
  · apply Gains.keeps_bind (act_keeps _)
    intro nvp
    apply Gains.bind (bookRef_gains nvp)
    intro _
    exact Gains.pure (sub_self _).le
  · apply Gains.bind (bookChild_gains vp ptr)
    intro nvp
    cases nvp with
    | none => exact Gains.pure (sub_self _).le
    | some nvp =>
      apply Gains.weaken (bookEnter_gains h vp nvp)
      intro r
      cases r with
      | none => exact sub_nonpos.mpr (oneRef_nonneg (some nvp))
      | some v => exact le_refl _

private theorem bookWalk_gains (h : ∀ path, Gains heldOf (namei path) oneRef) (ptrs : List Name) :
    ∀ vp, Gains heldOf (t.bookWalk namei linkCount vp ptrs) fun r => oneRef r - oneRef (some vp) := by
  induction ptrs with
  | nil =>
    intro vp
    apply Gains.keeps_bind bookFree_keeps
    intro _
    exact Gains.pure (sub_self _).le
  | cons ptr ptrs ih =>
    intro vp
    apply Gains.ite (ih vp)
    apply Gains.bind (bookComponent_gains h vp ptr)
    intro nvp
    cases nvp with
    | none =>
      apply Gains.keeps_bind bookFree_keeps
      intro _
      apply Gains.bind (bookUnref_gains vp)
      intro _
      apply Gains.pure
      simp [oneRef]
    | some nvp =>
      apply Gains.weaken (ih nvp)
      intro r
      apply sub_le_sub_right
      exact sub_le_self _ (oneRef_nonneg (some vp))

private theorem bookNamei_gains (t : Tree V σ) (left : Nat) :
    ∀ linkCount path, Gains heldOf (t.bookNamei left linkCount path) oneRef := by
  have hfail (s : Process V σ) : heldOf s + oneRef none ≤ heldOf s := (add_zero _).le
  induction left with
  | zero =>
    intro linkCount path
    apply Gains.keeps_bind bookAlloc_keeps
    intro ok
    exact Gains.ite hfail hfail
  | succ left ih =>
    intro linkCount path
    unfold bookNamei
    apply Gains.keeps_bind bookAlloc_keeps
    intro ok
    apply Gains.ite
    · split
      · apply Gains.bind (bookRef_gains _)
        intro _
        exact bookWalk_gains (ih (linkCount + 1)) _ _
      · apply Gains.keeps_bind (lift_keeps _)
        intro vp
        apply Gains.bind (bookRef_gains vp)
        intro _
        exact bookWalk_gains (ih (linkCount + 1)) _ vp
    · exact hfail

/-! ### A component that is found -/

private theorem bookComponent_lost (h : ∀ path, Gains heldOf (namei path) oneRef) {vp : V} {ptr : Name}
    {s : Process V σ} (hf : ptr = ['.', '.'] ∨ (t.child vp ptr s.rest.rest).1 ≠ none)
    (hn : (t.bookComponent namei linkCount vp ptr s).1 = none) :
    ∃ x, heldOf s + oneRef (some x) ≤ heldOf (t.bookComponent namei linkCount vp ptr s).2 := by
  unfold bookComponent at hn ⊢
  by_cases hp : ptr = ['.', '.']
  · rw [if_pos hp] at hn
    exact nomatch hn
  · rw [if_neg hp] at hn ⊢
    obtain ⟨nvp, hc⟩ := Option.ne_none_iff_exists'.mp (hf.resolve_left hp)
    have hchild : (t.bookChild vp ptr s).1 = some nvp := hc
    have hheld : heldOf (t.bookChild vp ptr s).2 = heldOf s + oneRef (some nvp) := by
      rw [← hchild]
      rfl
    rw [bind_apply, hchild] at hn ⊢
    dsimp only at hn ⊢
    refine ⟨nvp, ?_⟩
    have hg : Gains heldOf (t.bookEnter namei linkCount vp nvp) (entered nvp) := bookEnter_gains h vp nvp
    have he := hg (t.bookChild vp ptr s).2
    rw [hn, hheld] at he
    exact (add_zero _).ge.trans he

/-- Where the first component is found, a reference is held in the end that is not the result's. -/
private theorem bookWalk_found (linkCount : Int) (ptrs : List Name) (h : ∀ path, Gains heldOf (namei path) oneRef)
    {vp : V} {ptr : Name} {s : Process V σ} (hp : ¬(ptr = [] ∨ ptr = ['.']))
    (hf : ptr = ['.', '.'] ∨ (t.child vp ptr s.rest.rest).1 ≠ none) :
    ∃ x, heldOf s + oneRef (t.bookWalk namei linkCount vp (ptr :: ptrs) s).1 + oneRef (some x) ≤
      heldOf (t.bookWalk namei linkCount vp (ptr :: ptrs) s).2 + oneRef (some vp) := by
  unfold bookWalk
  rw [if_neg hp, bind_apply]
  cases hn : (t.bookComponent namei linkCount vp ptr s).1 with
  | none =>
    obtain ⟨x, hx⟩ := bookComponent_lost h hf hn
    refine ⟨x, ?_⟩
    have hend : heldOf ((do bookFree; t.bookUnref vp; return none : Booked V σ (Option V))
        (t.bookComponent namei linkCount vp ptr s).2).2 =
        heldOf (t.bookComponent namei linkCount vp ptr s).2 + -oneRef (some vp) := rfl
    dsimp only
    rw [hend, neg_add_cancel_right]
    exact (add_le_add_left (add_zero _).le _).trans hx
  | some nvp =>
    refine ⟨vp, add_le_add_left ?_ _⟩
    have hc : Gains heldOf (t.bookComponent namei linkCount vp ptr) oneRef := bookComponent_gains h vp ptr
    have hw : Gains heldOf (t.bookWalk namei linkCount nvp ptrs) _ := bookWalk_gains h ptrs nvp
    have h1 := hc s
    rw [hn] at h1
    refine le_trans ?_ (hw _)
    refine le_trans ?_ (add_le_add_left h1 _)
    exact (add_add_sub_cancel _ _ _).ge

private theorem bookWalk_filter (ptrs : List Name) :
    ∀ vp, t.bookWalk namei linkCount vp ptrs =
      t.bookWalk namei linkCount vp (ptrs.filter fun ptr => ¬(ptr = [] ∨ ptr = ['.'])) := by
  induction ptrs with
  | nil => exact fun _ => rfl
  | cons ptr ptrs ih =>
    intro vp
    by_cases hp : ptr = [] ∨ ptr = ['.']
    · rw [List.filter_cons_of_neg (by simp [hp]), bookWalk, if_pos hp]
      exact ih vp
    · rw [List.filter_cons_of_pos (by simpa using hp), bookWalk, bookWalk, if_neg hp, if_neg hp]
      congr 1
      funext nvp
      cases nvp with
      | none => rfl
      | some nvp => exact ih nvp

variable (t)

/-! ### When the references are balanced -/

/-- Success adds one reference to the result, failure none, and failure leaves no copy of a string. -/
def Balanced (path : Path) (linkCount : Int) (s : Process V σ) : Prop :=
  (t.bookVnodeNamei path linkCount s).2.cur.held = s.cur.held + oneRef (t.bookVnodeNamei path linkCount s).1 ∧
    ((t.bookVnodeNamei path linkCount s).1 = none →
      (t.bookVnodeNamei path linkCount s).2.cur.copies = s.cur.copies)

/-- The directory in which the first component is looked up, from the working directory `cwd`. -/
def start (cwd : V) (path : Path) : V :=
  match path with
  | '/' :: _ => t.rootVnode
  | _ => cwd

def components (path : Path) : List Name :=
  (path.splitOn '/').filter fun ptr => ¬(ptr = [] ∨ ptr = ['.'])

/-- The path has no component, or the first is not in the directory where the path starts. -/
def NoneFound (path : Path) (cwd : V) (w : World V σ) : Prop :=
  ∀ ptr ∈ (components path).head?,
    ptr ≠ ['.', '.'] ∧ (t.child (t.start cwd path) ptr (refObject (t.start cwd path) w).2).1 = none

variable {t}

private theorem components_slash (ptr : Path) :
    components ('/' :: ptr) = (ptr.splitOn '/').filter fun ptr => ¬(ptr = [] ∨ ptr = ['.']) := by
  have hsplit : List.splitOn '/' ('/' :: ptr) = [] :: ptr.splitOn '/' := List.splitOn_append_cons_self [] ptr
  unfold components
  rw [hsplit, List.filter_cons_of_neg (by simp)]

private theorem bookNamei_walk (left : Nat) (linkCount : Int) (path : Path) {s : Process V σ}
    (hok : (t.alloc s.rest.rest).1 = true) :
    t.bookNamei (left + 1) linkCount path s =
      t.bookWalk (t.bookNamei left (linkCount + 1)) linkCount (t.start s.rest.cur path) (components path)
        (bookRef (t.start s.rest.cur path) (t.bookAlloc s).2).2 := by
  have halloc : (t.bookAlloc s).1 = true := hok
  unfold bookNamei
  rw [bind_apply, halloc, if_pos rfl]
  split
  · rw [components_slash, ← bookWalk_filter]
    rfl
  · next hrel =>
    have hstart : t.start s.rest.cur path = s.rest.cur := by
      unfold start
      split
      · exact absurd rfl (hrel _)
      · rfl
    rw [hstart, components, ← bookWalk_filter]
    rfl

private theorem bookNamei_noCopy (left : Nat) (linkCount : Int) (path : Path) {s : Process V σ}
    (hok : (t.alloc s.rest.rest).1 = false) :
    t.bookNamei left linkCount path s = (none, (t.bookAlloc s).2) := by
  have halloc : (t.bookAlloc s).1 = false := hok
  cases left with
  | zero =>
    rw [bookNamei, bind_apply, halloc]
    rfl
  | succ left =>
    unfold bookNamei
    rw [bind_apply, halloc]
    rfl

omit [DecidableEq V] in
private theorem bookAlloc_books {s : Process V σ} {ok : Bool} (hok : (t.alloc s.rest.rest).1 = ok) :
    (t.bookAlloc s).2.cur = ⟨s.cur.held, if ok then s.cur.copies + 1 else s.cur.copies⟩ := by
  rw [← hok]
  rfl

private theorem bookWalk_notFound (namei : Path → Booked V σ (Option V)) (linkCount : Int) (ptrs : List Name) {vp : V}
    {ptr : Name} {s : Process V σ} (hp : ¬(ptr = [] ∨ ptr = ['.'])) (hd : ptr ≠ ['.', '.'])
    (hc : (t.child vp ptr s.rest.rest).1 = none) :
    (t.bookWalk namei linkCount vp (ptr :: ptrs) s).1 = none ∧
      (t.bookWalk namei linkCount vp (ptr :: ptrs) s).2.cur =
        ⟨s.cur.held - oneRef (some vp), s.cur.copies - 1⟩ := by
  have hcomp : t.bookComponent namei linkCount vp ptr s =
      (none, ⟨s.cur, s.rest.cur, (t.child vp ptr s.rest.rest).2⟩) := by
    have hchild : t.bookChild vp ptr s = (none, ⟨⟨s.cur.held + oneRef none, s.cur.copies⟩, s.rest.cur,
        (t.child vp ptr s.rest.rest).2⟩) := by
      rw [← hc]
      rfl
    unfold bookComponent
    rw [if_neg hd, bind_apply, hchild, oneRef, add_zero]
    rfl
  unfold bookWalk
  rw [if_neg hp, bind_apply, hcomp]
  refine ⟨rfl, ?_⟩
  rw [sub_eq_add_neg]
  rfl

/-- The walk over components that are all looked up, with the reference to the start and the copy of the path in the
books. -/
private theorem bookWalk_balanced_iff {left : Nat} {vp : V} {ptrs : List Name}
    {s : Process V σ} {held : V → Int} {copies : Int}
    (hcur : s.cur = ⟨held + oneRef (some vp), copies + 1⟩) (hptrs : ∀ ptr ∈ ptrs, ¬(ptr = [] ∨ ptr = ['.'])) :
    ((t.bookWalk (t.bookNamei left (linkCount + 1)) linkCount vp ptrs s).2.cur.held =
        held + oneRef (t.bookWalk (t.bookNamei left (linkCount + 1)) linkCount vp ptrs s).1 ∧
      ((t.bookWalk (t.bookNamei left (linkCount + 1)) linkCount vp ptrs s).1 = none →
        (t.bookWalk (t.bookNamei left (linkCount + 1)) linkCount vp ptrs s).2.cur.copies = copies)) ↔
    ∀ ptr ∈ ptrs.head?, ptr ≠ ['.', '.'] ∧ (t.child vp ptr s.rest.rest).1 = none := by
  cases ptrs with
  | nil =>
    refine iff_of_true ⟨?_, nofun⟩ nofun
    have h : (t.bookWalk (t.bookNamei left (linkCount + 1)) linkCount vp [] s).2.cur.held = s.cur.held := rfl
    rw [h, hcur]
    rfl
  | cons ptr ptrs =>
    have hp := hptrs ptr (List.mem_cons_self ..)
    simp only [List.head?_cons, Option.mem_some_iff, forall_eq']
    by_cases hf : ptr = ['.', '.'] ∨ (t.child vp ptr s.rest.rest).1 ≠ none
    · refine iff_of_false ?_ fun h => hf.elim h.1 fun hne => hne h.2
      rintro ⟨hheld, -⟩
      obtain ⟨x, hx⟩ := bookWalk_found linkCount ptrs (bookNamei_gains t left (linkCount + 1)) hp hf
      -- the reference to `x` is one too many
      have hxx := hx x
      have hone : oneRef (some x) x = 1 := Pi.single_eq_same x 1
      simp only [heldOf, hheld, hcur, Pi.add_apply, hone] at hxx
      omega
    · rw [not_or, not_not] at hf
      obtain ⟨h1, h2⟩ := bookWalk_notFound (t.bookNamei left (linkCount + 1)) linkCount ptrs hp hf.1 hf.2
      refine iff_of_true ?_ hf
      rw [h1, h2, hcur]
      exact ⟨(add_sub_cancel_right _ _).trans (add_zero _).symm, fun _ => add_sub_cancel_right _ _⟩

private theorem not_balanced_of_tooMany {path : Path} {s : Process V σ}
    (hok : (t.alloc s.rest.rest).1 = true) (hl : symloopMax ≤ linkCount) : ¬t.Balanced path linkCount s := by
  have hleft : (symloopMax - linkCount).toNat = 0 := by omega
  have halloc : (t.bookAlloc s).1 = true := hok
  have hrun : t.bookVnodeNamei path linkCount s = act (fail .ELOOP none) (t.bookAlloc s).2 := by
    rw [bookVnodeNamei, hleft, bookNamei, bind_apply, halloc]
    rfl
  rintro ⟨-, hcopies⟩
  rw [hrun] at hcopies
  have h : (t.bookAlloc s).2.cur.copies = s.cur.copies := hcopies rfl
  rw [bookAlloc_books hok] at h
  dsimp only at h
  rw [if_pos rfl] at h
  omega

/-- The references are balanced if and only if the path is not copied, or no link too many is behind it and nothing is
found, as there is no component or the first is missing. -/
theorem balanced_iff (t : Tree V σ) (path : Path) (linkCount : Int) (s : Process V σ) :
    t.Balanced path linkCount s ↔ (t.alloc s.rest.rest).1 = false ∨
      linkCount < symloopMax ∧ t.NoneFound path s.rest.cur (t.alloc s.rest.rest).2 := by
  cases hok : (t.alloc s.rest.rest).1 with
  | false =>
    unfold Balanced bookVnodeNamei
    rw [bookNamei_noCopy _ _ _ hok, bookAlloc_books hok]
    exact iff_of_true ⟨(add_zero _).symm, fun _ => rfl⟩ (Or.inl rfl)
  | true =>
    simp only [Bool.true_eq_false, false_or]
    by_cases hl : linkCount < symloopMax
    · obtain ⟨left, hleft⟩ : ∃ left, (symloopMax - linkCount).toNat = left + 1 :=
        ⟨(symloopMax - linkCount).toNat - 1, by omega⟩
      have hcur : (bookRef (t.start s.rest.cur path) (t.bookAlloc s).2).2.cur =
          ⟨s.cur.held + oneRef (some (t.start s.rest.cur path)), s.cur.copies + 1⟩ := by
        have hbooks := bookAlloc_books hok
        rw [if_pos rfl] at hbooks
        exact congrArg (fun b : Books V => Books.mk (b.held + oneRef (some (t.start s.rest.cur path))) b.copies)
          hbooks
      unfold Balanced bookVnodeNamei
      rw [hleft, bookNamei_walk left linkCount path hok, bookWalk_balanced_iff hcur fun ptr hptr => ?_]
      · exact (and_iff_right hl).symm
      · simpa [components] using (List.mem_filter.mp hptr).2
    · exact iff_of_false (not_balanced_of_tooMany hok (Int.not_lt.mp hl)) fun h => hl h.1

/-! ### The books and the reference counts -/

def owed (kept : σ → V → UInt32) (w : World V σ) (v : V) : UInt32 := w.refs v - kept w.rest v

def oneCount (v : Option V) (u : V) : UInt32 := if some u = v then 1 else 0

/-- The functions that `vnode_namei` calls count as they should: `vfs_lookup` returns a vnode with a reference,
`vnode_add_child` makes the parent and the child hold one to each other, and nothing else changes what is owed. -/
structure CountLaws (t : Tree V σ) (kept : σ → V → UInt32) : Prop where
  alloc : ∀ w, owed kept (t.alloc w).2 = owed kept w
  vfsReadlink : ∀ v w, owed kept (t.vfsReadlink v w).2 = owed kept w
  vfsLookup : ∀ dir name w,
    owed kept (t.vfsLookup dir name w).2 = owed kept w + oneCount (t.vfsLookup dir name w).1
  placeCache : ∀ v r, kept (t.placeCache v r) = kept r
  insertChild : ∀ dir v name w, owed kept (t.insertChild dir v name w).2 = owed kept w
  setParent : ∀ v dir r, kept (t.setParent v dir r) = kept r + oneCount (some v) + oneCount (some dir)
  dealloc : ∀ v w, owed kept (t.dealloc v w).2 = owed kept w

def uncounted (kept : σ → V → UInt32) (s : Process V σ) (v : V) : UInt32 :=
  owed kept s.rest.rest v - UInt32.ofInt (s.cur.held v)

section

variable {kept : σ → V → UInt32}

private theorem ofInt_oneRef (v : Option V) (u : V) (n : Int) :
    UInt32.ofInt (n + oneRef v u) = UInt32.ofInt n + oneCount v u := by
  cases v with
  | none => simp [oneRef, oneCount]
  | some v =>
    by_cases h : u = v
    · subst h
      simp [oneRef, oneCount, UInt32.ofInt_add]
    · simp [oneRef, oneCount, h]

private theorem refObject_owed (v : V) (w : World V σ) :
    owed kept (refObject v w).2 = owed kept w + oneCount (some v) := by
  funext u
  by_cases h : u = v
  · subst h
    simp only [owed, refObject, oneCount, Pi.add_apply, if_true]
    exact add_sub_right_comm _ _ _
  · simp [owed, refObject, oneCount, h]

private theorem unrefObject_owed (ht : CountLaws t kept) (v : V) (w : World V σ) :
    owed kept (t.unrefObject v w).2 = owed kept w - oneCount (some v) := by
  have hdrop : owed kept { w with refs := fun u => if u = v then w.refs u - 1 else w.refs u } =
      owed kept w - oneCount (some v) := by
    funext u
    by_cases h : u = v
    · subst h
      simp only [owed, oneCount, Pi.sub_apply, if_true]
      exact sub_right_comm _ _ _
    · simp [owed, oneCount, h]
  rw [← hdrop]
  simp only [unrefObject, if_true]
  split
  · rfl
  · exact ht.dealloc v _

omit [DecidableEq V] in
private theorem gets_bind {α β : Type} (f : World V σ → α) (k : α → Action V σ β) (w : World V σ) :
    (gets f >>= k) w = k (f w) w := rfl

private theorem vnodeFindMountPoint_owed (vp : V) (name : Name) (w : World V σ) :
    owed kept (t.vnodeFindMountPoint vp name w).2 = owed kept w + oneCount (t.vnodeFindMountPoint vp name w).1 := by
  unfold vnodeFindMountPoint
  rw [gets_bind]
  cases (t.mountTable w.rest).find? fun mp => decide (mp.parent = some vp ∧ mp.rootName = some name) with
  | none => exact (add_zero _).symm
  | some mp => exact refObject_owed mp.rootVnode w

private theorem vnodeAddChild_owed (ht : CountLaws t kept) (vp child : V) (name : Name) (w : World V σ) :
    owed kept (t.vnodeAddChild vp child name w).2 = owed kept w := by
  have hparent (w : World V σ) : owed kept { w with rest := t.setParent child vp w.rest } =
      owed kept w - (oneCount (some child) + oneCount (some vp)) := by
    funext u
    simp only [owed, ht.setParent, Pi.add_apply, Pi.sub_apply]
    rw [add_assoc, sub_sub]
  unfold vnodeAddChild
  rw [bind_apply]
  cases (t.insertChild vp child name w).1 with
  | false => exact ht.insertChild vp child name w
  | true =>
    refine (refObject_owed vp { (refObject child (t.insertChild vp child name w).2).2 with
      rest := t.setParent child vp (refObject child (t.insertChild vp child name w).2).2.rest }).trans ?_
    rw [hparent, refObject_owed, ht.insertChild]
    abel

private theorem vnodeLookupChild_owed (ht : CountLaws t kept) (dir : V) (name : Name) (w : World V σ) :
    owed kept (t.vnodeLookupChild dir name w).2 = owed kept w + oneCount (t.vnodeLookupChild dir name w).1 := by
  unfold vnodeLookupChild
  rw [gets_bind]
  by_cases hi : t.childIno w.rest dir name ≠ 0
  · rw [if_pos hi, gets_bind]
    cases t.lookupCache w.rest dir (t.childIno w.rest dir name) with
    | none => exact (add_zero _).symm
    | some vp => exact refObject_owed vp w
  · rw [if_neg hi, bind_apply]
    have h := ht.vfsLookup dir name w
    cases hl : (t.vfsLookup dir name w).1 with
    | none =>
      rw [hl] at h
      exact h
    | some vp =>
      rw [hl] at h
      have hadd := vnodeAddChild_owed ht dir vp name { (t.vfsLookup dir name w).2 with
        rest := t.placeCache vp (t.vfsLookup dir name w).2.rest }
      refine hadd.trans (Eq.trans ?_ h)
      funext u
      simp only [owed, ht.placeCache]

private theorem child_owed (ht : CountLaws t kept) (vp : V) (name : Name) (w : World V σ) :
    owed kept (t.child vp name w).2 = owed kept w + oneCount (t.child vp name w).1 := by
  have hm : owed kept (t.vnodeFindMountPoint vp name w).2 =
      owed kept w + oneCount (t.vnodeFindMountPoint vp name w).1 := vnodeFindMountPoint_owed vp name w
  unfold child
  rw [bind_apply]
  cases hf : (t.vnodeFindMountPoint vp name w).1 with
  | some nvp =>
    rw [hf] at hm
    exact hm
  | none =>
    rw [hf] at hm
    refine (vnodeLookupChild_owed ht vp name _).trans ?_
    rw [hm]
    exact congrArg (· + _) (add_zero _)

omit [DecidableEq V] in
private theorem act_counts {α : Type} {m : Action V σ α} (hm : ∀ w, owed kept (m w).2 = owed kept w) :
    Keeps (uncounted kept) (act m) := by
  intro s
  funext v
  exact congrArg (· - _) (congrFun (hm s.rest.rest) v)

omit [DecidableEq V] in
private theorem lift_counts {α : Type} {m : Call V σ α} (hm : ∀ s, (m s).2.rest = s.rest) :
    Keeps (uncounted kept) (lift m) := by
  intro s
  funext v
  exact congrArg (owed kept · v - _) (hm s.rest)

private theorem hold_counts {α : Type} {m : Action V σ α} {g : α → Option V}
    (hm : ∀ w, owed kept (m w).2 = owed kept w + oneCount (g (m w).1)) :
    Keeps (uncounted kept) (do let a ← act m; hold (oneRef (g a)); return a) := by
  intro s
  funext v
  have hw := congrFun (hm s.rest.rest) v
  have hn := ofInt_oneRef (g (m s.rest.rest).1) v (s.cur.held v)
  change owed kept (m s.rest.rest).2 v - UInt32.ofInt (s.cur.held v + oneRef (g (m s.rest.rest).1) v) = _
  rw [hw, hn]
  exact add_sub_add_right_eq_sub _ _ _

private theorem bookRef_counts (v : V) : Keeps (uncounted kept) (bookRef v : Booked V σ Unit) :=
  hold_counts (g := fun _ => some v) (refObject_owed v)

private theorem bookUnref_counts (ht : CountLaws t kept) (v : V) : Keeps (uncounted kept) (t.bookUnref v) := by
  intro s
  funext u
  have hw := congrFun (unrefObject_owed ht v s.rest.rest) u
  have hn := ofInt_oneRef (some v) u (s.cur.held u - oneRef (some v) u)
  rw [sub_add_cancel] at hn
  change owed kept (t.unrefObject v s.rest.rest).2 u - UInt32.ofInt (s.cur.held u + -oneRef (some v) u) =
    owed kept s.rest.rest u - UInt32.ofInt (s.cur.held u)
  rw [hw, hn, ← sub_eq_add_neg, Pi.sub_apply, sub_sub, add_comm (UInt32.ofInt _)]

private theorem bookChild_counts (ht : CountLaws t kept) (vp : V) (name : Name) :
    Keeps (uncounted kept) (t.bookChild vp name) :=
  hold_counts (g := id) (child_owed ht vp name)

private theorem bookAlloc_counts (ht : CountLaws t kept) : Keeps (uncounted kept) t.bookAlloc :=
  Keeps.bind (act_counts ht.alloc) fun _ _ => rfl

omit [DecidableEq V] in
private theorem bookFree_counts : Keeps (uncounted kept) (bookFree : Booked V σ Unit) := fun _ => rfl

private theorem bookLink_counts (ht : CountLaws t kept) (h : ∀ path, Keeps (uncounted kept) (namei path))
    (vp nvp : V) :
    Keeps (uncounted kept) (t.bookLink namei linkCount vp nvp) := by
  apply Keeps.bind (lift_counts fun _ => rfl)
  intro cwd
  apply Keeps.ite (act_counts fun _ => rfl)
  apply Keeps.bind (bookAlloc_counts ht)
  intro ok
  apply Keeps.ite
  · apply Keeps.bind (lift_counts fun _ => rfl)
    intro _
    apply Keeps.bind (act_counts (ht.vfsReadlink nvp))
    intro buffer
    cases buffer with
    | none =>
      apply Keeps.bind bookFree_counts
      intro _
      apply Keeps.bind (lift_counts fun _ => rfl)
      intro _
      exact Keeps.pure none
    | some buffer =>
      apply Keeps.bind (h buffer)
      intro nvp
      apply Keeps.bind bookFree_counts
      intro _
      apply Keeps.bind (lift_counts fun _ => rfl)
      intro _
      exact Keeps.pure nvp
  · exact Keeps.pure none

private theorem bookComponent_counts (ht : CountLaws t kept) (h : ∀ path, Keeps (uncounted kept) (namei path))
    (vp : V) (ptr : Name) : Keeps (uncounted kept) (t.bookComponent namei linkCount vp ptr) := by
  apply Keeps.ite
  · apply Keeps.bind (act_counts fun _ => rfl)
    intro nvp
    apply Keeps.bind (bookRef_counts nvp)
    intro _
    exact Keeps.pure (some nvp)
  · apply Keeps.bind (bookChild_counts ht vp ptr)
    intro nvp
    cases nvp with
    | none => exact Keeps.pure none
    | some nvp =>
      apply Keeps.bind (act_counts fun _ => rfl)
      intro lnk
      apply Keeps.ite (bookLink_counts ht h vp nvp)
      exact Keeps.pure (some nvp)

private theorem bookWalk_counts (ht : CountLaws t kept) (h : ∀ path, Keeps (uncounted kept) (namei path))
    (ptrs : List Name) : ∀ vp, Keeps (uncounted kept) (t.bookWalk namei linkCount vp ptrs) := by
  induction ptrs with
  | nil =>
    intro vp
    apply Keeps.bind bookFree_counts
    intro _
    exact Keeps.pure (some vp)
  | cons ptr ptrs ih =>
    intro vp
    apply Keeps.ite (ih vp)
    apply Keeps.bind (bookComponent_counts ht h vp ptr)
    intro nvp
    cases nvp with
    | none =>
      apply Keeps.bind bookFree_counts
      intro _
      apply Keeps.bind (bookUnref_counts ht vp)
      intro _
      exact Keeps.pure none
    | some nvp => exact ih nvp

/-- What the counts are more than the books does not change: the books are the references that `vnode_namei` takes and
drops, apart from those of the parents and the children. -/
theorem bookNamei_counts (ht : CountLaws t kept) (left : Nat) :
    ∀ linkCount path, Keeps (uncounted kept) (t.bookNamei left linkCount path) := by
  induction left with
  | zero =>
    intro linkCount path
    apply Keeps.bind (bookAlloc_counts ht)
    intro ok
    exact Keeps.ite (act_counts fun _ => rfl) (Keeps.pure none)
  | succ left ih =>
    intro linkCount path
    unfold bookNamei
    apply Keeps.bind (bookAlloc_counts ht)
    intro ok
    apply Keeps.ite
    · split
      · apply Keeps.bind (bookRef_counts _)
        intro _
        exact bookWalk_counts ht (ih (linkCount + 1)) _ _
      · apply Keeps.bind (lift_counts fun _ => rfl)
        intro vp
        apply Keeps.bind (bookRef_counts vp)
        intro _
        exact bookWalk_counts ht (ih (linkCount + 1)) _ vp
    · exact Keeps.pure none

end

end Tree

/-- The file `f` is child 1 of the root directory 0. -/
def oneFile : Tree Nat Unit where
  rootVnode := 0
  parent _ _ := 0
  isLnk _ _ := false
  mountTable _ := []
  childIno _ dir name := if dir = 0 ∧ name = ['f'] then 1 else 0
  lookupCache _ _ ino := some ino
  setParent _ _ s := s
  placeCache _ s := s
  alloc := return true
  insertChild _ _ _ := return true
  vfsLookup _ _ := fail .ENOENT none
  vfsReadlink _ := fail .EINVAL none
  dealloc _ := return ()

def oneFileFresh : Process Nat Unit :=
  ⟨⟨fun _ => 1, 0⟩, 0, ⟨fun _ => 1, .ENOENT, ()⟩⟩

/-- When `f` is found, the reference to the working directory is not dropped. -/
theorem found_not_balanced : ¬ ∀ path linkCount s, oneFile.Balanced path linkCount s := by
  intro h
  have h0 := congrFun (h ['f'] 0 oneFileFresh).1 0
  exact absurd h0 (by decide)

/-- The file `f`, with the references of parents and children as the rest of the state. -/
def countedFile : Tree Nat (Nat → UInt32) where
  rootVnode := 0
  parent _ _ := 0
  isLnk _ _ := false
  mountTable _ := []
  childIno _ dir name := if dir = 0 ∧ name = ['f'] then 1 else 0
  lookupCache _ _ ino := some ino
  setParent vp dir kept := kept + Tree.oneCount (some vp) + Tree.oneCount (some dir)
  placeCache _ kept := kept
  alloc := return true
  insertChild _ _ _ := return true
  vfsLookup _ _ := fail .ENOENT none
  vfsReadlink _ := fail .EINVAL none
  dealloc _ := return ()

def countedFresh : Process Nat (Nat → UInt32) :=
  ⟨⟨fun _ => 1, 0⟩, 0, ⟨fun _ => 1, .ENOENT, fun _ => 0⟩⟩

theorem bookNamei_counts_file :
    Tree.uncounted id (countedFile.bookNamei 1 0 ['f'] countedFresh).2 = Tree.uncounted id countedFresh :=
  @Tree.bookNamei_counts Nat _ _ countedFile id ⟨fun _ => rfl, fun _ _ => rfl, fun _ _ _ => (add_zero _).symm,
    fun _ _ => rfl, fun _ _ _ _ => rfl, fun _ _ _ => rfl, fun _ _ => rfl⟩ 1 0 ['f'] countedFresh

end Pml.Vfs
