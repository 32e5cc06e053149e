import Pml.Vfs.Resolve

/-!
# Symbolic links in `vnode_namei` (`drivers/fs/vtree.c`)

`nameiStep` is the body of `vnode_namei` around its own call, and `vnode_namei` is the only function that is a
solution of it.  `follow n` resolves a path with at most `n` links inside each other and has no limit of its own; a
cycle of links is a path for which no `n` is enough.  `met` is what the components of a path stand for when no link is
followed.
-/

namespace Pml.Vfs

open Scoped

/-- An action that is undefined where the links nest too deeply. -/
abbrev Nested (V σ α : Type) := StateT (World V σ) Option α

section

variable {V σ α : Type}

def linkless (m : Action V σ α) : Nested V σ α := fun w => some (m w)

private theorem linkless_bind {β : Type} (m : Action V σ α) (k : α → Nested V σ β) (w : World V σ) :
    (linkless m >>= k) w = k (m w).1 (m w).2 := rfl

private theorem nested_bind {β : Type} (m : Nested V σ α) (k : α → Nested V σ β) (w : World V σ) :
    (m >>= k) w = (m w).bind fun x => k x.1 x.2 := rfl

end

variable {V σ : Type} [DecidableEq V]

namespace Tree

variable (t : Tree V σ)

/-- The body of `vnode_namei`, where `self` is its call for the contents of a link. -/
def nameiStep (self : Path → Int → Call V σ (Option V)) (path : Path) (linkCount : Int) : Call V σ (Option V) := do
  if ← lift t.alloc then
    if symloopMax ≤ linkCount then lift (fail .ELOOP none)
    else
      match path with
      | '/' :: ptr =>
        lift (refObject t.rootVnode)
        t.walk (self · (linkCount + 1)) linkCount t.rootVnode (ptr.splitOn '/')
      | ptr =>
        let vp ← read
        lift (refObject vp)
        t.walk (self · (linkCount + 1)) linkCount vp (ptr.splitOn '/')
  else return none

/-! ### Resolution without a limit on the links -/

/-- The symbolic link `nvp` in the directory `vp`. -/
def followedLink (res : V → Path → Nested V σ (Option V)) (vp nvp : V) : Nested V σ (Option V) := do
  if ← linkless t.alloc then
    match ← linkless (t.vfsReadlink nvp) with
    | none => return none
    | some buffer => res vp buffer
  else return none

/-- One component in the directory `vp`. -/
def followedComponent (res : V → Path → Nested V σ (Option V)) (vp : V) (ptr : Name) : Nested V σ (Option V) := do
  if ptr = ['.', '.'] then
    let nvp ← linkless (gets (t.parent ·.rest vp))
    linkless (refObject nvp)
    return some nvp
  else
    match ← linkless (t.child vp ptr) with
    | none => return none
    | some nvp =>
      if ← linkless (gets (t.isLnk ·.rest nvp)) then t.followedLink res vp nvp else return some nvp

/-- The components that are left, from the directory `vp` on. -/
def followedWalk (res : V → Path → Nested V σ (Option V)) : V → List Name → Nested V σ (Option V)
  | vp, [] => return some vp
  | vp, ptr :: ptrs => do
    if ptr = [] ∨ ptr = ['.'] then followedWalk res vp ptrs
    else
      match ← t.followedComponent res vp ptr with
      | none =>
        linkless (t.unrefObject vp)
        return none
      | some nvp => followedWalk res nvp ptrs

/-- The resolution of a path from `dir` with at most so many links inside each other. -/
def follow : Nat → V → Path → Nested V σ (Option V)
  | 0, _, _ => do
    if ← linkless t.alloc then failure else return none
  | depth + 1, dir, path => do
    if ← linkless t.alloc then
      match path with
      | '/' :: ptr =>
        linkless (refObject t.rootVnode)
        t.followedWalk (follow depth) t.rootVnode (ptr.splitOn '/')
      | ptr =>
        linkless (refObject dir)
        t.followedWalk (follow depth) dir (ptr.splitOn '/')
    else return none

def Cyclic (dir : V) (path : Path) (w : World V σ) : Prop := ∀ depth, t.follow depth dir path w = none

/-! ### What the components stand for -/

/-- What a component stands for in the directory `vp`, if there is such a file, and whether it is a symbolic link. -/
def metComponent (vp : V) (ptr : Name) : Action V σ (Option V × Bool) := do
  if ptr = ['.', '.'] then
    let nvp ← gets (t.parent ·.rest vp)
    refObject nvp
    return (some nvp, false)
  else
    match ← t.child vp ptr with
    | none => return (none, false)
    | some nvp => return (some nvp, ← gets (t.isLnk ·.rest nvp))

/-- The same for the components that are left, up to the first that is missing. -/
def metWalk : V → List Name → World V σ → List (Option V × Bool)
  | _, [], _ => []
  | vp, ptr :: ptrs, w =>
    if ptr = [] ∨ ptr = ['.'] then metWalk vp ptrs w
    else
      let m := t.metComponent vp ptr w
      match m.1.1 with
      | none => [m.1]
      | some nvp => m.1 :: metWalk nvp ptrs m.2

/-- What the components of a path stand for, where its relative form starts at `dir`. -/
def met (dir : V) (path : Path) (w : World V σ) : List (Option V × Bool) :=
  if (t.alloc w).1 then
    match path with
    | '/' :: ptr => t.metWalk t.rootVnode (ptr.splitOn '/') (refObject t.rootVnode (t.alloc w).2).2
    | ptr => t.metWalk dir (ptr.splitOn '/') (refObject dir (t.alloc w).2).2
  else []

/-! ### The recursion of `vnode_namei` -/

variable {t}

private theorem vnodeNamei_eq (path : Path) (linkCount : Int) :
    t.vnodeNamei path linkCount = t.nameiStep t.vnodeNamei path linkCount := by
  have hself : (t.vnodeNamei · (linkCount + 1)) = t.namei (symloopMax - (linkCount + 1)).toNat (linkCount + 1) := rfl
  unfold nameiStep
  rw [hself]
  unfold vnodeNamei
  by_cases hl : symloopMax ≤ linkCount
  · have hleft : (symloopMax - linkCount).toNat = 0 := by omega
    rw [hleft, namei]
    simp only [if_pos hl]
  · have hleft : (symloopMax - linkCount).toNat = (symloopMax - (linkCount + 1)).toNat + 1 := by omega
    rw [hleft]
    unfold namei
    funext s
    rw [bind_apply, bind_apply]
    cases (Scoped.lift t.alloc s).1 with
    | false => rfl
    | true => exact congrFun (if_neg hl).symm _

private theorem vnodeNamei_unique {f : Path → Int → Call V σ (Option V)}
    (hf : ∀ path linkCount, f path linkCount = t.nameiStep f path linkCount) : f = t.vnodeNamei := by
  suffices h : ∀ left linkCount, (symloopMax - linkCount).toNat = left →
      (f · linkCount) = (t.vnodeNamei · linkCount) by
    funext path linkCount
    exact congrFun (h _ linkCount rfl) path
  intro left
  induction left with
  | zero =>
    intro linkCount hleft
    have hl : symloopMax ≤ linkCount := by omega
    funext path
    rw [hf, vnodeNamei_eq]
    unfold nameiStep
    simp only [if_pos hl]
  | succ left ih =>
    intro linkCount hleft
    funext path
    rw [hf, vnodeNamei_eq]
    unfold nameiStep
    rw [ih (linkCount + 1) (by omega)]

/-! ### Links that end, and cycles -/

def Ends {α : Type} (f : Nested V σ α) (m : Action V σ α) : Prop := ∀ w x, f w = some x → m w = x

/-- Where following the links does not end, the action fails with `ELOOP`. -/
def Loops (f : Nested V σ (Option V)) (m : Action V σ (Option V)) : Prop :=
  ∀ w, f w = none → (m w).1 = none ∧ (m w).2.errno = .ELOOP

section

variable {V σ α β : Type} {m : Action V σ α}

theorem Ends.pure (a : α) : Ends (pure a : Nested V σ α) (Pure.pure a) := fun _ _ hx => Option.some.inj hx

private theorem Ends.linkless (m : Action V σ α) : Ends (linkless m) m := fun _ _ hx => Option.some.inj hx

theorem Ends.bind {f : Nested V σ α} {k : α → Nested V σ β} {k' : α → Action V σ β} (hf : Ends f m)
    (hk : ∀ a, Ends (k a) (k' a)) : Ends (f >>= k) (m >>= k') := by
  intro w x hx
  rw [nested_bind] at hx
  obtain ⟨y, hy, hx⟩ := Option.bind_eq_some_iff.mp hx
  rw [bind_apply, hf w y hy]
  exact hk _ _ _ hx

theorem Ends.ite {p : Prop} [Decidable p] {f g : Nested V σ α} {n : Action V σ α} (hf : Ends f m) (hg : Ends g n) :
    Ends (if p then f else g) (if p then m else n) := by
  by_cases hp : p
  · rw [if_pos hp, if_pos hp]
    exact hf
  · rw [if_neg hp, if_neg hp]
    exact hg

theorem Loops.pure (a : Option V) (n : Action V σ (Option V)) : Loops (pure a) n := fun _ hx => nomatch hx

theorem Loops.bind {k : α → Nested V σ (Option V)} {k' : α → Action V σ (Option V)}
    (hk : ∀ a, Loops (k a) (k' a)) : Loops (linkless m >>= k) (m >>= k') := by
  intro w hx
  rw [linkless_bind] at hx
  rw [bind_apply]
  exact hk _ _ hx

theorem Loops.ite {p : Prop} [Decidable p] {f g : Nested V σ (Option V)} {m n : Action V σ (Option V)}
    (hf : Loops f m) (hg : Loops g n) : Loops (if p then f else g) (if p then m else n) := by
  by_cases hp : p
  · rw [if_pos hp, if_pos hp]
    exact hf
  · rw [if_neg hp, if_neg hp]
    exact hg

end

section

variable {res : V → Path → Nested V σ (Option V)} {res' : V → Path → Action V σ (Option V)} {linkCount : Int}

omit [DecidableEq V] in
private theorem link_ends (h : ∀ dir path, Ends (res dir path) (res' dir path)) (hl : linkCount < linkMax)
    (vp nvp : V) :
    Ends (t.followedLink res vp nvp) (t.linkFrom res' linkCount vp nvp) := by
  unfold linkFrom
  rw [if_neg (by omega)]
  apply Ends.bind (Ends.linkless _)
  intro ok
  apply Ends.ite
  · apply Ends.bind (Ends.linkless _)
    intro buffer
    cases buffer with
    | none => exact Ends.pure none
    | some buffer => exact h vp buffer
  · exact Ends.pure none

private theorem component_ends (h : ∀ dir path, Ends (res dir path) (res' dir path)) (h0 : 0 ≤ linkCount)
    (hl : linkCount < linkMax) (vp : V) (ptr : Name) :
    Ends (t.followedComponent res vp ptr) (t.componentFrom res' linkCount vp ptr) := by
  unfold componentFrom
  simp only [h0, true_and]
  apply Ends.ite
  · apply Ends.bind (Ends.linkless _)
    intro nvp
    apply Ends.bind (Ends.linkless _)
    intro _
    exact Ends.pure (some nvp)
  · apply Ends.bind (Ends.linkless _)
    intro nvp
    cases nvp with
    | none => exact Ends.pure none
    | some nvp =>
      apply Ends.bind (Ends.linkless _)
      intro lnk
      apply Ends.ite (link_ends h hl vp nvp)
      exact Ends.pure (some nvp)

private theorem walk_ends (h : ∀ dir path, Ends (res dir path) (res' dir path)) (h0 : 0 ≤ linkCount)
    (hl : linkCount < linkMax) (ptrs : List Name) :
    ∀ vp, Ends (t.followedWalk res vp ptrs) (t.walkFrom res' linkCount vp ptrs) := by
  induction ptrs with
  | nil =>
    intro vp
    exact Ends.pure (some vp)
  | cons ptr ptrs ih =>
    intro vp
    apply Ends.ite (ih vp)
    apply Ends.bind (component_ends h h0 hl vp ptr)
    intro nvp
    cases nvp with
    | none =>
      apply Ends.bind (Ends.linkless _)
      intro _
      exact Ends.pure none
    | some nvp => exact ih nvp

/-- The induction is on the links that are followed inside each other: as many are left in the code. -/
private theorem follow_ends (t : Tree V σ) (depth : Nat) :
    ∀ left linkCount, depth ≤ left → 0 ≤ linkCount → linkCount + left ≤ linkMax → ∀ dir path,
      Ends (t.follow depth dir path) (t.resolveFrom left linkCount dir path) := by
  induction depth with
  | zero =>
    intro left linkCount _ _ _ dir path w x hx
    -- nothing is followed, so the copy of the path has failed
    have hok : (t.alloc w).1 = false := by
      by_contra hok
      rw [Bool.not_eq_false] at hok
      rw [follow, linkless_bind, hok] at hx
      exact nomatch hx
    rw [follow, linkless_bind, hok] at hx
    rw [← Option.some.inj hx]
    cases left with
    | zero =>
      rw [resolveFrom, bind_apply, hok]
      rfl
    | succ left =>
      unfold resolveFrom
      rw [bind_apply, hok]
      rfl
  | succ depth ih =>
    intro left linkCount hd h0 hl dir path
    obtain ⟨left, rfl⟩ : ∃ k, left = k + 1 := ⟨left - 1, by omega⟩
    have hres := ih left (linkCount + 1) (by omega) (by omega) (by push_cast at hl; omega)
    unfold follow resolveFrom
    apply Ends.bind (Ends.linkless _)
    intro ok
    apply Ends.ite
    · by_cases habs : ∃ ptr, path = '/' :: ptr
      · obtain ⟨ptr, rfl⟩ := habs
        apply Ends.bind (Ends.linkless _)
        intro _
        exact walk_ends hres h0 (by push_cast at hl; omega) _ _
      · rw [not_exists] at habs
        simp only
        apply Ends.bind (Ends.linkless _)
        intro _
        exact walk_ends hres h0 (by push_cast at hl; omega) _ _
    · exact Ends.pure none

omit [DecidableEq V] in
private theorem link_loops (h : ∀ dir path, Loops (res dir path) (res' dir path)) (vp nvp : V) :
    Loops (t.followedLink res vp nvp) (t.linkFrom res' linkCount vp nvp) := by
  unfold linkFrom
  by_cases hl : linkMax ≤ linkCount
  · rw [if_pos hl]
    intro _ _
    exact ⟨rfl, rfl⟩
  · rw [if_neg hl]
    apply Loops.bind
    intro ok
    apply Loops.ite
    · apply Loops.bind
      intro buffer
      cases buffer with
      | none => exact Loops.pure none _
      | some buffer => exact h vp buffer
    · exact Loops.pure none _

private theorem component_loops (h : ∀ dir path, Loops (res dir path) (res' dir path)) (h0 : 0 ≤ linkCount) (vp : V)
    (ptr : Name) : Loops (t.followedComponent res vp ptr) (t.componentFrom res' linkCount vp ptr) := by
  unfold componentFrom
  simp only [h0, true_and]
  apply Loops.ite
  · apply Loops.bind
    intro nvp
    apply Loops.bind
    intro _
    exact Loops.pure (some nvp) _
  · apply Loops.bind
    intro nvp
    cases nvp with
    | none => exact Loops.pure none _
    | some nvp =>
      apply Loops.bind
      intro lnk
      apply Loops.ite (link_loops h vp nvp)
      exact Loops.pure (some nvp) _

private theorem unrefObject_errno (hd : ∀ v w, (t.dealloc v w).2.errno = w.errno) (v : V) (w : World V σ) :
    (t.unrefObject v w).2.errno = w.errno := by
  simp only [unrefObject, if_true]
  split
  · rfl
  · exact hd _ _

/-- The links end before a component where they do not, so that the code is at the same component. -/
private theorem walk_loops (hd : ∀ v w, (t.dealloc v w).2.errno = w.errno)
    (he : ∀ dir path, Ends (res dir path) (res' dir path)) (h : ∀ dir path, Loops (res dir path) (res' dir path))
    (h0 : 0 ≤ linkCount) (hl : linkCount < linkMax) (ptrs : List Name) :
    ∀ vp, Loops (t.followedWalk res vp ptrs) (t.walkFrom res' linkCount vp ptrs) := by
  induction ptrs with
  | nil =>
    intro vp
    exact Loops.pure (some vp) _
  | cons ptr ptrs ih =>
    intro vp
    apply Loops.ite (ih vp)
    intro w hx
    rw [nested_bind] at hx
    rw [bind_apply]
    cases hc : t.followedComponent res vp ptr w with
    | none =>
      obtain ⟨h1, h2⟩ := component_loops h h0 vp ptr w hc
      rw [h1]
      refine ⟨rfl, ?_⟩
      rw [← h2]
      exact unrefObject_errno hd vp _
    | some x =>
      rw [hc, Option.bind_some] at hx
      rw [component_ends he h0 hl vp ptr w x hc]
      obtain ⟨nvp, w'⟩ := x
      cases nvp with
      | none => exact nomatch hx
      | some nvp => exact ih nvp w' hx

private theorem follow_loops (hd : ∀ v w, (t.dealloc v w).2.errno = w.errno) (left : Nat) :
    ∀ linkCount, 0 ≤ linkCount → linkCount + left ≤ linkMax → ∀ dir path,
      Loops (t.follow left dir path) (t.resolveFrom left linkCount dir path) := by
  induction left with
  | zero =>
    intro linkCount _ _ dir path
    apply Loops.bind
    intro ok
    apply Loops.ite
    · intro _ _
      exact ⟨rfl, rfl⟩
    · exact Loops.pure none _
  | succ left ih =>
    intro linkCount h0 hl dir path
    have hends := follow_ends t left left (linkCount + 1) (le_refl left) (by omega) (by push_cast at hl; omega)
    have hloops := ih (linkCount + 1) (by omega) (by push_cast at hl; omega)
    unfold follow resolveFrom
    apply Loops.bind
    intro ok
    apply Loops.ite
    · by_cases habs : ∃ ptr, path = '/' :: ptr
      · obtain ⟨ptr, rfl⟩ := habs
        apply Loops.bind
        intro _
        exact walk_loops hd hends hloops h0 (by push_cast at hl; omega) _ _
      · rw [not_exists] at habs
        simp only
        apply Loops.bind
        intro _
        exact walk_loops hd hends hloops h0 (by push_cast at hl; omega) _ _
    · exact Loops.pure none _

end

/-! ### No links followed -/

section

variable {res : V → Path → Action V σ (Option V)}

private theorem component_nofollow (vp : V) (ptr : Name) (w : World V σ) :
    t.componentFrom res (-1) vp ptr w = ((t.metComponent vp ptr w).1.1, (t.metComponent vp ptr w).2) := by
  unfold componentFrom metComponent
  by_cases hp : ptr = ['.', '.']
  · rw [if_pos hp, if_pos hp]
    rfl
  · rw [if_neg hp, if_neg hp]
    simp only [bind_apply]
    cases (t.child vp ptr w).1 with
    | none => rfl
    | some nvp => rfl

private theorem component_notLink {linkCount : Int} {vp : V} {ptr : Name} {w : World V σ}
    (h : (t.metComponent vp ptr w).1.2 = false) :
    t.componentFrom res linkCount vp ptr w = ((t.metComponent vp ptr w).1.1, (t.metComponent vp ptr w).2) := by
  unfold componentFrom
  unfold metComponent at h ⊢
  by_cases hp : ptr = ['.', '.']
  · rw [if_pos hp, if_pos hp]
    rfl
  · rw [if_neg hp] at h ⊢
    rw [if_neg hp]
    simp only [bind_apply] at h ⊢
    cases hc : (t.child vp ptr w).1 with
    | none => rfl
    | some nvp =>
      simp only [hc] at h ⊢
      have hlnk : t.isLnk (t.child vp ptr w).2.rest nvp = false := h
      simp only [gets, bind_apply, hlnk, Bool.false_eq_true, and_false, if_false]
      rfl

private theorem walk_notLink {res' : V → Path → Action V σ (Option V)} {linkCount : Int} (ptrs : List Name) :
    ∀ vp w, (∀ e ∈ t.metWalk vp ptrs w, e.2 = false) →
      t.walkFrom res (-1) vp ptrs w = t.walkFrom res' linkCount vp ptrs w := by
  induction ptrs with
  | nil =>
    intro vp w _
    rfl
  | cons ptr ptrs ih =>
    intro vp w h
    unfold walkFrom
    rw [metWalk] at h
    by_cases hp : ptr = [] ∨ ptr = ['.']
    · rw [if_pos hp] at h ⊢
      rw [if_pos hp]
      exact ih vp w h
    · rw [if_neg hp] at h ⊢
      rw [if_neg hp]
      dsimp only at h
      have hlast : (t.metComponent vp ptr w).1.2 = false := by
        cases he : (t.metComponent vp ptr w).1.1 with
        | none =>
          rw [he] at h
          exact h _ (List.mem_singleton.mpr rfl)
        | some nvp =>
          rw [he] at h
          exact h _ (List.mem_cons_self ..)
      rw [bind_apply, bind_apply, component_nofollow, component_notLink hlast]
      cases he : (t.metComponent vp ptr w).1.1 with
      | none => rfl
      | some nvp =>
        rw [he] at h
        exact ih nvp _ fun e hm => h e (List.mem_cons_of_mem _ hm)

/-- With `link_count` at -1 a path is what its last component stands for. -/
private theorem walk_last (ptrs : List Name) :
    ∀ vp w, (t.walkFrom res (-1) vp ptrs w).1 = ((t.metWalk vp ptrs w).getLast?.map Prod.fst).getD (some vp) := by
  induction ptrs with
  | nil =>
    intro vp w
    rfl
  | cons ptr ptrs ih =>
    intro vp w
    unfold walkFrom metWalk
    by_cases hp : ptr = [] ∨ ptr = ['.']
    · rw [if_pos hp, if_pos hp]
      exact ih vp w
    · rw [if_neg hp, if_neg hp, bind_apply, component_nofollow]
      dsimp only
      cases he : (t.metComponent vp ptr w).1.1 with
      | none => exact he.symm
      | some nvp =>
        refine (ih nvp _).trans ?_
        rw [List.getLast?_cons]
        cases (t.metWalk nvp ptrs (t.metComponent vp ptr w).2).getLast? with
        | none => exact he.symm
        | some e => rfl

private theorem walk_stands {vp v : V} {ptrs : List Name} {w : World V σ} {lnk : Bool}
    (h : (t.metWalk vp ptrs w).getLast? = some (some v, lnk)) : (t.walkFrom res (-1) vp ptrs w).1 = some v := by
  rw [walk_last, h]
  rfl

end

private theorem resolve_notLink {dir : V} {path : Path} {w : World V σ} (h : ∀ e ∈ t.met dir path w, e.2 = false) :
    t.resolve dir path (-1) w = t.resolve dir path 0 w := by
  obtain ⟨m, hm⟩ : ∃ m, (symloopMax - -1).toNat = m + 1 := ⟨32, rfl⟩
  obtain ⟨n, h0⟩ : ∃ n, (symloopMax - 0).toNat = n + 1 := ⟨31, rfl⟩
  unfold resolve
  rw [hm, h0]
  unfold resolveFrom
  unfold met at h
  rw [bind_apply, bind_apply]
  cases hok : (t.alloc w).1 with
  | false => rfl
  | true =>
    simp only [hok, if_true] at h ⊢
    split
    · exact walk_notLink _ _ _ h
    · next hrel =>
      split at h
      · exact absurd rfl (hrel _)
      · exact walk_notLink _ _ _ h

private theorem resolve_last {dir : V} {path : Path} {w : World V σ} {v : V} {lnk : Bool}
    (h : (t.met dir path w).getLast? = some (some v, lnk)) : (t.resolve dir path (-1) w).1 = some v := by
  obtain ⟨m, hm⟩ : ∃ m, (symloopMax - -1).toNat = m + 1 := ⟨32, rfl⟩
  unfold resolve
  rw [hm]
  unfold resolveFrom
  unfold met at h
  rw [bind_apply]
  cases hok : (t.alloc w).1 with
  | false =>
    simp only [hok, Bool.false_eq_true, if_false] at h
    exact nomatch h
  | true =>
    simp only [hok, if_true] at h ⊢
    split
    · exact walk_stands h
    · next hrel =>
      split at h
      · exact absurd rfl (hrel _)
      · exact walk_stands h

end Tree

/-- `vnode_namei` is the only solution of its recursion and sets the working directory back; it fails with `ELOOP` on
a cycle of links, and ends as following the links does where at most `SYMLOOP_MAX` of them are inside each other.
With `link_count` at -1 it is the same if no component is a symbolic link, and finds a link that is the last
component. -/
theorem vnodeNamei_links (t : Tree V σ) (path : Path) (s : Scoped V (World V σ)) :
    (∀ f : Path → Int → Call V σ (Option V),
      (∀ path linkCount, f path linkCount = t.nameiStep f path linkCount) ↔ f = t.vnodeNamei) ∧
    (∀ linkCount, (t.vnodeNamei path linkCount s).2.cur = s.cur) ∧
    ((∀ v w, (t.dealloc v w).2.errno = w.errno) → t.Cyclic s.cur path s.rest →
      (t.vnodeNamei path 0 s).1 = none ∧ (t.vnodeNamei path 0 s).2.rest.errno = .ELOOP) ∧
    (∀ (depth : Nat) r w, (depth : Int) ≤ symloopMax → t.follow depth s.cur path s.rest = some (r, w) →
      t.vnodeNamei path 0 s = (r, ⟨s.cur, w⟩)) ∧
    ((∀ e ∈ t.met s.cur path s.rest, e.2 = false) → t.vnodeNamei path (-1) s = t.vnodeNamei path 0 s) ∧
    (∀ v, (t.met s.cur path s.rest).getLast? = some (some v, true) → (t.vnodeNamei path (-1) s).1 = some v) := by
  have hrun (linkCount : Int) : t.vnodeNamei path linkCount s =
      ((t.resolve s.cur path linkCount s.rest).1, ⟨s.cur, (t.resolve s.cur path linkCount s.rest).2⟩) :=
    Tree.vnodeNamei_follows t path linkCount s.cur s.rest
  refine ⟨fun f => ⟨Tree.vnodeNamei_unique, ?_⟩, ?_, ?_, ?_, ?_, ?_⟩
  · rintro rfl path linkCount
    exact Tree.vnodeNamei_eq path linkCount
  · intro linkCount
    rw [hrun]
  · intro hd hc
    rw [hrun]
    exact Tree.follow_loops hd _ 0 (Int.le_refl 0) (by decide) s.cur path s.rest (hc _)
  · intro depth r w hdepth hf
    rw [hrun, Tree.resolve,
      Tree.follow_ends t depth _ 0 (by omega) (Int.le_refl 0) (by decide) s.cur path s.rest (r, w) hf]
  · intro h
    rw [hrun, hrun, Tree.resolve_notLink h]
  · intro v h
    rw [hrun]
    exact Tree.resolve_last h

/-- The root directory 0 holds the directory `d` with a file `f`, the link `l` to `d` and the link `c` to itself. -/
def linkFs : Tree Nat Unit where
  rootVnode := 0
  parent _ _ := 0
  isLnk _ v := v = 1 ∨ v = 4
  mountTable _ := []
  childIno _ dir name :=
    if dir = 0 ∧ name = ['l'] then 1
    else if dir = 0 ∧ name = ['d'] then 2
    else if dir = 2 ∧ name = ['f'] then 3
    else if dir = 0 ∧ name = ['c'] then 4
    else 0
  lookupCache _ _ ino := some ino
  setParent _ _ s := s
  placeCache _ s := s
  alloc := return true
  insertChild _ _ _ := return true
  vfsLookup _ _ := fail .ENOENT none
  vfsReadlink v := return some (if v = 1 then ['d'] else ['c'])
  dealloc _ := return ()

def linkFsFresh : Scoped Nat (World Nat Unit) := ⟨0, ⟨fun _ => 1, .ENOENT, ()⟩⟩

/-- `c` is a cycle, and `l` is found without being followed. -/
theorem linkFs_links :
    ((linkFs.vnodeNamei ['c'] 0 linkFsFresh).1 = none ∧
      (linkFs.vnodeNamei ['c'] 0 linkFsFresh).2.rest.errno = .ELOOP) ∧
    (linkFs.vnodeNamei ['l'] (-1) linkFsFresh).1 = some 1 := by
  have hc (depth : Nat) : ∀ w, linkFs.follow depth 0 ['c'] w = none := by
    induction depth with
    | zero => exact fun _ => rfl
    | succ depth ih =>
      intro w
      exact (congrArg (Option.bind · _) (ih _)).trans rfl
  exact ⟨(vnodeNamei_links linkFs ['c'] linkFsFresh).2.2.1 (fun _ _ => rfl) fun depth => hc depth _,
    (vnodeNamei_links linkFs ['l'] linkFsFresh).2.2.2.2.2 1 (by decide)⟩

/-- With `link_count` at -1 the links before the last component are not followed either: `l/f` is a file that is no
link, and is not found. -/
theorem nofollow_concerns_every_component :
    ¬ ∀ (t : Tree Nat Unit) (dir : Path) (name : Name) (s : Scoped Nat (World Nat Unit)), '/' ∉ name →
      (∀ vp v, (t.vnodeNamei dir 0 s).1 = some vp →
        (t.child vp name (t.vnodeNamei dir 0 s).2.rest).1 = some v →
          t.isLnk (t.child vp name (t.vnodeNamei dir 0 s).2.rest).2.rest v = false) →
      (t.vnodeNamei (dir ++ '/' :: name) (-1) s).1 = (t.vnodeNamei (dir ++ '/' :: name) 0 s).1 := by
  intro h
  refine absurd (h linkFs ['l'] ['f'] linkFsFresh (by decide) ?_) (by decide)
  intro vp v hvp hv
  have h2 : (linkFs.vnodeNamei ['l'] 0 linkFsFresh).1 = some 2 := by decide
  rw [h2] at hvp
  obtain rfl : 2 = vp := Option.some.inj hvp
  have h3 : (linkFs.child 2 ['f'] (linkFs.vnodeNamei ['l'] 0 linkFsFresh).2.rest).1 = some 3 := by decide
  rw [h3] at hv
  obtain rfl : 3 = v := Option.some.inj hv
  decide

end Pml.Vfs
