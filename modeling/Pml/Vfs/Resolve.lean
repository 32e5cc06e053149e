import Pml.Basic
import Pml.Lib.Scoped

/-!
# Resolution of paths (`drivers/fs/vtree.c`)

`vnode_namei` starts a relative path at the working directory, and sets the working directory for the time of a
symbolic link to the directory that holds the link.  `resolve` and `resolveDir` are the same functions with the
directory to start at as an argument; nothing in them sets a working directory.  `vnodeNamei_follows` and
`vnodeDirName_follows` connect the two.

What a file system, the allocator and the caches do is a member of `Tree`.  These members are actions on the `World`,
which has no working directory: outside `vtree.c` and the `at` calls only `chdir`, `fchdir`, `fork` and the boot code
mention it.
-/

namespace Pml.Vfs

open Scoped

abbrev Path := List Char

abbrev Name := List Char

abbrev atFdcwd : Int := -2

abbrev symloopMax : Int := 32

abbrev linkMax : Int := 128

/-- The reference counts of the vnodes, `errno`, and everything else but the working directory. -/
structure World (V σ : Type) where
  refs : V → UInt32
  errno : Errno
  rest : σ

/-- An entry of `mount_table`. -/
structure Mount (V : Type) where
  rootVnode : V
  parent : Option V
  rootName : Option Name

abbrev Action (V σ α : Type) := StateM (World V σ) α

/-- An action of a process, whose `THIS_PROCESS->cwd` is the variable. -/
abbrev Call (V σ α : Type) := StateM (Scoped V (World V σ)) α

/-- The vnodes, the members of a vnode that the resolution reads, and the functions that it calls.  `childIno` is the
lookup in `vp->children` and `insertChild` the insertion, `lookupCache` is `vnode_lookup_cache` for the mount of the
vnode, and `alloc` is `strdup` or `malloc`. -/
structure Tree (V σ : Type) where
  rootVnode : V
  parent : σ → V → V
  isLnk : σ → V → Bool
  mountTable : σ → List (Mount V)
  childIno : σ → V → Name → Nat
  lookupCache : σ → V → Nat → Option V
  setParent : V → V → σ → σ
  placeCache : V → σ → σ
  alloc : Action V σ Bool
  insertChild : V → V → Name → Action V σ Bool
  vfsLookup : V → Name → Action V σ (Option V)
  vfsReadlink : V → Action V σ (Option Path)
  dealloc : V → Action V σ Unit

section

variable {V σ α : Type} [DecidableEq V]

/-- A part of the state that is not `THIS_PROCESS->cwd`. -/
def gets (f : World V σ → α) : Action V σ α := fun w => (f w, w)

/-- `RETV_ERROR` -/
def fail (e : Errno) (a : α) : Action V σ α := fun w => (a, { w with errno := e })

def refObject (v : V) : Action V σ Unit :=
  fun w => ((), { w with refs := fun u => if u = v then w.refs u + 1 else w.refs u })

namespace Tree

variable (t : Tree V σ)

def unrefObject (v : V) : Action V σ Unit := fun w =>
  let w' : World V σ := { w with refs := fun u => if u = v then w.refs u - 1 else w.refs u }
  if w'.refs v ≠ 0 then ((), w') else t.dealloc v w'

def vnodeFindMountPoint (vp : V) (name : Name) : Action V σ (Option V) := do
  match (← gets (t.mountTable ·.rest)).find? fun mp => decide (mp.parent = some vp ∧ mp.rootName = some name) with
  | none => return none
  | some mp =>
    refObject mp.rootVnode
    return some mp.rootVnode

def vnodeAddChild (vp child : V) (name : Name) : Action V σ Unit := do
  if ← t.insertChild vp child name then
    refObject child
    modify fun w => { w with rest := t.setParent child vp w.rest }
    refObject vp

def vnodeLookupChild (dir : V) (name : Name) : Action V σ (Option V) := do
  let ino ← gets (t.childIno ·.rest dir name)
  if ino ≠ 0 then
    match ← gets (t.lookupCache ·.rest dir ino) with
    | none => return none
    | some vp =>
      refObject vp
      return some vp
  else
    match ← t.vfsLookup dir name with
    | none => return none
    | some vp =>
      modify fun w => { w with rest := t.placeCache vp w.rest }
      t.vnodeAddChild dir vp name
      return some vp

def child (vp : V) (name : Name) : Action V σ (Option V) := do
  match ← t.vnodeFindMountPoint vp name with
  | some nvp => return some nvp
  | none => t.vnodeLookupChild vp name

/-! ### `vnode_namei` and `vnode_dir_name` -/

/-- The symbolic link `nvp` in the directory `vp`, where `namei` resolves its contents. -/
def followLink (namei : Path → Call V σ (Option V)) (linkCount : Int) (vp nvp : V) : Call V σ (Option V) := do
  let cwd ← read
  if linkMax ≤ linkCount then lift (fail .ELOOP none)
  else if ← lift t.alloc then
    assign vp
    match ← lift (t.vfsReadlink nvp) with
    | none =>
      assign cwd
      return none
    | some buffer =>
      let nvp ← namei buffer
      assign cwd
      return nvp
  else return none

/-- The vnode that the component `ptr` stands for in the directory `vp`. -/
def component (namei : Path → Call V σ (Option V)) (linkCount : Int) (vp : V) (ptr : Name) :
    Call V σ (Option V) := do
  if ptr = ['.', '.'] then
    let nvp ← lift (gets (t.parent ·.rest vp))
    lift (refObject nvp)
    return some nvp
  else
    match ← lift (t.child vp ptr) with
    | none => return none
    | some nvp =>
      if 0 ≤ linkCount ∧ (← lift (gets (t.isLnk ·.rest nvp))) then t.followLink namei linkCount vp nvp
      else return some nvp

/-- The loop of `vnode_namei` over the components that are left. -/
def walk (namei : Path → Call V σ (Option V)) (linkCount : Int) : V → List Name → Call V σ (Option V)
  | vp, [] => return some vp
  | vp, ptr :: ptrs => do
    if ptr = [] ∨ ptr = ['.'] then walk namei linkCount vp ptrs
    else
      match ← t.component namei linkCount vp ptr with
      | none =>
        lift (t.unrefObject vp)
        return none
      | some nvp => walk namei linkCount nvp ptrs

/-- `vnode_namei`, where `left` is `SYMLOOP_MAX - link_count`. -/
def namei : Nat → Int → Path → Call V σ (Option V)
  | 0, _, _ => do
    if ← lift t.alloc then lift (fail .ELOOP none) else return none
  | left + 1, linkCount, path => do
    if ← lift t.alloc then
      match path with
      | '/' :: ptr =>
        lift (refObject t.rootVnode)
        t.walk (namei left (linkCount + 1)) linkCount t.rootVnode (ptr.splitOn '/')
      | ptr =>
        let vp ← read
        lift (refObject vp)
        t.walk (namei left (linkCount + 1)) linkCount vp (ptr.splitOn '/')
    else return none

def vnodeNamei (path : Path) (linkCount : Int) : Call V σ (Option V) :=
  t.namei (symloopMax - linkCount).toNat linkCount path

def lastName (path : Path) : Name := (path.reverse.takeWhile (· ≠ '/')).reverse

/-- `vnode_dir_name`: `*dir` and `*name`, or `none` on failure. -/
def vnodeDirName (path : Path) : Call V σ (Option (V × Name)) := do
  if ← lift t.alloc then
    if '/' ∈ path then
      match path.take (path.length - (lastName path).length - 1) with
      | [] =>
        lift (refObject t.rootVnode)
        return some (t.rootVnode, path.drop 1)
      | ptr =>
        match ← t.vnodeNamei ptr 0 with
        | none => return none
        | some vp => return some (vp, lastName path)
    else
      let cwd ← read
      lift (refObject cwd)
      return some (cwd, path)
  else return none

/-! ### Resolution from a directory

The same functions with the directory that a relative path starts at as an argument. -/

/-- The symbolic link `nvp` in the directory `vp`. -/
def linkFrom (resolve : V → Path → Action V σ (Option V)) (linkCount : Int) (vp nvp : V) : Action V σ (Option V) := do
  if linkMax ≤ linkCount then fail .ELOOP none
  else if ← t.alloc then
    match ← t.vfsReadlink nvp with
    | none => return none
    | some buffer => resolve vp buffer
  else return none

/-- One component in the directory `vp`. -/
def componentFrom (resolve : V → Path → Action V σ (Option V)) (linkCount : Int) (vp : V) (ptr : Name) :
    Action V σ (Option V) := do
  if ptr = ['.', '.'] then
    let nvp ← gets (t.parent ·.rest vp)
    refObject nvp
    return some nvp
  else
    match ← t.child vp ptr with
    | none => return none
    | some nvp =>
      if 0 ≤ linkCount ∧ (← gets (t.isLnk ·.rest nvp)) then t.linkFrom resolve linkCount vp nvp
      else return some nvp

/-- The components that are left, from the directory `vp` on. -/
def walkFrom (resolve : V → Path → Action V σ (Option V)) (linkCount : Int) :
    V → List Name → Action V σ (Option V)
  | vp, [] => return some vp
  | vp, ptr :: ptrs => do
    if ptr = [] ∨ ptr = ['.'] then walkFrom resolve linkCount vp ptrs
    else
      match ← t.componentFrom resolve linkCount vp ptr with
      | none =>
        t.unrefObject vp
        return none
      | some nvp => walkFrom resolve linkCount nvp ptrs

/-- A path, from the root directory if it is absolute and from `dir` otherwise. -/
def resolveFrom : Nat → Int → V → Path → Action V σ (Option V)
  | 0, _, _, _ => do
    if ← t.alloc then fail .ELOOP none else return none
  | left + 1, linkCount, dir, path => do
    if ← t.alloc then
      match path with
      | '/' :: ptr =>
        refObject t.rootVnode
        t.walkFrom (resolveFrom left (linkCount + 1)) linkCount t.rootVnode (ptr.splitOn '/')
      | ptr =>
        refObject dir
        t.walkFrom (resolveFrom left (linkCount + 1)) linkCount dir (ptr.splitOn '/')
    else return none

def resolve (dir : V) (path : Path) (linkCount : Int) : Action V σ (Option V) :=
  t.resolveFrom (symloopMax - linkCount).toNat linkCount dir path

/-- The directory and the name of a path whose relative form starts at `dir`. -/
def resolveDir (dir : V) (path : Path) : Action V σ (Option (V × Name)) := do
  if ← t.alloc then
    if '/' ∈ path then
      match path.take (path.length - (lastName path).length - 1) with
      | [] =>
        refObject t.rootVnode
        return some (t.rootVnode, path.drop 1)
      | ptr =>
        match ← t.resolve dir ptr 0 with
        | none => return none
        | some vp => return some (vp, lastName path)
    else
      refObject dir
      return some (dir, path)
  else return none

/-! ### Absolute paths -/

private theorem resolveFrom_absolute {t : Tree V σ} (left : Nat) (linkCount : Int) {path : Path}
    (h : path.head? = some '/')
    (d d' : V) : t.resolveFrom left linkCount d path = t.resolveFrom left linkCount d' path := by
  obtain ⟨ptr, rfl⟩ := List.head?_eq_some_iff.1 h
  cases left with
  | zero => rfl
  | succ left => rfl

theorem resolveDir_absolute {t : Tree V σ} {path : Path} (h : path.head? = some '/') (d d' : V) :
    t.resolveDir d path = t.resolveDir d' path := by
  obtain ⟨ptr, rfl⟩ := List.head?_eq_some_iff.1 h
  unfold resolveDir
  have hslash : '/' ∈ '/' :: ptr := List.mem_cons_self
  simp only [if_pos hslash]
  cases hn : ('/' :: ptr).length - (lastName ('/' :: ptr)).length - 1 with
  | zero => rfl
  | succ n =>
    simp only [List.take_succ_cons, resolve]
    rw [resolveFrom_absolute _ 0 rfl d d']

/-! ### The working directory during `vnode_namei` -/

variable {t} {namei : Path → Call V σ (Option V)} {res : V → Path → Action V σ (Option V)}

omit [DecidableEq V] in
private theorem followLink_follows (h : ∀ path, Follows (namei path) (res · path)) (linkCount : Int) (vp nvp : V) :
    Follows (t.followLink namei linkCount vp nvp) fun _ => t.linkFrom res linkCount vp nvp := by
  intro cwd
  apply Moves.read
  apply Moves.ite (Moves.lift cwd _)
  apply Moves.bind (Moves.lift cwd _)
  intro ok
  apply Moves.ite
  · apply Moves.assign
    apply Moves.bind (Moves.lift vp _)
    intro buffer
    cases buffer with
    | none => exact Moves.assign (Moves.pure cwd _)
    | some buffer =>
      -- the contents are resolved from `vp`, and the assignment that sets `cwd` back is the last step
      intro e
      simp only [bind_apply, assign_apply]
      rw [h buffer vp e]
      rfl
  · exact Moves.pure cwd _

private theorem component_follows (h : ∀ path, Follows (namei path) (res · path)) (linkCount : Int) (vp : V)
    (ptr : Name) :
    Follows (t.component namei linkCount vp ptr) fun _ => t.componentFrom res linkCount vp ptr := by
  intro cwd
  apply Moves.ite
  · apply Moves.bind (Moves.lift cwd _)
    intro nvp
    apply Moves.bind (Moves.lift cwd _)
    intro _
    exact Moves.pure cwd _
  · apply Moves.bind (Moves.lift cwd _)
    intro nvp
    cases nvp with
    | none => exact Moves.pure cwd _
    | some nvp =>
      apply Moves.bind (Moves.lift cwd _)
      intro lnk
      apply Moves.ite
      · exact followLink_follows h linkCount vp nvp cwd
      · exact Moves.pure cwd _

private theorem walk_follows (h : ∀ path, Follows (namei path) (res · path)) (linkCount : Int) (ptrs : List Name) :
    ∀ vp, Follows (t.walk namei linkCount vp ptrs) fun _ => t.walkFrom res linkCount vp ptrs := by
  induction ptrs with
  | nil =>
    intro vp cwd
    exact Moves.pure cwd _
  | cons ptr ptrs ih =>
    intro vp cwd
    apply Moves.ite (ih vp cwd)
    apply Moves.bind (component_follows h linkCount vp ptr cwd)
    intro nvp
    cases nvp with
    | none =>
      apply Moves.bind (Moves.lift cwd _)
      intro _
      exact Moves.pure cwd _
    | some nvp => exact ih nvp cwd

/-- The induction is on the links that may still be followed: a link is resolved with one less. -/
private theorem namei_follows (t : Tree V σ) (left : Nat) :
    ∀ linkCount path, Follows (t.namei left linkCount path) (t.resolveFrom left linkCount · path) := by
  induction left with
  | zero =>
    intro linkCount path cwd
    apply Moves.bind (Moves.lift cwd _)
    intro ok
    apply Moves.ite
    · exact Moves.lift cwd _
    · exact Moves.pure cwd _
  | succ left ih =>
    intro linkCount path cwd
    unfold namei resolveFrom
    apply Moves.bind (Moves.lift cwd _)
    intro ok
    apply Moves.ite
    · split
      · apply Moves.bind (Moves.lift cwd _)
        intro _
        exact walk_follows (ih (linkCount + 1)) linkCount _ t.rootVnode cwd
      · apply Moves.read
        apply Moves.bind (Moves.lift cwd _)
        intro _
        exact walk_follows (ih (linkCount + 1)) linkCount _ cwd cwd
    · exact Moves.pure cwd _

theorem vnodeNamei_follows (t : Tree V σ) (path : Path) (linkCount : Int) :
    Follows (t.vnodeNamei path linkCount) (t.resolve · path linkCount) :=
  namei_follows t _ linkCount path

theorem vnodeDirName_follows (t : Tree V σ) (path : Path) : Follows (t.vnodeDirName path) (t.resolveDir · path) := by
  intro cwd
  unfold vnodeDirName resolveDir
  apply Moves.bind (Moves.lift cwd _)
  intro ok
  apply Moves.ite
  · apply Moves.ite
    · split
      · apply Moves.bind (Moves.lift cwd _)
        intro _
        exact Moves.pure cwd _
      · apply Moves.bind (vnodeNamei_follows t _ 0 cwd)
        intro vp
        cases vp with
        | none => exact Moves.pure cwd _
        | some vp => exact Moves.pure cwd _
    · apply Moves.read
      apply Moves.bind (Moves.lift cwd _)
      intro _
      exact Moves.pure cwd _
  · exact Moves.pure cwd _

end Tree

end

end Pml.Vfs
