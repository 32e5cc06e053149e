import Pml.Vfs.Resolve

/-!
# Calls relative to a directory (`drivers/fs/syscall.c`)

The `at` calls put the vnode of a directory descriptor in the place of the working directory, call the function that
takes a path, and put the working directory back.  `sys_renameat` and `sys_linkat` do so twice.  They do not put the
working directory back in between: with a descriptor first and `AT_FDCWD` second the second path starts at the first
directory, and with a second descriptor that is not open they return at once.
-/

namespace Pml.Vfs

open Scoped

abbrev oWronly : UInt32 := 1
abbrev oRdwr : UInt32 := 2
abbrev oAccmode : UInt32 := 3
abbrev oCreat : UInt32 := 8
abbrev oExcl : UInt32 := 32
abbrev oNofollow : UInt32 := 1024
abbrev oDirectory : UInt32 := 2048

abbrev xOk : UInt32 := 1
abbrev wOk : UInt32 := 2
abbrev rOk : UInt32 := 4
abbrev fOk : UInt32 := 8

abbrev atSymlinkFollow : UInt32 := 1
abbrev atSymlinkNofollow : UInt32 := 2
abbrev atEaccess : UInt32 := 4
abbrev atRemovedir : UInt32 := 8

/-- What the calls use beside the resolution of paths: members of a vnode and of its mount, the file creation mask,
the descriptors, and the entry points of the virtual file system.  The first argument of `vfsCreate` and `vfsMkdir`
tells whether the caller wants the vnode.  A buffer or an array of the caller is its address. -/
structure Calls (V σ : Type) extends Tree V σ where
  isDir : σ → V → Bool
  rdonly : σ → V → Bool
  mount : σ → V → Nat
  umask : σ → UInt32
  fileFd : σ → Int → Option V
  allocFd : Action V σ (Option Nat)
  allocProcfd : Action V σ (Option Nat)
  freeProcfd : Nat → Action V σ Unit
  freeFd : Nat → Action V σ Unit
  fillFd : Nat → Nat → V → UInt32 → Action V σ Unit
  vfsCanRead : V → Bool → Action V σ Bool
  vfsCanWrite : V → Bool → Action V σ Bool
  vfsCanExec : V → Bool → Action V σ Bool
  vfsCreate : Bool → V → Name → UInt32 → Nat → Action V σ (Option V)
  vfsMkdir : Bool → V → Name → UInt32 → Action V σ (Option V)
  vfsUnlink : V → Name → Action V σ Int
  vfsSymlink : V → Name → Path → Action V σ Int
  vfsRename : V → Name → V → Name → Action V σ Int
  vfsLink : V → V → Name → Action V σ Int
  vfsReadlinkInto : V → Nat → Nat → Action V σ Int
  vfsUtime : V → Nat → Action V σ Int
  vfsChmod : V → UInt32 → Action V σ Int
  vfsChown : V → UInt32 → UInt32 → Action V σ Int

namespace Calls

variable {V σ α : Type} [DecidableEq V] (fs : Calls V σ)

/-! ### The calls that take a path -/

/-- `(mode & bit) && !can (vp, real)`, where `can` is asked only for a wanted bit. -/
def refuses (wanted : Bool) (can : Action V σ Bool) : Action V σ Bool := do
  if wanted then return !(← can) else return false

def xaccess (vp : V) (mode : UInt32) (real : Bool) : Action V σ Int := do
  let mayWrite := do if ← gets (fs.rdonly ·.rest vp) then return false else fs.vfsCanWrite vp real
  if mode = fOk then return 0
  else if mode = mode &&& (rOk ||| wOk ||| xOk) then
    if ← refuses (mode &&& rOk ≠ 0) (fs.vfsCanRead vp real) then fail .EACCES (-1)
    else if ← refuses (mode &&& wOk ≠ 0) mayWrite then fail .EACCES (-1)
    else if ← refuses (mode &&& xOk ≠ 0) (fs.vfsCanExec vp real) then fail .EACCES (-1)
    else return 0
  else fail .EINVAL (-1)

def xrename (oldDir : V) (oldName : Name) (newDir : V) (newName : Name) : Action V σ Int := do
  match ← fs.vfsLookup oldDir oldName with
  | none => return -1
  | some vp =>
    let mount ← gets (fs.mount ·.rest)
    if mount vp ≠ mount oldDir then
      fail .EBUSY ()
      fs.unrefObject vp
      return -1
    else if mount oldDir ≠ mount newDir then
      fail .EXDEV ()
      fs.unrefObject vp
      return -1
    else
      fs.unrefObject vp
      fs.vfsRename oldDir oldName newDir newName

def xlink (vp dir : V) (name : Name) : Action V σ Int := do
  let mount ← gets (fs.mount ·.rest)
  if mount vp ≠ mount dir then fail .EXDEV (-1)
  else
    match ← fs.vfsLookup dir name with
    | some scratch =>
      fs.unrefObject scratch
      fail .EEXIST (-1)
    | none =>
      if (← gets (·.errno)) ≠ .ENOENT then fail .EEXIST (-1)
      else fs.vfsLink dir vp name

/-- The vnode that `sys_open` makes for a path that does not exist. -/
def openNew (path : Path) (flags mode : UInt32) : Call V σ (Option V) := do
  match ← fs.vnodeDirName path with
  | none => return none
  | some (dir, name) =>
    if ← lift (gets (fs.rdonly ·.rest dir)) then
      lift (fs.unrefObject dir)
      lift (fail .EROFS none)
    else if name = ['.'] ∨ name = ['.', '.'] then
      lift (fs.unrefObject dir)
      lift (fail .ENOENT none)
    else
      let mode := mode &&& ~~~ (← lift (gets (fs.umask ·.rest)))
      let vp ← lift (if flags &&& oDirectory ≠ 0 then fs.vfsMkdir true dir name mode
        else fs.vfsCreate true dir name mode 0)
      lift (fs.unrefObject dir)
      return vp

/-- The vnode that `sys_open` opens. -/
def openVnode (path : Path) (flags mode : UInt32) : Call V σ (Option V) := do
  match ← fs.vnodeNamei path (if flags &&& oNofollow ≠ 0 then -1 else 0) with
  | none =>
    if (← lift (gets (·.errno))) = .ENOENT ∧ flags &&& oCreat ≠ 0 then fs.openNew path flags mode
    else return none
  | some vp =>
    if flags &&& oCreat ≠ 0 ∧ flags &&& oExcl ≠ 0 then
      lift (fs.unrefObject vp)
      lift (fail .EEXIST none)
    else return some vp

def sysOpen (path : Path) (flags mode : UInt32) : Call V σ Int := do
  match ← lift fs.allocFd with
  | none => lift (fail .ENFILE (-1))
  | some sysfd =>
    match ← lift fs.allocProcfd with
    | none =>
      lift (fs.freeFd sysfd)
      return -1
    | some fd =>
      match ← fs.openVnode path flags mode with
      | none =>
        lift (fs.freeProcfd fd)
        lift (fs.freeFd sysfd)
        return -1
      | some vp =>
        if (← lift (gets (fs.rdonly ·.rest vp))) ∧ (flags &&& oAccmode = oWronly ∨ flags &&& oAccmode = oRdwr) then
          lift (fs.unrefObject vp)
          lift (fail .EROFS ())
          lift (fs.freeProcfd fd)
          lift (fs.freeFd sysfd)
          return -1
        else
          lift (fs.fillFd fd sysfd vp flags)
          return fd

def sysMknod (path : Path) (mode : UInt32) (dev : Nat) : Call V σ Int := do
  match ← fs.vnodeDirName path with
  | none => return -1
  | some (dir, name) =>
    match ← lift (fs.vfsLookup dir name) with
    | some scratch =>
      lift (fs.unrefObject scratch)
      lift (fail .EEXIST ())
      lift (fs.unrefObject dir)
      return -1
    | none =>
      if (← lift (gets (·.errno))) ≠ .ENOENT then
        lift (fail .EEXIST ())
        lift (fs.unrefObject dir)
        return -1
      else
        let ret ← lift (fs.vfsCreate false dir name mode dev)
        lift (fs.unrefObject dir)
        return if ret.isSome then 0 else -1

/-- A function of the directory and the name of a path, which then gives the directory back. -/
def inDirectory (path : Path) (f : V → Name → Action V σ Int) : Call V σ Int := do
  match ← fs.vnodeDirName path with
  | none => return -1
  | some (dir, name) =>
    let ret ← lift (f dir name)
    lift (fs.unrefObject dir)
    return ret

def sysMkdir (path : Path) (mode : UInt32) : Call V σ Int :=
  fs.inDirectory path fun dir name => do return if (← fs.vfsMkdir false dir name mode).isSome then 0 else -1

def sysUnlink (path : Path) : Call V σ Int := fs.inDirectory path fs.vfsUnlink

def sysSymlink (oldPath newPath : Path) : Call V σ Int :=
  fs.inDirectory newPath fun dir name => fs.vfsSymlink dir name oldPath

def sysRmdir (path : Path) : Call V σ Int := do
  match ← fs.vnodeDirName path with
  | none => return -1
  | some (dir, name) =>
    if ← lift (gets (fs.isDir ·.rest dir)) then
      let ret ← lift (fs.vfsUnlink dir name)
      lift (fs.unrefObject dir)
      return ret
    else
      lift (fs.unrefObject dir)
      lift (fail .ENOTDIR (-1))

/-- A function of the vnode of a path, which then gives the vnode back; `ret` is returned for a path without vnode. -/
def onVnode (path : Path) (links : Int) (ret : Int) (f : V → Action V σ Int) : Call V σ Int := do
  match ← fs.vnodeNamei path links with
  | none => return ret
  | some vp =>
    let ret ← lift (f vp)
    lift (fs.unrefObject vp)
    return ret

def sysReadlink (path : Path) (buffer len : Nat) : Call V σ Int :=
  fs.onVnode path (-1) (-1) (fs.vfsReadlinkInto · buffer len)

def xchmod (path : Path) (mode : UInt32) (followLinks : Bool) : Call V σ Int :=
  fs.onVnode path (if followLinks then 0 else -1) (-1) (fs.vfsChmod · mode)

def xchown (path : Path) (uid gid : UInt32) (followLinks : Bool) : Call V σ Int :=
  fs.onVnode path (if followLinks then 0 else -1) (-1) (fs.vfsChown · uid gid)

/-! ### The `at` calls -/

/-- The first block of an `at` call: the vnode of the descriptor becomes the working directory.  The result is
`unref`, or `none` if the descriptor is not open. -/
def enter (dirfd : Int) : Call V σ (Option Bool) := do
  if dirfd = atFdcwd then return some false
  else
    match ← lift (gets (fs.fileFd ·.rest dirfd)) with
    | none => lift (fail .EBADF none)
    | some vp =>
      assign vp
      lift (refObject vp)
      return some true

/-- `if (unref) UNREF_OBJECT (THIS_PROCESS->cwd);` -/
def drop (unref : Bool) : Call V σ Unit := do
  if unref then lift (fs.unrefObject (← read)) else return ()

/-- The body of an `at` call with one directory. -/
def atCall (dirfd : Int) (func : Call V σ Int) : Call V σ Int := do
  let cwd ← read
  match ← fs.enter dirfd with
  | none => return -1
  | some unref =>
    let ret ← func
    fs.drop unref
    assign cwd
    return ret

def sysOpenat (dirfd : Int) (path : Path) (flags mode : UInt32) : Call V σ Int :=
  fs.atCall dirfd (fs.sysOpen path flags mode)

def sysFaccessat (dirfd : Int) (path : Path) (mode flags : UInt32) : Call V σ Int :=
  let real := flags &&& atEaccess = 0
  let links := if flags &&& atSymlinkNofollow ≠ 0 then -1 else 0
  fs.atCall dirfd (fs.onVnode path links (-1) (fs.xaccess · mode real))

def sysMknodat (dirfd : Int) (path : Path) (mode : UInt32) (dev : Nat) : Call V σ Int :=
  fs.atCall dirfd (fs.sysMknod path mode dev)

def sysMkdirat (dirfd : Int) (path : Path) (mode : UInt32) : Call V σ Int := fs.atCall dirfd (fs.sysMkdir path mode)

def sysUnlinkat (dirfd : Int) (path : Path) (flags : UInt32) : Call V σ Int :=
  fs.atCall dirfd (if flags &&& atRemovedir ≠ 0 then fs.sysRmdir path else fs.sysUnlink path)

def sysSymlinkat (oldPath : Path) (newDirfd : Int) (newPath : Path) : Call V σ Int :=
  fs.atCall newDirfd (fs.sysSymlink oldPath newPath)

def sysReadlinkat (dirfd : Int) (path : Path) (buffer len : Nat) : Call V σ Int :=
  fs.atCall dirfd (fs.sysReadlink path buffer len)

/-- `sys_utimensat`, which returns a variable without value for a path without vnode: `ret` is what it holds. -/
def sysUtimensat (ret : Int) (dirfd : Int) (path : Path) (times : Nat) (flags : UInt32) : Call V σ Int :=
  let links := if flags &&& atSymlinkNofollow = 0 then -1 else 0
  fs.atCall dirfd (fs.onVnode path links ret (fs.vfsUtime · times))

def sysFchmodat (dirfd : Int) (path : Path) (mode flags : UInt32) : Call V σ Int :=
  fs.atCall dirfd (fs.xchmod path mode (flags &&& atSymlinkNofollow = 0))

def sysFchownat (dirfd : Int) (path : Path) (uid gid flags : UInt32) : Call V σ Int :=
  fs.atCall dirfd (fs.xchown path uid gid (flags &&& atSymlinkNofollow = 0))

/-- The second half of a call with two directories: the block for the new directory, the resolution of the new path
and the function of its directory and name, with the reference to `old` held until the end. -/
def toNew (cwd old : V) (newDirfd : Int) (newPath : Path) (f : V → Name → Action V σ Int) : Call V σ Int := do
  match ← fs.enter newDirfd with
  | none => return -1
  | some unref =>
    match ← fs.vnodeDirName newPath with
    | none =>
      lift (fs.unrefObject old)
      fs.drop unref
      assign cwd
      return -1
    | some (dir, name) =>
      let ret ← lift (f dir name)
      lift (fs.unrefObject dir)
      lift (fs.unrefObject old)
      fs.drop unref
      assign cwd
      return ret

/-- The first half of a call with two directories, which looks up the old path and gives the first directory back.
The working directory stays at it.  The result is `none` if the descriptor is not open. -/
def fromOld (first : Call V σ (Option α)) (oldDirfd : Int) : Call V σ (Option (Option α)) := do
  match ← fs.enter oldDirfd with
  | none => return none
  | some unref =>
    let a ← first
    fs.drop unref
    return some a

/-- The body of an `at` call with two directories.  `first` looks up the old path and `old` is the vnode that it takes
a reference to; `ret` is what the call returns when the lookup fails. -/
def atCall2 (first : Call V σ (Option α)) (old : α → V) (f : α → V → Name → Action V σ Int) (ret oldDirfd : Int)
    (newDirfd : Int) (newPath : Path) : Call V σ Int := do
  let cwd ← read
  match ← fs.fromOld first oldDirfd with
  | none => return -1
  | some none =>
    assign cwd
    return ret
  | some (some a) => fs.toNew cwd (old a) newDirfd newPath (f a)

def sysRenameat (oldDirfd : Int) (oldPath : Path) (newDirfd : Int) (newPath : Path) : Call V σ Int :=
  fs.atCall2 (fs.vnodeDirName oldPath) Prod.fst (fun old => fs.xrename old.1 old.2) (-1) oldDirfd newDirfd newPath

/-- `links` of `sys_linkat` -/
def linkatLinks (flags : UInt32) : Int := if flags &&& atSymlinkFollow ≠ 0 then 0 else -1

/-- `sys_linkat`, which returns a variable without value for an old path without vnode: `ret` is what it holds. -/
def sysLinkat (ret : Int) (oldDirfd : Int) (oldPath : Path) (newDirfd : Int) (newPath : Path) (flags : UInt32) :
    Call V σ Int :=
  fs.atCall2 (fs.vnodeNamei oldPath (linkatLinks flags)) id fs.xlink ret oldDirfd newDirfd newPath

/-! ### Where the resolution of a path starts -/

/-- A path argument with its directory argument, and the state in which its resolution starts. -/
structure Start (V σ : Type) where
  dirfd : Int
  path : Path
  state : Scoped V (World V σ)

/-- The path, unless its descriptor is not open. -/
def startAt (dirfd : Int) (path : Path) (s : Scoped V (World V σ)) : List (Start V σ) :=
  match fs.enter dirfd s with
  | (none, _) => []
  | (some _, s) => [⟨dirfd, path, s⟩]

/-- The two paths of a call with two directories, of which the second is resolved only after the first is found. -/
def startAt2 (first : Call V σ (Option α)) (oldDirfd : Int) (oldPath : Path) (newDirfd : Int) (newPath : Path)
    (s : Scoped V (World V σ)) : List (Start V σ) :=
  fs.startAt oldDirfd oldPath s ++
    match fs.fromOld first oldDirfd s with
    | (some (some _), s) => fs.startAt newDirfd newPath s
    | _ => []

def Relative (path : Path) : Prop := path.head? ≠ some '/'

/-- A relative path starts at the vnode of its descriptor, and for `AT_FDCWD` at the original working directory
`cwd`. -/
def Start.Own (fs : Calls V σ) (cwd : V) (x : Start V σ) : Prop :=
  Relative x.path →
    if x.dirfd = atFdcwd then x.state.cur = cwd else fs.fileFd x.state.rest.rest x.dirfd = some x.state.cur

/-! ### What the calls are for

The calls with the directories in the place of a working directory: `fromDir` takes a reference to the vnode of a
descriptor for the time of a function of the directory, and sets nothing. -/

/-- A function of the directory that `dirfd` stands for, or `none` if the descriptor is not open. -/
def fromDir (dirfd : Int) (cwd : V) (f : V → Action V σ α) : Action V σ (Option α) := do
  if dirfd = atFdcwd then return some (← f cwd)
  else
    match ← gets (fs.fileFd ·.rest dirfd) with
    | none => fail .EBADF none
    | some vp =>
      refObject vp
      let a ← f vp
      fs.unrefObject vp
      return some a

def atDir (dirfd : Int) (func : Call V σ Int) (cwd : V) : Action V σ Int := do
  return (← fs.fromDir dirfd cwd (within · func)).getD (-1)

/-- A function of the directory and the name of a new path, with the reference to `old` held until the end. -/
def toNewFrom (old : V) (newPath : Path) (f : V → Name → Action V σ Int) (dir : V) : Action V σ Int := do
  match ← fs.resolveDir dir newPath with
  | none =>
    fs.unrefObject old
    return -1
  | some (dir, name) =>
    let ret ← f dir name
    fs.unrefObject dir
    fs.unrefObject old
    return ret

/-- A call with two directories, where `res` looks up the old path from its directory, and the new path is resolved
from its own.  As in the source the reference to the old vnode is kept if the second descriptor is not open. -/
def atDirs (res : V → Action V σ (Option α)) (old : α → V) (f : α → V → Name → Action V σ Int) (ret oldDirfd : Int)
    (newDirfd : Int) (newPath : Path) (cwd : V) : Action V σ Int := do
  match ← fs.fromDir oldDirfd cwd res with
  | none => return -1
  | some none => return ret
  | some (some a) => return (← fs.fromDir newDirfd cwd (fs.toNewFrom (old a) newPath (f a))).getD (-1)

/-! ### The calls that take a path keep the working directory -/

private theorem inDirectory_restores (path : Path) (f : V → Name → Action V σ Int) :
    Restores (fs.inDirectory path f) := by
  apply Restores.bind (Tree.vnodeDirName_follows _ _).restores
  intro r
  rcases r with _ | ⟨dir, name⟩
  · exact Restores.pure _
  · apply Restores.lift_bind
    intro ret
    apply Restores.lift_bind
    intro _
    exact Restores.pure _

private theorem onVnode_restores (path : Path) (links ret : Int) (f : V → Action V σ Int) :
    Restores (fs.onVnode path links ret f) := by
  apply Restores.bind (Tree.vnodeNamei_follows _ _ _).restores
  intro r
  cases r with
  | none => exact Restores.pure _
  | some vp =>
    apply Restores.lift_bind
    intro ret
    apply Restores.lift_bind
    intro _
    exact Restores.pure _

private theorem openNew_restores (path : Path) (flags mode : UInt32) : Restores (fs.openNew path flags mode) := by
  apply Restores.bind (Tree.vnodeDirName_follows _ _).restores
  intro r
  rcases r with _ | ⟨dir, name⟩
  · exact Restores.pure _
  · apply Restores.lift_bind
    intro ro
    apply Restores.ite
    · apply Restores.lift_bind
      intro _
      exact Restores.lift _
    · apply Restores.ite
      · apply Restores.lift_bind
        intro _
        exact Restores.lift _
      · apply Restores.lift_bind
        intro umask
        apply Restores.lift_bind
        intro vp
        apply Restores.lift_bind
        intro _
        exact Restores.pure _

private theorem openVnode_restores (path : Path) (flags mode : UInt32) : Restores (fs.openVnode path flags mode) := by
  apply Restores.bind (Tree.vnodeNamei_follows _ _ _).restores
  intro r
  cases r with
  | none =>
    apply Restores.lift_bind
    intro errno
    exact Restores.ite (openNew_restores fs path flags mode) (Restores.pure _)
  | some vp =>
    apply Restores.ite
    · apply Restores.lift_bind
      intro _
      exact Restores.lift _
    · exact Restores.pure _

private theorem sysOpen_restores (path : Path) (flags mode : UInt32) : Restores (fs.sysOpen path flags mode) := by
  apply Restores.lift_bind
  intro sysfd
  cases sysfd with
  | none => exact Restores.lift _
  | some sysfd =>
    apply Restores.lift_bind
    intro fd
    cases fd with
    | none =>
      apply Restores.lift_bind
      intro _
      exact Restores.pure _
    | some fd =>
      apply Restores.bind (openVnode_restores fs path flags mode)
      intro vp
      cases vp with
      | none =>
        apply Restores.lift_bind
        intro _
        apply Restores.lift_bind
        intro _
        exact Restores.pure _
      | some vp =>
        apply Restores.lift_bind
        intro ro
        apply Restores.ite
        · apply Restores.lift_bind
          intro _
          apply Restores.lift_bind
          intro _
          apply Restores.lift_bind
          intro _
          apply Restores.lift_bind
          intro _
          exact Restores.pure _
        · apply Restores.lift_bind
          intro _
          exact Restores.pure _

private theorem sysMknod_restores (path : Path) (mode : UInt32) (dev : Nat) :
    Restores (fs.sysMknod path mode dev) := by
  apply Restores.bind (Tree.vnodeDirName_follows _ _).restores
  intro r
  rcases r with _ | ⟨dir, name⟩
  · exact Restores.pure _
  · apply Restores.lift_bind
    intro scratch
    cases scratch with
    | some scratch =>
      apply Restores.lift_bind
      intro _
      apply Restores.lift_bind
      intro _
      apply Restores.lift_bind
      intro _
      exact Restores.pure _
    | none =>
      apply Restores.lift_bind
      intro errno
      apply Restores.ite
      · apply Restores.lift_bind
        intro _
        apply Restores.lift_bind
        intro _
        exact Restores.pure _
      · apply Restores.lift_bind
        intro ret
        apply Restores.lift_bind
        intro _
        exact Restores.pure _

private theorem sysRmdir_restores (path : Path) : Restores (fs.sysRmdir path) := by
  apply Restores.bind (Tree.vnodeDirName_follows _ _).restores
  intro r
  rcases r with _ | ⟨dir, name⟩
  · exact Restores.pure _
  · apply Restores.lift_bind
    intro isDir
    apply Restores.ite
    · apply Restores.lift_bind
      intro ret
      apply Restores.lift_bind
      intro _
      exact Restores.pure _
    · apply Restores.lift_bind
      intro _
      exact Restores.lift _

/-! ### The `at` calls keep the working directory -/

section

variable {fs} {cwd vp : V} {w : World V σ} {dirfd : Int}

@[simp] theorem enter_atFdcwd (s : Scoped V (World V σ)) : fs.enter atFdcwd s = (some false, s) := rfl

private theorem enter_open (hd : dirfd ≠ atFdcwd) (hv : fs.fileFd w.rest dirfd = some vp) (c : V) :
    fs.enter dirfd ⟨c, w⟩ = (some true, ⟨vp, (refObject vp w).2⟩) := by
  unfold enter
  rw [if_neg hd]
  simp only [bind_apply, lift_apply, gets, hv]
  rfl

private theorem enter_closed (hd : dirfd ≠ atFdcwd) (hv : fs.fileFd w.rest dirfd = none) (c : V) :
    fs.enter dirfd ⟨c, w⟩ = (none, ⟨c, { w with errno := .EBADF }⟩) := by
  unfold enter
  rw [if_neg hd]
  simp only [bind_apply, lift_apply, gets, hv]
  rfl

@[simp] theorem drop_false (s : Scoped V (World V σ)) : fs.drop false s = ((), s) := rfl

@[simp] theorem drop_true (c : V) (w : World V σ) :
    fs.drop true ⟨c, w⟩ = ((), ⟨c, (fs.unrefObject c w).2⟩) := rfl

private theorem fromDir_atFdcwd (f : V → Action V σ α) (cwd : V) (w : World V σ) :
    fs.fromDir atFdcwd cwd f w = (some (f cwd w).1, (f cwd w).2) := rfl

private theorem fromDir_open (hd : dirfd ≠ atFdcwd) (hv : fs.fileFd w.rest dirfd = some vp) (f : V → Action V σ α)
    (cwd : V) :
    fs.fromDir dirfd cwd f w =
      (some (f vp (refObject vp w).2).1, (fs.unrefObject vp (f vp (refObject vp w).2).2).2) := by
  unfold fromDir
  rw [if_neg hd]
  simp only [bind_apply, gets, hv]
  rfl

private theorem fromDir_closed (hd : dirfd ≠ atFdcwd) (hv : fs.fileFd w.rest dirfd = none) (f : V → Action V σ α)
    (cwd : V) :
    fs.fromDir dirfd cwd f w = (none, { w with errno := .EBADF }) := by
  unfold fromDir
  rw [if_neg hd]
  simp only [bind_apply, gets, hv]
  rfl

private theorem atCall_follows {func : Call V σ Int} (hf : Restores func) (dirfd : Int) :
    Follows (fs.atCall dirfd func) (fs.atDir dirfd func) := by
  intro cwd w
  unfold atCall atDir
  simp only [bind_apply, read_apply]
  by_cases hd : dirfd = atFdcwd
  · subst hd
    rw [enter_atFdcwd, fromDir_atFdcwd]
    simp only [bind_apply, drop_false]
    rw [hf.eq_within]
    rfl
  · cases hv : fs.fileFd w.rest dirfd with
    | none =>
      rw [enter_closed hd hv, fromDir_closed hd hv]
      rfl
    | some vp =>
      rw [enter_open hd hv, fromDir_open hd hv]
      simp only [bind_apply]
      rw [hf.eq_within]
      rfl

def dirOf (fs : Calls V σ) (dirfd : Int) (cwd : V) (w : World V σ) : V :=
  if dirfd = atFdcwd then cwd else (fs.fileFd w.rest dirfd).getD cwd

private theorem fromOld_apply {first : Call V σ (Option α)} {res : V → Action V σ (Option α)}
    (hfirst : Follows first res) (dirfd : Int) (cwd : V) (w : World V σ) : fs.fromOld first dirfd ⟨cwd, w⟩ =
      ((fs.fromDir dirfd cwd res w).1, ⟨fs.dirOf dirfd cwd w, (fs.fromDir dirfd cwd res w).2⟩) := by
  unfold fromOld dirOf
  rw [bind_apply]
  by_cases hd : dirfd = atFdcwd
  · subst hd
    rw [enter_atFdcwd, fromDir_atFdcwd, if_pos rfl]
    simp only [bind_apply]
    rw [hfirst cwd w]
    rfl
  · rw [if_neg hd]
    cases hv : fs.fileFd w.rest dirfd with
    | none =>
      rw [enter_closed hd hv, fromDir_closed hd hv]
      rfl
    | some vp =>
      rw [enter_open hd hv, fromDir_open hd hv]
      simp only [bind_apply]
      rw [hfirst vp]
      rfl

private theorem dirOf_closed {f : V → Action V σ α} (h : (fs.fromDir dirfd cwd f w).1 = none) :
    fs.dirOf dirfd cwd w = cwd := by
  unfold dirOf
  by_cases hd : dirfd = atFdcwd
  · exact if_pos hd
  · rw [if_neg hd]
    cases hv : fs.fileFd w.rest dirfd with
    | none => rfl
    | some vp =>
      rw [fromDir_open hd hv] at h
      cases h

/-- The directory argument goes wrong unless the working directory is the original one: the descriptor is not open, or
a relative path is for `AT_FDCWD`. -/
def Stray (fs : Calls V σ) (dirfd : Int) (path : Path) (w : World V σ) : Prop :=
  if dirfd = atFdcwd then Relative path else fs.fileFd w.rest dirfd = none

private theorem startAt_own {c : V} {path : Path} (hc : fs.Stray dirfd path w → c = cwd) :
    ∀ x ∈ fs.startAt dirfd path ⟨c, w⟩, x.Own fs cwd := by
  intro x hx
  unfold Stray at hc
  unfold startAt at hx
  by_cases hd : dirfd = atFdcwd
  · subst hd
    rw [enter_atFdcwd] at hx
    cases List.mem_singleton.1 hx
    intro hrel
    exact hc (by rw [if_pos rfl]; exact hrel)
  · cases hv : fs.fileFd w.rest dirfd with
    | none =>
      rw [enter_closed hd hv] at hx
      cases hx
    | some vp =>
      rw [enter_open hd hv] at hx
      cases List.mem_singleton.1 hx
      intro _
      rw [if_neg hd]
      exact hv

private theorem toNew_eq {c : V} {newDirfd : Int} {newPath : Path} (hc : fs.Stray newDirfd newPath w → c = cwd)
    (old : V) (f : V → Name → Action V σ Int) :
    fs.toNew cwd old newDirfd newPath f ⟨c, w⟩ =
      (((fs.fromDir newDirfd cwd (fs.toNewFrom old newPath f) w).1.getD (-1)),
        ⟨cwd, (fs.fromDir newDirfd cwd (fs.toNewFrom old newPath f) w).2⟩) := by
  unfold Stray at hc
  unfold toNew
  rw [bind_apply]
  by_cases hd : newDirfd = atFdcwd
  · rw [if_pos hd] at hc
    rw [hd, enter_atFdcwd, fromDir_atFdcwd]
    have hres : fs.resolveDir c newPath = fs.resolveDir cwd newPath := by
      by_cases hrel : Relative newPath
      · rw [hc hrel]
      · exact Tree.resolveDir_absolute (not_not.1 hrel) c cwd
    simp only [bind_apply, toNewFrom]
    rw [Tree.vnodeDirName_follows fs.toTree newPath c w]
    dsimp only
    rw [hres]
    rcases (fs.resolveDir cwd newPath w).1 with _ | ⟨dir, name⟩ <;> rfl
  · rw [if_neg hd] at hc
    cases hv : fs.fileFd w.rest newDirfd with
    | none =>
      rw [enter_closed hd hv, fromDir_closed hd hv, hc hv]
      rfl
    | some vp =>
      rw [enter_open hd hv, fromDir_open hd hv]
      simp only [bind_apply, toNewFrom]
      rw [Tree.vnodeDirName_follows fs.toTree newPath vp]
      rcases (fs.resolveDir vp newPath (refObject vp w).2).1 with _ | ⟨dir, name⟩ <;> rfl

section

variable {first : Call V σ (Option α)} {res : V → Action V σ (Option α)} {oldDirfd newDirfd : Int} {newPath : Path}

/-- The first directory is not the working directory, the old path is found, and then the second directory argument
goes wrong. -/
def Strays (fs : Calls V σ) (res : V → Action V σ (Option α)) (oldDirfd newDirfd : Int) (newPath : Path) (cwd : V)
    (w : World V σ) : Prop :=
  fs.dirOf oldDirfd cwd w ≠ cwd ∧
    ∃ a w', fs.fromDir oldDirfd cwd res w = (some (some a), w') ∧ fs.Stray newDirfd newPath w'

private theorem atCall2_eq (hfirst : Follows first res) (hs : ¬ fs.Strays res oldDirfd newDirfd newPath cwd w)
    (old : α → V) (f : α → V → Name → Action V σ Int) (ret : Int) :
    fs.atCall2 first old f ret oldDirfd newDirfd newPath ⟨cwd, w⟩ =
      ((fs.atDirs res old f ret oldDirfd newDirfd newPath cwd w).1,
        ⟨cwd, (fs.atDirs res old f ret oldDirfd newDirfd newPath cwd w).2⟩) := by
  unfold atCall2 atDirs
  simp only [bind_apply, read_apply]
  rw [fromOld_apply hfirst]
  rcases hr : fs.fromDir oldDirfd cwd res w with ⟨_ | _ | a, w'⟩
  · -- the first descriptor is not open
    rw [dirOf_closed (by rw [hr])]
    rfl
  · rfl
  · exact toNew_eq (fun h => not_not.1 fun hne => hs ⟨hne, a, w', hr, h⟩) (old a) (f a)

private theorem startAt2_own (hfirst : Follows first res) (hs : ¬ fs.Strays res oldDirfd newDirfd newPath cwd w)
    (oldPath : Path) : ∀ x ∈ fs.startAt2 first oldDirfd oldPath newDirfd newPath ⟨cwd, w⟩, x.Own fs cwd := by
  intro x hx
  unfold startAt2 at hx
  rw [fromOld_apply hfirst] at hx
  rcases List.mem_append.1 hx with hx | hx
  · exact startAt_own (fun _ => rfl) x hx
  · rcases hr : fs.fromDir oldDirfd cwd res w with ⟨_ | _ | a, w'⟩
    · rw [hr] at hx
      cases hx
    · rw [hr] at hx
      cases hx
    · rw [hr] at hx
      exact startAt_own (fun h => not_not.1 fun hne => hs ⟨hne, a, w', hr, h⟩) x hx

/-- Otherwise the working directory stays at the first directory, or the new path starts there. -/
private theorem atCall2_strays (hfirst : Follows first res) (hs : fs.Strays res oldDirfd newDirfd newPath cwd w)
    (old : α → V) (f : α → V → Name → Action V σ Int) (ret : Int) (oldPath : Path) :
    (fs.atCall2 first old f ret oldDirfd newDirfd newPath ⟨cwd, w⟩).2.cur ≠ cwd ∨
      ∃ x ∈ fs.startAt2 first oldDirfd oldPath newDirfd newPath ⟨cwd, w⟩, ¬ x.Own fs cwd := by
  obtain ⟨hne, a, w', hr, hstray⟩ := hs
  unfold Stray at hstray
  by_cases hd : newDirfd = atFdcwd
  · rw [if_pos hd] at hstray
    right
    refine ⟨⟨newDirfd, newPath, ⟨fs.dirOf oldDirfd cwd w, w'⟩⟩, ?_, fun h => ?_⟩
    · unfold startAt2
      rw [fromOld_apply hfirst, hr, hd]
      exact List.mem_append_right _ (List.mem_singleton.2 rfl)
    · have hown := h hstray
      rw [if_pos hd] at hown
      exact hne hown
  · rw [if_neg hd] at hstray
    left
    unfold atCall2
    simp only [bind_apply, read_apply]
    rw [fromOld_apply hfirst, hr]
    dsimp only
    unfold toNew
    rw [bind_apply, enter_closed hd hstray]
    exact hne

end

end

end Calls

/-- The `at` calls with their arguments. -/
inductive AtCall
  | openat (dirfd : Int) (path : Path) (flags mode : UInt32)
  | faccessat (dirfd : Int) (path : Path) (mode flags : UInt32)
  | mknodat (dirfd : Int) (path : Path) (mode : UInt32) (dev : Nat)
  | mkdirat (dirfd : Int) (path : Path) (mode : UInt32)
  | renameat (oldDirfd : Int) (oldPath : Path) (newDirfd : Int) (newPath : Path)
  | linkat (oldDirfd : Int) (oldPath : Path) (newDirfd : Int) (newPath : Path) (flags : UInt32)
  | unlinkat (dirfd : Int) (path : Path) (flags : UInt32)
  | symlinkat (oldPath : Path) (newDirfd : Int) (newPath : Path)
  | readlinkat (dirfd : Int) (path : Path) (buffer len : Nat)
  | utimensat (dirfd : Int) (path : Path) (times : Nat) (flags : UInt32)
  | fchmodat (dirfd : Int) (path : Path) (mode flags : UInt32)
  | fchownat (dirfd : Int) (path : Path) (uid gid flags : UInt32)

namespace AtCall

variable {V σ : Type} [DecidableEq V]

/-- The call; `ret` is what a variable without value holds. -/
def exec (fs : Calls V σ) (ret : Int) : AtCall → Call V σ Int
  | openat dirfd path flags mode => fs.sysOpenat dirfd path flags mode
  | faccessat dirfd path mode flags => fs.sysFaccessat dirfd path mode flags
  | mknodat dirfd path mode dev => fs.sysMknodat dirfd path mode dev
  | mkdirat dirfd path mode => fs.sysMkdirat dirfd path mode
  | renameat oldDirfd oldPath newDirfd newPath => fs.sysRenameat oldDirfd oldPath newDirfd newPath
  | linkat oldDirfd oldPath newDirfd newPath flags => fs.sysLinkat ret oldDirfd oldPath newDirfd newPath flags
  | unlinkat dirfd path flags => fs.sysUnlinkat dirfd path flags
  | symlinkat oldPath newDirfd newPath => fs.sysSymlinkat oldPath newDirfd newPath
  | readlinkat dirfd path buffer len => fs.sysReadlinkat dirfd path buffer len
  | utimensat dirfd path times flags => fs.sysUtimensat ret dirfd path times flags
  | fchmodat dirfd path mode flags => fs.sysFchmodat dirfd path mode flags
  | fchownat dirfd path uid gid flags => fs.sysFchownat dirfd path uid gid flags

/-- What the call is for: each path is resolved from the directory that its own argument stands for, and no working
directory is set. -/
def inDirs (fs : Calls V σ) (ret : Int) : AtCall → V → Action V σ Int
  | openat dirfd path flags mode => fs.atDir dirfd (fs.sysOpen path flags mode)
  | faccessat dirfd path mode flags =>
    fs.atDir dirfd (fs.onVnode path (if flags &&& atSymlinkNofollow ≠ 0 then -1 else 0) (-1)
      (fs.xaccess · mode (flags &&& atEaccess = 0)))
  | mknodat dirfd path mode dev => fs.atDir dirfd (fs.sysMknod path mode dev)
  | mkdirat dirfd path mode => fs.atDir dirfd (fs.sysMkdir path mode)
  | renameat oldDirfd oldPath newDirfd newPath =>
    fs.atDirs (fs.resolveDir · oldPath) Prod.fst (fun old => fs.xrename old.1 old.2) (-1) oldDirfd newDirfd newPath
  | linkat oldDirfd oldPath newDirfd newPath flags =>
    fs.atDirs (fs.resolve · oldPath (Calls.linkatLinks flags)) id fs.xlink ret oldDirfd newDirfd newPath
  | unlinkat dirfd path flags =>
    fs.atDir dirfd (if flags &&& atRemovedir ≠ 0 then fs.sysRmdir path else fs.sysUnlink path)
  | symlinkat oldPath newDirfd newPath => fs.atDir newDirfd (fs.sysSymlink oldPath newPath)
  | readlinkat dirfd path buffer len => fs.atDir dirfd (fs.sysReadlink path buffer len)
  | utimensat dirfd path times flags =>
    fs.atDir dirfd (fs.onVnode path (if flags &&& atSymlinkNofollow = 0 then -1 else 0) ret (fs.vfsUtime · times))
  | fchmodat dirfd path mode flags => fs.atDir dirfd (fs.xchmod path mode (flags &&& atSymlinkNofollow = 0))
  | fchownat dirfd path uid gid flags => fs.atDir dirfd (fs.xchown path uid gid (flags &&& atSymlinkNofollow = 0))

def starts (fs : Calls V σ) (s : Scoped V (World V σ)) : AtCall → List (Calls.Start V σ)
  | openat dirfd path _ _ | faccessat dirfd path _ _ | mknodat dirfd path _ _ | mkdirat dirfd path _
  | unlinkat dirfd path _ | symlinkat _ dirfd path | readlinkat dirfd path _ _ | utimensat dirfd path _ _
  | fchmodat dirfd path _ _ | fchownat dirfd path _ _ _ => fs.startAt dirfd path s
  | renameat oldDirfd oldPath newDirfd newPath =>
    fs.startAt2 (fs.vnodeDirName oldPath) oldDirfd oldPath newDirfd newPath s
  | linkat oldDirfd oldPath newDirfd newPath flags =>
    fs.startAt2 (fs.vnodeNamei oldPath (Calls.linkatLinks flags)) oldDirfd oldPath newDirfd newPath s

def Strays (fs : Calls V σ) (cwd : V) (w : World V σ) : AtCall → Prop
  | renameat oldDirfd oldPath newDirfd newPath =>
    fs.Strays (fs.resolveDir · oldPath) oldDirfd newDirfd newPath cwd w
  | linkat oldDirfd oldPath newDirfd newPath flags =>
    fs.Strays (fs.resolve · oldPath (Calls.linkatLinks flags)) oldDirfd newDirfd newPath cwd w
  | _ => False

/-- After the call the working directory is the vnode that it was, with the same count.  Each relative path has been
resolved from its own directory, and the call has done what it is for. -/
structure KeepsCwd (fs : Calls V σ) (ret : Int) (call : AtCall) (cwd : V) (w : World V σ) : Prop where
  vnode : (call.exec fs ret ⟨cwd, w⟩).2.cur = cwd
  count : (call.exec fs ret ⟨cwd, w⟩).2.rest.refs cwd = w.refs cwd
  own : ∀ x ∈ call.starts fs ⟨cwd, w⟩, x.Own fs cwd
  inDirs : ((call.exec fs ret ⟨cwd, w⟩).1, (call.exec fs ret ⟨cwd, w⟩).2.rest) = call.inDirs fs ret cwd w

variable {fs : Calls V σ} {cwd : V} {w : World V σ}

private theorem exec_eq {call : AtCall} (h : ¬ call.Strays fs cwd w) (ret : Int) :
    call.exec fs ret ⟨cwd, w⟩ = ((call.inDirs fs ret cwd w).1, ⟨cwd, (call.inDirs fs ret cwd w).2⟩) := by
  cases call with
  | openat dirfd path flags mode => exact Calls.atCall_follows (fs.sysOpen_restores path flags mode) dirfd cwd w
  | faccessat dirfd path mode flags => exact Calls.atCall_follows (fs.onVnode_restores path _ _ _) dirfd cwd w
  | mknodat dirfd path mode dev => exact Calls.atCall_follows (fs.sysMknod_restores path mode dev) dirfd cwd w
  | mkdirat dirfd path mode => exact Calls.atCall_follows (fs.inDirectory_restores path _) dirfd cwd w
  | renameat oldDirfd oldPath newDirfd newPath =>
    exact Calls.atCall2_eq (Tree.vnodeDirName_follows fs.toTree oldPath) h _ _ _
  | linkat oldDirfd oldPath newDirfd newPath flags =>
    exact Calls.atCall2_eq (Tree.vnodeNamei_follows fs.toTree oldPath _) h _ _ _
  | unlinkat dirfd path flags =>
    apply Calls.atCall_follows
    exact Restores.ite (fs.sysRmdir_restores path) (fs.inDirectory_restores path _)
  | symlinkat oldPath newDirfd newPath =>
      exact Calls.atCall_follows (fs.inDirectory_restores newPath _) newDirfd cwd w
  | readlinkat dirfd path buffer len => exact Calls.atCall_follows (fs.onVnode_restores path _ _ _) dirfd cwd w
  | utimensat dirfd path times flags => exact Calls.atCall_follows (fs.onVnode_restores path _ _ _) dirfd cwd w
  | fchmodat dirfd path mode flags => exact Calls.atCall_follows (fs.onVnode_restores path _ _ _) dirfd cwd w
  | fchownat dirfd path uid gid flags => exact Calls.atCall_follows (fs.onVnode_restores path _ _ _) dirfd cwd w

private theorem starts_own {call : AtCall} (h : ¬ call.Strays fs cwd w) :
    ∀ x ∈ call.starts fs ⟨cwd, w⟩, x.Own fs cwd := by
  cases call with
  | renameat oldDirfd oldPath newDirfd newPath =>
    exact Calls.startAt2_own (Tree.vnodeDirName_follows fs.toTree oldPath) h oldPath
  | linkat oldDirfd oldPath newDirfd newPath flags =>
    exact Calls.startAt2_own (Tree.vnodeNamei_follows fs.toTree oldPath _) h oldPath
  | _ => exact Calls.startAt_own fun _ => rfl

private theorem not_keepsCwd_of_strays {call : AtCall} {ret : Int} (h : call.Strays fs cwd w) :
    ¬ call.KeepsCwd fs ret cwd w := by
  intro hk
  have hor : (call.exec fs ret ⟨cwd, w⟩).2.cur ≠ cwd ∨ ∃ x ∈ call.starts fs ⟨cwd, w⟩, ¬ x.Own fs cwd := by
    cases call with
    | renameat oldDirfd oldPath newDirfd newPath =>
      exact Calls.atCall2_strays (Tree.vnodeDirName_follows fs.toTree oldPath) h _ _ _ oldPath
    | linkat oldDirfd oldPath newDirfd newPath flags =>
      exact Calls.atCall2_strays (Tree.vnodeNamei_follows fs.toTree oldPath _) h _ _ _ oldPath
    | _ => exact h.elim
  rcases hor with hcur | ⟨x, hx, hown⟩
  · exact hcur hk.vnode
  · exact hown (hk.own x hx)

end AtCall

/-- A file system whose root directory `0` holds no file, with the descriptor `3` for the directory `1`. -/
def emptyFs : Calls Nat Unit where
  rootVnode := 0
  parent _ _ := 0
  isLnk _ _ := false
  mountTable _ := []
  childIno _ _ _ := 0
  lookupCache _ _ _ := none
  setParent _ _ s := s
  placeCache _ s := s
  alloc := return true
  insertChild _ _ _ := return true
  vfsLookup _ _ := fail .ENOENT none
  vfsReadlink _ := fail .EINVAL none
  dealloc _ := return ()
  isDir _ _ := true
  rdonly _ _ := false
  mount _ _ := 0
  umask _ := 0
  fileFd _ fd := if fd = 3 then some 1 else none
  allocFd := return some 0
  allocProcfd := return some 0
  freeProcfd _ := return ()
  freeFd _ := return ()
  fillFd _ _ _ _ := return ()
  vfsCanRead _ _ := return true
  vfsCanWrite _ _ := return true
  vfsCanExec _ _ := return true
  vfsCreate _ _ _ _ _ := fail .EROFS none
  vfsMkdir _ _ _ _ := fail .EROFS none
  vfsUnlink _ _ := fail .EROFS (-1)
  vfsSymlink _ _ _ := fail .EROFS (-1)
  vfsRename _ _ _ _ := fail .EROFS (-1)
  vfsLink _ _ _ := fail .EROFS (-1)
  vfsReadlinkInto _ _ _ := fail .EINVAL (-1)
  vfsUtime _ _ := fail .EROFS (-1)
  vfsChmod _ _ := fail .EROFS (-1)
  vfsChown _ _ _ := fail .EROFS (-1)

def freshWorld : World Nat Unit := ⟨fun _ => 1, .ENOENT, ()⟩

end Pml.Vfs
