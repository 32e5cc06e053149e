import Mathlib.Data.Nat.Bitwise
import Pml.Kernel.Credentials

/-!
# File permissions (`drivers/fs/perm.c`, `drivers/fs/vnops.c`)

The entry points of the virtual file system that change contents check the permissions of the process and then call
the operation of the file system.  `MayWrite` says what the permission bits allow, in terms of the class of the
process; `vfsCanWrite` decides it.  All entry points but `vfsWrite` call the operation only for a process that may
write.
-/

namespace Pml.Vfs

open Pml.Kernel

/-! ### Vnodes -/

abbrev sIfmt : UInt32 := 0o170000

abbrev sIfdir : UInt32 := 0o040000

abbrev sIfreg : UInt32 := 0o100000

abbrev sIrusr : UInt32 := 0o400
abbrev sIwusr : UInt32 := 0o200
abbrev sIxusr : UInt32 := 0o100

abbrev sIrgrp : UInt32 := 0o040
abbrev sIwgrp : UInt32 := 0o020
abbrev sIxgrp : UInt32 := 0o010

abbrev sIroth : UInt32 := 0o004
abbrev sIwoth : UInt32 := 0o002
abbrev sIxoth : UInt32 := 0o001

def sIsdir (mode : UInt32) : Bool := mode &&& sIfmt == sIfdir

def sIsreg (mode : UInt32) : Bool := mode &&& sIfmt == sIfreg

/-- The members of `struct vnode_ops` that change contents, each given by whether the file system has it. -/
structure VnodeOps where
  write : Bool
  truncate : Bool
  create : Bool
  mkdir : Bool
  rename : Bool
  link : Bool
  unlink : Bool
  symlink : Bool
  deriving DecidableEq

/-- The members of `struct vnode` that the entry points read. -/
structure Vnode where
  mode : UInt32
  uid : UInt32
  gid : UInt32
  ops : VnodeOps
  deriving DecidableEq

/-! ### The permission checks -/

/-- The body of `vfs_can_read` and `vfs_can_write`, with the bits of the three classes. -/
def vfsCan (usr grp oth : UInt32) (c : Credentials) (vp : Vnode) (real : Bool) : Bool :=
  let uid := if real then c.user.real else c.user.effective
  let gid := if real then c.group.real else c.group.effective
  if uid = 0 then true
  else if vp.uid = uid then
    if vp.mode &&& usr = 0 then false
    else if sIsdir vp.mode ∧ vp.mode &&& sIxusr = 0 then false
    else true
  else if vp.gid = gid then
    if vp.mode &&& grp = 0 then false
    else if sIsdir vp.mode ∧ vp.mode &&& sIxgrp = 0 then false
    else true
  else if vp.mode &&& oth = 0 then false
  else if sIsdir vp.mode ∧ vp.mode &&& sIxoth = 0 then false
  else true

def vfsCanRead : Credentials → Vnode → Bool → Bool := vfsCan sIrusr sIrgrp sIroth

def vfsCanWrite : Credentials → Vnode → Bool → Bool := vfsCan sIwusr sIwgrp sIwoth

/-! ### The entry points -/

/-- What an entry point comes to: it returns -1 with an error number, it returns 0, or it returns what the operation
of the file system returns. -/
inductive Outcome
  | error (e : Errno)
  | zero
  | op
  deriving DecidableEq

def supported (has : Bool) : Outcome := if has then .op else .error .ENOTSUP

def vfsWrite (c : Credentials) (vp : Vnode) (buffer : List UInt8) : Outcome :=
  if vfsCanRead c vp false = false then .error .EACCES
  else if sIsdir vp.mode then .error .EISDIR
  else if buffer.length = 0 then .zero
  else supported vp.ops.write

def vfsTruncate (c : Credentials) (vp : Vnode) : Outcome :=
  if vfsCanWrite c vp false = false then .error .EACCES
  else if sIsreg vp.mode = false then .error .EINVAL
  else supported vp.ops.truncate

def addEntry (c : Credentials) (dir : Vnode) (has : Bool) : Outcome :=
  if vfsCanWrite c dir false = false then .error .EACCES
  else if sIsdir dir.mode = false then .error .ENOTDIR
  else supported has

def vfsCreate (c : Credentials) (dir : Vnode) : Outcome := addEntry c dir dir.ops.create

def vfsMkdir (c : Credentials) (dir : Vnode) : Outcome := addEntry c dir dir.ops.mkdir

def vfsLink (c : Credentials) (dir : Vnode) : Outcome := addEntry c dir dir.ops.link

def vfsSymlink (c : Credentials) (dir : Vnode) : Outcome := addEntry c dir dir.ops.symlink

def vfsRename (c : Credentials) (olddir newdir : Vnode) : Outcome :=
  if sIsdir olddir.mode = false ∨ sIsdir newdir.mode = false then .error .ENOTDIR
  else if vfsCanWrite c olddir false = false ∨ vfsCanWrite c newdir false = false then .error .EACCES
  else supported olddir.ops.rename

def vfsUnlink (c : Credentials) (dir : Vnode) : Outcome :=
  if vfsCanWrite c dir false = false then .error .EACCES else supported dir.ops.unlink

/-- The calls that change contents, with their arguments. -/
inductive VfsCall
  | write (vp : Vnode) (buffer : List UInt8) (offset : Int)
  | truncate (vp : Vnode) (len : Int)
  | create (dir : Vnode) (name : List UInt8) (mode : UInt32) (rdev : UInt64)
  | mkdir (dir : Vnode) (name : List UInt8) (mode : UInt32)
  | rename (olddir : Vnode) (oldname : List UInt8) (newdir : Vnode) (newname : List UInt8)
  | link (dir vp : Vnode) (name : List UInt8)
  | unlink (dir : Vnode) (name : List UInt8)
  | symlink (dir : Vnode) (name target : List UInt8)

namespace VfsCall

def enter (c : Credentials) : VfsCall → Outcome
  | write vp buffer _ => vfsWrite c vp buffer
  | truncate vp _ => vfsTruncate c vp
  | create dir _ _ _ => vfsCreate c dir
  | mkdir dir _ _ => vfsMkdir c dir
  | rename olddir _ newdir _ => vfsRename c olddir newdir
  | link dir _ _ => vfsLink c dir
  | unlink dir _ => vfsUnlink c dir
  | symlink dir _ _ => vfsSymlink c dir

def changed : VfsCall → List Vnode
  | write vp _ _ => [vp]
  | truncate vp _ => [vp]
  | create dir _ _ _ => [dir]
  | mkdir dir _ _ => [dir]
  | rename olddir _ newdir _ => [olddir, newdir]
  | link dir _ _ => [dir]
  | unlink dir _ => [dir]
  | symlink dir _ _ => [dir]

/-- The return value and the state of the file system after the call; `op` is what the operations of the file system
do. -/
def exec {σ : Type} (op : VfsCall → σ → Int × σ) (c : Credentials) (call : VfsCall) (s : σ) : Int × σ :=
  match call.enter c with
  | .error _ => (-1, s)
  | .zero => (0, s)
  | .op => op call s

end VfsCall

/-! ### What the permission bits allow -/

/-- The three classes of the permission bits, with the position of the bits of each. -/
inductive AccessClass
  | owner
  | group
  | other

def Vnode.classOf (vp : Vnode) (c : Credentials) : AccessClass :=
  if c.user.effective = vp.uid then .owner else if c.group.effective = vp.gid then .group else .other

def AccessClass.shift : AccessClass → Nat
  | owner => 6
  | group => 3
  | other => 0

/-- The process is root, or the bit of its class is set, and the execute bit too if the vnode is a directory.  `bit`
is 2 for reading and 1 for writing. -/
def May (bit : Nat) (c : Credentials) (vp : Vnode) : Prop :=
  c.user.effective = 0 ∨
    vp.mode.toNat.testBit ((vp.classOf c).shift + bit) = true ∧
      (sIsdir vp.mode = true → vp.mode.toNat.testBit (vp.classOf c).shift = true)

def MayRead : Credentials → Vnode → Prop := May 2

def MayWrite : Credentials → Vnode → Prop := May 1

instance (bit : Nat) (c : Credentials) (vp : Vnode) : Decidable (May bit c vp) := inferInstanceAs (Decidable (_ ∨ _))

private theorem and_two_pow_eq_zero {mode : UInt32} {b : UInt32} {k : Nat} (hb : b.toNat = 2 ^ k) :
    mode &&& b = 0 ↔ mode.toNat.testBit k = false := by
  rw [← UInt32.toNat_inj, UInt32.toNat_and, hb, Nat.and_two_pow]
  cases mode.toNat.testBit k <;> simp

private theorem classCheck_iff {b x : UInt32} {k j : Nat} (hb : b.toNat = 2 ^ k) (hx : x.toNat = 2 ^ j)
    (mode : UInt32) :
    (if mode &&& b = 0 then false else if sIsdir mode ∧ mode &&& x = 0 then false else true) = true ↔
      mode.toNat.testBit k = true ∧ (sIsdir mode = true → mode.toNat.testBit j = true) := by
  rw [if_congr (and_two_pow_eq_zero hb) rfl rfl,
    if_congr (and_congr_right fun _ => and_two_pow_eq_zero hx) rfl rfl]
  cases mode.toNat.testBit k <;> cases mode.toNat.testBit j <;> cases sIsdir mode <;> simp

private theorem vfsCan_iff {usr grp oth : UInt32} {bit : Nat} (husr : usr.toNat = 2 ^ (6 + bit))
    (hgrp : grp.toNat = 2 ^ (3 + bit)) (hoth : oth.toNat = 2 ^ (0 + bit)) (c : Credentials) (vp : Vnode) :
    vfsCan usr grp oth c vp false = true ↔ May bit c vp := by
  unfold vfsCan May
  simp only [Bool.false_eq_true, if_false]
  by_cases hroot : c.user.effective = 0
  · simp [hroot]
  rw [if_neg hroot, or_iff_right hroot]
  by_cases huid : vp.uid = c.user.effective
  · have hcls : vp.classOf c = .owner := if_pos huid.symm
    rw [if_pos huid, hcls]
    exact classCheck_iff husr (by decide) vp.mode
  · rw [if_neg huid]
    by_cases hgid : vp.gid = c.group.effective
    · have hcls : vp.classOf c = .group := by
        unfold Vnode.classOf
        rw [if_neg (fun h => huid h.symm), if_pos hgid.symm]
      rw [if_pos hgid, hcls]
      exact classCheck_iff hgrp (by decide) vp.mode
    · have hcls : vp.classOf c = .other := by
        unfold Vnode.classOf
        rw [if_neg (fun h => huid h.symm), if_neg (fun h => hgid h.symm)]
      rw [if_neg hgid, hcls]
      exact classCheck_iff hoth (by decide) vp.mode

private theorem vfsCanRead_iff (c : Credentials) (vp : Vnode) : vfsCanRead c vp false = true ↔ MayRead c vp :=
  vfsCan_iff (by decide) (by decide) (by decide) c vp

private theorem vfsCanWrite_iff (c : Credentials) (vp : Vnode) : vfsCanWrite c vp false = true ↔ MayWrite c vp :=
  vfsCan_iff (by decide) (by decide) (by decide) c vp

/-! ### Write permission -/

/-- The operation of the file system is called only if the process may write every vnode that the call changes, and
otherwise the call returns -1 and leaves the file system as it is. -/
def VfsCall.Enforced (c : Credentials) (call : VfsCall) : Prop :=
  (call.enter c = .op → ∀ vp ∈ call.changed, MayWrite c vp) ∧
  ((¬ ∀ vp ∈ call.changed, MayWrite c vp) →
    ∀ (σ : Type) (op : VfsCall → σ → Int × σ) (s : σ), call.exec op c s = (-1, s))

/-- The call is no write, or a write that the process may do, or one that fails another check of `vfs_write`. -/
def VfsCall.Checked (c : Credentials) : VfsCall → Prop
  | .write vp buffer _ =>
    MayWrite c vp ∨ ¬ MayRead c vp ∨ sIsdir vp.mode = true ∨ (buffer ≠ [] ∧ vp.ops.write = false)
  | _ => True

section

variable {c : Credentials} {call : VfsCall}

private theorem exec_refused_iff :
    (∀ (σ : Type) (op : VfsCall → σ → Int × σ) (s : σ), call.exec op c s = (-1, s)) ↔ ∃ e,
    call.enter c = .error e := by
  constructor
  · intro h
    have h' := h Unit (fun _ s => (0, s)) ()
    unfold VfsCall.exec at h'
    cases he : call.enter c with
    | error e => exact ⟨e, rfl⟩
    | zero => simp [he] at h'
    | op => simp [he] at h'
  · rintro ⟨e, he⟩ σ op s
    unfold VfsCall.exec
    rw [he]

private theorem enforced_iff :
    call.Enforced c ↔ (∀ vp ∈ call.changed, MayWrite c vp) ∨ ∃ e, call.enter c = .error e := by
  unfold VfsCall.Enforced
  rw [exec_refused_iff]
  constructor
  · rintro ⟨-, h⟩
    by_cases hw : ∀ vp ∈ call.changed, MayWrite c vp
    · exact Or.inl hw
    · exact Or.inr (h hw)
  · rintro (hw | ⟨e, he⟩)
    · exact ⟨fun _ => hw, fun hn => absurd hw hn⟩
    · refine ⟨fun hop => ?_, fun _ => ⟨e, he⟩⟩
      rw [he] at hop
      cases hop

private theorem vfsCanWrite_refused {vp : Vnode} (h : ¬ MayWrite c vp) : vfsCanWrite c vp false = false := by
  rw [← vfsCanWrite_iff] at h
  simpa using h

private theorem addEntry_enforced (dir : Vnode) (has : Bool) :
    (∀ vp ∈ [dir], MayWrite c vp) ∨ ∃ e, addEntry c dir has = .error e := by
  by_cases hw : MayWrite c dir
  · exact Or.inl (by simpa using hw)
  · exact Or.inr ⟨.EACCES, by unfold addEntry; rw [if_pos (vfsCanWrite_refused hw)]⟩

private theorem vfsRename_enforced (olddir newdir : Vnode) :
    (∀ vp ∈ [olddir, newdir], MayWrite c vp) ∨ ∃ e, vfsRename c olddir newdir = .error e := by
  by_cases hw : MayWrite c olddir ∧ MayWrite c newdir
  · exact Or.inl (by simpa using hw)
  · right
    unfold vfsRename
    by_cases hd : sIsdir olddir.mode = false ∨ sIsdir newdir.mode = false
    · exact ⟨.ENOTDIR, if_pos hd⟩
    · refine ⟨.EACCES, ?_⟩
      rw [if_neg hd, if_pos]
      rcases not_and_or.1 hw with h | h
      · exact Or.inl (vfsCanWrite_refused h)
      · exact Or.inr (vfsCanWrite_refused h)

private theorem vfsWrite_error_iff (vp : Vnode) (buffer : List UInt8) :
    (∃ e, vfsWrite c vp buffer = .error e) ↔
      ¬ MayRead c vp ∨ sIsdir vp.mode = true ∨ (buffer ≠ [] ∧ vp.ops.write = false) := by
  rw [← vfsCanRead_iff]
  unfold vfsWrite supported
  cases hr : vfsCanRead c vp false with
  | false => simp
  | true =>
    cases hd : sIsdir vp.mode with
    | true => simp
    | false =>
      cases buffer with
      | nil => simp
      | cons b bs => cases hop : vp.ops.write <;> simp

/-- Write permission is enforced for every call but a write by a process that may read and not write. -/
theorem enforced_iff_checked (c : Credentials) (call : VfsCall) : call.Enforced c ↔ call.Checked c := by
  rw [enforced_iff]
  cases call with
  | write vp buffer offset =>
    change (∀ v ∈ [vp], MayWrite c v) ∨ (∃ e, vfsWrite c vp buffer = .error e) ↔ _
    rw [vfsWrite_error_iff, List.forall_mem_singleton]
    rfl
  | truncate vp len =>
    refine iff_of_true ?_ trivial
    by_cases hw : MayWrite c vp
    · exact Or.inl (by simpa [VfsCall.changed] using hw)
    · exact Or.inr ⟨.EACCES, by
        change vfsTruncate c vp = _
        unfold vfsTruncate
        rw [if_pos (vfsCanWrite_refused hw)]⟩
  | create dir name mode rdev => exact iff_of_true (addEntry_enforced dir dir.ops.create) trivial
  | mkdir dir name mode => exact iff_of_true (addEntry_enforced dir dir.ops.mkdir) trivial
  | rename olddir oldname newdir newname => exact iff_of_true (vfsRename_enforced olddir newdir) trivial
  | link dir vp name => exact iff_of_true (addEntry_enforced dir dir.ops.link) trivial
  | unlink dir name =>
    refine iff_of_true ?_ trivial
    by_cases hw : MayWrite c dir
    · exact Or.inl (by simpa [VfsCall.changed] using hw)
    · exact Or.inr ⟨.EACCES, by
        change vfsUnlink c dir = _
        unfold vfsUnlink
        rw [if_pos (vfsCanWrite_refused hw)]⟩
  | symlink dir name target => exact iff_of_true (addEntry_enforced dir dir.ops.symlink) trivial

end

def allOps : VnodeOps := ⟨true, true, true, true, true, true, true, true⟩

def readOnlyFile : Vnode := ⟨0o100644, 0, 0, allOps⟩

/-- A process that is not root writes to the file. -/
theorem write_not_enforced : ¬ (VfsCall.write readOnlyFile [97] 0).Enforced
    ⟨⟨1000, 1000, 1000⟩, ⟨100, 100, 100⟩, []⟩ := by
  intro h
  exact absurd (h.1 (by decide) readOnlyFile List.mem_cons_self) (by unfold MayWrite; decide)

end Pml.Vfs
