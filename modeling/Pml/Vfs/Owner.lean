import Pml.Vfs.Permissions

/-!
# Owner and mode of a file (`drivers/fs/vnops.c`, `drivers/fs/ext2/inode.c`)

`vfs_chmod` and `vfs_chown` check who calls them and leave the change to the file system; `ext2` changes the vnode and
the inode, writes the inode, and takes the change back if that fails.  `vfs_chmod` refuses everyone but root and the
owner.  `vfs_chown` checks the new owner and not the present one, so a process can make itself the owner.
-/

namespace Pml.Vfs

open Pml.Kernel

abbrev sIsuid : UInt32 := 0o4000

abbrev sIsgid : UInt32 := 0o2000

/-- The owner, the group and the mode bits of a vnode. -/
@[ext]
structure Identity where
  mode : UInt32
  uid : UInt32
  gid : UInt32
  deriving DecidableEq

/-- A vnode of `ext2`, with the copies of its IDs in the inode, and the members `chmod` and `chown` of the operation
table, given by whether it has them. -/
structure File where
  vp : Identity
  iMode : UInt16
  iUid : UInt16
  iGid : UInt16
  hasChmod : Bool
  hasChown : Bool
  deriving DecidableEq

namespace File

/-- `vp->mode = file->inode.i_mode = mode`: the vnode gets the 16 bits that the inode holds. -/
def setMode (f : File) (mode : UInt32) : File :=
  { f with vp.mode := mode.toUInt16.toUInt32, iMode := mode.toUInt16 }

/-- `vp->uid = file->inode.i_uid = uid` -/
def setUid (f : File) (uid : UInt32) : File := { f with vp.uid := uid.toUInt16.toUInt32, iUid := uid.toUInt16 }

/-- `vp->gid = file->inode.i_gid = gid` -/
def setGid (f : File) (gid : UInt32) : File := { f with vp.gid := gid.toUInt16.toUInt32, iGid := gid.toUInt16 }

/-- `ext2_chmod`; `ret` is what `ext2_update_inode` returns. -/
def ext2Chmod (f : File) (mode : UInt32) (ret : Option Errno) : File × Option Errno :=
  let old := f.vp.mode
  let mode := f.vp.mode &&& sIfmt ||| mode
  let f := f.setMode mode
  (if ret ≠ none then f.setMode old else f, ret)

def ext2Chown (f : File) (uid gid : UInt32) (ret : Option Errno) : File × Option Errno :=
  let oldUid := f.vp.uid
  let oldGid := f.vp.gid
  let f := if uid ≠ noId then f.setUid uid else f
  let f := if gid ≠ noId then f.setGid gid else f
  (if ret ≠ none then (f.setUid oldUid).setGid oldGid else f, ret)

def vfsChmod (c : Credentials) (f : File) (mode : UInt32) (ret : Option Errno) : File × Option Errno :=
  if c.user.effective ≠ 0 ∧ c.user.effective ≠ f.vp.uid then (f, some .EPERM)
  else
    let matchesGid := c.group.effective = f.vp.gid ∨ f.vp.gid ∈ c.groups
    let mode := mode &&& 0o7777
    let mode := if ¬ matchesGid then mode &&& ~~~ sIsgid else mode
    if f.hasChmod then f.ext2Chmod mode ret else (f, some .ENOTSUP)

def vfsChown (c : Credentials) (f : File) (uid gid : UInt32) (ret : Option Errno) : File × Option Errno :=
  if uid ≠ noId ∧ c.user.effective ≠ 0 ∧ c.user.effective ≠ uid then (f, some .EPERM)
  else if gid ≠ noId ∧ c.user.effective ≠ 0 ∧ gid ∉ c.groups then (f, some .EPERM)
  else if f.hasChown then
    let mode := f.vp.mode
    let (f, ret) := ({ f with vp.mode := f.vp.mode &&& ~~~ (sIsuid ||| sIsgid) } : File).ext2Chown uid gid ret
    (if ret ≠ none then { f with vp.mode := mode } else f, ret)
  else (f, some .ENOTSUP)

end File

/-- A call on the file; `ret` is what the write of the inode returns. -/
inductive OwnerCall
  | chmod (mode : UInt32) (ret : Option Errno)
  | chown (uid gid : UInt32) (ret : Option Errno)

def ownerCall (c : Credentials) (f : File) : OwnerCall → File × Option Errno
  | .chmod mode ret => f.vfsChmod c mode ret
  | .chown uid gid ret => f.vfsChown c uid gid ret

def ownerRun (c : Credentials) : List OwnerCall → File → File
  | [], f => f
  | call :: calls, f => ownerRun c calls (ownerCall c f call).1

/-! ### What the calls leave alone -/

def narrow (id : UInt32) : UInt32 := id.toUInt16.toUInt32

/-- What a process that is neither root nor the owner may ask for so that the identity stays: a change of owner is
refused, or the file system has none, or it sets what is there already on a file without the bits that are cleared, or
the write of the inode fails and the IDs taken back are IDs that an inode can hold. -/
def OwnerCall.Keeps (c : Credentials) (vp : Identity) (hasChown : Bool) : OwnerCall → Prop
  | .chmod _ _ => True
  | .chown uid gid ret =>
    (uid ≠ noId ∧ c.user.effective ≠ uid) ∨ (gid ≠ noId ∧ gid ∉ c.groups) ∨ hasChown = false ∨
    (ret = none ∧ (uid = noId ∨ narrow uid = vp.uid) ∧ (gid = noId ∨ narrow gid = vp.gid) ∧
      vp.mode &&& (sIsuid ||| sIsgid) = 0) ∨
    (ret ≠ none ∧ narrow vp.uid = vp.uid ∧ narrow vp.gid = vp.gid)

private theorem and_not_eq_self_iff (mode b : UInt32) : mode &&& ~~~ b = mode ↔ mode &&& b = 0 := by
  constructor
  · intro h
    rw [← h, UInt32.and_assoc, UInt32.not_and_self, UInt32.and_zero]
  · intro h
    have hor : mode &&& (b ||| ~~~ b) = mode &&& b ||| mode &&& ~~~ b := by
      rw [← UInt32.toBitVec_inj]
      exact BitVec.and_or_distrib_left
    rw [h, UInt32.zero_or] at hor
    rw [← hor]
    simp

private theorem set_eq_iff {id a : UInt32} :
    (if id = noId then a else narrow id) = a ↔ id = noId ∨ narrow id = a := by
  by_cases h : id = noId <;> simp [h]

section

variable {c : Credentials} {f : File}

private theorem vfsChmod_refused (hroot : c.user.effective ≠ 0) (howner : c.user.effective ≠ f.vp.uid) (mode : UInt32)
    (ret : Option Errno) : f.vfsChmod c mode ret = (f, some .EPERM) := if_pos ⟨hroot, howner⟩

private theorem ext2Chown_vp (f : File) (uid gid : UInt32) : (f.ext2Chown uid gid none).1.vp =
    ⟨f.vp.mode, if uid = noId then f.vp.uid else narrow uid, if gid = noId then f.vp.gid else narrow gid⟩ := by
  unfold File.ext2Chown
  by_cases hu : uid = noId <;> by_cases hg : gid = noId <;> simp [hu, hg, File.setUid, File.setGid, narrow]

private theorem ext2Chown_failed_vp (f : File) (uid gid : UInt32) (e : Errno) : (f.ext2Chown uid gid (some e)).1.vp =
    ⟨f.vp.mode, narrow f.vp.uid, narrow f.vp.gid⟩ := by
  unfold File.ext2Chown
  by_cases hu : uid = noId <;> by_cases hg : gid = noId <;> simp [hu, hg, File.setUid, File.setGid, narrow]

private theorem ext2Chown_hasChown (f : File) (uid gid : UInt32) (ret : Option Errno) :
    (f.ext2Chown uid gid ret).1.hasChown = f.hasChown := by
  unfold File.ext2Chown File.setUid File.setGid
  cases ret <;> by_cases hu : uid = noId <;> by_cases hg : gid = noId <;> simp [hu, hg]

private theorem vfsChown_vp {uid gid : UInt32} (hu : ¬ (uid ≠ noId ∧ c.user.effective ≠ uid))
    (hg : ¬ (gid ≠ noId ∧ gid ∉ c.groups)) (hc : f.hasChown = true) (ret : Option Errno) :
    (f.vfsChown c uid gid ret).1.vp =
      if ret = none then
        ⟨f.vp.mode &&& ~~~ (sIsuid ||| sIsgid), if uid = noId then f.vp.uid else narrow uid,
          if gid = noId then f.vp.gid else narrow gid⟩
      else ⟨f.vp.mode, narrow f.vp.uid, narrow f.vp.gid⟩ := by
  unfold File.vfsChown
  rw [if_neg (fun h => hu ⟨h.1, h.2.2⟩), if_neg (fun h => hg ⟨h.1, h.2.2⟩), if_pos hc]
  cases ret with
  | none => exact ext2Chown_vp { f with vp.mode := f.vp.mode &&& ~~~ (sIsuid ||| sIsgid) } uid gid
  | some e =>
    have h := ext2Chown_failed_vp { f with vp.mode := f.vp.mode &&& ~~~ (sIsuid ||| sIsgid) } uid gid e
    rw [if_neg (by simp)]
    exact congrArg (fun vp : Identity => { vp with mode := f.vp.mode }) h

private theorem ownerCall_hasChown (c : Credentials) (f : File) (call : OwnerCall) :
    (ownerCall c f call).1.hasChown = f.hasChown := by
  cases call with
  | chmod mode ret =>
    change (f.vfsChmod c mode ret).1.hasChown = f.hasChown
    unfold File.vfsChmod File.ext2Chmod File.setMode
    split
    · rfl
    · dsimp only
      split
      · cases ret <;> rfl
      · rfl
  | chown uid gid ret =>
    change (f.vfsChown c uid gid ret).1.hasChown = f.hasChown
    unfold File.vfsChown
    split
    · rfl
    · split
      · rfl
      · split
        · have h := ext2Chown_hasChown { f with vp.mode := f.vp.mode &&& ~~~ (sIsuid ||| sIsgid) } uid gid ret
          cases ret <;> exact h
        · rfl

/-- A call of a process that is neither root nor the owner leaves the identity alone exactly when it asks for nothing
else. -/
private theorem ownerCall_vp_iff (hroot : c.user.effective ≠ 0) (howner : c.user.effective ≠ f.vp.uid)
    (call : OwnerCall) : (ownerCall c f call).1.vp = f.vp ↔ call.Keeps c f.vp f.hasChown := by
  cases call with
  | chmod mode ret =>
    refine iff_of_true ?_ trivial
    change (f.vfsChmod c mode ret).1.vp = f.vp
    rw [vfsChmod_refused hroot howner]
  | chown uid gid ret =>
    change (f.vfsChown c uid gid ret).1.vp = f.vp ↔ _
    simp only [OwnerCall.Keeps]
    by_cases hu : uid ≠ noId ∧ c.user.effective ≠ uid
    · refine iff_of_true ?_ (Or.inl hu)
      unfold File.vfsChown
      rw [if_pos ⟨hu.1, hroot, hu.2⟩]
    rw [or_iff_right hu]
    by_cases hg : gid ≠ noId ∧ gid ∉ c.groups
    · refine iff_of_true ?_ (Or.inl hg)
      unfold File.vfsChown
      rw [if_neg (fun h => hu ⟨h.1, h.2.2⟩), if_pos ⟨hg.1, hroot, hg.2⟩]
    rw [or_iff_right hg]
    by_cases hc : f.hasChown = true
    · rw [vfsChown_vp hu hg hc, or_iff_right (by simp [hc])]
      cases ret with
      | none =>
        rw [if_pos rfl, Identity.ext_iff, and_not_eq_self_iff, set_eq_iff, set_eq_iff]
        constructor
        · rintro ⟨hm, hu, hg⟩
          exact Or.inl ⟨rfl, hu, hg, hm⟩
        · rintro (⟨-, hu, hg, hm⟩ | ⟨hne, -⟩)
          · exact ⟨hm, hu, hg⟩
          · exact absurd rfl hne
      | some e => simp [Identity.ext_iff]
    · refine iff_of_true ?_ (Or.inl (by simpa using hc))
      unfold File.vfsChown
      rw [if_neg (fun h => hu ⟨h.1, h.2.2⟩), if_neg (fun h => hg ⟨h.1, h.2.2⟩), if_neg hc]

/-- The calls of a process that is neither root nor the owner never change the identity exactly when each of them, on
the file as it was at first, asks for nothing else. -/
theorem identity_kept_iff (hroot : c.user.effective ≠ 0) (howner : c.user.effective ≠ f.vp.uid)
    (calls : List OwnerCall) :
    (∀ p, p <+: calls → (ownerRun c p f).vp = f.vp) ↔ ∀ call ∈ calls, call.Keeps c f.vp f.hasChown := by
  induction calls generalizing f with
  | nil =>
    refine iff_of_true (fun p hp => ?_) (by simp)
    rw [List.prefix_nil.1 hp]
    rfl
  | cons call calls ih =>
    rw [List.forall_mem_cons, ← ownerCall_vp_iff hroot howner]
    constructor
    · intro h
      have h1 : (ownerCall c f call).1.vp = f.vp := h [call] (by simp)
      refine ⟨h1, ?_⟩
      rw [← h1, ← ownerCall_hasChown c f call, ← ih (by rwa [h1])]
      intro p hp
      rw [h1]
      exact h (call :: p) (List.cons_prefix_cons.2 ⟨rfl, hp⟩)
    · rintro ⟨h1, h2⟩ p hp
      rw [← h1, ← ownerCall_hasChown c f call, ← ih (by rwa [h1])] at h2
      cases p with
      | nil => rfl
      | cons call' p =>
        obtain ⟨rfl, hp'⟩ := List.cons_prefix_cons.1 hp
        rw [← h1]
        exact h2 p hp'

end

def rootFile : File := ⟨⟨0o100644, 0, 0⟩, 0o100644, 0, 0, true, true⟩

/-- The process makes itself the owner of a file of root and then sets its mode. -/
theorem identity_not_kept : ¬ ∀ p, p <+: [OwnerCall.chown 1000 noId none, .chmod 0o4777 none] →
    (ownerRun ⟨⟨1000, 1000, 1000⟩, ⟨100, 100, 100⟩, []⟩ p rootFile).vp = rootFile.vp := by
  intro h
  have hrun := h _ (List.prefix_refl _)
  revert hrun
  decide

/-- The calls of the process that are refused change nothing. -/
theorem identity_kept_small : (ownerRun ⟨⟨1000, 1000, 1000⟩, ⟨100, 100, 100⟩, []⟩
    [OwnerCall.chmod 0o777 none, .chown 0 noId none, .chown noId 100 none] rootFile).vp = rootFile.vp :=
  (identity_kept_iff (by decide) (by decide) _).2 (by simp [OwnerCall.Keeps, noId]) _ (List.prefix_refl _)

end Pml.Vfs
