import Pml.Ext2.InodeUpdate

/-!
# Mode, owner and times of an inode (`drivers/fs/ext2/inode.c`)

`ext2_chmod`, `ext2_chown` and `ext2_utime` change the vnode and the inode in memory, write the inode, and take the
change back from what the vnode had if that fails.  `ext2_fill` reads the inode for a new vnode.  It keeps the type of
the file and drops the permission bits, so that the mode of a vnode depends on whether `ext2_chmod` has been called.
An inode has 32 bits for each of the times.
-/

namespace Pml.Ext2

open ByteMemory

/-- `struct timespec` -/
@[ext]
structure Timespec where
  sec : Int
  nsec : Int
  deriving DecidableEq

/-- A vnode, with the inode in its `struct ext2_file`. -/
@[ext]
structure FileVnode where
  ino : Nat
  mode : Nat
  nlink : Nat
  uid : Nat
  gid : Nat
  rdev : Nat
  atime : Timespec
  mtime : Timespec
  ctime : Timespec
  blocks : Nat
  blksize : Nat
  size : Nat
  inode : Mem

/-- `mode & S_IFMT` -/
def modeType (mode : Nat) : Nat := mode &&& 0o170000

/-- The low 32 bits of a `time_t`. -/
def low32 (sec : Int) : Nat := (sec % 2 ^ 32).toNat

/-- `(uid_t) -1` and `(gid_t) -1` -/
abbrev keepId : UInt32 := 0xffffffff

namespace FileVnode

def iMode (vp : FileVnode) : Nat := readLE vp.inode 0 2
def iUid (vp : FileVnode) : Nat := readLE vp.inode 2 2
def iGid (vp : FileVnode) : Nat := readLE vp.inode 24 2
def iAtime (vp : FileVnode) : Nat := readLE vp.inode 8 4
def iMtime (vp : FileVnode) : Nat := readLE vp.inode 16 4

/-- `vp->mode = file->inode.i_mode = mode`: the vnode gets the 16 bits that the inode holds. -/
def setMode (vp : FileVnode) (mode : Nat) : FileVnode :=
  { vp with mode := mode % 2 ^ 16, inode := writeLE vp.inode 0 2 mode }

/-- `vp->uid = file->inode.i_uid = uid` -/
def setUid (vp : FileVnode) (uid : Nat) : FileVnode :=
  { vp with uid := uid % 2 ^ 16, inode := writeLE vp.inode 2 2 uid }

/-- `vp->gid = file->inode.i_gid = gid` -/
def setGid (vp : FileVnode) (gid : Nat) : FileVnode :=
  { vp with gid := gid % 2 ^ 16, inode := writeLE vp.inode 24 2 gid }

/-- `vp->atime = t` and `file->inode.i_atime = t.tv_sec` -/
def setAtime (vp : FileVnode) (t : Timespec) : FileVnode :=
  { vp with atime := t, inode := writeLE vp.inode 8 4 (low32 t.sec) }

/-- `vp->mtime = t` and `file->inode.i_mtime = t.tv_sec` -/
def setMtime (vp : FileVnode) (t : Timespec) : FileVnode :=
  { vp with mtime := t, inode := writeLE vp.inode 16 4 (low32 t.sec) }

end FileVnode

/-- What a call meets: the device, the memory for a cache, and whether there is memory for a copy of the inode. -/
structure CallEnv where
  dev : Device
  mem : Option Mem
  calloc : Bool

namespace Volume

variable (crc : Crc) (v : Volume)

/-- `ext2_update_vfs_inode`, where `largeFile` tells whether the file system has `EXT2_FT_RO_COMPAT_LARGE_FILE`. -/
def updateVfsInode (largeFile : Bool) (ino : Nat) (inode : Mem) : FileVnode :=
  let mode := modeType (readLE inode 0 2)
  let size := readLE inode 4 4
  { ino
    mode
    nlink := readLE inode 26 2
    uid := readLE inode 2 2
    gid := readLE inode 24 2
    -- `S_ISBLK` and `S_ISCHR`
    rdev := if mode = 0o060000 ∨ mode = 0o020000 then readLE inode 40 8 else 0
    atime := ⟨readLE inode 8 4, 0⟩
    mtime := ⟨readLE inode 16 4, 0⟩
    ctime := ⟨readLE inode 12 4, 0⟩
    blocks := (readLE inode 28 4 * 512 % 2 ^ 32 + v.super.blksize - 1) / v.super.blksize
    blksize := v.super.blksize
    size := if largeFile then size ||| readLE inode 108 4 <<< 32 else size
    inode }

/-- `ext2_fill`, where `buffer` tells whether there is memory for the buffer of the file. -/
def fill (largeFile buffer : Bool) (env : CallEnv) (s : InodeStore) (ino : Nat) :
    Option (InodeStore × Except Errno FileVnode) :=
  if ¬ env.calloc then some (s, .error .ENOMEM)
  else
    match v.readInode crc env.dev.read env.mem s ino with
    | none => none
    | some (s, .error e) => some (s, .error e)
    | some (s, .ok inode) =>
      if ¬ buffer then some (s, .error .ENOMEM) else some (s, .ok (v.updateVfsInode largeFile ino inode))

/-- The inode of the vnode is written, and the vnode is changed by `undo` if that fails. -/
def writeBack (env : CallEnv) (s : InodeStore) (vp : FileVnode) (undo : FileVnode → FileVnode) :
    Option ((InodeStore × FileVnode) × Except Errno Unit) :=
  match v.updateInode crc env.dev env.mem env.calloc s vp.ino vp.inode 128 with
  | none => none
  | some (s, .ok ()) => some ((s, vp), .ok ())
  | some (s, .error e) => some ((s, undo vp), .error e)

def chmod (env : CallEnv) (s : InodeStore) (vp : FileVnode) (mode : UInt32) :
    Option ((InodeStore × FileVnode) × Except Errno Unit) :=
  let old := vp.mode
  let mode := modeType vp.mode ||| mode.toNat
  v.writeBack crc env s (vp.setMode mode) fun vp => vp.setMode old

def chown (env : CallEnv) (s : InodeStore) (vp : FileVnode) (uid gid : UInt32) :
    Option ((InodeStore × FileVnode) × Except Errno Unit) :=
  let oldUid := vp.uid
  let oldGid := vp.gid
  let vp := if uid ≠ keepId then vp.setUid uid.toNat else vp
  let vp := if gid ≠ keepId then vp.setGid gid.toNat else vp
  v.writeBack crc env s vp fun vp => (vp.setUid oldUid).setGid oldGid

def utime (env : CallEnv) (s : InodeStore) (vp : FileVnode) (access modify : Option Timespec) :
    Option ((InodeStore × FileVnode) × Except Errno Unit) :=
  let oldAtime := vp.atime
  let oldMtime := vp.mtime
  let vp := match access with
    | some t => vp.setAtime t
    | none => vp
  let vp := match modify with
    | some t => vp.setMtime t
    | none => vp
  v.writeBack crc env s vp fun vp => (vp.setAtime oldAtime).setMtime oldMtime

end Volume

/-- One of the three calls. -/
inductive AttrOp
  | chmod (mode : UInt32)
  | chown (uid gid : UInt32)
  | utime (access modify : Option Timespec)

/-- A call, and what it meets. -/
structure AttrCall where
  env : CallEnv
  op : AttrOp

namespace AttrOp

def mode? : AttrOp → Option UInt32
  | chmod mode => some mode
  | _ => none

def access? : AttrOp → Option Timespec
  | utime access _ => access
  | _ => none

def modify? : AttrOp → Option Timespec
  | utime _ modify => modify
  | _ => none

end AttrOp

section

variable (crc : Crc) (v : Volume)

def attrCall (s : InodeStore × FileVnode) (c : AttrCall) : Option ((InodeStore × FileVnode) × Except Errno Unit) :=
  match c.op with
  | .chmod mode => v.chmod crc c.env s.1 s.2 mode
  | .chown uid gid => v.chown crc c.env s.1 s.2 uid gid
  | .utime access modify => v.utime crc c.env s.1 s.2 access modify

def attrStep (s : InodeStore × FileVnode) (c : AttrCall) : Option (InodeStore × FileVnode) :=
  (attrCall crc v s c).map Prod.fst

def attrOk (s : InodeStore × FileVnode) (c : AttrCall) : Option (InodeStore × FileVnode) :=
  match attrCall crc v s c with
  | some (s', .ok ()) => some s'
  | _ => none

end

def FileVnode.SameAttributes (vp vp' : FileVnode) : Prop :=
  vp.mode = vp'.mode ∧ vp.uid = vp'.uid ∧ vp.gid = vp'.gid ∧ vp.atime.sec = vp'.atime.sec ∧
    vp.mtime.sec = vp'.mtime.sec

instance (vp vp' : FileVnode) : Decidable (vp.SameAttributes vp') := inferInstanceAs (Decidable (_ ∧ _))

def Fits32 (t : Timespec) : Prop := 0 ≤ t.sec ∧ t.sec < 2 ^ 32

def lastGiven {α : Type} (f : AttrOp → Option α) (calls : List AttrCall) : Option α :=
  (calls.filterMap fun c => f c.op).getLast?

def ChangesMode (calls : List AttrCall) : Prop := ∃ b ∈ calls, b.op.mode? ≠ none

/-- The last mode that is asked for has no permission bits, and the last times are kept by 32 bits. -/
def AttrsPersist (calls : List AttrCall) : Prop :=
  (∀ mode, lastGiven AttrOp.mode? calls = some mode → mode.toNat % 0o10000 = 0) ∧
  (∀ t, lastGiven AttrOp.access? calls = some t → Fits32 t) ∧
  (∀ t, lastGiven AttrOp.modify? calls = some t → Fits32 t)

/-- What can be taken back when the call fails, after other calls: anything but the first change of the mode of a file
that has permission bits. -/
def AttrsRestored (vp : FileVnode) (calls : List AttrCall) (c : AttrCall) : Prop :=
  c.op.mode? = none ∨ ChangesMode calls ∨ vp.iMode % 0o10000 = 0

/-! ### Masks -/

private theorem modeType_eq_iff {i : Nat} (h : i < 2 ^ 16) : modeType i = i ↔ i % 0o10000 = 0 := by
  have hmask : modeType i % 2 ^ 12 = 0 := by
    unfold modeType
    rw [Nat.and_mod_two_pow]
    exact Nat.and_zero _
  constructor
  · intro he
    rwa [he] at hmask
  · intro hd
    obtain ⟨k, rfl⟩ := Nat.dvd_of_mod_eq_zero hd
    have hsmall : ∀ k < 16, modeType (0o10000 * k) = 0o10000 * k := by decide
    exact hsmall k (by omega)

private theorem type_or_mod (old mode : Nat) : (modeType old ||| mode) % 2 ^ 16 % 0o10000 = mode % 0o10000 := by
  have hmask : modeType old % 2 ^ 12 = 0 := by
    unfold modeType
    rw [Nat.and_mod_two_pow]
    exact Nat.and_zero _
  calc (modeType old ||| mode) % 2 ^ 16 % 0o10000 = (modeType old ||| mode) % 2 ^ 12 := by omega
    _ = modeType old % 2 ^ 12 ||| mode % 2 ^ 12 := Nat.or_mod_two_pow
    _ = mode % 0o10000 := by rw [hmask, Nat.zero_or]

private theorem low32_lt (sec : Int) : low32 sec < 256 ^ 4 := by
  unfold low32
  omega

private theorem low32_eq_iff {sec : Int} : (low32 sec : Int) = sec ↔ 0 ≤ sec ∧ sec < 2 ^ 32 := by
  unfold low32
  omega

/-! ### The fields of the inode -/

namespace FileVnode

variable (vp : FileVnode)

private theorem iMode_lt : vp.iMode < 2 ^ 16 := readLE_lt vp.inode 0 2

/-- The owner and the times are in the inode. -/
structure Synced : Prop where
  uid : vp.uid = vp.iUid
  gid : vp.gid = vp.iGid
  atime : low32 vp.atime.sec = vp.iAtime
  mtime : low32 vp.mtime.sec = vp.iMtime

variable {vp}

private theorem setMode_iMode (mode : Nat) : (vp.setMode mode).iMode = mode % 2 ^ 16 := readLE_writeLE_self _ _ _ _

theorem Synced.setMode (h : vp.Synced) (mode : Nat) : (vp.setMode mode).Synced where
  uid := h.uid.trans (readLE_writeLE_disjoint (by decide)).symm
  gid := h.gid.trans (readLE_writeLE_disjoint (by decide)).symm
  atime := h.atime.trans (readLE_writeLE_disjoint (by decide)).symm
  mtime := h.mtime.trans (readLE_writeLE_disjoint (by decide)).symm

theorem Synced.setUid (h : vp.Synced) (uid : Nat) : (vp.setUid uid).Synced where
  uid := (readLE_writeLE_self vp.inode 2 2 uid).symm
  gid := h.gid.trans (readLE_writeLE_disjoint (by decide)).symm
  atime := h.atime.trans (readLE_writeLE_disjoint (by decide)).symm
  mtime := h.mtime.trans (readLE_writeLE_disjoint (by decide)).symm

theorem Synced.setGid (h : vp.Synced) (gid : Nat) : (vp.setGid gid).Synced where
  uid := h.uid.trans (readLE_writeLE_disjoint (by decide)).symm
  gid := (readLE_writeLE_self vp.inode 24 2 gid).symm
  atime := h.atime.trans (readLE_writeLE_disjoint (by decide)).symm
  mtime := h.mtime.trans (readLE_writeLE_disjoint (by decide)).symm

private theorem Synced.setAtime (h : vp.Synced) (t : Timespec) : (vp.setAtime t).Synced where
  uid := h.uid.trans (readLE_writeLE_disjoint (by decide)).symm
  gid := h.gid.trans (readLE_writeLE_disjoint (by decide)).symm
  atime := ((readLE_writeLE_self _ _ _ _).trans (Nat.mod_eq_of_lt (low32_lt _))).symm
  mtime := h.mtime.trans (readLE_writeLE_disjoint (by decide)).symm

private theorem Synced.setMtime (h : vp.Synced) (t : Timespec) : (vp.setMtime t).Synced where
  uid := h.uid.trans (readLE_writeLE_disjoint (by decide)).symm
  gid := h.gid.trans (readLE_writeLE_disjoint (by decide)).symm
  atime := h.atime.trans (readLE_writeLE_disjoint (by decide)).symm
  mtime := ((readLE_writeLE_self _ _ _ _).trans (Nat.mod_eq_of_lt (low32_lt _))).symm

private theorem setMode_setMode (a b : Nat) : (vp.setMode a).setMode b = vp.setMode b := by
  unfold setMode
  rw [writeLE_writeLE]

private theorem setUid_setUid (a b : Nat) : (vp.setUid a).setUid b = vp.setUid b := by
  unfold setUid
  rw [writeLE_writeLE]

private theorem setGid_setGid (a b : Nat) : (vp.setGid a).setGid b = vp.setGid b := by
  unfold setGid
  rw [writeLE_writeLE]

private theorem setAtime_setAtime (a b : Timespec) : (vp.setAtime a).setAtime b = vp.setAtime b := by
  unfold setAtime
  rw [writeLE_writeLE]

private theorem setMtime_setMtime (a b : Timespec) : (vp.setMtime a).setMtime b = vp.setMtime b := by
  unfold setMtime
  rw [writeLE_writeLE]

private theorem setUid_setGid (uid gid : Nat) : (vp.setGid gid).setUid uid = (vp.setUid uid).setGid gid := by
  unfold setUid setGid
  rw [writeLE_comm (by decide)]

private theorem setAtime_setMtime (a m : Timespec) : (vp.setMtime m).setAtime a = (vp.setAtime a).setMtime m := by
  unfold setAtime setMtime
  rw [writeLE_comm (by decide)]

private theorem setMode_eq_self_iff : vp.setMode vp.mode = vp ↔ vp.mode = vp.iMode := by
  constructor
  · intro h
    calc vp.mode = (vp.setMode vp.mode).mode := by rw [h]
      _ = (vp.setMode vp.mode).iMode := (setMode_iMode _).symm
      _ = vp.iMode := by rw [h]
  · intro h
    unfold setMode
    rw [h, Nat.mod_eq_of_lt vp.iMode_lt, iMode, writeLE_readLE_self]
    exact congrArg (fun mode => { vp with mode }) h.symm

private theorem Synced.setUid_self (h : vp.Synced) : vp.setUid vp.uid = vp := by
  have hlt : vp.iUid < 2 ^ 16 := readLE_lt vp.inode 2 2
  unfold FileVnode.setUid
  rw [h.uid, Nat.mod_eq_of_lt hlt, iUid, writeLE_readLE_self]
  exact congrArg (fun uid => { vp with uid }) h.uid.symm

private theorem Synced.setGid_self (h : vp.Synced) : vp.setGid vp.gid = vp := by
  have hlt : vp.iGid < 2 ^ 16 := readLE_lt vp.inode 24 2
  unfold FileVnode.setGid
  rw [h.gid, Nat.mod_eq_of_lt hlt, iGid, writeLE_readLE_self]
  exact congrArg (fun gid => { vp with gid }) h.gid.symm

private theorem Synced.setAtime_self (h : vp.Synced) : vp.setAtime vp.atime = vp := by
  unfold FileVnode.setAtime
  rw [h.atime, iAtime, writeLE_readLE_self]

private theorem Synced.setMtime_self (h : vp.Synced) : vp.setMtime vp.mtime = vp := by
  unfold FileVnode.setMtime
  rw [h.mtime, iMtime, writeLE_readLE_self]

end FileVnode

namespace AttrOp

variable {vp : FileVnode}

def set : AttrOp → FileVnode → FileVnode
  | chmod mode, vp => vp.setMode (modeType vp.mode ||| mode.toNat)
  | chown uid gid, vp =>
    let vp := if uid ≠ keepId then vp.setUid uid.toNat else vp
    if gid ≠ keepId then vp.setGid gid.toNat else vp
  | utime access modify, vp =>
    let vp := match access with
      | some t => vp.setAtime t
      | none => vp
    match modify with
    | some t => vp.setMtime t
    | none => vp

def undo (old : FileVnode) : AttrOp → FileVnode → FileVnode
  | chmod _, vp => vp.setMode old.mode
  | chown _ _, vp => (vp.setUid old.uid).setGid old.gid
  | utime _ _, vp => (vp.setAtime old.atime).setMtime old.mtime

private theorem set_synced (h : vp.Synced) (op : AttrOp) : (op.set vp).Synced := by
  cases op with
  | chmod mode => exact h.setMode _
  | chown uid gid =>
    have huid : (if uid ≠ keepId then vp.setUid uid.toNat else vp).Synced := by
      split
      · exact h.setUid _
      · exact h
    unfold set
    dsimp only
    split
    · exact huid.setGid _
    · exact huid
  | utime access modify =>
    cases access <;> cases modify
    · exact h
    · exact h.setMtime _
    · exact h.setAtime _
    · exact (h.setAtime _).setMtime _

private theorem undo_synced (h : vp.Synced) (op : AttrOp) (old : FileVnode) : (op.undo old vp).Synced := by
  cases op with
  | chmod mode => exact h.setMode _
  | chown uid gid => exact (h.setUid _).setGid _
  | utime access modify => exact (h.setAtime _).setMtime _

/-- A call that fails leaves everything as it was, but for the mode of a vnode that has not the mode of its inode. -/
private theorem undo_set (h : vp.Synced) (op : AttrOp) :
    op.undo vp (op.set vp) = vp ↔ op.mode? = none ∨ vp.mode = vp.iMode := by
  cases op with
  | chmod mode =>
    rw [or_iff_right (show ¬(chmod mode).mode? = none from nofun)]
    change (vp.setMode _).setMode vp.mode = vp ↔ _
    rw [FileVnode.setMode_setMode, FileVnode.setMode_eq_self_iff]
  | chown uid gid =>
    refine iff_of_true ?_ (Or.inl rfl)
    have huid : ∀ gid', ((vp.setGid gid').setUid vp.uid).setGid vp.gid = vp := by
      intro gid'
      rw [FileVnode.setUid_setGid, FileVnode.setGid_setGid, h.setUid_self, h.setGid_self]
    unfold undo set
    dsimp only
    split <;> split
    · rw [FileVnode.setUid_setGid, FileVnode.setUid_setUid, FileVnode.setGid_setGid, h.setUid_self, h.setGid_self]
    · exact huid _
    · rw [FileVnode.setUid_setUid, h.setUid_self, h.setGid_self]
    · rw [h.setUid_self, h.setGid_self]
  | utime access modify =>
    refine iff_of_true ?_ (Or.inl rfl)
    unfold undo set
    cases access <;> cases modify <;> dsimp only
    · rw [h.setAtime_self, h.setMtime_self]
    · rw [FileVnode.setAtime_setMtime, FileVnode.setMtime_setMtime, h.setAtime_self, h.setMtime_self]
    · rw [FileVnode.setAtime_setAtime, h.setAtime_self, h.setMtime_self]
    · rw [FileVnode.setAtime_setMtime, FileVnode.setAtime_setAtime, FileVnode.setMtime_setMtime, h.setAtime_self,
        h.setMtime_self]

end AttrOp

/-! ### What a call does -/

section

variable {crc : Crc} {v : Volume} {ino : Nat} {s s' : InodeStore} {vp vp' : FileVnode} {c : AttrCall}

private theorem attrCall_eq (crc : Crc) (v : Volume) (s : InodeStore) (vp : FileVnode) (c : AttrCall) :
    attrCall crc v (s, vp) c = v.writeBack crc c.env s (c.op.set vp) (c.op.undo vp) := by
  obtain ⟨env, op⟩ := c
  cases op <;> rfl

private theorem attrCall_ok (h : attrCall crc v (s, vp) c = some ((s', vp'), .ok ())) :
    vp' = c.op.set vp ∧
      v.updateInode crc c.env.dev c.env.mem c.env.calloc s vp'.ino vp'.inode 128 = some (s', .ok ()) := by
  rw [attrCall_eq, Volume.writeBack] at h
  split at h
  · cases h
  · rename_i s₁ hu
    cases h
    exact ⟨rfl, hu⟩
  · cases h

private theorem attrCall_error {e : Errno} (h : attrCall crc v (s, vp) c = some ((s', vp'), .error e)) :
    vp' = c.op.undo vp (c.op.set vp) := by
  rw [attrCall_eq, Volume.writeBack] at h
  split at h
  · cases h
  · cases h
  · cases h
    rfl

private theorem attrOk_spec (h : attrOk crc v (s, vp) c = some (s', vp')) :
    attrCall crc v (s, vp) c = some ((s', vp'), .ok ()) := by
  unfold attrOk at h
  split at h
  · rename_i s₁ hcall
    cases h
    exact hcall
  · cases h

private theorem attrStep_spec (h : attrStep crc v (s, vp) c = some (s', vp')) :
    vp' = c.op.set vp ∨ vp' = c.op.undo vp (c.op.set vp) := by
  obtain ⟨⟨t, r⟩, hcall, rfl⟩ := Option.map_eq_some_iff.1 h
  cases r with
  | ok u => exact Or.inl (attrCall_ok hcall).1
  | error e => exact Or.inr (attrCall_error hcall)

private theorem attrStep_of_attrOk (h : attrOk crc v (s, vp) c = some (s', vp')) :
    attrStep crc v (s, vp) c = some (s', vp') := by
  rw [attrStep, attrOk_spec h, Option.map_some]

end

/-! ### Runs -/

namespace AttrOp

variable {vp : FileVnode}

private theorem set_mode_of_none {op : AttrOp} (h : op.mode? = none) :
    (op.set vp).mode = vp.mode ∧ (op.set vp).iMode = vp.iMode := by
  have huid : ∀ vp : FileVnode, ∀ uid, (vp.setUid uid).iMode = vp.iMode :=
    fun _ _ => readLE_writeLE_disjoint (by decide)
  have hgid : ∀ vp : FileVnode, ∀ gid, (vp.setGid gid).iMode = vp.iMode :=
    fun _ _ => readLE_writeLE_disjoint (by decide)
  cases op with
  | chmod mode => cases h
  | chown uid gid =>
    unfold set
    dsimp only
    split <;> split
    · exact ⟨rfl, (hgid _ _).trans (huid _ _)⟩
    · exact ⟨rfl, hgid _ _⟩
    · exact ⟨rfl, huid _ _⟩
    · exact ⟨rfl, rfl⟩
  | utime access modify =>
    cases access <;> cases modify
    · exact ⟨rfl, rfl⟩
    · exact ⟨rfl, readLE_writeLE_disjoint (by decide)⟩
    · exact ⟨rfl, readLE_writeLE_disjoint (by decide)⟩
    · exact ⟨rfl, (readLE_writeLE_disjoint (by decide)).trans (readLE_writeLE_disjoint (by decide))⟩

private theorem set_mode_of_some {op : AttrOp} {mode : UInt32} (h : op.mode? = some mode) :
    (op.set vp).mode = (op.set vp).iMode ∧ (op.set vp).iMode % 0o10000 = mode.toNat % 0o10000 := by
  cases op with
  | chmod mode' =>
    cases h
    refine ⟨(FileVnode.setMode_iMode _).symm, ?_⟩
    change (vp.setMode _).iMode % _ = _
    rw [FileVnode.setMode_iMode, type_or_mod]
  | chown uid gid => cases h
  | utime access modify => cases h

private theorem set_times (op : AttrOp) : (op.set vp).ino = vp.ino ∧
    (op.set vp).atime = op.access?.getD vp.atime ∧ (op.set vp).mtime = op.modify?.getD vp.mtime := by
  cases op with
  | chmod mode => exact ⟨rfl, rfl, rfl⟩
  | chown uid gid =>
    unfold set
    dsimp only
    split <;> split <;> exact ⟨rfl, rfl, rfl⟩
  | utime access modify => cases access <;> cases modify <;> exact ⟨rfl, rfl, rfl⟩

private theorem undo_mode {op : AttrOp} (h : op.mode? ≠ none) (old : FileVnode) :
    (op.undo old vp).mode = (op.undo old vp).iMode := by
  cases op with
  | chmod mode => exact (FileVnode.setMode_iMode _).symm
  | chown uid gid => exact absurd rfl h
  | utime access modify => exact absurd rfl h

end AttrOp

section

variable {crc : Crc} {v : Volume} {ino : Nat} {s s' : InodeStore} {vp₀ vp vp' : FileVnode} {c : AttrCall}

/-- A vnode after some calls, where `vp₀` is the vnode that was filled. -/
structure FileVnode.After (vp : FileVnode) (calls : List AttrCall) (vp₀ : FileVnode) : Prop where
  synced : vp.Synced
  changed : ChangesMode calls → vp.mode = vp.iMode
  unchanged : ¬ChangesMode calls → vp.mode = modeType vp.iMode ∧ vp.iMode = vp₀.iMode

private theorem changesMode_append {calls : List AttrCall} :
    ChangesMode (calls ++ [c]) ↔ ChangesMode calls ∨ c.op.mode? ≠ none := by
  simp [ChangesMode, or_and_right, exists_or]

theorem FileVnode.After.same {calls : List AttrCall} (h : vp.After calls vp₀) (hs : vp'.Synced)
    (hnone : c.op.mode? = none) (hmode : vp'.mode = vp.mode) (himode : vp'.iMode = vp.iMode) :
    vp'.After (calls ++ [c]) vp₀ where
  synced := hs
  changed hch := by
    rw [changesMode_append, or_iff_left (not_not.2 hnone)] at hch
    rw [hmode, himode, h.changed hch]
  unchanged hch := by
    rw [changesMode_append, or_iff_left (not_not.2 hnone)] at hch
    rw [hmode, himode]
    exact h.unchanged hch

theorem FileVnode.After.step {calls : List AttrCall} (h : vp.After calls vp₀)
    (hc : attrStep crc v (s, vp) c = some (s', vp')) : vp'.After (calls ++ [c]) vp₀ := by
  have hset := AttrOp.set_synced h.synced c.op
  cases hm : c.op.mode? with
  | none =>
    rcases attrStep_spec hc with rfl | rfl
    · exact h.same hset hm (AttrOp.set_mode_of_none hm).1 (AttrOp.set_mode_of_none hm).2
    · rw [(AttrOp.undo_set h.synced c.op).2 (Or.inl hm)]
      exact h.same h.synced hm rfl rfl
  | some mode =>
    have hne : c.op.mode? ≠ none := by
      rw [hm]
      nofun
    rcases attrStep_spec hc with rfl | rfl
    · exact ⟨hset, fun _ => (AttrOp.set_mode_of_some hm).1, fun hn => absurd (changesMode_append.2 (Or.inr hne)) hn⟩
    · exact ⟨AttrOp.undo_synced hset c.op vp, fun _ => AttrOp.undo_mode hne vp,
        fun hn => absurd (changesMode_append.2 (Or.inr hne)) hn⟩

theorem FileVnode.After.run {calls done : List AttrCall} (h : vp.After done vp₀)
    (hrun : Machine.run (attrStep crc v) calls (s, vp) = some (s', vp')) : vp'.After (done ++ calls) vp₀ := by
  induction calls generalizing done s vp with
  | nil =>
    cases hrun
    rwa [List.append_nil]
  | cons c calls ih =>
    obtain ⟨⟨s₁, vp₁⟩, hc, hrest⟩ := Option.bind_eq_some_iff.1 hrun
    have h₁ := ih (h.step hc) hrest
    rwa [List.append_assoc, List.singleton_append] at h₁

private theorem lastGiven_append {α : Type} (f : AttrOp → Option α) (calls : List AttrCall) (c : AttrCall) :
    lastGiven f (calls ++ [c]) = (f c.op).or (lastGiven f calls) := by
  unfold lastGiven
  rw [List.filterMap_append]
  cases hf : f c.op with
  | none => simp [hf]
  | some a => simp [hf]

private theorem changesMode_iff {calls : List AttrCall} :
    ChangesMode calls ↔ lastGiven AttrOp.mode? calls ≠ none := by
  unfold ChangesMode lastGiven
  rw [ne_eq, List.getLast?_eq_none_iff, List.filterMap_eq_nil_iff]
  push Not
  rfl

/-- A vnode after calls that have all succeeded: its inode is the one that is read, and it has what was given last. -/
structure FileVnode.Given (crc : Crc) (v : Volume) (s : InodeStore) (vp : FileVnode) (calls : List AttrCall)
    (vp₀ : FileVnode) : Prop where
  ino : vp.ino = vp₀.ino
  stored : v.ReadsAs crc s vp₀.ino vp.inode
  mode : ∀ mode, lastGiven AttrOp.mode? calls = some mode → vp.iMode % 0o10000 = mode.toNat % 0o10000
  atime : vp.atime = (lastGiven AttrOp.access? calls).getD vp₀.atime
  mtime : vp.mtime = (lastGiven AttrOp.modify? calls).getD vp₀.mtime

section

variable (hopen : openfs v.super = some (.ok v.groupDescCount)) (hwf : v.super.inodesCount < 2 ^ 32)
include hopen hwf

theorem FileVnode.Given.step {calls : List AttrCall} (hino : v.HasInode vp₀.ino) (h : vp.Given crc v s calls vp₀)
    (hc : attrOk crc v (s, vp) c = some (s', vp')) : vp'.Given crc v s' (calls ++ [c]) vp₀ := by
  obtain ⟨hset, hupd⟩ := attrCall_ok (attrOk_spec hc)
  obtain ⟨hn, ha, hm⟩ := @AttrOp.set_times vp c.op
  have hino' : vp'.ino = vp₀.ino := by rw [hset, hn, h.ino]
  rw [hino'] at hupd
  refine ⟨hino', Volume.updateInode_readsAs hopen hwf hino (Nat.le_refl 128) hupd, fun mode hmode => ?_, ?_, ?_⟩
  · rw [lastGiven_append] at hmode
    rw [hset]
    cases hop : c.op.mode? with
    | none =>
      rw [hop, Option.none_or] at hmode
      rw [(AttrOp.set_mode_of_none hop).2, h.mode mode hmode]
    | some mode' =>
      rw [hop, Option.some_or] at hmode
      cases hmode
      exact (AttrOp.set_mode_of_some hop).2
  · rw [hset, ha, lastGiven_append, h.atime]
    cases c.op.access? <;> rfl
  · rw [hset, hm, lastGiven_append, h.mtime]
    cases c.op.modify? <;> rfl

theorem FileVnode.Given.run {calls done : List AttrCall} (hino : v.HasInode vp₀.ino) (h : vp.Given crc v s done vp₀)
    (ha : vp.After done vp₀) (hrun : Machine.run (attrOk crc v) calls (s, vp) = some (s', vp')) :
    vp'.Given crc v s' (done ++ calls) vp₀ ∧ vp'.After (done ++ calls) vp₀ := by
  induction calls generalizing done s vp with
  | nil =>
    cases hrun
    rw [List.append_nil]
    exact ⟨h, ha⟩
  | cons c calls ih =>
    obtain ⟨⟨s₁, vp₁⟩, hc, hrest⟩ := Option.bind_eq_some_iff.1 hrun
    have h₁ := ih (h.step hopen hwf hino hc) (ha.step (attrStep_of_attrOk hc)) hrest
    rwa [List.append_assoc, List.singleton_append] at h₁

end

end

/-! ### Filling a vnode -/

section

variable {crc : Crc} {v : Volume} {ino : Nat} {s s' : InodeStore} {vp : FileVnode} {largeFile buffer : Bool}
    {env : CallEnv}

theorem fill_spec (h : v.fill crc largeFile buffer env s ino = some (s', .ok vp)) :
    ∃ inode, v.readInode crc env.dev.read env.mem s ino = some (s', .ok inode) ∧
      vp = v.updateVfsInode largeFile ino inode := by
  unfold Volume.fill at h
  split at h
  · cases h
  split at h
  · cases h
  · cases h
  · rename_i s₁ inode hread
    split at h
    · cases h
    · cases h
      exact ⟨inode, hread, rfl⟩

private theorem readInode_hasInode {read : Nat → Option Mem} {mem : Option Mem} {m : Mem}
    (h : v.readInode crc read mem s ino = some (s', .ok m)) : v.HasInode ino := by
  unfold Volume.readInode at h
  split at h
  · cases h
  · rename_i hn
    obtain ⟨h0, hle⟩ := not_or.1 hn
    exact ⟨h0, Nat.not_lt.1 hle⟩

private theorem updateVfsInode_synced (v : Volume) (largeFile : Bool) (ino : Nat) (inode : Mem) :
    (v.updateVfsInode largeFile ino inode).Synced := by
  have hlow : ∀ a, low32 (readLE inode a 4) = readLE inode a 4 := by
    intro a
    have hlt := readLE_lt inode a 4
    unfold low32
    omega
  exact ⟨rfl, rfl, hlow 8, hlow 16⟩

private theorem updateVfsInode_after (v : Volume) (largeFile : Bool) (ino : Nat) (inode : Mem) :
    (v.updateVfsInode largeFile ino inode).After [] (v.updateVfsInode largeFile ino inode) where
  synced := updateVfsInode_synced v largeFile ino inode
  changed := fun ⟨_, hb, _⟩ => absurd hb List.not_mem_nil
  unchanged _ := ⟨rfl, rfl⟩

private theorem updateVfsInode_fits (v : Volume) (largeFile : Bool) (ino : Nat) (inode : Mem) :
    Fits32 (v.updateVfsInode largeFile ino inode).atime ∧ Fits32 (v.updateVfsInode largeFile ino inode).mtime := by
  have hfits : ∀ a, Fits32 ⟨readLE inode a 4, 0⟩ := by
    intro a
    have hlt := readLE_lt inode a 4
    exact ⟨Int.natCast_nonneg _, by dsimp only; omega⟩
  exact ⟨hfits 8, hfits 16⟩

private theorem fill_of_readsAs {m : Mem} (h : v.fill crc largeFile buffer env s ino = some (s', .ok vp))
    (hreads : v.ReadsAs crc s ino m) {a n : Nat} (ha : a + n ≤ 124) : readLE vp.inode a n = readLE m a n := by
  obtain ⟨inode, hread, rfl⟩ := fill_spec h
  exact readLE_congr fun x _ hx => hreads _ _ _ _ hread x (by omega) (Or.inl (by omega))

private theorem fits32_getD {o : Option Timespec} {t : Timespec} (ht : Fits32 t) :
    Fits32 (o.getD t) ↔ ∀ u, o = some u → Fits32 u := by
  cases o with
  | none => exact iff_of_true ht nofun
  | some u => simp

/-- A new vnode has the attributes of the vnode that the calls were for if and only if the last mode that was set has
no permission bits and the last times are kept by 32 bits. -/
private theorem sameAttributes_iff {calls : List AttrCall} {vp₀ fresh : FileVnode} (hg : vp.Given crc v s calls vp₀)
    (ha : vp.After calls vp₀) (hfits : Fits32 vp₀.atime ∧ Fits32 vp₀.mtime)
    (hfill : v.fill crc largeFile buffer env s vp₀.ino = some (s', .ok fresh)) :
    fresh.SameAttributes vp ↔ AttrsPersist calls := by
  have hfield : ∀ a n, a + n ≤ 124 → readLE fresh.inode a n = readLE vp.inode a n :=
    fun a n h => fill_of_readsAs hfill hg.stored h
  obtain ⟨inode, -, hfresh⟩ := fill_spec hfill
  have hinode : fresh.inode = inode := by rw [hfresh]; rfl
  rw [hinode] at hfield
  have hmode : fresh.mode = modeType vp.iMode := by rw [hfresh]; exact congrArg modeType (hfield 0 2 (by decide))
  have huid : fresh.uid = vp.uid := by rw [hfresh, ha.synced.uid]; exact hfield 2 2 (by decide)
  have hgid : fresh.gid = vp.gid := by rw [hfresh, ha.synced.gid]; exact hfield 24 2 (by decide)
  have hatime : fresh.atime.sec = low32 vp.atime.sec := by
    rw [hfresh, ha.synced.atime]
    exact congrArg Nat.cast (hfield 8 4 (by decide))
  have hmtime : fresh.mtime.sec = low32 vp.mtime.sec := by
    rw [hfresh, ha.synced.mtime]
    exact congrArg Nat.cast (hfield 16 4 (by decide))
  have hperm : fresh.mode = vp.mode ↔ ∀ mode, lastGiven AttrOp.mode? calls = some mode →
    mode.toNat % 0o10000 = 0 := by
    rw [hmode]
    cases hl : lastGiven AttrOp.mode? calls with
    | none =>
      have hn : ¬ChangesMode calls := fun hc => changesMode_iff.1 hc hl
      exact iff_of_true (ha.unchanged hn).1.symm nofun
    | some mode =>
      have hc : ChangesMode calls := changesMode_iff.2 (by rw [hl]; nofun)
      rw [ha.changed hc, modeType_eq_iff vp.iMode_lt, hg.mode mode hl]
      exact ⟨fun h _ he => Option.some.inj he ▸ h, fun h => h mode rfl⟩
  unfold FileVnode.SameAttributes AttrsPersist
  rw [hperm, and_iff_right huid, and_iff_right hgid, hatime, hmtime, low32_eq_iff, low32_eq_iff]
  refine and_congr_right fun _ => and_congr ?_ ?_
  · rw [← fits32_getD hfits.1, ← hg.atime]
    rfl
  · rw [← fits32_getD hfits.2, ← hg.mtime]
    rfl

end

def goodEnv : CallEnv := ⟨goodDevice, goodMemory, true⟩

def fileDisk : Disk := fun b x => if b = 2 ∧ x = 0 then 0xa4 else if b = 2 ∧ x = 1 then 0x81 else 0

/-- Inode 1 of the small file system is opened, the calls are made, and it is opened again: the vnode that the calls
were for, and the new one. -/
def reopened (calls : List AttrCall) : Option (FileVnode × FileVnode) :=
  match tableVolume.fill zeroCrc false true goodEnv ⟨fileDisk, none⟩ 1 with
  | some (s, .ok vp) =>
    match Machine.run (attrOk zeroCrc tableVolume) calls (s, vp) with
    | some t =>
      match tableVolume.fill zeroCrc false true goodEnv t.1 1 with
      | some (_, .ok fresh) => some (t.2, fresh)
      | _ => none
    | none => none
  | _ => none

private theorem reopened_spec {calls : List AttrCall} {vp' fresh : FileVnode}
    (h : reopened calls = some (vp', fresh)) :
    ∃ s vp s' s'', tableVolume.fill zeroCrc false true goodEnv ⟨fileDisk, none⟩ 1 = some (s, .ok vp) ∧
      Machine.run (attrOk zeroCrc tableVolume) calls (s, vp) = some (s', vp') ∧
      tableVolume.fill zeroCrc false true goodEnv s' 1 = some (s'', .ok fresh) := by
  unfold reopened at h
  split at h
  · rename_i s vp hfill
    split at h
    · rename_i t hrun
      split at h
      · rename_i s'' fresh' hfresh
        cases h
        exact ⟨s, vp, t.1, s'', hfill, hrun, hfresh⟩
      · cases h
    · cases h
  · cases h

def ownerAndTime : List AttrCall := [⟨goodEnv, .chown 1000 keepId⟩, ⟨goodEnv, .utime (some ⟨1700000000, 5⟩) none⟩]

end Pml.Ext2
