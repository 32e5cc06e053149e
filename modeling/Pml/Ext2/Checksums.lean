import Pml.Ext2.BitmapFile

/-!
# Metadata checksums (`drivers/fs/ext2/checksum.c`)

Each kind of metadata has a function that stores a checksum in it and a function that checks it.  The checksum is
stored in the structure that it covers, either in a field that counts as 0 or outside of the range that is covered.
The one exception is an index block of a directory whose `count` is greater than its `limit`: then the range reaches
over the tail with the checksum, and the check can fail after the update.

The functions that change a group descriptor update its checksum last.
-/

namespace Pml.Ext2

open ByteMemory

namespace Volume

variable (crc : Crc)

/-! ### Inodes -/

def inodeHasHi (v : Volume) (inode : Mem) : Bool := decide (128 < v.super.inodeSize) &&
    decide (4 ≤ readLE inode 128 2)

def inodeCleared (inode : Mem) (hasHi : Bool) : Mem :=
  if hasHi then writeLE (writeLE inode 124 2 0) 130 2 0 else writeLE inode 124 2 0

def inodeChecksum (v : Volume) (ino : Nat) (inode : Mem) (hasHi : Bool) : UInt32 :=
  let c := crc.crc32 v.checksumSeed (bytesLE 8 ino)
  let c := crc.crc32 c (bytesLE 4 (readLE inode 100 4))
  crc.crc32 c (copyOut (inodeCleared inode hasHi) 0 v.super.inodeSize)

def inodeChecksumValid (v : Volume) (ino : Nat) (inode : Mem) : Bool :=
  if v.super.metadataCsum then
    let hasHi := v.inodeHasHi inode
    let c := (v.inodeChecksum crc ino inode hasHi).toNat
    let provided := readLE inode 124 2
    if (if hasHi then (provided ||| readLE inode 130 2 <<< 16) == c else provided == c % 2 ^ 16) then true
    else (copyOut inode 0 128).all (· == 0)
  else true

def inodeChecksumUpdate (v : Volume) (ino : Nat) (inode : Mem) : Mem :=
  if v.super.metadataCsum then
    let hasHi := v.inodeHasHi inode
    let c := (v.inodeChecksum crc ino inode hasHi).toNat
    let m := writeLE inode 124 2 (c % 2 ^ 16)
    if hasHi then writeLE m 130 2 (c >>> 16) else m
  else inode

/-! ### Extent blocks -/

def extentTailOffset (eh : Mem) : Nat := 12 + 12 * readLE eh 4 2

/-- `ext3_extent_block_checksum`; the inode is read from the disk. -/
def extentBlockChecksum (v : Volume) (readInode : Nat → Except Errno Mem) (ino : Nat) (eh : Mem) :
    Except Errno UInt32 :=
  (readInode ino).map fun inode =>
    let c := crc.crc32 v.checksumSeed (bytesLE 8 ino)
    let c := crc.crc32 c (bytesLE 4 (readLE inode 100 4))
    crc.crc32 c (copyOut eh 0 (extentTailOffset eh))

def extentBlockChecksumValid (v : Volume) (readInode : Nat → Except Errno Mem) (ino : Nat) (eh : Mem) : Bool :=
  if v.super.metadataCsum then
    match v.extentBlockChecksum crc readInode ino eh with
    | .error _ => false
    | .ok c => readLE eh (extentTailOffset eh) 4 == c.toNat
  else true

/-- `ext3_extent_block_checksum_update`: the block and the value that is returned. -/
def extentBlockChecksumUpdate (v : Volume) (readInode : Nat → Except Errno Mem) (ino : Nat) (eh : Mem) : Mem × Int :=
  if v.super.metadataCsum then
    match v.extentBlockChecksum crc readInode ino eh with
    | .error _ => (eh, -1)
    | .ok c => (writeLE eh (extentTailOffset eh) 4 c.toNat, 0)
  else (eh, 1)

/-! ### Directory blocks -/

/-- The loop of `ext2_get_dirent_tail` over the entries; an entry has at least 8 bytes. -/
def direntWalk (m : Mem) (top : Nat) : Nat → Nat → Except Errno Nat
  | 0, d => .ok d
  | fuel + 1, d =>
    if d < top then
      if readLE m (d + 4) 2 < 8 ∨ readLE m (d + 4) 2 % 4 ≠ 0 then .error .EUCLEAN
      else direntWalk m top fuel (d + readLE m (d + 4) 2)
    else .ok d

/-- `ext2_get_dirent_tail`: the offset of the tail. -/
def getDirentTail (v : Volume) (m : Mem) : Except Errno Nat :=
  let top := v.super.blksize - 12
  match direntWalk m top top 0 with
  | .error e => .error e
  | .ok d =>
    if v.super.blksize < d then .error .EUCLEAN
    else if d ≠ top then .error .ENOSPC
    else if readLE m d 4 ≠ 0 ∨ readLE m (d + 4) 2 ≠ 12 ∨ readLE m (d + 6) 2 ≠ 0xde00 then .error .ENOSPC
    else .ok d

/-- The first part of `ext2_get_dx_count_limit`: an index block begins with one entry that is empty, and the root of
an index with two entries and some information. -/
def dxOffset (v : Volume) (m : Mem) : Except Errno Nat :=
  if readLE m 4 2 = v.super.blksize ∧ readLE m 6 2 = 0 then .ok 8
  else if readLE m 4 2 = 12 then
    if readLE m 16 2 ≠ v.super.blksize - 12 then .error .EUCLEAN
    else if readLE m 24 4 ≠ 0 ∨ readLE m 29 1 ≠ 8 then .error .EUCLEAN
    else .ok 32
  else .error .EUCLEAN

/-- `ext2_get_dx_count_limit`: the offset of the limit and the count. -/
def getDxCountLimit (v : Volume) (m : Mem) : Except Errno Nat :=
  match v.dxOffset m with
  | .error e => .error e
  | .ok offset =>
    let maxEntries := (v.super.blksize - offset) / 8
    if maxEntries < readLE m offset 2 ∨ maxEntries < readLE m (offset + 2) 2 then .error .ENOSPC else .ok offset

/-- The inode number and the generation of a directory. -/
structure DirId where
  ino : Nat
  gen : Nat

def direntChecksum (v : Volume) (dir : DirId) (m : Mem) (size : Nat) : UInt32 :=
  let c := crc.crc32 v.checksumSeed (bytesLE 8 dir.ino)
  let c := crc.crc32 c (bytesLE 4 dir.gen)
  crc.crc32 c (copyOut m 0 size)

def direntChecksumValid (v : Volume) (dir : DirId) (m : Mem) : Bool :=
  match v.getDirentTail m with
  | .error _ => true
  | .ok t => readLE m (t + 8) 4 == (v.direntChecksum crc dir m t).toNat

/-- `ext2_dirent_checksum_update`: the block and the value that is returned. -/
def direntChecksumUpdate (v : Volume) (dir : DirId) (m : Mem) : Mem × Int :=
  match v.getDirentTail m with
  | .error _ => (m, 1)
  | .ok t => (writeLE m (t + 8) 4 (v.direntChecksum crc dir m t).toNat, 0)

/-- `ext2_dx_checksum`: the checksum and the offset of the tail. -/
def dxChecksum (v : Volume) (dir : DirId) (m : Mem) : Except Errno (UInt32 × Nat) :=
  match v.getDxCountLimit m with
  | .error e => .error e
  | .ok offset =>
    let limit := readLE m offset 2
    let count := readLE m (offset + 2) 2
    if v.super.blksize - 8 < offset + limit * 8 then .error .ENOSPC
    else
      let t := offset + limit * 8
      let c := crc.crc32 v.checksumSeed (bytesLE 8 dir.ino)
      let c := crc.crc32 c (bytesLE 4 dir.gen)
      let c := crc.crc32 c (copyOut m 0 (offset + count * 8))
      let c := crc.crc32 c (copyOut m t 4)
      .ok (crc.crc32 c [0, 0, 0, 0], t)

def dxChecksumValid (v : Volume) (dir : DirId) (m : Mem) : Bool :=
  match v.dxChecksum crc dir m with
  | .error _ => false
  | .ok (c, t) => readLE m (t + 4) 4 == c.toNat

/-- `ext2_dx_checksum_update`: the block and the value that is returned. -/
def dxChecksumUpdate (v : Volume) (dir : DirId) (m : Mem) : Mem × Int :=
  match v.dxChecksum crc dir m with
  | .error _ => (m, -1)
  | .ok (c, t) => (writeLE m (t + 4) 4 c.toNat, 0)

def dirBlockChecksumValid (v : Volume) (dir : DirId) (m : Mem) : Bool :=
  if v.super.metadataCsum then
    match v.getDirentTail m, v.getDxCountLimit m with
    | .ok _, _ => v.direntChecksumValid crc dir m
    | .error _, .ok _ => v.dxChecksumValid crc dir m
    | .error _, .error _ => false
  else true

/-- `ext2_dir_block_checksum_update`: the block and the value that is returned. -/
def dirBlockChecksumUpdate (v : Volume) (dir : DirId) (m : Mem) : Mem × Int :=
  if v.super.metadataCsum then
    match v.getDirentTail m, v.getDxCountLimit m with
    | .ok _, _ => v.direntChecksumUpdate crc dir m
    | .error _, .ok _ => v.dxChecksumUpdate crc dir m
    | .error _, .error _ => (m, -1)
  else (m, 0)

/-! ### Calls that change descriptors -/

/-- `ext2_check_inode_uninit` with the inode bitmap of the file system. -/
def checkInodeUninit (v : Volume) (group : Nat) : Volume :=
  if v.groupDescCount ≤ group ∨ !v.super.hasGroupDescChecksum ∨ v.bgTestFlags group 1 = 0 then v
  else
    let first := (group * v.super.inodesPerGroup + 1) % 2 ^ 32
    let b := (List.range v.super.inodesPerGroup).foldl (fun b i => unmarkBitmap b (first + i)) v.inodeBitmap
    let v := { v with inodeBitmap := b }
    { (v.bgClearFlags group 3).groupDescChecksumUpdate crc group with ibDirty := true }

end Volume

/-- The calls. -/
inductive DescOp
  | blockStats (block : Nat) (inuse : Int)
  | inodeStats (ino : Nat) (inuse : Int) (isdir : Bool)
  | clearBlock (group : Nat)
  | checkInode (group : Nat)
  | write (io : Nat → Bool)

def descStep (crc : Crc) (s : Volume × Disk) : DescOp → Option (Volume × Disk)
  | .blockStats block inuse => (s.1.blockAllocStats crc block inuse).map fun v => (v, s.2)
  | .inodeStats ino inuse isdir => (s.1.inodeAllocStats crc ino inuse isdir).map fun v => (v, s.2)
  | .clearBlock group => some (s.1.clearBlockUninit crc group, s.2)
  | .checkInode group => some (s.1.checkInodeUninit crc group, s.2)
  | .write io => (s.1.writeBitmaps crc io s.2).map fun r => r.1

def Reaches (v : Volume) (group : Nat) : Prop := v.HasDesc group ∧ (group + 1) * v.super.descSize ≤ 2 ^ 32

/-- The calls that are defined: the block or inode number is in a group with a descriptor, or it is too large; and the
bytes of a group fit in a block. -/
def DescDefined (s : Volume × Disk) : DescOp → Prop
  | .blockStats block _ => s.1.super.blocksCount < block ∨ Reaches s.1 (s.1.super.groupOfBlock block)
  | .inodeStats ino _ _ => s.1.super.inodesCount < ino ∨ Reaches s.1 (s.1.super.groupOfInode ino)
  | .write _ => s.1.readOnly = true ∨ ((s.1.bbDirty = true → s.1.super.clustersPerGroup / 8 ≤ s.1.super.blksize) ∧
    (s.1.ibDirty = true → (s.1.super.inodesPerGroup + 7) / 8 ≤ s.1.super.blksize))
  | _ => True

/-! ### An update is accepted -/

theorem copyOut_congr {m m' : Mem} {a n : Nat} (h : ∀ x, a ≤ x → x < a + n → m x = m' x) :
    copyOut m a n = copyOut m' a n := by
  unfold copyOut
  refine List.map_congr_left fun i hi => ?_
  rw [List.mem_range] at hi
  exact h (a + i) (by omega) (by omega)

section

variable {v : Volume} {g ino : Nat} (crc : Crc)

private theorem groupDescChecksum_put (n : Nat) :
    (v.put g 30 n).groupDescChecksum crc g = v.groupDescChecksum crc g := by
  have hat : (v.put g 30 n).descAt g = v.descAt g := rfl
  have hsuper : (v.put g 30 n).super = v.super := rfl
  have hseed : (v.put g 30 n).checksumSeed = v.checksumSeed := rfl
  have hout : ∀ x, x < v.descAt g + 30 ∨ v.descAt g + 32 ≤ x → (v.put g 30 n).groupDesc x = v.groupDesc x :=
    fun x hx => writeLE_outside (by omega)
  unfold Volume.groupDescChecksum
  simp only [hat, hsuper, hseed]
  split
  · rw [writeLE_congr hout]
  · rw [copyOut_congr (a := v.descAt g) (n := 30) fun x _ h2 => hout x (by omega)]
    split
    · rw [copyOut_congr (a := v.descAt g + 32) (n := v.super.descSize - 32) fun x h1 _ => hout x (by omega)]
    · rfl

theorem groupDescChecksum_accepted : (v.groupDescChecksumUpdate crc g).groupDescChecksumValid crc g = true := by
  unfold Volume.groupDescChecksumUpdate
  split
  · have hsum := groupDescChecksum_put (v := v) (g := g) crc (v.groupDescChecksum crc g).toNat
    have hput : v.bgChecksumUpdate g (v.groupDescChecksum crc g) = v.put g 30 (v.groupDescChecksum crc g).toNat := rfl
    have hread : (v.put g 30 (v.groupDescChecksum crc g).toNat).bgChecksum g = (v.groupDescChecksum crc g).toNat := by
      have hlt := (v.groupDescChecksum crc g).toNat_lt
      have hself := readLE_writeLE_self v.groupDesc (v.descAt g + 30) 2 (v.groupDescChecksum crc g).toNat
      rw [Nat.mod_eq_of_lt (by omega)] at hself
      exact hself
    rw [hput, Volume.groupDescChecksumValid, hread, hsum]
    simp
  · rename_i hcsum
    simp [Volume.groupDescChecksumValid, hcsum]

private theorem halves_eq (c : UInt32) :
    (c.toNat % 2 ^ 16 % 256 ^ 2 ||| ((c.toNat >>> 16) % 256 ^ 2) <<< 16) = c.toNat := by
  have hlt := c.toNat_lt
  have hlo : c.toNat % 2 ^ 16 % 256 ^ 2 < 2 ^ 16 := by omega
  rw [Nat.lor_comm, ← Nat.shiftLeft_add_eq_or_of_lt hlo, Nat.shiftLeft_eq, Nat.shiftRight_eq_div_pow]
  omega

theorem bitmapChecksum_accepted {lo hi : Nat} (hlo : lo + 2 ≤ hi) (bitmap : List UInt8) :
    (v.bitmapChecksumUpdate crc lo hi g bitmap).bitmapChecksumValid crc lo hi g bitmap = true := by
  unfold Volume.bitmapChecksumUpdate
  by_cases hcsum : v.super.metadataCsum = true
  · simp only [hcsum, ↓reduceIte]
    unfold Volume.bitmapChecksumValid
    simp only [hcsum, ↓reduceIte]
    generalize crc.crc32 v.checksumSeed bitmap = c
    have hat : ∀ m, ({ v with groupDesc := m } : Volume).descAt g = v.descAt g := fun _ => rfl
    by_cases hhi : hi + 2 ≤ v.super.descSize
    · simp only [hhi, ↓reduceIte, hat]
      rw [readLE_writeLE_disjoint (by omega), readLE_writeLE_self, readLE_writeLE_self, halves_eq]
      simp
    · simp only [hhi, ↓reduceIte, hat]
      rw [readLE_writeLE_self]
      simp
  · simp [Volume.bitmapChecksumValid, hcsum]

private theorem inodeCleared_congr {m m' : Mem} {hasHi : Bool}
    (h : ∀ x, x < 124 ∨ (126 ≤ x ∧ x < 130) ∨ 132 ≤ x → m x = m' x)
    (hlo : hasHi = false → ∀ x, 126 ≤ x → m x = m' x) :
    Volume.inodeCleared m hasHi = Volume.inodeCleared m' hasHi := by
  unfold Volume.inodeCleared
  cases hasHi with
  | false =>
    simp only [Bool.false_eq_true, ↓reduceIte]
    refine writeLE_congr fun x hx => ?_
    rcases hx with hx | hx
    · exact h x (Or.inl hx)
    · exact hlo rfl x hx
  | true =>
    simp only [↓reduceIte]
    refine writeLE_congr fun x hx => ?_
    by_cases hx' : 124 ≤ x ∧ x < 126
    · exact writeLE_inside hx'.1 hx'.2
    · rw [writeLE_outside (by omega), writeLE_outside (by omega)]
      exact h x (by omega)

private theorem inodeChecksum_accepted (inode : Mem) :
    v.inodeChecksumValid crc ino (v.inodeChecksumUpdate crc ino inode) = true := by
  by_cases hcsum : v.super.metadataCsum = true
  · obtain ⟨hasHi, hhi⟩ : ∃ hasHi, v.inodeHasHi inode = hasHi := ⟨_, rfl⟩
    obtain ⟨c, hc⟩ : ∃ c, v.inodeChecksum crc ino inode hasHi = c := ⟨_, rfl⟩
    obtain ⟨m, hm⟩ : ∃ m, v.inodeChecksumUpdate crc ino inode = m := ⟨_, rfl⟩
    have hupd : m = if hasHi then writeLE (writeLE inode 124 2 (c.toNat % 2 ^ 16)) 130 2 (c.toNat >>> 16)
        else writeLE inode 124 2 (c.toNat % 2 ^ 16) := by
      rw [← hm, Volume.inodeChecksumUpdate]
      simp only [hcsum, ↓reduceIte, hhi, hc]
    -- The update stays in the two fields, and in the first one if there is no second.
    have hout : ∀ x, x < 124 ∨ (126 ≤ x ∧ x < 130) ∨ 132 ≤ x → m x = inode x := fun x hx => by
      rw [hupd]
      split
      · rw [writeLE_outside (by omega), writeLE_outside (by omega)]
      · exact writeLE_outside (by omega)
    have hlo : hasHi = false → ∀ x, 126 ≤ x → m x = inode x := fun h0 x hx => by
      rw [hupd, h0]
      exact writeLE_outside (by omega)
    have hfield : ∀ a n, a + n ≤ 124 ∨ (126 ≤ a ∧ a + n ≤ 130) → readLE m a n = readLE inode a n := fun a n ha =>
      readLE_congr fun x h1 h2 => hout x (by omega)
    have hhi' : v.inodeHasHi m = hasHi := by
      rw [← hhi, Volume.inodeHasHi, Volume.inodeHasHi, hfield 128 2 (by decide)]
    have hc' : v.inodeChecksum crc ino m hasHi = c := by
      rw [← hc, Volume.inodeChecksum, Volume.inodeChecksum, hfield 100 4 (by decide), inodeCleared_congr hout hlo]
    rw [hm, Volume.inodeChecksumValid]
    simp only [hcsum, ↓reduceIte, hhi', hc']
    have hprov : (if hasHi = true then (readLE m 124 2 ||| readLE m 130 2 <<< 16) == c.toNat
        else readLE m 124 2 == c.toNat % 2 ^ 16) = true := by
      rw [hupd]
      cases hasHi with
      | false =>
        simp only [Bool.false_eq_true, ↓reduceIte]
        rw [readLE_writeLE_self]
        simp
      | true =>
        simp only [↓reduceIte]
        rw [readLE_writeLE_disjoint (by decide), readLE_writeLE_self, readLE_writeLE_self, halves_eq]
        simp
    rw [if_pos hprov]
  · simp [Volume.inodeChecksumValid, hcsum]

private theorem extentBlockChecksum_accepted (readInode : Nat → Except Errno Mem) (eh : Mem)
    (h : (v.extentBlockChecksumUpdate crc readInode ino eh).2 = 0) :
    v.extentBlockChecksumValid crc readInode ino (v.extentBlockChecksumUpdate crc readInode ino eh).1 = true := by
  unfold Volume.extentBlockChecksumUpdate at h ⊢
  by_cases hcsum : v.super.metadataCsum = true
  · simp only [hcsum, ↓reduceIte] at h ⊢
    cases hsum : v.extentBlockChecksum crc readInode ino eh with
    | error e =>
      simp only [hsum] at h
      exact absurd h (by decide)
    | ok c =>
      simp only
      obtain ⟨m, hm⟩ : ∃ m, writeLE eh (Volume.extentTailOffset eh) 4 c.toNat = m := ⟨_, rfl⟩
      have hout : ∀ x, x < Volume.extentTailOffset eh → m x = eh x := fun x hx => by
        rw [← hm]
        exact writeLE_outside (Or.inl hx)
      have htail : Volume.extentTailOffset m = Volume.extentTailOffset eh := by
        have hle : 12 ≤ Volume.extentTailOffset eh := Nat.le_add_right _ _
        rw [Volume.extentTailOffset, Volume.extentTailOffset, readLE_congr fun x h1 h2 => hout x (by omega)]
      have hsum' : v.extentBlockChecksum crc readInode ino m = .ok c := by
        rw [← hsum, Volume.extentBlockChecksum, Volume.extentBlockChecksum, htail,
          copyOut_congr (a := 0) (n := Volume.extentTailOffset eh) fun x _ h2 => hout x (by omega)]
      have hlt := c.toNat_lt
      rw [hm, Volume.extentBlockChecksumValid]
      simp only [hcsum, ↓reduceIte, hsum']
      rw [htail, ← hm, readLE_writeLE_self, Nat.mod_eq_of_lt (by omega)]
      simp
  · simp [Volume.extentBlockChecksumValid, hcsum]

/-! ### Directory blocks -/

variable {m m' : Mem} {dir : Volume.DirId}

theorem blksize_ge (s : Super) : 1024 ≤ s.blksize ∧ s.blksize % 4 = 0 := by
  have hpos := Nat.two_pow_pos s.logBlockSize
  rw [Super.blksize, Nat.shiftLeft_eq]
  omega

private theorem direntWalk_congr {top fuel d : Nat} (h : ∀ x < top + 8, m x = m' x) :
    Volume.direntWalk m top fuel d = Volume.direntWalk m' top fuel d := by
  induction fuel generalizing d with
  | zero => rfl
  | succ fuel ih =>
    rw [Volume.direntWalk, Volume.direntWalk]
    by_cases hd : d < top
    · rw [if_pos hd, if_pos hd,
        readLE_congr (fun x _ h2 => h x (by omega) : ∀ x, d + 4 ≤ x → x < d + 4 + 2 → m x = m' x), ih]
    · rw [if_neg hd, if_neg hd]

theorem getDirentTail_congr (h : ∀ x < v.super.blksize - 4, m x = m' x) : v.getDirentTail m = v.getDirentTail m' := by
  have hsize := (blksize_ge v.super).1
  unfold Volume.getDirentTail
  simp only
  rw [direntWalk_congr (show ∀ x < v.super.blksize - 12 + 8, m x = m' x from fun x hx => h x (by omega))]
  cases Volume.direntWalk m' (v.super.blksize - 12) (v.super.blksize - 12) 0 with
  | error e => rfl
  | ok d =>
    simp only
    by_cases hd : d = v.super.blksize - 12
    · subst hd
      have hfield : ∀ off n, off + n ≤ 8 → readLE m (v.super.blksize - 12 + off) n =
          readLE m' (v.super.blksize - 12 + off) n := fun off n hn =>
        readLE_congr fun x _ h2 => h x (by omega)
      have h0 := hfield 0 4 (by decide)
      rw [Nat.add_zero] at h0
      rw [h0, hfield 4 2 (by decide), hfield 6 2 (by decide)]
    · simp only [ne_eq, hd, not_false_eq_true, ↓reduceIte]

private theorem getDirentTail_ok {t : Nat} (h : v.getDirentTail m = .ok t) : t = v.super.blksize - 12 := by
  unfold Volume.getDirentTail at h
  simp only at h
  cases hw : Volume.direntWalk m (v.super.blksize - 12) (v.super.blksize - 12) 0 with
  | error e =>
    rw [hw] at h
    cases h
  | ok d =>
    simp only [hw] at h
    split at h
    · cases h
    · split at h
      · cases h
      · rename_i hd
        split at h
        · cases h
        · cases h
          exact not_not.1 hd

theorem direntChecksum_accepted (dir : Volume.DirId) {t : Nat} (htail : v.getDirentTail m = .ok t) :
    ∃ m', v.direntChecksumUpdate crc dir m = (m', 0) ∧ v.getDirentTail m' = .ok t ∧
      v.direntChecksumValid crc dir m' = true := by
  have hsize := (blksize_ge v.super).1
  have ht := getDirentTail_ok htail
  obtain ⟨c, hc⟩ : ∃ c, v.direntChecksum crc dir m t = c := ⟨_, rfl⟩
  obtain ⟨m', hm'⟩ : ∃ m', writeLE m (t + 8) 4 c.toNat = m' := ⟨_, rfl⟩
  have hout : ∀ x, x < t + 8 → m' x = m x := fun x hx => by
    rw [← hm']
    exact writeLE_outside (Or.inl hx)
  have htail' : v.getDirentTail m' = .ok t :=
    (getDirentTail_congr fun x hx => hout x (by omega)).trans htail
  refine ⟨m', ?_, htail', ?_⟩
  · unfold Volume.direntChecksumUpdate
    simp only [htail, hc, hm']
  · have hbytes : copyOut m' 0 t = copyOut m 0 t := copyOut_congr fun x _ h2 => hout x (by omega)
    have hc' : v.direntChecksum crc dir m' t = c := by
      rw [← hc]
      unfold Volume.direntChecksum
      rw [hbytes]
    have hlt := c.toNat_lt
    unfold Volume.direntChecksumValid
    simp only [htail', hc']
    rw [← hm', readLE_writeLE_self, Nat.mod_eq_of_lt (by omega)]
    simp

def DxHeader (v : Volume) (m : Mem) (offset : Nat) : Prop :=
  (offset = 8 ∧ readLE m 4 2 = v.super.blksize ∧ readLE m 6 2 = 0) ∨
  (offset = 32 ∧ readLE m 4 2 = 12 ∧ readLE m 16 2 = v.super.blksize - 12 ∧ readLE m 24 4 = 0 ∧ readLE m 29 1 = 8)

private theorem dxOffset_iff {offset : Nat} : v.dxOffset m = .ok offset ↔ DxHeader v m offset := by
  have hsize := (blksize_ge v.super).1
  unfold Volume.dxOffset DxHeader
  by_cases h8 : readLE m 4 2 = v.super.blksize ∧ readLE m 6 2 = 0
  · have h12 : readLE m 4 2 ≠ 12 := by omega
    rw [if_pos h8]
    simp [h8, eq_comm]
    omega
  · rw [if_neg h8]
    by_cases h12 : readLE m 4 2 = 12
    · have hne : 12 ≠ v.super.blksize := by omega
      rw [if_pos h12]
      by_cases h16 : readLE m 16 2 = v.super.blksize - 12
      · rw [if_neg (not_not.2 h16)]
        by_cases hroot : readLE m 24 4 = 0 ∧ readLE m 29 1 = 8
        · rw [if_neg (by omega)]
          simp [h12, h16, hroot, hne, eq_comm]
        · rw [if_pos (by omega)]
          simp [h12, h16, hroot, hne]
      · rw [if_pos h16]
        simp [h12, h16, hne]
    · rw [if_neg h12]
      simp [h8, h12]

private theorem getDxCountLimit_iff {offset : Nat} : v.getDxCountLimit m = .ok offset ↔ DxHeader v m offset ∧
    readLE m offset 2 ≤ (v.super.blksize - offset) / 8 ∧
    readLE m (offset + 2) 2 ≤ (v.super.blksize - offset) / 8 := by
  rw [Volume.getDxCountLimit, ← dxOffset_iff]
  cases v.dxOffset m with
  | error e => simp
  | ok off =>
    simp only [Except.ok.injEq]
    constructor
    · intro h
      split at h
      · cases h
      · cases h
        exact ⟨rfl, by omega, by omega⟩
    · rintro ⟨rfl, h1, h2⟩
      rw [if_neg (by omega)]

private theorem DxHeader.offset_eq {offset : Nat} (h : DxHeader v m offset) : offset = 8 ∨ offset = 32 :=
  h.elim (fun h => Or.inl h.1) fun h => Or.inr h.1

private theorem direntWalk_index {n : Nat} (hsize : 1024 ≤ n) (hmod : n % 4 = 0)
    (h : readLE m 4 2 = n ∨ (readLE m 4 2 = 12 ∧ readLE m 16 2 = n - 12)) :
    Volume.direntWalk m (n - 12) (n - 12) 0 = .ok n := by
  have hend : ∀ f, Volume.direntWalk m (n - 12) f n = .ok n := fun f => by
    cases f with
    | zero => rfl
    | succ f => rw [Volume.direntWalk, if_neg (by omega)]
  obtain ⟨fuel, hfuel⟩ : ∃ fuel, n - 12 = fuel + 2 := ⟨n - 14, by omega⟩
  nth_rewrite 2 [hfuel]
  rcases h with h4 | ⟨h4, h16⟩
  · rw [Volume.direntWalk, if_pos (by omega), Nat.zero_add, h4, if_neg (by omega), Nat.zero_add]
    exact hend _
  · rw [Volume.direntWalk, if_pos (by omega), Nat.zero_add, h4, if_neg (by omega), Nat.zero_add, Volume.direntWalk,
      if_pos (by omega), h16, if_neg (by omega), show 12 + (n - 12) = n by omega]
    exact hend _

private theorem DxHeader.no_tail {offset : Nat} (h : DxHeader v m offset) : v.getDirentTail m = .error .ENOSPC := by
  obtain ⟨hsize, hmod⟩ := blksize_ge v.super
  have hwalk : Volume.direntWalk m (v.super.blksize - 12) (v.super.blksize - 12) 0 = .ok v.super.blksize :=
    direntWalk_index hsize hmod (h.elim (fun h => Or.inl h.2.1) fun h => Or.inr ⟨h.2.1, h.2.2.1⟩)
  unfold Volume.getDirentTail
  simp only [hwalk]
  rw [if_neg (by omega), if_pos (by omega)]

private theorem getDxCountLimit_congr {offset : Nat} (h : v.getDxCountLimit m = .ok offset)
    (hsame : ∀ x < offset + 4, m' x = m x) : v.getDxCountLimit m' = .ok offset := by
  rw [getDxCountLimit_iff] at h ⊢
  obtain ⟨hhead, hlimit, hcount⟩ := h
  have hfield : ∀ a n, a + n ≤ offset + 4 → readLE m' a n = readLE m a n := fun a n ha =>
    readLE_congr fun x _ h2 => hsame x (by omega)
  refine ⟨?_, ?_, ?_⟩
  · rcases hhead with ⟨rfl, h4, h6⟩ | ⟨rfl, h4, h16, h24, h29⟩
    · exact Or.inl ⟨rfl, by rwa [hfield 4 2 (by decide)], by rwa [hfield 6 2 (by decide)]⟩
    · exact Or.inr ⟨rfl, by rwa [hfield 4 2 (by decide)], by rwa [hfield 16 2 (by decide)],
        by rwa [hfield 24 4 (by decide)], by rwa [hfield 29 1 (by decide)]⟩
  · rwa [hfield offset 2 (by omega)]
  · rwa [hfield (offset + 2) 2 (by omega)]

/-- The directory block is an index block that has more entries than its limit, and a tail. -/
def IndexOverlap (v : Volume) (m : Mem) : Prop :=
  v.super.metadataCsum = true ∧ ∃ offset, v.getDxCountLimit m = .ok offset ∧
    offset + readLE m offset 2 * 8 ≤ v.super.blksize - 8 ∧ readLE m offset 2 < readLE m (offset + 2) 2

def dxSum (crc : Crc) (v : Volume) (dir : Volume.DirId) (m : Mem) (offset : Nat) : UInt32 :=
  let c := crc.crc32 v.checksumSeed (bytesLE 8 dir.ino)
  let c := crc.crc32 c (bytesLE 4 dir.gen)
  let c := crc.crc32 c (copyOut m 0 (offset + readLE m (offset + 2) 2 * 8))
  let c := crc.crc32 c (copyOut m (offset + readLE m offset 2 * 8) 4)
  crc.crc32 c [0, 0, 0, 0]

private theorem dxChecksum_eq {offset : Nat} (h : v.getDxCountLimit m = .ok offset) : v.dxChecksum crc dir m =
    if v.super.blksize - 8 < offset + readLE m offset 2 * 8 then .error .ENOSPC
    else .ok (dxSum crc v dir m offset, offset + readLE m offset 2 * 8) := by
  rw [Volume.dxChecksum]
  simp only [h]
  rfl

private theorem dxChecksumUpdate_eq (dir : Volume.DirId) {offset : Nat} (h : v.getDxCountLimit m = .ok offset)
    (ht : offset + readLE m offset 2 * 8 ≤ v.super.blksize - 8) :
    ∃ m', m' = writeLE m (offset + readLE m offset 2 * 8 + 4) 4 (dxSum crc v dir m offset).toNat ∧
      v.dxChecksumUpdate crc dir m = (m', 0) ∧ v.getDxCountLimit m' = .ok offset ∧
      readLE m' offset 2 = readLE m offset 2 ∧ readLE m' (offset + 2) 2 = readLE m (offset + 2) 2 := by
  refine ⟨_, rfl, ?_, ?_, ?_, ?_⟩
  · rw [Volume.dxChecksumUpdate, dxChecksum_eq crc h, if_neg (by omega)]
  · exact getDxCountLimit_congr h fun x hx => writeLE_outside (by omega)
  · exact readLE_writeLE_disjoint (by omega)
  · exact readLE_writeLE_disjoint (by omega)

private theorem dxChecksum_accepted (dir : Volume.DirId) {offset : Nat} (h : v.getDxCountLimit m = .ok offset)
    (ht : offset + readLE m offset 2 * 8 ≤ v.super.blksize - 8)
    (hcount : readLE m (offset + 2) 2 ≤ readLE m offset 2) :
    v.dxChecksumValid crc dir (v.dxChecksumUpdate crc dir m).1 = true := by
  obtain ⟨m', hm', hupd, hdx, hlimit, hcount'⟩ := dxChecksumUpdate_eq crc dir h ht
  have hout : ∀ x, x < offset + readLE m offset 2 * 8 + 4 → m' x = m x := fun x hx => by
    rw [hm']
    exact writeLE_outside (Or.inl hx)
  have hsum : dxSum crc v dir m' offset = dxSum crc v dir m offset := by
    unfold dxSum
    have hpart : ∀ a n, a + n ≤ offset + readLE m offset 2 * 8 + 4 → copyOut m' a n = copyOut m a n :=
      fun a n hn => copyOut_congr fun x _ h2 => hout x (by omega)
    rw [hlimit, hcount', hpart 0 _ (by omega), hpart (offset + readLE m offset 2 * 8) 4 (by omega)]
  have hlt := (dxSum crc v dir m offset).toNat_lt
  rw [hupd, Volume.dxChecksumValid, dxChecksum_eq crc hdx, hlimit, if_neg (by omega), hsum]
  simp only
  rw [hm', readLE_writeLE_self, Nat.mod_eq_of_lt (by omega)]
  simp

def nextCrc (k : Nat) : Crc where
  crc32 c bytes := if k + 4 ≤ bytes.length then UInt32.ofNat (readLE (fun x => bytes.getD x 0) k 4 + 1) else c
  crc16 c _ := c

theorem length_copyOut (m : Mem) (a n : Nat) : (copyOut m a n).length = n := by simp [copyOut]

private theorem getD_copyOut (m : Mem) {n x : Nat} (hx : x < n) : (copyOut m 0 n).getD x 0 = m x := by
  simp [copyOut, List.getD_eq_getElem?_getD, hx]

private theorem dxSum_next (v : Volume) (dir : Volume.DirId) {offset : Nat} (h8 : 8 ≤ offset)
    (hcount : readLE m offset 2 < readLE m (offset + 2) 2) :
    dxSum (nextCrc (offset + readLE m offset 2 * 8 + 4)) v dir m offset =
      UInt32.ofNat (readLE m (offset + readLE m offset 2 * 8 + 4) 4 + 1) := by
  generalize hk : offset + readLE m offset 2 * 8 + 4 = k
  have hshort : ∀ c (l : List UInt8), l.length ≤ 8 → (nextCrc k).crc32 c l = c := fun c l hl => by
    rw [nextCrc]
    simp only
    rw [if_neg (by omega)]
  have hlong : ∀ c n, k + 4 ≤ n → (nextCrc k).crc32 c (copyOut m 0 n) = UInt32.ofNat (readLE m k 4 + 1) := by
    intro c n hn
    rw [nextCrc]
    simp only
    rw [length_copyOut, if_pos hn,
      readLE_congr (fun x _ h2 => getD_copyOut m (by omega) : ∀ x, k ≤ x → x < k + 4 → _ = m x)]
  unfold dxSum
  simp only
  rw [hshort _ [0, 0, 0, 0] (by decide), hshort _ (copyOut m _ 4) (by rw [length_copyOut]; decide),
    hlong _ _ (by omega)]

private theorem not_dxChecksum_accepted (dir : Volume.DirId) {offset : Nat} (h : v.getDxCountLimit m = .ok offset)
    (ht : offset + readLE m offset 2 * 8 ≤ v.super.blksize - 8)
    (hcount : readLE m offset 2 < readLE m (offset + 2) 2) :
    v.dxChecksumValid (nextCrc (offset + readLE m offset 2 * 8 + 4)) dir
      (v.dxChecksumUpdate (nextCrc (offset + readLE m offset 2 * 8 + 4)) dir m).1 = false := by
  have h8 : 8 ≤ offset := by
    rcases (getDxCountLimit_iff.1 h).1.offset_eq with rfl | rfl
    · decide
    · decide
  obtain ⟨m', hm', hupd, hdx, hlimit, hcount'⟩ := dxChecksumUpdate_eq
    (nextCrc (offset + readLE m offset 2 * 8 + 4)) dir h ht
  have hsum := dxSum_next v dir h8 hcount
  have hsum' := dxSum_next v dir (m := m') h8 (by rw [hlimit, hcount']; exact hcount)
  rw [hlimit] at hsum'
  have hstored : readLE m' (offset + readLE m offset 2 * 8 + 4) 4 =
      (readLE m (offset + readLE m offset 2 * 8 + 4) 4 + 1) % 2 ^ 32 := by
    rw [hm', readLE_writeLE_self, hsum, UInt32.toNat_ofNat']
    omega
  rw [hupd, Volume.dxChecksumValid, dxChecksum_eq _ hdx, hlimit, if_neg (by omega), hsum']
  simp only [beq_eq_false_iff_ne, UInt32.toNat_ofNat', hstored]
  omega

/-- The check of a directory block succeeds after an update, for all checksum functions, exactly if the block is no
index block with more entries than its limit. -/
private theorem dirBlockChecksum_iff : (∀ crc, (v.dirBlockChecksumUpdate crc dir m).2 = 0 →
    v.dirBlockChecksumValid crc dir (v.dirBlockChecksumUpdate crc dir m).1 = true) ↔ ¬IndexOverlap v m := by
  by_cases hcsum : v.super.metadataCsum = true
  · constructor
    · rintro h ⟨-, offset, hdx, ht, hcount⟩
      have htail := (getDxCountLimit_iff.1 hdx).1.no_tail
      obtain ⟨crc, hcrc⟩ : ∃ crc, nextCrc (offset + readLE m offset 2 * 8 + 4) = crc := ⟨_, rfl⟩
      obtain ⟨m', -, hupd, hdx', -, -⟩ := dxChecksumUpdate_eq crc dir hdx ht
      have htail' := (getDxCountLimit_iff.1 hdx').1.no_tail
      have hupd' : v.dirBlockChecksumUpdate crc dir m = (m', 0) := by
        rw [Volume.dirBlockChecksumUpdate]
        simp only [hcsum, ↓reduceIte, htail, hdx, hupd]
      have hvalid := h crc (by rw [hupd'])
      rw [hupd', Volume.dirBlockChecksumValid] at hvalid
      simp only [hcsum, ↓reduceIte, htail', hdx'] at hvalid
      have hnot := not_dxChecksum_accepted dir hdx ht hcount
      rw [hcrc, hupd, hvalid] at hnot
      cases hnot
    · intro hover crc hret
      rw [Volume.dirBlockChecksumUpdate] at hret ⊢
      simp only [hcsum, ↓reduceIte] at hret ⊢
      cases htail : v.getDirentTail m with
      | ok t =>
        obtain ⟨m', hupd, htail', hvalid⟩ := direntChecksum_accepted crc dir htail
        simp only [hupd, Volume.dirBlockChecksumValid, hcsum, ↓reduceIte, htail']
        exact hvalid
      | error e =>
        cases hdx : v.getDxCountLimit m with
        | error e' =>
          simp only [htail, hdx] at hret
          exact absurd hret (by decide)
        | ok offset =>
          simp only [htail, hdx] at hret ⊢
          have ht : offset + readLE m offset 2 * 8 ≤ v.super.blksize - 8 := by
            by_contra hlt
            rw [Volume.dxChecksumUpdate, dxChecksum_eq crc hdx, if_pos (by omega)] at hret
            simp only at hret
            exact absurd hret (by decide)
          have hcount : readLE m (offset + 2) 2 ≤ readLE m offset 2 := by
            by_contra hlt
            exact hover ⟨hcsum, offset, hdx, ht, by omega⟩
          have hvalid := dxChecksum_accepted crc dir hdx ht hcount
          obtain ⟨m', -, hupd, hdx', -, -⟩ := dxChecksumUpdate_eq crc dir hdx ht
          have htail' := (getDxCountLimit_iff.1 hdx').1.no_tail
          rw [hupd] at hvalid ⊢
          simp only [Volume.dirBlockChecksumValid, hcsum, ↓reduceIte, htail', hdx']
          exact hvalid
  · constructor
    · exact fun _ h => hcsum h.1
    · intro _ crc _
      simp [Volume.dirBlockChecksumValid, hcsum]

/-! ### The descriptors in a run -/

/-- All descriptors have a valid checksum. -/
structure DescsValid (crc : Crc) (v : Volume) : Prop where
  opened : Opened v.super v.groupDescCount
  offsets : v.groupDescCount * v.super.descSize ≤ 2 ^ 32
  valid : ∀ g < v.groupDescCount, v.groupDescChecksumValid crc g = true

variable {v' w : Volume}

theorem groupDescChecksumValid_congr (hs : SameGeometry v.super v'.super) (hseed : v'.checksumSeed = v.checksumSeed)
    (hsize : 32 ≤ v.super.descSize)
    (hbytes : ∀ x, v.descAt g ≤ x → x < v.descAt g + v.super.descSize → v'.groupDesc x = v.groupDesc x) :
    v'.groupDescChecksumValid crc g = v.groupDescChecksumValid crc g := by
  have hcsum : v'.super.hasGroupDescChecksum = v.super.hasGroupDescChecksum := by rw [hs.frame]; rfl
  have hmeta : v'.super.metadataCsum = v.super.metadataCsum := by rw [hs.frame]
  have huuid : v'.super.uuid = v.super.uuid := by rw [hs.frame]
  have hds : v'.super.descSize = v.super.descSize := by rw [hs.frame]; rfl
  have hat : v'.descAt g = v.descAt g := by rw [Volume.descAt, Volume.descAt, hds]
  have hstored : v'.bgChecksum g = v.bgChecksum g := by
    rw [Volume.bgChecksum, Volume.bgChecksum, hat]
    exact readLE_congr fun x h1 h2 => hbytes x (by omega) (by omega)
  have hsum : v'.groupDescChecksum crc g = v.groupDescChecksum crc g := by
    unfold Volume.groupDescChecksum
    simp only [hmeta, hseed, hat, hds, huuid]
    split
    · have hclear : ∀ x, v.descAt g ≤ x → x < v.descAt g + v.super.descSize →
          writeLE v'.groupDesc (v.descAt g + 30) 2 0 x = writeLE v.groupDesc (v.descAt g + 30) 2 0 x :=
          fun x h1 h2 => by
        by_cases hx : v.descAt g + 30 ≤ x ∧ x < v.descAt g + 32
        · exact writeLE_inside hx.1 hx.2
        · rw [writeLE_outside (by omega), writeLE_outside (by omega), hbytes x h1 h2]
      rw [copyOut_congr hclear]
    · have hpart : ∀ a n, v.descAt g ≤ a → a + n ≤ v.descAt g + v.super.descSize →
          copyOut v'.groupDesc a n = copyOut v.groupDesc a n :=
        fun a n h1 h2 => copyOut_congr fun x h3 h4 => hbytes x (by omega) (by omega)
      rw [hpart (v.descAt g) 30 (by omega) (by omega)]
      split
      · rw [hpart (v.descAt g + 32) (v.super.descSize - 32) (by omega) (by omega)]
      · rfl
  rw [Volume.groupDescChecksumValid, Volume.groupDescChecksumValid, hcsum, hstored, hsum]

variable {crc}

theorem DescsValid.congr (h : DescsValid crc v) (hs : SameGeometry v.super v'.super)
    (hcount : v'.groupDescCount = v.groupDescCount) (hseed : v'.checksumSeed = v.checksumSeed)
    (hdesc : v'.groupDesc = v.groupDesc) : DescsValid crc v' := by
  have hds : v'.super.descSize = v.super.descSize := by rw [hs.frame]; rfl
  refine ⟨?_, ?_, ?_⟩
  · rw [hcount]
    exact hs.opened h.opened
  · rw [hcount, hds]
    exact h.offsets
  · rw [hcount]
    intro g hg
    rw [groupDescChecksumValid_congr crc hs hseed h.opened.le_descSize.1 fun x _ _ => by rw [hdesc]]
    exact h.valid g hg

theorem DescsValid.touch (h : DescsValid crc v) (ho : OnlyDesc v w g) (hg : (g + 1) * v.super.descSize ≤ 2 ^ 32) :
    DescsValid crc (w.groupDescChecksumUpdate crc g) := by
  have hall := ho.trans (OnlyDesc.checksum (ho.super ▸ h.opened) crc)
  have hs : SameGeometry v.super (w.groupDescChecksumUpdate crc g).super := ⟨by rw [hall.super]⟩
  refine ⟨?_, ?_, ?_⟩
  · rw [hall.frame]
    exact h.opened
  · rw [hall.frame]
    exact h.offsets
  · intro x hx
    have hx' : x < v.groupDescCount := by
      rw [hall.frame] at hx
      exact hx
    by_cases hxg : x = g
    · rw [hxg]
      exact groupDescChecksum_accepted crc
    · have hle : (x + 1) * v.super.descSize ≤ 2 ^ 32 := Nat.le_trans (Nat.mul_le_mul_right _ hx') h.offsets
      have hapart := descAt_disjoint hle hg hxg
      have hseed : (w.groupDescChecksumUpdate crc g).checksumSeed = v.checksumSeed := by rw [hall.frame]
      rw [groupDescChecksumValid_congr crc hs hseed h.opened.le_descSize.1
        fun y h1 h2 => hall.bytes y (by omega)]
      exact h.valid x hx'

theorem DescsValid.blockStats (h : DescsValid crc v) {block : Nat} (inuse : Int)
    (hdef : v.super.blocksCount < block ∨ Reaches v (v.super.groupOfBlock block)) :
    ∃ v', v.blockAllocStats crc block inuse = some v' ∧ DescsValid crc v' := by
  unfold Volume.blockAllocStats
  simp only
  by_cases hlt : v.super.blocksCount < block
  · rw [if_pos hlt]
    exact ⟨v, rfl, h⟩
  · rw [if_neg hlt]
    obtain ⟨hdesc, hfits⟩ := hdef.resolve_left hlt
    rw [if_neg (not_not.2 hdesc)]
    generalize v.super.groupOfBlock block = g at hfits
    generalize (if 0 < inuse then markBitmap v.blockBitmap block else unmarkBitmap v.blockBitmap block) = bm
    have h1 : DescsValid crc { v with blockBitmap := bm } := h.congr ⟨rfl⟩ rfl rfl rfl
    generalize hv1 : ({ v with blockBitmap := bm } : Volume) = v1 at h1
    have hfits1 : (g + 1) * v1.super.descSize ≤ 2 ^ 32 := hv1 ▸ hfits
    have hset : OnlyDesc v1 (v1.bgFreeBlocksCountSet g (wordOf32 (v1.bgFreeBlocksCount g - inuse))) g :=
      OnlyDesc.bgCountSet h1.opened
    have h2 := h1.touch (hset.trans (OnlyDesc.clearFlags (hset.super ▸ h1.opened) 2)) hfits1
    exact ⟨_, rfl, h2.congr ⟨rfl⟩ rfl rfl rfl⟩

private theorem DescsValid.of_off (h : DescsValid crc v) (ho : OnlyDesc v w g)
    (hoff : ¬v.super.hasGroupDescChecksum = true) :
    DescsValid crc w := by
  rw [ho.frame]
  exact ⟨h.opened, h.offsets, fun x _ => by simp [Volume.groupDescChecksumValid, hoff]⟩

theorem DescsValid.inodeStats (h : DescsValid crc v) (inuse : Int) (isdir : Bool)
    (hdef : v.super.inodesCount < ino ∨ Reaches v (v.super.groupOfInode ino)) :
    ∃ v', v.inodeAllocStats crc ino inuse isdir = some v' ∧ DescsValid crc v' := by
  unfold Volume.inodeAllocStats
  simp only
  by_cases hlt : v.super.inodesCount < ino
  · rw [if_pos hlt]
    exact ⟨v, rfl, h⟩
  · rw [if_neg hlt]
    obtain ⟨hdesc, hfits⟩ := hdef.resolve_left hlt
    rw [if_neg (not_not.2 hdesc)]
    generalize v.super.groupOfInode ino = g at hfits
    generalize (if 0 < inuse then markBitmap v.inodeBitmap ino else unmarkBitmap v.inodeBitmap ino) = bm
    have h1 : DescsValid crc { v with inodeBitmap := bm } := h.congr ⟨rfl⟩ rfl rfl rfl
    generalize hv1 : ({ v with inodeBitmap := bm } : Volume) = v1 at h1
    have hfits1 : (g + 1) * v1.super.descSize ≤ 2 ^ 32 := hv1 ▸ hfits
    have hset : OnlyDesc v1 (setInodeCounts v1 g inuse isdir) g := setInodeCounts_only h1.opened
    have hflags := hset.trans (OnlyDesc.clearFlags (hset.super ▸ h1.opened) 1)
    refine ⟨_, rfl, DescsValid.congr (v := ((setInodeCounts v1 g inuse isdir).bgClearFlags g 1).itableStats crc g ino)
      ?_ ⟨rfl⟩ rfl rfl rfl⟩
    unfold Volume.itableStats
    split
    · simp only
      split
      · exact h1.touch (hflags.trans (OnlyDesc.bgCountSet (hflags.super ▸ h1.opened))) hfits1
      · exact h1.touch hflags hfits1
    · rename_i hoff
      rw [hflags.super] at hoff
      exact h1.of_off hflags hoff

theorem DescsValid.fits (h : DescsValid crc v) (hg : g < v.groupDescCount) : (g + 1) * v.super.descSize ≤ 2 ^ 32 :=
  Nat.le_trans (Nat.mul_le_mul_right _ hg) h.offsets

theorem DescsValid.clearBlockUninit (h : DescsValid crc v) (g : Nat) : DescsValid crc (v.clearBlockUninit crc g) := by
  unfold Volume.clearBlockUninit
  split
  · exact h
  · rename_i hcond
    have h1 := h.touch (OnlyDesc.clearFlags (g := g) h.opened 2) (h.fits (by omega))
    exact h1.congr ⟨rfl⟩ rfl rfl rfl

theorem DescsValid.checkInodeUninit (h : DescsValid crc v) (g : Nat) : DescsValid crc (v.checkInodeUninit crc g) := by
  unfold Volume.checkInodeUninit
  split
  · exact h
  · rename_i hcond
    simp only
    generalize (List.range v.super.inodesPerGroup).foldl (fun b i => unmarkBitmap b
      ((g * v.super.inodesPerGroup + 1) % 2 ^ 32 + i)) v.inodeBitmap = bm
    have h1 : DescsValid crc { v with inodeBitmap := bm } := h.congr ⟨rfl⟩ rfl rfl rfl
    have h2 := h1.touch (OnlyDesc.clearFlags (g := g) h1.opened 3) (h.fits (by omega))
    exact h2.congr ⟨rfl⟩ rfl rfl rfl

theorem OnlyDesc.bitmapChecksum {lo hi : Nat} {bitmap : List UInt8} (h : Opened v.super v.groupDescCount)
    (hlo : lo + 2 ≤ 32) : OnlyDesc v (v.bitmapChecksumUpdate crc lo hi g bitmap) g := by
  have hsize := h.le_descSize.1
  unfold Volume.bitmapChecksumUpdate
  split
  · refine ⟨rfl, fun x hx => ?_⟩
    simp only
    split
    · rw [writeLE_outside (by omega), writeLE_outside (by omega)]
    · exact writeLE_outside (by omega)
  · exact OnlyDesc.refl v g

/-- The parts of the volume that writing the bitmaps does not change. -/
structure WriteFrame (v v' : Volume) : Prop where
  frame : v' = { v with groupDesc := v'.groupDesc }

private theorem writeBlockGroup_valid (h : DescsValid crc v) (io : Nat → Bool) (disk : Disk)
    (hg : g < v.groupDescCount) :
    DescsValid crc (v.writeBlockGroup crc io disk g).1.1 ∧ WriteFrame v (v.writeBlockGroup crc io disk g).1.1 := by
  unfold Volume.writeBlockGroup
  simp only
  split
  · exact ⟨h, ⟨rfl⟩⟩
  · split
    · exact ⟨h, ⟨rfl⟩⟩
    · rename_i bytes _
      simp only
      generalize copyOut (v.padLast g (Volume.bitmapBuf (v.super.clustersPerGroup / 8) bytes)) 0
        (v.super.clustersPerGroup / 8) = data
      have ho : OnlyDesc v (v.blockBitmapChecksumUpdate crc g data) g := OnlyDesc.bitmapChecksum h.opened (by decide)
      have hall := ho.trans (OnlyDesc.checksum (ho.super ▸ h.opened) crc)
      exact ⟨h.touch ho (h.fits hg), ⟨hall.frame⟩⟩

private theorem writeInodeGroup_valid (h : DescsValid crc v) (io : Nat → Bool) (disk : Disk)
    (hg : g < v.groupDescCount) :
    DescsValid crc (v.writeInodeGroup crc io disk g).1.1 ∧ WriteFrame v (v.writeInodeGroup crc io disk g).1.1 := by
  unfold Volume.writeInodeGroup
  simp only
  split
  · exact ⟨h, ⟨rfl⟩⟩
  · split
    · exact ⟨h, ⟨rfl⟩⟩
    · rename_i bytes _
      simp only
      generalize copyOut (Volume.bitmapBuf ((v.super.inodesPerGroup + 7) / 8) bytes) 0
        ((v.super.inodesPerGroup + 7) / 8) = data
      have ho : OnlyDesc v (v.inodeBitmapChecksumUpdate crc g data) g := OnlyDesc.bitmapChecksum h.opened (by decide)
      have hall := ho.trans (OnlyDesc.checksum (ho.super ▸ h.opened) crc)
      exact ⟨h.touch ho (h.fits hg), ⟨hall.frame⟩⟩

theorem WriteFrame.count {v v' : Volume} (h : WriteFrame v v') : v'.groupDescCount = v.groupDescCount := by
  rw [h.frame]

private theorem writeGroups_valid (io : Nat → Bool) (doBlock doInode : Bool) {is : List Nat} {s : Volume × Disk}
    (h : DescsValid crc s.1) (his : ∀ i ∈ is, i < s.1.groupDescCount) :
    DescsValid crc (Volume.writeGroups crc io doBlock doInode is s).1.1 := by
  induction is generalizing s with
  | nil => exact h
  | cons i is ih =>
    have hi := his i List.mem_cons_self
    have hblock : DescsValid crc (if doBlock then s.1.writeBlockGroup crc io s.2 i else (s, none)).1.1 ∧
        (if doBlock then s.1.writeBlockGroup crc io s.2 i else (s, none)).1.1.groupDescCount =
          s.1.groupDescCount := by
      split
      · have hw := writeBlockGroup_valid h io s.2 hi
        exact ⟨hw.1, hw.2.count⟩
      · exact ⟨h, rfl⟩
    rw [Volume.writeGroups]
    generalize (if doBlock then s.1.writeBlockGroup crc io s.2 i else (s, none)) = r at hblock
    obtain ⟨s1, e1⟩ := r
    obtain ⟨h1, hc1⟩ := hblock
    simp only at h1 hc1
    cases e1 with
    | some e => exact h1
    | none =>
      simp only
      have hinode : DescsValid crc (if doInode then s1.1.writeInodeGroup crc io s1.2 i else (s1, none)).1.1 ∧
          (if doInode then s1.1.writeInodeGroup crc io s1.2 i else (s1, none)).1.1.groupDescCount =
            s1.1.groupDescCount := by
        split
        · have hw := writeInodeGroup_valid (g := i) h1 io s1.2 (by omega)
          exact ⟨hw.1, hw.2.count⟩
        · exact ⟨h1, rfl⟩
      generalize (if doInode then s1.1.writeInodeGroup crc io s1.2 i else (s1, none)) = r at hinode
      obtain ⟨s2, e2⟩ := r
      obtain ⟨h2, hc2⟩ := hinode
      simp only at h2 hc2
      cases e2 with
      | some e => exact h2
      | none =>
        refine ih h2 fun j hj => ?_
        have := his j (List.mem_cons_of_mem _ hj)
        omega

theorem DescsValid.write (h : DescsValid crc v) (io : Nat → Bool) (disk : Disk)
    (hdef : v.readOnly = true ∨ ((v.bbDirty = true → v.super.clustersPerGroup / 8 ≤ v.super.blksize) ∧
      (v.ibDirty = true → (v.super.inodesPerGroup + 7) / 8 ≤ v.super.blksize))) :
    ∃ r, v.writeBitmaps crc io disk = some r ∧ DescsValid crc r.1.1 := by
  unfold Volume.writeBitmaps
  by_cases hro : v.readOnly = true
  · rw [if_pos hro]
    exact ⟨_, rfl, h⟩
  · obtain ⟨hbb, hib⟩ := hdef.resolve_left hro
    have hfit : ¬((v.bbDirty = true ∧ v.super.blksize < v.super.clustersPerGroup / 8) ∨
        (v.ibDirty = true ∧ v.super.blksize < (v.super.inodesPerGroup + 7) / 8)) := by
      rintro (⟨h1, h2⟩ | ⟨h1, h2⟩)
      · have := hbb h1
        omega
      · have := hib h1
        omega
    rw [if_neg hro, if_neg hfit]
    have hw := writeGroups_valid (s := (v, disk)) io v.bbDirty v.ibDirty h
      fun i (hi : i ∈ List.range v.groupDescCount) => List.mem_range.1 hi
    generalize Volume.writeGroups crc io v.bbDirty v.ibDirty (List.range v.groupDescCount) (v, disk) = r at hw
    obtain ⟨s, e⟩ := r
    cases e with
    | some e => exact ⟨_, rfl, hw⟩
    | none => exact ⟨_, rfl, DescsValid.congr (v := s.1) hw ⟨rfl⟩ rfl rfl rfl⟩

private theorem descStep_valid {s : Volume × Disk} {op : DescOp} (h : DescsValid crc s.1) (hdef : DescDefined s op) :
    ∃ s', descStep crc s op = some s' ∧ DescsValid crc s'.1 := by
  cases op with
  | blockStats block inuse =>
    obtain ⟨v', hv', hvalid⟩ := h.blockStats inuse hdef
    exact ⟨_, by rw [descStep, hv', Option.map_some], hvalid⟩
  | inodeStats ino inuse isdir =>
    obtain ⟨v', hv', hvalid⟩ := h.inodeStats inuse isdir hdef
    exact ⟨_, by rw [descStep, hv', Option.map_some], hvalid⟩
  | clearBlock group => exact ⟨_, rfl, h.clearBlockUninit group⟩
  | checkInode group => exact ⟨_, rfl, h.checkInodeUninit group⟩
  | write io =>
    obtain ⟨r, hr, hvalid⟩ := h.write io s.2 hdef
    exact ⟨_, by rw [descStep, hr, Option.map_some], hvalid⟩

end

/-- What an update stores is accepted: for group descriptors, inodes, bitmaps and extent blocks always, and for
directory blocks exactly if the block is no index block with more entries than its limit.  In every run of calls that
are defined, all descriptors keep a valid checksum. -/
theorem checksums_accepted (crc : Crc) (v : Volume) :
    (∀ g, (v.groupDescChecksumUpdate crc g).groupDescChecksumValid crc g = true) ∧
    (∀ (ino : Nat) (inode : Mem), v.inodeChecksumValid crc ino (v.inodeChecksumUpdate crc ino inode) = true) ∧
    (∀ (g : Nat) (bitmap : List UInt8),
      (v.blockBitmapChecksumUpdate crc g bitmap).blockBitmapChecksumValid crc g bitmap = true ∧
      (v.inodeBitmapChecksumUpdate crc g bitmap).inodeBitmapChecksumValid crc g bitmap = true) ∧
    (∀ (readInode : Nat → Except Errno Mem) (ino : Nat) (eh : Mem),
      (v.extentBlockChecksumUpdate crc readInode ino eh).2 = 0 →
      v.extentBlockChecksumValid crc readInode ino (v.extentBlockChecksumUpdate crc readInode ino eh).1 = true) ∧
    (∀ (dir : Volume.DirId) (m : Mem),
      (∀ crc, (v.dirBlockChecksumUpdate crc dir m).2 = 0 →
        v.dirBlockChecksumValid crc dir (v.dirBlockChecksumUpdate crc dir m).1 = true) ↔ ¬IndexOverlap v m) ∧
    (∀ (s : Volume × Disk) (ops : List DescOp), DescsValid crc s.1 →
      Machine.Meets (descStep crc) DescDefined ops s →
      ∀ p, p <+: ops → ∃ s', Machine.run (descStep crc) p s = some s' ∧ DescsValid crc s'.1) := by
  refine ⟨?_, ?_, ?_, ?_, ?_, ?_⟩
  · exact fun g => groupDescChecksum_accepted crc
  · exact fun ino inode => inodeChecksum_accepted crc inode
  · exact fun g bitmap =>
      ⟨bitmapChecksum_accepted crc (by decide) bitmap, bitmapChecksum_accepted crc (by decide) bitmap⟩
  · exact fun readInode ino eh h => extentBlockChecksum_accepted crc readInode eh h
  · exact fun dir m => dirBlockChecksum_iff
  · intro s ops h hops
    exact hops.reaches (P := fun s => DescsValid crc s.1) (fun s op hP hC => descStep_valid hP hC) h

def csumVolume : Volume :=
  { smallVolume with super := { smallVolume.super with gdtCsum := true, metadataCsum := true } }

/-- A block is freed and the bitmaps are written. -/
theorem checksums_accepted_small : ∃ s', Machine.run (descStep zeroCrc) [.blockStats 1 (-1), .write fun _ => true]
    (csumVolume, fun _ _ => 0) = some s' ∧ DescsValid zeroCrc s'.1 := by
  have hvalid : DescsValid zeroCrc csumVolume := ⟨openfs_ok (by decide), by decide, by decide⟩
  have hops : Machine.Meets (descStep zeroCrc) DescDefined [.blockStats 1 (-1), .write fun _ => true]
      (csumVolume, fun _ _ => 0) := by
    refine ⟨Or.inr ⟨by decide, by decide⟩, fun s' hs' => ⟨?_, fun _ _ => trivial⟩⟩
    cases hs'
    exact Or.inr ⟨fun _ => by decide, fun _ => by decide⟩
  exact (checksums_accepted zeroCrc csumVolume).2.2.2.2.2 _ _ hvalid hops _ (List.prefix_refl _)

def crowdedBlock : Mem := writeLE (writeLE (writeLE (fun _ => 0) 4 2 1024) 8 2 1) 10 2 2

/-- The check fails after a successful update of an index block with more entries than its limit. -/
theorem not_checksums_accepted : ∃ crc, (csumVolume.dirBlockChecksumUpdate crc ⟨2, 0⟩ crowdedBlock).2 = 0 ∧
    csumVolume.dirBlockChecksumValid crc ⟨2, 0⟩ (csumVolume.dirBlockChecksumUpdate crc ⟨2, 0⟩ crowdedBlock).1 =
    false := by
  have hover : IndexOverlap csumVolume crowdedBlock := ⟨rfl, 8, rfl, by decide, by decide⟩
  have hnot : ¬∀ crc, (csumVolume.dirBlockChecksumUpdate crc ⟨2, 0⟩ crowdedBlock).2 = 0 →
      csumVolume.dirBlockChecksumValid crc ⟨2, 0⟩ (csumVolume.dirBlockChecksumUpdate crc ⟨2, 0⟩ crowdedBlock).1 =
      true :=
    fun h => dirBlockChecksum_iff.1 h hover
  obtain ⟨crc, hcrc⟩ := not_forall.1 hnot
  rw [Classical.not_imp] at hcrc
  exact ⟨crc, hcrc.1, by simpa using hcrc.2⟩

end Pml.Ext2
