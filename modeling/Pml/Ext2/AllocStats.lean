import Mathlib.Algebra.BigOperators.Group.Finset.Piecewise
import Mathlib.Order.Interval.Finset.Nat
import Pml.Ext2.GroupDesc
import Pml.Lib.Counting
import Pml.Lib.Machine

/-!
# Allocation accounting (`drivers/fs/ext2/util.c`)

The number of free blocks is kept in the descriptor of each group and in the superblock, next to the bitmap; the same
is done for inodes, and a descriptor also counts the directories and the inodes at the end of its table that were
never used.  `ext2_block_alloc_stats` and `ext2_inode_alloc_stats` change all of them.

They do not change them in step for a block before the first data block and for the block number `s_blocks_count`,
which have no bit; for counts beyond 16 bits without the 64BIT feature; and for the last group of a file system with
`2 ^ 32 - 1` inodes, where the number of the first unused inode is computed with 32 bits.
-/

namespace Pml.Ext2

open ByteMemory

def Super.groupOfBlock (s : Super) (block : Nat) : Nat := sub64 block s.firstDataBlock / s.blocksPerGroup % 2 ^ 32

def Super.groupOfInode (s : Super) (ino : Nat) : Nat := sub64 ino 1 / s.inodesPerGroup % 2 ^ 32

def wordOf32 (x : Int) : Nat := (x % 2 ^ 32).toNat

namespace Volume

variable (crc : Crc)

def clearBlockUninit (v : Volume) (group : Nat) : Volume :=
  if v.groupDescCount ≤ group ∨ !v.super.hasGroupDescChecksum ∨ v.bgTestFlags group 2 = 0 then v
  else { (v.bgClearFlags group 2).groupDescChecksumUpdate crc group with bbDirty := true }

/-- `ext2_block_alloc_stats`; undefined if there is no descriptor for the group. -/
def blockAllocStats (v : Volume) (block : Nat) (inuse : Int) : Option Volume :=
  let group := v.super.groupOfBlock block
  if v.super.blocksCount < block then some v
  else if ¬v.HasDesc group then none
  else
    let v := { v with
      blockBitmap := if 0 < inuse then markBitmap v.blockBitmap block else unmarkBitmap v.blockBitmap block }
    let v := v.bgFreeBlocksCountSet group (wordOf32 (v.bgFreeBlocksCount group - inuse))
    let v := v.bgClearFlags group 2
    let v := v.groupDescChecksumUpdate crc group
    some { v with super := v.super.freeBlocksCountAdd (-inuse * 2 ^ v.super.clusterRatioBits), bbDirty := true }

/-- The part of `ext2_inode_alloc_stats` for file systems with descriptor checksums. -/
def itableStats (v : Volume) (group ino : Nat) : Volume :=
  if v.super.hasGroupDescChecksum then
    let perGroup := v.super.inodesPerGroup
    let firstUnused := wordOf32 (perGroup - v.bgItableUnused group + group * perGroup + 1)
    let v := if firstUnused ≤ ino then v.bgItableUnusedSet group (wordOf32 (group * perGroup + perGroup - ino)) else v
    v.groupDescChecksumUpdate crc group
  else v

/-- `ext2_inode_alloc_stats`; undefined if there is no descriptor for the group. -/
def inodeAllocStats (v : Volume) (ino : Nat) (inuse : Int) (isdir : Bool) : Option Volume :=
  let group := v.super.groupOfInode ino
  if v.super.inodesCount < ino then some v
  else if ¬v.HasDesc group then none
  else
    let v := { v with
      inodeBitmap := if 0 < inuse then markBitmap v.inodeBitmap ino else unmarkBitmap v.inodeBitmap ino }
    let v := v.bgFreeInodesCountSet group (wordOf32 (v.bgFreeInodesCount group - inuse))
    let v := if isdir then v.bgUsedDirsCountSet group (wordOf32 (v.bgUsedDirsCount group + inuse)) else v
    let v := v.bgClearFlags group 1
    let v := v.itableStats crc group ino
    some { v with
      super := { v.super with freeInodesCount := wordOf32 (v.super.freeInodesCount - inuse) }, ibDirty := true }

def newBlock (v : Volume) (goal : Nat) : Except Errno (Volume × Nat) :=
  let goal := if goal = 0 ∨ v.super.blocksCount ≤ goal then alignDown goal (2 ^ v.super.clusterRatioBits) else goal
  let found :=
    match findFirstZero v.blockBitmap goal (sub64 v.super.blocksCount 1) with
    | .error .ENOENT =>
      if goal ≠ v.super.firstDataBlock then findFirstZero v.blockBitmap v.super.firstDataBlock (sub64 goal 1)
      else .error .ENOENT
    | r => r
  found.map fun b => (v.clearBlockUninit crc (v.super.groupOfBlock b), b)

/-- `ext2_alloc_block`, where `io` says whether the block can be written. -/
def allocBlock (v : Volume) (goal : Nat) (io : Bool) : Option (Volume × Except Errno Nat) :=
  match v.newBlock crc goal with
  | .error e => some (v, .error e)
  | .ok (v, b) => if io then (v.blockAllocStats crc b 1).map fun v => (v, .ok b) else some (v, .error Errno.EIO)

end Volume

/-! ### Consistent file systems -/

/-- The blocks of a group; the last group can be short. -/
def Super.groupBlocks (s : Super) (g : Nat) : Finset Nat :=
  Finset.Ico (s.firstDataBlock + g * s.blocksPerGroup)
    (min (s.firstDataBlock + g * s.blocksPerGroup + s.blocksPerGroup) s.blocksCount)

def Super.groupInodes (s : Super) (g : Nat) : Finset Nat :=
  Finset.Ico (g * s.inodesPerGroup + 1) (g * s.inodesPerGroup + s.inodesPerGroup + 1)

/-- A file system with one block in a cluster that `ext2_openfs` accepts.  The offsets of its descriptors fit in 32
bits. -/
structure Mounted (v : Volume) : Prop where
  wf : v.super.Wf
  opened : Opened v.super v.groupDescCount
  ratio : v.super.clusterRatioBits = 0
  blocks : v.blockBitmap.Covers v.super.firstDataBlock (v.super.blocksCount - 1)
  inodes : v.inodeBitmap.Covers 1 v.super.inodesCount
  offsets : v.groupDescCount * v.super.descSize ≤ 2 ^ 32

/-- The counts agree with the bitmaps, where `dir` says which inodes are directories. -/
structure Accounted (v : Volume) (dir : Nat → Bool) : Prop where
  freeBlocks : ∀ g < v.groupDescCount,
    v.bgFreeBlocksCount g = ((v.super.groupBlocks g).filter fun b => testBitmap v.blockBitmap b = 0).card
  freeInodes : ∀ g < v.groupDescCount,
    v.bgFreeInodesCount g = ((v.super.groupInodes g).filter fun i => testBitmap v.inodeBitmap i = 0).card
  usedDirs : ∀ g < v.groupDescCount, v.bgUsedDirsCount g =
    ((v.super.groupInodes g).filter fun i => testBitmap v.inodeBitmap i ≠ 0 ∧ dir i = true).card
  blocksTotal : v.super.freeBlocksCount = ∑ g ∈ Finset.range v.groupDescCount, v.bgFreeBlocksCount g
  inodesTotal : v.super.freeInodesCount = ∑ g ∈ Finset.range v.groupDescCount, v.bgFreeInodesCount g
  unused_le : v.super.hasGroupDescChecksum = true → ∀ g < v.groupDescCount,
    v.bgItableUnused g ≤ v.super.inodesPerGroup
  unused : v.super.hasGroupDescChecksum = true → ∀ g < v.groupDescCount, ∀ i ∈ v.super.groupInodes g,
    testBitmap v.inodeBitmap i ≠ 0 → i + v.bgItableUnused g ≤ g * v.super.inodesPerGroup + v.super.inodesPerGroup

/-! ### Runs -/

/-- The calls. -/
inductive AllocOp
  | allocBlock (goal : Nat) (io : Bool)
  | freeBlock (block : Nat)
  | allocInode (ino : Nat) (isdir : Bool)
  | freeInode (ino : Nat)

abbrev AllocState := Volume × (Nat → Bool)

/-- One call; an inode is freed with its own directory flag. -/
def allocStep (crc : Crc) (s : AllocState) : AllocOp → Option AllocState
  | .allocBlock goal io => (s.1.allocBlock crc goal io).map fun r => (r.1, s.2)
  | .freeBlock block => (s.1.blockAllocStats crc block (-1)).map fun v => (v, s.2)
  | .allocInode ino isdir => (s.1.inodeAllocStats crc ino 1 isdir).map fun v => (v, Function.update s.2 ino isdir)
  | .freeInode ino => (s.1.inodeAllocStats crc ino (-1) (s.2 ino)).map fun v => (v, s.2)

/-- The calls that are made: an allocated block or one out of range is freed, a free inode is allocated and an
allocated one is freed. -/
def Allowed (s : AllocState) : AllocOp → Prop
  | .allocBlock goal _ => goal < 2 ^ 64
  | .freeBlock block => block < 2 ^ 64 ∧
    (block < s.1.super.firstDataBlock ∨ s.1.super.blocksCount ≤ block ∨ testBitmap s.1.blockBitmap block ≠ 0)
  | .allocInode ino _ => 1 ≤ ino ∧ ino ≤ s.1.super.inodesCount ∧ testBitmap s.1.inodeBitmap ino = 0
  | .freeInode ino => 1 ≤ ino ∧ ino ≤ s.1.super.inodesCount ∧ testBitmap s.1.inodeBitmap ino ≠ 0

/-- The number of the first unused inode fits in 32 bits, or there is no inode in use after `ino` in its group. -/
def UnusedFits (v : Volume) (ino : Nat) : Prop :=
  let group := v.super.groupOfInode ino
  v.super.hasGroupDescChecksum = true →
    group * v.super.inodesPerGroup + v.super.inodesPerGroup - v.bgItableUnused group + 1 < 2 ^ 32 ∨
    ∀ i ∈ v.super.groupInodes group, testBitmap v.inodeBitmap i ≠ 0 → i ≤ ino

/-- The calls that keep the counts: a block that is freed is neither before the first data block nor the one after the
last, and no count leaves its width. -/
def KeepsCounts (s : AllocState) : AllocOp → Prop
  | .allocBlock _ _ => True
  | .freeBlock block => s.1.super.firstDataBlock ≤ block ∧ block ≠ s.1.super.blocksCount
  | .allocInode ino isdir => UnusedFits s.1 ino ∧
    (isdir = true → s.1.bgUsedDirsCount (s.1.super.groupOfInode ino) + 1 < s.1.super.countLimit)
  | .freeInode ino => UnusedFits s.1 ino ∧
    s.1.bgFreeInodesCount (s.1.super.groupOfInode ino) + 1 < s.1.super.countLimit

/-! ### Groups -/

section

variable {v : Volume} {b ino g : Nat}

private theorem wordOf32_of_lt {x : Int} {n : Nat} (h : x = n) (hn : n < 2 ^ 32) : wordOf32 x = n := by
  unfold wordOf32
  omega

theorem div_unique {x n k : Nat} (hn : 0 < n) (h1 : k * n ≤ x) (h2 : x < k * n + n) : x / n = k := by
  rw [Nat.div_eq_iff hn]
  omega

private theorem Mounted.group_of_block (h : Mounted v) (h1 : v.super.firstDataBlock ≤ b)
    (h2 : b < v.super.blocksCount) :
    v.super.groupOfBlock b < v.groupDescCount ∧
    ∀ g, b ∈ v.super.groupBlocks g ↔ g = v.super.groupOfBlock b := by
  have hpos := h.opened.blocks_pos
  have hcount := h.opened.count_lt
  have hlt : (b - v.super.firstDataBlock) / v.super.blocksPerGroup < v.groupDescCount := by
    rw [h.opened.groups]
    exact Nat.lt_succ_of_le (Nat.div_le_div_right (by omega))
  have hgroups := h.opened.groups_lt
  have hgroup : v.super.groupOfBlock b = (b - v.super.firstDataBlock) / v.super.blocksPerGroup := by
    rw [Super.groupOfBlock, sub64_of_le h1 (by omega), Nat.mod_eq_of_lt (by omega)]
  refine ⟨by omega, fun g => ?_⟩
  rw [hgroup, Super.groupBlocks, Finset.mem_Ico, Nat.lt_min]
  constructor
  · rintro ⟨h3, h4, -⟩
    exact (div_unique hpos (by omega) (by omega)).symm
  · rintro rfl
    have h3 := Nat.div_mul_le_self (b - v.super.firstDataBlock) v.super.blocksPerGroup
    have h4 := Nat.lt_div_mul_add hpos (a := b - v.super.firstDataBlock)
    exact ⟨by omega, by omega, h2⟩

private theorem Mounted.group_of_inode (h : Mounted v) (h1 : 1 ≤ ino) (h2 : ino ≤ v.super.inodesCount) :
    v.super.groupOfInode ino < v.groupDescCount ∧
    ∀ g, ino ∈ v.super.groupInodes g ↔ g = v.super.groupOfInode ino := by
  have hpos := h.opened.inodes_pos
  have hinodes := h.opened.inodes
  have hcount := h.wf.inodesCount
  have hlt : (ino - 1) / v.super.inodesPerGroup < v.groupDescCount := by
    rw [Nat.div_lt_iff_lt_mul hpos]
    omega
  have hgroups := h.opened.groups_lt
  have hgroup : v.super.groupOfInode ino = (ino - 1) / v.super.inodesPerGroup := by
    rw [Super.groupOfInode, sub64_of_le h1 (by omega), Nat.mod_eq_of_lt (by omega)]
  refine ⟨by omega, fun g => ?_⟩
  rw [hgroup, Super.groupInodes, Finset.mem_Ico]
  constructor
  · rintro ⟨h3, h4⟩
    exact (div_unique hpos (by omega) (by omega)).symm
  · rintro rfl
    have h3 := Nat.div_mul_le_self (ino - 1) v.super.inodesPerGroup
    have h4 := Nat.lt_div_mul_add hpos (a := ino - 1)
    exact ⟨by omega, by omega⟩

private theorem blocks_of_group (hb : b ∈ v.super.groupBlocks g) :
    b ∈ Finset.Ico v.super.firstDataBlock v.super.blocksCount := by
  rw [Super.groupBlocks, Finset.mem_Ico, Nat.lt_min] at hb
  rw [Finset.mem_Ico]
  exact ⟨by omega, hb.2.2⟩

private theorem Mounted.inodes_of_group (h : Mounted v) (hg : g < v.groupDescCount)
    (hi : ino ∈ v.super.groupInodes g) :
    ino ∈ Finset.Ico 1 (v.super.inodesCount + 1) := by
  have hle := Nat.mul_le_mul_right v.super.inodesPerGroup (Nat.succ_le_of_lt hg)
  rw [h.opened.inodes, Nat.succ_mul] at hle
  rw [Super.groupInodes, Finset.mem_Ico] at hi
  rw [Finset.mem_Ico]
  exact ⟨by omega, by omega⟩

private theorem Mounted.groupBlocks_card (h : Mounted v) (p : Nat → Prop) [DecidablePred p] :
    ((v.super.groupBlocks g).filter p).card < v.super.countLimit := by
  have hle := h.opened.blocks_le
  rw [h.ratio] at hle
  have hcard := Finset.card_filter_le (v.super.groupBlocks g) p
  rw [Super.groupBlocks, Nat.card_Ico] at hcard
  rw [Super.groupBlocks, Super.countLimit]
  split
  · omega
  · omega

private theorem Mounted.sum_blocks_le (h : Mounted v) (p : Nat → Prop) [DecidablePred p] :
    ∑ g ∈ Finset.range v.groupDescCount, ((v.super.groupBlocks g).filter p).card ≤ v.super.blocksCount := by
  have hsum := Counting.sum_card_le (s := Finset.range v.groupDescCount)
    (t := fun g => (v.super.groupBlocks g).filter p)
    (u := Finset.Ico v.super.firstDataBlock v.super.blocksCount) ?_ ?_
  · rw [Nat.card_Ico] at hsum
    omega
  · intro g _ g' _ hne
    refine Finset.disjoint_left.2 fun x hx hx' => hne ?_
    have hx1 := Finset.mem_of_mem_filter x hx
    have hx2 := Finset.mem_of_mem_filter x hx'
    obtain ⟨h1, h2⟩ := Finset.mem_Ico.1 (blocks_of_group hx1)
    have hiff := (h.group_of_block h1 h2).2
    rw [(hiff g).1 hx1, (hiff g').1 hx2]
  · exact fun g _ x hx => blocks_of_group (Finset.mem_of_mem_filter x hx)

private theorem Mounted.sum_inodes_le (h : Mounted v) (p : Nat → Prop) [DecidablePred p] :
    ∑ g ∈ Finset.range v.groupDescCount, ((v.super.groupInodes g).filter p).card ≤ v.super.inodesCount := by
  have hsum := Counting.sum_card_le (s := Finset.range v.groupDescCount)
    (t := fun g => (v.super.groupInodes g).filter p) (u := Finset.Ico 1 (v.super.inodesCount + 1)) ?_ ?_
  · rw [Nat.card_Ico] at hsum
    omega
  · intro g hg g' hg' hne
    refine Finset.disjoint_left.2 fun x hx hx' => hne ?_
    have hx1 := Finset.mem_of_mem_filter x hx
    have hx2 := Finset.mem_of_mem_filter x hx'
    obtain ⟨h1, h2⟩ := Finset.mem_Ico.1 (h.inodes_of_group (Finset.mem_range.1 hg) hx1)
    have hiff := (h.group_of_inode h1 (Nat.le_of_lt_succ h2)).2
    rw [(hiff g).1 hx1, (hiff g').1 hx2]
  · exact fun g hg x hx => h.inodes_of_group (Finset.mem_range.1 hg) (Finset.mem_of_mem_filter x hx)

/-! ### One call -/

variable {v' : Volume} {crc : Crc} {inuse : Int} {isdir : Bool}

/-- What `ext2_block_alloc_stats` does with a block of the group `g`. -/
structure BlockStats (v v' : Volume) (b g : Nat) (inuse : Int) : Prop where
  super : v'.super = v.super.freeBlocksCountAdd (-inuse)
  count : v'.groupDescCount = v.groupDescCount
  blockBitmap : v'.blockBitmap = if 0 < inuse then markBitmap v.blockBitmap b else unmarkBitmap v.blockBitmap b
  inodeBitmap : v'.inodeBitmap = v.inodeBitmap
  elsewhere : ∀ c, ∀ x < v.groupDescCount, x ≠ g → v'.bgCount c x = v.bgCount c x
  freeBlocks : v'.bgFreeBlocksCount g = wordOf32 (v.bgFreeBlocksCount g - inuse) % v.super.countLimit
  others : ∀ c, c ≠ .freeBlocks → v'.bgCount c g = v.bgCount c g

private theorem wordOf32_lt (x : Int) : wordOf32 x < 2 ^ 32 := by
  unfold wordOf32
  omega

private theorem blockAllocStats_spec (crc : Crc) (inuse : Int) (h : Mounted v) (h1 : v.super.firstDataBlock ≤ b)
    (h2 : b < v.super.blocksCount) :
    ∃ v', v.blockAllocStats crc b inuse = some v' ∧ BlockStats v v' b (v.super.groupOfBlock b) inuse := by
  obtain ⟨hg, -⟩ := h.group_of_block h1 h2
  unfold Volume.blockAllocStats
  simp only
  rw [if_neg (by omega), if_neg (not_not.2 (h.opened.hasDesc hg))]
  generalize v.super.groupOfBlock b = g at hg
  generalize hbm : (if 0 < inuse then markBitmap v.blockBitmap b else unmarkBitmap v.blockBitmap b) = bm
  obtain ⟨v1, hv1⟩ : ∃ v1 : Volume, { v with blockBitmap := bm } = v1 := ⟨_, rfl⟩
  have hopen : Opened v1.super v.groupDescCount := hv1 ▸ h.opened
  have hset : OnlyDesc v1 (v1.bgFreeBlocksCountSet g (wordOf32 (v1.bgFreeBlocksCount g - inuse))) g :=
    OnlyDesc.bgCountSet hopen
  have hflags := hset.trans (OnlyDesc.clearFlags (hset.super ▸ hopen) 2)
  have hall := hflags.trans (OnlyDesc.checksum (hflags.super ▸ hopen) crc)
  rw [hv1]
  generalize hw : Volume.groupDescChecksumUpdate crc ((v1.bgFreeBlocksCountSet g
    (wordOf32 (v1.bgFreeBlocksCount g - inuse))).bgClearFlags g 2) g = w at hall
  have hcount : ∀ c, w.bgCount c g =
      (v1.bgFreeBlocksCountSet g (wordOf32 (v1.bgFreeBlocksCount g - inuse))).bgCount c g := fun c => by
    rw [← hw, bgCount_groupDescChecksumUpdate, bgCount_bgClearFlags]
  have helse : ∀ c, ∀ x < v.groupDescCount, x ≠ g → w.bgCount c x = v1.bgCount c x := fun c x hx hne =>
    hall.bgCount hopen (hv1 ▸ descAt_apart h.offsets hg hx hne.symm)
  obtain ⟨m, hm⟩ : ∃ m, w.groupDesc = m := ⟨_, rfl⟩
  have hframe := hall.frame
  rw [hm] at hframe
  subst hframe
  subst hv1
  refine ⟨_, rfl, ?_, rfl, hbm.symm, rfl, ?_, ?_, ?_⟩
  · simp only [h.ratio, pow_zero, mul_one]
  · exact helse
  · exact (hcount .freeBlocks).trans (bgCount_bgCountSet_self (wordOf32_lt _))
  · exact fun c hc => (hcount c).trans (bgCount_bgCountSet_of_ne hc)

/-- The number of unused inodes after a call for `ino`. -/
def unusedAfter (v : Volume) (g ino : Nat) : Nat :=
  let perGroup := v.super.inodesPerGroup
  if v.super.hasGroupDescChecksum ∧ wordOf32 (perGroup - v.bgItableUnused g + g * perGroup + 1) ≤ ino then
    wordOf32 (g * perGroup + perGroup - ino) % v.super.countLimit
  else v.bgItableUnused g

private theorem itableStats_only (crc : Crc) (ino : Nat) (h : Opened v.super v.groupDescCount) :
    OnlyDesc v (v.itableStats crc g ino) g := by
  unfold Volume.itableStats
  split
  · simp only
    split
    · have hset : OnlyDesc v (v.bgItableUnusedSet g (wordOf32 (g * v.super.inodesPerGroup +
        v.super.inodesPerGroup - ino))) g := OnlyDesc.bgCountSet h
      exact hset.trans (OnlyDesc.checksum (hset.super ▸ h) crc)
    · exact OnlyDesc.checksum h crc
  · exact OnlyDesc.refl v g

private theorem itableStats_count {c : BgCount} (hc : c ≠ .itableUnused) :
    (v.itableStats crc g ino).bgCount c g = v.bgCount c g := by
  unfold Volume.itableStats
  split
  · simp only
    rw [bgCount_groupDescChecksumUpdate]
    split
    · exact bgCount_bgCountSet_of_ne hc
    · rfl
  · rfl

private theorem itableStats_unused : (v.itableStats crc g ino).bgItableUnused g = unusedAfter v g ino := by
  unfold Volume.itableStats unusedAfter
  by_cases hcsum : v.super.hasGroupDescChecksum = true
  · simp only [hcsum, true_and, ↓reduceIte]
    split
    · exact (bgCount_groupDescChecksumUpdate crc).trans (bgCount_bgCountSet_self (wordOf32_lt _))
    · exact bgCount_groupDescChecksumUpdate crc
  · simp only [hcsum, Bool.false_eq_true, false_and, ↓reduceIte]

/-- What `ext2_inode_alloc_stats` does with an inode of the group `g`. -/
structure InodeStats (v v' : Volume) (ino g : Nat) (inuse : Int) (isdir : Bool) : Prop where
  super : v'.super = { v.super with freeInodesCount := wordOf32 (v.super.freeInodesCount - inuse) }
  count : v'.groupDescCount = v.groupDescCount
  blockBitmap : v'.blockBitmap = v.blockBitmap
  inodeBitmap : v'.inodeBitmap = if 0 < inuse then markBitmap v.inodeBitmap ino else unmarkBitmap v.inodeBitmap ino
  elsewhere : ∀ c, ∀ x < v.groupDescCount, x ≠ g → v'.bgCount c x = v.bgCount c x
  freeBlocks : v'.bgFreeBlocksCount g = v.bgFreeBlocksCount g
  freeInodes : v'.bgFreeInodesCount g = wordOf32 (v.bgFreeInodesCount g - inuse) % v.super.countLimit
  usedDirs : v'.bgUsedDirsCount g =
    if isdir then wordOf32 (v.bgUsedDirsCount g + inuse) % v.super.countLimit else v.bgUsedDirsCount g
  unused : v'.bgItableUnused g = unusedAfter v g ino

def setInodeCounts (v : Volume) (g : Nat) (inuse : Int) (isdir : Bool) : Volume :=
  let v := v.bgFreeInodesCountSet g (wordOf32 (v.bgFreeInodesCount g - inuse))
  if isdir then v.bgUsedDirsCountSet g (wordOf32 (v.bgUsedDirsCount g + inuse)) else v

theorem setInodeCounts_only (h : Opened v.super v.groupDescCount) :
    OnlyDesc v (setInodeCounts v g inuse isdir) g := by
  have hset : OnlyDesc v (v.bgFreeInodesCountSet g (wordOf32 (v.bgFreeInodesCount g - inuse))) g :=
    OnlyDesc.bgCountSet h
  unfold setInodeCounts
  simp only
  split
  · exact hset.trans (OnlyDesc.bgCountSet (hset.super ▸ h))
  · exact hset

private theorem setInodeCounts_count {c : BgCount} (h1 : c ≠ .freeInodes) (h2 : c ≠ .usedDirs) :
    (setInodeCounts v g inuse isdir).bgCount c g = v.bgCount c g := by
  have hset : (v.bgFreeInodesCountSet g (wordOf32 (v.bgFreeInodesCount g - inuse))).bgCount c g = v.bgCount c g :=
    bgCount_bgCountSet_of_ne h1
  unfold setInodeCounts
  simp only
  split
  · exact (bgCount_bgCountSet_of_ne h2).trans hset
  · exact hset

private theorem setInodeCounts_freeInodes : (setInodeCounts v g inuse isdir).bgFreeInodesCount g =
    wordOf32 (v.bgFreeInodesCount g - inuse) % v.super.countLimit := by
  have hset : (v.bgFreeInodesCountSet g (wordOf32 (v.bgFreeInodesCount g - inuse))).bgFreeInodesCount g =
    wordOf32 (v.bgFreeInodesCount g - inuse) % v.super.countLimit := bgCount_bgCountSet_self (wordOf32_lt _)
  unfold setInodeCounts
  simp only
  split
  · exact (bgCount_bgCountSet_of_ne (by decide)).trans hset
  · exact hset

private theorem setInodeCounts_usedDirs : (setInodeCounts v g inuse isdir).bgUsedDirsCount g =
    if isdir then wordOf32 (v.bgUsedDirsCount g + inuse) % v.super.countLimit else v.bgUsedDirsCount g := by
  have hset : (v.bgFreeInodesCountSet g (wordOf32 (v.bgFreeInodesCount g - inuse))).bgUsedDirsCount g =
    v.bgUsedDirsCount g := bgCount_bgCountSet_of_ne (by decide)
  unfold setInodeCounts
  simp only
  rw [hset]
  split
  · exact bgCount_bgCountSet_self (wordOf32_lt _)
  · exact hset

private theorem inodeAllocStats_spec (crc : Crc) (inuse : Int) (isdir : Bool) (h : Mounted v) (h1 : 1 ≤ ino)
    (h2 : ino ≤ v.super.inodesCount) :
    ∃ v', v.inodeAllocStats crc ino inuse isdir = some v' ∧
      InodeStats v v' ino (v.super.groupOfInode ino) inuse isdir := by
  obtain ⟨hg, -⟩ := h.group_of_inode h1 h2
  unfold Volume.inodeAllocStats
  simp only
  rw [if_neg (by omega), if_neg (not_not.2 (h.opened.hasDesc hg))]
  generalize v.super.groupOfInode ino = g at hg
  generalize hbm : (if 0 < inuse then markBitmap v.inodeBitmap ino else unmarkBitmap v.inodeBitmap ino) = bm
  obtain ⟨v1, hv1⟩ : ∃ v1 : Volume, { v with inodeBitmap := bm } = v1 := ⟨_, rfl⟩
  have hopen : Opened v1.super v1.groupDescCount := hv1 ▸ h.opened
  have hset : OnlyDesc v1 (setInodeCounts v1 g inuse isdir) g := setInodeCounts_only hopen
  have hflags := hset.trans (OnlyDesc.clearFlags (hset.super ▸ hopen) 1)
  have hall := hflags.trans (itableStats_only crc ino (by rw [hflags.frame]; exact hopen))
  rw [hv1]
  change ∃ v', some ({ ((setInodeCounts v1 g inuse isdir).bgClearFlags g 1).itableStats crc g ino with
    super := { (((setInodeCounts v1 g inuse isdir).bgClearFlags g 1).itableStats crc g ino).super with
      freeInodesCount := wordOf32 ((((setInodeCounts v1 g inuse isdir).bgClearFlags g 1).itableStats
        crc g ino).super.freeInodesCount - inuse) }, ibDirty := true }) = some v' ∧ InodeStats v v' ino g inuse isdir
  generalize hw : ((setInodeCounts v1 g inuse isdir).bgClearFlags g 1).itableStats crc g ino = w at hall
  have hcount : ∀ c, c ≠ .itableUnused → w.bgCount c g = (setInodeCounts v1 g inuse isdir).bgCount c g := by
    intro c hc
    rw [← hw, itableStats_count hc, bgCount_bgClearFlags]
  have hunused : w.bgItableUnused g = unusedAfter v1 g ino := by
    have hsame : ((setInodeCounts v1 g inuse isdir).bgClearFlags g 1).bgItableUnused g = v1.bgItableUnused g :=
      (bgCount_bgClearFlags 1).trans (setInodeCounts_count (by decide) (by decide))
    rw [← hw, itableStats_unused]
    unfold unusedAfter
    rw [hsame, hflags.super]
  have helse : ∀ c, ∀ x < v.groupDescCount, x ≠ g → w.bgCount c x = v1.bgCount c x := fun c x hx hne =>
    hall.bgCount hopen (hv1 ▸ descAt_apart h.offsets hg hx hne.symm)
  obtain ⟨m, hm⟩ : ∃ m, w.groupDesc = m := ⟨_, rfl⟩
  have hframe := hall.frame
  rw [hm] at hframe
  subst hframe
  subst hv1
  refine ⟨_, rfl, rfl, rfl, rfl, hbm.symm, helse, ?_, ?_, ?_, hunused⟩
  · exact (hcount .freeBlocks (by decide)).trans (setInodeCounts_count (by decide) (by decide))
  · exact (hcount .freeInodes (by decide)).trans setInodeCounts_freeInodes
  · exact (hcount .usedDirs (by decide)).trans setInodeCounts_usedDirs

/-! ### The counts after a call -/

variable {dir : Nat → Bool}

private theorem Mounted.sum_blocks_enter (h : Mounted v) {p q : Nat → Prop} [DecidablePred p] [DecidablePred q]
    (h1 : v.super.firstDataBlock ≤ b) (h2 : b < v.super.blocksCount) (hp : ¬p b) (hpq : ∀ x, q x ↔ x = b ∨ p x) :
    ∑ g ∈ Finset.range v.groupDescCount, ((v.super.groupBlocks g).filter q).card =
      ∑ g ∈ Finset.range v.groupDescCount, ((v.super.groupBlocks g).filter p).card + 1 := by
  obtain ⟨hg, hiff⟩ := h.group_of_block h1 h2
  have hmem : v.super.groupOfBlock b ∈ Finset.range v.groupDescCount := Finset.mem_range.2 hg
  simp only [Counting.card_filter_enter hp hpq, hiff, Finset.sum_add_distrib, Finset.sum_ite_eq', hmem, ↓reduceIte]

private theorem Mounted.sum_inodes_enter (h : Mounted v) {p q : Nat → Prop} [DecidablePred p] [DecidablePred q]
    (h1 : 1 ≤ ino) (h2 : ino ≤ v.super.inodesCount) (hp : ¬p ino) (hpq : ∀ x, q x ↔ x = ino ∨ p x) :
    ∑ g ∈ Finset.range v.groupDescCount, ((v.super.groupInodes g).filter q).card =
      ∑ g ∈ Finset.range v.groupDescCount, ((v.super.groupInodes g).filter p).card + 1 := by
  obtain ⟨hg, hiff⟩ := h.group_of_inode h1 h2
  have hmem : v.super.groupOfInode ino ∈ Finset.range v.groupDescCount := Finset.mem_range.2 hg
  simp only [Counting.card_filter_enter hp hpq, hiff, Finset.sum_add_distrib, Finset.sum_ite_eq', hmem, ↓reduceIte]

private theorem freeBlocksCount_add {s : Super} {d : Int} {n : Nat} (h : s.freeBlocksCount + d = n)
    (hn : n < 2 ^ 63) (hn' : s.is64Bit = false → n < 2 ^ 32) : (s.freeBlocksCountAdd d).freeBlocksCount = n := by
  have hset : s.freeBlocksCountAdd d = s.freeBlocksCountSet n := by rw [Super.freeBlocksCountAdd, h]
  rw [hset]
  unfold Super.freeBlocksCount Super.freeBlocksCountSet
  simp only
  cases h64 : s.is64Bit with
  | false =>
    have := hn' h64
    simp only [Bool.false_eq_true, ↓reduceIte, Nat.or_zero]
    omega
  | true =>
    have hlo : ((n : Int) % 2 ^ 32).toNat < 2 ^ 32 := by omega
    simp only [↓reduceIte]
    rw [Nat.lor_comm, ← Nat.shiftLeft_add_eq_or_of_lt hlo, Nat.shiftLeft_eq]
    omega

theorem Super.Wf.freeBlocksCountAdd {s : Super} (h : s.Wf) (d : Int) : (s.freeBlocksCountAdd d).Wf := by
  have hhi : (s.freeBlocksCountAdd d).freeBlocksHi < 2 ^ 32 := by
    have hold := h.freeBlocksHi
    unfold Super.freeBlocksCountAdd Super.freeBlocksCountSet
    simp only
    split
    · omega
    · exact hold
  have hlo : (s.freeBlocksCountAdd d).freeBlocksLo < 2 ^ 32 := by
    unfold Super.freeBlocksCountAdd Super.freeBlocksCountSet
    simp only
    omega
  exact ⟨h.inodesCount, h.blocksCountLo, h.blocksCountHi, hlo, hhi, h.freeInodesCount, h.firstDataBlock,
    h.logBlockSize,
    h.logClusterSize, h.blocksPerGroup, h.clustersPerGroup, h.inodesPerGroup, h.inodeSizeField, h.descSizeField⟩

/-- Two superblocks of the same file system. -/
structure SameGeometry (s s' : Super) : Prop where
  frame : s' = { s with
    freeBlocksLo := s'.freeBlocksLo, freeBlocksHi := s'.freeBlocksHi, freeInodesCount := s'.freeInodesCount }

theorem SameGeometry.opened {s s' : Super} {n : Nat} (h : SameGeometry s s') (ho : Opened s n) : Opened s' n := by
  rw [h.frame]
  exact ⟨ho.descSize_le, ho.cluster, ho.inodes_pos, ho.blocks_pos, ho.perGroup, ho.blocks_le, ho.desc_pos,
    ho.count_lt, ho.first_lt, ho.groups, ho.groups_lt, ho.inodes⟩

theorem Mounted.blockStats (h : Mounted v) (hst : BlockStats v v' b g inuse) : Mounted v' := by
  have hsame : SameGeometry v.super v'.super := ⟨by rw [hst.super]; rfl⟩
  have hcov : v'.blockBitmap.Covers v.super.firstDataBlock (v.super.blocksCount - 1) := by
    rw [hst.blockBitmap]
    split
    · exact h.blocks.mark
    · exact h.blocks.unmark
  refine ⟨?_, ?_, ?_, ?_, ?_, ?_⟩
  · rw [hst.super]
    exact h.wf.freeBlocksCountAdd _
  · rw [hst.count]
    exact hsame.opened h.opened
  · rw [hst.super]
    exact h.ratio
  · rw [hst.super]
    exact hcov
  · rw [hst.super, hst.inodeBitmap]
    exact h.inodes
  · rw [hst.super, hst.count]
    exact h.offsets

theorem BlockStats.bgCount (hst : BlockStats v v' b g inuse) {c : BgCount} (hc : c ≠ .freeBlocks) {x : Nat}
    (hx : x < v.groupDescCount) : v'.bgCount c x = v.bgCount c x := by
  by_cases hxg : x = g
  · rw [hxg]
    exact hst.others c hc
  · exact hst.elsewhere c x hx hxg

private theorem Accounted.of_blockStats (ha : Accounted v dir) (hst : BlockStats v v' b g inuse)
    (hfree : ∀ x < v.groupDescCount,
      v'.bgFreeBlocksCount x = ((v.super.groupBlocks x).filter fun b => testBitmap v'.blockBitmap b = 0).card)
    (htotal : v'.super.freeBlocksCount = ∑ x ∈ Finset.range v.groupDescCount,
      ((v.super.groupBlocks x).filter fun b => testBitmap v'.blockBitmap b = 0).card) : Accounted v' dir := by
  have hblocks : v'.super.groupBlocks = v.super.groupBlocks := by rw [hst.super]; rfl
  have hinodes : v'.super.groupInodes = v.super.groupInodes := by rw [hst.super]; rfl
  have hcsum : v'.super.hasGroupDescChecksum = v.super.hasGroupDescChecksum := by rw [hst.super]; rfl
  have hper : v'.super.inodesPerGroup = v.super.inodesPerGroup := by rw [hst.super]; rfl
  have hfreeInodes : v'.super.freeInodesCount = v.super.freeInodesCount := by rw [hst.super]; rfl
  refine ⟨?_, ?_, ?_, ?_, ?_, ?_, ?_⟩
  · rw [hst.count, hblocks]
    exact hfree
  · rw [hst.count, hinodes, hst.inodeBitmap]
    exact fun x hx => (hst.bgCount (by decide) hx).trans (ha.freeInodes x hx)
  · rw [hst.count, hinodes, hst.inodeBitmap]
    exact fun x hx => (hst.bgCount (by decide) hx).trans (ha.usedDirs x hx)
  · rw [htotal, hst.count]
    exact Finset.sum_congr rfl fun x hx => (hfree x (Finset.mem_range.1 hx)).symm
  · rw [hfreeInodes, hst.count, ha.inodesTotal]
    exact Finset.sum_congr rfl fun x hx => (hst.bgCount (by decide) (Finset.mem_range.1 hx)).symm
  · rw [hcsum, hst.count, hper]
    intro hc x hx
    exact (hst.bgCount (by decide) hx).trans_le (ha.unused_le hc x hx)
  · rw [hcsum, hst.count, hinodes, hst.inodeBitmap, hper]
    intro hc x hx i hi hbit
    have hun : v'.bgItableUnused x = v.bgItableUnused x := hst.bgCount (by decide) hx
    rw [hun]
    exact ha.unused hc x hx i hi hbit

private theorem Mounted.blocksCount_lt (h : Mounted v) (h64 : v.super.is64Bit = false) :
    v.super.blocksCount < 2 ^ 32 := by
  have hlt := h.wf.blocksCountLo
  unfold Super.blocksCount
  simp only [h64, Bool.false_eq_true, ↓reduceIte, Nat.or_zero]
  exact hlt

private theorem Super.countLimit_le (s : Super) : s.countLimit ≤ 2 ^ 32 := by
  unfold Super.countLimit
  split
  · exact Nat.le_refl _
  · decide

private theorem wordOf32_mod {s : Super} {x : Int} {n : Nat} (h : x = n) (hn : n < s.countLimit) :
    wordOf32 x % s.countLimit = n := by
  have hle := s.countLimit_le
  rw [wordOf32_of_lt h (by omega), Nat.mod_eq_of_lt hn]

private theorem Accounted.allocBlock (h : Mounted v) (ha : Accounted v dir) (h1 : v.super.firstDataBlock ≤ b)
    (h2 : b < v.super.blocksCount) (hbit : testBitmap v.blockBitmap b = 0)
    (hst : BlockStats v v' b (v.super.groupOfBlock b) 1) : Accounted v' dir := by
  obtain ⟨-, hiff⟩ := h.group_of_block h1 h2
  have hmark : v'.blockBitmap = markBitmap v.blockBitmap b := hst.blockBitmap.trans (if_pos (by decide))
  have htest := h.blocks.test_mark h1 (show b ≤ v.super.blocksCount - 1 by omega)
  have hp : ¬testBitmap v'.blockBitmap b = 0 := by
    rw [hmark, htest]
    simp
  have hpq : ∀ x, testBitmap v.blockBitmap x = 0 ↔ x = b ∨ testBitmap v'.blockBitmap x = 0 := fun x => by
    rw [hmark, htest]
    by_cases hx : x = b
    · simp [hx, hbit]
    · simp [hx]
  refine ha.of_blockStats hst (fun x hx => ?_) ?_
  · have hold := ha.freeBlocks x hx
    rw [Counting.card_filter_enter (p := fun x => testBitmap v'.blockBitmap x = 0) hp hpq] at hold
    simp only [hiff] at hold
    by_cases hxg : x = v.super.groupOfBlock b
    · rw [if_pos hxg] at hold
      rw [← hxg] at hst
      rw [hst.freeBlocks]
      exact wordOf32_mod (by omega) (h.groupBlocks_card _)
    · rw [if_neg hxg] at hold
      exact (hst.elsewhere _ x hx hxg).trans hold
  · have hsum := h.sum_blocks_enter (p := fun x => testBitmap v'.blockBitmap x = 0) h1 h2 hp hpq
    have hle := h.sum_blocks_le fun x => testBitmap v'.blockBitmap x = 0
    have htotal := ha.blocksTotal
    rw [Finset.sum_congr rfl fun x hx => ha.freeBlocks x (Finset.mem_range.1 hx), hsum] at htotal
    have hcount := h.opened.count_lt
    rw [hst.super]
    refine freeBlocksCount_add (by omega) (by omega) fun h64 => ?_
    have := h.blocksCount_lt h64
    omega

theorem Accounted.freeBlock (h : Mounted v) (ha : Accounted v dir) (h1 : v.super.firstDataBlock ≤ b)
    (h2 : b < v.super.blocksCount) (hbit : testBitmap v.blockBitmap b ≠ 0)
    (hst : BlockStats v v' b (v.super.groupOfBlock b) (-1)) : Accounted v' dir := by
  obtain ⟨-, hiff⟩ := h.group_of_block h1 h2
  have hunmark : v'.blockBitmap = unmarkBitmap v.blockBitmap b := hst.blockBitmap.trans (if_neg (by decide))
  have hpq : ∀ x, testBitmap v'.blockBitmap x = 0 ↔ x = b ∨ testBitmap v.blockBitmap x = 0 := fun x => by
    rw [hunmark]
    exact h.blocks.test_unmark h1 (by omega) x
  refine ha.of_blockStats hst (fun x hx => ?_) ?_
  · have hold := ha.freeBlocks x hx
    have hcard := Counting.card_filter_enter (s := v.super.groupBlocks x)
      (p := fun x => testBitmap v.blockBitmap x = 0) hbit hpq
    simp only [hiff] at hcard
    by_cases hxg : x = v.super.groupOfBlock b
    · rw [if_pos hxg] at hcard
      rw [← hxg] at hst
      rw [hst.freeBlocks]
      exact wordOf32_mod (by omega) (h.groupBlocks_card _)
    · rw [if_neg hxg] at hcard
      rw [hcard]
      exact (hst.elsewhere _ x hx hxg).trans hold
  · have hsum := h.sum_blocks_enter (p := fun x => testBitmap v.blockBitmap x = 0) h1 h2 hbit hpq
    have hle := h.sum_blocks_le fun x => testBitmap v'.blockBitmap x = 0
    have htotal := ha.blocksTotal
    rw [Finset.sum_congr rfl fun x hx => ha.freeBlocks x (Finset.mem_range.1 hx)] at htotal
    have hcount := h.opened.count_lt
    rw [hst.super]
    refine freeBlocksCount_add (by omega) (by omega) fun h64 => ?_
    have := h.blocksCount_lt h64
    omega

/-- The new number of unused inodes is right for `ino` and for the inodes in use. -/
private theorem unusedAfter_spec (h : Mounted v) (ha : Accounted v dir) (hcsum : v.super.hasGroupDescChecksum = true)
    (h1 : 1 ≤ ino) (h2 : ino ≤ v.super.inodesCount) (hfits : UnusedFits v ino) :
    unusedAfter v (v.super.groupOfInode ino) ino ≤ v.super.inodesPerGroup ∧
    ∀ i ∈ v.super.groupInodes (v.super.groupOfInode ino), i = ino ∨ testBitmap v.inodeBitmap i ≠ 0 →
      i + unusedAfter v (v.super.groupOfInode ino) ino ≤
        v.super.groupOfInode ino * v.super.inodesPerGroup + v.super.inodesPerGroup := by
  obtain ⟨hg, hiff⟩ := h.group_of_inode h1 h2
  have hino := (hiff _).2 rfl
  have hfits := hfits hcsum
  generalize v.super.groupOfInode ino = g at hg hino hfits
  have hmax := Nat.mul_le_mul_right v.super.inodesPerGroup (Nat.succ_le_of_lt hg)
  rw [h.opened.inodes, Nat.succ_mul] at hmax
  have hwidth := h.wf.inodesCount
  have hle := ha.unused_le hcsum g hg
  have hold := ha.unused hcsum g hg
  rw [Super.groupInodes, Finset.mem_Ico] at hino
  have hcast : (g : Int) * v.super.inodesPerGroup = ((g * v.super.inodesPerGroup : Nat) : Int) := by
    rw [Nat.cast_mul]
  unfold unusedAfter
  simp only [hcsum, true_and, hcast]
  generalize g * v.super.inodesPerGroup = q at hmax hold hino hfits
  generalize v.bgItableUnused g = u at hle hold hfits
  have hafter := Nat.mod_le (wordOf32 ((q : Int) + v.super.inodesPerGroup - ino)) v.super.countLimit
  have hword : wordOf32 ((q : Int) + v.super.inodesPerGroup - ino) = q + v.super.inodesPerGroup - ino :=
    wordOf32_of_lt (by omega) (by omega)
  split
  · rename_i hfirst
    refine ⟨by omega, fun i hi hbit => ?_⟩
    have hle' : i ≤ ino := by
      rcases hbit with rfl | hbit
      · exact Nat.le_refl _
      · rcases hfits with hfits | hfits
        · have hunused : wordOf32 ((v.super.inodesPerGroup : Int) - u + q + 1) = q + v.super.inodesPerGroup - u + 1 :=
            wordOf32_of_lt (by omega) hfits
          have := hold i hi hbit
          omega
        · exact hfits i hi hbit
    omega
  · rename_i hfirst
    refine ⟨hle, fun i hi hbit => ?_⟩
    rcases hbit with rfl | hbit
    · unfold wordOf32 at hfirst
      omega
    · exact hold i hi hbit

theorem Mounted.inodeStats (h : Mounted v) (hst : InodeStats v v' ino g inuse isdir) : Mounted v' := by
  have hsame : SameGeometry v.super v'.super := ⟨by rw [hst.super]⟩
  have hcov : v'.inodeBitmap.Covers 1 v.super.inodesCount := by
    rw [hst.inodeBitmap]
    split
    · exact h.inodes.mark
    · exact h.inodes.unmark
  refine ⟨?_, ?_, ?_, ?_, ?_, ?_⟩
  · rw [hst.super]
    exact ⟨h.wf.inodesCount, h.wf.blocksCountLo, h.wf.blocksCountHi, h.wf.freeBlocksLo, h.wf.freeBlocksHi,
      wordOf32_lt _, h.wf.firstDataBlock, h.wf.logBlockSize, h.wf.logClusterSize, h.wf.blocksPerGroup,
      h.wf.clustersPerGroup, h.wf.inodesPerGroup, h.wf.inodeSizeField, h.wf.descSizeField⟩
  · rw [hst.count]
    exact hsame.opened h.opened
  · rw [hst.super]
    exact h.ratio
  · rw [hst.super, hst.blockBitmap]
    exact h.blocks
  · rw [hst.super]
    exact hcov
  · rw [hst.super, hst.count]
    exact h.offsets

private theorem Accounted.of_inodeStats (h : Mounted v) (ha : Accounted v dir) (h1 : 1 ≤ ino)
    (h2 : ino ≤ v.super.inodesCount)
    (hst : InodeStats v v' ino (v.super.groupOfInode ino) inuse isdir) (hfits : UnusedFits v ino) {dir' : Nat → Bool}
    (hused : ∀ x, testBitmap v'.inodeBitmap x ≠ 0 → x = ino ∨ testBitmap v.inodeBitmap x ≠ 0)
    (hfree : ∀ x < v.groupDescCount,
      v'.bgFreeInodesCount x = ((v.super.groupInodes x).filter fun i => testBitmap v'.inodeBitmap i = 0).card)
    (hdirs : ∀ x < v.groupDescCount, v'.bgUsedDirsCount x =
      ((v.super.groupInodes x).filter fun i => testBitmap v'.inodeBitmap i ≠ 0 ∧ dir' i = true).card)
    (htotal : v'.super.freeInodesCount = ∑ x ∈ Finset.range v.groupDescCount,
      ((v.super.groupInodes x).filter fun i => testBitmap v'.inodeBitmap i = 0).card) : Accounted v' dir' := by
  have hblocks : v'.super.groupBlocks = v.super.groupBlocks := by rw [hst.super]; rfl
  have hinodes : v'.super.groupInodes = v.super.groupInodes := by rw [hst.super]; rfl
  have hcsum : v'.super.hasGroupDescChecksum = v.super.hasGroupDescChecksum := by rw [hst.super]; rfl
  have hper : v'.super.inodesPerGroup = v.super.inodesPerGroup := by rw [hst.super]
  have hfreeBlocks : v'.super.freeBlocksCount = v.super.freeBlocksCount := by rw [hst.super]; rfl
  have hsame : ∀ x < v.groupDescCount, v'.bgFreeBlocksCount x = v.bgFreeBlocksCount x := by
    intro x hx
    by_cases hxg : x = v.super.groupOfInode ino
    · rw [hxg]
      exact hst.freeBlocks
    · exact hst.elsewhere _ x hx hxg
  refine ⟨?_, ?_, ?_, ?_, ?_, ?_, ?_⟩
  · rw [hst.count, hblocks, hst.blockBitmap]
    exact fun x hx => (hsame x hx).trans (ha.freeBlocks x hx)
  · rw [hst.count, hinodes]
    exact hfree
  · rw [hst.count, hinodes]
    exact hdirs
  · rw [hfreeBlocks, hst.count, ha.blocksTotal]
    exact Finset.sum_congr rfl fun x hx => (hsame x (Finset.mem_range.1 hx)).symm
  · rw [htotal, hst.count]
    exact Finset.sum_congr rfl fun x hx => (hfree x (Finset.mem_range.1 hx)).symm
  · rw [hcsum, hst.count, hper]
    intro hc x hx
    by_cases hxg : x = v.super.groupOfInode ino
    · rw [hxg, hst.unused]
      exact (unusedAfter_spec h ha hc h1 h2 hfits).1
    · exact (hst.elsewhere _ x hx hxg).trans_le (ha.unused_le hc x hx)
  · rw [hcsum, hst.count, hinodes, hper]
    intro hc x hx i hi hbit
    by_cases hxg : x = v.super.groupOfInode ino
    · subst hxg
      rw [hst.unused]
      exact (unusedAfter_spec h ha hc h1 h2 hfits).2 i hi (hused i hbit)
    · have hun : v'.bgItableUnused x = v.bgItableUnused x := hst.elsewhere _ x hx hxg
      rw [hun]
      refine ha.unused hc x hx i hi ?_
      rcases hused i hbit with rfl | hbit
      · exact absurd (((h.group_of_inode h1 h2).2 x).1 hi) hxg
      · exact hbit

private theorem Accounted.allocInode (h : Mounted v) (ha : Accounted v dir) (h1 : 1 ≤ ino)
    (h2 : ino ≤ v.super.inodesCount) (hbit : testBitmap v.inodeBitmap ino = 0) (hfits : UnusedFits v ino)
    (hlimit : isdir = true → v.bgUsedDirsCount (v.super.groupOfInode ino) + 1 < v.super.countLimit)
    (hst : InodeStats v v' ino (v.super.groupOfInode ino) 1 isdir) :
    Accounted v' (Function.update dir ino isdir) := by
  obtain ⟨-, hiff⟩ := h.group_of_inode h1 h2
  have hmark : v'.inodeBitmap = markBitmap v.inodeBitmap ino := hst.inodeBitmap.trans (if_pos (by decide))
  have htest : ∀ x, testBitmap v'.inodeBitmap x = 0 ↔ x ≠ ino ∧ testBitmap v.inodeBitmap x = 0 := by
    rw [hmark]
    exact h.inodes.test_mark h1 h2
  have hp : ¬testBitmap v'.inodeBitmap ino = 0 := by simp [htest]
  have hpq : ∀ x, testBitmap v.inodeBitmap x = 0 ↔ x = ino ∨ testBitmap v'.inodeBitmap x = 0 := fun x => by
    by_cases hx : x = ino
    · simp [hx, hbit]
    · simp [htest, hx]
  refine ha.of_inodeStats h h1 h2 hst hfits (fun x hx => ?_) (fun x hx => ?_) (fun x hx => ?_) ?_
  · by_cases hxi : x = ino
    · exact Or.inl hxi
    · exact Or.inr fun h0 => hx ((htest x).2 ⟨hxi, h0⟩)
  · -- the free inodes of the groups
    have hold := ha.freeInodes x hx
    rw [Counting.card_filter_enter (p := fun x => testBitmap v'.inodeBitmap x = 0) hp hpq] at hold
    simp only [hiff] at hold
    by_cases hxg : x = v.super.groupOfInode ino
    · rw [if_pos hxg] at hold
      rw [← hxg] at hst
      rw [hst.freeInodes]
      have hlt : v.bgFreeInodesCount x < v.super.countLimit := bgCount_lt
      exact wordOf32_mod (by omega) (by omega)
    · rw [if_neg hxg] at hold
      exact (hst.elsewhere _ x hx hxg).trans hold
  · -- the directories of the groups
    have hold := ha.usedDirs x hx
    cases isdir with
    | false =>
      have hsame : ∀ i, (testBitmap v'.inodeBitmap i ≠ 0 ∧ Function.update dir ino false i = true) ↔
          (testBitmap v.inodeBitmap i ≠ 0 ∧ dir i = true) := fun i => by
        by_cases hi : i = ino
        · simp [hi, hbit]
        · simp [htest, hi]
      simp only [hsame]
      rw [← hold]
      by_cases hxg : x = v.super.groupOfInode ino
      · rw [hxg, hst.usedDirs]
        rfl
      · exact hst.elsewhere _ x hx hxg
    | true =>
      have henter : ∀ i, (testBitmap v'.inodeBitmap i ≠ 0 ∧ Function.update dir ino true i = true) ↔
          i = ino ∨ (testBitmap v.inodeBitmap i ≠ 0 ∧ dir i = true) := fun i => by
        by_cases hi : i = ino
        · simp [hi, hp]
        · simp [htest, hi]
      have hcard := Counting.card_filter_enter (s := v.super.groupInodes x)
        (p := fun i => testBitmap v.inodeBitmap i ≠ 0 ∧ dir i = true) (a := ino) (by simp [hbit]) henter
      simp only [hiff] at hcard
      rw [hcard]
      by_cases hxg : x = v.super.groupOfInode ino
      · rw [if_pos hxg, ← hold]
        rw [← hxg] at hst hlimit
        rw [hst.usedDirs]
        exact wordOf32_mod rfl (hlimit rfl)
      · rw [if_neg hxg]
        exact (hst.elsewhere _ x hx hxg).trans hold
  · -- the sum of all free inodes
    have hsum := h.sum_inodes_enter (p := fun x => testBitmap v'.inodeBitmap x = 0) h1 h2 hp hpq
    have hle := h.sum_inodes_le fun x => testBitmap v'.inodeBitmap x = 0
    have htotal := ha.inodesTotal
    rw [Finset.sum_congr rfl fun x hx => ha.freeInodes x (Finset.mem_range.1 hx), hsum] at htotal
    have hwidth := h.wf.inodesCount
    rw [hst.super]
    simp only
    exact wordOf32_of_lt (by omega) (by omega)

private theorem Accounted.freeInode (h : Mounted v) (ha : Accounted v dir) (h1 : 1 ≤ ino)
    (h2 : ino ≤ v.super.inodesCount) (hbit : testBitmap v.inodeBitmap ino ≠ 0) (hfits : UnusedFits v ino)
    (hlimit : v.bgFreeInodesCount (v.super.groupOfInode ino) + 1 < v.super.countLimit)
    (hst : InodeStats v v' ino (v.super.groupOfInode ino) (-1) (dir ino)) : Accounted v' dir := by
  obtain ⟨-, hiff⟩ := h.group_of_inode h1 h2
  have hunmark : v'.inodeBitmap = unmarkBitmap v.inodeBitmap ino := hst.inodeBitmap.trans (if_neg (by decide))
  have hpq : ∀ x, testBitmap v'.inodeBitmap x = 0 ↔ x = ino ∨ testBitmap v.inodeBitmap x = 0 := fun x => by
    rw [hunmark]
    exact h.inodes.test_unmark h1 h2 x
  refine ha.of_inodeStats h h1 h2 hst hfits (fun x hx => ?_) (fun x hx => ?_) (fun x hx => ?_) ?_
  · exact Or.inr fun h0 => hx ((hpq x).2 (Or.inr h0))
  · have hold := ha.freeInodes x hx
    have hcard := Counting.card_filter_enter (s := v.super.groupInodes x)
      (p := fun x => testBitmap v.inodeBitmap x = 0) hbit hpq
    simp only [hiff] at hcard
    by_cases hxg : x = v.super.groupOfInode ino
    · rw [if_pos hxg] at hcard
      rw [← hxg] at hst hlimit
      rw [hst.freeInodes]
      exact wordOf32_mod (by omega) (by omega)
    · rw [if_neg hxg] at hcard
      rw [hcard]
      exact (hst.elsewhere _ x hx hxg).trans hold
  · have hold := ha.usedDirs x hx
    by_cases hdir : dir ino = true
    · have henter : ∀ i, (testBitmap v.inodeBitmap i ≠ 0 ∧ dir i = true) ↔
          i = ino ∨ (testBitmap v'.inodeBitmap i ≠ 0 ∧ dir i = true) := fun i => by
        by_cases hi : i = ino
        · simp [hi, hbit, hdir]
        · simp [hpq, hi]
      rw [Counting.card_filter_enter (p := fun i => testBitmap v'.inodeBitmap i ≠ 0 ∧ dir i = true) (a := ino)
        (by simp [hpq]) henter] at hold
      simp only [hiff] at hold
      by_cases hxg : x = v.super.groupOfInode ino
      · rw [if_pos hxg] at hold
        rw [← hxg] at hst
        rw [hst.usedDirs, if_pos hdir]
        have hlt : v.bgUsedDirsCount x < v.super.countLimit := bgCount_lt
        exact wordOf32_mod (by omega) (by omega)
      · rw [if_neg hxg] at hold
        exact (hst.elsewhere _ x hx hxg).trans hold
    · have hsame : ∀ i, (testBitmap v'.inodeBitmap i ≠ 0 ∧ dir i = true) ↔
          (testBitmap v.inodeBitmap i ≠ 0 ∧ dir i = true) := fun i => by
        by_cases hi : i = ino
        · simp [hi, hdir]
        · simp [hpq, hi]
      simp only [hsame]
      rw [← hold]
      by_cases hxg : x = v.super.groupOfInode ino
      · rw [hxg, hst.usedDirs, if_neg hdir]
      · exact hst.elsewhere _ x hx hxg
  · have hsum := h.sum_inodes_enter (p := fun x => testBitmap v.inodeBitmap x = 0) h1 h2 hbit hpq
    have hle := h.sum_inodes_le fun x => testBitmap v'.inodeBitmap x = 0
    have htotal := ha.inodesTotal
    rw [Finset.sum_congr rfl fun x hx => ha.freeInodes x (Finset.mem_range.1 hx)] at htotal
    have hwidth := h.wf.inodesCount
    rw [hst.super]
    simp only
    exact wordOf32_of_lt (by omega) (by omega)

/-! ### All calls -/

private theorem clearBlockUninit_spec (crc : Crc) (h : Mounted v) (ha : Accounted v dir) (g : Nat) :
    Mounted (v.clearBlockUninit crc g) ∧ Accounted (v.clearBlockUninit crc g) dir ∧
    (v.clearBlockUninit crc g).super = v.super ∧ (v.clearBlockUninit crc g).blockBitmap = v.blockBitmap := by
  unfold Volume.clearBlockUninit
  split
  · exact ⟨h, ha, rfl, rfl⟩
  · rename_i hcond
    have hflags : OnlyDesc v (v.bgClearFlags g 2) g := OnlyDesc.clearFlags h.opened 2
    have hall := hflags.trans (OnlyDesc.checksum (hflags.super ▸ h.opened) crc)
    generalize hw : Volume.groupDescChecksumUpdate crc (v.bgClearFlags g 2) g = w at hall
    have hcount : ∀ c, ∀ x < v.groupDescCount, w.bgCount c x = v.bgCount c x := fun c x hx => by
      by_cases hxg : x = g
      · rw [hxg, ← hw, bgCount_groupDescChecksumUpdate, bgCount_bgClearFlags]
      · exact hall.bgCount h.opened (descAt_apart h.offsets (by omega) hx (Ne.symm hxg))
    obtain ⟨m, hm⟩ : ∃ m, w.groupDesc = m := ⟨_, rfl⟩
    have hframe := hall.frame
    rw [hm] at hframe
    subst hframe
    refine ⟨⟨h.wf, h.opened, h.ratio, h.blocks, h.inodes, h.offsets⟩, ⟨?_, ?_, ?_, ?_, ?_, ?_, ?_⟩, rfl, rfl⟩
    · exact fun x hx => (hcount .freeBlocks x hx).trans (ha.freeBlocks x hx)
    · exact fun x hx => (hcount .freeInodes x hx).trans (ha.freeInodes x hx)
    · exact fun x hx => (hcount .usedDirs x hx).trans (ha.usedDirs x hx)
    · exact ha.blocksTotal.trans
        (Finset.sum_congr rfl fun x hx => (hcount .freeBlocks x (Finset.mem_range.1 hx)).symm)
    · exact ha.inodesTotal.trans
        (Finset.sum_congr rfl fun x hx => (hcount .freeInodes x (Finset.mem_range.1 hx)).symm)
    · exact fun hc x hx => (hcount .itableUnused x hx).trans_le (ha.unused_le hc x hx)
    · intro hc x hx i hi hbit
      have hun := hcount .itableUnused x hx
      have hold := ha.unused hc x hx i hi hbit
      exact (congrArg (i + ·) hun).trans_le hold

private theorem newBlock_found (h : Mounted v) {goal : Nat} {w : Volume} (hnew : v.newBlock crc goal = .ok (w, b)) :
    w = v.clearBlockUninit crc (v.super.groupOfBlock b) ∧ v.super.firstDataBlock ≤ b ∧ b < v.super.blocksCount ∧
    testBitmap v.blockBitmap b = 0 := by
  have hfirst := h.opened.first_lt
  unfold Volume.newBlock at hnew
  simp only at hnew
  generalize (if goal = 0 ∨ v.super.blocksCount ≤ goal then alignDown goal (2 ^ v.super.clusterRatioBits)
    else goal) = goal' at hnew
  have hcover : ∀ first stop i, findFirstZero v.blockBitmap first stop = .ok i →
      v.super.firstDataBlock ≤ i ∧ i < v.super.blocksCount ∧ testBitmap v.blockBitmap i = 0 :=
      fun first stop i hi => by
    obtain ⟨h1, h2, h3, h4, h5⟩ := h.blocks.found hi
    exact ⟨by omega, by omega, h5⟩
  have hmap : ∀ {r : Except Errno Nat}, (r.map fun b => (v.clearBlockUninit crc (v.super.groupOfBlock b), b)) =
      .ok (w, b) → r = .ok b ∧ w = v.clearBlockUninit crc (v.super.groupOfBlock b) := fun {r} hr => by
    cases r with
    | error e => cases hr
    | ok i =>
      cases hr
      exact ⟨rfl, rfl⟩
  obtain ⟨hr, hw⟩ := hmap hnew
  refine ⟨hw, ?_⟩
  split at hr
  · split at hr
    · exact hcover _ _ b hr
    · cases hr
  · exact hcover _ _ b hr

/-- A call that keeps the counts is defined and leaves a consistent file system. -/
private theorem allocStep_keeps {s : AllocState} {op : AllocOp} (h : Mounted s.1 ∧ Accounted s.1 s.2)
    (hallow : Allowed s op) (hkeep : KeepsCounts s op) :
    ∃ s', allocStep crc s op = some s' ∧ Mounted s'.1 ∧ Accounted s'.1 s'.2 := by
  obtain ⟨v, dir⟩ := s
  obtain ⟨hm, ha⟩ := h
  simp only at hm ha
  cases op with
  | allocBlock goal io =>
    simp only [allocStep, Volume.allocBlock]
    cases hnew : v.newBlock crc goal with
    | error e => exact ⟨_, rfl, hm, ha⟩
    | ok r =>
      obtain ⟨w, b⟩ := r
      obtain ⟨rfl, h1, h2, hbit⟩ := newBlock_found hm hnew
      obtain ⟨hm', ha', hsuper, hbm⟩ := clearBlockUninit_spec crc hm ha (v.super.groupOfBlock b)
      generalize v.clearBlockUninit crc (v.super.groupOfBlock b) = w at hm' ha' hsuper hbm
      cases io with
      | false => exact ⟨_, rfl, hm', ha'⟩
      | true =>
        rw [← hsuper] at h1 h2
        rw [← hbm] at hbit
        obtain ⟨v', hv', hst⟩ := blockAllocStats_spec crc 1 hm' h1 h2
        simp only [↓reduceIte, hv', Option.map_some]
        exact ⟨_, rfl, hm'.blockStats hst, ha'.allocBlock hm' h1 h2 hbit hst⟩
  | freeBlock block =>
    obtain ⟨-, hallow⟩ := hallow
    obtain ⟨h1, hne⟩ := hkeep
    simp only at hallow h1 hne
    by_cases hlt : v.super.blocksCount < block
    · have hsame : v.blockAllocStats crc block (-1) = some v := by
        unfold Volume.blockAllocStats
        simp only
        rw [if_pos hlt]
      simp only [allocStep, hsame, Option.map_some]
      exact ⟨_, rfl, hm, ha⟩
    · have h2 : block < v.super.blocksCount := by omega
      obtain ⟨v', hv', hst⟩ := blockAllocStats_spec crc (-1) hm h1 h2
      simp only [allocStep, hv', Option.map_some]
      exact ⟨_, rfl, hm.blockStats hst, ha.freeBlock hm h1 h2 (by omega) hst⟩
  | allocInode ino isdir =>
    obtain ⟨h1, h2, hbit⟩ := hallow
    obtain ⟨hfits, hlimit⟩ := hkeep
    obtain ⟨v', hv', hst⟩ := inodeAllocStats_spec crc 1 isdir hm h1 h2
    simp only [allocStep, hv', Option.map_some]
    exact ⟨_, rfl, hm.inodeStats hst, ha.allocInode hm h1 h2 hbit hfits hlimit hst⟩
  | freeInode ino =>
    obtain ⟨h1, h2, hbit⟩ := hallow
    obtain ⟨hfits, hlimit⟩ := hkeep
    obtain ⟨v', hv', hst⟩ := inodeAllocStats_spec crc (-1) (dir ino) hm h1 h2
    simp only [allocStep, hv', Option.map_some]
    exact ⟨_, rfl, hm.inodeStats hst, ha.freeInode hm h1 h2 hbit hfits hlimit hst⟩

end

/-- In every run of calls that keep the counts, the counts of every state agree with the bitmaps. -/
theorem counts_agree (crc : Crc) {s : AllocState} (hmount : Mounted s.1) (hacc : Accounted s.1 s.2)
    {ops : List AllocOp} (hops : Machine.Meets (allocStep crc) (fun s op => Allowed s op ∧ KeepsCounts s op) ops s) :
    ∀ p, p <+: ops → ∃ s', Machine.run (allocStep crc) p s = some s' ∧ Accounted s'.1 s'.2 := by
  intro p hp
  obtain ⟨s', hrun, -, hacc'⟩ := hops.reaches (P := fun s => Mounted s.1 ∧ Accounted s.1 s.2)
    (fun s op h hC => allocStep_keeps h hC.1 hC.2) ⟨hmount, hacc⟩ p hp
  exact ⟨s', hrun, hacc'⟩

/-- A file system of one group, with the blocks 1 to 4 and the inodes 1 to 8; block 1 is in use. -/
def smallVolume : Volume where
  super :=
    ⟨8, 5, 0, 3, 0, 8, 1, 0, 0, 8, 8, 8, true, 0, 0, [], false, false, false, false, false, false, 0, 0, (0, 0)⟩
  groupDescCount := 1
  checksumSeed := 0
  groupDesc := writeLE (writeLE (fun _ => 0) 12 2 3) 14 2 8
  blockBitmap := .narrow ⟨1, 4, 8, fun x => if x = 0 then 1 else 0⟩
  inodeBitmap := .narrow ⟨1, 8, 8, fun _ => 0⟩
  readOnly := false
  flag64 := false
  bbDirty := false
  ibDirty := false

theorem smallVolume_mounted : Mounted smallVolume where
  wf := by constructor <;> decide
  opened := openfs_ok (by decide)
  ratio := rfl
  blocks := ⟨rfl, rfl, by decide⟩
  inodes := ⟨rfl, rfl, by decide⟩
  offsets := by decide

private theorem smallVolume_accounted : Accounted smallVolume fun _ => false where
  freeBlocks := by decide
  freeInodes := by decide
  usedDirs := by decide
  blocksTotal := by decide
  inodesTotal := by decide
  unused_le := fun h => by cases h
  unused := fun h => by cases h

def zeroCrc : Crc := ⟨fun _ _ => 0, fun _ _ => 0⟩

/-- The block in use is freed, a directory is made, and a block is allocated. -/
theorem counts_agree_small : ∃ s', Machine.run (allocStep zeroCrc)
    [.freeBlock 1, .allocInode 1 true, .allocBlock 1 true] (smallVolume, fun _ => false) = some s' ∧
    Accounted s'.1 s'.2 := by
  have hops : Machine.Meets (allocStep zeroCrc) (fun s op => Allowed s op ∧ KeepsCounts s op)
      [.freeBlock 1, .allocInode 1 true, .allocBlock 1 true] (smallVolume, fun _ => false) := by
    refine ⟨⟨⟨by decide, by decide⟩, by decide, by decide⟩, fun s1 h1 => ?_⟩
    cases h1
    refine ⟨⟨⟨by decide, by decide, by decide⟩, (fun h => by cases h), by decide⟩, fun s2 _ => ?_⟩
    exact ⟨⟨show 1 < 2 ^ 64 by decide, trivial⟩, fun _ _ => trivial⟩
  exact counts_agree zeroCrc smallVolume_mounted smallVolume_accounted hops _ (List.prefix_refl _)

/-- The block number after the last block has no bit, but freeing it counts one more free block. -/
theorem not_counts_agree : Mounted smallVolume ∧ Accounted smallVolume (fun _ => false) ∧
    Allowed (smallVolume, fun _ => false) (.freeBlock 5) ∧
    ∃ s', allocStep zeroCrc (smallVolume, fun _ => false) (.freeBlock 5) = some s' ∧ ¬Accounted s'.1 s'.2 := by
  refine ⟨smallVolume_mounted, smallVolume_accounted, ⟨by decide, by decide⟩, _, rfl, fun h => ?_⟩
  exact absurd (h.freeBlocks 0 (by decide)) (by decide)

end Pml.Ext2
