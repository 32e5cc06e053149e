import Pml.Ext2.Bitmap

/-!
# Superblock and group descriptors (`drivers/fs/ext2/super.c`, `drivers/fs/ext2/util.c`, `drivers/fs/ext2/checksum.c`)

The descriptors of the block groups are one array of bytes.  `ext2_group_desc` gives the address of a descriptor, and
computes its offset with 32 bits.  The counts of a descriptor have 16 bits, and 16 more with the 64BIT feature.

The checksum of a descriptor is stored in the descriptor.  The two checksum functions are parameters.
-/

namespace Pml.Ext2

open ByteMemory

/-- The fields of `struct ext2_super` that the modelled functions use, with one Boolean for each feature. -/
structure Super where
  inodesCount : Nat
  blocksCountLo : Nat
  blocksCountHi : Nat
  freeBlocksLo : Nat
  freeBlocksHi : Nat
  freeInodesCount : Nat
  firstDataBlock : Nat
  logBlockSize : Nat
  logClusterSize : Nat
  blocksPerGroup : Nat
  clustersPerGroup : Nat
  inodesPerGroup : Nat
  oldRev : Bool
  inodeSizeField : Nat
  descSizeField : Nat
  uuid : List UInt8
  is64Bit : Bool
  bigalloc : Bool
  gdtCsum : Bool
  metadataCsum : Bool
  metaBg : Bool
  sparseSuper : Bool
  firstMetaBg : Nat
  reservedGdtBlocks : Nat
  backupBgs : Nat × Nat
  deriving DecidableEq

namespace Super

/-- `EXT2_BLOCK_SIZE` -/
def blksize (s : Super) : Nat := 1024 <<< s.logBlockSize

def inodeSize (s : Super) : Nat := if s.oldRev then 128 else s.inodeSizeField

def descSize (s : Super) : Nat := if s.is64Bit then s.descSizeField else 32

def descPerBlock (s : Super) : Nat := s.blksize / s.descSize

def clusterRatioBits (s : Super) : Nat := s.logClusterSize - s.logBlockSize

def blocksCount (s : Super) : Nat := s.blocksCountLo ||| if s.is64Bit then s.blocksCountHi <<< 32 else 0

def inodeBlocksPerGroup (s : Super) : Nat := (s.inodesPerGroup * s.inodeSize + s.blksize - 1) / s.blksize % 2 ^ 32

def freeBlocksCount (s : Super) : Nat := s.freeBlocksLo ||| if s.is64Bit then s.freeBlocksHi <<< 32 else 0

def freeBlocksCountSet (s : Super) (blocks : Int) : Super :=
  { s with
    freeBlocksLo := (blocks % 2 ^ 32).toNat
    freeBlocksHi := if s.is64Bit then (blocks / 2 ^ 32 % 2 ^ 32).toNat else s.freeBlocksHi }

def freeBlocksCountAdd (s : Super) (blocks : Int) : Super := s.freeBlocksCountSet (s.freeBlocksCount + blocks)

def hasGroupDescChecksum (s : Super) : Bool := s.gdtCsum || s.metadataCsum

/-- The widths of the fields. -/
structure Wf (s : Super) : Prop where
  inodesCount : s.inodesCount < 2 ^ 32
  blocksCountLo : s.blocksCountLo < 2 ^ 32
  blocksCountHi : s.blocksCountHi < 2 ^ 32
  freeBlocksLo : s.freeBlocksLo < 2 ^ 32
  freeBlocksHi : s.freeBlocksHi < 2 ^ 32
  freeInodesCount : s.freeInodesCount < 2 ^ 32
  firstDataBlock : s.firstDataBlock < 2 ^ 32
  logBlockSize : s.logBlockSize < 2 ^ 32
  logClusterSize : s.logClusterSize < 2 ^ 32
  blocksPerGroup : s.blocksPerGroup < 2 ^ 32
  clustersPerGroup : s.clustersPerGroup < 2 ^ 32
  inodesPerGroup : s.inodesPerGroup < 2 ^ 32
  inodeSizeField : s.inodeSizeField < 2 ^ 16
  descSizeField : s.descSizeField < 2 ^ 16

end Super

/-- The checks of `ext2_openfs` on the sizes and counts, which give the number of groups; undefined if a shift or a
product of `int` values overflows.  The checks of the magic number, of the revision, of the superblock's checksum and
of the supported features come before them. -/
def openfs (s : Super) : Option (Except Errno Nat) :=
  if 6 < s.logBlockSize then some (.error .EUCLEAN)
  else if s.bigalloc ∧ s.logBlockSize ≠ s.logClusterSize then some (.error .EUCLEAN)
  else if s.inodeSize < 128 ∨ s.blksize < s.inodeSize ∨ ¬isP2 s.inodeSize then some (.error .EUCLEAN)
  else if s.is64Bit ∧ s.descSizeField < 64 then some (.error .EUCLEAN)
  else if s.logClusterSize < s.logBlockSize ∨ 32 ≤ s.clusterRatioBits then none
  else if s.blocksPerGroup ≠ (s.clustersPerGroup <<< s.clusterRatioBits) % 2 ^ 32 then some (.error .EUCLEAN)
  else if s.inodesPerGroup = 0 ∨ s.blocksPerGroup = 0 then some (.error .EUCLEAN)
  else if 21 ≤ s.logClusterSize ∨ 16 ≤ s.clusterRatioBits then none
  else
    if 65528 * 2 ^ s.clusterRatioBits < s.blocksPerGroup ∨ 65536 - s.blksize / s.inodeSize ≤ s.inodeBlocksPerGroup ∨
      s.descPerBlock = 0 ∨ 2 ^ 63 ≤ s.blocksCount ∨ s.blocksCount ≤ s.firstDataBlock then some (.error .EUCLEAN)
    else
      let ngroups := (s.blocksCount - s.firstDataBlock - 1) / s.blocksPerGroup + 1
      if 2 ^ 32 ≤ ngroups then some (.error .EUCLEAN)
      else if ngroups * s.inodesPerGroup ≠ s.inodesCount then some (.error .EUCLEAN)
      else some (.ok ngroups)

/-! ### Descriptors -/

/-- The fields of `struct ext2_fs` that the modelled functions use, with one Boolean for each flag. -/
structure Volume where
  super : Super
  groupDescCount : Nat
  checksumSeed : UInt32
  groupDesc : Mem
  blockBitmap : Bitmap
  inodeBitmap : Bitmap
  readOnly : Bool
  flag64 : Bool
  bbDirty : Bool
  ibDirty : Bool

/-- `crc32` and `crc16`: a seed and the bytes give the checksum. -/
structure Crc where
  crc32 : UInt32 → List UInt8 → UInt32
  crc16 : UInt16 → List UInt8 → UInt16

/-- The counts of a descriptor. -/
inductive BgCount
  | freeBlocks
  | freeInodes
  | usedDirs
  | itableUnused
  deriving DecidableEq

def BgCount.lo : BgCount → Nat
  | .freeBlocks => 12
  | .freeInodes => 14
  | .usedDirs => 16
  | .itableUnused => 28

def BgCount.hi : BgCount → Nat
  | .freeBlocks => 44
  | .freeInodes => 46
  | .usedDirs => 48
  | .itableUnused => 50

def bytesLE (n v : Nat) : List UInt8 := copyOut (writeLE (fun _ => 0) 0 n v) 0 n

namespace Volume

def descBlocks (v : Volume) : Nat := (v.groupDescCount - 1) / v.super.descPerBlock + 1

def descBytes (v : Volume) : Nat := v.descBlocks * v.super.blksize

/-- `ext2_group_desc`: the offset of a descriptor in the array. -/
def descAt (v : Volume) (group : Nat) : Nat := group * v.super.descSize % 2 ^ 32

/-- `ext2_group_desc` does not return a null pointer, and the descriptor is inside of the array. -/
def HasDesc (v : Volume) (group : Nat) : Prop :=
  group ≤ v.groupDescCount ∧ v.descAt group + v.super.descSize ≤ v.descBytes

instance (v : Volume) (group : Nat) : Decidable (v.HasDesc group) := inferInstanceAs (Decidable (_ ∧ _))

def bgCount (v : Volume) (c : BgCount) (group : Nat) : Nat :=
  readLE v.groupDesc (v.descAt group + c.lo) 2 |||
    if v.super.is64Bit then readLE v.groupDesc (v.descAt group + c.hi) 2 <<< 16 else 0

def bgCountSet (v : Volume) (c : BgCount) (group n : Nat) : Volume :=
  let m := writeLE v.groupDesc (v.descAt group + c.lo) 2 n
  { v with groupDesc := if v.super.is64Bit then writeLE m (v.descAt group + c.hi) 2 (n >>> 16) else m }

def bgFreeBlocksCount (v : Volume) (group : Nat) : Nat := v.bgCount .freeBlocks group

def bgFreeBlocksCountSet (v : Volume) (group n : Nat) : Volume := v.bgCountSet .freeBlocks group n

def bgFreeInodesCount (v : Volume) (group : Nat) : Nat := v.bgCount .freeInodes group

def bgFreeInodesCountSet (v : Volume) (group n : Nat) : Volume := v.bgCountSet .freeInodes group n

def bgUsedDirsCount (v : Volume) (group : Nat) : Nat := v.bgCount .usedDirs group

def bgUsedDirsCountSet (v : Volume) (group n : Nat) : Volume := v.bgCountSet .usedDirs group n

def bgItableUnused (v : Volume) (group : Nat) : Nat := v.bgCount .itableUnused group

def bgItableUnusedSet (v : Volume) (group n : Nat) : Volume := v.bgCountSet .itableUnused group n

def bgFlags (v : Volume) (group : Nat) : Nat := readLE v.groupDesc (v.descAt group + 18) 2

def bgTestFlags (v : Volume) (group flags : Nat) : Nat := v.bgFlags group &&& flags

def bgClearFlags (v : Volume) (group flags : Nat) : Volume :=
  { v with groupDesc := writeLE v.groupDesc (v.descAt group + 18) 2 (v.bgFlags group &&& (2 ^ 16 - 1 - flags)) }

def bgChecksum (v : Volume) (group : Nat) : Nat := readLE v.groupDesc (v.descAt group + 30) 2

def bgChecksumUpdate (v : Volume) (group : Nat) (checksum : UInt16) : Volume :=
  { v with groupDesc := writeLE v.groupDesc (v.descAt group + 30) 2 checksum.toNat }

variable (crc : Crc)

def groupDescChecksum (v : Volume) (group : Nat) : UInt16 :=
  let desc := v.descAt group
  let size := v.super.descSize
  if v.super.metadataCsum then
    let c32 := crc.crc32 v.checksumSeed (bytesLE 4 group)
    let c32 := crc.crc32 c32 (copyOut (writeLE v.groupDesc (desc + 30) 2 0) desc size)
    c32.toUInt16
  else
    let c := crc.crc16 0xffff v.super.uuid
    let c := crc.crc16 c (bytesLE 4 group)
    let c := crc.crc16 c (copyOut v.groupDesc desc 30)
    if 32 < size then crc.crc16 c (copyOut v.groupDesc (desc + 32) (size - 32)) else c

def groupDescChecksumValid (v : Volume) (group : Nat) : Bool :=
  !(v.super.hasGroupDescChecksum && v.bgChecksum group != (v.groupDescChecksum crc group).toNat)

def groupDescChecksumUpdate (v : Volume) (group : Nat) : Volume :=
  if v.super.hasGroupDescChecksum then v.bgChecksumUpdate group (v.groupDescChecksum crc group) else v

end Volume

/-- What the checks of `ext2_openfs` establish. -/
structure Opened (s : Super) (count : Nat) : Prop where
  descSize_le : s.is64Bit = true → 64 ≤ s.descSizeField
  cluster : s.logBlockSize ≤ s.logClusterSize
  inodes_pos : 0 < s.inodesPerGroup
  blocks_pos : 0 < s.blocksPerGroup
  perGroup : s.blocksPerGroup = (s.clustersPerGroup <<< s.clusterRatioBits) % 2 ^ 32
  blocks_le : s.blocksPerGroup ≤ 65528 * 2 ^ s.clusterRatioBits
  desc_pos : 0 < s.descPerBlock
  count_lt : s.blocksCount < 2 ^ 63
  first_lt : s.firstDataBlock < s.blocksCount
  groups : count = (s.blocksCount - s.firstDataBlock - 1) / s.blocksPerGroup + 1
  groups_lt : count < 2 ^ 32
  inodes : count * s.inodesPerGroup = s.inodesCount

theorem check_passed {p : Prop} [Decidable p] {e : Errno} {n : Nat} {x : Option (Except Errno Nat)}
    (h : (if p then some (.error e) else x) = some (.ok n)) : ¬p ∧ x = some (.ok n) := by
  by_cases hp : p
  · rw [if_pos hp] at h
    cases h
  · rw [if_neg hp] at h
    exact ⟨hp, h⟩

private theorem shift_defined {p : Prop} [Decidable p] {n : Nat} {x : Option (Except Errno Nat)}
    (h : (if p then none else x) = some (.ok n)) : ¬p ∧ x = some (.ok n) := by
  by_cases hp : p
  · rw [if_pos hp] at h
    cases h
  · rw [if_neg hp] at h
    exact ⟨hp, h⟩

theorem openfs_ok {s : Super} {count : Nat} (h : openfs s = some (.ok count)) : Opened s count := by
  obtain ⟨-, h⟩ := check_passed h
  obtain ⟨-, h⟩ := check_passed h
  obtain ⟨-, h⟩ := check_passed h
  obtain ⟨h64, h⟩ := check_passed h
  obtain ⟨hshift, h⟩ := shift_defined h
  obtain ⟨hper, h⟩ := check_passed h
  obtain ⟨hpos, h⟩ := check_passed h
  obtain ⟨-, h⟩ := shift_defined h
  obtain ⟨hmax, h⟩ := check_passed h
  obtain ⟨hgroups, h⟩ := check_passed h
  obtain ⟨hinodes, h⟩ := check_passed h
  simp only [Option.some.injEq, Except.ok.injEq] at h
  subst h
  refine ⟨fun hf => ?_, by omega, by omega, by omega, not_not.1 hper, by omega, by omega, by omega, by omega, rfl,
    by omega, not_not.1 hinodes⟩
  by_contra hlt
  exact h64 ⟨hf, by omega⟩

section

variable {v : Volume} {g g' : Nat}

theorem Opened.hasDesc (h : Opened v.super v.groupDescCount) (hg : g < v.groupDescCount) : v.HasDesc g := by
  refine ⟨Nat.le_of_lt hg, ?_⟩
  have hper := h.desc_pos
  have hfit : v.super.descPerBlock * v.super.descSize ≤ v.super.blksize := Nat.div_mul_le_self _ _
  have hceil : g + 1 ≤ ((v.groupDescCount - 1) / v.super.descPerBlock + 1) * v.super.descPerBlock := by
    have hdiv := Nat.lt_div_mul_add hper (a := v.groupDescCount - 1)
    rw [Nat.add_mul, Nat.one_mul]
    omega
  calc v.descAt g + v.super.descSize
      ≤ g * v.super.descSize + v.super.descSize := Nat.add_le_add_right (Nat.mod_le _ _) _
    _ = (g + 1) * v.super.descSize := (Nat.succ_mul _ _).symm
    _ ≤ ((v.groupDescCount - 1) / v.super.descPerBlock + 1) * v.super.descPerBlock * v.super.descSize :=
        Nat.mul_le_mul_right _ hceil
    _ = ((v.groupDescCount - 1) / v.super.descPerBlock + 1) * (v.super.descPerBlock * v.super.descSize) :=
        Nat.mul_assoc _ _ _
    _ ≤ v.descBytes := Nat.mul_le_mul_left _ hfit

theorem descAt_disjoint (hg : (g + 1) * v.super.descSize ≤ 2 ^ 32) (hg' : (g' + 1) * v.super.descSize ≤ 2 ^ 32)
    (hne : g ≠ g') :
    v.descAt g + v.super.descSize ≤ v.descAt g' ∨ v.descAt g' + v.super.descSize ≤ v.descAt g := by
  by_cases h0 : v.super.descSize = 0
  · simp [Volume.descAt, h0]
  · have hat : ∀ x, (x + 1) * v.super.descSize ≤ 2 ^ 32 → v.descAt x = x * v.super.descSize := fun x hx => by
      rw [Nat.succ_mul] at hx
      exact Nat.mod_eq_of_lt (by omega)
    rw [hat g hg, hat g' hg', ← Nat.succ_mul, ← Nat.succ_mul]
    rcases Nat.lt_or_gt_of_ne hne with hlt | hlt
    · exact Or.inl (Nat.mul_le_mul_right _ hlt)
    · exact Or.inr (Nat.mul_le_mul_right _ hlt)

theorem descAt_apart (h : v.groupDescCount * v.super.descSize ≤ 2 ^ 32) (hg : g < v.groupDescCount)
    (hg' : g' < v.groupDescCount) (hne : g ≠ g') :
    v.descAt g + v.super.descSize ≤ v.descAt g' ∨ v.descAt g' + v.super.descSize ≤ v.descAt g :=
  descAt_disjoint (Nat.le_trans (Nat.mul_le_mul_right _ hg) h) (Nat.le_trans (Nat.mul_le_mul_right _ hg') h) hne

def Volume.put (v : Volume) (g off n : Nat) : Volume :=
  { v with groupDesc := writeLE v.groupDesc (v.descAt g + off) 2 n }

/-- The field at `off` in the descriptor of `g` is none of the two halves of a count in the descriptor of `g'`. -/
def Volume.Apart (v : Volume) (g off : Nat) (c : BgCount) (g' : Nat) : Prop :=
  (v.descAt g' + c.lo + 2 ≤ v.descAt g + off ∨ v.descAt g + off + 2 ≤ v.descAt g' + c.lo) ∧
  (v.super.is64Bit = true →
    v.descAt g' + c.hi + 2 ≤ v.descAt g + off ∨ v.descAt g + off + 2 ≤ v.descAt g' + c.hi)

variable {off n : Nat} {c c' : BgCount}

private theorem bgCount_put (h : v.Apart g off c g') : (v.put g off n).bgCount c g' = v.bgCount c g' := by
  have hat : (v.put g off n).descAt g' = v.descAt g' := rfl
  unfold Volume.bgCount
  rw [hat, Volume.put]
  simp only
  rw [readLE_writeLE_disjoint h.1]
  split
  · rename_i h64
    rw [readLE_writeLE_disjoint (h.2 h64)]
  · rfl

theorem BgCount.lo_le (c : BgCount) : 12 ≤ c.lo ∧ c.lo + 2 ≤ 32 := by
  cases c with
  | freeBlocks => decide
  | freeInodes => decide
  | usedDirs => decide
  | itableUnused => decide

theorem BgCount.hi_le (c : BgCount) : 32 ≤ c.hi ∧ c.hi + 2 ≤ 64 := by
  cases c with
  | freeBlocks => decide
  | freeInodes => decide
  | usedDirs => decide
  | itableUnused => decide

private theorem bgCountSet_eq : v.bgCountSet c g n =
    if v.super.is64Bit then (v.put g c.lo n).put g c.hi (n >>> 16) else v.put g c.lo n := by
  unfold Volume.bgCountSet Volume.put
  split
  · rfl
  · rfl

def Super.countLimit (s : Super) : Nat := if s.is64Bit then 2 ^ 32 else 2 ^ 16

private theorem bgCount_eq_add : v.bgCount c g = readLE v.groupDesc (v.descAt g + c.lo) 2 +
    if v.super.is64Bit then readLE v.groupDesc (v.descAt g + c.hi) 2 * 2 ^ 16 else 0 := by
  have hlt := readLE_lt v.groupDesc (v.descAt g + c.lo) 2
  rw [Volume.bgCount]
  split
  · rw [Nat.lor_comm, ← Nat.shiftLeft_add_eq_or_of_lt hlt, Nat.shiftLeft_eq, Nat.add_comm]
  · rw [Nat.or_zero, Nat.add_zero]

theorem bgCount_lt : v.bgCount c g < v.super.countLimit := by
  have h1 := readLE_lt v.groupDesc (v.descAt g + c.lo) 2
  have h2 := readLE_lt v.groupDesc (v.descAt g + c.hi) 2
  rw [bgCount_eq_add, Super.countLimit]
  split
  · omega
  · omega

theorem bgCount_bgCountSet_self (hn : n < 2 ^ 32) : (v.bgCountSet c g n).bgCount c g = n % v.super.countLimit := by
  have hlo := c.lo_le
  have hhi := c.hi_le
  have hat : (v.bgCountSet c g n).descAt g = v.descAt g := rfl
  have hsuper : (v.bgCountSet c g n).super = v.super := rfl
  rw [bgCount_eq_add, hat, hsuper, Volume.bgCountSet, Super.countLimit]
  by_cases h64 : v.super.is64Bit = true
  · simp only [h64, ↓reduceIte]
    rw [readLE_writeLE_disjoint (by omega), readLE_writeLE_self, readLE_writeLE_self, Nat.shiftRight_eq_div_pow]
    omega
  · simp only [h64, Bool.false_eq_true, ↓reduceIte]
    rw [readLE_writeLE_self]
    omega

theorem bgCount_bgCountSet_of_ne (hne : c ≠ c') : (v.bgCountSet c' g n).bgCount c g = v.bgCount c g := by
  have hlo := c.lo_le
  have hhi := c.hi_le
  have hlo' := c'.lo_le
  have hhi' := c'.hi_le
  have hl : c.lo + 2 ≤ c'.lo ∨ c'.lo + 2 ≤ c.lo := by
    cases c with
    | _ => cases c' with
      | _ => first | exact absurd rfl hne | decide
  have hh : c.hi + 2 ≤ c'.hi ∨ c'.hi + 2 ≤ c.hi := by
    cases c with
    | _ => cases c' with
      | _ => first | exact absurd rfl hne | decide
  have h1 : v.Apart g c'.lo c g := ⟨by omega, fun _ => by omega⟩
  have h2 : (v.put g c'.lo n).Apart g c'.hi c g := by
    have hat : (v.put g c'.lo n).descAt g = v.descAt g := rfl
    exact ⟨by omega, fun _ => by omega⟩
  rw [bgCountSet_eq]
  split
  · rw [bgCount_put h2, bgCount_put h1]
  · exact bgCount_put h1

private theorem bgCount_put_self (h : off = 18 ∨ off = 30) : (v.put g off n).bgCount c g = v.bgCount c g := by
  have hl : c.lo + 2 ≤ off ∨ off + 2 ≤ c.lo := by
    rcases h with rfl | rfl
    · cases c with
      | _ => decide
    · cases c with
      | _ => decide
  have hhi := c.hi_le
  exact bgCount_put ⟨by omega, fun _ => by omega⟩

/-- Nothing outside of the descriptor of `g` has changed. -/
structure OnlyDesc (v v' : Volume) (g : Nat) : Prop where
  frame : v' = { v with groupDesc := v'.groupDesc }
  bytes : ∀ x, x < v.descAt g ∨ v.descAt g + v.super.descSize ≤ x → v'.groupDesc x = v.groupDesc x

theorem OnlyDesc.super {v' : Volume} (h : OnlyDesc v v' g) : v'.super = v.super := by rw [h.frame]

theorem OnlyDesc.descAt {v' : Volume} (h : OnlyDesc v v' g) : v'.descAt g' = v.descAt g' := by
  rw [Volume.descAt, Volume.descAt, h.super]

theorem OnlyDesc.refl (v : Volume) (g : Nat) : OnlyDesc v v g := ⟨rfl, fun _ _ => rfl⟩

theorem OnlyDesc.trans {v' v'' : Volume} (h : OnlyDesc v v' g) (h' : OnlyDesc v' v'' g) : OnlyDesc v v'' g := by
  refine ⟨?_, fun x hx => ?_⟩
  · have hframe := h'.frame
    rw [h.frame] at hframe
    exact hframe
  · have hx' : x < v'.descAt g ∨ v'.descAt g + v'.super.descSize ≤ x := by rwa [h.descAt, h.super]
    rw [h'.bytes x hx', h.bytes x hx]

theorem OnlyDesc.put (h : off + 2 ≤ v.super.descSize) : OnlyDesc v (v.put g off n) g :=
  ⟨rfl, fun _ _ => writeLE_outside (by omega)⟩

theorem Opened.le_descSize {s : Super} {count : Nat} (h : Opened s count) :
    32 ≤ s.descSize ∧ (s.is64Bit = true → 64 ≤ s.descSize) := by
  have h64 := h.descSize_le
  unfold Super.descSize
  split
  · rename_i h1
    have := h64 h1
    exact ⟨by omega, fun _ => this⟩
  · rename_i h1
    exact ⟨Nat.le_refl 32, fun h2 => absurd h2 h1⟩

theorem OnlyDesc.bgCountSet {count : Nat} (h : Opened v.super count) : OnlyDesc v (v.bgCountSet c g n) g := by
  obtain ⟨hsize, hsize64⟩ := h.le_descSize
  have hlo := c.lo_le
  have hhi := c.hi_le
  have h1 : OnlyDesc v (v.put g c.lo n) g := OnlyDesc.put (by omega)
  rw [bgCountSet_eq]
  split
  · rename_i h64
    have hle := hsize64 h64
    refine h1.trans (OnlyDesc.put ?_)
    rw [h1.super]
    omega
  · exact h1

theorem OnlyDesc.clearFlags {count : Nat} (h : Opened v.super count) (flags : Nat) :
    OnlyDesc v (v.bgClearFlags g flags) g :=
  OnlyDesc.put (Nat.le_trans (by decide) h.le_descSize.1)

theorem OnlyDesc.checksum {count : Nat} (h : Opened v.super count) (crc : Crc) :
    OnlyDesc v (v.groupDescChecksumUpdate crc g) g := by
  unfold Volume.groupDescChecksumUpdate
  split
  · exact OnlyDesc.put (Nat.le_trans (by decide) h.le_descSize.1)
  · exact OnlyDesc.refl v g

theorem OnlyDesc.bgCount {v' : Volume} {count : Nat} (ho : OnlyDesc v v' g) (h : Opened v.super count)
    (hapart : v.descAt g + v.super.descSize ≤ v.descAt g' ∨ v.descAt g' + v.super.descSize ≤ v.descAt g) :
    v'.bgCount c g' = v.bgCount c g' := by
  obtain ⟨hsize, hsize64⟩ := h.le_descSize
  have hlo := c.lo_le
  have hhi := c.hi_le
  have hfield : ∀ off, off + 2 ≤ v.super.descSize →
      readLE v'.groupDesc (v.descAt g' + off) 2 = readLE v.groupDesc (v.descAt g' + off) 2 := fun off hoff =>
    readLE_congr fun x h1 h2 => ho.bytes x (by omega)
  unfold Volume.bgCount
  rw [ho.descAt, ho.super, hfield c.lo (by omega)]
  split
  · rename_i h64
    have hle := hsize64 h64
    rw [hfield c.hi (by omega)]
  · rfl

theorem bgCount_groupDescChecksumUpdate (crc : Crc) :
    (v.groupDescChecksumUpdate crc g).bgCount c g = v.bgCount c g := by
  unfold Volume.groupDescChecksumUpdate
  split
  · exact bgCount_put_self (Or.inr rfl)
  · rfl

theorem bgCount_bgClearFlags (flags : Nat) : (v.bgClearFlags g flags).bgCount c g = v.bgCount c g :=
  bgCount_put_self (Or.inl rfl)

end

end Pml.Ext2
