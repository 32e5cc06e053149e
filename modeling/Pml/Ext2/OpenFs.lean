import Pml.Ext2.GroupDesc

/-!
# Validation of the superblock (`drivers/fs/ext2/super.c`, `drivers/fs/ext2/bitmap.c`)

`ext2_openfs` on the fields of `struct ext2_super` with their widths.  A division by zero and a shift by an amount
that is negative or not below the width have no result; products and shifts of `int` values wrap.  The memory can be
allocated, and the descriptors and bitmaps can be read.  The later divisions are by `EXT2_DESC_PER_BLOCK` and the
later shifts by `cluster_ratio_bits`, as here.

The check of the cluster size is made with BIGALLOC, not without it, and `s_log_cluster_size` has no other check.
-/

namespace Pml.Ext2

/-- The fields of `struct ext2_super` that `ext2_openfs` reads, and whether its checksum is valid or not needed. -/
structure RawSuper where
  checksumValid : Bool
  magic : UInt16
  revLevel : UInt32
  featureIncompat : UInt32
  featureRoCompat : UInt32
  inodesCount : UInt32
  blocksCountLo : UInt32
  blocksCountHi : UInt32
  firstDataBlock : UInt32
  logBlockSize : UInt32
  logClusterSize : UInt32
  blocksPerGroup : UInt32
  clustersPerGroup : UInt32
  inodesPerGroup : UInt32
  inodeSizeField : UInt16
  descSizeField : UInt16

def incompatSupport : UInt32 := 0x3e7d6

def roCompatSupport : UInt32 := 0xf77b

namespace RawSuper

variable (r : RawSuper)

/-- `EXT4_FT_INCOMPAT_64BIT` -/
def is64Bit : Bool := r.featureIncompat &&& 0x80 != 0

def mmp : Bool := r.featureIncompat &&& 0x100 != 0

def journalDev : Bool := r.featureIncompat &&& 0x8 != 0

def bigalloc : Bool := r.featureRoCompat &&& 0x200 != 0

/-- `EXT2_BLOCK_SIZE` -/
def blksize : Nat := 1024 <<< r.logBlockSize.toNat

/-- `EXT2_CLUSTER_SIZE` without overflow. -/
def clusterSize : Nat := 1024 <<< r.logClusterSize.toNat

def inodeSize : Nat := if r.revLevel = 0 then 128 else r.inodeSizeField.toNat

def descSize : Nat := if r.is64Bit then r.descSizeField.toNat else 32

def descPerBlock : Nat := r.blksize / r.descSize

/-- `cluster_ratio_bits`, the difference of two `uint32_t` values as an `int`. -/
def clusterRatioBits : Int := ((r.logClusterSize.toNat : Int) - r.logBlockSize.toNat).bmod (2 ^ 32)

def inodeBlocksPerGroup : Nat := (r.inodesPerGroup.toNat * r.inodeSize + r.blksize - 1) / r.blksize % 2 ^ 32

/-- `EXT2_MAX_BLOCKS_PER_GROUP`: `int` values, and a cast to `unsigned int`. -/
def maxBlocksPerGroup : Nat := (65528 * ((r.clusterSize : Int).bmod (2 ^ 32)).tdiv r.blksize % 2 ^ 32).toNat

/-- `ext2_blocks_count` without its sign. -/
def blocksCount : Nat := r.blocksCountLo.toNat ||| if r.is64Bit then r.blocksCountHi.toNat <<< 32 else 0

/-- `div64_ceil` of the number of blocks, which is not 0. -/
def groups : Nat := (r.blocksCount - r.firstDataBlock.toNat - 1) / r.blocksPerGroup.toNat + 1

end RawSuper

/-! ### `ext2_openfs` -/

def divisor {α : Type} (b : Nat) (x : Option α) : Option α := if b = 0 then none else x

def amount {α : Type} (width : Nat) (n : Int) (x : Option α) : Option α := if 0 ≤ n ∧ n < width then x else none

/-- `ext2_prepare_read_bitmap` for two bitmaps of 32 bits, which `EXT2_FLAG_64BIT` would change. -/
def prepareReadBitmap (r : RawSuper) : Option (Except Errno Nat) :=
  if r.blksize < r.clustersPerGroup.toNat / 8 ∨ r.blksize < r.inodesPerGroup.toNat / 8 then some (.error .EUCLEAN)
  else
    amount 64 r.clusterRatioBits <|
      let start := r.firstDataBlock.toNat >>> r.clusterRatioBits.toNat
      if 2 ^ 32 ≤ (r.blocksCount - 1) >>> r.clusterRatioBits.toNat ∨
        2 ^ 32 ≤ add64 (sub64 (r.clustersPerGroup.toNat * r.groups) 1) start then some (.error .EUCLEAN)
      else if 2 ^ 32 ≤ r.inodesPerGroup.toNat * r.groups then some (.error .EUCLEAN)
      else some (.ok r.groups)

/-- The second part of `ext2_openfs`, from the checks of the counts on. -/
def openGroups (readOnly : Bool) (r : RawSuper) : Option (Except Errno Nat) :=
  amount 32 r.logBlockSize.toNat <| divisor r.blksize <|
    if r.maxBlocksPerGroup < r.blocksPerGroup.toNat then some (.error .EUCLEAN)
    else
      divisor r.inodeSize <|
        if 65536 - r.blksize / r.inodeSize ≤ r.inodeBlocksPerGroup then some (.error .EUCLEAN)
        else
          divisor r.descSize <|
            if r.descPerBlock = 0 ∨ 2 ^ 63 ≤ r.blocksCount ∨ r.blocksCount ≤ r.firstDataBlock.toNat then
              some (.error .EUCLEAN)
            else
              divisor r.blocksPerGroup.toNat <|
                if 2 ^ 32 ≤ r.groups ∨ r.groups * r.inodesPerGroup.toNat ≠ r.inodesCount.toNat then
                  some (.error .EUCLEAN)
                else
                  divisor r.descPerBlock <|
                    if r.mmp ∧ ¬readOnly then some (.error .ENOTSUP) else prepareReadBitmap r

/-- `ext2_openfs`: the number of groups. -/
def ext2Openfs (readOnly : Bool) (r : RawSuper) : Option (Except Errno Nat) :=
  if r.checksumValid = false ∨ r.magic ≠ 0xef53 ∨ 1 < r.revLevel then some (.error .EUCLEAN)
  else if r.featureIncompat &&& ~~~incompatSupport ≠ 0 ∨
    (readOnly = false ∧ r.featureRoCompat &&& ~~~roCompatSupport ≠ 0) then some (.error .ENOTSUP)
  else if r.journalDev then some (.error .ENOTSUP)
  else if 6 < r.logBlockSize.toNat then some (.error .EUCLEAN)
  else if r.bigalloc ∧ r.logBlockSize ≠ r.logClusterSize then some (.error .EUCLEAN)
  else
    amount 32 r.logBlockSize.toNat <|
      if r.inodeSize < 128 ∨ r.blksize < r.inodeSize ∨ isP2 r.inodeSize = false then some (.error .EUCLEAN)
      else if r.is64Bit ∧ r.descSizeField.toNat < 64 then some (.error .EUCLEAN)
      else
        amount 32 r.clusterRatioBits <|
          if r.blocksPerGroup.toNat ≠ (r.clustersPerGroup.toNat <<< r.clusterRatioBits.toNat) % 2 ^ 32 then
            some (.error .EUCLEAN)
          else
            divisor r.blksize <|
              if r.journalDev then some (.ok 0)
              else if r.inodesPerGroup = 0 ∨ r.blocksPerGroup = 0 then some (.error .EUCLEAN)
              else amount 32 r.logClusterSize.toNat <| openGroups readOnly r

/-! ### What the superblock has to be -/

/-- The superblock is valid, with a number of groups. -/
structure ValidSuper (r : RawSuper) (count : Nat) : Prop where
  blksize : (∃ k, r.blksize = 2 ^ k) ∧ 1024 ≤ r.blksize ∧ r.blksize ≤ 65536
  inodeSize : (∃ k, r.inodeSize = 2 ^ k) ∧ 128 ≤ r.inodeSize ∧ r.inodeSize ≤ r.blksize
  ratio : 0 ≤ r.clusterRatioBits
  group : r.blocksPerGroup.toNat = r.clustersPerGroup.toNat * 2 ^ r.clusterRatioBits.toNat
  cluster : r.bigalloc = false → r.clusterSize = r.blksize
  inodes : count * r.inodesPerGroup.toNat = r.inodesCount.toNat
  clustersFit : r.clustersPerGroup.toNat ≤ 8 * r.blksize
  inodesFit : r.inodesPerGroup.toNat ≤ 8 * r.blksize

def OpensRight (readOnly : Bool) (r : RawSuper) : Prop :=
  ext2Openfs readOnly r ≠ none ∧ ∀ count, ext2Openfs readOnly r = some (.ok count) → ValidSuper r count

/-- The checks before `cluster_ratio_bits` is used. -/
structure HeaderOk (readOnly : Bool) (r : RawSuper) : Prop where
  magic : r.checksumValid = true ∧ r.magic = 0xef53 ∧ r.revLevel ≤ 1
  features : r.featureIncompat &&& ~~~incompatSupport = 0 ∧
    (readOnly = false → r.featureRoCompat &&& ~~~roCompatSupport = 0)
  journal : r.journalDev = false
  blksize : r.logBlockSize.toNat ≤ 6
  cluster : r.bigalloc = true → r.logBlockSize = r.logClusterSize
  inode : 128 ≤ r.inodeSize ∧ r.inodeSize ≤ r.blksize ∧ isP2 r.inodeSize = true
  desc : r.is64Bit = true → 64 ≤ r.descSizeField.toNat

/-- The checks of the groups before the cluster size is used. -/
structure GroupsOk (r : RawSuper) : Prop where
  blocks : r.blocksPerGroup.toNat = (r.clustersPerGroup.toNat <<< r.clusterRatioBits.toNat) % 2 ^ 32
  inodes_ne : r.inodesPerGroup ≠ 0
  blocks_ne : r.blocksPerGroup ≠ 0

/-- The checks of the counts, which are the last ones. -/
structure CountsOk (readOnly : Bool) (r : RawSuper) : Prop where
  blocksMax : r.blocksPerGroup.toNat ≤ r.maxBlocksPerGroup
  inodesMax : r.inodeBlocksPerGroup < 65536 - r.blksize / r.inodeSize
  desc : r.descPerBlock ≠ 0
  blocks : r.blocksCount < 2 ^ 63 ∧ r.firstDataBlock.toNat < r.blocksCount
  groups : r.groups < 2 ^ 32 ∧ r.groups * r.inodesPerGroup.toNat = r.inodesCount.toNat
  mmp : r.mmp = true → readOnly = true
  bytes : r.clustersPerGroup.toNat / 8 ≤ r.blksize ∧ r.inodesPerGroup.toNat / 8 ≤ r.blksize
  bitmap : (r.blocksCount - 1) >>> r.clusterRatioBits.toNat < 2 ^ 32 ∧
    add64 (sub64 (r.clustersPerGroup.toNat * r.groups) 1) (r.firstDataBlock.toNat >>> r.clusterRatioBits.toNat) <
    2 ^ 32

section

variable {r : RawSuper} {readOnly : Bool} {α : Type} {x : Option α} {v : α} {p : Prop} [Decidable p] {e : Errno}
  {y : Option (Except Errno Nat)} {n : Nat}

/-! ### Operations and checks -/

private theorem divisor_pos {b : Nat} (h : 0 < b) : divisor b x = x := if_neg (by omega)

private theorem amount_ok {width : Nat} {k : Int} (h : 0 ≤ k ∧ k < width) : amount width k x = x := if_pos h

private theorem amount_bad {width : Nat} {k : Int} (h : ¬(0 ≤ k ∧ k < width)) : amount width k x = none := if_neg h

private theorem check_none : (if p then some (.error e) else y) = none ↔ ¬p ∧ y = none := by
  by_cases hp : p
  · simp [hp]
  · simp [hp]

private theorem check_ok : (if p then some (.error e) else y) = some (.ok n) ↔ ¬p ∧ y = some (.ok n) := by
  by_cases hp : p
  · simp [hp]
  · simp [hp]

private theorem blksize_eq (r : RawSuper) : r.blksize = 2 ^ (10 + r.logBlockSize.toNat) := by
  rw [RawSuper.blksize, Nat.shiftLeft_eq, Nat.pow_add]

private theorem HeaderOk.blksize_le (h : HeaderOk readOnly r) : 1024 ≤ r.blksize ∧ r.blksize ≤ 65536 := by
  rw [blksize_eq]
  have hlog := h.blksize
  exact ⟨Nat.pow_le_pow_right (show 0 < 2 by decide) (show 10 ≤ _ by omega),
    Nat.pow_le_pow_right (show 0 < 2 by decide) (show _ ≤ 16 by omega)⟩

private theorem HeaderOk.descSize_pos (h : HeaderOk readOnly r) : 0 < r.descSize := by
  unfold RawSuper.descSize
  split
  · rename_i h64
    have := h.desc h64
    omega
  · decide

private theorem rejected_if (h : ¬p → ∃ e, y = some (.error e)) :
    ∃ e', (if p then some (.error e) else y) = some (.error e') := by
  by_cases hp : p
  · exact ⟨e, if_pos hp⟩
  · rw [if_neg hp]
    exact h hp

private theorem prepareReadBitmap_spec (hr : 0 ≤ r.clusterRatioBits ∧ r.clusterRatioBits < 32) :
    prepareReadBitmap r ≠ none ∧ ∀ n, prepareReadBitmap r = some (.ok n) ↔
      (r.clustersPerGroup.toNat / 8 ≤ r.blksize ∧ r.inodesPerGroup.toNat / 8 ≤ r.blksize) ∧
      ((r.blocksCount - 1) >>> r.clusterRatioBits.toNat < 2 ^ 32 ∧
        add64 (sub64 (r.clustersPerGroup.toNat * r.groups) 1)
        (r.firstDataBlock.toNat >>> r.clusterRatioBits.toNat) < 2 ^ 32) ∧
      r.inodesPerGroup.toNat * r.groups < 2 ^ 32 ∧ n = r.groups := by
  unfold prepareReadBitmap
  rw [amount_ok ⟨hr.1, by omega⟩]
  constructor
  · simp only [ne_eq, check_none, reduceCtorEq, and_false, not_false_eq_true]
  · intro n
    simp only [check_ok, not_or, Nat.not_lt, Nat.not_le, Option.some.injEq, Except.ok.injEq]
    rw [eq_comm (a := n)]

/-- The last checks are defined, and this is when they accept the superblock. -/
private theorem openGroups_spec (h : HeaderOk readOnly r) (hr : 0 ≤ r.clusterRatioBits ∧ r.clusterRatioBits < 32)
    (hg : r.blocksPerGroup ≠ 0) : openGroups readOnly r ≠ none ∧
      ∀ n, openGroups readOnly r = some (.ok n) ↔ CountsOk readOnly r ∧ n = r.groups := by
  have hblk := h.blksize_le
  have hlog := h.blksize
  have hinode := h.inode.1
  have hper : 0 < r.blocksPerGroup.toNat := Nat.pos_of_ne_zero fun h0 => hg (UInt32.toNat_inj.1 h0)
  obtain ⟨hdefined, haccept⟩ := prepareReadBitmap_spec hr
  unfold openGroups
  rw [amount_ok ⟨by omega, by omega⟩, divisor_pos (by omega), divisor_pos (show 0 < r.inodeSize by omega),
    divisor_pos h.descSize_pos, divisor_pos hper]
  constructor
  · simp only [ne_eq, check_none, not_and]
    intro _ _ hdesc _
    rw [divisor_pos (Nat.pos_of_ne_zero fun h0 => hdesc (Or.inl h0)), check_none]
    exact fun hnone => hdefined hnone.2
  · intro n
    simp only [check_ok]
    constructor
    · rintro ⟨hmax, hinodes, hdesc, hgroups, hrest⟩
      rw [divisor_pos (Nat.pos_of_ne_zero fun h0 => hdesc (Or.inl h0)), check_ok, haccept] at hrest
      obtain ⟨hmmp, hbytes, hbitmap, -, rfl⟩ := hrest
      refine ⟨⟨by omega, by omega, fun h0 => hdesc (Or.inl h0), by omega, by omega, fun hm => ?_, hbytes, hbitmap⟩,
        rfl⟩
      by_contra hro
      exact hmmp ⟨hm, hro⟩
    · rintro ⟨hc, rfl⟩
      obtain ⟨hlt, hcount⟩ := hc.groups
      have hblocks := hc.blocks
      have hinodes := hc.inodesMax
      have hmax := r.inodesCount.toNat_lt
      refine ⟨Nat.not_lt.2 hc.blocksMax, by omega, ?_, by omega, ?_⟩
      · rintro (h0 | h0 | h0)
        · exact hc.desc h0
        · omega
        · omega
      · rw [divisor_pos (Nat.pos_of_ne_zero hc.desc), check_ok, haccept]
        exact ⟨fun hm => hm.2 (hc.mmp hm.1), hc.bytes, hc.bitmap, by rw [Nat.mul_comm, hcount]; exact hmax, rfl⟩

private theorem ext2Openfs_header (h : HeaderOk readOnly r) : ext2Openfs readOnly r =
    amount 32 r.clusterRatioBits
      (if r.blocksPerGroup.toNat ≠ (r.clustersPerGroup.toNat <<< r.clusterRatioBits.toNat) % 2 ^ 32 then
        some (.error .EUCLEAN)
      else if r.inodesPerGroup = 0 ∨ r.blocksPerGroup = 0 then some (.error .EUCLEAN)
      else amount 32 r.logClusterSize.toNat (openGroups readOnly r)) := by
  have hblk := h.blksize_le
  have hlog := h.blksize
  obtain ⟨hvalid, hmagic, hrev⟩ := h.magic
  obtain ⟨hmin, hmax, hp2⟩ := h.inode
  have h1 : ¬(r.checksumValid = false ∨ r.magic ≠ 0xef53 ∨ 1 < r.revLevel) := by
    simp [hvalid, hmagic, UInt32.not_lt.2 hrev]
  have h2 : ¬(r.featureIncompat &&& ~~~incompatSupport ≠ 0 ∨
      (readOnly = false ∧ r.featureRoCompat &&& ~~~roCompatSupport ≠ 0)) := by
    rintro (hc | ⟨hro, hc⟩)
    · exact hc h.features.1
    · exact hc (h.features.2 hro)
  have h3 : ¬ r.journalDev = true := by simp [h.journal]
  have h4 : ¬(r.inodeSize < 128 ∨ r.blksize < r.inodeSize ∨ isP2 r.inodeSize = false) := by
    rw [hp2]
    simp
    omega
  have h5 : ¬(r.is64Bit = true ∧ r.descSizeField.toNat < 64) := fun hc => absurd (h.desc hc.1) (by omega)
  unfold ext2Openfs
  rw [if_neg h1, if_neg h2, if_neg h3, if_neg (by omega), if_neg (fun hc => hc.2 (h.cluster hc.1)),
    amount_ok ⟨by omega, by omega⟩, if_neg h4, if_neg h5, divisor_pos (by omega), if_neg h3]

private theorem ext2Openfs_rejected (h : ¬ HeaderOk readOnly r) : ∃ e, ext2Openfs readOnly r = some (.error e) := by
  unfold ext2Openfs
  refine rejected_if fun h1 => rejected_if fun h2 => rejected_if fun h3 => rejected_if fun h4 =>
    rejected_if fun h5 => ?_
  rw [amount_ok ⟨by omega, by omega⟩]
  refine rejected_if fun h6 => rejected_if fun h7 => absurd ?_ h
  simp only [not_or, not_and, not_not, Bool.not_eq_false, Bool.not_eq_true] at h1 h2 h3 h5 h6 h7
  exact ⟨⟨h1.1, h1.2.1, UInt32.not_lt.1 h1.2.2⟩, h2, h3, by omega, h5, ⟨by omega, by omega, h6.2.2⟩,
    fun h64 => Nat.not_lt.1 (h7 h64)⟩

/-- When an operation is not defined, and when the superblock is accepted. -/
private theorem ext2Openfs_spec (readOnly : Bool) (r : RawSuper) :
    (ext2Openfs readOnly r = none ↔ HeaderOk readOnly r ∧ (¬(0 ≤ r.clusterRatioBits ∧ r.clusterRatioBits < 32) ∨
      GroupsOk r ∧ 32 ≤ r.logClusterSize.toNat)) ∧
    ∀ n, ext2Openfs readOnly r = some (.ok n) ↔ HeaderOk readOnly r ∧
    (0 ≤ r.clusterRatioBits ∧ r.clusterRatioBits < 32) ∧
      GroupsOk r ∧ r.logClusterSize.toNat < 32 ∧ CountsOk readOnly r ∧ n = r.groups := by
  by_cases h : HeaderOk readOnly r
  · rw [ext2Openfs_header h]
    by_cases hr : 0 ≤ r.clusterRatioBits ∧ r.clusterRatioBits < 32
    · rw [amount_ok hr]
      by_cases hg : GroupsOk r
      · rw [if_neg (not_not.2 hg.blocks), if_neg (not_or.2 ⟨hg.inodes_ne, hg.blocks_ne⟩)]
        by_cases hl : r.logClusterSize.toNat < 32
        · rw [amount_ok ⟨by omega, by omega⟩]
          obtain ⟨hdefined, haccept⟩ := openGroups_spec h hr hg.blocks_ne
          refine ⟨⟨fun hn => absurd hn hdefined, ?_⟩, fun n => ?_⟩
          · rintro ⟨-, hbad | ⟨-, hbad⟩⟩
            · exact absurd hr hbad
            · omega
          · rw [haccept n]
            exact ⟨fun hc => ⟨h, hr, hg, hl, hc⟩, fun hc => hc.2.2.2.2⟩
        · rw [amount_bad (by omega)]
          exact ⟨⟨fun _ => ⟨h, Or.inr ⟨hg, Nat.not_lt.1 hl⟩⟩, fun _ => rfl⟩,
            fun n => ⟨(fun hn => by cases hn), fun hc => absurd hc.2.2.2.1 hl⟩⟩
      · obtain ⟨e, he⟩ : ∃ e, (if r.blocksPerGroup.toNat ≠
            (r.clustersPerGroup.toNat <<< r.clusterRatioBits.toNat) % 2 ^ 32 then some (.error .EUCLEAN)
          else if r.inodesPerGroup = 0 ∨ r.blocksPerGroup = 0 then some (.error .EUCLEAN)
          else amount 32 r.logClusterSize.toNat (openGroups readOnly r)) = some (.error e) := by
          refine rejected_if fun h1 => rejected_if fun h2 => absurd ?_ hg
          rw [not_or] at h2
          exact ⟨not_not.1 h1, h2.1, h2.2⟩
        rw [he]
        refine ⟨⟨(fun hn => by cases hn), ?_⟩, fun n => ⟨(fun hn => by cases hn), fun hc => absurd hc.2.2.1 hg⟩⟩
        rintro ⟨-, hbad | ⟨hg', -⟩⟩
        · exact absurd hr hbad
        · exact absurd hg' hg
    · rw [amount_bad hr]
      exact ⟨⟨fun _ => ⟨h, Or.inl hr⟩, fun _ => rfl⟩, fun n => ⟨(fun hn => by cases hn), fun hc => absurd hc.2.1 hr⟩⟩
  · obtain ⟨e, he⟩ := ext2Openfs_rejected h
    rw [he]
    exact ⟨⟨(fun hn => by cases hn), fun hc => absurd hc.1 h⟩,
      fun n => ⟨(fun hn => by cases hn), fun hc => absurd hc.1 h⟩⟩

/-! ### A superblock that is accepted -/

private theorem clusterRatioBits_zero (h : r.logClusterSize = r.logBlockSize) : r.clusterRatioBits = 0 := by
  unfold RawSuper.clusterRatioBits
  rw [h, Int.sub_self]
  rfl

private theorem validSuper_of (h : HeaderOk readOnly r) (hg : GroupsOk r) (hc : CountsOk readOnly r)
    (hlog : r.logClusterSize = r.logBlockSize) (hfit : r.clustersPerGroup.toNat ≤ 8 * r.blksize ∧
      r.inodesPerGroup.toNat ≤ 8 * r.blksize) : ValidSuper r r.groups := by
  have hratio := clusterRatioBits_zero hlog
  have hlt := r.clustersPerGroup.toNat_lt
  refine ⟨⟨⟨_, blksize_eq r⟩, h.blksize_le⟩, ⟨isP2_iff.1 h.inode.2.2, h.inode.1, h.inode.2.1⟩, hratio.ge, ?_,
    fun _ => ?_, hc.groups.2, hfit.1, hfit.2⟩
  · have hblocks := hg.blocks
    rw [hratio, Int.toNat_zero, Nat.shiftLeft_zero] at hblocks
    rw [hratio, Int.toNat_zero, Nat.pow_zero, Nat.mul_one, hblocks]
    exact Nat.mod_eq_of_lt hlt
  · unfold RawSuper.clusterSize RawSuper.blksize
    rw [hlog]

private theorem ValidSuper.cluster_eq (h : HeaderOk readOnly r) (hv : ValidSuper r n) :
    r.logClusterSize = r.logBlockSize := by
  cases hb : r.bigalloc with
  | true => exact (h.cluster hb).symm
  | false =>
    have hsize := hv.cluster hb
    unfold RawSuper.clusterSize RawSuper.blksize at hsize
    rw [Nat.shiftLeft_eq, Nat.shiftLeft_eq] at hsize
    have hpow : 2 ^ r.logClusterSize.toNat = 2 ^ r.logBlockSize.toNat := by omega
    exact UInt32.toNat_inj.1 (Nat.pow_right_injective (Nat.le_refl 2) hpow)

end

/-- `ext2_openfs` divides by no zero, shifts by no amount out of range, and accepts only valid superblocks, if and
only if a superblock that passes the first checks has a cluster ratio in range; if it passes the checks of the groups,
a cluster size in range; and if it passes all checks, clusters of one block, and no more clusters and inodes in a
group than a block has bits. -/
theorem openfs_right_iff (readOnly : Bool) (r : RawSuper) : OpensRight readOnly r ↔
    (HeaderOk readOnly r → (0 ≤ r.clusterRatioBits ∧ r.clusterRatioBits < 32) ∧
      (GroupsOk r → r.logClusterSize.toNat < 32 ∧
        (CountsOk readOnly r → r.logClusterSize = r.logBlockSize ∧ r.clustersPerGroup.toNat ≤ 8 * r.blksize ∧
          r.inodesPerGroup.toNat ≤ 8 * r.blksize))) := by
  obtain ⟨hnone, haccept⟩ := ext2Openfs_spec readOnly r
  unfold OpensRight
  rw [ne_eq, hnone]
  constructor
  · rintro ⟨hdefined, hvalid⟩ h
    have hr : 0 ≤ r.clusterRatioBits ∧ r.clusterRatioBits < 32 := by
      by_contra hbad
      exact hdefined ⟨h, Or.inl hbad⟩
    refine ⟨hr, fun hg => ?_⟩
    have hl : r.logClusterSize.toNat < 32 := by
      by_contra hbad
      exact hdefined ⟨h, Or.inr ⟨hg, Nat.not_lt.1 hbad⟩⟩
    refine ⟨hl, fun hc => ?_⟩
    have hv := hvalid r.groups ((haccept r.groups).2 ⟨h, hr, hg, hl, hc, rfl⟩)
    exact ⟨hv.cluster_eq h, hv.clustersFit, hv.inodesFit⟩
  · refine fun hcond => ⟨?_, fun n hn => ?_⟩
    · rintro ⟨h, hbad | ⟨hg, hbad⟩⟩
      · exact hbad (hcond h).1
      · exact absurd ((hcond h).2 hg).1 (Nat.not_lt.2 hbad)
    · obtain ⟨h, -, hg, -, hc, rfl⟩ := (haccept n).1 hn
      obtain ⟨hlog, hfit⟩ := ((hcond h).2 hg).2 hc
      exact validSuper_of h hg hc hlog hfit

def smallRaw : RawSuper := ⟨true, 0xef53, 1, 0, 0, 128, 100, 0, 1, 0, 0, 8192, 8192, 128, 128, 0⟩

/-- `s_log_cluster_size` 0 with blocks of 2 KiB is a shift by -1; clusters of 2 KiB are accepted without BIGALLOC; and
so are 8199 clusters in a group, of which a block of 1 KiB holds 8192 bits. -/
theorem not_openfs_right : ext2Openfs false { smallRaw with logBlockSize := 1 } = none ∧
    ext2Openfs false { smallRaw with logClusterSize := 1, blocksPerGroup := 16384 } = some (.ok 1) ∧
    ext2Openfs false { smallRaw with blocksPerGroup := 8199, clustersPerGroup := 8199 } = some (.ok 1) ∧
    ¬ OpensRight false { smallRaw with logBlockSize := 1 } ∧
    ¬ OpensRight false { smallRaw with logClusterSize := 1, blocksPerGroup := 16384 } ∧
    ¬ OpensRight false { smallRaw with blocksPerGroup := 8199, clustersPerGroup := 8199 } := by
  have h1 : ext2Openfs false { smallRaw with logBlockSize := 1 } = none := by decide
  have h2 : ext2Openfs false { smallRaw with logClusterSize := 1, blocksPerGroup := 16384 } = some (.ok 1) := by
    decide
  have h3 : ext2Openfs false { smallRaw with blocksPerGroup := 8199, clustersPerGroup := 8199 } = some (.ok 1) := by
    decide
  refine ⟨h1, h2, h3, fun h => h.1 h1, fun h => ?_, fun h => ?_⟩
  · exact absurd ((h.2 1 h2).cluster rfl) (by decide)
  · exact absurd (h.2 1 h3).clustersFit (by decide)

end Pml.Ext2
