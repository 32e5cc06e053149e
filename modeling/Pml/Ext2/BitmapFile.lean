import Pml.Ext2.AllocStats

/-!
# Bitmaps on the disk (`drivers/fs/ext2/bitmap.c`)

`ext2_write_bitmaps` stores the part of each group in the block that its descriptor names, and `ext2_read_bitmaps`
reads it back.  Both go through the groups in steps of whole bytes.  The writer rounds the number of inodes of a group
up and the reader rounds it down, and both round the number of clusters down.

A checksum that does not match ends the loop of the reader, but `GOTO_ERROR` does not set the value that it returns.
-/

namespace Pml.Ext2

open ByteMemory

abbrev Disk := Nat → Mem

def toInt32 (n : Nat) : Int := ((n + 2 ^ 31) % 2 ^ 32 : Nat) - 2 ^ 31

/-- `ext2_bg_super_test_root`; each round divides `group`, so that it needs no more rounds than `group`. -/
def testRoot : Nat → Nat → Nat → Bool
  | 0, _, _ => false
  | fuel + 1, group, x =>
    if group < x then false
    else if group = x then true
    else if group % x ≠ 0 then false
    else testRoot fuel (group / x) x

def Super.bgHasSuper (s : Super) (group : Nat) : Bool :=
  if group = 0 then true
  else if s.sparseSuper then group == s.backupBgs.1 || group == s.backupBgs.2
  else if group ≤ 1 then true
  else if group % 2 = 0 then false
  else testRoot group group 3 || testRoot group group 5 || testRoot group group 7

namespace Volume

def bgLoc (v : Volume) (lo hi group : Nat) : Nat :=
  readLE v.groupDesc (v.descAt group + lo) 4 |||
    if v.super.is64Bit then readLE v.groupDesc (v.descAt group + hi) 4 <<< 32 else 0

def blockBitmapLoc (v : Volume) (group : Nat) : Nat := v.bgLoc 0 32 group

def inodeBitmapLoc (v : Volume) (group : Nat) : Nat := v.bgLoc 4 36 group

def inodeTableLoc (v : Volume) (group : Nat) : Nat := v.bgLoc 8 40 group

/-! ### Checksums of the bitmaps -/

variable (crc : Crc)

/-- The check of the checksum of a bitmap; its halves are at `lo` and `hi`. -/
def bitmapChecksumValid (v : Volume) (lo hi group : Nat) (bitmap : List UInt8) : Bool :=
  if v.super.metadataCsum then
    let provided := readLE v.groupDesc (v.descAt group + lo) 2
    let c := (crc.crc32 v.checksumSeed bitmap).toNat
    if hi + 2 ≤ v.super.descSize then
      (provided ||| readLE v.groupDesc (v.descAt group + hi) 2 <<< 16) == c
    else provided == c % 2 ^ 16
  else true

def bitmapChecksumUpdate (v : Volume) (lo hi group : Nat) (bitmap : List UInt8) : Volume :=
  if v.super.metadataCsum then
    let c := (crc.crc32 v.checksumSeed bitmap).toNat
    let m := writeLE v.groupDesc (v.descAt group + lo) 2 (c % 2 ^ 16)
    { v with groupDesc := if hi + 2 ≤ v.super.descSize then writeLE m (v.descAt group + hi) 2 (c >>> 16) else m }
  else v

def blockBitmapChecksumValid (v : Volume) (group : Nat) (bitmap : List UInt8) : Bool :=
  v.bitmapChecksumValid crc 24 56 group bitmap

def blockBitmapChecksumUpdate (v : Volume) (group : Nat) (bitmap : List UInt8) : Volume :=
  v.bitmapChecksumUpdate crc 24 56 group bitmap

def inodeBitmapChecksumValid (v : Volume) (group : Nat) (bitmap : List UInt8) : Bool :=
  v.bitmapChecksumValid crc 26 58 group bitmap

def inodeBitmapChecksumUpdate (v : Volume) (group : Nat) (bitmap : List UInt8) : Volume :=
  v.bitmapChecksumUpdate crc 26 58 group bitmap

/-! ### Writing -/

def blkitr (v : Volume) (i : Nat) : Nat :=
  v.super.firstDataBlock >>> v.super.clusterRatioBits + i * (v.super.clustersPerGroup / 8 * 8)

def bitmapBuf (nbytes : Nat) (bytes : List UInt8) : Mem := fun x => if x < nbytes then bytes.getD x 0 else 0xff

/-- The number of clusters in the last group if it is short, and else 0. -/
def lastBits (v : Volume) : Nat :=
  let s := v.super
  (((s.blocksCount - s.firstDataBlock) % s.blocksPerGroup + (2 ^ s.clusterRatioBits - 1)) >>> s.clusterRatioBits) %
  2 ^ 32

def padLast (v : Volume) (i : Nat) (buf : Mem) : Mem :=
  if i = v.groupDescCount - 1 ∧ v.lastBits ≠ 0 then setBits buf v.lastBits (v.super.blksize * 8 - v.lastBits) else buf

/-- The buffer is written to the block; 0 is no block.  `io` says which blocks can be written. -/
def storeBlock (io : Nat → Bool) (disk : Disk) (block : Nat) (buf : Mem) : Disk × Option Errno :=
  if block = 0 then (disk, none)
  else if io block then (Function.update disk block buf, none)
  else (disk, some Errno.EIO)

/-- The part of `ext2_write_bitmaps` for the blocks of a group. -/
def writeBlockGroup (io : Nat → Bool) (v : Volume) (disk : Disk) (i : Nat) : (Volume × Disk) × Option Errno :=
  let nbytes := v.super.clustersPerGroup / 8
  if v.super.hasGroupDescChecksum ∧ v.bgTestFlags i 2 ≠ 0 then ((v, disk), none)
  else
    match getBitmapRange v.blockBitmap (v.blkitr i) (nbytes * 8) with
    | .error e => ((v, disk), some e)
    | .ok bytes =>
      let buf := v.padLast i (bitmapBuf nbytes bytes)
      let v := v.blockBitmapChecksumUpdate crc i (copyOut buf 0 nbytes)
      let v := v.groupDescChecksumUpdate crc i
      let r := storeBlock io disk (v.blockBitmapLoc i) buf
      ((v, r.1), r.2)

/-- The part of `ext2_write_bitmaps` for the inodes of a group. -/
def writeInodeGroup (io : Nat → Bool) (v : Volume) (disk : Disk) (i : Nat) : (Volume × Disk) × Option Errno :=
  let nbytes := (v.super.inodesPerGroup + 7) / 8
  if v.super.hasGroupDescChecksum ∧ v.bgTestFlags i 1 ≠ 0 then ((v, disk), none)
  else
    match getBitmapRange v.inodeBitmap (1 + i * (nbytes * 8)) (nbytes * 8) with
    | .error e => ((v, disk), some e)
    | .ok bytes =>
      let buf := bitmapBuf nbytes bytes
      let v := v.inodeBitmapChecksumUpdate crc i (copyOut buf 0 nbytes)
      let v := v.groupDescChecksumUpdate crc i
      let r := storeBlock io disk (v.inodeBitmapLoc i) buf
      ((v, r.1), r.2)

/-- The loop of `ext2_write_bitmaps` over the groups. -/
def writeGroups (io : Nat → Bool) (doBlock doInode : Bool) : List Nat → Volume × Disk → (Volume × Disk) × Option Errno
  | [], s => (s, none)
  | i :: is, s =>
    match if doBlock then writeBlockGroup crc io s.1 s.2 i else (s, none) with
    | (s, some e) => (s, some e)
    | (s, none) =>
      match if doInode then writeInodeGroup crc io s.1 s.2 i else (s, none) with
      | (s, some e) => (s, some e)
      | (s, none) => writeGroups io doBlock doInode is s

/-- `ext2_write_bitmaps`; undefined if the bytes of a group do not fit in a block. -/
def writeBitmaps (io : Nat → Bool) (v : Volume) (disk : Disk) : Option ((Volume × Disk) × Option Errno) :=
  if v.readOnly then some ((v, disk), some .EROFS)
  else if (v.bbDirty ∧ v.super.blksize < v.super.clustersPerGroup / 8) ∨
    (v.ibDirty ∧ v.super.blksize < (v.super.inodesPerGroup + 7) / 8) then none
  else
    match writeGroups crc io v.bbDirty v.ibDirty (List.range v.groupDescCount) (v, disk) with
    | (s, some e) => some (s, some e)
    | (s, none) => some (({ s.1 with bbDirty := false, ibDirty := false }, s.2), none)

/-! ### Reading -/

/-- `ext2_allocate_block_bitmap`; the bit array of a 64-bit bitmap is at `addr`. -/
def allocateBlockBitmap (v : Volume) (addr : Nat) : Except Errno Bitmap :=
  let s := v.super
  let start := s.firstDataBlock >>> s.clusterRatioBits
  let last := (s.blocksCount - 1) >>> s.clusterRatioBits
  let realEnd := sub64 (s.clustersPerGroup * v.groupDescCount) 1 + start
  if v.flag64 then .ok (makeBitmap64 start last realEnd s.clusterRatioBits addr)
  else if 2 ^ 32 ≤ last ∨ 2 ^ 32 ≤ realEnd then .error .EUCLEAN
  else .ok (makeBitmap32 start last realEnd)

def allocateInodeBitmap (v : Volume) (addr : Nat) : Except Errno Bitmap :=
  let realEnd := v.super.inodesPerGroup * v.groupDescCount
  if v.flag64 then .ok (makeBitmap64 1 v.super.inodesCount realEnd 0 addr)
  else if 2 ^ 32 ≤ v.super.inodesCount ∨ 2 ^ 32 ≤ realEnd then .error .EUCLEAN
  else .ok (makeBitmap32 1 v.super.inodesCount realEnd)

/-- How a group is read: the loop goes on, it ends with the value 0, or it ends with an error. -/
inductive Read
  | next (b : Bitmap)
  | stop
  | fail (e : Errno)

/-- The bytes of a group go from the block of the descriptor to the bitmap; without a block they are 0. -/
def readGroup (disk : Disk) (b : Bitmap) (block first nbytes : Nat) (valid : List UInt8 → Bool) : Read :=
  let buf := if block = 0 then fun _ => 0 else disk block
  if block ≠ 0 ∧ !valid (copyOut buf 0 nbytes) then .stop
  else
    match setBitmapRange b first (nbytes * 8) buf with
    | .ok b => .next b
    | .error e => .fail e

/-- The block of the bitmap of a group, or 0 if the group has no bitmap on the disk. -/
def bitmapBlock (v : Volume) (i flag loc : Nat) : Nat :=
  if (v.super.hasGroupDescChecksum ∧ v.bgTestFlags i flag ≠ 0 ∧ v.groupDescChecksumValid crc i) ∨
    v.super.blocksCount ≤ loc then 0
  else loc

/-- The loop of `ext2_read_bitmap_start` with both bitmaps. -/
def readGroups (v : Volume) (disk : Disk) : List Nat → Bitmap → Bitmap → Except Errno (Bitmap × Bitmap)
  | [], bb, ib => .ok (bb, ib)
  | i :: is, bb, ib =>
    match readGroup disk bb (v.bitmapBlock crc i 2 (v.blockBitmapLoc i)) (v.blkitr i) (v.super.clustersPerGroup / 8)
      (v.blockBitmapChecksumValid crc i) with
    | .fail e => .error e
    | .stop => .ok (bb, ib)
    | .next bb =>
      let nbytes := v.super.inodesPerGroup / 8
      match readGroup disk ib (v.bitmapBlock crc i 1 (v.inodeBitmapLoc i)) (1 + i * (nbytes * 8)) nbytes
        (v.inodeBitmapChecksumValid crc i) with
      | .fail e => .error e
      | .stop => .ok (bb, ib)
      | .next ib => readGroups v disk is bb ib

/-- `ext2_super_bgd_loc`: the block of the superblock copy, of the old descriptors and of the new ones. -/
def superBgdLoc (v : Volume) (group : Nat) : Nat × Nat × Nat :=
  let s := v.super
  let first := s.firstDataBlock + s.blocksPerGroup * group
  let groupBlock := if first = 0 ∧ s.blksize = 1024 then 1 else first
  let hasSuper := s.bgHasSuper group
  let superBlock := if hasSuper then groupBlock else 0
  let metaBgSize := s.descPerBlock
  if !s.metaBg ∨ group / metaBgSize < s.firstMetaBg then (superBlock, if hasSuper then groupBlock + 1 else 0, 0)
  else if group % metaBgSize = 0 ∨ group % metaBgSize = 1 ∨ group % metaBgSize = metaBgSize - 1 then
    (superBlock, 0, groupBlock + if hasSuper then 1 else 0)
  else (superBlock, 0, 0)

def markIf (p : Prop) [Decidable p] (block : Nat) (b : Bitmap) : Option Bitmap :=
  if p then some (markBitmap b block) else some b

/-- `ext2_reserve_super_bgd`; the number that it returns is not used. -/
def reserveSuperBgd (v : Volume) (group : Nat) (b : Bitmap) : Option Bitmap :=
  let s := v.super
  let (superBlock, oldDesc, newDesc) := v.superBgdLoc group
  let oldDescBlocks := toInt32 (if s.metaBg then s.firstMetaBg else v.descBlocks + s.reservedGdtBlocks)
  let nblocks := if s.blocksCount ≤ wordOf (oldDesc + oldDescBlocks) then toInt32 (sub64 s.blocksCount oldDesc)
    else oldDescBlocks
  (markIf (superBlock ≠ 0 ∨ group = 0) superBlock b).bind fun b =>
  (markIf (group = 0 ∧ s.blksize = 1024 ∧ 0 < s.clusterRatioBits) 0 b).bind fun b =>
  (if oldDesc ≠ 0 then markBlockBitmapRange b oldDesc nblocks else some b).bind fun b =>
  markIf (newDesc ≠ 0) newDesc b

/-- The blocks of one group in `ext2_mark_uninit_bg_group_blocks`. -/
def markUninitGroup (v : Volume) (b : Bitmap) (i : Nat) : Option Bitmap :=
  if v.bgTestFlags i 2 = 0 then some b
  else
    (v.reserveSuperBgd i b).bind fun b =>
    (if v.inodeTableLoc i ≠ 0 then markBlockBitmapRange b (v.inodeTableLoc i) v.super.inodeBlocksPerGroup
      else some b).bind fun b =>
    (markIf (v.blockBitmapLoc i ≠ 0) (v.blockBitmapLoc i) b).bind fun b =>
    markIf (v.inodeBitmapLoc i ≠ 0) (v.inodeBitmapLoc i) b

/-- `ext2_mark_uninit_bg_group_blocks` -/
def markUninit (v : Volume) (b : Bitmap) : Option Bitmap :=
  (List.range v.groupDescCount).foldlM (fun b i => v.markUninitGroup b i) b

/-- `ext2_read_bitmaps` after both bitmaps have been freed. -/
def readBitmaps (v : Volume) (disk : Disk) (addr : Nat × Nat) : Option (Except Errno Volume) :=
  if v.super.blksize < v.super.clustersPerGroup / 8 ∨ v.super.blksize < v.super.inodesPerGroup / 8 then
    some (.error .EUCLEAN)
  else
    match v.allocateBlockBitmap addr.1, v.allocateInodeBitmap addr.2 with
    | .ok bb, .ok ib =>
      match v.readGroups crc disk (List.range v.groupDescCount) bb ib with
      | .error e => some (.error e)
      | .ok (bb, ib) => (v.markUninit bb).map fun bb => .ok { v with blockBitmap := bb, inodeBitmap := ib }
    | _, _ => some (.error .EUCLEAN)

end Volume

end Pml.Ext2
