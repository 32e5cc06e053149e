import Mathlib.Logic.Function.Basic
import Pml.Basic
import Pml.Lib.ByteMemory

/-!
# Blocks of an ext2 file system (`drivers/fs/ext2/util.c`, `drivers/fs/ext2/bitmap.c`)

The parts of `struct ext2_fs` and `struct ext2_inode` that the block functions use.  A block holds bytes; pointer
blocks are read as little-endian words of 32 bits.  Reads and writes of the device succeed, a cluster is one block,
and the group descriptors, checksums and the inode table, which `ext2_block_alloc_stats` and `ext2_update_inode`
bring up to date, are left out.
-/

namespace Pml.Ext2

open ByteMemory

abbrev ndirBlocks : Nat := 12

abbrev indBlock : Nat := ndirBlocks

abbrev dindBlock : Nat := indBlock + 1

abbrev tindBlock : Nat := dindBlock + 1

/-- `struct ext2_fs`, with the fields of the superblock, the block bitmap and the blocks of the device. -/
structure Fs where
  blksize : Nat
  firstDataBlock : Nat
  blocksCount : Nat
  blocksPerGroup : Nat
  inodesPerGroup : Nat
  logGroupsPerFlex : Nat
  hugeFile : Bool
  bitmap : Nat → Bool
  disk : Nat → Mem

/-- `struct ext2_inode` of a block-mapped file; the pointers are words of 32 bits. -/
structure Inode where
  ino : Nat
  iBlock : Nat → Nat
  iBlock_lt : ∀ i, iBlock i < 2 ^ 32
  iBlocks : Nat
  iBlocksHi : Nat
  hugeFl : Bool

/-- `((uint32_t *) buf)[i]` -/
def word (buf : Mem) (i : Nat) : Nat := readLE buf (4 * i) 4

/-- `((uint32_t *) buf)[i] = v` -/
def setWord (buf : Mem) (i v : Nat) : Mem := writeLE buf (4 * i) 4 v

/-- `ext2_write_blocks` of one block. -/
def Fs.writeBlock (fs : Fs) (b : Nat) (buf : Mem) : Fs := { fs with disk := Function.update fs.disk b buf }

/-! ### Allocation -/

/-- `ext2_find_first_zero_bitmap` on the block bitmap. -/
def findFirstZeroBitmap (fs : Fs) (start last : Nat) : Except Errno Nat :=
  if start < fs.firstDataBlock ∨ fs.blocksCount ≤ last ∨ last < start then .error .EUCLEAN
  else
    match (List.range' start (last + 1 - start)).find? fun b => fs.bitmap b == false with
    | some b => .ok b
    | none => .error .ENOENT

def ext2NewBlock (fs : Fs) (goal : Nat) : Except Errno Nat :=
  match findFirstZeroBitmap fs goal (fs.blocksCount - 1) with
  | .ok b => .ok b
  | .error e =>
    if e = .ENOENT ∧ goal ≠ fs.firstDataBlock then findFirstZeroBitmap fs fs.firstDataBlock (sub64 goal 1)
    else .error e

/-- `ext2_block_alloc_stats` with `inuse` 1. -/
def Fs.markBlock (fs : Fs) (b : Nat) : Fs := { fs with bitmap := Function.update fs.bitmap b true }

/-- `ext2_alloc_block`: the new block is cleared and marked. -/
def ext2AllocBlock (fs : Fs) (goal : Nat) : Except Errno (Fs × Nat) :=
  match ext2NewBlock fs goal with
  | .error e => .error e
  | .ok b => .ok ((fs.writeBlock b fun _ => 0).markBlock b, b)

/-- The first block of the group of an inode, which `ext2_find_inode_goal` returns for an inode without blocks. -/
def inodeGroupGoal (fs : Fs) (ino : Nat) : Nat :=
  let group := (ino - 1) / fs.inodesPerGroup
  let group := if fs.logGroupsPerFlex ≠ 0 then group / 2 ^ fs.logGroupsPerFlex * 2 ^ fs.logGroupsPerFlex else group
  fs.firstDataBlock + group * fs.blocksPerGroup

/-- `ext2_find_inode_goal` for a block-mapped file. -/
def ext2FindInodeGoal (fs : Fs) (inode : Inode) : Nat :=
  if inode.iBlock 0 ≠ 0 then inode.iBlock 0 else inodeGroupGoal fs inode.ino

def Inode.blockCount (fs : Fs) (inode : Inode) : Nat :=
  inode.iBlocks + if fs.hugeFile then inode.iBlocksHi * 2 ^ 32 else 0

def Inode.blockUnit (fs : Fs) (inode : Inode) : Nat :=
  if fs.hugeFile = true ∧ inode.hugeFl = true then 1 else fs.blksize / 512

/-- `ext2_iblk_add_blocks`; on `EOVERFLOW` the inode is unchanged. -/
def ext2IblkAddBlocks (fs : Fs) (inode : Inode) (nblocks : Nat) : Inode × Option Errno :=
  let b := inode.blockCount fs + nblocks * inode.blockUnit fs
  if fs.hugeFile then ({ inode with iBlocksHi := b / 2 ^ 32 % 2 ^ 16, iBlocks := b % 2 ^ 32 }, none)
  else if b > 0xffffffff then (inode, some .EOVERFLOW)
  else ({ inode with iBlocks := b % 2 ^ 32 }, none)

def ext2IblkSubBlocks (fs : Fs) (inode : Inode) (nblocks : Nat) : Except Errno Inode :=
  let n := nblocks * inode.blockUnit fs % 2 ^ 64
  let b := inode.blockCount fs - n
  if inode.blockCount fs < n then .error .EOVERFLOW
  else .ok { inode with
    iBlocksHi := if fs.hugeFile then b / 2 ^ 32 % 2 ^ 16 else inode.iBlocksHi
    iBlocks := b % 2 ^ 32 }

/-- `ext2_block_alloc_stats` with `inuse` -1. -/
def Fs.unmarkBlock (fs : Fs) (b : Nat) : Fs :=
  if fs.firstDataBlock ≤ b ∧ b < fs.blocksCount then { fs with bitmap := Function.update fs.bitmap b false } else fs

def smallFs : Fs := ⟨1024, 1, 100, 8192, 128, 0, false, fun b => decide (b < 60), fun _ _ => 0⟩

/-! ### Lemmas -/

theorem word_lt (buf : Mem) (i : Nat) : word buf i < 2 ^ 32 := readLE_lt buf (4 * i) 4

theorem word_setWord_self (buf : Mem) (i : Nat) {v : Nat} (hv : v < 2 ^ 32) : word (setWord buf i v) i = v := by
  rw [word, setWord, readLE_writeLE_self]
  exact Nat.mod_eq_of_lt hv

theorem word_setWord_of_ne (buf : Mem) {i j : Nat} (v : Nat) (h : j ≠ i) : word (setWord buf i v) j = word buf j :=
  readLE_writeLE_disjoint (by omega)

theorem word_zero (i : Nat) : word (fun _ => 0) i = 0 := rfl

private theorem findFirstZeroBitmap_ok {fs : Fs} {start last b : Nat}
    (h : findFirstZeroBitmap fs start last = .ok b) :
    fs.firstDataBlock ≤ b ∧ b < fs.blocksCount ∧ fs.bitmap b = false := by
  unfold findFirstZeroBitmap at h
  split at h
  · cases h
  · rename_i hrange
    split at h
    · rename_i c hfind
      cases h
      have hb := List.find?_some hfind
      have hmem := List.mem_of_find?_eq_some hfind
      rw [List.mem_range'_1] at hmem
      refine ⟨by omega, by omega, by simpa using hb⟩
    · cases h

theorem ext2NewBlock_ok {fs : Fs} {goal b : Nat} (h : ext2NewBlock fs goal = .ok b) :
    fs.firstDataBlock ≤ b ∧ b < fs.blocksCount ∧ fs.bitmap b = false := by
  unfold ext2NewBlock at h
  split at h
  · rename_i c hc
    cases h
    exact findFirstZeroBitmap_ok hc
  · split at h
    · exact findFirstZeroBitmap_ok h
    · cases h

theorem ext2AllocBlock_ok {fs fs' : Fs} {goal b : Nat} (h : ext2AllocBlock fs goal = .ok (fs', b)) :
    fs.firstDataBlock ≤ b ∧ b < fs.blocksCount ∧ fs.bitmap b = false ∧
      fs' = (fs.writeBlock b fun _ => 0).markBlock b := by
  unfold ext2AllocBlock at h
  split at h
  · cases h
  · rename_i c hc
    cases h
    obtain ⟨h1, h2, h3⟩ := ext2NewBlock_ok hc
    exact ⟨h1, h2, h3, rfl⟩

end Pml.Ext2
