import Pml.Ext2.FileSystem
import Pml.Lib.RadixWalk

/-!
# The block map of a file (`drivers/fs/ext2/bmap.c`)

`ext2Bmap` maps a logical block of a block-mapped file through the direct pointers of the inode or through one, two
or three levels of pointer blocks.  A lookup follows the path of the logical block (`lookup_eq`), so that what
is known about walks in a graph of tables applies to it.
-/

namespace Pml.Ext2

open ByteMemory Radix

/-- The flags `BMAP_ALLOC`, `BMAP_SET` and `BMAP_ZERO`. -/
structure BmapFlags where
  alloc : Bool
  set : Bool
  zero : Bool

def Fs.addrPerBlock (fs : Fs) : Nat := fs.blksize >>> 2

/-- `block_ind_bmap`, with the device also if it fails; `result` is the block to store with `BMAP_SET`. -/
def blockIndBmap (fs : Fs) (flags : BmapFlags) (ind blockno result : Nat) : Fs × Except Errno Nat :=
  if ind = 0 then
    if flags.set then (fs, .error .EINVAL) else (fs, .ok 0)
  else
    let blockbuf := fs.disk ind
    if flags.set then (fs.writeBlock ind (setWord blockbuf blockno result), .ok result)
    else
      let b := word blockbuf blockno
      if b = 0 ∧ flags.alloc = true then
        let goal := if blockno ≠ 0 then word blockbuf (blockno - 1) else ind
        match ext2AllocBlock fs goal with
        | .error e => (fs, .error e)
        | .ok (fs, _) =>
          -- the source assigns the constant 64 here, not the block it has allocated
          let b := 64
          (fs.writeBlock ind (setWord blockbuf blockno b), .ok b)
      else (fs, .ok b)

def blockDindBmap (fs : Fs) (flags : BmapFlags) (dind blockno result : Nat) : Fs × Except Errno Nat :=
  match blockIndBmap fs { flags with set := false } dind (blockno / fs.addrPerBlock) 0 with
  | (fs, .error e) => (fs, .error e)
  | (fs, .ok b) => blockIndBmap fs flags b (blockno % fs.addrPerBlock) result

def blockTindBmap (fs : Fs) (flags : BmapFlags) (tind blockno result : Nat) : Fs × Except Errno Nat :=
  match blockDindBmap fs { flags with set := false } tind (blockno / fs.addrPerBlock) 0 with
  | (fs, .error e) => (fs, .error e)
  | (fs, .ok b) => blockIndBmap fs flags b (blockno % fs.addrPerBlock) result

/-- `ext2_file_block_offset_too_big` for a block-mapped file. -/
def ext2FileBlockOffsetTooBig (fs : Fs) (offset : Nat) : Bool :=
  let n := fs.addrPerBlock
  decide (2 ^ 32 - 1 ≤ offset) || decide (n + n * n + n * n * n + ndirBlocks ≤ offset)

/-- What `ext2_bmap` has found where it arrives at its label `end`. -/
structure Found where
  physblock : Nat
  blocksAlloc : Nat
  dirty : Bool

/-- `inode->i_block[i] = b` -/
def Inode.setBlock (inode : Inode) (i b : Nat) : Inode :=
  { inode with
    iBlock := Function.update inode.iBlock i (b % 2 ^ 32)
    iBlock_lt := by
      intro j
      by_cases h : j = i
      · rw [h, Function.update_self]
        exact Nat.mod_lt _ (by decide)
      · rw [Function.update_of_ne h]
        exact inode.iBlock_lt j }

theorem Inode.iBlock_setBlock (inode : Inode) (i b : Nat) :
    (inode.setBlock i b).iBlock = Function.update inode.iBlock i (b % 2 ^ 32) := rfl

/-- Where the search for a new direct block starts: `ext2_bmap` keeps the goal in the 32 bits of its `b`. -/
def directGoal (fs : Fs) (inode : Inode) (block : Nat) : Nat :=
  (if block ≠ 0 then inode.iBlock (block - 1) else ext2FindInodeGoal fs inode) % 2 ^ 32

def bmapDirect (fs : Fs) (inode : Inode) (flags : BmapFlags) (block physblock : Nat) :
    (Fs × Inode) × Except Errno Found :=
  if flags.set then ((fs, inode.setBlock block physblock), .ok ⟨physblock, 0, true⟩)
  else
    if inode.iBlock block = 0 ∧ flags.alloc = true then
      match ext2AllocBlock fs (directGoal fs inode block) with
      | .error e => ((fs, inode), .error e)
      | .ok (fs, b) => ((fs, inode.setBlock block b), .ok ⟨b % 2 ^ 32, 1, false⟩)
    else ((fs, inode), .ok ⟨inode.iBlock block, 0, false⟩)

/-- The branch of one of the indirect pointers `slot`, where `leaf` follows it. -/
def bmapIndirect (fs : Fs) (inode : Inode) (flags : BmapFlags) (slot physblock : Nat)
    (leaf : Fs → Nat → Fs × Except Errno Nat) : (Fs × Inode) × Except Errno Found :=
  let b := inode.iBlock slot
  if b = 0 then
    if flags.alloc = false then
      if flags.set then ((fs, inode), .error .EINVAL) else ((fs, inode), .ok ⟨physblock, 0, false⟩)
    else
      match ext2AllocBlock fs (inode.iBlock (slot - 1)) with
      | .error e => ((fs, inode), .error e)
      | .ok (fs, b) =>
        match leaf fs (b % 2 ^ 32) with
        | (fs, .error e) => ((fs, inode.setBlock slot b), .error e)
        | (fs, .ok b32) => ((fs, inode.setBlock slot b), .ok ⟨b32, 1, false⟩)
  else
    match leaf fs b with
    | (fs, .error e) => ((fs, inode), .error e)
    | (fs, .ok b32) => ((fs, inode), .ok ⟨b32, 0, false⟩)

/-- The part of `ext2_bmap` up to its label `end`. -/
def bmapBlock (fs : Fs) (inode : Inode) (flags : BmapFlags) (block physblock : Nat) :
    (Fs × Inode) × Except Errno Found :=
  let n := fs.addrPerBlock
  let b32 := physblock % 2 ^ 32
  if block < ndirBlocks then bmapDirect fs inode flags block physblock
  else if block - ndirBlocks < n then
    bmapIndirect fs inode flags indBlock physblock fun fs b => blockIndBmap fs flags b (block - ndirBlocks) b32
  else if block - ndirBlocks - n < n * n then
    bmapIndirect fs inode flags dindBlock physblock fun fs b => blockDindBmap fs flags b (block - ndirBlocks - n) b32
  else
    bmapIndirect fs inode flags tindBlock physblock fun fs b =>
      blockTindBmap fs flags b (block - ndirBlocks - n - n * n) b32

/-- `ext2_bmap` for a block-mapped file, with the device and the inode also if it fails.  `physblock` is what the
caller passes with `BMAP_SET`; the error of `ext2_iblk_add_blocks` is ignored as in the source. -/
def ext2Bmap (fs : Fs) (inode : Inode) (flags : BmapFlags) (block physblock : Nat) :
    (Fs × Inode) × Except Errno Nat :=
  if ext2FileBlockOffsetTooBig fs block then ((fs, inode), .error .EFBIG)
  else
    match bmapBlock fs inode flags block (if flags.set then physblock else 0) with
    | (s, .error e) => (s, .error e)
    | ((fs, inode), .ok r) =>
      let fs := if r.physblock ≠ 0 ∧ flags.zero = true then fs.writeBlock r.physblock fun _ => 0 else fs
      if r.blocksAlloc ≠ 0 ∨ r.dirty = true then
        ((fs, (ext2IblkAddBlocks fs inode r.blocksAlloc).1), .ok r.physblock)
      else ((fs, inode), .ok r.physblock)

/-! ### Lookups follow paths -/

/-- A lookup of `ext2_bmap` without flags. -/
def lookup (fs : Fs) (inode : Inode) (block : Nat) : Except Errno Nat :=
  (ext2Bmap fs inode ⟨false, false, false⟩ block 0).2

def look (fs : Fs) (inode : Inode) (t i : Nat) : Nat := if t = 0 then inode.iBlock i else word (fs.disk t) i

def target (b : Nat) : Option Nat := if b = 0 then none else some b

def blockPath (n block : Nat) : List Nat :=
  if block < ndirBlocks then [block]
  else if block - ndirBlocks < n then [indBlock, block - ndirBlocks]
  else if block - ndirBlocks - n < n * n then
    [dindBlock, (block - ndirBlocks - n) / n, (block - ndirBlocks - n) % n]
  else
    [tindBlock, (block - ndirBlocks - n - n * n) / n / n, (block - ndirBlocks - n - n * n) / n % n,
      (block - ndirBlocks - n - n * n) % n]

section

variable (fs : Fs) (inode : Inode)

@[simp] theorem target_zero : target 0 = none := rfl

theorem target_eq_some {b c : Nat} : target b = some c ↔ b ≠ 0 ∧ c = b := by
  unfold target
  split
  · simp_all
  · simp_all [eq_comm]

def follow (b : Nat) (p : List Nat) : Nat := ((target b).bind fun t => walk (look fs inode) target t p).getD 0

theorem follow_zero (p : List Nat) : follow fs inode 0 p = 0 := rfl

theorem follow_nil (b : Nat) : follow fs inode b [] = b := by
  unfold follow target
  split
  · simp_all
  · rfl

theorem follow_cons {b : Nat} (hb : b ≠ 0) (i : Nat) (p : List Nat) :
    follow fs inode b (i :: p) = follow fs inode (look fs inode b i) p := by
  unfold follow
  rw [target_eq_some.2 ⟨hb, rfl⟩, Option.bind_some, walk_cons]

theorem follow_append (b : Nat) (p q : List Nat) :
    follow fs inode b (p ++ q) = follow fs inode (follow fs inode b p) q := by
  induction p generalizing b with
  | nil => rw [List.nil_append, follow_nil]
  | cons i p ih =>
    by_cases hb : b = 0
    · simp only [hb, follow_zero]
    · rw [List.cons_append, follow_cons fs inode hb, follow_cons fs inode hb, ih]

theorem blockIndBmap_lookup (ind i r : Nat) :
    blockIndBmap fs ⟨false, false, false⟩ ind i r = (fs, .ok (follow fs inode ind [i])) := by
  unfold blockIndBmap
  by_cases h : ind = 0
  · simp [h, follow_zero]
  · rw [follow_cons fs inode h, follow_nil]
    simp [h, look]

theorem blockDindBmap_lookup (dind i r : Nat) : blockDindBmap fs ⟨false, false, false⟩ dind i r =
    (fs, .ok (follow fs inode dind [i / fs.addrPerBlock, i % fs.addrPerBlock])) := by
  unfold blockDindBmap
  simp only [blockIndBmap_lookup fs inode]
  rw [← follow_append]
  rfl

private theorem blockTindBmap_lookup (tind i r : Nat) : blockTindBmap fs ⟨false, false, false⟩ tind i r =
    (fs, .ok (follow fs inode tind
      [i / fs.addrPerBlock / fs.addrPerBlock, i / fs.addrPerBlock % fs.addrPerBlock, i % fs.addrPerBlock])) := by
  unfold blockTindBmap
  simp only [blockDindBmap_lookup fs inode, blockIndBmap_lookup fs inode]
  rw [← follow_append]
  rfl

private theorem bmapIndirect_lookup {slot : Nat} {p : List Nat} {leaf : Fs → Nat → Fs × Except Errno Nat}
    (hleaf : ∀ b, leaf fs b = (fs, .ok (follow fs inode b p))) :
    bmapIndirect fs inode ⟨false, false, false⟩ slot 0 leaf =
      ((fs, inode), .ok ⟨follow fs inode (inode.iBlock slot) p, 0, false⟩) := by
  unfold bmapIndirect
  by_cases h : inode.iBlock slot = 0
  · simp [h, follow_zero]
  · simp [h, hleaf]

def pathBlock (p : List Nat) : Nat := (walk (look fs inode) target 0 p).getD 0

theorem pathBlock_cons (i : Nat) (p : List Nat) :
    pathBlock fs inode (i :: p) = follow fs inode (inode.iBlock i) p := by
  unfold pathBlock follow
  rw [walk_cons]
  rfl

theorem lookup_eq (block : Nat) : lookup fs inode block =
    if ext2FileBlockOffsetTooBig fs block then .error .EFBIG
    else .ok (pathBlock fs inode (blockPath fs.addrPerBlock block)) := by
  unfold lookup ext2Bmap
  by_cases hbig : ext2FileBlockOffsetTooBig fs block = true
  · simp [hbig]
  · have hmap : bmapBlock fs inode ⟨false, false, false⟩ block 0 =
        ((fs, inode), .ok ⟨pathBlock fs inode (blockPath fs.addrPerBlock block), 0, false⟩) := by
      unfold bmapBlock blockPath
      by_cases h1 : block < ndirBlocks
      · simp only [h1, ↓reduceIte, bmapDirect, pathBlock_cons, follow_nil]
        simp
      · by_cases h2 : block - ndirBlocks < fs.addrPerBlock
        · simp only [h1, h2, ↓reduceIte, pathBlock_cons]
          exact bmapIndirect_lookup fs inode fun b => blockIndBmap_lookup fs inode b _ _
        · by_cases h3 : block - ndirBlocks - fs.addrPerBlock < fs.addrPerBlock * fs.addrPerBlock
          · simp only [h1, h2, h3, ↓reduceIte, pathBlock_cons]
            exact bmapIndirect_lookup fs inode fun b => blockDindBmap_lookup fs inode b _ _
          · simp only [h1, h2, h3, ↓reduceIte, pathBlock_cons]
            exact bmapIndirect_lookup fs inode fun b => blockTindBmap_lookup fs inode b _ _
    simp [hbig, hmap]

end

/-! ### Sizes -/

def Fs.BlockSize (fs : Fs) : Prop := ∃ e ≤ 6, fs.blksize = 1024 * 2 ^ e

theorem Fs.BlockSize.facts {fs : Fs} (h : fs.BlockSize) : 1024 ≤ fs.blksize ∧ fs.blksize % 4 = 0 := by
  obtain ⟨e, -, he⟩ := h
  have hpos := Nat.two_pow_pos e
  omega

def onePointer (i b : Nat) (hb : b < 2 ^ 32) : Inode where
  ino := 11
  iBlock := fun j => if j = i then b else 0
  iBlock_lt := by
    intro j
    split
    · exact hb
    · decide
  iBlocks := 2
  iBlocksHi := 0
  hugeFl := false

end Pml.Ext2
