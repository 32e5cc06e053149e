import Pml.Ext2.Attributes
import Pml.Ext2.BlockSet
import Pml.Ext2.ExtentGoto
import Pml.Ext2.ExtentUpdate

/-!
# The blocks of an inode in the inode table (`drivers/fs/ext2/bmap.c`)

The functions on pointers and on extent trees work on `Inode` and `ExtInode`.  Here the two are read from the bytes of
an inode and stored in them, and `ext2_bmap` is put together of both: a lookup, and `BMAP_SET`, which also writes the
inode.  The block functions see the file system as `ExtFs`.
-/

namespace Pml.Ext2

open ByteMemory

/-! ### The 60 bytes of `i_block` -/

/-- The flags `EXT4_HUGE_FILE_FL`, `EXT4_EXTENTS_FL` and `EXT4_INLINE_DATA_FL` of an inode. -/
def flagHuge (m : Mem) : Bool := (readLE m 32 4).testBit 18
def flagExtents (m : Mem) : Bool := (readLE m 32 4).testBit 19
def flagInline (m : Mem) : Bool := (readLE m 32 4).testBit 28

def iSize (m : Mem) : Nat := readLE m 4 4 ||| readLE m 108 4 <<< 32

/-- The inode of a file that has pointers in `i_block`. -/
def pointerInode (ino : Nat) (m : Mem) : Inode where
  ino
  iBlock i := readLE m (40 + 4 * i) 4
  iBlock_lt i := readLE_lt m (40 + 4 * i) 4
  iBlocks := readLE m 28 4
  iBlocksHi := readLE m 116 2
  hugeFl := flagHuge m

def storePointers (m : Mem) (inode : Inode) : Mem :=
  (List.range 15).foldl (fun m i => writeLE m (40 + 4 * i) 4 (inode.iBlock i))
    (writeLE (writeLE m 28 4 inode.iBlocks) 116 2 inode.iBlocksHi)

/-- `struct ext3_extent` -/
def extentAt (m : Mem) (a : Nat) : ExtEntry :=
  ExtEntry.of (readLE m a 4) (readLE m (a + 6) 2 * 2 ^ 32 + readLE m (a + 8) 4) (readLE m (a + 4) 2)

/-- `struct ext3_extent_index` -/
def indexAt (m : Mem) (a : Nat) : ExtEntry :=
  ExtEntry.of (readLE m a 4) (readLE m (a + 8) 2 * 2 ^ 32 + readLE m (a + 4) 4) (readLE m (a + 10) 2)

def storeExtent (m : Mem) (a : Nat) (e : ExtEntry) : Mem :=
  writeLE (writeLE (writeLE (writeLE m a 4 e.block) (a + 4) 2 e.len) (a + 6) 2 (e.ptr / 2 ^ 32)) (a + 8) 4 e.ptr

def storeIndex (m : Mem) (a : Nat) (e : ExtEntry) : Mem :=
  writeLE (writeLE (writeLE (writeLE m a 4 e.block) (a + 4) 4 e.ptr) (a + 8) 2 (e.ptr / 2 ^ 32)) (a + 10) 2 e.len

/-- The root of an extent tree: `struct ext3_extent_header` with four slots. -/
def rootOf (m : Mem) : ExtNode where
  magic := readLE m 40 2
  count := readLE m 42 2
  max := readLE m 44 2
  depth := readLE m 46 2
  generation := readLE m 48 4
  slot i := if readLE m 46 2 = 0 then extentAt m (52 + 12 * i) else indexAt m (52 + 12 * i)

def storeRoot (m : Mem) (nd : ExtNode) : Mem :=
  (List.range 4).foldl
    (fun m i => if nd.depth = 0 then storeExtent m (52 + 12 * i) (nd.slot i)
      else storeIndex m (52 + 12 * i) (nd.slot i))
    (writeLE (writeLE (writeLE (writeLE (writeLE m 40 2 nd.magic) 42 2 nd.count) 44 2 nd.max) 46 2 nd.depth) 48 4
      nd.generation)

/-- The inode of a file that has an extent tree in `i_block`. -/
def extentInode (ino : Nat) (m : Mem) : ExtInode where
  base := pointerInode ino m
  size := iSize m
  extentsFl := flagExtents m
  root := rootOf m

/-! ### `ext2_bmap` -/

/-- `ext3_extent_bmap` without flags: the block, or 0, and whether it is uninitialized. -/
def ext3ExtentBmap (block : Nat) : ExtM (Nat × Bool) := do
  match ← attempt (ext3ExtentGoto 0 block) with
  | .error (.errno .ENOENT) => pure (0, false)
  | .error e => throw e
  | .ok () => do
    let extent ← ext3ExtentGet .current
    let offset := sub64 block extent.lblk % 2 ^ 32
    if extent.lblk ≤ block ∧ offset ≤ extent.len then pure (extent.pblk + offset, extent.uninit) else pure (0, false)

/-- A function on a handle, and `ext3_extent_free` after it. -/
def withHandle {α : Type} (x : ExtM α) (h : ExtHandle) : Option (Except Fault α × ExtHandle) :=
  let r : Except Fault α × ExtHandle := match x h with
    | .ok a h => (.ok a, h)
    | .error e h => (.error e, h)
  match r.1 with
  | .error .undefined => none
  | _ =>
    match ext3ExtentFree r.2 with
    | .ok () _ => some r
    | .error _ _ => none

/-- `ext2_file_block_offset_too_big` -/
def blockTooBig (fs : ExtFs) (m : Mem) (block : Nat) : Bool :=
  decide (2 ^ 32 - 1 ≤ block) || (!flagExtents m && ext2FileBlockOffsetTooBig fs.toFs block)

/-- `ext2_bmap` without flags. -/
def bmapGet (fs : ExtFs) (g : Garbage) (ino : Nat) (m : Mem) (block : Nat) : Option (Except Fault (Nat × Bool)) :=
  if blockTooBig fs m block then some (.error (.errno .EFBIG))
  else if flagInline m then some (.error (.errno .EUCLEAN))
  else if flagExtents m then
    match ext3ExtentOpen fs (extentInode ino m) (extentInode ino m) g with
    | .error e => some (.error (.errno e))
    | .ok h => (withHandle (ext3ExtentBmap block) h).map Prod.fst
  else
    match lookup fs.toFs (pointerInode ino m) block with
    | .error e => some (.error (.errno e))
    | .ok b => some (.ok (b, false))

/-- The two calls of `ext2_update_inode` for an extent in the root: `ext3_extent_replace` does not use the result. -/
def writeRoot (crc : Crc) (v : Volume) (env : CallEnv × CallEnv) (s : InodeStore) (ino : Nat) (m : Mem) :
    Option (InodeStore × Except Errno Unit) :=
  match v.updateInode crc env.1.dev env.1.mem env.1.calloc s ino m 128 with
  | none => none
  | some (s, _) => v.updateInode crc env.2.dev env.2.mem env.2.calloc s ino m 128

/-- The result of `ext2_bmap` after it has written the inode `m`. -/
def written (m : Mem) : Option (InodeStore × Except Errno Unit) → Option (InodeStore × Except Fault Mem)
  | none => none
  | some (s, .error e) => some (s, .error (.errno e))
  | some (s, .ok ()) => some (s, .ok m)

/-- `ext2_bmap` with `BMAP_SET`, where `buffer` tells whether there is memory for a buffer: the inode afterwards. -/
def bmapSet (crc : Crc) (v : Volume) (fs : ExtFs) (g : Garbage) (buffer : Bool) (env : CallEnv × CallEnv)
    (s : InodeStore) (ino : Nat) (m : Mem) (block physblock : Nat) : Option (InodeStore × Except Fault Mem) :=
  if blockTooBig fs m block then some (s, .error (.errno .EFBIG))
  else if flagInline m then some (s, .error (.errno .EUCLEAN))
  else if ¬ buffer then some (s, .error (.errno .ENOMEM))
  else if flagExtents m then
    match ext3ExtentOpen fs (extentInode ino m) (extentInode ino m) g with
    | .error e => some (s, .error (.errno e))
    | .ok h =>
      match withHandle (ext3ExtentSetBmap block physblock false) h with
      | none => none
      | some (.error e, _) => some (s, .error e)
      | some (.ok (), h) => written (storeRoot m h.inode.root) (writeRoot crc v env s ino (storeRoot m h.inode.root))
  else
    match ext2Bmap fs.toFs (pointerInode ino m) setFlags block physblock with
    | (_, .error e) => some (s, .error (.errno e))
    | ((_, inode), .ok _) =>
      let m := storePointers m inode
      written m (v.updateInode crc env.1.dev env.1.mem env.1.calloc s ino m 128)

/-! ### Stored fields -/

private theorem foldl_outside {f : Mem → Nat → Mem} {l : List Nat} {x : Nat} (h : ∀ m, ∀ i ∈ l, f m i x = m x)
    (m : Mem) :
    l.foldl f m x = m x := by
  induction l generalizing m with
  | nil => rfl
  | cons i l ih =>
    rw [List.foldl_cons, ih fun m j hj => h m j (List.mem_cons_of_mem i hj)]
    exact h m i List.mem_cons_self

private theorem readLE_foldl {f : Nat → Nat} {base w : Nat} {l : List Nat} (hl : l.Nodup) {i : Nat} (hi : i ∈ l)
    (m : Mem) :
    readLE (l.foldl (fun m j => writeLE m (base + w * j) w (f j)) m) (base + w * i) w = f i % 256 ^ w := by
  induction l generalizing m with
  | nil => cases hi
  | cons j l ih =>
    obtain ⟨hj, hl⟩ := List.nodup_cons.1 hl
    rw [List.foldl_cons]
    by_cases hin : i ∈ l
    · exact ih hl hin _
    · obtain rfl : i = j := (List.mem_cons.1 hi).resolve_right hin
      rw [← readLE_writeLE_self m (base + w * i) w (f i)]
      refine readLE_congr fun x h1 h2 => foldl_outside (fun m k hk => writeLE_outside ?_) _
      -- the fields before and after that of `i`
      rcases Nat.lt_or_gt_of_ne (fun he : k = i => hj (he ▸ hk)) with hlt | hgt
      · have hle : w * (k + 1) ≤ w * i := Nat.mul_le_mul_left w hlt
        rw [Nat.mul_succ] at hle
        omega
      · have hle : w * (i + 1) ≤ w * k := Nat.mul_le_mul_left w hgt
        rw [Nat.mul_succ] at hle
        omega

private theorem readLE_storePointers (m : Mem) (inode : Inode) {i : Nat} (hi : i < 15) :
    readLE (storePointers m inode) (40 + 4 * i) 4 = inode.iBlock i :=
  (readLE_foldl List.nodup_range (List.mem_range.2 hi) _).trans (Nat.mod_eq_of_lt (inode.iBlock_lt i))

private theorem storePointers_outside {m : Mem} {inode : Inode} {x : Nat} (h1 : x < 28 ∨ 32 ≤ x)
    (h2 : x < 40 ∨ 100 ≤ x) (h3 : x < 116 ∨ 118 ≤ x) : storePointers m inode x = m x := by
  unfold storePointers
  rw [foldl_outside fun m i hi => writeLE_outside ?_, writeLE_outside (by omega), writeLE_outside (by omega)]
  have hlt := List.mem_range.1 hi
  omega

private theorem storeExtent_outside {m : Mem} {a x : Nat} {e : ExtEntry} (h : x < a ∨ a + 12 ≤ x) :
    storeExtent m a e x = m x := by
  unfold storeExtent
  rw [writeLE_outside (by omega), writeLE_outside (by omega), writeLE_outside (by omega), writeLE_outside (by omega)]

private theorem storeIndex_outside {m : Mem} {a x : Nat} {e : ExtEntry} (h : x < a ∨ a + 12 ≤ x) :
    storeIndex m a e x = m x := by
  unfold storeIndex
  rw [writeLE_outside (by omega), writeLE_outside (by omega), writeLE_outside (by omega), writeLE_outside (by omega)]

private theorem extentAt_congr {m m' : Mem} {a : Nat} (h : ∀ x, a ≤ x → x < a + 12 → m x = m' x) :
    extentAt m a = extentAt m' a := by
  unfold extentAt
  rw [readLE_congr fun x h1 h2 => h x (by omega) (by omega), readLE_congr fun x h1 h2 => h x (by omega) (by omega),
    readLE_congr fun x h1 h2 => h x (by omega) (by omega), readLE_congr fun x h1 h2 => h x (by omega) (by omega)]

private theorem extentAt_storeExtent (m : Mem) (a : Nat) (e : ExtEntry) : extentAt (storeExtent m a e) a = e := by
  have hb := e.block_lt
  have hp := e.ptr_lt
  have hl := e.len_lt
  unfold extentAt storeExtent
  rw [readLE_writeLE_disjoint (by omega), readLE_writeLE_disjoint (by omega), readLE_writeLE_disjoint (by omega),
    readLE_writeLE_self, readLE_writeLE_disjoint (by omega), readLE_writeLE_self, readLE_writeLE_self,
    readLE_writeLE_disjoint (by omega), readLE_writeLE_disjoint (by omega), readLE_writeLE_self]
  have hptr : e.ptr / 2 ^ 32 % 256 ^ 2 * 2 ^ 32 + e.ptr % 256 ^ 4 = e.ptr := by omega
  rw [hptr]
  obtain ⟨block, ptr, len, h1, h2, h3⟩ := e
  unfold ExtEntry.of
  simp only [ExtEntry.mk.injEq]
  omega

private theorem storeRoot_outside {m : Mem} {nd : ExtNode} {x : Nat} (h : x < 40 ∨ 100 ≤ x) :
    storeRoot m nd x = m x := by
  unfold storeRoot
  rw [foldl_outside, writeLE_outside (by omega), writeLE_outside (by omega), writeLE_outside (by omega),
    writeLE_outside (by omega), writeLE_outside (by omega)]
  intro m i hi
  have hlt := List.mem_range.1 hi
  split
  · exact storeExtent_outside (by omega)
  · exact storeIndex_outside (by omega)

/-! ### A tree of one extent -/

/-- The root is a leaf with one extent: the first block of the file is `block`. -/
structure LeafRoot (nd : ExtNode) (block : Nat) : Prop where
  magic : nd.magic = extentMagic
  count : nd.count = 1
  max : nd.max = 4
  depth : nd.depth = 0
  slot : nd.slot 0 = ExtEntry.of 0 block 1

theorem LeafRoot.congr {m m' : Mem} {block : Nat} (h : LeafRoot (rootOf m) block)
    (heq : ∀ x, 40 ≤ x → x < 100 → m x = m' x) : LeafRoot (rootOf m') block := by
  have hread : ∀ a n, 40 ≤ a → a + n ≤ 100 → readLE m' a n = readLE m a n :=
    fun a n h1 h2 => readLE_congr fun x h3 h4 => (heq x (by omega) (by omega)).symm
  refine ⟨(hread 40 2 (by decide) (by decide)).trans h.magic, (hread 42 2 (by decide) (by decide)).trans h.count,
    (hread 44 2 (by decide) (by decide)).trans h.max, (hread 46 2 (by decide) (by decide)).trans h.depth, ?_⟩
  have hd : readLE m 46 2 = 0 := h.depth
  have hslot := h.slot
  dsimp only [rootOf] at hslot ⊢
  rw [if_pos hd] at hslot
  rw [if_pos ((hread 46 2 (by decide) (by decide)).trans hd), ← hslot]
  exact extentAt_congr fun x h1 h2 => (heq x (by omega) (by omega)).symm

theorem LeafRoot.stored {nd : ExtNode} {block : Nat} (h : LeafRoot nd block) (m : Mem) :
    LeafRoot (rootOf (storeRoot m nd)) block := by
  unfold storeRoot
  generalize hheader : writeLE (writeLE (writeLE (writeLE (writeLE m 40 2 nd.magic) 42 2 nd.count) 44 2 nd.max) 46 2
    nd.depth) 48 4 nd.generation = header
  have hslots : ((List.range 4).foldl (fun m i => if nd.depth = 0 then storeExtent m (52 + 12 * i) (nd.slot i)
      else storeIndex m (52 + 12 * i) (nd.slot i)) header) =
      storeExtent (storeExtent (storeExtent (storeExtent header 52 (nd.slot 0)) 64 (nd.slot 1)) 76 (nd.slot 2)) 88
        (nd.slot 3) := by
    simp only [h.depth, if_true, show List.range 4 = [0, 1, 2, 3] from rfl, List.foldl_cons, List.foldl_nil]
  rw [hslots]
  generalize hall : storeExtent (storeExtent (storeExtent (storeExtent header 52 (nd.slot 0)) 64 (nd.slot 1)) 76
    (nd.slot 2)) 88 (nd.slot 3) = all
  have hread : ∀ a n, a + n ≤ 52 → readLE all a n = readLE header a n := by
    refine fun a n ha => readLE_congr fun x _ hx => ?_
    rw [← hall, storeExtent_outside (by omega), storeExtent_outside (by omega), storeExtent_outside (by omega),
      storeExtent_outside (by omega)]
  have hmagic : readLE all 40 2 = extentMagic := by
    rw [hread 40 2 (by decide), ← hheader, readLE_writeLE_disjoint (by decide), readLE_writeLE_disjoint (by decide),
      readLE_writeLE_disjoint (by decide), readLE_writeLE_disjoint (by decide), readLE_writeLE_self, h.magic]
    rfl
  have hcount : readLE all 42 2 = 1 := by
    rw [hread 42 2 (by decide), ← hheader, readLE_writeLE_disjoint (by decide), readLE_writeLE_disjoint (by decide),
      readLE_writeLE_disjoint (by decide), readLE_writeLE_self, h.count]
    rfl
  have hmax : readLE all 44 2 = 4 := by
    rw [hread 44 2 (by decide), ← hheader, readLE_writeLE_disjoint (by decide), readLE_writeLE_disjoint (by decide),
      readLE_writeLE_self, h.max]
    rfl
  have hdepth : readLE all 46 2 = 0 := by
    rw [hread 46 2 (by decide), ← hheader, readLE_writeLE_disjoint (by decide), readLE_writeLE_self, h.depth]
    rfl
  refine ⟨hmagic, hcount, hmax, hdepth, ?_⟩
  dsimp only [rootOf]
  rw [if_pos hdepth, ← h.slot, ← extentAt_storeExtent header 52 (nd.slot 0)]
  refine extentAt_congr fun x _ hx => ?_
  rw [← hall, storeExtent_outside (by omega), storeExtent_outside (by omega), storeExtent_outside (by omega)]

section

variable {fs : ExtFs} {inode saved : ExtInode} {g : Garbage} {block : Nat} {h h' : ExtHandle}

private theorem setBmap_empty (hmagic : inode.root.magic = extentMagic) (hmax : inode.root.max = 4)
    (hdepth : inode.root.depth = 0) (hcount : inode.root.count = 0) (hblock : block ≠ 0)
    (h : ext3ExtentSetBmap 0 block false (freshHandle fs inode saved g) = .ok () h') :
    LeafRoot h'.inode.root block := by
  have hro : fs.rdonly = false := by
    unfold ext3ExtentSetBmap at h
    by_contra hn
    rw [if_pos (by simpa [freshHandle] using hn)] at h
    cases h
  unfold ext3ExtentSetBmap at h
  rw [if_neg (by simp [freshHandle, hro]),
    if_pos (by simp [freshHandle, hdepth, ExtHandle.nd, ExtHandle.node, hcount])]
    at h
  -- the entry goes to slot 0, and the inode is written twice
  simp only [ext3ExtentInsert, insertWith, freshHandle, hdepth, zero_add, hcount, Nat.cast_zero, hro,
    Bool.false_eq_true, ↓reduceIte, bind, EStateM.bind, splitIfFull, ExtHandle.nd, ExtHandle.node, hmax,
    nonpos_iff_eq_zero, OfNat.ofNat_ne_zero, openSlot, ExtHandle.put, ExtHandle.setPath, ExtHandle.cur, Int.reduceNeg,
    neg_add_cancel, Int.toNat_zero, fillSlot, attempt, ext3ExtentReplace, Function.update_self, maxLen, newExtent,
    ne_eq, hblock, not_false_eq_true, Nat.lt_one_iff, Nat.pow_eq_zero, and_true, ext3ExtentUpdatePath,
    Function.update_idem, ext2UpdateInode, pure, EStateM.pure, EStateM.Result.ok.injEq, true_and] at h
  rw [← h]
  exact ⟨hmagic, rfl, rfl, rfl, by simp [ExtNode.setSlot, GenExt.entry]⟩

private theorem extentBmap_leaf (hroot : LeafRoot h.inode.root block) (hdepth : h.maxDepth = 0) :
    ∃ h', ext3ExtentBmap 0 h = .ok (block % 2 ^ 48, false) h' ∧ h'.maxPaths = h.maxPaths := by
  obtain ⟨h1, hget, ha, -, hst, -⟩ := get_root (h := h) (by rw [hroot.count]; exact Nat.one_pos)
  have hd : h1.maxDepth = 0 := hst.maxDepth.trans hdepth
  have hread : h1.read 0 = ⟨block % 2 ^ 48, 0, 1, true, false, decide (h1.cur.visitNum ≠ 0)⟩ := by
    unfold ExtHandle.read
    rw [if_pos (ha.level.trans hd.symm), ha.nd_eq, hroot.slot]
    rfl
  have hlblk : (h1.read 0).lblk = 0 := by rw [hread]
  have hlen : (h1.read 0).len = 1 := by rw [hread]
  have hgoto : ext3ExtentGoto 0 0 h = .ok () h1 := by
    rw [ext3ExtentGoto_root hget, show (h1.maxDepth + 1) * 2 ^ 17 = (2 ^ 17 - 1) + 1 by omega, gotoLoop, get_bind,
      if_pos (by omega), if_pos ⟨by omega, by omega⟩]
    rfl
  have hcur : ext3ExtentGet .current h1 = .ok (h1.read 0) h1 := by
    refine get_of_move (show pickMove .current h1 = .ok .current h1 from rfl) ?_ (by simp [ExtHandle.retry])
    change EStateM.Result.ok (h1.cur.curr, false) h1 = _
    rw [ExtHandle.cur, ha.level, ha.curr]
  refine ⟨h1, ?_, hst.maxPaths⟩
  unfold ext3ExtentBmap
  rw [bind_ok (attempt_ok hgoto)]
  dsimp only
  rw [bind_ok hcur, if_pos (by rw [hlblk, hlen]; decide), hread]
  dsimp only
  rw [show sub64 0 0 % 2 ^ 32 = 0 by decide, Nat.add_zero]
  rfl

private theorem initRoot_zero {ino : Nat} {m : Mem} (hzero : ∀ x, 40 ≤ x → x < 100 → m x = 0) :
    (extentInode ino m).initRoot.root.magic = extentMagic ∧ (extentInode ino m).initRoot.root.max = 4 ∧
      (extentInode ino m).initRoot.root.depth = 0 ∧ (extentInode ino m).initRoot.root.count = 0 := by
  have hread : ∀ a n, 40 ≤ a → a + n ≤ 100 → readLE m a n = 0 :=
    fun a n h1 h2 => readLE_eq_zero.2 fun x hx => hzero _ (by omega) (by omega)
  have hslot : ∀ i < 4, (rootOf m).slot i = ExtEntry.of 0 0 0 := by
    intro i hi
    dsimp only [rootOf]
    rw [if_pos (hread 46 2 (by decide) (by decide)), extentAt, hread _ 4 (by omega) (by omega),
      hread _ 2 (by omega) (by omega), hread _ 4 (by omega) (by omega), hread _ 2 (by omega) (by omega)]
    rfl
  have hz : (extentInode ino m).root.isZero = true := by
    unfold ExtNode.isZero
    simp only [Bool.and_eq_true, decide_eq_true_eq, List.all_eq_true, List.mem_range, beq_iff_eq]
    exact ⟨⟨⟨⟨⟨hread 40 2 (by decide) (by decide), hread 42 2 (by decide) (by decide)⟩,
      hread 44 2 (by decide) (by decide)⟩,
      hread 46 2 (by decide) (by decide)⟩, hread 48 4 (by decide) (by decide)⟩, hslot⟩
  unfold ExtInode.initRoot
  rw [if_pos hz]
  exact ⟨rfl, rfl, rfl, rfl⟩

private theorem withHandle_ok {α : Type} {x : ExtM α} {a : α} (hx : withHandle x h = some (.ok a, h')) :
    x h = .ok a h' := by
  unfold withHandle at hx
  cases hr : x h with
  | ok b h1 =>
    rw [hr] at hx
    dsimp only at hx
    split at hx
    · cases hx
      rfl
    · cases hx
  | error e h1 =>
    rw [hr] at hx
    dsimp only at hx
    split at hx
    · cases hx
    · split at hx
      · cases hx
      · cases hx

end

/-! ### The first block -/

section

variable {fs : ExtFs} {g : Garbage} {ino block : Nat} {m : Mem}

private theorem blockTooBig_zero (fs : ExtFs) (m : Mem) : blockTooBig fs m 0 = false := by
  have hsmall : ext2FileBlockOffsetTooBig fs.toFs 0 = false := by
    unfold ext2FileBlockOffsetTooBig
    simp
  unfold blockTooBig
  rw [hsmall]
  simp

theorem bmapGet_leaf (hext : flagExtents m = true) (hinl : flagInline m = false) (hroot : LeafRoot (rootOf m) block) :
    bmapGet fs g ino m 0 = some (.ok (block % 2 ^ 48, false)) := by
  have hinit : (extentInode ino m).initRoot = extentInode ino m := by
    unfold ExtInode.initRoot
    rw [if_neg]
    unfold ExtNode.isZero
    have hmagic : (extentInode ino m).root.magic ≠ 0 := by
      change (rootOf m).magic ≠ 0
      rw [hroot.magic]
      decide
    simp [hmagic]
  have hvalid : (extentInode ino m).root.headerValid rootSize = true := by
    change (rootOf m).headerValid rootSize = true
    unfold ExtNode.headerValid
    rw [hroot.magic, hroot.count, hroot.max]
    decide
  have hopen : ext3ExtentOpen fs (extentInode ino m) (extentInode ino m) g =
      .ok (freshHandle fs (extentInode ino m) (extentInode ino m) g) := by
    unfold ext3ExtentOpen
    rw [hinit]
    dsimp only
    rw [if_neg (by rw [show (extentInode ino m).extentsFl = flagExtents m from rfl, hext]; decide),
      if_neg (by rw [hvalid]; decide)]
  obtain ⟨h', hget, hpaths⟩ := @extentBmap_leaf block (freshHandle fs (extentInode ino m) (extentInode ino m) g) hroot
    hroot.depth
  have hpaths' : h'.maxPaths = 1 := by
    rw [hpaths]
    change (rootOf m).depth + 1 = 1
    rw [hroot.depth]
  have hfree : ext3ExtentFree h' = .ok () h' := by
    unfold ext3ExtentFree
    rw [if_neg]
    rw [hpaths']
    simp
  unfold bmapGet
  rw [if_neg (by rw [blockTooBig_zero]; decide), if_neg (by rw [hinl]; decide), if_pos hext, hopen]
  dsimp only
  unfold withHandle
  rw [hget]
  dsimp only
  rw [hfree]
  rfl

theorem bmapGet_pointer (hext : flagExtents m = false) (hinl : flagInline m = false) :
    bmapGet fs g ino m 0 = some (.ok (readLE m 40 4, false)) := by
  have hlook : lookup fs.toFs (pointerInode ino m) 0 = .ok (readLE m 40 4) := by
    have hsmall : ext2FileBlockOffsetTooBig fs.toFs 0 = false := by simp [ext2FileBlockOffsetTooBig]
    have hpath : blockPath fs.toFs.addrPerBlock 0 = [0] := rfl
    rw [lookup_eq, hsmall, hpath, pathBlock_cons, follow_nil]
    rfl
  unfold bmapGet
  rw [if_neg (by rw [blockTooBig_zero]; decide), if_neg (by rw [hinl]; decide), if_neg (by rw [hext]; decide), hlook]

/-- The inode after the first block has been set: nothing else has changed in the first 116 bytes, the byte 46 is
zero, and the block is mapped. -/
structure FirstBlock (m m' : Mem) (block : Nat) : Prop where
  same : ∀ x, x < 28 ∨ (32 ≤ x ∧ x < 40) ∨ (100 ≤ x ∧ x < 116) → m' x = m x
  zero : m' 46 = 0
  leaf : flagExtents m = true → LeafRoot (rootOf m') block
  pointer : flagExtents m = false → readLE m' 40 4 = block % 2 ^ 32

private theorem firstBlock_root {nd : ExtNode} (h : LeafRoot nd block) (hext : flagExtents m = true) :
    FirstBlock m (storeRoot m nd) block where
  same x hx := storeRoot_outside (by omega)
  zero := by
    have hd : readLE (storeRoot m nd) 46 2 = 0 := (h.stored m).depth
    exact readLE_eq_zero.1 hd 0 (by decide)
  leaf _ := h.stored m
  pointer hn := by
    rw [hext] at hn
    cases hn

private theorem firstBlock_pointers {inode : Inode}
    (hb : inode.iBlock = Function.update (pointerInode ino m).iBlock 0 (block % 2 ^ 32))
    (hzero : ∀ x, 40 ≤ x → x < 100 → m x = 0) (hext : flagExtents m = false) :
    FirstBlock m (storePointers m inode) block where
  same x hx := storePointers_outside (by omega) (by omega) (by omega)
  zero := by
    have h1 : readLE (storePointers m inode) 44 4 = 0 := by
      rw [readLE_storePointers m inode (show 1 < 15 by decide), hb, Function.update_of_ne (by decide)]
      exact readLE_eq_zero.2 fun x hx => hzero _ (by omega) (by omega)
    exact readLE_eq_zero.1 h1 2 (by decide)
  leaf hn := by
    rw [hext] at hn
    cases hn
  pointer _ := by rw [readLE_storePointers m inode (show 0 < 15 by decide), hb, Function.update_self]

private theorem written_ok {r : Option (InodeStore × Except Errno Unit)} {m' : Mem} {s : InodeStore}
    (h : written m r = some (s, .ok m')) : m' = m ∧ r = some (s, .ok ()) := by
  rcases r with - | ⟨s', e | u⟩
  · cases h
  · cases h
  · cases h
    exact ⟨rfl, rfl⟩

private theorem iBlock_addBlocks (fs : Fs) (inode : Inode) (n : Nat) :
    (ext2IblkAddBlocks fs inode n).1.iBlock = inode.iBlock := by
  unfold ext2IblkAddBlocks
  dsimp only
  split
  · rfl
  · split
    · rfl
    · rfl

/-- The first block of an inode without blocks has been set, and the inode has been written. -/
theorem bmapSet_ok {crc : Crc} {v : Volume} {buffer : Bool} {env : CallEnv × CallEnv} {s s' : InodeStore} {m' : Mem}
    (hzero : ∀ x, 40 ≤ x → x < 100 → m x = 0) (hblock : block ≠ 0)
    (h : bmapSet crc v fs g buffer env s ino m 0 block = some (s', .ok m')) :
    FirstBlock m m' block ∧
      ∃ (env : CallEnv) (s₁ : InodeStore), v.updateInode crc env.dev env.mem env.calloc s₁ ino m' 128 = some
      (s', .ok ()) := by
  unfold bmapSet at h
  rw [if_neg (by rw [blockTooBig_zero]; decide)] at h
  split at h
  · cases h
  split at h
  · cases h
  split at h
  · rename_i hext
    split at h
    · cases h
    · rename_i hd hopen
      split at h
      · cases h
      · cases h
      · rename_i h1 hrun
        have hset := withHandle_ok hrun
        obtain ⟨hmagic, hmax, hdepth, hcount⟩ := @initRoot_zero ino m hzero
        unfold ext3ExtentOpen at hopen
        dsimp only at hopen
        split at hopen
        · cases hopen
        split at hopen
        · cases hopen
        cases hopen
        have hroot := setBmap_empty hmagic hmax hdepth hcount hblock hset
        obtain ⟨rfl, hwrite⟩ := written_ok h
        refine ⟨firstBlock_root hroot hext, ?_⟩
        unfold writeRoot at hwrite
        split at hwrite
        · cases hwrite
        · exact ⟨env.2, _, hwrite⟩
  · rename_i hext
    have hset : ext2Bmap fs.toFs (pointerInode ino m) setFlags 0 block =
        ((fs.toFs, (ext2IblkAddBlocks fs.toFs ((pointerInode ino m).setBlock 0 block) 0).1), .ok block) := by
      have hsmall : ext2FileBlockOffsetTooBig fs.toFs 0 = false := by simp [ext2FileBlockOffsetTooBig]
      unfold ext2Bmap
      rw [hsmall]
      simp [bmapBlock, bmapDirect]
    rw [hset] at h
    obtain ⟨rfl, hwrite⟩ := written_ok h
    refine ⟨@firstBlock_pointers ino block m _ ?_ hzero (by simpa using hext), env.1, s, hwrite⟩
    rw [iBlock_addBlocks, Inode.iBlock_setBlock]

end

end Pml.Ext2
