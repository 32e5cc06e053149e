import Mathlib.Data.Finset.Card
import Mathlib.Data.Finset.Range
import Pml.Ext2.BlockMap

/-!
# Allocation of blocks through the block map

`ext2_bmap` with `BMAP_ALLOC` on a logical block that is not mapped.  For the direct pointers it does what it should
as long as the new block and the block count fit (`bmap_alloc_iff`).  Below a pointer block it does not: the block
that `block_ind_bmap` allocates is neither counted nor the one it stores.
-/

namespace Pml.Ext2

open ByteMemory Radix

def FilePath (n : Nat) : List Nat → Prop
  | [] => False
  | i :: q => i ≤ tindBlock ∧ q.length ≤ i + 1 - ndirBlocks ∧ ∀ j ∈ q, j < n

/-- The block `b` is at the place `p` of the file. -/
structure Holds (fs : Fs) (inode : Inode) (p : List Nat) (b : Nat) : Prop where
  path : FilePath fs.addrPerBlock p
  walk : walk (look fs inode) target 0 p = some b

/-- The blocks of the file are distinct blocks that are marked in the bitmap, as is the block of the superblock. -/
structure Consistent (fs : Fs) (inode : Inode) : Prop where
  size : fs.BlockSize
  super : fs.bitmap fs.firstDataBlock = true
  used : ∀ p b, Holds fs inode p b → fs.firstDataBlock ≤ b ∧ b < fs.blocksCount ∧ fs.bitmap b = true
  distinct : ∀ p q b, Holds fs inode p b → Holds fs inode q b → p = q

def newlyAllocated (fs fs' : Fs) : Nat :=
  ((Finset.range fs.blocksCount).filter fun b => fs.bitmap b = false ∧ fs'.bitmap b = true).card

/-- What the allocation of a block for the logical block `l` should do. -/
structure AllocSpec (fs : Fs) (inode : Inode) (l : Nat) (fs' : Fs) (inode' : Inode) (p : Nat) : Prop where
  free : fs.bitmap p = false ∧ fs'.bitmap p = true
  mapped : lookup fs' inode' l = .ok p
  others : ∀ k, k ≠ l → lookup fs' inode' k = lookup fs inode k
  distinct : ∀ q q' b, Holds fs' inode' q b → Holds fs' inode' q' b → q = q'
  counted : inode'.blockCount fs' = inode.blockCount fs + newlyAllocated fs fs' * inode.blockUnit fs

/-! ### What the allocator changes -/

/-- The file system `fs'` comes from `fs` by allocations and writes. -/
structure Extends (fs fs' : Fs) : Prop where
  blksize : fs'.blksize = fs.blksize
  count : fs'.blocksCount = fs.blocksCount
  huge : fs'.hugeFile = fs.hugeFile
  mono : ∀ b, fs.bitmap b = true → fs'.bitmap b = true

/-- The block `x` was allocated between `fs` and `fs'`. -/
structure Fresh (fs fs' : Fs) (x : Nat) : Prop where
  lt : x < fs.blocksCount
  free : fs.bitmap x = false
  marked : fs'.bitmap x = true

section

variable {fs fs1 fs2 : Fs}

theorem Extends.refl (fs : Fs) : Extends fs fs := ⟨rfl, rfl, rfl, fun _ h => h⟩

theorem Extends.trans (h : Extends fs fs1) (h' : Extends fs1 fs2) : Extends fs fs2 :=
  ⟨h'.blksize.trans h.blksize, h'.count.trans h.count, h'.huge.trans h.huge, fun b hb => h'.mono b (h.mono b hb)⟩

theorem Extends.write (fs : Fs) (b : Nat) (buf : Mem) : Extends fs (fs.writeBlock b buf) :=
  ⟨rfl, rfl, rfl, fun _ h => h⟩

theorem Extends.blockCount (h : Extends fs fs1) (inode : Inode) : inode.blockCount fs1 = inode.blockCount fs := by
  rw [Inode.blockCount, h.huge, Inode.blockCount]

theorem Extends.blockUnit (h : Extends fs fs1) (inode : Inode) : inode.blockUnit fs1 = inode.blockUnit fs := by
  rw [Inode.blockUnit, h.huge, h.blksize, Inode.blockUnit]

theorem Fresh.left {x : Nat} (h : Fresh fs fs1 x) (h' : Extends fs1 fs2) : Fresh fs fs2 x :=
  ⟨h.lt, h.free, h'.mono x h.marked⟩

theorem Fresh.right {x : Nat} (h : Extends fs fs1) (h' : Fresh fs1 fs2 x) : Fresh fs fs2 x := by
  refine ⟨h.count ▸ h'.lt, ?_, h'.marked⟩
  by_contra hx
  have hm := h.mono x (Bool.eq_true_of_not_eq_false hx)
  rw [h'.free] at hm
  exact absurd hm (by decide)

theorem Fresh.mem {x : Nat} (h : Fresh fs fs1 x) :
    x ∈ (Finset.range fs.blocksCount).filter fun b => fs.bitmap b = false ∧ fs1.bitmap b = true :=
  Finset.mem_filter.2 ⟨Finset.mem_range.2 h.lt, h.free, h.marked⟩

private theorem newlyAllocated_pos {x : Nat} (h : Fresh fs fs1 x) : 1 ≤ newlyAllocated fs fs1 :=
  Finset.card_pos.2 ⟨x, h.mem⟩

private theorem newlyAllocated_two {x y : Nat} (hx : Fresh fs fs1 x) (hy : Fresh fs fs1 y) (hne : x ≠ y) :
    2 ≤ newlyAllocated fs fs1 :=
  Finset.one_lt_card.2 ⟨x, hx.mem, y, hy.mem, hne⟩

private theorem ext2AllocBlock_extends {goal b : Nat} (h : ext2AllocBlock fs goal = .ok (fs1, b)) :
    Extends fs fs1 ∧ Fresh fs fs1 b ∧ fs.firstDataBlock ≤ b ∧
      fs1.bitmap = Function.update fs.bitmap b true ∧ fs1.disk = Function.update fs.disk b fun _ => 0 := by
  obtain ⟨h1, h2, h3, rfl⟩ := ext2AllocBlock_ok h
  refine ⟨⟨rfl, rfl, rfl, fun c hc => ?_⟩, ⟨h2, h3, Function.update_self _ _ _⟩, h1, rfl, rfl⟩
  by_cases hcb : c = b
  · rw [hcb]
    exact Function.update_self _ _ _
  · exact (Function.update_of_ne hcb _ _).trans hc

end

/-! ### The pointer blocks -/

abbrev allocFlags : BmapFlags := ⟨true, false, false⟩

/-- An allocation below the pointer `b`, along the path `p`. -/
structure LeafAlloc (fs : Fs) (inode : Inode) (b : Nat) (p : List Nat) (fs' : Fs) (c : Nat) : Prop where
  ext : Extends fs fs'
  lt : c < 2 ^ 32
  fresh : (∃ x, Fresh fs fs' x) ∨ (fs' = fs ∧ c = follow fs inode b p)
  zero : b ≠ 0 → follow fs inode b p = 0 → ∃ x, Fresh fs fs' x

theorem LeafAlloc.append {fs fs1 fs2 : Fs} {inode : Inode} {b c d : Nat} {p q : List Nat}
    (h : LeafAlloc fs inode b p fs1 c) (h' : LeafAlloc fs1 inode c q fs2 d) :
    LeafAlloc fs inode b (p ++ q) fs2 d := by
  refine ⟨h.ext.trans h'.ext, h'.lt, ?_, ?_⟩
  · rcases h.fresh with ⟨x, hx⟩ | ⟨rfl, rfl⟩
    · exact Or.inl ⟨x, hx.left h'.ext⟩
    · rcases h'.fresh with ⟨x, hx⟩ | ⟨rfl, rfl⟩
      · exact Or.inl ⟨x, hx⟩
      · exact Or.inr ⟨rfl, (follow_append _ inode b p q).symm⟩
  · intro hb h0
    rcases h.fresh with ⟨x, hx⟩ | ⟨rfl, rfl⟩
    · exact ⟨x, hx.left h'.ext⟩
    · rw [follow_append] at h0
      by_cases hc : follow fs1 inode b p = 0
      · obtain ⟨x, hx⟩ := h.zero hb hc
        exact ⟨x, hx.left h'.ext⟩
      · exact h'.zero hc h0

section

variable {fs fs' : Fs} (inode : Inode) {b i r c : Nat}

private theorem blockIndBmap_alloc (h : blockIndBmap fs allocFlags b i r = (fs', .ok c)) :
    LeafAlloc fs inode b [i] fs' c := by
  unfold blockIndBmap at h
  by_cases hb : b = 0
  · simp only [hb, ↓reduceIte, Bool.false_eq_true] at h
    cases h
    exact ⟨Extends.refl fs, by decide, Or.inr ⟨rfl, by rw [hb, follow_zero]⟩, fun h0 => absurd hb h0⟩
  · have hf : follow fs inode b [i] = word (fs.disk b) i := by
      rw [follow_cons fs inode hb, follow_nil, look, if_neg hb]
    by_cases hw : word (fs.disk b) i = 0
    · simp only [hb, hw, ↓reduceIte, Bool.false_eq_true, and_self] at h
      split at h
      · cases h
      · rename_i fs1 x ha
        cases h
        obtain ⟨he, hx, -⟩ := ext2AllocBlock_extends ha
        have hw := Extends.write fs1 b (setWord (fs.disk b) i 64)
        exact ⟨he.trans hw, by decide, Or.inl ⟨x, hx.left hw⟩, fun _ _ => ⟨x, hx.left hw⟩⟩
    · simp only [hb, hw, ↓reduceIte, Bool.false_eq_true, false_and] at h
      cases h
      exact ⟨Extends.refl fs, word_lt _ _, Or.inr ⟨rfl, hf.symm⟩, fun _ h0 => absurd (hf.symm.trans h0) hw⟩

private theorem blockDindBmap_alloc (h : blockDindBmap fs allocFlags b i r = (fs', .ok c)) :
    LeafAlloc fs inode b [i / fs.addrPerBlock, i % fs.addrPerBlock] fs' c := by
  unfold blockDindBmap at h
  split at h
  · cases h
  · rename_i fs1 d h1
    have ha := blockIndBmap_alloc inode h1
    have hn : fs1.addrPerBlock = fs.addrPerBlock := by rw [Fs.addrPerBlock, ha.ext.blksize, Fs.addrPerBlock]
    rw [hn] at h
    exact ha.append (blockIndBmap_alloc inode h)

private theorem blockTindBmap_alloc (h : blockTindBmap fs allocFlags b i r = (fs', .ok c)) :
    LeafAlloc fs inode b
      [i / fs.addrPerBlock / fs.addrPerBlock, i / fs.addrPerBlock % fs.addrPerBlock, i % fs.addrPerBlock] fs' c := by
  unfold blockTindBmap at h
  split at h
  · cases h
  · rename_i fs1 d h1
    have ha := blockDindBmap_alloc inode h1
    have hn : fs1.addrPerBlock = fs.addrPerBlock := by rw [Fs.addrPerBlock, ha.ext.blksize, Fs.addrPerBlock]
    rw [hn] at h
    exact ha.append (blockIndBmap_alloc inode h)

end

section

variable {fs fs' : Fs} {inode inode' : Inode}

/-- The branch of an indirect pointer counts fewer blocks than it allocates, or returns a block that it has not
allocated. -/
private theorem bmapIndirect_alloc {slot i : Nat} {p : List Nat} {leaf : Fs → Nat → Fs × Except Errno Nat} {r : Found}
    (hleaf : ∀ fs1 b fs2 c, fs1.blksize = fs.blksize → leaf fs1 b = (fs2, .ok c) →
      LeafAlloc fs1 inode b (i :: p) fs2 c)
    (hsuper : fs.bitmap fs.firstDataBlock = true) (hzero : follow fs inode (inode.iBlock slot) (i :: p) = 0)
    (h : bmapIndirect fs inode allocFlags slot 0 leaf = ((fs', inode'), .ok r)) :
    Extends fs fs' ∧ r.dirty = false ∧ inode'.blockCount fs' = inode.blockCount fs ∧
      inode'.blockUnit fs' = inode.blockUnit fs ∧
      (r.blocksAlloc + 1 ≤ newlyAllocated fs fs' ∨ fs'.bitmap r.physblock = fs.bitmap r.physblock) := by
  unfold bmapIndirect at h
  by_cases hb : inode.iBlock slot = 0
  · simp only [hb, ↓reduceIte, Bool.true_eq_false] at h
    split at h
    · cases h
    · rename_i fs1 x halloc
      split at h
      · cases h
      · rename_i c hl
        cases h
        obtain ⟨he, hx, hfirst, hbit, hdisk⟩ := ext2AllocBlock_extends halloc
        have hla := hleaf fs1 _ fs' c he.blksize hl
        have hee := he.trans hla.ext
        have htwo : ∀ y, Fresh fs1 fs' y → 1 + 1 ≤ newlyAllocated fs fs' := by
          intro y hy
          refine newlyAllocated_two (hx.left hla.ext) (Fresh.right he hy) ?_
          rintro rfl
          have hfree := hy.free
          rw [hx.marked] at hfree
          exact absurd hfree (by decide)
        refine ⟨hee, rfl, hee.blockCount _, hee.blockUnit _, ?_⟩
        · rcases hla.fresh with ⟨y, hy⟩ | ⟨rfl, hc⟩
          · exact Or.inl (htwo y hy)
          · by_cases hx32 : x < 2 ^ 32
            · -- the new pointer block is cleared, so that a block is allocated below it
              rw [Nat.mod_eq_of_lt hx32] at hla
              have hx0 : x ≠ 0 := by
                rintro rfl
                rw [Nat.le_zero.1 hfirst, hx.free] at hsuper
                exact absurd hsuper (by decide)
              obtain ⟨y, hy⟩ := hla.zero hx0 (by
                rw [follow_cons _ inode hx0, look, if_neg hx0, hdisk, Function.update_self, word_zero, follow_zero])
              exact Or.inl (htwo y hy)
            · have hcx : c ≠ x := by
                have := hla.lt
                omega
              exact Or.inr (by simp only [hbit, Function.update_of_ne hcx])
  · simp only [hb, ↓reduceIte] at h
    split at h
    · cases h
    · rename_i c hl
      cases h
      have hla := hleaf fs _ fs' c rfl hl
      obtain ⟨y, hy⟩ := hla.zero hb hzero
      exact ⟨hla.ext, rfl, hla.ext.blockCount _, hla.ext.blockUnit _, Or.inl (newlyAllocated_pos hy)⟩

private theorem bmapBlock_alloc {l : Nat} {r : Found} (hsuper : fs.bitmap fs.firstDataBlock = true)
    (hl : ndirBlocks ≤ l) (hzero : pathBlock fs inode (blockPath fs.addrPerBlock l) = 0)
    (h : bmapBlock fs inode allocFlags l 0 = ((fs', inode'), .ok r)) :
    Extends fs fs' ∧ r.dirty = false ∧ inode'.blockCount fs' = inode.blockCount fs ∧
      inode'.blockUnit fs' = inode.blockUnit fs ∧
      (r.blocksAlloc + 1 ≤ newlyAllocated fs fs' ∨ fs'.bitmap r.physblock = fs.bitmap r.physblock) := by
  have hn : ∀ fs1 : Fs, fs1.blksize = fs.blksize → fs1.addrPerBlock = fs.addrPerBlock := by
    intro fs1 h1
    rw [Fs.addrPerBlock, h1, Fs.addrPerBlock]
  unfold bmapBlock at h
  unfold blockPath at hzero
  rw [if_neg (by omega)] at h hzero
  by_cases h2 : l - ndirBlocks < fs.addrPerBlock
  · rw [if_pos h2] at h hzero
    rw [pathBlock_cons] at hzero
    exact bmapIndirect_alloc (fun fs1 b fs2 c _ => blockIndBmap_alloc inode) hsuper hzero h
  · rw [if_neg h2] at h hzero
    by_cases h3 : l - ndirBlocks - fs.addrPerBlock < fs.addrPerBlock * fs.addrPerBlock
    · rw [if_pos h3] at h hzero
      rw [pathBlock_cons] at hzero
      refine bmapIndirect_alloc (fun fs1 b fs2 c h1 hl => ?_) hsuper hzero h
      have ha := blockDindBmap_alloc inode hl
      rwa [hn fs1 h1] at ha
    · rw [if_neg h3] at h hzero
      rw [pathBlock_cons] at hzero
      refine bmapIndirect_alloc (fun fs1 b fs2 c h1 hl => ?_) hsuper hzero h
      have ha := blockTindBmap_alloc inode hl
      rwa [hn fs1 h1] at ha

end

/-! ### The block count -/

def Fs.countLimit (fs : Fs) : Nat := if fs.hugeFile then 2 ^ 48 else 2 ^ 32

section

variable (fs : Fs) (inode : Inode) (n : Nat)

theorem ext2IblkAddBlocks_iBlock : (ext2IblkAddBlocks fs inode n).1.iBlock = inode.iBlock := by
  unfold ext2IblkAddBlocks
  dsimp only
  split
  · rfl
  · split <;> rfl

private theorem ext2IblkAddBlocks_blockCount : (ext2IblkAddBlocks fs inode n).1.blockCount fs =
    if fs.hugeFile then (inode.blockCount fs + n * inode.blockUnit fs) % 2 ^ 48
    else if inode.blockCount fs + n * inode.blockUnit fs < 2 ^ 32 then inode.blockCount fs + n * inode.blockUnit fs
    else inode.blockCount fs := by
  unfold ext2IblkAddBlocks
  dsimp only
  generalize hb : inode.blockCount fs + n * inode.blockUnit fs = b
  by_cases hh : fs.hugeFile = true
  · simp only [hh, ↓reduceIte, Inode.blockCount]
    omega
  · simp only [hh, ↓reduceIte, Bool.false_eq_true]
    by_cases h32 : b < 2 ^ 32
    · simp only [h32, ↓reduceIte, show ¬b > 0xffffffff by omega, Inode.blockCount, hh, Bool.false_eq_true]
      omega
    · simp only [h32, ↓reduceIte, show b > 0xffffffff by omega]

private theorem ext2IblkAddBlocks_le :
    (ext2IblkAddBlocks fs inode n).1.blockCount fs ≤ inode.blockCount fs + n * inode.blockUnit fs := by
  rw [ext2IblkAddBlocks_blockCount]
  split
  · exact Nat.mod_le _ _
  · split
    · exact Nat.le_refl _
    · exact Nat.le_add_right _ _

private theorem ext2IblkAddBlocks_eq_iff (h : 0 < n * inode.blockUnit fs) :
    (ext2IblkAddBlocks fs inode n).1.blockCount fs = inode.blockCount fs + n * inode.blockUnit fs ↔
      inode.blockCount fs + n * inode.blockUnit fs < fs.countLimit := by
  rw [ext2IblkAddBlocks_blockCount, Fs.countLimit]
  split
  · constructor
    · intro he
      rw [← he]
      exact Nat.mod_lt _ (by decide)
    · exact Nat.mod_eq_of_lt
  · split
    · simp_all
    · constructor
      · intro he
        omega
      · intro hlt
        exact absurd hlt (by assumption)

end

private theorem Fs.BlockSize.blockUnit_pos {fs : Fs} (h : fs.BlockSize) (inode : Inode) : 0 < inode.blockUnit fs := by
  have h1 := h.facts.1
  unfold Inode.blockUnit
  split
  · decide
  · omega

/-! ### Allocation of a logical block -/

section

variable {fs fs' : Fs} {inode inode' : Inode} {l p : Nat}

private theorem lookup_eq_zero (h : lookup fs inode l = .ok 0) : ext2FileBlockOffsetTooBig fs l = false ∧
    pathBlock fs inode (blockPath fs.addrPerBlock l) = 0 := by
  rw [lookup_eq] at h
  by_cases hbig : ext2FileBlockOffsetTooBig fs l = true
  · simp [hbig] at h
  · simp only [hbig, Bool.false_eq_true, ↓reduceIte, Except.ok.injEq] at h
    exact ⟨Bool.eq_false_of_not_eq_true hbig, h⟩

private theorem ext2Bmap_alloc_ok (hbig : ext2FileBlockOffsetTooBig fs l = false)
    (h : ext2Bmap fs inode allocFlags l 0 = ((fs', inode'), .ok p)) :
    ∃ inode₁ r, bmapBlock fs inode allocFlags l 0 = ((fs', inode₁), .ok r) ∧ p = r.physblock ∧
      inode' = if r.blocksAlloc ≠ 0 ∨ r.dirty = true then (ext2IblkAddBlocks fs' inode₁ r.blocksAlloc).1 else inode₁
    := by
  unfold ext2Bmap at h
  simp only [hbig, Bool.false_eq_true, ↓reduceIte] at h
  split at h
  · cases h
  · rename_i fs₁ inode₁ r hr
    by_cases hc : r.blocksAlloc ≠ 0 ∨ r.dirty = true
    · simp only [hc, and_false, ↓reduceIte] at h
      cases h
      exact ⟨inode₁, r, hr, rfl, (if_pos hc).symm⟩
    · simp only [hc, and_false, ↓reduceIte] at h
      cases h
      exact ⟨_, r, hr, rfl, (if_neg hc).symm⟩

/-- Below a pointer block the allocation is always wrong: at least the block count is. -/
private theorem not_allocSpec_indirect (hc : Consistent fs inode) (hl : ndirBlocks ≤ l)
    (hun : lookup fs inode l = .ok 0)
    (h : ext2Bmap fs inode allocFlags l 0 = ((fs', inode'), .ok p)) : ¬AllocSpec fs inode l fs' inode' p := by
  obtain ⟨hbig, hzero⟩ := lookup_eq_zero hun
  obtain ⟨inode₁, r, hr, rfl, rfl⟩ := ext2Bmap_alloc_ok hbig h
  obtain ⟨he, hdirty, hcount, hunit, hor⟩ := bmapBlock_alloc hc.super hl hzero hr
  intro hspec
  have hpos := hc.size.blockUnit_pos inode
  rcases hor with hlt | hsame
  · have hcounted := hspec.counted
    have hle : (if r.blocksAlloc ≠ 0 ∨ r.dirty = true then (ext2IblkAddBlocks fs' inode₁ r.blocksAlloc).1
        else inode₁).blockCount fs' ≤ inode.blockCount fs + r.blocksAlloc * inode.blockUnit fs := by
      split
      · rw [← hcount, ← hunit]
        exact ext2IblkAddBlocks_le fs' inode₁ r.blocksAlloc
      · rw [hcount]
        exact Nat.le_add_right _ _
    have hmul := Nat.mul_le_mul_right (inode.blockUnit fs) hlt
    rw [Nat.add_mul, Nat.one_mul] at hmul
    omega
  · have hfree := hspec.free
    rw [hsame, hfree.1] at hfree
    exact absurd hfree.2 (by decide)

private theorem walk_setBlock {x : Nat} (hc : Consistent fs inode) (hl : l < ndirBlocks) (hx : fs.bitmap x = false)
    (hdisk : ∀ t, t ≠ x → fs'.disk t = fs.disk t)
    (hblock : inode'.iBlock = Function.update inode.iBlock l x) {q : List Nat} (hq : FilePath fs.addrPerBlock q)
    (hne : q ≠ [l]) : walk (look fs' inode') target 0 q = walk (look fs inode) target 0 q := by
  refine (walk_trail_congr fun q0 j rest t hsplit ht => ?_).1
  by_cases ht0 : t = 0
  · -- the inode itself: the pointer is another one
    subst ht0
    have hq0 : q0 = [] := by
      rcases List.eq_nil_or_concat q0 with h0 | ⟨q1, i, rfl⟩
      · exact h0
      · rw [List.concat_eq_append] at ht
        obtain ⟨u, -, hu⟩ := walk_left ht
        rw [walk_singleton] at hu
        exact absurd (target_eq_some.1 hu).2.symm (target_eq_some.1 hu).1
    subst hq0
    rw [List.nil_append] at hsplit
    subst hsplit
    have hjl : j ≠ l := by
      rintro rfl
      have hlen := hq.2.1
      rw [show j + 1 - ndirBlocks = 0 by omega] at hlen
      exact hne (by rw [List.eq_nil_of_length_eq_zero (Nat.le_zero.1 hlen)])
    simp only [look, ↓reduceIte, hblock, Function.update_of_ne hjl]
  · -- a pointer block of the file, which is marked in the bitmap
    have htx : t ≠ x := by
      rintro rfl
      have hpath : FilePath fs.addrPerBlock q0 := by
        cases q0 with
        | nil =>
          rw [walk_nil] at ht
          exact absurd (Option.some.inj ht).symm ht0
        | cons i q1 =>
          rw [hsplit, List.cons_append] at hq
          obtain ⟨h1, h2, h3⟩ := hq
          refine ⟨h1, ?_, fun k hk => h3 k (List.mem_append_left _ hk)⟩
          rw [List.length_append] at h2
          omega
      have hused := (hc.used q0 t ⟨hpath, ht⟩).2.2
      rw [hx] at hused
      exact absurd hused (by decide)
    simp only [look, ht0, ↓reduceIte, hdisk t htx]

theorem blockPath_filePath {k : Nat} (hbig : ext2FileBlockOffsetTooBig fs k = false) :
    FilePath fs.addrPerBlock (blockPath fs.addrPerBlock k) := by
  simp only [ext2FileBlockOffsetTooBig, Bool.or_eq_false_iff, decide_eq_false_iff_not] at hbig
  obtain ⟨-, hbig⟩ := hbig
  generalize fs.addrPerBlock = n at *
  unfold blockPath
  by_cases h1 : k < ndirBlocks
  · rw [if_pos h1]
    exact ⟨Nat.le_trans (Nat.le_of_lt h1) (by decide), Nat.zero_le _, by simp⟩
  · rw [if_neg h1]
    by_cases h2 : k - ndirBlocks < n
    · rw [if_pos h2]
      exact ⟨by decide, by simp, by simpa using h2⟩
    · rw [if_neg h2]
      by_cases h3 : k - ndirBlocks - n < n * n
      · have hn : 0 < n := Nat.pos_of_ne_zero fun h => by simp [h] at h3
        rw [if_pos h3]
        refine ⟨by decide, Nat.le_refl 2, ?_⟩
        intro j hj
        simp only [List.mem_cons, List.not_mem_nil, or_false] at hj
        rcases hj with rfl | rfl
        · exact Nat.div_lt_of_lt_mul h3
        · exact Nat.mod_lt _ hn
      · have h4 : k - ndirBlocks - n - n * n < n * n * n := by omega
        have hn : 0 < n := Nat.pos_of_ne_zero fun h => by simp [h] at h4
        rw [if_neg h3]
        refine ⟨by decide, Nat.le_refl 3, ?_⟩
        intro j hj
        simp only [List.mem_cons, List.not_mem_nil, or_false] at hj
        rcases hj with rfl | rfl | rfl
        · rw [Nat.div_div_eq_div_mul]
          exact Nat.div_lt_of_lt_mul h4
        · exact Nat.mod_lt _ hn
        · exact Nat.mod_lt _ hn

private theorem blockPath_ne_direct {k n : Nat} (hk : k ≠ l) : blockPath n k ≠ [l] := by
  unfold blockPath
  split
  · intro h
    exact hk (List.cons.inj h).1
  · split
    · simp
    · split <;> simp

private theorem ext2Bmap_direct (hl : l < ndirBlocks) (hun : lookup fs inode l = .ok 0)
    (h : ext2Bmap fs inode allocFlags l 0 = ((fs', inode'), .ok p)) :
    ∃ x, ext2NewBlock fs (directGoal fs inode l) = .ok x ∧ fs' = (fs.writeBlock x fun _ => 0).markBlock x ∧
      inode' = (ext2IblkAddBlocks fs' (inode.setBlock l x) 1).1 ∧ p = x % 2 ^ 32 := by
  obtain ⟨hbig, hzero⟩ := lookup_eq_zero hun
  obtain ⟨inode₁, r, hr, rfl, rfl⟩ := ext2Bmap_alloc_ok hbig h
  rw [blockPath, if_pos hl, pathBlock_cons, follow_nil] at hzero
  simp only [bmapBlock, if_pos hl, bmapDirect, hzero, Bool.false_eq_true, ↓reduceIte, and_self, ext2AllocBlock] at hr
  split at hr
  · cases hr
  · rename_i fs1 x ha
    cases hr
    split at ha
    · cases ha
    · rename_i x' hx
      cases ha
      exact ⟨x, hx, rfl, rfl, rfl⟩

/-- For a direct pointer the allocation is right if the block number and the block count fit. -/
private theorem allocSpec_direct_iff {x : Nat} (hc : Consistent fs inode) (hl : l < ndirBlocks)
    (hx : ext2NewBlock fs (directGoal fs inode l) = .ok x) (hfs : fs' = (fs.writeBlock x fun _ => 0).markBlock x)
    (hinode : inode' = (ext2IblkAddBlocks fs' (inode.setBlock l x) 1).1) :
    AllocSpec fs inode l fs' inode' (x % 2 ^ 32) ↔
      x < 2 ^ 32 ∧ inode.blockCount fs + inode.blockUnit fs < fs.countLimit := by
  obtain ⟨hfirst, hlt, hfree⟩ := ext2NewBlock_ok hx
  have he : Extends fs fs' := by
    rw [hfs]
    refine ⟨rfl, rfl, rfl, fun b hb => ?_⟩
    by_cases hbx : b = x
    · rw [hbx]
      exact Function.update_self _ _ _
    · exact (Function.update_of_ne hbx _ _).trans hb
  have hbit : fs'.bitmap = Function.update fs.bitmap x true := by rw [hfs]; rfl
  have hdisk : ∀ t, t ≠ x → fs'.disk t = fs.disk t := by
    intro t ht
    rw [hfs]
    exact Function.update_of_ne ht _ _
  have hnew : newlyAllocated fs fs' = 1 := by
    refine Finset.card_eq_one.2 ⟨x, ?_⟩
    ext b
    rw [Finset.mem_filter, Finset.mem_range, Finset.mem_singleton, hbit]
    constructor
    · rintro ⟨-, hb, hb'⟩
      by_contra hbx
      rw [Function.update_of_ne hbx, hb] at hb'
      exact absurd hb' (by decide)
    · rintro rfl
      exact ⟨hlt, hfree, Function.update_self _ _ _⟩
  have hcount : inode'.blockCount fs' = inode.blockCount fs + newlyAllocated fs fs' * inode.blockUnit fs ↔
      inode.blockCount fs + inode.blockUnit fs < fs.countLimit := by
    have hlim : fs'.countLimit = fs.countLimit := by rw [Fs.countLimit, he.huge, Fs.countLimit]
    have hiff := ext2IblkAddBlocks_eq_iff fs' (inode.setBlock l x) 1 (by
      rw [he.blockUnit, Nat.one_mul]
      exact hc.size.blockUnit_pos _)
    rw [← hinode, he.blockCount (inode.setBlock l x), he.blockUnit, Nat.one_mul, hlim] at hiff
    rw [hnew, Nat.one_mul]
    exact hiff
  constructor
  · intro hspec
    refine ⟨?_, hcount.1 hspec.counted⟩
    by_contra hx32
    have hpx : x % 2 ^ 32 ≠ x := by omega
    have hf := hspec.free
    rw [hbit, Function.update_of_ne hpx, hf.1] at hf
    exact absurd hf.2 (by decide)
  · rintro ⟨hx32, hfit⟩
    rw [Nat.mod_eq_of_lt hx32]
    have hblock : inode'.iBlock = Function.update inode.iBlock l x := by
      rw [hinode, ext2IblkAddBlocks_iBlock, Inode.iBlock_setBlock, Nat.mod_eq_of_lt hx32]
    have hn : fs'.addrPerBlock = fs.addrPerBlock := by rw [Fs.addrPerBlock, he.blksize, Fs.addrPerBlock]
    have hbig : ∀ k, ext2FileBlockOffsetTooBig fs' k = ext2FileBlockOffsetTooBig fs k := fun k => by
      rw [ext2FileBlockOffsetTooBig, hn, ext2FileBlockOffsetTooBig]
    have hwalk : ∀ q, FilePath fs.addrPerBlock q → q ≠ [l] →
        walk (look fs' inode') target 0 q = walk (look fs inode) target 0 q := fun q hq hne =>
      walk_setBlock hc hl hfree hdisk hblock hq hne
    have hx0 : x ≠ 0 := by
      rintro rfl
      have hs := hc.super
      rw [Nat.le_zero.1 hfirst, hfree] at hs
      exact absurd hs (by decide)
    -- a place of the new file is a place of the old one, or the new place
    have hplaces : ∀ q b, Holds fs' inode' q b → (q = [l] ∧ b = x) ∨ Holds fs inode q b := by
      intro q b hq
      have hpath := hq.path
      rw [hn] at hpath
      by_cases hql : q = [l]
      · subst hql
        have hw := hq.walk
        rw [walk_singleton, look, if_pos rfl, hblock, Function.update_self] at hw
        exact Or.inl ⟨rfl, (target_eq_some.1 hw).2⟩
      · exact Or.inr ⟨hpath, (hwalk q hpath hql).symm.trans hq.walk⟩
    have hnot : ∀ q, ¬Holds fs inode q x := by
      intro q hq
      have hu := (hc.used q x hq).2.2
      rw [hfree] at hu
      exact absurd hu (by decide)
    refine ⟨⟨hfree, by rw [hbit, Function.update_self]⟩, ?_, ?_, ?_, hcount.2 hfit⟩
    · have hsmall : ext2FileBlockOffsetTooBig fs l = false := by
        simp only [ext2FileBlockOffsetTooBig, ndirBlocks, Bool.or_eq_false_iff, decide_eq_false_iff_not] at hl ⊢
        omega
      rw [lookup_eq, hbig, hsmall, blockPath, if_pos hl, pathBlock_cons, follow_nil, hblock, Function.update_self]
      rfl
    · intro k hk
      rw [lookup_eq, lookup_eq, hbig]
      cases hkbig : ext2FileBlockOffsetTooBig fs k with
      | true => rfl
      | false => rw [hn, pathBlock, hwalk _ (blockPath_filePath hkbig) (blockPath_ne_direct hk), ← pathBlock]
    · intro q q' b hq hq'
      rcases hplaces q b hq with ⟨rfl, rfl⟩ | h1
      · rcases hplaces q' b hq' with ⟨rfl, -⟩ | h2
        · rfl
        · exact absurd h2 (hnot q')
      · rcases hplaces q' b hq' with ⟨-, rfl⟩ | h2
        · exact absurd h1 (hnot q)
        · exact hc.distinct q q' b h1 h2

end

/-- An allocation that succeeds is right exactly for a direct pointer, if the new block number fits into it and the
new block count into the inode. -/
theorem bmap_alloc_iff {fs fs' : Fs} {inode inode' : Inode} {l p : Nat} (hc : Consistent fs inode)
    (hun : lookup fs inode l = .ok 0) (h : ext2Bmap fs inode allocFlags l 0 = ((fs', inode'), .ok p)) :
    AllocSpec fs inode l fs' inode' p ↔ l < ndirBlocks ∧
      (∀ b, ext2NewBlock fs (directGoal fs inode l) = .ok b → b < 2 ^ 32) ∧
      inode.blockCount fs + inode.blockUnit fs < fs.countLimit := by
  by_cases hl : l < ndirBlocks
  · obtain ⟨x, hx, hfs, hinode, rfl⟩ := ext2Bmap_direct hl hun h
    have hfit : (∀ b, ext2NewBlock fs (directGoal fs inode l) = .ok b → b < 2 ^ 32) ↔ x < 2 ^ 32 := by
      constructor
      · intro hall
        exact hall x hx
      · intro hx32 b hb
        rw [hx] at hb
        cases hb
        exact hx32
    rw [allocSpec_direct_iff hc hl hx hfs hinode, hfit]
    exact ⟨fun h => ⟨hl, h⟩, fun h => h.2⟩
  · constructor
    · intro hspec
      exact absurd hspec (not_allocSpec_indirect hc (Nat.le_of_not_lt hl) hun h)
    · rintro ⟨hlt, -⟩
      exact absurd hlt hl

theorem onePointer_holds {i : Nat} {p : List Nat} {b : Nat} (h : Holds smallFs (onePointer i 50 (by decide)) p b) :
    p = [i] ∧ b = 50 := by
  obtain ⟨hpath, hw⟩ := h
  cases p with
  | nil => exact absurd hpath (by simp [FilePath])
  | cons j q =>
    rw [walk_cons, look, if_pos rfl] at hw
    by_cases hj : j = i
    · subst hj
      simp only [onePointer, ↓reduceIte, target] at hw
      cases q with
      | nil => exact ⟨rfl, by simpa using hw.symm⟩
      | cons k q =>
        rw [if_neg (by decide), Option.bind_some, walk_cons] at hw
        cases hw
    · simp [onePointer, hj] at hw

theorem onePointer_consistent {i : Nat} :
    Consistent smallFs (onePointer i 50 (by decide)) := by
  refine ⟨⟨0, by decide, rfl⟩, by decide, fun p b h => ?_, fun p q b h h' => ?_⟩
  · obtain ⟨-, rfl⟩ := onePointer_holds h
    decide
  · rw [(onePointer_holds h).1, (onePointer_holds h').1]

/-- A fourth block after a file of one block gets the first free block. -/
theorem bmap_alloc_small : Consistent smallFs (onePointer 3 50 (by decide)) ∧
    ∃ fs' inode', ext2Bmap smallFs (onePointer 3 50 (by decide)) allocFlags 4 0 = ((fs', inode'), .ok 60) ∧
      AllocSpec smallFs (onePointer 3 50 (by decide)) 4 fs' inode' 60 := by
  have hc : Consistent smallFs (onePointer 3 50 (by decide)) := onePointer_consistent
  have hnew : ext2NewBlock smallFs (directGoal smallFs (onePointer 3 50 (by decide)) 4) = .ok 60 := rfl
  refine ⟨hc, _, _, rfl, (bmap_alloc_iff hc rfl rfl).2 ⟨by decide, fun b hb => ?_, by decide⟩⟩
  rw [hnew] at hb
  cases hb
  decide

/-- The first block of the indirect range: block 61 is allocated for it, and block 64 is stored and returned. -/
theorem not_bmap_alloc : ¬∀ fs inode l fs' inode' p, Consistent fs inode → lookup fs inode l = .ok 0 →
    ext2Bmap fs inode allocFlags l 0 = ((fs', inode'), .ok p) → AllocSpec fs inode l fs' inode' p := by
  intro hall
  have hc : Consistent smallFs (onePointer 11 50 (by decide)) := onePointer_consistent
  have hun : lookup smallFs (onePointer 11 50 (by decide)) 12 = .ok 0 := rfl
  have hrun : (ext2Bmap smallFs (onePointer 11 50 (by decide)) allocFlags 12 0).2.toOption = some 64 := by
    decide
  rcases hr : ext2Bmap smallFs (onePointer 11 50 (by decide)) allocFlags 12 0 with ⟨⟨fs', inode'⟩, e | p⟩
  · rw [hr] at hrun
    cases hrun
  · exact not_allocSpec_indirect hc (by decide) hun hr (hall _ _ _ _ _ _ hc hun hr)

end Pml.Ext2
