import Pml.Ext2.BlockMap

/-!
# Iterating over the blocks of a file (`drivers/fs/ext2/util.c`)

`ext2_block_iterate` on a block-mapped file, with the flag `BLOCK_FLAG_DATA_ONLY` only and a callback that returns
zero and leaves its block as it is.  The iteration reads pointer blocks into a buffer of three blocks and takes as
many words from each of them as a block has bytes, so that it goes on into the words after the pointer block.  It
agrees with the lookups whatever these words are exactly if the file has no pointer blocks (`iteration_agrees_iff`).
-/

namespace Pml.Ext2

open ByteMemory Radix

/-- `struct ext2_block_ctx`.  The memory `buf` starts with the buffers `ind_buf`, `dind_buf` and `tind_buf` of one
block each and goes on after them; `calls` are the logical and physical blocks given to the callback so far. -/
structure BlockCtx where
  buf : Mem
  blkcnt : Nat
  calls : List (Nat × Nat)
  err : Option Errno

/-- `ext2_read_blocks` of one block into the buffer at `off`. -/
def BlockCtx.read (ctx : BlockCtx) (fs : Fs) (off b : Nat) : BlockCtx :=
  { ctx with
    buf := fun x => if off ≤ x ∧ x < off + fs.blksize then fs.disk b (x - off) else ctx.buf x
    err := none }

def BlockCtx.wordAt (ctx : BlockCtx) (off i : Nat) : Nat := readLE ctx.buf (off + 4 * i) 4

/-- One round of the loop of `ext2_block_iterate_ind`. -/
def iterateIndStep (ctx : BlockCtx) (i : Nat) : BlockCtx :=
  { ctx with
    calls := if ctx.wordAt 0 i = 0 then ctx.calls else ctx.calls ++ [(ctx.blkcnt, ctx.wordAt 0 i)]
    blkcnt := ctx.blkcnt + 1 }

def Fs.validBlock (fs : Fs) (b : Nat) : Bool := decide (fs.firstDataBlock ≤ b) && decide (b < fs.blocksCount)

/-- `ext2_block_iterate_ind`; the second component is the flag `BLOCK_ERROR`. -/
def iterateInd (fs : Fs) (ind : Nat) (ctx : BlockCtx) : BlockCtx × Bool :=
  let limit := fs.blksize
  if ind = 0 then ({ ctx with blkcnt := ctx.blkcnt + limit }, false)
  else if fs.validBlock ind = false then ({ ctx with err := some .EUCLEAN }, true)
  else ((List.range limit).foldl iterateIndStep (ctx.read fs 0 ind), false)

/-- The loop over the words of the buffer at `off` from `i` on, with the number of rounds that remain.  Both
`ext2_block_iterate_dind` and `ext2_block_iterate_tind` go on with `ext2_block_iterate_ind`. -/
def pointerLoop (fs : Fs) (off skip : Nat) : Nat → Nat → BlockCtx → BlockCtx × Bool
  | 0, _, ctx => (ctx, false)
  | k + 1, i, ctx =>
    let b := ctx.wordAt off i
    if b = 0 then pointerLoop fs off skip k (i + 1) { ctx with blkcnt := ctx.blkcnt + skip + 1 }
    else
      let r := iterateInd fs b ctx
      if r.2 = true then r else pointerLoop fs off skip k (i + 1) { r.1 with blkcnt := r.1.blkcnt + 1 }

def intMul (a b : Nat) : Nat := a * b % 2 ^ 32

def iterateDind (fs : Fs) (dind : Nat) (ctx : BlockCtx) : BlockCtx × Bool :=
  let limit := fs.blksize
  if dind = 0 then ({ ctx with blkcnt := ctx.blkcnt + intMul limit limit }, false)
  else if fs.validBlock dind = false then ({ ctx with err := some .EUCLEAN }, true)
  else pointerLoop fs fs.blksize limit limit 0 (ctx.read fs fs.blksize dind)

def iterateTind (fs : Fs) (tind : Nat) (ctx : BlockCtx) : BlockCtx × Bool :=
  let limit := fs.blksize
  if tind = 0 then ({ ctx with blkcnt := ctx.blkcnt + limit * limit * limit }, false)
  else if fs.validBlock tind = false then ({ ctx with err := some .EUCLEAN }, true)
  else pointerLoop fs (2 * fs.blksize) (intMul limit limit) limit 0 (ctx.read fs (2 * fs.blksize) tind)

def iterateDirectStep (inode : Inode) (ctx : BlockCtx) (i : Nat) : BlockCtx :=
  { ctx with
    calls := if inode.iBlock i = 0 then ctx.calls else ctx.calls ++ [(ctx.blkcnt, inode.iBlock i)]
    blkcnt := ctx.blkcnt + 1 }

def iterateDirect (inode : Inode) (buf : Mem) : BlockCtx :=
  (List.range ndirBlocks).foldl (iterateDirectStep inode) ⟨buf, 0, [], none⟩

/-- An indirect pointer of the inode: followed by `iter`, or skipped if it is zero. -/
def iterateRoot (inode : Inode) (slot skip : Nat) (iter : Nat → BlockCtx → BlockCtx × Bool) (ctx : BlockCtx) :
    BlockCtx × Bool :=
  if inode.iBlock slot ≠ 0 then iter (inode.iBlock slot) ctx else ({ ctx with blkcnt := ctx.blkcnt + skip }, false)

/-- `ext2_block_iterate`, with what the memory at `ctx.ind_buf` holds at the start. -/
def ext2BlockIterate (fs : Fs) (inode : Inode) (buf : Mem) : BlockCtx × Option Errno :=
  let limit := fs.blksize >>> 2
  let r1 := iterateRoot inode indBlock limit (iterateInd fs) (iterateDirect inode buf)
  let r2 := iterateRoot inode dindBlock (intMul limit limit) (iterateDind fs) r1.1
  let r3 := iterateRoot inode tindBlock 0 (iterateTind fs) r2.1
  (r3.1, if r1.2 || r2.2 || r3.2 then r3.1.err else none)

def IterationAgrees (fs : Fs) (inode : Inode) (calls : List (Nat × Nat)) : Prop :=
  calls.Pairwise (fun a b => a.1 < b.1) ∧ ∀ k p, (k, p) ∈ calls ↔ lookup fs inode k = .ok p ∧ p ≠ 0

/-! ### Calls of the loops -/

section

variable {fs : Fs}

private theorem foldl_iterateIndStep (ctx : BlockCtx) (l : Nat) :
    ((List.range l).foldl iterateIndStep ctx).buf = ctx.buf ∧
      ((List.range l).foldl iterateIndStep ctx).blkcnt = ctx.blkcnt + l ∧
      ((List.range l).foldl iterateIndStep ctx).calls = ctx.calls ++ (List.range l).filterMap fun i =>
        if ctx.wordAt 0 i = 0 then none else some (ctx.blkcnt + i, ctx.wordAt 0 i) := by
  induction l with
  | zero => simp
  | succ l ih =>
    obtain ⟨h1, h2, h3⟩ := ih
    have hw : ((List.range l).foldl iterateIndStep ctx).wordAt 0 l = ctx.wordAt 0 l := by
      rw [BlockCtx.wordAt, h1, BlockCtx.wordAt]
    rw [List.range_succ, List.foldl_append, List.filterMap_append]
    simp only [List.foldl_cons, List.foldl_nil, iterateIndStep, hw, h1, h2, h3]
    refine ⟨trivial, by omega, ?_⟩
    by_cases h0 : ctx.wordAt 0 l = 0
    · simp [h0]
    · simp [h0]

private theorem mem_iterateInd {ind : Nat} {ctx : BlockCtx} (h0 : ind ≠ 0) (hv : fs.validBlock ind = true) {j y : Nat}
    (hj : j < fs.blksize) (hy : (ctx.read fs 0 ind).wordAt 0 j = y) (hy0 : y ≠ 0) :
    (ctx.blkcnt + j, y) ∈ (iterateInd fs ind ctx).1.calls := by
  have h := (foldl_iterateIndStep (ctx.read fs 0 ind) fs.blksize).2.2
  simp only [iterateInd, h0, hv, Bool.true_eq_false, ↓reduceIte, h]
  refine List.mem_append_right _ (List.mem_filterMap.2 ⟨j, List.mem_range.2 hj, ?_⟩)
  rw [hy, if_neg hy0]
  rfl

private theorem iterateInd_mono (fs : Fs) (ind : Nat) (ctx : BlockCtx) :
    ctx.calls ⊆ (iterateInd fs ind ctx).1.calls := by
  unfold iterateInd
  by_cases h0 : ind = 0
  · simp [h0]
  · by_cases hv : fs.validBlock ind = false
    · simp [h0, hv]
    · simp only [h0, hv, Bool.true_eq_false, ↓reduceIte]
      rw [(foldl_iterateIndStep _ _).2.2]
      exact List.subset_append_left _ _

private theorem pointerLoop_mono (off skip k i : Nat) (ctx : BlockCtx) :
    ctx.calls ⊆ (pointerLoop fs off skip k i ctx).1.calls := by
  induction k generalizing i ctx with
  | zero => exact List.Subset.refl _
  | succ k ih =>
    unfold pointerLoop
    by_cases h0 : ctx.wordAt off i = 0
    · simp only [h0, ↓reduceIte]
      exact ih (i + 1) { ctx with blkcnt := ctx.blkcnt + skip + 1 }
    · simp only [h0, ↓reduceIte]
      have h1 := iterateInd_mono fs (ctx.wordAt off i) ctx
      split
      · exact h1
      · have h2 := ih (i + 1) { (iterateInd fs (ctx.wordAt off i) ctx).1 with
          blkcnt := (iterateInd fs (ctx.wordAt off i) ctx).1.blkcnt + 1 }
        exact List.Subset.trans h1 h2

/-- The first pointer that is not zero is followed, after the rounds for the zeros before it. -/
private theorem mem_pointerLoop {off skip k i : Nat} (ctx : BlockCtx) (i0 : Nat) (hk : i0 < k)
    (hzero : ∀ j, j < i0 → ctx.wordAt off (i + j) = 0) (h0 : ctx.wordAt off (i + i0) ≠ 0)
    (hv : fs.validBlock (ctx.wordAt off (i + i0)) = true) {j y : Nat} (hj : j < fs.blksize)
    (hy : (ctx.read fs 0 (ctx.wordAt off (i + i0))).wordAt 0 j = y) (hy0 : y ≠ 0) :
    (ctx.blkcnt + i0 * (skip + 1) + j, y) ∈ (pointerLoop fs off skip k i ctx).1.calls := by
  induction i0 generalizing k i ctx with
  | zero =>
    obtain ⟨k, rfl⟩ : ∃ k', k = k' + 1 := ⟨k - 1, by omega⟩
    rw [Nat.add_zero] at h0 hv hy
    have hmem := mem_iterateInd h0 hv hj hy hy0
    unfold pointerLoop
    simp only [h0, ↓reduceIte, Nat.zero_mul, Nat.add_zero]
    split
    · exact hmem
    · exact pointerLoop_mono off skip k (i + 1) _ hmem
  | succ i0 ih =>
    obtain ⟨k, rfl⟩ : ∃ k', k = k' + 1 := ⟨k - 1, by omega⟩
    have hz := hzero 0 (by omega)
    rw [Nat.add_zero] at hz
    unfold pointerLoop
    simp only [hz, ↓reduceIte]
    have e1 : i + (i0 + 1) = i + 1 + i0 := by omega
    rw [e1] at h0 hv hy
    have hrest : ∀ j, j < i0 → ctx.wordAt off (i + 1 + j) = 0 := by
      intro j hj
      rw [← hzero (j + 1) (by omega), show i + (j + 1) = i + 1 + j by omega]
    have e2 : ctx.blkcnt + (i0 + 1) * (skip + 1) + j = ctx.blkcnt + skip + 1 + i0 * (skip + 1) + j := by
      rw [Nat.succ_mul]
      omega
    rw [e2]
    exact ih { ctx with blkcnt := ctx.blkcnt + skip + 1 } (by omega) hrest h0 hv hy

private theorem foldl_iterateDirectStep (inode : Inode) (buf : Mem) (l : Nat) :
    (List.range l).foldl (iterateDirectStep inode) ⟨buf, 0, [], none⟩ =
      ⟨buf, l, (List.range l).filterMap fun i => if inode.iBlock i = 0 then none else some (i, inode.iBlock i), none⟩
    := by
  induction l with
  | zero => rfl
  | succ l ih =>
    rw [List.range_succ, List.foldl_append, List.filterMap_append, ih]
    simp only [List.foldl_cons, List.foldl_nil, iterateDirectStep]
    by_cases h0 : inode.iBlock l = 0
    · simp [h0]
    · simp [h0]

private theorem iterateDind_mono (fs : Fs) (b : Nat) (ctx : BlockCtx) :
    ctx.calls ⊆ (iterateDind fs b ctx).1.calls := by
  unfold iterateDind
  dsimp only
  split
  · exact List.Subset.refl _
  · split
    · exact List.Subset.refl _
    · exact pointerLoop_mono _ _ _ _ (ctx.read fs fs.blksize b)

private theorem iterateTind_mono (fs : Fs) (b : Nat) (ctx : BlockCtx) :
    ctx.calls ⊆ (iterateTind fs b ctx).1.calls := by
  unfold iterateTind
  dsimp only
  split
  · exact List.Subset.refl _
  · split
    · exact List.Subset.refl _
    · exact pointerLoop_mono _ _ _ _ (ctx.read fs (2 * fs.blksize) b)

private theorem iterateRoot_mono {inode : Inode} {iter : Nat → BlockCtx → BlockCtx × Bool}
    (h : ∀ b ctx, ctx.calls ⊆ (iter b ctx).1.calls) (slot skip : Nat) (ctx : BlockCtx) :
    ctx.calls ⊆ (iterateRoot inode slot skip iter ctx).1.calls := by
  unfold iterateRoot
  split
  · exact h _ ctx
  · exact List.Subset.refl _

end

/-! ### Agreement with the lookups -/

/-- The pointer blocks of the file are blocks of the file system: no pointer of the inode, of the doubly indirect
block or of the upper two levels of the triply indirect tree leads elsewhere. -/
def ValidPointers (fs : Fs) (inode : Inode) : Prop :=
  ∀ i p, indBlock ≤ i → i ≤ tindBlock → p.length ≤ i - indBlock → (∀ j ∈ p, j < fs.addrPerBlock) →
    pathBlock fs inode (i :: p) = 0 ∨ fs.validBlock (pathBlock fs inode (i :: p)) = true

section

variable {fs : Fs} {inode : Inode}

private theorem exists_first (f : Nat → Nat) (n : Nat) : ∃ i ≤ n, (∀ j, j < i → f j = 0) ∧ (i < n → f i ≠ 0) := by
  induction n with
  | zero => exact ⟨0, Nat.le_refl _, fun j hj => absurd hj (by omega), fun h => absurd h (by omega)⟩
  | succ n ih =>
    obtain ⟨i, hi, hzero, hne⟩ := ih
    by_cases h : i < n ∨ f i ≠ 0
    · refine ⟨i, by omega, hzero, fun _ => ?_⟩
      rcases h with h | h
      · exact hne h
      · exact h
    · rw [not_or, not_not] at h
      refine ⟨n + 1, Nat.le_refl _, fun j hj => ?_, fun h => absurd h (by omega)⟩
      by_cases hj' : j < i
      · exact hzero j hj'
      · rw [show j = i by omega]
        exact h.2

private theorem exists_other (fs : Fs) (inode : Inode) (k : Nat) :
    ∃ y, y ≠ 0 ∧ y < 2 ^ 32 ∧ lookup fs inode k ≠ .ok y := by
  by_cases h : lookup fs inode k = .ok 1
  · exact ⟨2, by decide, by decide, by rw [h]; simp⟩
  · exact ⟨1, by decide, by decide, h⟩

private theorem iterateDirect_buf (inode : Inode) (buf : Mem) : (iterateDirect inode buf).buf = buf := by
  rw [iterateDirect, foldl_iterateDirectStep]

private theorem iterateDirect_blkcnt (inode : Inode) (buf : Mem) : (iterateDirect inode buf).blkcnt = ndirBlocks := by
  rw [iterateDirect, foldl_iterateDirectStep]

private theorem wordAt_read_outside {ctx : BlockCtx} {off b off' i : Nat}
    (h : off' + 4 * i + 4 ≤ off ∨ off + fs.blksize ≤ off' + 4 * i) :
    (ctx.read fs off b).wordAt off' i = ctx.wordAt off' i := by
  refine readLE_congr fun x h1 h2 => ?_
  simp only [BlockCtx.read]
  rw [if_neg (by omega)]

private theorem wordAt_read_inside {ctx : BlockCtx} {off b i : Nat} (h : 4 * i + 4 ≤ fs.blksize) :
    (ctx.read fs off b).wordAt off i = word (fs.disk b) i := by
  refine readLE_congr_shift fun j hj => ?_
  simp only [BlockCtx.read]
  rw [if_pos (by omega), show off + 4 * i + j - off = 4 * i + j by omega]

variable (hsize : 1024 ≤ fs.blksize) (hmod : fs.blksize % 4 = 0)
include hsize hmod

private theorem not_agrees_ind (hind : inode.iBlock indBlock ≠ 0) (hv : fs.validBlock (inode.iBlock indBlock) = true)
    {y : Nat} (hy0 : y ≠ 0) (hy32 : y < 2 ^ 32) (hy : lookup fs inode (ndirBlocks + fs.blksize / 4) ≠ .ok y) :
    ¬IterationAgrees fs inode (ext2BlockIterate fs inode (writeLE (fun _ => 0) fs.blksize 4 y)).1.calls := by
  refine fun hagree => hy ((hagree.2 _ _).1 ?_).1
  refine iterateRoot_mono (iterateTind_mono fs) _ _ _ (iterateRoot_mono (iterateDind_mono fs) _ _ _ ?_)
  rw [iterateRoot, if_pos hind]
  rw [← iterateDirect_blkcnt inode (writeLE (fun _ => 0) fs.blksize 4 y)]
  refine mem_iterateInd hind hv (by omega) ?_ hy0
  rw [wordAt_read_outside (by omega), BlockCtx.wordAt, iterateDirect_buf,
    show 0 + 4 * (fs.blksize / 4) = fs.blksize by omega, readLE_writeLE_self]
  exact Nat.mod_eq_of_lt hy32

/-- The loop over a pointer block goes on to the word after it, if all pointers of the block are zero. -/
private theorem mem_pointerLoop_extra (ctx : BlockCtx) {off skip b i j y : Nat} (h0 : b ≠ 0)
    (hv : fs.validBlock b = true) (hi : i ≤ fs.blksize / 4) (hzero : ∀ j, j < i → word (fs.disk b) j = 0)
    (hne : i < fs.blksize / 4 → word (fs.disk b) i ≠ 0 ∧ fs.validBlock (word (fs.disk b) i) = true)
    (hnext : ctx.wordAt off (fs.blksize / 4) = b) (hj : j < fs.blksize)
    (hy : ∀ w, ((ctx.read fs off b).read fs 0 w).wordAt 0 j = y) (hy0 : y ≠ 0) :
    (ctx.blkcnt + i * (skip + 1) + j, y) ∈ (pointerLoop fs off skip fs.blksize 0 (ctx.read fs off b)).1.calls := by
  have hin : ∀ k, k < fs.blksize / 4 → (ctx.read fs off b).wordAt off k = word (fs.disk b) k :=
    fun k hk => wordAt_read_inside (by omega)
  have hout : (ctx.read fs off b).wordAt off (fs.blksize / 4) = b := by
    rw [wordAt_read_outside (by omega), hnext]
  have hptr : (ctx.read fs off b).wordAt off i ≠ 0 ∧ fs.validBlock ((ctx.read fs off b).wordAt off i) = true := by
    by_cases hlt : i < fs.blksize / 4
    · rw [hin i hlt]
      exact hne hlt
    · rw [show i = fs.blksize / 4 by omega, hout]
      exact ⟨h0, hv⟩
  have hz : ∀ k, k < i → (ctx.read fs off b).wordAt off (0 + k) = 0 := by
    intro k hk
    rw [Nat.zero_add, hin k (by omega), hzero k hk]
  refine mem_pointerLoop (ctx.read fs off b) i (by omega) hz ?_ ?_ hj ?_ hy0
  · rw [Nat.zero_add]
    exact hptr.1
  · rw [Nat.zero_add]
    exact hptr.2
  · exact hy _

omit hsize hmod in
private theorem first_pointer (hvalid : ValidPointers fs inode) {slot : Nat} (hlo : indBlock < slot)
    (hhi : slot ≤ tindBlock) (h0 : inode.iBlock slot ≠ 0) :
    ∃ i ≤ fs.blksize / 4, (∀ j, j < i → word (fs.disk (inode.iBlock slot)) j = 0) ∧
      (i < fs.blksize / 4 → word (fs.disk (inode.iBlock slot)) i ≠ 0 ∧
        fs.validBlock (word (fs.disk (inode.iBlock slot)) i) = true) := by
  obtain ⟨i, hi, hzero, hne⟩ := exists_first (fun j => word (fs.disk (inode.iBlock slot)) j) (fs.blksize / 4)
  refine ⟨i, hi, hzero, fun hlt => ⟨hne hlt, ?_⟩⟩
  have hpath : pathBlock fs inode [slot, i] = word (fs.disk (inode.iBlock slot)) i := by
    rw [pathBlock_cons, follow_cons fs inode h0, follow_nil, look, if_neg h0]
  have hn : fs.addrPerBlock = fs.blksize / 4 := Nat.shiftRight_eq_div_pow _ _
  have h := hvalid slot [i] (by omega) hhi (by simp; omega) (by simp [hn, hlt])
  rw [hpath] at h
  exact h.resolve_left (hne hlt)

omit hsize hmod in
private theorem root_valid (hvalid : ValidPointers fs inode) {slot : Nat} (hlo : indBlock ≤ slot)
    (hhi : slot ≤ tindBlock) (h0 : inode.iBlock slot ≠ 0) : fs.validBlock (inode.iBlock slot) = true := by
  have h := hvalid slot [] hlo hhi (by simp) (by simp)
  rw [pathBlock_cons, follow_nil] at h
  exact h.resolve_left h0

private theorem exists_extra_dind (hvalid : ValidPointers fs inode) (hind : inode.iBlock indBlock = 0)
    (hdind : inode.iBlock dindBlock ≠ 0) :
    ∃ buf, ¬IterationAgrees fs inode (ext2BlockIterate fs inode buf).1.calls := by
  have hv := root_valid hvalid (show indBlock ≤ dindBlock by decide) (by decide) hdind
  obtain ⟨i, hi, hzero, hne⟩ := first_pointer hvalid (show indBlock < dindBlock by decide) (by decide) hdind
  obtain ⟨y, hy0, hy32, hy⟩ := exists_other fs inode
    (ndirBlocks + fs.blksize >>> 2 + i * (fs.blksize + 1) + (fs.blksize / 2 + 1))
  -- the word after `dind_buf` is the doubly indirect block again, and the next one the wrong pointer
  generalize hbuf : writeLE (writeLE (fun _ => 0) (2 * fs.blksize) 4 (inode.iBlock dindBlock))
    (2 * fs.blksize + 4) 4 y = buf
  refine ⟨buf, fun hagree => hy ((hagree.2 _ _).1 ?_).1⟩
  refine iterateRoot_mono (iterateTind_mono fs) _ _ _ ?_
  rw [iterateRoot, if_pos hdind, iterateRoot, if_neg (not_not.2 hind)]
  have hd : iterateDind fs (inode.iBlock dindBlock) = fun ctx =>
      pointerLoop fs fs.blksize fs.blksize fs.blksize 0 (ctx.read fs fs.blksize (inode.iBlock dindBlock)) := by
    funext ctx
    simp only [iterateDind, hdind, hv, Bool.true_eq_false, ↓reduceIte]
  rw [hd, ← iterateDirect_blkcnt inode buf]
  refine mem_pointerLoop_extra hsize hmod ({ iterateDirect inode buf with
    blkcnt := (iterateDirect inode buf).blkcnt + fs.blksize >>> 2 } : BlockCtx) hdind hv hi hzero hne ?_
      (by omega) ?_ hy0
  · rw [BlockCtx.wordAt, iterateDirect_buf, ← hbuf, show fs.blksize + 4 * (fs.blksize / 4) = 2 * fs.blksize by omega,
      readLE_writeLE_disjoint (by omega), readLE_writeLE_self]
    exact Nat.mod_eq_of_lt (inode.iBlock_lt _)
  · intro w
    rw [wordAt_read_outside (by omega), wordAt_read_outside (by omega), BlockCtx.wordAt, iterateDirect_buf, ← hbuf,
      show 0 + 4 * (fs.blksize / 2 + 1) = 2 * fs.blksize + 4 by omega, readLE_writeLE_self]
    exact Nat.mod_eq_of_lt hy32

private theorem exists_extra_tind (hvalid : ValidPointers fs inode) (hind : inode.iBlock indBlock = 0)
    (hdind : inode.iBlock dindBlock = 0) (htind : inode.iBlock tindBlock ≠ 0) :
    ∃ buf, ¬IterationAgrees fs inode (ext2BlockIterate fs inode buf).1.calls := by
  have hv := root_valid hvalid (show indBlock ≤ tindBlock by decide) (by decide) htind
  obtain ⟨i, hi, hzero, hne⟩ := first_pointer hvalid (show indBlock < tindBlock by decide) (by decide) htind
  obtain ⟨y, hy0, hy32, hy⟩ := exists_other fs inode (ndirBlocks + fs.blksize >>> 2 +
    intMul (fs.blksize >>> 2) (fs.blksize >>> 2) + i * (intMul fs.blksize fs.blksize + 1) + fs.blksize / 4)
  -- the word after the whole buffer is the triply indirect block again, and `dind_buf` starts with the wrong pointer
  generalize hbuf : writeLE (writeLE (fun _ => 0) fs.blksize 4 y) (3 * fs.blksize) 4 (inode.iBlock tindBlock) = buf
  refine ⟨buf, fun hagree => hy ((hagree.2 _ _).1 ?_).1⟩
  unfold ext2BlockIterate
  dsimp only
  rw [iterateRoot, if_pos htind, iterateRoot, if_neg (not_not.2 hdind), iterateRoot, if_neg (not_not.2 hind)]
  have ht : iterateTind fs (inode.iBlock tindBlock) = fun ctx =>
      pointerLoop fs (2 * fs.blksize) (intMul fs.blksize fs.blksize) fs.blksize 0
        (ctx.read fs (2 * fs.blksize) (inode.iBlock tindBlock)) := by
    funext ctx
    simp only [iterateTind, htind, hv, Bool.true_eq_false, ↓reduceIte]
  rw [ht, ← iterateDirect_blkcnt inode buf]
  refine mem_pointerLoop_extra hsize hmod ({ iterateDirect inode buf with
    blkcnt := (iterateDirect inode buf).blkcnt + fs.blksize >>> 2 + intMul (fs.blksize >>> 2) (fs.blksize >>> 2) } :
      BlockCtx)
    htind hv hi hzero hne ?_ (by omega) ?_ hy0
  · rw [BlockCtx.wordAt, iterateDirect_buf, ← hbuf,
      show 2 * fs.blksize + 4 * (fs.blksize / 4) = 3 * fs.blksize by omega, readLE_writeLE_self]
    exact Nat.mod_eq_of_lt (inode.iBlock_lt _)
  · intro w
    rw [wordAt_read_outside (by omega), wordAt_read_outside (by omega), BlockCtx.wordAt, iterateDirect_buf, ← hbuf,
      show 0 + 4 * (fs.blksize / 4) = fs.blksize by omega, readLE_writeLE_disjoint (by omega), readLE_writeLE_self]
    exact Nat.mod_eq_of_lt hy32

omit hsize hmod in
private theorem agrees_direct (hind : inode.iBlock indBlock = 0) (hdind : inode.iBlock dindBlock = 0)
    (htind : inode.iBlock tindBlock = 0) (buf : Mem) :
    IterationAgrees fs inode (ext2BlockIterate fs inode buf).1.calls := by
  have hcalls : (ext2BlockIterate fs inode buf).1.calls = (List.range ndirBlocks).filterMap fun i =>
      if inode.iBlock i = 0 then none else some (i, inode.iBlock i) := by
    unfold ext2BlockIterate
    dsimp only
    rw [iterateRoot, if_neg (not_not.2 htind), iterateRoot, if_neg (not_not.2 hdind), iterateRoot,
      if_neg (not_not.2 hind), iterateDirect, foldl_iterateDirectStep]
  rw [hcalls]
  constructor
  · refine List.Pairwise.filterMap _ ?_ List.pairwise_lt_range
    intro i j hij a ha b hb
    by_cases hi : inode.iBlock i = 0
    · simp [hi] at ha
    · by_cases hj : inode.iBlock j = 0
      · simp [hj] at hb
      · simp only [hi, hj, ↓reduceIte, Option.some.injEq] at ha hb
        rw [← ha, ← hb]
        exact hij
  · intro k p
    have hmem : (k, p) ∈ ((List.range ndirBlocks).filterMap fun i =>
        if inode.iBlock i = 0 then none else some (i, inode.iBlock i)) ↔
        k < ndirBlocks ∧ inode.iBlock k = p ∧ p ≠ 0 := by
      rw [List.mem_filterMap]
      constructor
      · rintro ⟨i, hi, he⟩
        by_cases h0 : inode.iBlock i = 0
        · simp [h0] at he
        · simp only [h0, ↓reduceIte, Option.some.injEq, Prod.mk.injEq] at he
          obtain ⟨rfl, rfl⟩ := he
          exact ⟨List.mem_range.1 hi, rfl, h0⟩
      · rintro ⟨hk, rfl, h0⟩
        exact ⟨k, List.mem_range.2 hk, by rw [if_neg h0]⟩
    rw [hmem, lookup_eq]
    by_cases hk : k < ndirBlocks
    · have hbig : ext2FileBlockOffsetTooBig fs k = false := by
        simp only [ext2FileBlockOffsetTooBig, ndirBlocks, Bool.or_eq_false_iff, decide_eq_false_iff_not] at hk ⊢
        omega
      simp [hk, hbig, blockPath, pathBlock_cons, follow_nil]
    · have hzero : pathBlock fs inode (blockPath fs.addrPerBlock k) = 0 := by
        unfold blockPath
        rw [if_neg hk]
        split
        · rw [pathBlock_cons, hind, follow_zero]
        · split
          · rw [pathBlock_cons, hdind, follow_zero]
          · rw [pathBlock_cons, htind, follow_zero]
      rw [hzero]
      constructor
      · rintro ⟨hlt, -⟩
        exact absurd hlt hk
      · rintro ⟨hp, hp0⟩
        split at hp
        · cases hp
        · cases hp
          exact absurd rfl hp0

end

/-- Whatever the memory after the pointer blocks holds, the iteration agrees with the lookups: this is so exactly for
the files without pointer blocks. -/
theorem iteration_agrees_iff {fs : Fs} {inode : Inode} (hsize : fs.BlockSize) (hvalid : ValidPointers fs inode) :
    (∀ buf, IterationAgrees fs inode (ext2BlockIterate fs inode buf).1.calls) ↔
      inode.iBlock indBlock = 0 ∧ inode.iBlock dindBlock = 0 ∧ inode.iBlock tindBlock = 0 := by
  obtain ⟨h1, h2⟩ := hsize.facts
  constructor
  · intro hall
    have hno : ∀ {P : Prop}, (∃ buf, ¬IterationAgrees fs inode (ext2BlockIterate fs inode buf).1.calls) → P := by
      rintro P ⟨buf, hbuf⟩
      exact absurd (hall buf) hbuf
    by_cases hind : inode.iBlock indBlock = 0
    · by_cases hdind : inode.iBlock dindBlock = 0
      · by_cases htind : inode.iBlock tindBlock = 0
        · exact ⟨hind, hdind, htind⟩
        · exact hno (exists_extra_tind h1 h2 hvalid hind hdind htind)
      · exact hno (exists_extra_dind h1 h2 hvalid hind hdind)
    · obtain ⟨y, hy0, hy32, hy⟩ := exists_other fs inode (ndirBlocks + fs.blksize / 4)
      exact hno ⟨_, not_agrees_ind h1 h2 hind (root_valid hvalid (by decide) (by decide) hind) hy0 hy32 hy⟩
  · rintro ⟨hind, hdind, htind⟩ buf
    exact agrees_direct hind hdind htind buf

private theorem onePointer_valid {i b : Nat} (hb : b < 2 ^ 32) (hv : b < 100 ∧ 1 ≤ b) (hi : i ≤ indBlock) :
    ValidPointers smallFs (onePointer i b hb) := by
  intro j p hlo hhi hp _
  rw [pathBlock_cons]
  by_cases hj : j = i
  · have hnil : p = [] := List.eq_nil_of_length_eq_zero (by omega)
    rw [hnil, follow_nil]
    simp [onePointer, hj, Fs.validBlock, smallFs, hv]
  · simp [onePointer, hj, follow_zero]

theorem iteration_agrees_iff_small : smallFs.BlockSize ∧ ValidPointers smallFs (onePointer 3 50 (by decide)) ∧
    ∀ buf, IterationAgrees smallFs (onePointer 3 50 (by decide))
      (ext2BlockIterate smallFs (onePointer 3 50 (by decide)) buf).1.calls := by
  have hsize : smallFs.BlockSize := ⟨0, by decide, rfl⟩
  have hvalid : ValidPointers smallFs (onePointer 3 50 (by decide)) := onePointer_valid _ (by decide) (by decide)
  exact ⟨hsize, hvalid, (iteration_agrees_iff hsize hvalid).2 (by decide)⟩

/-- A file with an indirect block in block 50, and the word 7 in the memory after `ind_buf`. -/
theorem not_iteration_agrees : ¬∀ fs inode buf, fs.BlockSize → ValidPointers fs inode →
    IterationAgrees fs inode (ext2BlockIterate fs inode buf).1.calls := by
  intro hall
  have hvalid : ValidPointers smallFs (onePointer 12 50 (by decide)) := onePointer_valid _ (by decide) (by decide)
  have hlookup : lookup smallFs (onePointer 12 50 (by decide)) 268 = .ok 0 := rfl
  have hne : lookup smallFs (onePointer 12 50 (by decide)) 268 ≠ .ok 7 := by
    intro h
    cases hlookup.symm.trans h
  have hagree := hall smallFs (onePointer 12 50 (by decide)) (writeLE (fun _ => 0) smallFs.blksize 4 7)
    ⟨0, by decide, rfl⟩ hvalid
  exact not_agrees_ind (by decide) (by decide) (by decide) (by decide) (by decide) (by decide) hne hagree

end Pml.Ext2
