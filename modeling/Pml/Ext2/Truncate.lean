import Pml.Ext2.PointerTree

/-!
# Truncation of a block-mapped file (`ext2_dealloc_blocks`)

`ext2_dealloc_indirect_block` goes through an array of pointers, where the pointers of the inode and those of a
pointer block are treated alike.  A data block in the range is freed; a pointer block is read, its pointers are gone
through in the same way with the range counted from its first position, it is written back, and it is freed if it has
only zeros.  For a range without an end these are the cuts of a forest of blocks (`deallocIndirectBlock_spec`).
-/

namespace Pml.Ext2

open ByteMemory Radix BlockTree

def Fs.blockSizeBits (fs : Fs) : Nat := Nat.log2 fs.blksize

def checkZeroBlock (buffer : Mem) (blksize : Nat) : Bool := (List.range blksize).all fun x => buffer x == 0

abbrev DeallocState := Fs × Inode

/-- The loop of `ext2_dealloc_indirect_block` over `k` pointers from `p` on, where `below` deals with the block of a
pointer and tells whether it is freed. -/
def deallocIndirectLoop (below : DeallocState → (b start count : Nat) → Except Errno (DeallocState × Bool))
    (inc start count : Nat) :
    (k p offset : Nat) → DeallocState → Mem → (freed : Nat) → Except Errno (DeallocState × Mem × Nat)
  | 0, _, _, s, ptrs, freed => .ok (s, ptrs, freed)
  | k + 1, p, offset, s, ptrs, freed =>
    if add64 start count ≤ offset then .ok (s, ptrs, freed)
    else if word ptrs p = 0 ∨ add64 offset inc ≤ start then
      deallocIndirectLoop below inc start count k (p + 1) (add64 offset inc) s ptrs freed
    else
      let b := word ptrs p
      match below s b ((if offset < start then sub64 start offset else 0) % 2 ^ 32) (sub64 count offset) with
      | .error e => .error e
      | .ok (s, false) => deallocIndirectLoop below inc start count k (p + 1) (add64 offset inc) s ptrs freed
      | .ok (s, true) =>
        deallocIndirectLoop below inc start count k (p + 1) (add64 offset inc) (s.1.unmarkBlock b, s.2)
          (setWord ptrs p 0) (freed + 1)

def subFreed : Except Errno (DeallocState × Mem × Nat) → Except Errno (DeallocState × Mem)
  | .error e => .error e
  | .ok (s, ptrs, freed) =>
    match ext2IblkSubBlocks s.1 s.2 freed with
    | .error e => .error e
    | .ok inode => .ok ((s.1, inode), ptrs)

/-- `ext2_dealloc_indirect_block` for the `max` pointers from `p` on. -/
def deallocIndirectBlock : (level p max start count : Nat) → DeallocState → Mem → Except Errno (DeallocState × Mem)
  | 0, p, max, start, count, s, ptrs =>
    subFreed (deallocIndirectLoop (fun s _ _ _ => .ok (s, true)) (1 <<< 0) start count max p 0 s ptrs 0)
  | level + 1, p, max, start, count, s, ptrs =>
    let below := fun (s : DeallocState) (b start count : Nat) =>
      match deallocIndirectBlock level 0 s.1.addrPerBlock start count s (s.1.disk b) with
      | .error e => .error e
      | .ok (s, blockbuf) => .ok ((s.1.writeBlock b blockbuf, s.2), checkZeroBlock blockbuf s.1.blksize)
    subFreed (deallocIndirectLoop below (1 <<< ((s.1.blockSizeBits - 2) * (level + 1))) start count max p 0 s ptrs 0)

/-- The loop of `ext2_dealloc_indirect` over the levels, with the number of those that remain. -/
def deallocLevels : (k level p num max start count : Nat) → DeallocState → Mem → Except Errno (DeallocState × Mem)
  | 0, _, _, _, _, _, _, s, ptrs => .ok (s, ptrs)
  | k + 1, level, p, num, max, start, count, s, ptrs =>
    let next := fun start count (s : DeallocState) ptrs =>
      let (num', max') := if level = 0 then (1, 1) else (num, max)
      deallocLevels k (level + 1) (p + num) num' (max' * s.1.addrPerBlock % 2 ^ 64) start count s ptrs
    if start < max then
      match deallocIndirectBlock level p num start count s ptrs with
      | .error e => .error e
      | .ok (s, ptrs) => if max < count then next 0 (sub64 count (max - start)) s ptrs else .ok (s, ptrs)
    else next (start - max) count s ptrs

/-- The bytes of `inode->i_block`. -/
def Inode.pointers (inode : Inode) : Mem := fun x => UInt8.ofNat (inode.iBlock (x / 4) / 256 ^ (x % 4))

def Inode.withPointers (inode : Inode) (ptrs : Mem) : Inode :=
  { inode with
    iBlock := word ptrs
    iBlock_lt := word_lt ptrs }

def deallocIndirect (fs : Fs) (inode : Inode) (start stop : Nat) : Except Errno (Fs × Inode) :=
  if 0xffffffff < start then .ok (fs, inode)
  else
    let count := if 0xffffffff ≤ stop ∨ 0xffffffff ≤ add64 (sub64 stop start) 1 then 2 ^ 64 - 1 - start
      else add64 (sub64 stop start) 1
    match deallocLevels 4 0 0 ndirBlocks ndirBlocks start count (fs, inode) inode.pointers with
    | .error e => .error e
    | .ok (s, ptrs) => .ok (s.1, s.2.withPointers ptrs)

/-- `ext2_dealloc_blocks` for a block-mapped file; the inode is then stored. -/
def ext2DeallocBlocks (fs : Fs) (inode : Inode) (start stop : Nat) : Except Errno (Fs × Inode) :=
  if stop < start then .error .EINVAL else deallocIndirect fs inode start stop

/-! ### Blocks that have been freed -/

def Inode.CountFits (inode : Inode) : Prop := inode.iBlocks < 2 ^ 32 ∧ inode.iBlocksHi < 2 ^ 16

/-- From `s` to `s'` the blocks `freed` have been freed, of which `n` are not counted yet. -/
structure Released (s s' : DeallocState) (freed : List Nat) (n : Nat) : Prop where
  fs : s'.1 = { s.1 with disk := s'.1.disk, bitmap := s'.1.bitmap }
  bitmap : ∀ b, s'.1.bitmap b =
    if b ∈ freed ∧ s.1.firstDataBlock ≤ b ∧ b < s.1.blocksCount then false else s.1.bitmap b
  inode : s'.2.iBlock = s.2.iBlock ∧ s'.2.hugeFl = s.2.hugeFl
  fits : s'.2.CountFits
  count : s'.2.blockCount s.1 + freed.length * s.2.blockUnit s.1 = s.2.blockCount s.1 + n * s.2.blockUnit s.1

section

variable {s s₁ s₂ : DeallocState} {freed freed' : List Nat} {n n' : Nat}

theorem Released.refl (h : s.2.CountFits) : Released s s [] 0 where
  fs := rfl
  bitmap := fun _ => rfl
  inode := ⟨rfl, rfl⟩
  fits := h
  count := by rw [List.length_nil]

theorem Released.firstDataBlock (h : Released s s₁ freed n) : s₁.1.firstDataBlock = s.1.firstDataBlock := by rw [h.fs]

theorem Released.blocksCount (h : Released s s₁ freed n) : s₁.1.blocksCount = s.1.blocksCount := by rw [h.fs]

theorem Released.blockCount (h : Released s s₁ freed n) (inode : Inode) :
    inode.blockCount s₁.1 = inode.blockCount s.1 := by
  rw [h.fs]
  rfl

theorem Released.blockUnit (h : Released s s₁ freed n) : s₁.2.blockUnit s₁.1 = s.2.blockUnit s.1 := by
  rw [h.fs, Inode.blockUnit, Inode.blockUnit, h.inode.2]

theorem Released.blksize (h : Released s s₁ freed n) : s₁.1.blksize = s.1.blksize := by rw [h.fs]

theorem Released.append (h : Released s s₁ freed n) (h' : Released s₁ s₂ freed' n') :
    Released s s₂ (freed ++ freed') (n + n') where
  fs := by rw [h'.fs, h.fs]
  bitmap := fun b => by
    rw [h'.bitmap, h.bitmap, h.firstDataBlock, h.blocksCount]
    by_cases h1 : b ∈ freed' <;> by_cases h2 : b ∈ freed <;> simp [h1, h2]
  inode := ⟨h'.inode.1.trans h.inode.1, h'.inode.2.trans h.inode.2⟩
  fits := h'.fits
  count := by
    have h1 := h.count
    have h2 := h'.count
    rw [h.blockCount, h.blockCount, h.blockUnit] at h2
    rw [List.length_append, Nat.add_mul, Nat.add_mul]
    omega

theorem Released.unmark (h : Released s s₁ freed n) (b : Nat) :
    Released s (s₁.1.unmarkBlock b, s₁.2) (freed ++ [b]) (n + 1) := by
  have hcount := h.count
  have hbitmap := h.bitmap
  unfold Fs.unmarkBlock
  rw [h.firstDataBlock, h.blocksCount]
  by_cases hin : s.1.firstDataBlock ≤ b ∧ b < s.1.blocksCount
  · rw [if_pos hin]
    refine ⟨by rw [h.fs], fun x => ?_, h.inode, h.fits, ?_⟩
    · dsimp only
      by_cases hx : x = b
      · rw [hx, Function.update_self, if_pos ⟨List.mem_append_right _ List.mem_cons_self, hin⟩]
      · rw [Function.update_of_ne hx, hbitmap]
        simp [hx]
    · rw [List.length_append, List.length_singleton, Nat.add_mul, Nat.add_mul, Nat.one_mul]
      dsimp only
      omega
  · rw [if_neg hin]
    refine ⟨h.fs, fun x => ?_, h.inode, h.fits, ?_⟩
    · rw [hbitmap]
      by_cases hx : x = b
      · rw [hx, if_neg (fun hn => hin hn.2), if_neg (fun hn => hin hn.2)]
      · simp [hx]
    · rw [List.length_append, List.length_singleton, Nat.add_mul, Nat.add_mul, Nat.one_mul]
      dsimp only
      omega

theorem Released.write (h : Released s s₁ freed n) (b : Nat) (buf : Mem) :
    Released s (s₁.1.writeBlock b buf, s₁.2) freed n where
  fs := by
    unfold Fs.writeBlock
    rw [h.fs]
  bitmap := h.bitmap
  inode := h.inode
  fits := h.fits
  count := h.count

theorem Released.sub (h : Released s s₁ freed n) {inode : Inode} (hsmall : n * s₁.2.blockUnit s₁.1 < 2 ^ 64)
    (hsub : ext2IblkSubBlocks s₁.1 s₁.2 n = .ok inode) : Released s (s₁.1, inode) freed 0 := by
  unfold ext2IblkSubBlocks at hsub
  rw [Nat.mod_eq_of_lt hsmall] at hsub
  dsimp only at hsub
  split at hsub
  · cases hsub
  · rename_i hle
    have hcount := h.count
    have hunit := h.blockUnit
    have hfit := h.fits
    obtain ⟨h1, h2⟩ := id hfit
    have hhuge : s₁.1.hugeFile = s.1.hugeFile := by rw [h.fs]
    cases hsub
    rw [h.blockCount, hunit] at hle ⊢
    refine ⟨h.fs, h.bitmap, h.inode, ⟨Nat.mod_lt _ (by decide), ?_⟩, ?_⟩
    · dsimp only
      split
      · exact Nat.mod_lt _ (by decide)
      · exact h2
    · unfold Inode.blockCount at hcount hle ⊢
      dsimp only
      rw [hhuge]
      generalize s.2.blockUnit s.1 = u at *
      cases hh : s.1.hugeFile with
      | true =>
        simp only [hh, if_true] at hcount hle ⊢
        omega
      | false =>
        simp only [hh, Bool.false_eq_true, if_false] at hcount hle ⊢
        omega

end

/-! ### The loop over an array -/

/-- A block has `n` pointers. -/
structure Geometry (fs : Fs) (n : Nat) : Prop where
  addr : fs.addrPerBlock = n
  bytes : fs.blksize = 4 * n
  bits : 2 ^ (fs.blockSizeBits - 2) = n
  pos : 0 < n
  le : n ≤ 2 ^ 14

private theorem Fs.BlockSize.geometry {fs : Fs} (h : fs.BlockSize) : Geometry fs fs.addrPerBlock := by
  obtain ⟨e, he, hb⟩ := h
  have hpow : fs.blksize = 2 ^ (10 + e) := by rw [hb, Nat.pow_add]
  have hbits : fs.blockSizeBits = 10 + e := by rw [Fs.blockSizeBits, hpow, Nat.log2_two_pow]
  have haddr : fs.addrPerBlock = 2 ^ (8 + e) := by
    rw [Fs.addrPerBlock, hpow, Nat.shiftRight_eq_div_pow, show 10 + e = 8 + e + 2 by omega, Nat.pow_add,
      Nat.mul_div_cancel _ (by decide)]
  refine ⟨rfl, ?_, ?_, ?_, ?_⟩
  · rw [haddr, hpow, show 10 + e = 2 + (8 + e) by omega, Nat.pow_add]
  · rw [haddr, hbits]
    congr 1
    omega
  · rw [haddr]
    exact Nat.two_pow_pos _
  · rw [haddr]
    exact Nat.pow_le_pow_right (by decide) (by omega)

theorem Geometry.congr {fs fs' : Fs} {n : Nat} (h : Geometry fs n) (hb : fs'.blksize = fs.blksize) :
    Geometry fs' n where
  addr := by rw [Fs.addrPerBlock, hb, ← Fs.addrPerBlock, h.addr]
  bytes := hb.trans h.bytes
  bits := by rw [Fs.blockSizeBits, hb, ← Fs.blockSizeBits, h.bits]
  pos := h.pos
  le := h.le

private theorem Geometry.unit_le {fs : Fs} {n : Nat} (h : Geometry fs n) (inode : Inode) :
    inode.blockUnit fs ≤ 128 := by
  have h1 := h.bytes
  have h2 := h.le
  unfold Inode.blockUnit
  split
  · decide
  · omega

def EntrySpec (n ℓ : Nat) (below : DeallocState → (b start count : Nat) → Except Errno (DeallocState × Bool)) :
    Prop :=
  ∀ s b t c s' gone, Geometry s.1 n → s.2.CountFits → Tree (tables s.1.disk) n ℓ b → b ≠ 0 → t < n ^ ℓ → t < 2 ^ 32 →
    t + c < 2 ^ 64 → 2 ^ 50 * ℓ ≤ c → n ^ ℓ ≤ 2 ^ 50 → below s b t c = .ok (s', gone) →
    ∃ freed, Released s s' freed 0 ∧ ∀ j lev ptr ptr' cut, lev j = ℓ → ptr j = b → cut j = t →
      ptr' j = (if gone then 0 else b) → Cuts (tables s.1.disk) (tables s'.1.disk) n j (j + 1) lev ptr ptr' cut
        (if gone then freed ++ [b] else freed)

private theorem deallocIndirectLoop_spec {n ℓ : Nat}
    {below : DeallocState → (b start count : Nat) → Except Errno (DeallocState × Bool)}
    (hbelow : EntrySpec n ℓ below) {start count first max : Nat} {lev cut : Nat → Nat} (hstart : start < 2 ^ 32)
    (hsum : start + count < 2 ^ 64) (hcount : 2 ^ 50 * (ℓ + 1) ≤ count) (hmax : max * n ^ ℓ ≤ 2 ^ 50)
    (hlev : ∀ i < max, lev (first + i) = ℓ) (hcut : ∀ i < max, cut (first + i) = start - i * n ^ ℓ) (k : Nat) :
    ∀ i s ptrs freed s' ptrs' freed', i + k = max → Geometry s.1 n → s.2.CountFits →
      Forest (tables s.1.disk) n (first + i) (first + max) lev (word ptrs) →
      deallocIndirectLoop below (n ^ ℓ) start count k (first + i) (i * n ^ ℓ) s ptrs freed = .ok (s', ptrs', freed') →
      ∃ gone d, freed' = freed + d ∧ d ≤ k ∧ Released s s' gone d ∧
        Cuts (tables s.1.disk) (tables s'.1.disk) n (first + i) (first + max) lev (word ptrs) (word ptrs') cut gone ∧
        ∀ j, j < first + i ∨ first + max ≤ j → word ptrs' j = word ptrs j := by
  induction k with
  | zero =>
    intro i s ptrs freed s' ptrs' freed' hi _ hfit _ h
    cases h
    obtain rfl : i = max := hi
    exact ⟨[], 0, rfl, Nat.le_refl _, Released.refl hfit, Cuts.nil _ _ _ _ _ _, fun _ _ => rfl⟩
  | succ k ih =>
    intro i s ptrs freed s' ptrs' freed' hi hgeo hfit hforest h
    have hoff : (i + 1) * n ^ ℓ ≤ max * n ^ ℓ := Nat.mul_le_mul_right _ (by omega)
    have hstep : (i + 1) * n ^ ℓ = i * n ^ ℓ + n ^ ℓ := Nat.succ_mul i _
    have hpos : 0 < n ^ ℓ := Nat.pow_pos hgeo.pos
    rw [deallocIndirectLoop, add64_of_lt hsum, if_neg (by omega), add64_of_lt (by omega), ← hstep] at h
    have hrest := hforest.mono (Nat.le_succ (first + i)) (Nat.le_refl _)
    have hcut_i := hcut i (by omega)
    have hlev_i := hlev i (by omega)
    by_cases hskip : word ptrs (first + i) = 0 ∨ (i + 1) * n ^ ℓ ≤ start
    · -- the pointer is zero, or all positions below it come before the start
      rw [if_pos hskip] at h
      obtain ⟨gone, d, hd, hdk, hrel, hcuts, hptrs⟩ :=
        ih (i + 1) s ptrs freed s' ptrs' freed' (by omega) hgeo hfit hrest h
      have hone : Cuts (tables s.1.disk) (tables s.1.disk) n (first + i) (first + i + 1) lev (word ptrs) (word ptrs)
          cut [] := by
        refine Cuts.skip _ fun j hj hj' => ?_
        obtain rfl : j = first + i := by omega
        rw [hcut_i, hlev_i]
        exact hskip.imp id fun hs => by omega
      refine ⟨gone, d, hd, by omega, hrel, ?_, fun j hj => hptrs j (by omega)⟩
      have happ := hone.append hcuts hforest (Nat.le_succ _) (by omega) (fun _ _ _ => rfl)
        fun j _ hj => hptrs j (Or.inl (by omega))
      rwa [List.nil_append] at happ
    · rw [if_neg hskip] at h
      obtain ⟨hb, hreach⟩ := not_or.1 hskip
      have hfrom : (if i * n ^ ℓ < start then sub64 start (i * n ^ ℓ) else 0) = start - i * n ^ ℓ := by
        split
        · exact sub64_of_le (by omega) (by omega)
        · omega
      dsimp only at h
      rw [hfrom, Nat.mod_eq_of_lt (by omega), sub64_of_le (by omega) (by omega)] at h
      cases hcall : below s (word ptrs (first + i)) (start - i * n ^ ℓ) (count - i * n ^ ℓ) with
      | error e =>
        rw [hcall] at h
        cases h
      | ok r =>
        obtain ⟨s₁, z⟩ := r
        rw [hcall] at h
        have htree := hforest.tree _ (Nat.le_refl _) (by omega)
        rw [hlev_i] at htree
        obtain ⟨gone₁, hrel₁, hcut₁⟩ := hbelow s _ _ _ s₁ z hgeo hfit htree hb (by omega) (by omega) (by omega)
          (by rw [Nat.mul_succ] at hcount; omega) (by omega) hcall
        -- the loop goes on with the block freed or not
        obtain ⟨s₂, ptrs₂, f₂, gone₂, hrun, hdisk₂, hself₂, hother₂, hrel₂, hf₂, hgone₂⟩ : ∃ s₂ ptrs₂ f₂ gone₂,
            deallocIndirectLoop below (n ^ ℓ) start count k (first + i + 1) ((i + 1) * n ^ ℓ) s₂ ptrs₂ (freed + f₂) =
              .ok (s', ptrs', freed') ∧ s₂.1.disk = s₁.1.disk ∧
            word ptrs₂ (first + i) = (if z = true then 0 else word ptrs (first + i)) ∧
            (∀ j, j ≠ first + i → word ptrs₂ j = word ptrs j) ∧ Released s s₂ gone₂ f₂ ∧ f₂ ≤ 1 ∧
            gone₂ = if z = true then gone₁ ++ [word ptrs (first + i)] else gone₁ := by
          cases z with
          | false => exact ⟨s₁, ptrs, 0, gone₁, h, rfl, rfl, fun _ _ => rfl, hrel₁, by decide, rfl⟩
          | true =>
            refine ⟨(s₁.1.unmarkBlock (word ptrs (first + i)), s₁.2), _, 1, _, h, ?_, ?_, fun j hj => ?_,
              hrel₁.unmark _, by decide, rfl⟩
            · unfold Fs.unmarkBlock
              split
              · rfl
              · rfl
            · exact word_setWord_self _ _ (by decide)
            · exact word_setWord_of_ne _ _ hj
        have hone : Cuts (tables s.1.disk) (tables s₂.1.disk) n (first + i) (first + i + 1) lev (word ptrs)
            (word ptrs₂) cut gone₂ := by
          rw [hdisk₂, hgone₂]
          exact hcut₁ (first + i) _ _ _ _ hlev_i rfl hcut_i hself₂
        have hforest₂ : Forest (tables s₂.1.disk) n (first + (i + 1)) (first + max) lev (word ptrs₂) :=
          hrest.congr (fun j hj _ => hother₂ j (by omega)) fun j hj hj' => hone.others hforest hj hj'
        obtain ⟨gone, d, hd, hdk, hrel, hcuts, hptrs⟩ := ih (i + 1) s₂ ptrs₂ _ s' ptrs' freed' (by omega)
          (hgeo.congr hrel₂.blksize) hrel₂.fits hforest₂ hrun
        refine ⟨gone₂ ++ gone, f₂ + d, by omega, by omega, hrel₂.append hrel, ?_, fun j hj => ?_⟩
        · exact hone.append hcuts hforest (Nat.le_succ _) (by omega) (fun j hj _ => hother₂ j (by omega))
            fun j _ hj => hptrs j (Or.inl (by omega))
        · rw [hptrs j (by omega), hother₂ j (by omega)]

/-! ### One level after the other -/

private theorem checkZeroBlock_iff (buf : Mem) (n : Nat) : checkZeroBlock buf (4 * n) = true ↔ ∀ i < n,
    word buf i = 0 := by
  simp only [checkZeroBlock, List.all_eq_true, List.mem_range, beq_iff_eq, word, readLE_eq_zero]
  constructor
  · exact fun h i hi x hx => h _ (by omega)
  · intro h x hx
    have hbyte := h (x / 4) (by omega) (x % 4) (by omega)
    rwa [Nat.div_add_mod] at hbyte

private theorem subFreed_ok {r : Except Errno (DeallocState × Mem × Nat)} {s' : DeallocState} {ptrs' : Mem}
    (h : subFreed r = .ok (s', ptrs')) : ∃ s₁ freed inode, r = .ok (s₁, ptrs', freed) ∧
      ext2IblkSubBlocks s₁.1 s₁.2 freed = .ok inode ∧ s' = (s₁.1, inode) := by
  unfold subFreed at h
  split at h
  · cases h
  · rename_i s₁ ptrs freed
    split at h
    · cases h
    · rename_i inode hsub
      cases h
      exact ⟨s₁, freed, inode, rfl, hsub, rfl⟩

/-- What going through an array of pointers of level `ℓ` does. -/
def ArraySpec (n ℓ : Nat) : Prop :=
  ∀ first max start count s ptrs s' ptrs' lev cut, start < 2 ^ 32 → start + count < 2 ^ 64 →
    2 ^ 50 * (ℓ + 1) ≤ count →
    max * n ^ ℓ ≤ 2 ^ 50 → (∀ i < max, lev (first + i) = ℓ) → (∀ i < max, cut (first + i) = start - i * n ^ ℓ) →
    Geometry s.1 n → s.2.CountFits → Forest (tables s.1.disk) n first (first + max) lev (word ptrs) →
    deallocIndirectBlock ℓ first max start count s ptrs = .ok (s', ptrs') →
    ∃ gone, Released s s' gone 0 ∧
      Cuts (tables s.1.disk) (tables s'.1.disk) n first (first + max) lev (word ptrs) (word ptrs') cut gone ∧
      ∀ j, j < first ∨ first + max ≤ j → word ptrs' j = word ptrs j

theorem EntrySpec.array {n ℓ : Nat}
    {below : DeallocState → (b start count : Nat) → Except Errno (DeallocState × Bool)}
    (hbelow : EntrySpec n ℓ below) {first max start count : Nat} {s s' : DeallocState} {ptrs ptrs' : Mem}
    {lev cut : Nat → Nat} (hstart : start < 2 ^ 32) (hsum : start + count < 2 ^ 64)
    (hcount : 2 ^ 50 * (ℓ + 1) ≤ count)
    (hmax : max * n ^ ℓ ≤ 2 ^ 50) (hlev : ∀ i < max, lev (first + i) = ℓ)
    (hcut : ∀ i < max, cut (first + i) = start - i * n ^ ℓ) (hgeo : Geometry s.1 n) (hfit : s.2.CountFits)
    (hforest : Forest (tables s.1.disk) n first (first + max) lev (word ptrs))
    (h : subFreed (deallocIndirectLoop below (n ^ ℓ) start count max first 0 s ptrs 0) = .ok (s', ptrs')) :
    ∃ gone, Released s s' gone 0 ∧
      Cuts (tables s.1.disk) (tables s'.1.disk) n first (first + max) lev (word ptrs) (word ptrs') cut gone ∧
      ∀ j, j < first ∨ first + max ≤ j → word ptrs' j = word ptrs j := by
  obtain ⟨s₁, freed, inode, hloop, hsub, rfl⟩ := subFreed_ok h
  obtain ⟨gone, d, hd, hle, hrel, hcuts, hptrs⟩ :=
    deallocIndirectLoop_spec hbelow hstart hsum hcount hmax hlev hcut max 0 s ptrs
    0 s₁ ptrs' freed (Nat.zero_add _) hgeo hfit hforest (by rw [Nat.zero_mul]; exact hloop)
  obtain rfl : freed = d := hd.trans (Nat.zero_add _)
  have hsmall : freed * s₁.2.blockUnit s₁.1 < 2 ^ 64 := by
    have hfew : freed ≤ 2 ^ 50 :=
      Nat.le_trans (Nat.le_trans hle (Nat.le_mul_of_pos_right _ (Nat.pow_pos hgeo.pos))) hmax
    have hunit := (hgeo.congr hrel.blksize).unit_le s₁.2
    calc freed * s₁.2.blockUnit s₁.1 ≤ 2 ^ 50 * 128 := Nat.mul_le_mul hfew hunit
      _ < 2 ^ 64 := by decide
  exact ⟨gone, hrel.sub hsmall hsub, hcuts, hptrs⟩

private theorem entrySpec_data (n : Nat) : EntrySpec n 0 fun s _ _ _ => .ok (s, true) := by
  intro s b t c s' gone hgeo hfit htree hb ht _ _ _ _ h
  cases h
  refine ⟨[], Released.refl hfit, fun j lev ptr ptr' cut hlev hptr hcut hnew => ?_⟩
  exact Cuts.data hlev hptr hb (hcut.trans (Nat.lt_one_iff.1 ht)) hnew

/-- The pointers of a pointer block are gone through, it is written back, and freed if it is empty. -/
theorem ArraySpec.entry {n ℓ : Nat} (harray : ArraySpec n ℓ) : EntrySpec n (ℓ + 1) fun s b start count =>
    match deallocIndirectBlock ℓ 0 s.1.addrPerBlock start count s (s.1.disk b) with
    | .error e => .error e
    | .ok (s, blockbuf) => .ok ((s.1.writeBlock b blockbuf, s.2), checkZeroBlock blockbuf s.1.blksize) := by
  intro s b t c s' gone hgeo hfit htree hb ht ht32 hsum hcount hpow h
  dsimp only at h
  cases hcall : deallocIndirectBlock ℓ 0 s.1.addrPerBlock t c s (s.1.disk b) with
  | error e =>
    rw [hcall] at h
    cases h
  | ok r =>
    obtain ⟨s₁, buf⟩ := r
    rw [hcall] at h
    rw [hgeo.addr] at hcall
    obtain ⟨freed, hrel, hcuts, -⟩ := harray 0 n t c s _ s₁ buf (fun _ => ℓ) (fun i => t - i * n ^ ℓ) ht32 hsum hcount
      (by rw [← Nat.pow_succ']; exact hpow) (fun _ _ => rfl) (fun i _ => by rw [Nat.zero_add]) hgeo hfit
      (by rw [Nat.zero_add]; exact htree.forest hb) hcall
    rw [Nat.zero_add] at hcuts
    have hzero := checkZeroBlock_iff buf n
    rw [← hgeo.bytes, ← hrel.blksize] at hzero
    have hdisk : (s₁.1.writeBlock b buf).disk = Function.update s₁.1.disk b buf := rfl
    cases h
    refine ⟨freed, hrel.write b buf, fun j lev ptr ptr' cut hlev hptr hcut hnew => ?_⟩
    refine Cuts.up hgeo.pos htree hb ht hcuts (fun i _ => ?_) (fun x hx => ?_) hlev hptr hcut hnew ?_
    · rw [tables, hdisk, Function.update_self]
    · funext i
      rw [tables, tables, hdisk, Function.update_of_ne hx]
    · by_cases hz : checkZeroBlock buf s₁.1.blksize = true
      · exact Or.inl ⟨hzero.1 hz, if_pos hz, if_pos hz⟩
      · refine Or.inr ⟨?_, if_neg hz, if_neg hz⟩
        rw [hzero] at hz
        push Not at hz
        exact hz

private theorem deallocIndirectBlock_spec {n ℓ : Nat} : ArraySpec n ℓ := by
  induction ℓ with
  | zero =>
    intro first max start count s ptrs s' ptrs' lev cut hstart hsum hcount hmax hlev hcut hgeo hfit hforest h
    rw [deallocIndirectBlock, Nat.shiftLeft_zero] at h
    exact (entrySpec_data n).array hstart hsum hcount hmax hlev hcut hgeo hfit hforest h
  | succ ℓ ih =>
    intro first max start count s ptrs s' ptrs' lev cut hstart hsum hcount hmax hlev hcut hgeo hfit hforest h
    rw [deallocIndirectBlock, Nat.one_shiftLeft, Nat.pow_mul, hgeo.bits] at h
    exact ih.entry.array hstart hsum hcount hmax hlev hcut hgeo hfit hforest h

/-! ### The pointers of the inode -/

def groupLow (g : Nat) : Nat := if g = 0 then 0 else 11 + g

def groupNum (g : Nat) : Nat := if g = 0 then ndirBlocks else 1

private theorem slot_group {n g i : Nat} (hg : g < 4) (hi : i < groupNum g) : slotLevel (groupLow g + i) = g ∧
    slotBase n (groupLow g + i) = slotBase n (groupLow g) + i * n ^ g := by
  unfold groupLow groupNum at *
  by_cases h0 : g = 0
  · subst h0
    simp only [if_true, Nat.zero_add, Nat.pow_zero, Nat.mul_one] at hi ⊢
    unfold slotLevel slotBase
    rw [if_pos (Nat.le_of_lt hi), if_pos (Nat.zero_le _), Nat.zero_add]
    exact ⟨by omega, rfl⟩
  · rw [if_neg h0] at hi ⊢
    obtain rfl := Nat.lt_one_iff.1 hi
    rw [Nat.add_zero, Nat.zero_mul, Nat.add_zero]
    unfold slotLevel
    exact ⟨by dsimp only [ndirBlocks]; omega, rfl⟩

private theorem groupLow_succ {g : Nat} : groupLow (g + 1) = groupLow g + groupNum g := by
  unfold groupLow groupNum
  by_cases h0 : g = 0
  · subst h0
    rfl
  · rw [if_neg h0, if_neg h0, if_neg (by omega)]
    rfl

private theorem slotBase_succ {n g : Nat} (hg : g < 3) :
    slotBase n (groupLow (g + 1)) = slotBase n (groupLow g) + groupNum g * n ^ g := by
  obtain rfl | rfl | rfl : g = 0 ∨ g = 1 ∨ g = 2 := by omega
  · exact (Nat.mul_one 12).symm
  · change ndirBlocks + n = ndirBlocks + 1 * n ^ 1
    rw [Nat.pow_one, Nat.one_mul]
  · change ndirBlocks + n + n * n = ndirBlocks + n + 1 * n ^ 2
    rw [Nat.pow_two, Nat.one_mul]

private theorem groupSize_le {n g : Nat} (hn : n ≤ 2 ^ 14) (hg : g < 4) : groupNum g * n ^ g ≤ 2 ^ 42 := by
  have hpow : n ^ g ≤ (2 ^ 14) ^ 3 :=
    Nat.le_trans (Nat.pow_le_pow_left hn g) (Nat.pow_le_pow_right (by decide) (by omega))
  unfold groupNum
  split
  · rename_i h0
    rw [h0, Nat.pow_zero]
    decide
  · rw [Nat.one_mul]
    exact hpow

/-- The levels cut the pointers of the inode that remain; no range of positions is left out because the number of
positions exceeds that of every level. -/
private theorem deallocLevels_spec {n start₀ : Nat} (hstart₀ : start₀ < 2 ^ 32) (k : Nat) :
    ∀ g count s ptrs s' ptrs', g + k = 4 → start₀ - slotBase n (groupLow g) + count < 2 ^ 64 →
      2 ^ 53 * (k + 1) ≤ count → Geometry s.1 n → s.2.CountFits →
      Forest (tables s.1.disk) n (groupLow g) 15 slotLevel (word ptrs) →
      deallocLevels k g (groupLow g) (groupNum g) (groupNum g * n ^ g) (start₀ - slotBase n (groupLow g)) count s
      ptrs =
        .ok (s', ptrs') →
      ∃ gone, Released s s' gone 0 ∧
        Cuts (tables s.1.disk) (tables s'.1.disk) n (groupLow g) 15 slotLevel (word ptrs) (word ptrs')
          (fun r => start₀ - slotBase n r) gone ∧ ∀ j < groupLow g, word ptrs' j = word ptrs j := by
  induction k with
  | zero =>
    intro g count s ptrs s' ptrs' hg _ _ _ hfit _ h
    obtain rfl : g = 4 := hg
    cases h
    exact ⟨[], Released.refl hfit, Cuts.nil _ _ _ _ _ _, fun _ _ => rfl⟩
  | succ k ih =>
    intro g count s ptrs s' ptrs' hg hsum hcount hgeo hfit hforest h
    have hg4 : g < 4 := by omega
    have hmax := groupSize_le hgeo.le hg4
    have hlow : groupLow (g + 1) = groupLow g + groupNum g := groupLow_succ
    have hend : groupLow g + groupNum g ≤ 15 := by
      unfold groupLow groupNum
      dsimp only [ndirBlocks]
      split
      · decide
      · omega
    have hlev : ∀ i < groupNum g, slotLevel (groupLow g + i) = g := fun i hi => (slot_group (n := n) hg4 hi).1
    have hcut :
      ∀ i < groupNum g, start₀ - slotBase n (groupLow g + i) = start₀ - slotBase n (groupLow g) - i * n ^ g :=
      fun i hi => by rw [(slot_group hg4 hi).2, Nat.sub_sub]
    -- the remaining levels, from wherever the first of them leaves off
    have hnext : ∀ count s₁ ptrs₁ gone₁, start₀ - slotBase n (groupLow g) - groupNum g * n ^ g + count < 2 ^ 64 →
        2 ^ 53 * (k + 1) ≤ count → Released s s₁ gone₁ 0 →
        Cuts (tables s.1.disk) (tables s₁.1.disk) n (groupLow g) (groupLow g + groupNum g) slotLevel (word ptrs)
          (word ptrs₁) (fun r => start₀ - slotBase n r) gone₁ →
        (∀ j, j < groupLow g ∨ groupLow g + groupNum g ≤ j → word ptrs₁ j = word ptrs j) →
        deallocLevels k (g + 1) (groupLow g + groupNum g)
        (if g = 0 then (1, 1) else (groupNum g, groupNum g * n ^ g)).1
          ((if g = 0 then (1, 1) else (groupNum g, groupNum g * n ^ g)).2 * s₁.1.addrPerBlock % 2 ^ 64)
          (start₀ - slotBase n (groupLow g) - groupNum g * n ^ g) count s₁ ptrs₁ = .ok (s', ptrs') →
        ∃ gone, Released s s' gone 0 ∧
          Cuts (tables s.1.disk) (tables s'.1.disk) n (groupLow g) 15 slotLevel (word ptrs) (word ptrs')
            (fun r => start₀ - slotBase n r) gone ∧ ∀ j < groupLow g, word ptrs' j = word ptrs j := by
      intro count s₁ ptrs₁ gone₁ hsum hcount hrel₁ hcuts₁ hptrs₁ hrun
      obtain ⟨gone, hrel, hcuts, hptrs⟩ : ∃ gone, Released s₁ s' gone 0 ∧
          Cuts (tables s₁.1.disk) (tables s'.1.disk) n (groupLow (g + 1)) 15 slotLevel (word ptrs₁) (word ptrs')
            (fun r => start₀ - slotBase n r) gone ∧ ∀ j < groupLow (g + 1), word ptrs' j = word ptrs₁ j := by
        have hgeo₁ := hgeo.congr hrel₁.blksize
        have hforest₁ : Forest (tables s₁.1.disk) n (groupLow (g + 1)) 15 slotLevel (word ptrs₁) := by
          rw [hlow]
          exact (hforest.mono (Nat.le_add_right _ _) (Nat.le_refl _)).congr (fun j hj _ => hptrs₁ j (Or.inr hj))
            fun j hj hj' => hcuts₁.others hforest hj hj'
        rcases Nat.lt_or_ge g 3 with hg3 | hg3
        · rw [Nat.sub_sub, ← slotBase_succ hg3] at hsum hrun
          refine ih (g + 1) count s₁ ptrs₁ s' ptrs' (by omega) hsum hcount hgeo₁ hrel₁.fits hforest₁ ?_
          have hsize := groupSize_le hgeo.le (g := g + 1) (by omega)
          have hgroup : (if g = 0 then (1, 1) else (groupNum g, groupNum g * n ^ g)) =
              (groupNum (g + 1), groupNum (g + 1) * n ^ g) := by
            unfold groupNum
            by_cases h0 : g = 0
            · rw [if_pos h0, h0]
              rfl
            · rw [if_neg h0, if_neg h0, if_neg (by omega)]
          have hpow : groupNum (g + 1) * n ^ g * n = groupNum (g + 1) * n ^ (g + 1) := by
            rw [Nat.mul_assoc, ← Nat.pow_succ]
          rw [hgroup, hgeo₁.addr] at hrun
          dsimp only at hrun
          rw [hpow, Nat.mod_eq_of_lt (by omega), ← hlow] at hrun
          exact hrun
        · obtain rfl : g = 3 := by omega
          obtain rfl : k = 0 := by omega
          cases hrun
          exact ⟨[], Released.refl hrel₁.fits, Cuts.nil _ _ _ _ _ _, fun _ _ => rfl⟩
      rw [hlow] at hcuts hptrs
      refine ⟨gone₁ ++ gone, hrel₁.append hrel, ?_, fun j hj => ?_⟩
      · exact hcuts₁.append hcuts hforest (Nat.le_add_right _ _) hend (fun j hj _ => hptrs₁ j (Or.inr hj))
          fun j _ hj => hptrs j hj
      · rw [hptrs j (by omega), hptrs₁ j (Or.inl hj)]
    rw [deallocLevels] at h
    dsimp only at h
    by_cases hlt : start₀ - slotBase n (groupLow g) < groupNum g * n ^ g
    · rw [if_pos hlt] at h
      cases hcall :
        deallocIndirectBlock g (groupLow g) (groupNum g) (start₀ - slotBase n (groupLow g)) count s ptrs with
      | error e =>
        rw [hcall] at h
        cases h
      | ok r =>
        obtain ⟨s₁, ptrs₁⟩ := r
        obtain ⟨gone₁, hrel₁, hcuts₁, hptrs₁⟩ := deallocIndirectBlock_spec (groupLow g) (groupNum g) _ count s ptrs s₁
          ptrs₁ slotLevel (fun r => start₀ - slotBase n r) (by omega) hsum (by omega) (by omega) hlev hcut hgeo hfit
          (hforest.mono (Nat.le_refl _) hend) hcall
        rw [hcall] at h
        dsimp only at h
        have hleft : sub64 count (groupNum g * n ^ g - (start₀ - slotBase n (groupLow g))) =
            count - (groupNum g * n ^ g - (start₀ - slotBase n (groupLow g))) := sub64_of_le (by omega) (by omega)
        rw [if_pos (by omega), hleft] at h
        have hzero := Nat.sub_eq_zero_of_le (Nat.le_of_lt hlt)
        refine hnext (count - (groupNum g * n ^ g - (start₀ - slotBase n (groupLow g)))) s₁ ptrs₁ gone₁ ?_ ?_ hrel₁
          hcuts₁
          hptrs₁ ?_
        · omega
        · omega
        · rw [hzero]
          exact h
    · rw [if_neg hlt] at h
      refine hnext count s ptrs [] (by omega) (by omega) (Released.refl hfit) ?_ (fun _ _ => rfl) h
      refine Cuts.skip _ fun j hj hj' => Or.inr ?_
      obtain ⟨i, rfl⟩ := Nat.exists_eq_add_of_le hj
      have hi : i < groupNum g := by omega
      have hlast : (i + 1) * n ^ g ≤ groupNum g * n ^ g := Nat.mul_le_mul_right _ hi
      rw [Nat.succ_mul] at hlast
      rw [hlev i hi, hcut i hi]
      omega

private theorem Inode.word_pointers (inode : Inode) : word inode.pointers = inode.iBlock := by
  funext i
  have hlt := inode.iBlock_lt i
  have hbyte : ∀ x < 4, (inode.pointers (4 * i + x)).toNat = inode.iBlock i / 256 ^ x % 256 := by
    intro x hx
    rw [Inode.pointers, show (4 * i + x) / 4 = i by omega, show (4 * i + x) % 4 = x by omega, UInt8.toNat_ofNat']
  generalize inode.iBlock i = v at hlt hbyte ⊢
  have h0 : (inode.pointers (4 * i)).toNat = v / 1 % 256 := hbyte 0 (by decide)
  have h1 : (inode.pointers (4 * i + 1)).toNat = v / 256 % 256 := hbyte 1 (by decide)
  have h2 : (inode.pointers (4 * i + 2)).toNat = v / 65536 % 256 := hbyte 2 (by decide)
  have h3 : (inode.pointers (4 * i + 3)).toNat = v / 16777216 % 256 := hbyte 3 (by decide)
  simp only [word, readLE, Nat.add_assoc, Nat.reduceAdd, h0, h1, h2, h3]
  omega

/-! ### The truncation -/

def DataFrom (fs : Fs) (inode : Inode) (start b : Nat) : Prop :=
  b ≠ 0 ∧ ∃ k, start ≤ k ∧ k < fileLimit fs.addrPerBlock ∧ pathBlock fs inode (blockPath fs.addrPerBlock k) = b

/-- The block `b` is a pointer block of the file on the way to a logical block from `start` on. -/
def PointersFrom (fs : Fs) (inode : Inode) (start b : Nat) : Prop :=
  b ≠ 0 ∧ ∃ k, start ≤ k ∧ k < fileLimit fs.addrPerBlock ∧
    ∃ p i q, blockPath fs.addrPerBlock k = p ++ i :: q ∧ p ≠ [] ∧ pathBlock fs inode p = b

/-- From `fs` and `inode` to `fs'` and `inode'` the file has been cut at the logical block `start`.  The data blocks
from there on are freed and counted, and so are the pointer blocks that lead to logical blocks from `first` on and
have no pointers left. -/
structure Truncates (fs : Fs) (inode : Inode) (fs' : Fs) (inode' : Inode) (start first : Nat) : Prop where
  before : ∀ k < start, lookup fs' inode' k = lookup fs inode k
  after : ∀ k, start ≤ k → ext2FileBlockOffsetTooBig fs k = false → lookup fs' inode' k = .ok 0
  freed : ∃ freed : Finset Nat,
    (∀ b, b ∈ freed ↔ DataFrom fs inode start b ∨
      PointersFrom fs inode first b ∧ ∀ i < fs.addrPerBlock, word (fs'.disk b) i = 0) ∧
    (∀ b, fs'.bitmap b = if b ∈ freed ∧ fs.firstDataBlock ≤ b ∧ b < fs.blocksCount then false else fs.bitmap b) ∧
    inode'.blockCount fs' + freed.card * inode.blockUnit fs = inode.blockCount fs

section

variable {fs : Fs} {inode : Inode} {start b : Nat}

private theorem dataFrom_iff : DataFrom fs inode start b ↔ ∃ r, 0 ≤ r ∧ r < 15 ∧ ∃ k < fs.addrPerBlock ^ slotLevel r,
    start - slotBase fs.addrPerBlock r ≤ k ∧
      leaf (tables fs.disk) fs.addrPerBlock (slotLevel r) (inode.iBlock r) k = b ∧ b ≠ 0 := by
  constructor
  · rintro ⟨h0, k, hs, hk, hb⟩
    obtain ⟨r, hr, j, hj, rfl⟩ := exists_slot hk
    rw [pathBlock_slot fs inode hr hj] at hb
    exact ⟨r, Nat.zero_le _, hr, j, hj, by omega, hb, h0⟩
  · rintro ⟨r, -, hr, j, hj, hs, hb, h0⟩
    refine ⟨h0, slotBase fs.addrPerBlock r + j, by omega, slotBase_add_lt hr hj, ?_⟩
    rw [pathBlock_slot fs inode hr hj, hb]

private theorem pointersFrom_iff (hn : 0 < fs.addrPerBlock) : PointersFrom fs inode start b ↔ ∃ r, 0 ≤ r ∧ r < 15 ∧
    Table (tables fs.disk) fs.addrPerBlock (slotLevel r) (inode.iBlock r) (start - slotBase fs.addrPerBlock r) b := by
  constructor
  · rintro ⟨h0, k, hs, hk, p, i, q, hp, hne, hb⟩
    obtain ⟨r, hr, j, hj, rfl⟩ := exists_slot hk
    rw [blockPath_slot hr hj] at hp
    obtain ⟨r', p, rfl⟩ := List.exists_cons_of_ne_nil hne
    obtain ⟨rfl, hrest⟩ := List.cons.inj hp
    rw [pathBlock_cons] at hb
    exact ⟨r, Nat.zero_le _, hr, (table_iff inode hn).2 ⟨h0, j, by omega, hj, p, i, q, hrest, hb⟩⟩
  · rintro ⟨r, -, hr, ht⟩
    obtain ⟨h0, j, hs, hj, p, i, q, hp, hb⟩ := (table_iff inode hn).1 ht
    refine ⟨h0, slotBase fs.addrPerBlock r + j, by omega, slotBase_add_lt hr hj, r :: p, i, q, ?_,
      List.cons_ne_nil _ _, ?_⟩
    · rw [blockPath_slot hr hj, hp, List.cons_append]
    · rw [pathBlock_cons, hb]

end

private theorem lookup_ok {fs : Fs} (inode : Inode) {k : Nat} (h : ext2FileBlockOffsetTooBig fs k = false) :
    k < fileLimit fs.addrPerBlock ∧ lookup fs inode k = .ok (pathBlock fs inode (blockPath fs.addrPerBlock k)) := by
  refine ⟨?_, by rw [lookup_eq, if_neg (by rw [h]; decide)]⟩
  simp only [ext2FileBlockOffsetTooBig, Bool.or_eq_false_iff, decide_eq_false_iff_not] at h
  unfold fileLimit
  omega

/-- A truncation cuts the file.  From 2^32 on there are no logical blocks, and a cut there does nothing. -/
theorem dealloc_truncates {fs fs' : Fs} {inode inode' : Inode} {start : Nat} (hsize : fs.BlockSize)
    (hfit : inode.CountFits) (hplaces : ∀ q q' b, Holds fs inode q b → Holds fs inode q' b → q = q')
    (h : ext2DeallocBlocks fs inode start (2 ^ 64 - 1) = .ok (fs', inode')) :
    if start ≤ 0xffffffff then Truncates fs inode fs' inode' start start else fs' = fs ∧ inode' = inode := by
  have hgeo := hsize.geometry
  unfold ext2DeallocBlocks at h
  by_cases hstop : 2 ^ 64 - 1 < start
  · rw [if_pos hstop] at h
    cases h
  rw [if_neg hstop, deallocIndirect] at h
  by_cases hbig : 0xffffffff < start
  · rw [if_pos hbig] at h
    cases h
    rw [if_neg (by omega)]
    exact ⟨rfl, rfl⟩
  rw [if_neg hbig, if_pos (Or.inl (by decide))] at h
  rw [if_pos (by omega)]
  dsimp only at h
  cases hrun : deallocLevels 4 0 0 ndirBlocks ndirBlocks start (2 ^ 64 - 1 - start) (fs, inode) inode.pointers with
  | error e =>
    rw [hrun] at h
    cases h
  | ok r =>
    obtain ⟨s, ptrs⟩ := r
    rw [hrun] at h
    have hforest := inode_forest hplaces
    rw [← inode.word_pointers] at hforest
    obtain ⟨gone, hrel, hcuts, -⟩ := @deallocLevels_spec fs.addrPerBlock start (by omega) 4 0
      (2 ^ 64 - 1 - start) (fs, inode) inode.pointers s ptrs rfl (by omega) (by omega) hgeo hfit hforest hrun
    rw [inode.word_pointers] at hcuts
    have haddr : s.1.addrPerBlock = fs.addrPerBlock := (hgeo.congr hrel.blksize).addr
    have htoobig : ∀ k, ext2FileBlockOffsetTooBig s.1 k = ext2FileBlockOffsetTooBig fs k := fun k => by
      rw [ext2FileBlockOffsetTooBig, haddr, ext2FileBlockOffsetTooBig]
    cases h
    -- the data blocks of the file that has been cut
    have hdata : ∀ k, ext2FileBlockOffsetTooBig fs k = false → lookup s.1 (s.2.withPointers ptrs) k =
        if start ≤ k then .ok 0 else lookup fs inode k := by
      intro k hk
      obtain ⟨hlim, hold⟩ := lookup_ok inode hk
      rw [hold, (lookup_ok _ ((htoobig k).trans hk)).2, haddr]
      obtain ⟨r, hr, j, hj, rfl⟩ := exists_slot hlim
      have hleaf := hcuts.leaves r (Nat.zero_le _) hr j hj
      rw [pathBlock_slot _ _ hr hj, pathBlock_slot _ _ hr hj,
        show (s.2.withPointers ptrs).iBlock = word ptrs from rfl, hleaf]
      by_cases hs : start ≤ slotBase fs.addrPerBlock r + j
      · rw [if_pos hs, if_pos (by omega)]
      · rw [if_neg hs, if_neg (by omega)]
    refine ⟨fun k hk => ?_, fun k hk hok => ?_, gone.toFinset, fun b => ?_, fun b => ?_, ?_⟩
    · cases hok : ext2FileBlockOffsetTooBig fs k with
      | true => rw [lookup_eq, lookup_eq, htoobig, hok, if_pos rfl, if_pos rfl]
      | false => rw [hdata k hok, if_neg (by omega)]
    · rw [hdata k hok, if_pos hk]
    · rw [List.mem_toFinset, hcuts.mem_freed, dataFrom_iff, pointersFrom_iff hgeo.pos]
      rfl
    · simp only [List.mem_toFinset]
      exact hrel.bitmap b
    · have hcount := hrel.count
      rw [Nat.zero_mul, Nat.add_zero] at hcount
      rw [List.toFinset_card_of_nodup hcuts.nodup, hrel.blockCount]
      exact hcount

/-- A file of one block is cut before that block, which is freed. -/
theorem dealloc_truncates_small : ∃ fs' inode',
    ext2DeallocBlocks smallFs (onePointer 3 50 (by decide)) 2 (2 ^ 64 - 1) = .ok (fs', inode') ∧
      fs'.bitmap 50 = false ∧ Truncates smallFs (onePointer 3 50 (by decide)) fs' inode' 2 2 := by
  have hc : Consistent smallFs (onePointer 3 50 (by decide)) := onePointer_consistent
  obtain ⟨fs', inode', hrun, hbit⟩ : ∃ fs' inode',
      ext2DeallocBlocks smallFs (onePointer 3 50 (by decide)) 2 (2 ^ 64 - 1) = .ok (fs', inode') ∧
        fs'.bitmap 50 = false := ⟨_, _, rfl, rfl⟩
  exact ⟨fs', inode', hrun, hbit, dealloc_truncates hc.size ⟨by decide, by decide⟩ hc.distinct hrun⟩

/-- An empty pointer block before the cut is not visited, and stays marked. -/
theorem not_dealloc_truncates : ¬∀ fs fs' inode inode' start, fs.BlockSize → inode.CountFits →
    (∀ q q' b, Holds fs inode q b → Holds fs inode q' b → q = q') →
    ext2DeallocBlocks fs inode start (2 ^ 64 - 1) = .ok (fs', inode') → start ≤ 0xffffffff →
    Truncates fs inode fs' inode' start 0 := by
  intro hall
  obtain ⟨fs', inode', hrun, hbit, hempty⟩ : ∃ fs' inode',
      ext2DeallocBlocks smallFs (onePointer 12 50 (by decide)) 300 (2 ^ 64 - 1) = .ok (fs', inode') ∧
        fs'.bitmap 50 = true ∧ ∀ i, word (fs'.disk 50) i = 0 := ⟨_, _, rfl, rfl, fun _ => rfl⟩
  have hplaces : ∀ q q' b, Holds smallFs (onePointer 12 50 (by decide)) q b →
      Holds smallFs (onePointer 12 50 (by decide)) q' b → q = q' := fun q q' b h h' => by
    rw [(onePointer_holds h).1, (onePointer_holds h').1]
  obtain ⟨freed, hmem, hbitmap, -⟩ :=
    (hall _ _ _ _ _ ⟨0, by decide, rfl⟩ ⟨by decide, by decide⟩ hplaces hrun (by decide)).freed
  have hpointers : PointersFrom smallFs (onePointer 12 50 (by decide)) 0 50 :=
    ⟨by decide, 12, Nat.zero_le _, by decide, [12], 0, [], rfl, List.cons_ne_nil _ _, rfl⟩
  have hgone := (hmem 50).2 (Or.inr ⟨hpointers, fun i _ => hempty i⟩)
  rw [hbitmap 50, if_pos ⟨hgone, by decide, by decide⟩] at hbit
  cases hbit

end Pml.Ext2
