import Pml.Kernel.HeapFree

/-!
# Resizing on a tiled heap

`kh_realloc` leaves a block alone, cuts it, lets it grow into the free block after it, or moves it.  Each case has a
theorem that gives the new list of blocks; only the last case uses the allocator.
-/

namespace Pml.Kernel

open ByteMemory

section

variable {h : Heap} {a s : Nat} {pre post : List Block} (hl : Layout h (pre ++ ⟨s, true⟩ :: post))
  (hpre : Segments (BlockAt h.mem) Block.len h.khBaseAddr pre a)
include hl hpre

theorem realloc_parts : 16 ≤ a ∧ BlockAt h.mem a ⟨s, true⟩ ∧
    Segments (BlockAt h.mem) Block.len (a + 32 + s) post h.khEndAddr ∧ a + 32 + s ≤ h.khEndAddr := by
  obtain ⟨mid, hpre', hb, hpost⟩ := segments_split.1 hl.segments
  obtain rfl := hpre.end_unique hpre'
  have e : a + Block.len ⟨s, true⟩ = a + 32 + s := by simp only [Block.len]; omega
  rw [e] at hpost
  exact ⟨Nat.le_trans hl.base hpre.le, hb, hpost, hpost.le⟩

theorem khRealloc_live (size : Nat) : khRealloc h (a + 16) size =
    if s < alignUp size 16 then
      if khNextFits h a (alignUp size 16) then some ({ h with mem := khGrow h.mem a (alignUp size 16) }, a + 16)
      else (khAllocAligned h (alignUp size 16) 16).map (khMove (a + 16) a)
    else if alignUp size 16 + 64 ≤ s then some ({ h with mem := khShrink h.mem a (alignUp size 16) }, a + 16)
    else some (h, a + 16) := by
  obtain ⟨h16, hb, -, hle⟩ := realloc_parts hl hpre
  have htop := hl.top
  have e1 : sub64 (a + 16) 16 = a := by rw [sub64_of_le (by omega) (by omega)]; omega
  have hm : hdrMagic h.mem a = khHeaderMagic := hb.hdr.magic
  have hf : hdrFlags h.mem a = 1 := hb.hdr.flags
  have hz : hdrSize h.mem a = s := hb.hdr.size
  have hfa : flagAlloc 1 = true := rfl
  simp only [khRealloc, khHeaderSize, khTailSize, khMinBlockSplitSize, khDefaultAlign, Nat.reduceAdd, e1, hm, hf, hz,
    hfa, Nat.add_eq_zero_iff, OfNat.ofNat_ne_zero, and_false, ne_eq, not_true_eq_false, Bool.true_eq_false,
    ↓reduceIte]
  split
  · rfl
  · rename_i hlt
    have e2 : 64 ≤ sub64 s (alignUp size 16) ↔ alignUp size 16 + 64 ≤ s := by
      rw [sub64_of_le (by omega) (by omega)]
      omega
    simp only [e2]

private theorem khNextFits_iff {n : Nat} : khNextFits h a n ↔
    ∃ t rest, post = ⟨t, false⟩ :: rest ∧ n ≤ s + 32 + t := by
  obtain ⟨h16, hb, hpost, hle⟩ := realloc_parts hl hpre
  have htop := hl.top
  have hz : hdrSize h.mem a = s := hb.hdr.size
  have e1 : add64 (add64 a 32) s = a + 32 + s := by
    rw [add64_of_lt (show a + 32 < 2 ^ 64 by omega), add64_of_lt (by omega)]
  simp only [khNextFits, khHeaderSize, khTailSize, Nat.reduceAdd, hz, e1]
  cases post with
  | nil =>
    have hend : a + 32 + s = h.khEndAddr := hpost
    simp [hend]
  | cons c rest =>
    obtain ⟨t, f⟩ := c
    have hc := hpost.1
    have hle' : a + 32 + s + (t + 32) ≤ h.khEndAddr := hpost.2.le
    have hf : hdrFlags h.mem (a + 32 + s) = f.toNat := hc.hdr.flags
    have hz' : hdrSize h.mem (a + 32 + s) = t := hc.hdr.size
    have e2 : add64 (add64 s 32) t = s + 32 + t := by
      rw [add64_of_lt (show s + 32 < 2 ^ 64 by omega), add64_of_lt (by omega)]
    rw [hf, hz', e2]
    constructor
    · rintro ⟨-, h2, h3⟩
      cases f with
      | true => exact absurd h2 (by decide)
      | false => exact ⟨t, rest, rfl, h3⟩
    · rintro ⟨t', rest', heq, h3⟩
      simp only [List.cons.injEq, Block.mk.injEq] at heq
      obtain ⟨⟨rfl, rfl⟩, -⟩ := heq
      exact ⟨by omega, rfl, h3⟩

/-- Replacing the block and free blocks directly after it by other blocks in the same range. -/
private theorem replace_range (m' : Mem) (mid : Nat) (new gone : List Block) {rest : List Block}
    (hpost : post = gone ++ rest) (hgone : ∀ c ∈ gone, c.alloc = false)
    (hmid : Segments (BlockAt h.mem) Block.len (a + 32 + s) gone mid)
    (hnew : Segments (BlockAt m') Block.len a new mid)
    (hout : ∀ x, x < a ∨ mid ≤ x → m' x = h.mem x) :
    Layout { h with mem := m' } (pre ++ (new ++ rest)) ∧
      Carries h.khBaseAddr h.mem m' (pre ++ ⟨s, true⟩ :: post) (pre ++ (new ++ rest)) (· ≠ a) := by
  obtain ⟨h16, hb, hrest, hle⟩ := realloc_parts hl hpre
  subst hpost
  obtain ⟨mid', hmid', hrest⟩ := segments_append.1 hrest
  obtain rfl := hmid.end_unique hmid'
  have hpre' : Segments (BlockAt m') Block.len h.khBaseAddr pre a :=
    segments_congr hpre fun x _ hx => hout x (Or.inl hx)
  have hrest' := segments_congr hrest fun x hx _ => hout x (Or.inr hx)
  have htail := segments_append.2 ⟨mid, hnew, hrest'⟩
  refine ⟨⟨segments_append.2 ⟨a, hpre', htail⟩, hl.base, hl.top⟩, ?_⟩
  have e : a + Block.len ⟨s, true⟩ = a + 32 + s := by simp only [Block.len]; omega
  intro p c hp hc hne
  rw [hpre.placed_append, hnew.placed_append]
  rw [hpre.placed_append, placed_cons, e, hmid.placed_append] at hp
  simp only [List.mem_append, List.mem_cons, Prod.mk.injEq] at hp ⊢
  rcases hp with hp | ⟨rfl, -⟩ | hp | hp
  · exact ⟨c, Or.inl hp, hc, Nat.le_refl _, data_of_mem hpre (fun x _ hx => hout x (Or.inl hx)) hp⟩
  · exact absurd rfl hne
  · have hfree := hgone c (mem_of_mem_placed hp)
    simp [hc] at hfree
  · exact ⟨c, Or.inr (Or.inr hp), hc, Nat.le_refl _, data_of_mem hrest (fun x hx _ => hout x (Or.inr hx)) hp⟩

theorem khShrink_eq {n : Nat} (hn : n + 64 ≤ s) : khShrink h.mem a n = cutBlock h.mem a s n := by
  obtain ⟨h16, hb, hpost, hle⟩ := realloc_parts hl hpre
  have htop := hl.top
  have e1 : add64 (add64 a 16) n = a + 16 + n := by
    rw [add64_of_lt (show a + 16 < 2 ^ 64 by omega), add64_of_lt (by omega)]
  have e2 : add64 (a + 16 + n) 16 = a + 32 + n := by rw [add64_of_lt (by omega)]; omega
  have e3 : sub64 (sub64 (sub64 s n) 16) 16 = s - n - 32 := by
    rw [sub64_of_le (show n ≤ s by omega) (by omega), sub64_of_le (show 16 ≤ s - n by omega) (by omega),
      sub64_of_le (by omega) (by omega)]
    omega
  have e4 : add64 (add64 a 16) s = a + 16 + s := by
    rw [add64_of_lt (show a + 16 < 2 ^ 64 by omega), add64_of_lt (by omega)]
  have hb1 : HeaderAt (initTail h.mem (a + 16 + n) a) a ⟨s, true⟩ :=
    hb.hdr.congr fun x _ _ => initTail_outside (by omega)
  have hfl : clearAlloc (hdrFlags (initTail h.mem (a + 16 + n) a) a) = 0 := by
    rw [hb1.flags]
    exact clearAlloc_toNat true
  have hsz1 : hdrSize (initTail h.mem (a + 16 + n) a) a = s := hb1.size
  have hsz2 : hdrSize (initHeader (initTail h.mem (a + 16 + n) a) (a + 32 + n) 0 (s - n - 32)) a = s := by
    rw [← hsz1]
    exact readLE_congr fun x _ _ => initHeader_outside (by omega)
  simp only [khShrink, khHeaderSize, khTailSize, e1, e2, e3, hfl, hsz1, hsz2, e4, cutBlock]

private theorem khRealloc_shrink {size : Nat} (hn : alignUp size 16 + 64 ≤ s) :
    ∃ m', khRealloc h (a + 16) size = some ({ h with mem := m' }, a + 16) ∧
      Layout { h with mem := m' } (pre ++ ⟨alignUp size 16, true⟩ :: ⟨s - alignUp size 16 - 32, false⟩ :: post) ∧
      Carries h.khBaseAddr h.mem m' (pre ++ ⟨s, true⟩ :: post)
        (pre ++ ⟨alignUp size 16, true⟩ :: ⟨s - alignUp size 16 - 32, false⟩ :: post) (· ≠ a) ∧
      ∀ x, a + 16 ≤ x → x < a + 16 + alignUp size 16 → m' x = h.mem x := by
  obtain ⟨h16, hb, hpost, hle⟩ := realloc_parts hl hpre
  have htop := hl.top
  have hlive := khRealloc_live hl hpre size
  generalize alignUp size 16 = n at *
  have htl : tailMagic h.mem (a + 16 + s) = khTailMagic := hb.tail.magic
  obtain ⟨h1, h2⟩ := cutBlock_blocks hb.hdr htl (by omega) (show n + 32 ≤ s by omega)
  obtain ⟨h3, h4⟩ := replace_range hl hpre (cutBlock h.mem a s n) (a + 32 + s) [⟨n, true⟩, ⟨s - n - 32, false⟩] []
    rfl (by simp) rfl (segments_cut h1 h2 (by omega)) (fun x hx => cutBlock_outside (by omega) hx)
  refine ⟨cutBlock h.mem a s n, ?_, h3, h4, fun x h5 h6 => cutBlock_data (by omega) h5 h6⟩
  rw [hlive, if_neg (by omega), if_pos hn, khShrink_eq hl hpre hn]

end

/-- The blocks made from an allocated block of `s` bytes and a free block of `t` bytes after it when the first one
grows to `n` bytes. -/
def grow (n s t : Nat) : List Block :=
  if n + 32 ≤ s + t then [⟨n, true⟩, ⟨s + 32 + t - n - 32, false⟩] else [⟨s + 32 + t, true⟩]

section

variable {m : Mem} {a s t n : Nat} (hb : BlockAt m a ⟨s, true⟩) (hc : BlockAt m (a + 32 + s) ⟨t, false⟩)
  (htop : a + 64 + s + t < 2 ^ 64) (hn : s < n) (hn' : n ≤ s + 32 + t)
include hb hc htop hn hn'

private theorem khGrow_eq : khGrow m a n =
    if n + 32 ≤ s + t then cutBlock m a (s + 32 + t) n
    else setTailHeader (setHdrSize m a (s + 32 + t)) (a + 48 + s + t) a := by
  have hz : hdrSize m a = s := hb.hdr.size
  have hz' : hdrSize m (a + 32 + s) = t := hc.hdr.size
  have e1 : add64 (add64 a 32) s = a + 32 + s := by
    rw [add64_of_lt (show a + 32 < 2 ^ 64 by omega), add64_of_lt (by omega)]
  have e2 : add64 (add64 (a + 32 + s) 16) t = a + 48 + s + t := by
    rw [add64_of_lt (show a + 32 + s + 16 < 2 ^ 64 by omega), add64_of_lt (by omega)]; omega
  have e3 : add64 32 t = 32 + t := add64_of_lt (by omega)
  have e4 : sub64 (32 + t) (sub64 n s) = s + 32 + t - n := by
    rw [sub64_of_le (show s ≤ n by omega) (by omega), sub64_of_le (by omega) (by omega)]; omega
  have e5 : add64 s (32 + t) = s + 32 + t := by rw [add64_of_lt (by omega)]; omega
  have e6 : add64 (add64 a 16) n = a + 16 + n := by
    rw [add64_of_lt (show a + 16 < 2 ^ 64 by omega), add64_of_lt (by omega)]
  simp only [khGrow, khHeaderSize, khTailSize, khMinBlockSplitSize, Nat.reduceAdd, hz, hz', e1, e2, e3, e4]
  by_cases hcut : n + 32 ≤ s + t
  · have e7 : add64 (a + 16 + n) 16 = a + 32 + n := by rw [add64_of_lt (by omega)]; omega
    have e8 : sub64 (add64 s t) n = s + 32 + t - n - 32 := by
      rw [add64_of_lt (by omega), sub64_of_le (by omega) (by omega)]; omega
    have e9 : a + 48 + s + t = a + 16 + (s + 32 + t) := by omega
    have hb1 : HeaderAt (initTail m (a + 16 + n) a) a ⟨s, true⟩ :=
      hb.hdr.congr fun x _ _ => initTail_outside (by omega)
    have hfl : clearAlloc (hdrFlags (initTail m (a + 16 + n) a) a) = 0 := by
      rw [hb1.flags]
      exact clearAlloc_toNat true
    have hsz1 : hdrSize (initTail m (a + 16 + n) a) a = s := hb1.size
    rw [if_pos (by omega), if_pos hcut]
    simp only [khGrowSplit, khHeaderSize, khTailSize, Nat.reduceAdd, hz, hz', e1, e6, e7, hfl, hsz1, e8, e9, cutBlock]
    exact writeLE_comm (by omega)
  · have hz1 : hdrSize (setTailHeader m (a + 48 + s + t) a) a = s := by
      rw [← hz]
      exact readLE_congr fun x _ _ => setTailHeader_outside (by omega)
    rw [if_neg (by omega), if_neg hcut, hz1, e5]
    exact writeLE_comm (by omega)

private theorem khGrow_spec :
    Segments (BlockAt (khGrow m a n)) Block.len a (grow n s t) (a + 64 + s + t) ∧
      (∀ x, x < a ∨ a + 64 + s + t ≤ x → khGrow m a n x = m x) ∧
      ∀ x, a + 16 ≤ x → x < a + 16 + s → khGrow m a n x = m x := by
  have htl : tailMagic m (a + 16 + (s + 32 + t)) = khTailMagic := by
    have h1 : tailMagic m (a + 32 + s + 16 + t) = khTailMagic := hc.tail.magic
    have e : a + 32 + s + 16 + t = a + 16 + (s + 32 + t) := by omega
    rwa [e] at h1
  rw [khGrow_eq hb hc htop hn hn']
  unfold grow
  split
  · rename_i hcut
    obtain ⟨h1, h2⟩ := cutBlock_blocks hb.hdr htl (by omega) (show n + 32 ≤ s + 32 + t by omega)
    refine ⟨?_, fun x hx => cutBlock_outside (by omega) (by omega),
      fun x h3 h4 => cutBlock_data (by omega) h3 (by omega)⟩
    have e : a + 64 + s + t = a + 32 + (s + 32 + t) := by omega
    rw [e]
    exact segments_cut h1 h2 (by omega)
  · refine ⟨⟨blockAt_merge hb hc htop, ?_⟩, fun x hx => merge_outside (by omega),
      fun x h3 h4 => merge_outside (by omega)⟩
    simp only [segments_nil, Block.len]
    omega

end

private theorem khRealloc_grow {h : Heap} {a s t size : Nat} {pre rest : List Block}
    (hl : Layout h (pre ++ ⟨s, true⟩ :: ⟨t, false⟩ :: rest))
    (hpre : Segments (BlockAt h.mem) Block.len h.khBaseAddr pre a) (hn : s < alignUp size 16)
    (hn' : alignUp size 16 ≤ s + 32 + t) :
    ∃ m', khRealloc h (a + 16) size = some ({ h with mem := m' }, a + 16) ∧
      Layout { h with mem := m' } (pre ++ (grow (alignUp size 16) s t ++ rest)) ∧
      Carries h.khBaseAddr h.mem m' (pre ++ ⟨s, true⟩ :: ⟨t, false⟩ :: rest)
        (pre ++ (grow (alignUp size 16) s t ++ rest)) (· ≠ a) ∧
      ∀ x, a + 16 ≤ x → x < a + 16 + s → m' x = h.mem x := by
  obtain ⟨h16, hb, ⟨hc, hrest⟩, hle⟩ := realloc_parts hl hpre
  have htop := hl.top
  have hle' : a + 32 + s + (t + 32) ≤ h.khEndAddr := hrest.le
  have hlive := khRealloc_live hl hpre size
  have hfit := (khNextFits_iff hl hpre).2 ⟨t, rest, rfl, hn'⟩
  generalize alignUp size 16 = n at *
  obtain ⟨h1, h2, h3⟩ := khGrow_spec hb hc (by omega) hn hn'
  obtain ⟨h4, h5⟩ := replace_range hl hpre (khGrow h.mem a n) (a + 64 + s + t) (grow n s t) [⟨t, false⟩]
    rfl (by simp) ⟨hc, by simp only [segments_nil, Block.len]; omega⟩ h1 h2
  refine ⟨khGrow h.mem a n, ?_, h4, h5, h3⟩
  rw [hlive, if_pos hn, if_pos hfit]

/-! ### All cases -/

/-- What `kh_realloc` does with the block of `s` bytes at `a` when `n` bytes are requested and `q` is returned. -/
structure Reallocated (h h' : Heap) (bs bs' : List Block) (a s n q : Nat) : Prop where
  base : h'.khBaseAddr = h.khBaseAddr
  top : h'.khEndAddr = h.khEndAddr
  layout : Layout h' bs'
  carries : Carries h.khBaseAddr h.mem h'.mem bs bs' (· ≠ a)
  result : (q = 0 ∧ h'.mem = h.mem ∧ bs' = bs) ∨
    ∃ a' c, q = a' + 16 ∧ (a', c) ∈ placed Block.len h.khBaseAddr bs' ∧ c.alloc = true ∧ n ≤ c.size ∧
      (∀ i, i < min s n → h'.mem (a' + 16 + i) = h.mem (a + 16 + i)) ∧
      ∀ p e, (p, e) ∈ placed Block.len h.khBaseAddr bs → e.alloc = true → p ≠ a → p ≠ a'

/-- The blocks after `kh_realloc` when `n` bytes are requested for the block of `s` bytes at `a` between `pre` and
`post`, and `q` is returned. -/
inductive Resized (base a s n q : Nat) (pre post : List Block) : List Block → Prop
  | fail (hn : s < n) (hq : q = 0) : Resized base a s n q pre post (pre ++ ⟨s, true⟩ :: post)
  | stay (hn : n ≤ s) (hs : s < n + 64) (hq : q = a + 16) : Resized base a s n q pre post (pre ++ ⟨s, true⟩ :: post)
  | cut (hn : n + 64 ≤ s) (hq : q = a + 16) :
    Resized base a s n q pre post (pre ++ ⟨n, true⟩ :: ⟨s - n - 32, false⟩ :: post)
  | grow {t : Nat} {rest : List Block} (hpost : post = ⟨t, false⟩ :: rest) (hn : s < n) (hn' : n ≤ s + 32 + t)
    (hq : q = a + 16) : Resized base a s n q pre post (pre ++ (Kernel.grow n s t ++ rest))
  | move {pre0 post0 pre1 post1 : List Block} {k a0 : Nat} (hn : s < n)
    (htake : pre ++ ⟨s, true⟩ :: post = pre0 ++ ⟨k, false⟩ :: post0)
    (hcut : pre0 ++ (carve n k ++ post0) = pre1 ++ ⟨s, true⟩ :: post1)
    (hpre0 : Segments (fun _ _ => True) Block.len base pre0 a0)
    (hpre1 : Segments (fun _ _ => True) Block.len base pre1 a) (hq : q = a0 + 16) :
    Resized base a s n q pre post (release pre1 s post1)

/-- The end of `kh_realloc` after a successful allocation at the start of a free block. -/
private theorem khMove_spec {h : Heap} {bs bs1 : List Block} {m1 : Mem} {a s n a0 : Nat} {b : Block}
    (ha : (a, ⟨s, true⟩) ∈ placed Block.len h.khBaseAddr bs) (hn : s < n)
    (hA : Allocated h m1 bs bs1 n 0 a0 b) :
    ∃ h' pre1 post1, bs1 = pre1 ++ ⟨s, true⟩ :: post1 ∧
      Segments (fun _ _ => True) Block.len h.khBaseAddr pre1 a ∧
      khMove (a + 16) a ({ h with mem := m1 }, a0 + 16) = (h', a0 + 16) ∧
      Reallocated h h' bs (release pre1 s post1) a s n (a0 + 16) := by
  have ha1 := hA.same rfl a _ ha rfl
  have hfresh := hA.fresh a _ ha rfl
  have hz : hdrSize m1 a = s := (hA.layout.segments.of_mem_placed ha1).1.hdr.size
  obtain ⟨c, hc1, hc2, hc3⟩ := hA.block
  simp only [Nat.add_zero] at hc1 hfresh
  generalize hm2 : copy m1 (a0 + 16) (a + 16) s = m2
  have hout : ∀ x, x < a0 + 16 ∨ a0 + 16 + c.size ≤ x → m2 x = m1 x := by
    intro x hx
    rw [← hm2, copy_outside (by omega)]
  obtain ⟨hl2, hcar2⟩ := hA.layout.store hc1 hout
  obtain ⟨pre, post, rfl, hpre, -, -⟩ := hl2.segments.split_placed ha1
  obtain ⟨m3, hfree, hl3, hcar3⟩ := khFree_spec hl2 hpre
  refine ⟨{ h with mem := m3 }, pre, post, rfl, hpre.mono fun _ _ _ _ _ _ => trivial, ?_,
    ⟨rfl, rfl, hl3, ?_, Or.inr ?_⟩⟩
  · simp only [khMove, hz, hm2, hfree, Nat.add_eq_zero_iff, OfNat.ofNat_ne_zero, and_false, ↓reduceIte]
  · intro p e hp he hne
    have hne' := hA.fresh p e hp he
    have h1 := (hA.carries.mono fun _ _ => trivial : Carries _ _ _ _ _ fun x => x ≠ a ∧ x ≠ a0).trans
      ((hcar2.mono fun _ hx => hx.2).trans (hcar3.mono fun _ hx => hx.1))
    exact h1 p e hp he ⟨hne, hne'⟩
  · obtain ⟨c', h1, h2, h3, h4⟩ := hcar3 a0 c hc1 hc2 hfresh.symm
    refine ⟨a0, c', rfl, h1, h2, by omega, fun i hi => ?_, fun p e hp he _ => hA.fresh p e hp he⟩
    obtain ⟨-, -, -, -, h5⟩ := hA.carries a _ ha rfl trivial
    have hi' : i < s := by omega
    have h6 : m3 (a0 + 16 + i) = m2 (a0 + 16 + i) := h4 _ (by omega) (by omega)
    have h7 : m2 (a0 + 16 + i) = m1 (a + 16 + i) := by rw [← hm2]; exact copy_inside hi'
    show m3 (a0 + 16 + i) = h.mem (a + 16 + i)
    rw [h6, h7]
    exact h5 _ (by omega) (by simp only; omega)

/-- `kh_realloc` on a live pointer: it returns, and keeps the heap tiled if the allocation it may need is safe. -/
theorem khRealloc_resized {h : Heap} {pre post : List Block} {a s size : Nat}
    (hl : Layout h (pre ++ ⟨s, true⟩ :: post)) (hpre : Segments (BlockAt h.mem) Block.len h.khBaseAddr pre a)
    (hsize : size < 2 ^ 64)
    (hsafe : s < alignUp size 16 → ¬khNextFits h a (alignUp size 16) →
      AllocSafe h.khBaseAddr (pre ++ ⟨s, true⟩ :: post) (alignUp size 16) 16) :
    ∃ h' q bs', khRealloc h (a + 16) size = some (h', q) ∧
      Reallocated h h' (pre ++ ⟨s, true⟩ :: post) bs' a s (alignUp size 16) q ∧
      Resized h.khBaseAddr a s (alignUp size 16) q pre post bs' := by
  have ha : (a, ⟨s, true⟩) ∈ placed Block.len h.khBaseAddr (pre ++ ⟨s, true⟩ :: post) := by
    rw [hpre.placed_append]
    simp
  have hlive := khRealloc_live hl hpre size
  have hfits := khNextFits_iff hl hpre (n := alignUp size 16)
  by_cases hgt : s < alignUp size 16
  · by_cases hnext : khNextFits h a (alignUp size 16)
    · obtain ⟨t, rest, rfl, hle⟩ := hfits.1 hnext
      obtain ⟨m', h1, h2, h3, h4⟩ := khRealloc_grow hl hpre hgt hle
      refine ⟨_, _, _, h1, ⟨rfl, rfl, h2, h3, Or.inr ?_⟩, .grow rfl hgt hle rfl⟩
      have hmem : ∃ c, (a, c) ∈ placed Block.len h.khBaseAddr (pre ++ (grow (alignUp size 16) s t ++ rest)) ∧
          c.alloc = true ∧ alignUp size 16 ≤ c.size := by
        rw [hpre.placed_append]
        unfold grow
        split
        · exact ⟨⟨alignUp size 16, true⟩, by simp, rfl, Nat.le_refl _⟩
        · exact ⟨⟨s + 32 + t, true⟩, by simp, rfl, hle⟩
      obtain ⟨c, hc1, hc2, hc3⟩ := hmem
      exact ⟨a, c, rfl, hc1, hc2, hc3, fun i hi => h4 _ (by omega) (by omega), fun p e _ _ hne => hne⟩
    · rw [hlive, if_pos hgt, if_neg hnext]
      have hp2 : isP2 16 = true := by decide
      have hidem := alignUp_alignUp_sixteen hsize
      have hs := hsafe hgt hnext
      have hA := khAllocAligned_spec (alignUp size 16) hl hp2
      rw [hidem] at hA
      rcases hA hs with h1 | ⟨a0, b, d, m1, bs1, hff, hd, hplace, h1, h2⟩
      · rw [h1]
        exact ⟨_, _, _, rfl, ⟨rfl, rfl, ⟨hl.segments, hl.base, hl.top⟩, Carries.refl, Or.inl ⟨rfl, rfl, rfl⟩⟩,
          .fail hgt rfl⟩
      · -- the default alignment moves the pointer by less than a header, so a safe place is not moved at all
        obtain rfl : d = 0 := by
          obtain ⟨-, -, hin⟩ := hl.segments.of_mem_placed (firstFit_eq_some hff).1
          have htop := hl.top
          simp only [Block.len] at hin
          have hlt := alignUp_lt (x := a0 + 16) (k := 4) (by omega) (by omega)
          have hgap := hplace.gap
          have hd' : alignUp (a0 + 16) (2 ^ 4) = a0 + 16 + d := hd
          omega
        obtain ⟨h', pre1, post1, hbs1, hpre1, h3, h4⟩ := khMove_spec ha hgt h2
        obtain ⟨pre0, post0, hbs, hpre0, hcut⟩ := h2.cut
        replace hpre0 : Segments (fun _ _ => True) Block.len h.khBaseAddr pre0 a0 :=
          hpre0.mono fun _ _ _ _ _ _ => trivial
        obtain ⟨-, hfree, -⟩ := firstFit_eq_some hff
        obtain ⟨k, f⟩ := b
        obtain rfl : f = false := hfree
        rw [h1]
        exact ⟨h', a0 + 16, _, congrArg some h3, h4, .move hgt hbs (hcut.symm.trans hbs1) hpre0 hpre1 rfl⟩
  · by_cases hcut : alignUp size 16 + 64 ≤ s
    · obtain ⟨m', h1, h2, h3, h4⟩ := khRealloc_shrink hl hpre hcut
      refine ⟨_, _, _, h1, ⟨rfl, rfl, h2, h3,
        Or.inr ⟨a, ⟨alignUp size 16, true⟩, rfl, ?_, rfl, Nat.le_refl _, ?_, ?_⟩⟩, .cut hcut rfl⟩
      · rw [hpre.placed_append]
        simp
      · intro i hi
        exact h4 _ (by omega) (by omega)
      · intro p e _ _ hne
        exact hne
    · rw [hlive, if_neg hgt, if_neg hcut]
      exact ⟨h, _, _, rfl, ⟨rfl, rfl, hl, Carries.refl,
        Or.inr ⟨a, ⟨s, true⟩, rfl, ha, rfl, by simp only; omega, fun i hi => rfl, fun p e _ _ hne => hne⟩⟩,
        .stay (by omega) (by omega) rfl⟩

theorem khRealloc_spec {h : Heap} {bs : List Block} {a s size : Nat} (hl : Layout h bs)
    (ha : (a, ⟨s, true⟩) ∈ placed Block.len h.khBaseAddr bs) (hsize : size < 2 ^ 64)
    (hsafe : s < alignUp size 16 → ¬khNextFits h a (alignUp size 16) →
      AllocSafe h.khBaseAddr bs (alignUp size 16) 16) :
    ∃ h' q bs', khRealloc h (a + 16) size = some (h', q) ∧ Reallocated h h' bs bs' a s (alignUp size 16) q := by
  obtain ⟨pre, post, rfl, hpre, -, -⟩ := hl.segments.split_placed ha
  obtain ⟨h', q, bs', h1, h2, -⟩ := khRealloc_resized hl hpre hsize hsafe
  exact ⟨h', q, bs', h1, h2⟩

end Pml.Kernel
