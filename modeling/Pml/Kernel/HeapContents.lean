import Pml.Kernel.HeapSizes

/-!
# The data of resized blocks

`kh_realloc` keeps the data of the block that it resizes and of all other blocks.  The exception is a size that
wraps to zero: the block is cut to no bytes, and a tail and a header are written over the data that the caller
asked to keep (`khRealloc_keeps_iff`).
-/

namespace Pml.Kernel

open ByteMemory

/-! ### Allocated blocks after a release -/

section

variable {m : Mem} {base a s : Nat} {pre post : List Block}

/-- The blocks before a released block, once it has been unified: they stay in place, and what follows them starts at
the released block or at the free block before it. -/
private theorem segments_joinPrev (hpre : Segments (fun _ _ => True) Block.len base pre a) :
    ∃ a', Segments (fun _ _ => True) Block.len base (joinPrev pre s).1 a' ∧ a' + (joinPrev pre s).2 = a + s ∧
      (a' = a ∨ ∃ e, (a', e) ∈ placed Block.len base pre) ∧
      ∀ p c, (p, c) ∈ placed Block.len base (joinPrev pre s).1 → (p, c) ∈ placed Block.len base pre := by
  rcases List.eq_nil_or_concat pre with rfl | ⟨pre, c, rfl⟩
  · exact ⟨a, hpre, rfl, Or.inl rfl, fun p c hp => hp⟩
  rw [List.concat_eq_append] at *
  obtain ⟨q, hpre', -, hq⟩ := segments_split.1 hpre
  have hq' : q + (c.size + 32) = a := hq
  cases hc : c.alloc with
  | true =>
    have e : joinPrev (pre ++ [c]) s = (pre ++ [c], s) := by simp [joinPrev, hc]
    rw [e]
    exact ⟨a, hpre, rfl, Or.inl rfl, fun p c hp => hp⟩
  | false =>
    have e : joinPrev (pre ++ [c]) s = (pre, c.size + (s + 32)) := by simp [joinPrev, hc]
    rw [e, hpre'.placed_append]
    refine ⟨q, hpre', by dsimp only; omega, Or.inr ⟨c, by simp⟩, fun p e hp => List.mem_append_left _ hp⟩

private theorem placed_joinNext {a' t p : Nat} {c : Block} (hp : (p, c) ∈ placed Block.len a' (joinNext t post)) :
    (p = a' ∧ c.alloc = false) ∨ (p, c) ∈ placed Block.len (a' + 32 + t) post := by
  have elen : a' + Block.len ⟨t, false⟩ = a' + 32 + t := by simp only [Block.len]; omega
  cases post with
  | nil =>
    rw [joinNext, placed_cons, placed_nil, List.mem_singleton, Prod.mk.injEq] at hp
    obtain ⟨rfl, rfl⟩ := hp
    exact Or.inl ⟨rfl, rfl⟩
  | cons e post =>
    simp only [joinNext] at hp
    split at hp
    · rw [placed_cons, List.mem_cons, Prod.mk.injEq, elen] at hp
      rcases hp with ⟨rfl, rfl⟩ | hp
      · exact Or.inl ⟨rfl, rfl⟩
      · exact Or.inr hp
    · have e1 : a' + Block.len ⟨t + (32 + e.size), false⟩ = a' + 32 + t + e.len := by simp only [Block.len]; omega
      rw [placed_cons, List.mem_cons, Prod.mk.injEq, e1] at hp
      rcases hp with ⟨rfl, rfl⟩ | hp
      · exact Or.inl ⟨rfl, rfl⟩
      · rw [placed_cons]
        exact Or.inr (List.mem_cons_of_mem _ hp)

theorem placed_release {p : Nat} {c : Block} (hpre : Segments (fun _ _ => True) Block.len base pre a)
    (hp : (p, c) ∈ placed Block.len base (release pre s post)) :
    (p, c) ∈ placed Block.len base pre ∨ (p, c) ∈ placed Block.len (a + 32 + s) post ∨
      (c.alloc = false ∧ (p = a ∨ ∃ e, (p, e) ∈ placed Block.len base pre)) := by
  obtain ⟨a', h1, h2, h3, h4⟩ := segments_joinPrev (s := s) hpre
  rw [release, h1.placed_append, List.mem_append] at hp
  rcases hp with hp | hp
  · exact Or.inl (h4 p c hp)
  · have e : a' + 32 + (joinPrev pre s).2 = a + 32 + s := by omega
    rcases placed_joinNext hp with ⟨rfl, h5⟩ | h5
    · exact Or.inr (Or.inr ⟨h5, h3⟩)
    · rw [e] at h5
      exact Or.inr (Or.inl h5)

theorem alloc_release {p : Nat} {c : Block} (hpre : Segments (fun _ _ => True) Block.len base pre a)
    (hp : (p, c) ∈ placed Block.len base (release pre s post)) (hc : c.alloc = true) :
    p ≠ a ∧ ((p, c) ∈ placed Block.len base pre ∨ (p, c) ∈ placed Block.len (a + 32 + s) post) := by
  rcases placed_release hpre hp with h1 | h1 | ⟨h1, -⟩
  · obtain ⟨-, -, h2⟩ := hpre.of_mem_placed h1
    simp only [Block.len] at h2
    exact ⟨by omega, Or.inl h1⟩
  · have h2 := le_of_mem_placed h1
    exact ⟨by omega, Or.inr h1⟩
  · rw [hc] at h1
    cases h1

end

/-! ### The data after `kh_realloc` -/

def Heap.Has (h : Heap) (a : Nat) (b : Block) : Prop :=
  (a, b) ∈ placed Block.len h.khBaseAddr h.blocks ∧ b.alloc = true

/-- What a caller may expect of the result `q` of `kh_realloc` for `size` bytes and the block of `s` bytes at `a`. -/
structure Kept (h h' : Heap) (a s size q : Nat) : Prop where
  data : ∀ i, i < min s size → h'.mem (q + i) = h.mem (a + 16 + i)
  others : ∀ p c, h.Has p c → p ≠ a → (∃ c', h'.Has p c' ∧ c.size ≤ c'.size) ∧
    ∀ x, p + 16 ≤ x → x < p + 16 + c.size → h'.mem x = h.mem x
  live : ∀ c, h'.Has a c → q = a + 16

/-- `kh_realloc` returns; it keeps the data if the result is a pointer, and everything if it is null. -/
def ReallocKeeps (h : Heap) (a s size : Nat) : Prop :=
  ∃ h' q, khRealloc h (a + 16) size = some (h', q) ∧
    if q = 0 then h'.mem = h.mem ∧ h'.blocks = h.blocks else Kept h h' a s size q

/-- The data of the block of `s` bytes at `a` already begin with the tail of an empty block at `a` and the header of
the free block after it. -/
structure CutAlready (m : Mem) (a s : Nat) : Prop where
  tail : TailAt m (a + 16) a
  reserved : readLE m (a + 20) 4 = 0
  hdr : HeaderAt m (a + 32) ⟨s - 32, false⟩

private theorem initTail_eq_self {m : Mem} {t a : Nat} (ht : TailAt m t a) (hr : readLE m (t + 4) 4 = 0) :
    initTail m t a = m := by
  have h1 : setTailMagic m t khTailMagic = m := by
    rw [← ht.magic]
    exact writeLE_readLE_self m t 4
  have h2 : setTailReserved m t 0 = m := by
    rw [← hr]
    exact writeLE_readLE_self m (t + 4) 4
  have h3 : setTailHeader m t a = m := by
    rw [← ht.header]
    exact writeLE_readLE_self m (t + 8) 8
  rw [initTail, h1, h2, h3]

private theorem initHeader_eq_self {m : Mem} {a s : Nat} (hb : HeaderAt m a ⟨s, false⟩) : initHeader m a 0 s = m := by
  have hz : hdrSize m a = s := hb.size
  have hf : hdrFlags m a = 0 := hb.flags
  have h1 : setHdrMagic m a khHeaderMagic = m := by
    rw [← hb.magic]
    exact writeLE_readLE_self m a 4
  have h2 : setHdrFlags m a 0 = m := by
    rw [← hf]
    exact writeLE_readLE_self m (a + 4) 4
  have h3 : setHdrSize m a s = m := by
    rw [← hz]
    exact writeLE_readLE_self m (a + 8) 8
  rw [initHeader, h1, h2, h3]

section

variable {m : Mem} {a s : Nat}

private theorem CutAlready.cutBlock_eq (hcut : CutAlready m a s) {x : Nat} (hx : a + 16 ≤ x) (hx' : x < a + 16 + s) :
    cutBlock m a s 0 x = m x := by
  have h1 : initTail m (a + 16) a = m := initTail_eq_self hcut.tail hcut.reserved
  have h2 : initHeader m (a + 32) 0 (s - 32) = m := initHeader_eq_self hcut.hdr
  simp only [cutBlock, Nat.add_zero, Nat.sub_zero, h1, h2]
  rw [setHdrSize_outside (by omega), setTailHeader_outside (by omega)]

private theorem cutAlready_of_eq {b : Block} (hb : BlockAt m a b) (hs : b.size = s) (htop : a + 32 + s < 2 ^ 64)
    (h64 : 64 ≤ s) (heq : ∀ x, a + 16 ≤ x → x < a + 16 + s → cutBlock m a s 0 x = m x) : CutAlready m a s := by
  subst hs
  obtain ⟨⟨-, h1⟩, ⟨h2, -⟩⟩ := cutBlock_blocks (n := 0) hb.hdr hb.tail.magic htop (by omega)
  refine ⟨?_, ?_, ?_⟩
  · replace h1 : TailAt (cutBlock m a b.size 0) (a + 16) a := h1
    exact h1.congr fun x hx hx' => (heq x hx (by omega)).symm
  · have h3 : readLE (initTail m (a + 16) a) (a + 20) 4 = 0 := by
      unfold initTail setTailHeader setTailReserved
      rw [readLE_writeLE_disjoint (by omega), readLE_writeLE_self]
      rfl
    rw [← h3]
    refine readLE_congr fun x hx hx' => ?_
    rw [← heq x (by omega) (by omega), cutBlock, setHdrSize_outside (by omega), setTailHeader_outside (by omega),
      initHeader_outside (by omega)]
  · exact h2.congr fun x hx hx' => (heq x (by omega) (by omega)).symm

end

section

variable {h : Heap} {bs : List Block} {a s size : Nat} (hal : AlignedHeap h bs)
  (hb : (a, ⟨s, true⟩) ∈ placed Block.len h.khBaseAddr bs) (hsize : size < 2 ^ 64)
include hal hb

private theorem khRealloc_wrapped (hwrap : 2 ^ 64 - 16 < size) (hsize : size < 2 ^ 64) :
    khRealloc h (a + 16) size =
      some (if 64 ≤ s then { h with mem := cutBlock h.mem a s 0 } else h, a + 16) := by
  obtain ⟨pre, post, rfl, hpre, -, -⟩ := hal.layout.segments.split_placed hb
  have h0 : alignUp size 16 = 0 := by
    rw [alignUp_sixteen hsize]
    omega
  rw [khRealloc_live hal.layout hpre size, h0, if_neg (by omega)]
  by_cases h64 : 64 ≤ s
  · rw [if_pos (by omega), if_pos h64, khShrink_eq hal.layout hpre (by omega)]
  · rw [if_neg (by omega), if_neg h64]

include hsize

/-- The result of `kh_realloc`, with the data of the block as far as the rounded size reaches. -/
private theorem khRealloc_kept : ∃ h' q, khRealloc h (a + 16) size = some (h', q) ∧
    ((q = 0 ∧ h'.mem = h.mem ∧ h'.blocks = h.blocks) ∨ (q ≠ 0 ∧
      (∀ i, i < min s (alignUp size 16) → h'.mem (q + i) = h.mem (a + 16 + i)) ∧
      ((∀ i, i < min s size → h'.mem (q + i) = h.mem (a + 16 + i)) → Kept h h' a s size q))) := by
  obtain ⟨pre, post, rfl, hpre, -, -⟩ := hal.layout.segments.split_placed hb
  obtain ⟨h', q, bs', h1, hR, hZ⟩ := khRealloc_resized hal.layout hpre hsize fun _ _ => hal.allocSafe _
  have hblocks := hal.layout.blocks_eq
  have hblocks' := hR.layout.blocks_eq
  refine ⟨h', q, h1, ?_⟩
  rcases hR.result with ⟨h2, h3, h4⟩ | ⟨a', c, rfl, -, -, -, hdata, -⟩
  · exact Or.inl ⟨h2, h3, by rw [hblocks', hblocks, h4]⟩
  · refine Or.inr ⟨by omega, hdata, fun hkept => ⟨hkept, ?_, ?_⟩⟩
    · rintro p e ⟨hp, he⟩ hne
      rw [hblocks] at hp
      obtain ⟨e', h5, h6, h7, h8⟩ := hR.carries p e hp he hne
      refine ⟨⟨e', ⟨?_, h6⟩, h7⟩, h8⟩
      rw [hblocks', hR.base]
      exact h5
    · rintro e ⟨hp, he⟩
      rw [hblocks', hR.base] at hp
      cases hZ with
      | fail hn hq => omega
      | stay hn hs hq => exact hq
      | cut hn hq => exact hq
      | grow hpost hn hn' hq => exact hq
      | move hn htake hcut hpre0 hpre1 _ => exact absurd rfl (alloc_release hpre1 hp he).1

end

/-- `kh_realloc` keeps all data exactly if the size can be rounded up, or the block is too small to be cut, or its
data already look like a cut. -/
theorem khRealloc_keeps_iff {h : Heap} {bs : List Block} {a s size : Nat} (hal : AlignedHeap h bs)
    (hb : h.Has a ⟨s, true⟩) (hsize : size < 2 ^ 64) :
    ReallocKeeps h a s size ↔ size ≤ 2 ^ 64 - 16 ∨ s < 64 ∨ CutAlready h.mem a s := by
  obtain ⟨hb, -⟩ := hb
  rw [hal.layout.blocks_eq] at hb
  obtain ⟨h', q, h1, h2⟩ := khRealloc_kept hal hb hsize
  have hkeeps : ReallocKeeps h a s size ↔ (q ≠ 0 → Kept h h' a s size q) := by
    constructor
    · rintro ⟨h'', q', h3, h4⟩ hq
      rw [h1] at h3
      obtain ⟨rfl, rfl⟩ := Prod.mk.inj (Option.some.inj h3)
      rwa [if_neg hq] at h4
    · intro hk
      refine ⟨h', q, h1, ?_⟩
      rcases h2 with ⟨rfl, h3, h4⟩ | ⟨hq, -, -⟩
      · rw [if_pos rfl]
        exact ⟨h3, h4⟩
      · rw [if_neg hq]
        exact hk hq
  rw [hkeeps]
  by_cases hwrap : size ≤ 2 ^ 64 - 16
  · have hup := le_alignUp_sixteen hwrap
    refine ⟨fun _ => Or.inl hwrap, fun _ hq => ?_⟩
    rcases h2 with ⟨h3, -⟩ | ⟨-, h3, h4⟩
    · exact absurd h3 hq
    · exact h4 fun i hi => h3 i (by omega)
  · -- the size wraps, and the pointer is returned
    have hw := khRealloc_wrapped hal hb (by omega) hsize
    rw [h1] at hw
    obtain ⟨hh, rfl⟩ := Prod.mk.inj (Option.some.inj hw)
    obtain ⟨-, -, hkept⟩ := h2.resolve_left (by omega)
    obtain ⟨hblock, -, hhi⟩ := hal.layout.segments.of_mem_placed hb
    have htop := hal.layout.top
    simp only [Block.len] at hhi
    by_cases h64 : 64 ≤ s
    · rw [if_pos h64] at hh
      subst hh
      constructor
      · intro hk
        refine Or.inr (Or.inr (cutAlready_of_eq hblock rfl (by omega) h64 fun x hx hx' => ?_))
        have h5 := (hk (by omega)).data (x - (a + 16)) (by omega)
        rwa [Nat.add_sub_of_le hx] at h5
      · intro hcond _
        refine hkept fun i hi => ?_
        have hcut := (hcond.resolve_left hwrap).resolve_left (by omega)
        exact hcut.cutBlock_eq (by omega) (by omega)
    · rw [if_neg h64] at hh
      subst hh
      exact ⟨fun _ => Or.inr (Or.inl (by omega)), fun _ _ => hkept fun i hi => rfl⟩

def zeroedHeap : Heap := (khTake smallHeap 96 16 (.found 0x1000 0x11f0 0x1010)).1

private theorem zeroedHeap_aligned : AlignedHeap zeroedHeap [⟨96, true⟩, ⟨352, false⟩] := by
  refine ⟨⟨?_, by decide, by decide⟩, by decide, ?_⟩
  · have h1 : BlockAt zeroedHeap.mem 0x1000 ⟨96, true⟩ :=
      ⟨⟨by decide, by decide, by decide⟩, ⟨by decide, by decide⟩⟩
    have h2 : BlockAt zeroedHeap.mem 0x1080 ⟨352, false⟩ :=
      ⟨⟨by decide, by decide, by decide⟩, ⟨by decide, by decide⟩⟩
    exact ⟨h1, h2, rfl⟩
  · intro a b hab
    rw [placed_cons, placed_cons, placed_nil, List.mem_cons, List.mem_singleton, Prod.mk.injEq,
      Prod.mk.injEq] at hab
    rcases hab with ⟨rfl, -⟩ | ⟨rfl, -⟩ <;> decide

private theorem zeroedHeap_has : zeroedHeap.Has 0x1000 ⟨96, true⟩ := by
  refine ⟨?_, rfl⟩
  rw [zeroedHeap_aligned.layout.blocks_eq]
  exact List.mem_cons_self

/-- The block of 96 bytes grows to 200 bytes. -/
theorem khRealloc_keeps_small : ReallocKeeps zeroedHeap 0x1000 96 200 ↔
    200 ≤ 2 ^ 64 - 16 ∨ 96 < 64 ∨ CutAlready zeroedHeap.mem 0x1000 96 :=
  khRealloc_keeps_iff zeroedHeap_aligned zeroedHeap_has (by decide)

/-- A request for all of memory overwrites the first bytes of the block of 96 bytes. -/
theorem khRealloc_not_keeps : AlignedHeap zeroedHeap [⟨96, true⟩, ⟨352, false⟩] ∧
    zeroedHeap.Has 0x1000 ⟨96, true⟩ ∧ ¬ReallocKeeps zeroedHeap 0x1000 96 (2 ^ 64 - 1) := by
  refine ⟨zeroedHeap_aligned, zeroedHeap_has, ?_⟩
  rintro ⟨h', q, h1, h2⟩
  have hb : (0x1000, ⟨96, true⟩) ∈ placed Block.len zeroedHeap.khBaseAddr [⟨96, true⟩, ⟨352, false⟩] :=
    List.mem_cons_self
  rw [khRealloc_wrapped zeroedHeap_aligned hb (by decide) (by decide)] at h1
  obtain ⟨rfl, rfl⟩ := Prod.mk.inj (Option.some.inj h1)
  rw [if_neg (by decide)] at h2
  have hdata := h2.data 0 (by decide)
  revert hdata
  decide

end Pml.Kernel
