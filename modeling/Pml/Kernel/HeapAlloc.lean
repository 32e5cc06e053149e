import Pml.Kernel.HeapLayout

/-!
# Allocation on a tiled heap

`kh_alloc_aligned` takes the first free block that fits, moves its header up to the aligned position and cuts off
what is left behind the requested bytes.  `slack` and `carve` are these two steps on the list of blocks.  The code
performs them only when the aligned position is safe (`SafePlace`): it must not fall into the old header, must
leave room for an empty block at the start of the heap, and if a block is put in front then the tail is repaired
only by a later cut.
-/

namespace Pml.Kernel

open ByteMemory

/-- The blocks in front of the aligned header once it has moved up by `d`: the bytes form a block of their own, or
they are added to the last block. -/
def slack (d : Nat) (pre : List Block) : List Block :=
  if d = 0 then pre
  else if 64 < d then pre ++ [⟨d - 32, false⟩]
  else match pre.reverse with
    | [] => [⟨d - 32, false⟩]
    | c :: cs => cs.reverse ++ [⟨c.size + d, c.alloc⟩]

def carve (n s : Nat) : List Block :=
  if n + 64 ≤ s then [⟨n, true⟩, ⟨s - n - 32, false⟩] else [⟨s, true⟩]

/-- The header of the free block of `s` bytes at `a` may move up by `d` when `n` bytes are allocated in it. -/
structure SafePlace (base a s d n : Nat) : Prop where
  gap : d = 0 ∨ 16 ≤ d
  first : a = base → d = 0 ∨ 32 ≤ d
  front : d ≤ 64 ∨ n + d + 64 ≤ s
  small : n + 64 < 2 ^ 64

/-! ### The aligned header -/

/-- What the alignment fix-up leaves behind: the header at its new place, its tail, and the blocks before it. -/
structure Moved (m m' : Mem) (base a s d : Nat) (pre : List Block) : Prop where
  hdr : HeaderAt m' (a + d) ⟨s - d, false⟩
  magic : tailMagic m' (a + 16 + s) = khTailMagic
  tail : d ≤ 64 → tailHeader m' (a + 16 + s) = a + d
  before : Segments (BlockAt m') Block.len base (slack d pre) (a + d)
  after : ∀ x, a + 32 + s ≤ x → m' x = m x
  data : ∀ p b, (p, b) ∈ placed Block.len base pre → ∀ x, p + 16 ≤ x → x < p + 16 + b.size → m' x = m x

section

variable {m : Mem} {base align a s d : Nat} {pre : List Block}

private theorem khPlace_zero (t : Nat) (ha : a + 16 < 2 ^ 64) : khPlace m base align a t (a + 16) = (m, a) := by
  have e1 : sub64 (a + 16) 16 = a := by rw [sub64_of_le (by omega) ha]; omega
  have e2 : sub64 a a = 0 := by rw [sub64_of_le (by omega) (by omega)]; omega
  have e3 : ∀ x : Nat, x < 2 ^ 64 → sub64 x 0 = x := fun x hx => sub64_of_le (by omega) hx
  have hs : hdrSize m a < 2 ^ 64 := readLE_lt m (a + 8) 8
  have hz : setHdrSize m a (hdrSize m a) = m := writeLE_readLE_self m (a + 8) 8
  simp [khPlace, e1, e2, copy_self, e3 _ hs, hz]

def headerMoved (m : Mem) (a s d : Nat) : Mem := setHdrSize (copy m (a + d) a 16) (a + d) (s - d)

private theorem headerMoved_outside {x : Nat} (h : x < a + d ∨ a + d + 16 ≤ x) : headerMoved m a s d x = m x := by
  unfold headerMoved
  rw [setHdrSize_outside (by omega), copy_outside (by omega)]

private theorem headerAt_headerMoved (h : HeaderAt m a ⟨s, false⟩) (hs : s < 2 ^ 64) :
    HeaderAt (headerMoved m a s d) (a + d) ⟨s - d, false⟩ :=
  (h.copy (a + d)).setSize (s := s - d) (by omega)

variable (hb : BlockAt m a ⟨s, false⟩) (htop : a + 32 + s < 2 ^ 64) (hd : d ≤ s)
include hb htop hd

private theorem khPlace_front (hd' : 64 < d) :
    khPlace m base align a (a + 16 + s) (a + 16 + d) =
      (initTail (setHdrSize (headerMoved m a s d) a (d - 32)) (a + d - 16) a, a + d) := by
  have e1 : sub64 (a + 16 + d) 16 = a + d := by rw [sub64_of_le (by omega) (by omega)]; omega
  have e2 : sub64 (a + d) a = d := by rw [sub64_of_le (by omega) (by omega)]; omega
  have e3 : sub64 s d = s - d := sub64_of_le hd (by omega)
  have e4 : sub64 (sub64 d 16) 16 = d - 32 := by
    rw [sub64_of_le (show 16 ≤ d by omega) (by omega), sub64_of_le (by omega) (by omega)]; omega
  have e5 : sub64 (a + d) 16 = a + d - 16 := sub64_of_le (by omega) (by omega)
  have hz : hdrSize (copy m (a + d) a 16) (a + d) = s := (hb.hdr.copy (a + d)).size
  have hnb : ¬(0 < d ∧ d < 32 ∧ a = base) := by omega
  simp only [khPlace, khHeaderSize, khTailSize, khMinBlockSplitSize, e1, e2, hnb, ↓reduceIte, hz, e3, e4, e5,
    Nat.reduceAdd, hd', headerMoved]

private theorem moved_front (hpre : Segments (BlockAt m) Block.len base pre a) (hd' : 64 < d) :
    Moved m (initTail (setHdrSize (headerMoved m a s d) a (d - 32)) (a + d - 16) a) base a s d pre := by
  have hframe : ∀ x, x < a ∨ a + d + 16 ≤ x →
      initTail (setHdrSize (headerMoved m a s d) a (d - 32)) (a + d - 16) a x = m x := by
    intro x hx
    rw [initTail_outside (by omega), setHdrSize_outside (by omega), headerMoved_outside (by omega)]
  have htail : TailAt m (a + 16 + s) a := hb.tail
  refine ⟨?_, ?_, by omega, ?_, fun x hx => hframe x (by omega), ?_⟩
  · refine (headerAt_headerMoved hb.hdr (by omega)).congr fun x h1 h2 => ?_
    rw [initTail_outside (by omega), setHdrSize_outside (by omega)]
  · rw [← htail.magic]
    exact tailMagic_congr fun x h1 h2 => hframe x (by omega)
  · have hn : BlockAt (initTail (setHdrSize (headerMoved m a s d) a (d - 32)) (a + d - 16) a) a
        ⟨d - 32, false⟩ := by
      refine ⟨?_, ?_⟩
      · have h1 : HeaderAt (headerMoved m a s d) a ⟨s, false⟩ :=
          hb.hdr.congr fun x _ _ => headerMoved_outside (by omega)
        refine (h1.setSize (s := d - 32) (by omega)).congr fun x _ _ => initTail_outside (by omega)
      · have e : a + 16 + (d - 32) = a + d - 16 := by omega
        show TailAt _ (a + 16 + (d - 32)) a
        rw [e]
        exact tailAt_initTail (by omega)
    have e : slack d pre = pre ++ [⟨d - 32, false⟩] := by
      simp [slack, hd', show d ≠ 0 by omega]
    rw [e, segments_split]
    refine ⟨a, segments_congr hpre fun x _ h => hframe x (by omega), hn, ?_⟩
    show a + (d - 32 + 32) = a + d
    omega
  · intro p b hp x h1 h2
    obtain ⟨-, -, h3⟩ := hpre.of_mem_placed hp
    exact hframe x (by simp only [Block.len] at h3; omega)

private theorem khPlace_first (hbase : 16 ≤ a) (hlo : 32 ≤ d) (hhi : d ≤ 64) :
    khPlace m a align a (a + 16 + s) (a + 16 + d) =
      (setTailHeader (initTail (initHeader (headerMoved m a s d) a 0 (d - 32)) (a + 16 + (d - 32)) a)
        (a + 16 + s) (a + d), a + d) := by
  have e1 : sub64 (a + 16 + d) 16 = a + d := by rw [sub64_of_le (by omega) (by omega)]; omega
  have e2 : sub64 (a + d) a = d := by rw [sub64_of_le (by omega) (by omega)]; omega
  have e3 : sub64 s d = s - d := sub64_of_le hd (by omega)
  have e4 : sub64 (sub64 d 16) 16 = d - 32 := by
    rw [sub64_of_le (show 16 ≤ d by omega) (by omega), sub64_of_le (by omega) (by omega)]; omega
  have e5 : sub64 a 16 < a := by rw [sub64_of_le (by omega) (by omega)]; omega
  have hz : hdrSize (copy m (a + d) a 16) (a + d) = s := (hb.hdr.copy (a + d)).size
  have hn : hdrSize (initHeader (headerMoved m a s d) a 0 (d - 32)) a = d - 32 :=
    (headerAt_initHeader (b := ⟨d - 32, false⟩) (show d - 32 < 2 ^ 64 by omega)).size
  have e6 : add64 (add64 a 16) (d - 32) = a + 16 + (d - 32) := by
    rw [add64_of_lt (show a + 16 < 2 ^ 64 by omega), add64_of_lt (by omega)]
  have hnb : ¬(0 < d ∧ d < 32 ∧ True) := by omega
  unfold headerMoved at hn
  simp only [khPlace, khHeaderSize, khTailSize, khMinBlockSplitSize, e1, e2, hnb, ↓reduceIte, Nat.reduceAdd]
  simp only [hz, e3, e4, e5, hn, e6, show ¬64 < d by omega, show 0 < d by omega, ↓reduceIte, headerMoved]

private theorem moved_first (hlo : 32 ≤ d) (hhi : d ≤ 64) :
    Moved m (setTailHeader (initTail (initHeader (headerMoved m a s d) a 0 (d - 32)) (a + 16 + (d - 32)) a)
      (a + 16 + s) (a + d)) a a s d [] := by
  have htail : TailAt m (a + 16 + s) a := hb.tail
  have hmagic : tailMagic (initTail (initHeader (headerMoved m a s d) a 0 (d - 32)) (a + 16 + (d - 32)) a)
      (a + 16 + s) = khTailMagic := by
    rw [← htail.magic]
    refine tailMagic_congr fun x h1 h2 => ?_
    rw [initTail_outside (by omega), initHeader_outside (by omega), headerMoved_outside (by omega)]
  have hnew := tailAt_setTailHeader hmagic (show a + d < 2 ^ 64 by omega)
  refine ⟨?_, hnew.magic, fun _ => hnew.header, ?_, ?_, by simp⟩
  · refine (headerAt_headerMoved hb.hdr (by omega)).congr fun x h1 h2 => ?_
    rw [setTailHeader_outside (by omega), initTail_outside (by omega), initHeader_outside (by omega)]
  · have e : slack d [] = [⟨d - 32, false⟩] := by
      simp [slack, show d ≠ 0 by omega]
    rw [e, segments_cons, segments_nil]
    refine ⟨⟨?_, ?_⟩, ?_⟩
    · refine (headerAt_initHeader (m := headerMoved m a s d) (b := ⟨d - 32, false⟩)
        (show d - 32 < 2 ^ 64 by omega)).congr
        fun x h1 h2 => ?_
      rw [setTailHeader_outside (by omega), initTail_outside (by omega)]
      rfl
    · refine (tailAt_initTail (m := initHeader (headerMoved m a s d) a 0 (d - 32)) (by omega)).congr
        fun x h1 h2 => ?_
      exact setTailHeader_outside (by simp only at h2; omega)
    · show a + (d - 32 + 32) = a + d
      omega
  · intro x hx
    rw [setTailHeader_outside (by omega), initTail_outside (by omega), initHeader_outside (by omega),
      headerMoved_outside (by omega)]

private theorem khPlace_prev {p : Nat} {c : Block} (hc : BlockAt m p c) (hp : p + c.len = a) (hbase : base ≤ p)
    (hlo : 16 ≤ d) (hhi : d ≤ 64) :
    khPlace m base align a (a + 16 + s) (a + 16 + d) =
      (setTailHeader (copy (setHdrSize (headerMoved m a s d) p (c.size + d)) (a + d - 16) (a - 16) 16)
        (a + 16 + s) (a + d), a + d) := by
  have hlen : p + (c.size + 32) = a := hp
  have e1 : sub64 (a + 16 + d) 16 = a + d := by rw [sub64_of_le (by omega) (by omega)]; omega
  have e2 : sub64 (a + d) a = d := by rw [sub64_of_le (by omega) (by omega)]; omega
  have e3 : sub64 s d = s - d := sub64_of_le hd (by omega)
  have e4 : sub64 a 16 = a - 16 := sub64_of_le (by omega) (by omega)
  have e5 : sub64 (a + d) 16 = a + d - 16 := sub64_of_le (by omega) (by omega)
  have e6 : add64 c.size d = c.size + d := add64_of_lt (by omega)
  have hz : hdrSize (copy m (a + d) a 16) (a + d) = s := (hb.hdr.copy (a + d)).size
  have hprev : BlockAt (headerMoved m a s d) p c :=
    hc.congr fun x h1 h2 => headerMoved_outside (by omega)
  have hth : tailHeader (headerMoved m a s d) (a - 16) = p := by
    have e : p + 16 + c.size = a - 16 := by omega
    rw [← e]
    exact hprev.tail.header
  have hps := hprev.hdr.size
  have hnb : ¬(0 < d ∧ d < 32 ∧ a = base) := by omega
  unfold headerMoved at hth hps
  simp only [khPlace, khHeaderSize, khTailSize, khMinBlockSplitSize, e1, e2, hnb, ↓reduceIte, Nat.reduceAdd]
  simp only [hz, e3, e4, e5, e6, hth, hps, show ¬a - 16 < base by omega, show ¬64 < d by omega,
    show 0 < d by omega, ↓reduceIte, headerMoved]

private theorem moved_prev {p : Nat} {c : Block} (hpre : Segments (BlockAt m) Block.len base pre p)
    (hc : BlockAt m p c) (hp : p + c.len = a) (hlo : 16 ≤ d) (hhi : d ≤ 64) :
    Moved m (setTailHeader (copy (setHdrSize (headerMoved m a s d) p (c.size + d)) (a + d - 16) (a - 16) 16)
      (a + 16 + s) (a + d)) base a s d (pre ++ [c]) := by
  have hlen : p + (c.size + 32) = a := hp
  have htail : TailAt m (a + 16 + s) a := hb.tail
  have hctail : TailAt m (p + 16 + c.size) p := hc.tail
  have hmagic : tailMagic (copy (setHdrSize (headerMoved m a s d) p (c.size + d)) (a + d - 16) (a - 16) 16)
      (a + 16 + s) = khTailMagic := by
    rw [← htail.magic]
    refine tailMagic_congr fun x h1 h2 => ?_
    rw [copy_outside (by omega), setHdrSize_outside (by omega), headerMoved_outside (by omega)]
  have hnew := tailAt_setTailHeader hmagic (show a + d < 2 ^ 64 by omega)
  have hframe : ∀ x, x < a → (x < p + 8 ∨ p + 16 ≤ x) → setTailHeader (copy (setHdrSize (headerMoved m a s d) p
      (c.size + d)) (a + d - 16) (a - 16) 16) (a + 16 + s) (a + d) x = m x := by
    intro x h1 h2
    rw [setTailHeader_outside (by omega), copy_outside (by omega), setHdrSize_outside (by omega),
      headerMoved_outside (by omega)]
  refine ⟨?_, hnew.magic, fun _ => hnew.header, ?_, ?_, ?_⟩
  · refine (headerAt_headerMoved hb.hdr (by omega)).congr fun x h1 h2 => ?_
    rw [setTailHeader_outside (by omega), copy_outside (by omega), setHdrSize_outside (by omega)]
  · have e : slack d (pre ++ [c]) = pre ++ [⟨c.size + d, c.alloc⟩] := by
      simp [slack, show d ≠ 0 by omega, show ¬64 < d by omega]
    rw [e, segments_split]
    refine ⟨p, segments_congr hpre fun x _ h => hframe x (by omega) (by omega), ⟨?_, ?_⟩, ?_⟩
    · have h1 : HeaderAt (headerMoved m a s d) p c := hc.hdr.congr fun x _ _ => headerMoved_outside (by omega)
      refine (h1.setSize (s := c.size + d) (by omega)).congr fun x _ _ => ?_
      rw [setTailHeader_outside (by omega), copy_outside (by omega)]
    · have h1 : TailAt (setHdrSize (headerMoved m a s d) p (c.size + d)) (a - 16) p := by
        have e : p + 16 + c.size = a - 16 := by omega
        rw [← e]
        refine hctail.congr fun x _ _ => ?_
        rw [setHdrSize_outside (by omega), headerMoved_outside (by omega)]
      have e : p + 16 + (c.size + d) = a + d - 16 := by omega
      show TailAt _ (p + 16 + (c.size + d)) p
      rw [e]
      exact (h1.copy _).congr fun x _ _ => setTailHeader_outside (by omega)
    · show p + (c.size + d + 32) = a + d
      omega
  · intro x hx
    rw [setTailHeader_outside (by omega), copy_outside (by omega), setHdrSize_outside (by omega),
      headerMoved_outside (by omega)]
  · intro q b hq x h1 h2
    rw [hpre.placed_append] at hq
    simp only [placed_cons, placed_nil, List.mem_append, List.mem_singleton, Prod.mk.injEq] at hq
    rcases hq with hq | ⟨rfl, rfl⟩
    · obtain ⟨-, -, h3⟩ := hpre.of_mem_placed hq
      simp only [Block.len] at h3
      exact hframe x (by omega) (by omega)
    · exact hframe x (by omega) (by omega)

/-- The alignment fix-up, when the header does not move into itself and leaves room at the start of the heap. -/
theorem khPlace_moved (align : Nat) (hpre : Segments (BlockAt m) Block.len base pre a) (hbase : 16 ≤ base)
    (hgap : d = 0 ∨ 16 ≤ d) (hfirst : a = base → d = 0 ∨ 32 ≤ d) :
    (khPlace m base align a (a + 16 + s) (a + 16 + d)).2 = a + d ∧
      Moved m (khPlace m base align a (a + 16 + s) (a + 16 + d)).1 base a s d pre := by
  have hle := hpre.le
  rcases Nat.eq_zero_or_pos d with rfl | hpos
  · have htail : TailAt m (a + 16 + s) a := hb.tail
    rw [Nat.add_zero, khPlace_zero _ (by omega)]
    refine ⟨rfl, hb.hdr, htail.magic, fun _ => htail.header, ?_, fun _ _ => rfl, fun _ _ _ _ _ _ => rfl⟩
    simpa [slack] using hpre
  by_cases hd' : 64 < d
  · rw [khPlace_front hb htop hd hd']
    exact ⟨rfl, moved_front hb htop hd hpre hd'⟩
  rcases List.eq_nil_or_concat pre with rfl | ⟨pre, c, rfl⟩
  · obtain rfl : base = a := hpre
    have h32 := hfirst rfl
    rw [khPlace_first hb htop hd hbase (by omega) (by omega)]
    exact ⟨rfl, moved_first hb htop hd (by omega) (by omega)⟩
  · rw [List.concat_eq_append] at hpre ⊢
    obtain ⟨p, hpre, hc, hp⟩ := segments_split.1 hpre
    rw [khPlace_prev hb htop hd hc hp hpre.le (by omega) (by omega)]
    exact ⟨rfl, moved_prev hb htop hd hpre hc hp (by omega) (by omega)⟩

private theorem khPlace_spec {n : Nat} (align : Nat) (hpre : Segments (BlockAt m) Block.len base pre a)
    (hbase : 16 ≤ base) (hsafe : SafePlace base a s d n) :
    (khPlace m base align a (a + 16 + s) (a + 16 + d)).2 = a + d ∧
      Moved m (khPlace m base align a (a + 16 + s) (a + 16 + d)).1 base a s d pre :=
  khPlace_moved hb htop hd align hpre hbase hsafe.gap hsafe.first

end

/-! ### Cutting off the rest -/

private theorem setAlloc {m : Mem} {a k : Nat} (h : HeaderAt m a ⟨k, false⟩) :
    HeaderAt (setHdrFlags m a (hdrFlags m a ||| 1)) a ⟨k, true⟩ := by
  have hf : hdrFlags m a = 0 := h.flags
  have h1 := h.setFlags true
  simpa [hf] using h1

/-- The stores that cut a block of `s` data bytes behind its first `n` bytes; the rest becomes a free block. -/
def cutBlock (m : Mem) (a s n : Nat) : Mem :=
  setHdrSize (setTailHeader (initHeader (initTail m (a + 16 + n) a) (a + 32 + n) 0 (s - n - 32))
    (a + 16 + s) (a + 32 + n)) a n

section

variable {m : Mem} {a s n : Nat}

theorem cutBlock_outside {x : Nat} (hcut : n + 32 ≤ s) (hx : x < a ∨ a + 32 + s ≤ x) : cutBlock m a s n x = m x := by
  unfold cutBlock
  rw [setHdrSize_outside (by omega), setTailHeader_outside (by omega), initHeader_outside (by omega),
    initTail_outside (by omega)]

theorem cutBlock_data {x : Nat} (hcut : n + 32 ≤ s) (hx : a + 16 ≤ x) (hx' : x < a + 16 + n) :
    cutBlock m a s n x = m x := by
  unfold cutBlock
  rw [setHdrSize_outside (by omega), setTailHeader_outside (by omega), initHeader_outside (by omega),
    initTail_outside (by omega)]

/-- The two blocks that the cut leaves; the size in the header does not matter before. -/
theorem cutBlock_blocks {k : Nat} {f : Bool} (hb : HeaderAt m a ⟨k, f⟩)
    (hmagic : tailMagic m (a + 16 + s) = khTailMagic) (htop : a + 32 + s < 2 ^ 64) (hcut : n + 32 ≤ s) :
    BlockAt (cutBlock m a s n) a ⟨n, f⟩ ∧ BlockAt (cutBlock m a s n) (a + 32 + n) ⟨s - n - 32, false⟩ := by
  unfold cutBlock
  refine ⟨⟨?_, ?_⟩, ⟨?_, ?_⟩⟩
  · have h1 : HeaderAt (setTailHeader (initHeader (initTail m (a + 16 + n) a) (a + 32 + n) 0 (s - n - 32))
        (a + 16 + s) (a + 32 + n)) a ⟨k, f⟩ := hb.congr fun x _ _ => by
      rw [setTailHeader_outside (by omega), initHeader_outside (by omega), initTail_outside (by omega)]
    exact h1.setSize (by omega)
  · have h1 : TailAt (initTail m (a + 16 + n) a) (a + 16 + n) a := tailAt_initTail (by omega)
    refine h1.congr fun x _ _ => ?_
    rw [setHdrSize_outside (by omega), setTailHeader_outside (by omega), initHeader_outside (by omega)]
  · refine (headerAt_initHeader (m := initTail m (a + 16 + n) a) (b := ⟨s - n - 32, false⟩)
      (show s - n - 32 < 2 ^ 64 by omega)).congr fun x _ _ => ?_
    rw [setHdrSize_outside (by omega), setTailHeader_outside (by omega)]
    rfl
  · have h1 : tailMagic (initHeader (initTail m (a + 16 + n) a) (a + 32 + n) 0 (s - n - 32)) (a + 16 + s) =
        khTailMagic := by
      rw [← hmagic]
      refine tailMagic_congr fun x _ _ => ?_
      rw [initHeader_outside (by omega), initTail_outside (by omega)]
    have e : a + 32 + n + 16 + (s - n - 32) = a + 16 + s := by omega
    simp only [e]
    exact (tailAt_setTailHeader h1 (by omega)).congr fun x _ _ => setHdrSize_outside (by omega)

theorem segments_cut {k : Nat} {f : Bool} (h1 : BlockAt m a ⟨n, f⟩) (h2 : BlockAt m (a + 32 + n) ⟨k - n - 32, false⟩)
    (hn : n + 32 ≤ k) : Segments (BlockAt m) Block.len a [⟨n, f⟩, ⟨k - n - 32, false⟩] (a + 32 + k) := by
  have e : a + Block.len ⟨n, f⟩ = a + 32 + n := by simp only [Block.len]; omega
  rw [segments_cons, segments_cons, segments_nil, e]
  exact ⟨h1, h2, by simp only [Block.len]; omega⟩

variable (hb : HeaderAt m a ⟨s, false⟩) (hmagic : tailMagic m (a + 16 + s) = khTailMagic)
  (htop : a + 32 + s < 2 ^ 64)
include hb htop

private theorem khSplit_cut (hn' : n + 64 < 2 ^ 64) (hcut : n + 64 ≤ s) :
    khSplit m a (a + 16 + s) n = cutBlock m a s n := by
  have e1 : add64 n 64 = n + 64 := add64_of_lt hn'
  have e2 : add64 (add64 a 16) n = a + 16 + n := by
    rw [add64_of_lt (show a + 16 < 2 ^ 64 by omega), add64_of_lt (by omega)]
  have e3 : add64 (a + 16 + n) 16 = a + 32 + n := by rw [add64_of_lt (by omega)]; omega
  have e4 : sub64 (sub64 (sub64 s n) 16) 16 = s - n - 32 := by
    rw [sub64_of_le (show n ≤ s by omega) (by omega), sub64_of_le (show 16 ≤ s - n by omega) (by omega),
      sub64_of_le (by omega) (by omega)]
    omega
  have hb1 : HeaderAt (initTail m (a + 16 + n) a) a ⟨s, false⟩ :=
    hb.congr fun x _ _ => initTail_outside (by omega)
  have hsz : hdrSize m a = s := hb.size
  have hfl : hdrFlags (initTail m (a + 16 + n) a) a = 0 := hb1.flags
  have hsz1 : hdrSize (initTail m (a + 16 + n) a) a = s := hb1.size
  simp only [khSplit, khHeaderSize, khTailSize, khMinBlockSplitSize, Nat.reduceAdd, e1, hsz, hcut, ↓reduceIte,
    e2, e3, e4, hfl, hsz1, cutBlock]

include hmagic

/-- The cut and the allocation flag: the range of the block becomes `carve n s`, nothing else changes. -/
theorem khSplit_spec (hn : n ≤ s) (hn' : n + 64 < 2 ^ 64)
    (htail : n + 64 ≤ s ∨ tailHeader m (a + 16 + s) = a) :
    Segments (BlockAt (setHdrFlags (khSplit m a (a + 16 + s) n) a
        (hdrFlags (khSplit m a (a + 16 + s) n) a ||| 1))) Block.len a (carve n s) (a + 32 + s) ∧
      ∀ x, x < a ∨ a + 32 + s ≤ x → setHdrFlags (khSplit m a (a + 16 + s) n) a
        (hdrFlags (khSplit m a (a + 16 + s) n) a ||| 1) x = m x := by
  by_cases hcut : n + 64 ≤ s
  · obtain ⟨h1, h2⟩ := cutBlock_blocks hb hmagic htop (show n + 32 ≤ s by omega)
    rw [khSplit_cut hb htop hn' hcut]
    refine ⟨?_, ?_⟩
    · rw [carve, if_pos hcut]
      refine segments_cut ⟨setAlloc h1.hdr, ?_⟩ ?_ (by omega)
      · exact h1.tail.congr fun x h1 h2 => setHdrFlags_outside (by omega)
      · exact h2.congr fun x h1 h2 => setHdrFlags_outside (by omega)
    · intro x hx
      rw [setHdrFlags_outside (by omega), cutBlock_outside (by omega) hx]
  · have hsz : hdrSize m a = s := hb.size
    have hsplit : khSplit m a (a + 16 + s) n = m := by
      simp only [khSplit, khHeaderSize, khTailSize, khMinBlockSplitSize, Nat.reduceAdd, add64_of_lt hn', hsz, hcut,
        ↓reduceIte]
    rw [hsplit]
    refine ⟨?_, fun x hx => setHdrFlags_outside (by omega)⟩
    rw [carve, if_neg hcut, segments_cons, segments_nil]
    refine ⟨⟨setAlloc hb, ?_⟩, ?_⟩
    · have h1 : TailAt m (a + 16 + s) a := ⟨hmagic, by omega⟩
      exact h1.congr fun x h1 h2 => setHdrFlags_outside (by omega)
    · simp only [Block.len]; omega

end

/-! ### The whole allocation -/

/-- The allocation of `n` bytes in the block at `a`, with the aligned pointer `d` bytes above its data, has turned
the blocks `bs` into `bs'`. -/
structure Allocated (h : Heap) (m' : Mem) (bs bs' : List Block) (n d a : Nat) (b : Block) : Prop where
  cut : ∃ pre post, bs = pre ++ b :: post ∧ Segments (BlockAt h.mem) Block.len h.khBaseAddr pre a ∧
    bs' = slack d pre ++ (carve n (b.size - d) ++ post)
  layout : Layout { h with mem := m' } bs'
  carries : Carries h.khBaseAddr h.mem m' bs bs' fun _ => True
  same : d = 0 → ∀ p c, (p, c) ∈ placed Block.len h.khBaseAddr bs → c.alloc = true →
    (p, c) ∈ placed Block.len h.khBaseAddr bs'
  block : ∃ c, (a + d, c) ∈ placed Block.len h.khBaseAddr bs' ∧ c.alloc = true ∧ n ≤ c.size
  fresh : ∀ p c, (p, c) ∈ placed Block.len h.khBaseAddr bs → c.alloc = true → p ≠ a + d

private theorem mem_placed_slack {m : Mem} {base a d p : Nat} {pre : List Block} {c : Block}
    (hpre : Segments (BlockAt m) Block.len base pre a) (hp : (p, c) ∈ placed Block.len base pre) :
    ∃ c', (p, c') ∈ placed Block.len base (slack d pre) ∧ c'.alloc = c.alloc ∧ c.size ≤ c'.size := by
  rcases List.eq_nil_or_concat pre with rfl | ⟨pre, e, rfl⟩
  · simp at hp
  rw [List.concat_eq_append] at *
  unfold slack
  split
  · exact ⟨c, hp, rfl, Nat.le_refl _⟩
  split
  · rw [hpre.placed_append]
    exact ⟨c, List.mem_append_left _ hp, rfl, Nat.le_refl _⟩
  · obtain ⟨q, hpre', -, -⟩ := segments_split.1 hpre
    rw [hpre'.placed_append, placed_cons, placed_nil, List.mem_append, List.mem_singleton, Prod.mk.injEq] at hp
    simp only [List.reverse_append, List.reverse_cons, List.reverse_nil, List.nil_append, List.singleton_append,
      List.reverse_reverse]
    rw [hpre'.placed_append]
    rcases hp with hp | ⟨rfl, rfl⟩
    · exact ⟨c, List.mem_append_left _ hp, rfl, Nat.le_refl _⟩
    · exact ⟨⟨c.size + d, c.alloc⟩, List.mem_append_right _ (by simp), rfl, Nat.le_add_right _ _⟩

private theorem mem_placed_carve {n s a : Nat} (hn : n ≤ s) :
    ∃ c, (a, c) ∈ placed Block.len a (carve n s) ∧ c.alloc = true ∧ n ≤ c.size := by
  unfold carve
  split
  · exact ⟨⟨n, true⟩, by simp, rfl, Nat.le_refl _⟩
  · exact ⟨⟨s, true⟩, by simp, rfl, hn⟩

theorem khAllocAligned_firstFit {h : Heap} {bs : List Block} {align : Nat} (size : Nat) (hl : Layout h bs)
    (hp2 : isP2 align = true) :
    khAllocAligned h size align = some (khTake h (alignUp size 16) align
      (searchResult align (firstFit (alignUp size 16) align h.khBaseAddr bs))) := by
  have hlen := segments_length_le hl.segments
  have htop := hl.top
  have hs := khSearch_spec (alignUp size 16) align (2 ^ 64) hl.segments hl.top (by omega)
  unfold khAllocAligned
  simp only [hp2, Bool.true_eq_false, ↓reduceIte, khDefaultAlign, hs, Option.map_some]

theorem khAllocAligned_none {h : Heap} {bs : List Block} {size align : Nat} (hl : Layout h bs)
    (hp2 : isP2 align = true)
    (hfit : firstFit (alignUp size 16) align h.khBaseAddr bs = none) :
    khAllocAligned h size align = some ({ h with errno := some .ENOMEM }, 0) := by
  rw [khAllocAligned_firstFit size hl hp2, hfit]
  rfl

/-- An allocation at a safe place returns the aligned pointer and keeps the heap tiled. -/
theorem khAllocAligned_some {h : Heap} {bs : List Block} {size align a d : Nat} {b : Block} (hl : Layout h bs)
    (hp2 : isP2 align = true)
    (hfit : firstFit (alignUp size 16) align h.khBaseAddr bs = some (a, b))
    (hd : alignUp (a + 16) align = a + 16 + d)
    (hsafe : SafePlace h.khBaseAddr a b.size d (alignUp size 16)) :
    ∃ m' bs', khAllocAligned h size align = some ({ h with mem := m' }, a + 16 + d) ∧
      Allocated h m' bs bs' (alignUp size 16) d a b := by
  obtain ⟨hmem, hfree, hlt, hn⟩ := firstFit_eq_some hfit
  obtain ⟨pre, post, rfl, hpre, hb, hpost⟩ := hl.segments.split_placed hmem
  have hbase := hl.base
  have htop := hl.top
  have hple := hpost.le
  obtain ⟨s, f⟩ := b
  obtain rfl : f = false := hfree
  have hcall := khAllocAligned_firstFit size hl hp2
  generalize alignUp size 16 = n at *
  have hlen : a + (s + 32) ≤ h.khEndAddr := hple
  have hds : d ≤ s := by simp only [hd] at hlt; omega
  have hns : n ≤ s - d := by simp only [hd] at hn; omega
  -- the header is moved up to the place of the pointer
  obtain ⟨hq, hmv⟩ := khPlace_spec hb (by omega) hds align hpre hbase hsafe
  generalize hpl : khPlace h.mem h.khBaseAddr align a (a + 16 + s) (a + 16 + d) = pl at hq hmv
  obtain ⟨m1, hdr⟩ := pl
  obtain rfl : hdr = a + d := hq
  have et : a + 16 + s = a + d + 16 + (s - d) := by omega
  have hmg := hmv.magic
  have htl := hmv.tail
  rw [et] at hmg htl
  have hfr : n + 64 ≤ s - d ∨ tailHeader m1 (a + d + 16 + (s - d)) = a + d := by
    rcases hsafe.front with hf | hf
    · exact Or.inr (htl hf)
    · exact Or.inl (by simp only at hf; omega)
  -- the end of the block is cut off
  obtain ⟨hc, hout⟩ := khSplit_spec (n := n) hmv.hdr hmg (by omega) hns hsafe.small hfr
  rw [← et] at hc hout
  generalize hm2 : setHdrFlags (khSplit m1 (a + d) (a + 16 + s) n) (a + d)
    (hdrFlags (khSplit m1 (a + d) (a + 16 + s) n) (a + d) ||| 1) = m2 at hc hout
  have hbefore : Segments (BlockAt m2) Block.len h.khBaseAddr (slack d pre) (a + d) :=
    segments_congr hmv.before fun x _ hx => hout x (by omega)
  have hcarve : Segments (BlockAt m2) Block.len (a + d) (carve n (s - d)) (a + (s + 32)) := by
    have e : a + d + 32 + (s - d) = a + (s + 32) := by omega
    rw [← e]
    exact hc
  have hafter : ∀ x, a + (s + 32) ≤ x → m2 x = h.mem x := by
    intro x hx
    rw [hout x (by omega), hmv.after x (by omega)]
  refine ⟨m2, slack d pre ++ (carve n (s - d) ++ post), ?_, ⟨?_, ⟨?_, hbase, htop⟩, ?_, ?_, ?_, ?_⟩⟩
  · simp only [hcall, hfit, searchResult, hd, khTake, hpl, hm2]
  · exact ⟨pre, post, rfl, hpre, rfl⟩
  · refine segments_append.2 ⟨a + d, hbefore, segments_append.2 ⟨a + (s + 32), hcarve, ?_⟩⟩
    exact segments_congr hpost fun x hx _ => hafter x hx
  · -- the data of the allocated blocks before and behind it
    intro p c hp halloc _
    rw [hbefore.placed_append, hcarve.placed_append]
    rw [hpre.placed_append, placed_cons, List.mem_append, List.mem_cons, Prod.mk.injEq] at hp
    rcases hp with hp | ⟨rfl, rfl⟩ | hp
    · obtain ⟨c', h1, h2, h3⟩ := mem_placed_slack (d := d) hpre hp
      obtain ⟨-, -, h4⟩ := hpre.of_mem_placed hp
      simp only [Block.len] at h4
      refine ⟨c', List.mem_append_left _ h1, h2.trans halloc, h3, fun x h5 h6 => ?_⟩
      rw [hout x (by omega)]
      exact hmv.data p c hp x h5 h6
    · simp at halloc
    · refine ⟨c, List.mem_append_right _ (List.mem_append_right _ hp), halloc, Nat.le_refl _, ?_⟩
      exact data_of_mem hpost (fun x hx _ => hafter x hx) hp
  · intro hd0 p c hp halloc
    rw [hbefore.placed_append, hcarve.placed_append]
    rw [hpre.placed_append, placed_cons, List.mem_append, List.mem_cons, Prod.mk.injEq] at hp
    rcases hp with hp | ⟨-, rfl⟩ | hp
    · rw [slack, if_pos hd0]
      exact List.mem_append_left _ hp
    · simp at halloc
    · exact List.mem_append_right _ (List.mem_append_right _ hp)
  · obtain ⟨c, h1, h2, h3⟩ := mem_placed_carve (a := a + d) hns
    rw [hbefore.placed_append, hcarve.placed_append]
    exact ⟨c, List.mem_append_right _ (List.mem_append_left _ h1), h2, h3⟩
  · -- an allocated block is not at the place of the new one
    intro p c hp halloc
    have hdis := hl.segments.placed_disjoint hp hmem
    simp only [Block.len] at hdis
    rcases hdis with ⟨-, rfl⟩ | hdis
    · simp at halloc
    · omega

/-- The allocation of `n` bytes finds no block, or the block it takes may be used. -/
def AllocSafe (base : Nat) (bs : List Block) (n align : Nat) : Prop :=
  ∀ a b, firstFit n align base bs = some (a, b) →
    ∃ d, alignUp (a + 16) align = a + 16 + d ∧ SafePlace base a b.size d n

theorem khAllocAligned_spec {h : Heap} {bs : List Block} {align : Nat} (size : Nat) (hl : Layout h bs)
    (hp2 : isP2 align = true) (hsafe : AllocSafe h.khBaseAddr bs (alignUp size 16) align) :
    khAllocAligned h size align = some ({ h with errno := some .ENOMEM }, 0) ∨
      ∃ a b d m' bs', firstFit (alignUp size 16) align h.khBaseAddr bs = some (a, b) ∧
        alignUp (a + 16) align = a + 16 + d ∧ SafePlace h.khBaseAddr a b.size d (alignUp size 16) ∧
        khAllocAligned h size align = some ({ h with mem := m' }, a + 16 + d) ∧
        Allocated h m' bs bs' (alignUp size 16) d a b := by
  cases hff : firstFit (alignUp size 16) align h.khBaseAddr bs with
  | none => exact Or.inl (khAllocAligned_none hl hp2 hff)
  | some ab =>
    obtain ⟨a, b⟩ := ab
    obtain ⟨d, hd, hplace⟩ := hsafe a b hff
    obtain ⟨m', bs', h1, h2⟩ := khAllocAligned_some hl hp2 hff hd hplace
    exact Or.inr ⟨a, b, d, m', bs', rfl, hd, hplace, h1, h2⟩

end Pml.Kernel
