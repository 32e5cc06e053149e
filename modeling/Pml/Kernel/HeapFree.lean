import Pml.Kernel.HeapAlloc

/-!
# Release on a tiled heap

`kh_free` unifies the released block with the free blocks around it.  The functions `joinPrev` and `joinNext` are
these two steps on the list of blocks.  Unlike allocation they are right in every tiled heap.
-/

namespace Pml.Kernel

open ByteMemory

/-- The blocks before a released block of `s` bytes and the size of the block itself, once it has been unified
with the block before it. -/
def joinPrev (pre : List Block) (s : Nat) : List Block × Nat :=
  match pre.reverse with
  | [] => (pre, s)
  | c :: cs => if c.alloc then (pre, s) else (cs.reverse, c.size + (s + 32))

/-- A released block of `s` bytes, unified with the block after it, and the blocks that follow. -/
def joinNext (s : Nat) : List Block → List Block
  | [] => [⟨s, false⟩]
  | c :: post => if c.alloc then ⟨s, false⟩ :: c :: post else ⟨s + (32 + c.size), false⟩ :: post

/-- Two consecutive blocks become one by a change of the size in the first header and of the pointer in the last
tail. -/
theorem blockAt_merge {m : Mem} {a s t : Nat} {f g : Bool} (h1 : BlockAt m a ⟨s, f⟩)
    (h2 : BlockAt m (a + 32 + s) ⟨t, g⟩) (htop : a + 64 + s + t < 2 ^ 64) :
    BlockAt (setTailHeader (setHdrSize m a (s + 32 + t)) (a + 48 + s + t) a) a ⟨s + 32 + t, f⟩ := by
  have h3 : TailAt m (a + 32 + s + 16 + t) (a + 32 + s) := h2.tail
  have e : a + 32 + s + 16 + t = a + 48 + s + t := by omega
  have e' : a + 16 + (s + 32 + t) = a + 48 + s + t := by omega
  rw [e] at h3
  refine ⟨(h1.hdr.setSize (s := s + 32 + t) (by omega)).congr fun x _ _ => setTailHeader_outside (by omega), ?_⟩
  simp only [e']
  have hm : tailMagic (setHdrSize m a (s + 32 + t)) (a + 48 + s + t) = khTailMagic := by
    rw [← h3.magic]
    exact tailMagic_congr fun x _ _ => setHdrSize_outside (by omega)
  exact tailAt_setTailHeader hm (by omega)

theorem merge_outside {m : Mem} {a s t x : Nat}
    (h : (x < a + 8 ∨ a + 16 ≤ x) ∧ (x < a + 56 + s + t ∨ a + 64 + s + t ≤ x)) :
    setTailHeader (setHdrSize m a (s + 32 + t)) (a + 48 + s + t) a x = m x := by
  rw [setTailHeader_outside (by omega), setHdrSize_outside (by omega)]

/-! ### `kh_free` -/

section

variable {m : Mem} {base a s : Nat} {pre : List Block}

/-- What `kh_free` leaves after the block has been unified with the block before it. -/
structure JoinedPrev (m m' : Mem) (base a s a' : Nat) (pre : List Block) : Prop where
  before : Segments (BlockAt m') Block.len base (joinPrev pre s).1 a'
  block : BlockAt m' a' ⟨(joinPrev pre s).2, false⟩
  same : a' + (joinPrev pre s).2 = a + s
  after : ∀ x, a + 32 + s ≤ x → m' x = m x
  data : ∀ p c, (p, c) ∈ placed Block.len base pre → c.alloc = true →
    ∀ x, p + 16 ≤ x → x < p + 16 + c.size → m' x = m x

private theorem khJoinPrev_spec (hpre : Segments (BlockAt m) Block.len base pre a) (hb : BlockAt m a ⟨s, false⟩)
    (hbase : 16 ≤ base) (htop : a + 32 + s < 2 ^ 64) :
    JoinedPrev m (khJoinPrev m base a).1 base a s (khJoinPrev m base a).2 pre := by
  have hle := hpre.le
  have e1 : sub64 a 16 = a - 16 := sub64_of_le (by omega) (by omega)
  have hstay : khJoinPrev m base a = (m, a) → joinPrev pre s = (pre, s) →
      JoinedPrev m (khJoinPrev m base a).1 base a s (khJoinPrev m base a).2 pre := by
    intro h1 h2
    rw [h1]
    refine ⟨?_, ?_, ?_, fun _ _ => rfl, fun _ _ _ _ _ _ _ => rfl⟩ <;> rw [h2]
    · exact hpre
    · exact hb
  rcases List.eq_nil_or_concat pre with rfl | ⟨pre, c, rfl⟩
  · -- there is no block before this one
    obtain rfl : base = a := hpre
    refine hstay ?_ rfl
    simp only [khJoinPrev, khTailSize, e1, show ¬base ≤ base - 16 by omega, false_and, ↓reduceIte]
  rw [List.concat_eq_append] at *
  obtain ⟨p, hpre', hc, hp⟩ := segments_split.1 hpre
  obtain ⟨t, f⟩ := c
  have hp' : p + (t + 32) = a := hp
  have hple := hpre'.le
  have hth : tailHeader m (a - 16) = p := by
    have h1 : tailHeader m (p + 16 + t) = p := hc.tail.header
    have e : p + 16 + t = a - 16 := by omega
    rwa [e] at h1
  have hfl : hdrFlags m a = 0 := hb.hdr.flags
  have hfl' : hdrFlags m p = f.toNat := hc.hdr.flags
  cases f with
  | true =>
    -- the block before is allocated
    refine hstay ?_ (by simp [joinPrev])
    simp [khJoinPrev, e1, hth, hfl, hfl']
  | false =>
    -- the block before is free, and the two become one
    have hz : hdrSize m a = s := hb.hdr.size
    have hz' : hdrSize m p = t := hc.hdr.size
    have e2 : add64 t (add64 s 32) = t + 32 + s := by
      rw [add64_of_lt (show s + 32 < 2 ^ 64 by omega), add64_of_lt (by omega)]; omega
    have e3 : add64 (add64 a 16) s = p + 48 + t + s := by
      rw [add64_of_lt (show a + 16 < 2 ^ 64 by omega), add64_of_lt (by omega)]; omega
    have hz1 : hdrSize (setHdrSize m p (t + 32 + s)) a = s := by
      rw [← hz]
      exact readLE_congr fun x _ _ => setHdrSize_outside (by omega)
    have hth1 : tailHeader (setHdrSize m p (t + 32 + s)) (a - 16) = p := by
      rw [← hth]
      refine readLE_congr fun x _ _ => ?_
      rw [hth, setHdrSize_outside (by omega)]
    have hth2 : tailHeader (setTailHeader (setHdrSize m p (t + 32 + s)) (p + 48 + t + s) p) (a - 16) = p := by
      rw [← hth1]
      refine readLE_congr fun x _ _ => ?_
      rw [hth1, setTailHeader_outside (by omega)]
    have hjoin : khJoinPrev m base a =
        (setTailHeader (setHdrSize m p (t + 32 + s)) (p + 48 + t + s) p, p) := by
      simp only [khJoinPrev, khTailSize, khHeaderSize, Nat.reduceAdd, e1, hth, hfl, hfl', hz, hz', e2, hz1, hth1, e3,
        hth2, show base ≤ a - 16 by omega, Bool.toNat_false, and_self, ↓reduceIte]
    have habs : joinPrev (pre ++ [⟨t, false⟩]) s = (pre, t + (s + 32)) := by simp [joinPrev]
    have hb' : BlockAt m (p + 32 + t) ⟨s, false⟩ := by
      have e : p + 32 + t = a := by omega
      rw [e]; exact hb
    rw [hjoin]
    refine ⟨?_, ?_, ?_, fun x hx => merge_outside (by omega), ?_⟩
    · rw [habs]
      exact segments_congr hpre' fun x _ hx => merge_outside (by omega)
    · have e : t + (s + 32) = t + 32 + s := by omega
      rw [habs]
      simp only [e]
      exact blockAt_merge hc hb' (by omega)
    · rw [habs]; simp only; omega
    · intro q c hq hal
      rw [hpre'.placed_append, placed_cons, placed_nil, List.mem_append, List.mem_singleton, Prod.mk.injEq] at hq
      rcases hq with hq | ⟨-, rfl⟩
      · exact data_of_mem hpre' (fun x _ hx => merge_outside (by omega)) hq
      · simp at hal

private theorem khJoinNext_spec {endAddr : Nat} {post : List Block} (hb : BlockAt m a ⟨s, false⟩)
    (hpost : Segments (BlockAt m) Block.len (a + 32 + s) post endAddr) (htop : endAddr < 2 ^ 64) :
    Segments (BlockAt (khJoinNext m endAddr a)) Block.len a (joinNext s post) endAddr ∧
      (∀ x, x < a → khJoinNext m endAddr a x = m x) ∧
      ∀ p c, (p, c) ∈ placed Block.len (a + 32 + s) post → c.alloc = true →
        ∀ x, p + 16 ≤ x → x < p + 16 + c.size → khJoinNext m endAddr a x = m x := by
  have hple := hpost.le
  have hz : hdrSize m a = s := hb.hdr.size
  have e1 : add64 (add64 a 32) s = a + 32 + s := by
    rw [add64_of_lt (show a + 32 < 2 ^ 64 by omega), add64_of_lt (by omega)]
  have elen : a + Block.len ⟨s, false⟩ = a + 32 + s := by simp only [Block.len]; omega
  have hfl : hdrFlags m a = 0 := hb.hdr.flags
  cases post with
  | nil =>
    obtain rfl : a + 32 + s = endAddr := hpost
    have hjoin : khJoinNext m (a + 32 + s) a = m := by
      simp only [khJoinNext, khHeaderSize, khTailSize, Nat.reduceAdd, hz, e1, Nat.lt_irrefl, false_and, ↓reduceIte]
    rw [hjoin]
    exact ⟨⟨hb, elen⟩, fun _ _ => rfl, fun _ _ _ _ _ _ _ => rfl⟩
  | cons c post =>
    obtain ⟨hc, hpost'⟩ := hpost
    obtain ⟨t, f⟩ := c
    have hfl' : hdrFlags m (a + 32 + s) = f.toNat := hc.hdr.flags
    have hple' : a + 32 + s + (t + 32) ≤ endAddr := hpost'.le
    cases f with
    | true =>
      have hjoin : khJoinNext m endAddr a = m := by
        simp only [khJoinNext, khHeaderSize, khTailSize, Nat.reduceAdd, hz, e1, hfl, hfl', Bool.toNat_true,
          Nat.zero_ne_one, and_false, ↓reduceIte]
      rw [hjoin]
      refine ⟨?_, fun _ _ => rfl, fun _ _ _ _ _ _ _ => rfl⟩
      rw [joinNext, if_pos rfl, segments_cons, elen]
      exact ⟨hb, hc, hpost'⟩
    | false =>
      have hz' : hdrSize m (a + 32 + s) = t := hc.hdr.size
      have e2 : add64 s (add64 32 t) = s + 32 + t := by
        rw [add64_of_lt (show 32 + t < 2 ^ 64 by omega), add64_of_lt (by omega)]; omega
      have hz1 : hdrSize (setHdrSize m a (s + 32 + t)) (a + 32 + s) = t := by
        rw [← hz']
        exact readLE_congr fun x _ _ => setHdrSize_outside (by omega)
      have e3 : add64 (add64 (a + 32 + s) 16) t = a + 48 + s + t := by
        rw [add64_of_lt (show a + 32 + s + 16 < 2 ^ 64 by omega), add64_of_lt (by omega)]; omega
      have hjoin : khJoinNext m endAddr a =
          setTailHeader (setHdrSize m a (s + 32 + t)) (a + 48 + s + t) a := by
        simp only [khJoinNext, khHeaderSize, khTailSize, Nat.reduceAdd, hz, e1, hfl, hfl', hz', e2, hz1, e3,
          show a + 32 + s < endAddr by omega, Bool.toNat_false, and_self, ↓reduceIte]
      have hmid : a + 32 + s + Block.len ⟨t, false⟩ = a + (s + (32 + t) + 32) := by simp only [Block.len]; omega
      rw [hmid] at hpost'
      rw [hjoin]
      refine ⟨?_, fun x hx => merge_outside (by omega), ?_⟩
      · have e : s + (32 + t) = s + 32 + t := by omega
        simp only [joinNext, Bool.false_eq_true, ↓reduceIte, segments_cons]
        refine ⟨?_, segments_congr hpost' fun x (hx : a + (s + (32 + t) + 32) ≤ x) _ => merge_outside (by omega)⟩
        rw [e]
        exact blockAt_merge hb hc (by omega)
      · intro p c hp hal
        rw [placed_cons, List.mem_cons, Prod.mk.injEq, hmid] at hp
        rcases hp with ⟨-, rfl⟩ | hp
        · simp at hal
        · exact data_of_mem hpost' (fun x hx _ => merge_outside (by omega)) hp

private theorem mem_placed_joinPrev {p : Nat} {c : Block} (hpre : Segments (BlockAt m) Block.len base pre a)
    (hp : (p, c) ∈ placed Block.len base pre) (hc : c.alloc = true) :
    (p, c) ∈ placed Block.len base (joinPrev pre s).1 := by
  rcases List.eq_nil_or_concat pre with rfl | ⟨pre, e, rfl⟩
  · simp at hp
  rw [List.concat_eq_append] at *
  obtain ⟨q, hpre', -, -⟩ := segments_split.1 hpre
  cases he : e.alloc with
  | true => simpa [joinPrev, he] using hp
  | false =>
    rw [hpre'.placed_append, placed_cons, placed_nil, List.mem_append, List.mem_singleton, Prod.mk.injEq] at hp
    rcases hp with hp | ⟨-, rfl⟩
    · simpa [joinPrev, he] using hp
    · rw [hc] at he
      simp at he

private theorem mem_placed_joinNext {p : Nat} {c : Block} {post : List Block}
    (hp : (p, c) ∈ placed Block.len (a + 32 + s) post) (hc : c.alloc = true) :
    (p, c) ∈ placed Block.len a (joinNext s post) := by
  have elen : a + Block.len ⟨s, false⟩ = a + 32 + s := by simp only [Block.len]; omega
  cases post with
  | nil => simp at hp
  | cons e post =>
    cases he : e.alloc with
    | true =>
      rw [joinNext, if_pos he, placed_cons, elen]
      exact List.mem_cons_of_mem _ hp
    | false =>
      have e1 : a + 32 + s + Block.len e = a + Block.len ⟨s + (32 + e.size), false⟩ := by
        simp only [Block.len]; omega
      rw [placed_cons, List.mem_cons, Prod.mk.injEq, e1] at hp
      rcases hp with ⟨-, rfl⟩ | hp
      · rw [hc] at he
        simp at he
      · simp only [joinNext, he, Bool.false_eq_true, ↓reduceIte, placed_cons]
        exact List.mem_cons_of_mem _ hp

end

def release (pre : List Block) (s : Nat) (post : List Block) : List Block :=
  (joinPrev pre s).1 ++ joinNext (joinPrev pre s).2 post

theorem clearAlloc_toNat (f : Bool) : clearAlloc f.toNat = false.toNat := by cases f <;> rfl

theorem khFree_spec {h : Heap} {a : Nat} {b : Block} {pre post : List Block} (hl : Layout h (pre ++ b :: post))
    (hpre : Segments (BlockAt h.mem) Block.len h.khBaseAddr pre a) :
    ∃ m', khFree h (a + 16) = { h with mem := m' } ∧ Layout { h with mem := m' } (release pre b.size post) ∧
      Carries h.khBaseAddr h.mem m' (pre ++ b :: post) (release pre b.size post) (· ≠ a) := by
  obtain ⟨mid, hpre', hrest⟩ := segments_append.1 hl.segments
  obtain rfl := hpre.end_unique hpre'
  obtain ⟨hb, hpost⟩ := hrest
  obtain ⟨s, f⟩ := b
  have hbase := hl.base
  have htop := hl.top
  have hle := hpre.le
  have hple : a + (s + 32) ≤ h.khEndAddr := hpost.le
  have e0 : a + Block.len ⟨s, f⟩ = a + 32 + s := by simp only [Block.len]; omega
  rw [e0] at hpost
  have e1 : sub64 (a + 16) 16 = a := by rw [sub64_of_le (by omega) (by omega)]; omega
  have hfl : hdrFlags h.mem a = f.toNat := hb.hdr.flags
  generalize hm1 : setHdrFlags h.mem a false.toNat = m1
  have hm1' : ∀ x, x < a + 4 ∨ a + 8 ≤ x → m1 x = h.mem x := by
    intro x hx
    rw [← hm1, setHdrFlags_outside hx]
  have hb1 : BlockAt m1 a ⟨s, false⟩ := by
    have htl : TailAt h.mem (a + 16 + s) a := hb.tail
    rw [← hm1]
    exact ⟨hb.hdr.setFlags false, htl.congr fun x _ _ => setHdrFlags_outside (by omega)⟩
  have hpre1 := segments_congr hpre fun x _ hx => hm1' x (by omega)
  -- first the block before, then the block behind
  have hj := khJoinPrev_spec hpre1 hb1 hbase (by omega)
  generalize hjp : khJoinPrev m1 h.khBaseAddr a = jp at hj
  obtain ⟨m2, a'⟩ := jp
  replace hj : JoinedPrev m1 m2 h.khBaseAddr a s a' pre := hj
  have hsame := hj.same
  have e2 : a' + 32 + (joinPrev pre s).2 = a + 32 + s := by omega
  have hpost2 : Segments (BlockAt m2) Block.len (a' + 32 + (joinPrev pre s).2) post h.khEndAddr := by
    rw [e2]
    refine segments_congr hpost fun x hx _ => ?_
    have h1 : m2 x = m1 x := hj.after x hx
    rw [h1, hm1' x (by omega)]
  obtain ⟨h1, h2, h3⟩ := khJoinNext_spec hj.block hpost2 htop
  generalize hm3 : khJoinNext m2 h.khEndAddr a' = m3 at h1 h2 h3
  have hbefore : Segments (BlockAt m3) Block.len h.khBaseAddr (joinPrev pre s).1 a' :=
    segments_congr hj.before fun x _ hx => h2 x hx
  refine ⟨m3, ?_, ⟨segments_append.2 ⟨a', hbefore, h1⟩, hbase, htop⟩, ?_⟩
  · have hmg : hdrMagic h.mem a = khHeaderMagic := hb.hdr.magic
    have hf0 : setHdrFlags h.mem a 0 = m1 := hm1
    simp only [khFree, khHeaderSize, e1, hmg, hfl, clearAlloc_toNat, Bool.toNat_false, hf0, hjp, hm3,
      Nat.add_eq_zero_iff, OfNat.ofNat_ne_zero, and_false, ne_eq, not_true_eq_false, ↓reduceIte]
  · intro p c hp hc hne
    unfold release
    rw [hbefore.placed_append]
    rw [hpre.placed_append, placed_cons, List.mem_append, List.mem_cons, Prod.mk.injEq, e0] at hp
    rcases hp with hp | ⟨rfl, -⟩ | hp
    · have hmem := mem_placed_joinPrev (s := s) hpre1 hp hc
      refine ⟨c, List.mem_append_left _ hmem, hc, Nat.le_refl _, fun x h4 h5 => ?_⟩
      have h6 := data_of_mem hj.before (fun x _ hx => h2 x hx) hmem x h4 h5
      have h7 : m2 x = m1 x := hj.data p c hp hc x h4 h5
      have h8 := data_of_mem hpre (fun x _ hx => hm1' x (by omega)) hp x h4 h5
      rw [h6, h7, h8]
    · exact absurd rfl hne
    · have hp' := hp
      rw [← e2] at hp'
      refine ⟨c, List.mem_append_right _ (mem_placed_joinNext hp' hc), hc, Nat.le_refl _, fun x h4 h5 => ?_⟩
      have h6 := h3 p c hp' hc x h4 h5
      obtain ⟨-, h7, -⟩ := hpost.of_mem_placed hp
      have h8 : m2 x = m1 x := hj.after x (by omega)
      rw [h6, h8, hm1' x (by omega)]

end Pml.Kernel
