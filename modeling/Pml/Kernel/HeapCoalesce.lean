import Mathlib.Data.List.Chain
import Pml.Kernel.HeapContents
import Pml.Lib.Machine

/-!
# Free blocks side by side

`kh_free` unifies the released block with its free neighbours.  A heap without two adjacent free blocks therefore
stays so, and becomes the single block of `kh_init` again once everything is freed, along every run in which
`kh_realloc` never cuts a block in front of a free one: the free block that such a cut makes is not unified with the
one after it (`coalesced_iff`).
-/

namespace Pml.Kernel

open ByteMemory

/-! ### Lists without adjacent free blocks -/

def Apart (b c : Block) : Prop := b.alloc = true ∨ c.alloc = true

instance (b c : Block) : Decidable (Apart b c) := inferInstanceAs (Decidable (_ ∨ _))

def HeadAlloc (post : List Block) : Prop := ∀ c ∈ post.head?, c.alloc = true

def LastAlloc (pre : List Block) : Prop := ∀ c ∈ pre.getLast?, c.alloc = true

section

variable {pre post : List Block} {b : Block}

private theorem apart_append_cons : (pre ++ b :: post).IsChain Apart ↔
    pre.IsChain Apart ∧ post.IsChain Apart ∧ (b.alloc = false → LastAlloc pre ∧ HeadAlloc post) := by
  rw [List.isChain_append, List.isChain_cons, LastAlloc, HeadAlloc]
  simp only [List.head?_cons, Option.mem_def, Option.some.injEq, forall_eq', Apart]
  cases b.alloc <;> simp
  tauto

private theorem apart_free {k : Nat} : (pre ++ ⟨k, false⟩ :: post).IsChain Apart ↔
    pre.IsChain Apart ∧ post.IsChain Apart ∧ LastAlloc pre ∧ HeadAlloc post := by
  rw [apart_append_cons]
  simp

private theorem apart_alloc {k : Nat} : (pre ++ ⟨k, true⟩ :: post).IsChain Apart ↔
    pre.IsChain Apart ∧ post.IsChain Apart := by
  rw [apart_append_cons]
  simp

private theorem apart_cut {n k : Nat} : (pre ++ ⟨n, true⟩ :: ⟨k, false⟩ :: post).IsChain Apart ↔
    pre.IsChain Apart ∧ post.IsChain Apart ∧ HeadAlloc post := by
  have h1 := @apart_free [] post k
  rw [List.nil_append] at h1
  rw [apart_alloc, h1]
  simp [LastAlloc]

private theorem apart_carve {n k : Nat} (h : (pre ++ ⟨k, false⟩ :: post).IsChain Apart) :
    (pre ++ (carve n k ++ post)).IsChain Apart := by
  obtain ⟨h1, h2, -, h3⟩ := apart_free.1 h
  unfold carve
  split
  · exact apart_cut.2 ⟨h1, h2, h3⟩
  · exact apart_alloc.2 ⟨h1, h2⟩

private theorem apart_grow {n s t : Nat} (h : (pre ++ ⟨s, true⟩ :: ⟨t, false⟩ :: post).IsChain Apart) :
    (pre ++ (grow n s t ++ post)).IsChain Apart := by
  obtain ⟨h1, h2, h3⟩ := apart_cut.1 h
  unfold grow
  split
  · exact apart_cut.2 ⟨h1, h2, h3⟩
  · exact apart_alloc.2 ⟨h1, h2⟩

private theorem apart_joinPrev {s : Nat} (h : pre.IsChain Apart) :
    (joinPrev pre s).1.IsChain Apart ∧ LastAlloc (joinPrev pre s).1 := by
  rcases List.eq_nil_or_concat pre with rfl | ⟨pre, c, rfl⟩
  · exact ⟨h, by simp [joinPrev, LastAlloc]⟩
  rw [List.concat_eq_append] at *
  cases hc : c.alloc with
  | true =>
    have e : joinPrev (pre ++ [c]) s = (pre ++ [c], s) := by simp [joinPrev, hc]
    rw [e]
    exact ⟨h, by simp [LastAlloc, hc]⟩
  | false =>
    have e : joinPrev (pre ++ [c]) s = (pre, c.size + (s + 32)) := by simp [joinPrev, hc]
    obtain ⟨h1, -, h2⟩ := apart_append_cons.1 h
    rw [e]
    exact ⟨h1, (h2 hc).1⟩

private theorem apart_release {s : Nat} (hpre : pre.IsChain Apart) (hpost : post.IsChain Apart) :
    (release pre s post).IsChain Apart := by
  obtain ⟨h1, h2⟩ := apart_joinPrev (s := s) hpre
  rw [release]
  cases post with
  | nil => exact apart_free.2 ⟨h1, hpost, h2, by simp [HeadAlloc]⟩
  | cons c post =>
    cases hc : c.alloc with
    | true =>
      rw [joinNext, if_pos hc]
      exact apart_free.2 ⟨h1, hpost, h2, by simp [HeadAlloc, hc]⟩
    | false =>
      have h3 := apart_append_cons.1 (show ([] ++ c :: post).IsChain Apart from hpost)
      simp only [joinNext, hc, Bool.false_eq_true, ↓reduceIte]
      exact apart_free.2 ⟨h1, h3.2.1, h2, (h3.2.2 hc).2⟩

private theorem apart_all_free {bs : List Block} (h : bs.IsChain Apart) (hfree : ∀ b ∈ bs, b.alloc = false) :
    bs.length ≤ 1 := by
  rcases bs with _ | ⟨b, _ | ⟨c, bs⟩⟩
  · simp
  · simp
  · have h1 : Apart b c := (List.isChain_cons_cons.1 h).1
    rw [Apart, hfree b (by simp), hfree c (by simp)] at h1
    simp at h1

end

/-! ### Places of blocks -/

/-- The allocated blocks of the new list are blocks of the old one, apart from those at places in `new`. -/
def Gains (base : Nat) (bs bs' : List Block) (new : Nat → Prop) : Prop :=
  ∀ p c, (p, c) ∈ placed Block.len base bs' → c.alloc = true →
    new p ∨ ∃ c', (p, c') ∈ placed Block.len base bs ∧ c'.alloc = true

def AlignedAt (base : Nat) (bs : List Block) : Prop := ∀ a b, (a, b) ∈ placed Block.len base bs → 16 ∣ a

section

variable {base a mid : Nat} {pre old new post : List Block}

private theorem placed_replace {P Q : Nat → Block → Prop} (hpre : Segments P Block.len base pre a)
    (hnew : Segments Q Block.len a new mid) (p : Nat) (c : Block) :
    (p, c) ∈ placed Block.len base (pre ++ (new ++ post)) ↔ (p, c) ∈ placed Block.len base pre ∨
      (p, c) ∈ placed Block.len a new ∨ (p, c) ∈ placed Block.len mid post := by
  rw [hpre.placed_append, hnew.placed_append, List.mem_append, List.mem_append]

private theorem gains_replace {P Q R : Nat → Block → Prop} (hpre : Segments P Block.len base pre a)
    (hold : Segments Q Block.len a old mid) (hnew : Segments R Block.len a new mid)
    (hone : ∀ p c, (p, c) ∈ placed Block.len a new → c.alloc = true → p = a) :
    Gains base (pre ++ (old ++ post)) (pre ++ (new ++ post)) (· = a) := by
  intro p c hp hc
  rw [placed_replace hpre hnew] at hp
  rcases hp with hp | hp | hp
  · exact Or.inr ⟨c, (placed_replace hpre hold p c).2 (Or.inl hp), hc⟩
  · exact Or.inl (hone p c hp hc)
  · exact Or.inr ⟨c, (placed_replace hpre hold p c).2 (Or.inr (Or.inr hp)), hc⟩

private theorem alignedAt_replace {P Q R : Nat → Block → Prop} (hpre : Segments P Block.len base pre a)
    (hold : Segments Q Block.len a old mid) (hnew : Segments R Block.len a new mid)
    (h : AlignedAt base (pre ++ (old ++ post))) (hin : AlignedAt a new) : AlignedAt base (pre ++ (new ++ post)) := by
  intro p c hp
  rw [placed_replace hpre hnew] at hp
  rcases hp with hp | hp | hp
  · exact h p c ((placed_replace hpre hold p c).2 (Or.inl hp))
  · exact hin p c hp
  · exact h p c ((placed_replace hpre hold p c).2 (Or.inr (Or.inr hp)))

private theorem placed_two {n k p : Nat} {c : Block} (h : (p, c) ∈ placed Block.len a [⟨n, true⟩, ⟨k, false⟩]) :
    (p = a ∧ c = ⟨n, true⟩) ∨ (p = a + 32 + n ∧ c = ⟨k, false⟩) := by
  have e : a + Block.len ⟨n, true⟩ = a + 32 + n := by simp only [Block.len]; omega
  rw [placed_cons, placed_cons, placed_nil, List.mem_cons, List.mem_singleton, Prod.mk.injEq, Prod.mk.injEq, e] at h
  exact h

private theorem placed_one {n p : Nat} {c : Block} (h : (p, c) ∈ placed Block.len a [⟨n, true⟩]) :
    p = a ∧ c = ⟨n, true⟩ := by
  rw [placed_cons, placed_nil, List.mem_singleton, Prod.mk.injEq] at h
  exact h

/-- Blocks that a cut makes: one or two, the first allocated, the second free and behind `n` bytes. -/
structure CutInto (n : Nat) (new : List Block) (a mid : Nat) : Prop where
  fills : Segments (fun _ _ => True) Block.len a new mid
  one : ∀ p c, (p, c) ∈ placed Block.len a new → c.alloc = true → p = a
  aligned : 16 ∣ a → 16 ∣ n → AlignedAt a new

private theorem cutInto_two {n k : Nat} (hmid : a + 64 + n + k = mid) : CutInto n [⟨n, true⟩, ⟨k, false⟩] a mid := by
  refine ⟨⟨trivial, trivial, by simp only [segments_nil, Block.len]; omega⟩, ?_, ?_⟩
  · intro p c hp hc
    rcases placed_two hp with ⟨h1, -⟩ | ⟨-, rfl⟩
    · exact h1
    · cases hc
  · intro ha hn p c hp
    rcases placed_two hp with ⟨rfl, -⟩ | ⟨rfl, -⟩
    · exact ha
    · omega

private theorem cutInto_one {n k : Nat} (hmid : a + 32 + k = mid) : CutInto n [⟨k, true⟩] a mid := by
  refine ⟨⟨trivial, by simp only [segments_nil, Block.len]; omega⟩, ?_, ?_⟩
  · intro p c hp _
    exact (placed_one hp).1
  · intro ha _ p c hp
    rw [(placed_one hp).1]
    exact ha

private theorem cutInto_carve {n s : Nat} : CutInto n (carve n s) a (a + 32 + s) := by
  unfold carve
  split
  · exact cutInto_two (by omega)
  · exact cutInto_one rfl

private theorem cutInto_grow {n s t : Nat} : CutInto n (grow n s t) a (a + 64 + s + t) := by
  unfold grow
  split
  · exact cutInto_two (by omega)
  · exact cutInto_one (by omega)

private theorem alignedAt_release {s : Nat} (hpre : Segments (fun _ _ => True) Block.len base pre a)
    (h : AlignedAt base (pre ++ ⟨s, true⟩ :: post)) : AlignedAt base (release pre s post) := by
  intro p c hp
  have e : a + Block.len ⟨s, true⟩ = a + 32 + s := by simp only [Block.len]; omega
  simp only [AlignedAt, hpre.placed_append, placed_cons, List.mem_append, List.mem_cons, Prod.mk.injEq, e] at h
  rcases placed_release hpre hp with h1 | h1 | ⟨-, rfl | ⟨e, h1⟩⟩
  · exact h p c (Or.inl h1)
  · exact h p c (Or.inr (Or.inr h1))
  · exact h p ⟨s, true⟩ (Or.inr (Or.inl ⟨rfl, rfl⟩))
  · exact h p e (Or.inl h1)

private theorem gains_release {s : Nat} (hpre : Segments (fun _ _ => True) Block.len base pre a) {p : Nat} {c : Block}
    (hp : (p, c) ∈ placed Block.len base (release pre s post)) (hc : c.alloc = true) :
    p ≠ a ∧ (p, c) ∈ placed Block.len base (pre ++ ⟨s, true⟩ :: post) := by
  have e : a + Block.len ⟨s, true⟩ = a + 32 + s := by simp only [Block.len]; omega
  obtain ⟨hne, h1⟩ := alloc_release hpre hp hc
  refine ⟨hne, ?_⟩
  rw [hpre.placed_append, placed_cons, e, List.mem_append, List.mem_cons]
  rcases h1 with h1 | h1
  · exact Or.inl h1
  · exact Or.inr (Or.inr h1)

end

/-! ### The calls on a heap without adjacent free blocks -/

/-- A tiled heap with aligned headers and without two adjacent free blocks. -/
structure Tidy (h : Heap) (bs : List Block) : Prop where
  heap : AlignedHeap h bs
  apart : bs.IsChain Apart

private theorem sixteen_dvd_alignUp {x : Nat} (hx : x < 2 ^ 64) : 16 ∣ alignUp x 16 := by
  rw [alignUp_sixteen hx]
  omega

section

variable {h : Heap} {bs : List Block} (ht : Tidy h bs)
include ht

theorem Tidy.take {n a0 : Nat} {m' : Mem} {bs' : List Block} {b : Block} (h16 : 16 ∣ n)
    (hA : Allocated h m' bs bs' n 0 a0 b) (hfree : b.alloc = false) :
    Tidy { h with mem := m' } bs' ∧ Gains h.khBaseAddr bs bs' (· = a0) := by
  obtain ⟨pre, post, rfl, hpre, rfl⟩ := hA.cut
  obtain ⟨s, f⟩ := b
  obtain rfl : f = false := hfree
  have hold : Segments (fun _ _ => True) Block.len a0 [⟨s, false⟩] (a0 + 32 + s) :=
    ⟨trivial, by simp only [segments_nil, Block.len]; omega⟩
  have hnew : CutInto n (carve n s) a0 (a0 + 32 + s) := cutInto_carve
  have ha0 : 16 ∣ a0 := ht.heap.aligned a0 ⟨s, false⟩ (by rw [hpre.placed_append]; simp)
  refine ⟨⟨⟨hA.layout, ht.heap.base, ?_⟩, apart_carve ht.apart⟩, gains_replace hpre hold hnew.fills hnew.one⟩
  exact alignedAt_replace hpre hold hnew.fills ht.heap.aligned (hnew.aligned ha0 h16)

theorem Tidy.malloc {n : Nat} (hn : n < 2 ^ 64) :
    malloc h n = some ({ h with errno := some .ENOMEM }, 0) ∨
      ∃ a m' bs', malloc h n = some ({ h with mem := m' }, a + 16) ∧ Tidy { h with mem := m' } bs' ∧
        Gains h.khBaseAddr bs bs' (· = a) := by
  rcases malloc_spec ht.heap n with ⟨-, h1⟩ | ⟨a, b, m', bs', hff, h1, hA⟩
  · exact Or.inl h1
  · obtain ⟨h2, h3⟩ := ht.take (sixteen_dvd_alignUp hn) hA (firstFit_eq_some hff).2.1
    exact Or.inr ⟨a, m', bs', h1, h2, h3⟩

theorem Tidy.free {a s : Nat} (hb : (a, ⟨s, true⟩) ∈ placed Block.len h.khBaseAddr bs) :
    ∃ m' bs', khFree h (a + 16) = { h with mem := m' } ∧ Tidy { h with mem := m' } bs' ∧
      ∀ p c, (p, c) ∈ placed Block.len h.khBaseAddr bs' → c.alloc = true →
        p ≠ a ∧ (p, c) ∈ placed Block.len h.khBaseAddr bs := by
  obtain ⟨pre, post, rfl, hpre, -, -⟩ := ht.heap.layout.segments.split_placed hb
  obtain ⟨m', h1, h2, -⟩ := khFree_spec ht.heap.layout hpre
  have hpre' : Segments (fun _ _ => True) Block.len h.khBaseAddr pre a := hpre.mono fun _ _ _ _ _ _ => trivial
  obtain ⟨h3, h4⟩ := apart_alloc.1 ht.apart
  refine ⟨m', _, h1, ⟨⟨h2, ht.heap.base, ?_⟩, apart_release h3 h4⟩, fun p c hp hc => gains_release hpre' hp hc⟩
  exact alignedAt_release hpre' ht.heap.aligned

/-- The blocks after `kh_realloc`: no two free ones are adjacent unless the block was cut in front of a free one. -/
private theorem Tidy.resized {pre post bs' : List Block} {a s n q : Nat} (hbs : bs = pre ++ ⟨s, true⟩ :: post)
    (hpre : Segments (BlockAt h.mem) Block.len h.khBaseAddr pre a) (h16 : 16 ∣ n)
    (hZ : Resized h.khBaseAddr a s n q pre post bs') :
    ((n + 64 ≤ s → HeadAlloc post) → bs'.IsChain Apart) ∧ AlignedAt h.khBaseAddr bs' ∧
      ∀ p c, (p, c) ∈ placed Block.len h.khBaseAddr bs' → c.alloc = true →
        p + 16 = q ∨ ((q ≠ 0 → p ≠ a) ∧ ∃ c', (p, c') ∈ placed Block.len h.khBaseAddr bs ∧ c'.alloc = true) := by
  subst hbs
  have ha : 16 ∣ a := ht.heap.aligned a ⟨s, true⟩ (by rw [hpre.placed_append]; simp)
  have hone : Segments (fun _ _ => True) Block.len a [⟨s, true⟩] (a + 32 + s) :=
    ⟨trivial, by simp only [segments_nil, Block.len]; omega⟩
  -- a block that stays in place gives its place to the result
  have hstay : ∀ {bs'}, q = a + 16 → Gains h.khBaseAddr (pre ++ ⟨s, true⟩ :: post) bs' (· = a) →
      ∀ p c, (p, c) ∈ placed Block.len h.khBaseAddr bs' → c.alloc = true → p + 16 = q ∨ ((q ≠ 0 → p ≠ a) ∧
        ∃ c', (p, c') ∈ placed Block.len h.khBaseAddr (pre ++ ⟨s, true⟩ :: post) ∧ c'.alloc = true) := by
    intro bs' hq hg p c hp hc
    by_cases hpa : p = a
    · exact Or.inl (by omega)
    · exact Or.inr ⟨fun _ => hpa, (hg p c hp hc).resolve_left hpa⟩
  cases hZ with
  | fail hn hq =>
    exact ⟨fun _ => ht.apart, ht.heap.aligned, fun p c hp hc => Or.inr ⟨fun hne => absurd hq hne, c, hp, hc⟩⟩
  | stay hn hs hq =>
    exact ⟨fun _ => ht.apart, ht.heap.aligned, hstay hq fun p c hp hc => Or.inr ⟨c, hp, hc⟩⟩
  | cut hn hq =>
    obtain ⟨h1, h2⟩ := apart_alloc.1 ht.apart
    have hnew : CutInto n [⟨n, true⟩, ⟨s - n - 32, false⟩] a (a + 32 + s) := cutInto_two (by omega)
    exact ⟨fun hcut => apart_cut.2 ⟨h1, h2, hcut hn⟩,
      alignedAt_replace hpre hone hnew.fills ht.heap.aligned (hnew.aligned ha h16),
      hstay hq (gains_replace hpre hone hnew.fills hnew.one)⟩
  | @grow t rest hpost hn hn' hq =>
    subst hpost
    have hold : Segments (fun _ _ => True) Block.len a [⟨s, true⟩, ⟨t, false⟩] (a + 64 + s + t) :=
      ⟨trivial, trivial, by simp only [segments_nil, Block.len]; omega⟩
    have hnew : CutInto n (Kernel.grow n s t) a (a + 64 + s + t) := cutInto_grow
    exact ⟨fun _ => apart_grow ht.apart,
      alignedAt_replace hpre hold hnew.fills ht.heap.aligned (hnew.aligned ha h16),
      hstay hq (gains_replace hpre hold hnew.fills hnew.one)⟩
  | @move pre0 post0 pre1 post1 k a0 hn htake hcut hpre0 hpre1 hq =>
    have hapart := ht.apart
    have haligned := ht.heap.aligned
    rw [htake] at hapart haligned ⊢
    have ha0 : 16 ∣ a0 := haligned a0 ⟨k, false⟩ (by rw [hpre0.placed_append]; simp)
    have hold : Segments (fun _ _ => True) Block.len a0 [⟨k, false⟩] (a0 + 32 + k) :=
      ⟨trivial, by simp only [segments_nil, Block.len]; omega⟩
    have hnew : CutInto n (carve n k) a0 (a0 + 32 + k) := cutInto_carve
    have hg : Gains h.khBaseAddr (pre0 ++ ⟨k, false⟩ :: post0) (pre0 ++ (carve n k ++ post0)) (· = a0) :=
      gains_replace hpre0 hold hnew.fills hnew.one
    have hal : AlignedAt h.khBaseAddr (pre0 ++ (carve n k ++ post0)) :=
      alignedAt_replace hpre0 hold hnew.fills haligned (hnew.aligned ha0 h16)
    have hap := apart_carve (n := n) hapart
    rw [hcut] at hg hal hap
    obtain ⟨h1, h2⟩ := apart_alloc.1 hap
    refine ⟨fun _ => apart_release h1 h2, alignedAt_release hpre1 hal, fun p c hp hc => ?_⟩
    obtain ⟨hne, hmem⟩ := gains_release hpre1 hp hc
    rcases hg p c hmem hc with rfl | hold'
    · exact Or.inl hq.symm
    · exact Or.inr ⟨fun _ => hne, hold'⟩

/-- A resized block: the heap stays tidy exactly if no free block follows a block that is cut. -/
theorem Tidy.realloc {a s size : Nat} {pre post : List Block} (hbs : bs = pre ++ ⟨s, true⟩ :: post)
    (hpre : Segments (BlockAt h.mem) Block.len h.khBaseAddr pre a) (hsize : size < 2 ^ 64) :
    ∃ h' q bs', khRealloc h (a + 16) size = some (h', q) ∧ h'.khBaseAddr = h.khBaseAddr ∧
      h'.khEndAddr = h.khEndAddr ∧ AlignedHeap h' bs' ∧
      (bs'.IsChain Apart ↔ (alignUp size 16 + 64 ≤ s → HeadAlloc post)) ∧
      ∀ p c, (p, c) ∈ placed Block.len h.khBaseAddr bs' → c.alloc = true →
        p + 16 = q ∨ ((q ≠ 0 → p ≠ a) ∧ ∃ c', (p, c') ∈ placed Block.len h.khBaseAddr bs ∧ c'.alloc = true) := by
  have hl := ht.heap.layout
  have hsafe := ht.heap.allocSafe (alignUp size 16)
  rw [hbs] at hl hsafe
  obtain ⟨h', q, bs', h1, hR, hZ⟩ := khRealloc_resized hl hpre hsize fun _ _ => hsafe
  obtain ⟨h2, h3, h4⟩ := ht.resized hbs hpre (sixteen_dvd_alignUp hsize) hZ
  refine ⟨h', q, bs', h1, hR.base, hR.top, ⟨hR.layout, ?_, ?_⟩, ⟨fun hap hn => ?_, h2⟩, h4⟩
  · rw [hR.base]
    exact ht.heap.base
  · rw [hR.base]
    exact h3
  · cases hZ with
    | fail hn' _ => omega
    | stay _ hs _ => omega
    | cut _ _ => exact (apart_cut.1 hap).2.2
    | grow _ hn' _ _ => omega
    | move hn' _ _ _ _ _ => omega

end

/-! ### Runs -/

def HeapOp.DefaultAlign : HeapOp → Prop
  | .alloc _ align => align = khDefaultAlign
  | _ => True

/-- A block is not cut in front of a free block. -/
def Client.NoCutBeforeFree (c : Client) : HeapOp → Prop
  | .realloc ptr size =>
    ptr ≠ 0 → alignUp size 16 + 64 ≤ hdrSize c.heap.mem (ptr - 16) →
      ptr + 16 + hdrSize c.heap.mem (ptr - 16) < c.heap.khEndAddr →
        flagAlloc (hdrFlags c.heap.mem (ptr + 16 + hdrSize c.heap.mem (ptr - 16))) = true
  | _ => True

/-- No two adjacent blocks are free, and without live pointers the heap is the block that `kh_init` made in the range
of `size` bytes at `base`. -/
structure Client.Coalesced (base size : Nat) (c : Client) : Prop where
  apart : c.heap.blocks.IsChain Apart
  whole : c.live = [] → c.heap.khBaseAddr = base ∧ c.heap.khEndAddr = base + size ∧
    c.heap.blocks = [⟨size - 32, false⟩] ∧ BlockAt c.heap.mem base ⟨size - 32, false⟩

/-- The invariant of the runs: besides that of the client, each allocated block belongs to a live pointer. -/
structure TidyClient (base size : Nat) (c : Client) (bs : List Block) : Prop where
  inv : c.Inv bs
  tidy : Tidy c.heap bs
  owned : ∀ p b, (p, b) ∈ placed Block.len c.heap.khBaseAddr bs → b.alloc = true → ∃ n, (p + 16, n) ∈ c.live
  base_eq : c.heap.khBaseAddr = base
  end_eq : c.heap.khEndAddr = base + size

private theorem Client.Inv.filter_zero {c : Client} {bs : List Block} (hi : c.Inv bs) :
    c.live.filter (·.1 ≠ 0) = c.live := by
  refine List.filter_eq_self.2 fun ⟨p, n⟩ hp => ?_
  obtain ⟨a, b, rfl, -⟩ := hi.live p n hp
  simp

private theorem Tidy.of_layout {h h' : Heap} {bs : List Block} (ht : Tidy h bs) (hl : Layout h' bs)
    (hbase : h'.khBaseAddr = h.khBaseAddr) : Tidy h' bs := by
  refine ⟨⟨hl, ?_, ?_⟩, ht.apart⟩
  · rw [hbase]
    exact ht.heap.base
  · rw [hbase]
    exact ht.heap.aligned

section

variable {base size : Nat} {c : Client} {bs : List Block} (hc : TidyClient base size c bs)
include hc

private theorem TidyClient.coalesced (hsize : 0 < size) : c.Coalesced base size := by
  have hl := hc.tidy.heap.layout
  refine ⟨?_, fun hlive => ⟨hc.base_eq, hc.end_eq, ?_⟩⟩
  · rw [hl.blocks_eq]
    exact hc.tidy.apart
  · have hseg := hl.segments
    rw [hc.base_eq, hc.end_eq] at hseg
    have hfree : ∀ b ∈ bs, b.alloc = false := by
      intro b hb
      by_contra halloc
      obtain ⟨pre, post, rfl⟩ := List.append_of_mem hb
      obtain ⟨a, hpre, -⟩ := segments_split.1 hseg
      have hown := hc.owned a b (by rw [hc.base_eq, hpre.placed_append]; simp) (by simpa using halloc)
      rw [hlive] at hown
      simp at hown
    have hlen := apart_all_free hc.tidy.apart hfree
    rw [hl.blocks_eq]
    rcases bs with _ | ⟨b, _ | ⟨e, bs⟩⟩
    · have hend : base = base + size := hseg
      omega
    · obtain ⟨hb, hend⟩ := hseg
      obtain ⟨s, f⟩ := b
      obtain rfl : f = false := hfree ⟨s, f⟩ (by simp)
      have hlen' : base + (s + 32) = base + size := hend
      obtain rfl : s = size - 32 := by omega
      exact ⟨rfl, hb⟩
    · simp at hlen

theorem TidyClient.next {c' : Client} {bs' : List Block} (hi : ∃ bs', c'.Inv bs')
    (ht : Tidy c'.heap bs') (hrange : SameRange c.heap c'.heap)
    (hown : ∀ p b, (p, b) ∈ placed Block.len c.heap.khBaseAddr bs' → b.alloc = true → ∃ n, (p + 16, n) ∈ c'.live) :
    TidyClient base size c' bs' := by
  obtain ⟨bs'', hi⟩ := hi
  obtain rfl : bs'' = bs' := hi.layout.blocks_eq.symm.trans ht.heap.layout.blocks_eq
  refine ⟨hi, ht, ?_, hrange.1.trans hc.base_eq, hrange.2.trans hc.end_eq⟩
  rw [hrange.1]
  exact hown

theorem TidyClient.alloc {n : Nat} (hn : n < 2 ^ 64) : ∃ h p bs', malloc c.heap n = some (h, p) ∧
    TidyClient base size ⟨h, if p = 0 then c.live else (p, n) :: c.live⟩ bs' := by
  have hp2 : isP2 khDefaultAlign = true := by decide
  obtain ⟨h, p, bs1, h1, h2, h3⟩ := @Client.Inv.alloc c bs n khDefaultAlign hc.inv hp2 (hc.tidy.heap.allocSafe _)
  rcases hc.tidy.malloc hn with h4 | ⟨a, m', bs', h4, h5, h6⟩
  · obtain ⟨rfl, rfl⟩ := Prod.mk.inj (Option.some.inj (h1.symm.trans h4))
    refine ⟨_, _, bs, h4, hc.next ⟨bs1, h3⟩ (hc.tidy.of_layout ?_ rfl) h2 ?_⟩
    · exact ⟨hc.tidy.heap.layout.segments, hc.tidy.heap.layout.base, hc.tidy.heap.layout.top⟩
    · simpa using hc.owned
  · obtain ⟨rfl, rfl⟩ := Prod.mk.inj (Option.some.inj (h1.symm.trans h4))
    refine ⟨_, _, bs', h4, hc.next ⟨bs1, h3⟩ h5 h2 fun p b hp hb => ?_⟩
    rw [if_neg (by omega)]
    rcases h6 p b hp hb with rfl | ⟨b', h7, h8⟩
    · exact ⟨n, List.mem_cons_self⟩
    · obtain ⟨k, hk⟩ := hc.owned p b' h7 h8
      exact ⟨k, List.mem_cons_of_mem _ hk⟩

theorem TidyClient.free {ptr n : Nat} (hptr : (ptr, n) ∈ c.live) :
    ∃ bs', TidyClient base size ⟨khFree c.heap ptr, c.live.filter (·.1 ≠ ptr)⟩ bs' := by
  obtain ⟨bs1, h1, h2⟩ := hc.inv.free hptr
  obtain ⟨a, ⟨s, f⟩, rfl, hb, rfl, -⟩ := hc.inv.live ptr n hptr
  obtain ⟨m', bs', h3, h4, h5⟩ := hc.tidy.free hb
  rw [← h3] at h4
  refine ⟨bs', hc.next ⟨bs1, h2⟩ h4 h1 fun p b hp halloc => ?_⟩
  obtain ⟨hne, h6⟩ := h5 p b hp halloc
  obtain ⟨k, hk⟩ := hc.owned p b h6 halloc
  exact ⟨k, List.mem_filter.2 ⟨hk, by simpa using hne⟩⟩

private theorem TidyClient.noCut_iff {pre post : List Block} {a s n : Nat} (hbs : bs = pre ++ ⟨s, true⟩ :: post)
    (hpre : Segments (BlockAt c.heap.mem) Block.len c.heap.khBaseAddr pre a) :
    c.NoCutBeforeFree (.realloc (a + 16) n) ↔ (alignUp n 16 + 64 ≤ s → HeadAlloc post) := by
  have hl := hc.tidy.heap.layout
  rw [hbs] at hl
  obtain ⟨h16, hb, hpost, hle⟩ := realloc_parts hl hpre
  have hz : hdrSize c.heap.mem a = s := hb.hdr.size
  have e : a + 16 + 16 + s = a + 32 + s := by omega
  simp only [Client.NoCutBeforeFree, Nat.add_sub_cancel, hz, e, ne_eq, Nat.add_eq_zero_iff, OfNat.ofNat_ne_zero,
    and_false, not_false_eq_true, forall_const]
  refine imp_congr_right fun _ => ?_
  cases post with
  | nil =>
    have hend : a + 32 + s = c.heap.khEndAddr := hpost
    simp [HeadAlloc, hend]
  | cons b post =>
    obtain ⟨hb', hrest⟩ := hpost
    have hle' : a + 32 + s + (b.size + 32) ≤ c.heap.khEndAddr := hrest.le
    simp [HeadAlloc, hb'.hdr.flags, flagAlloc_toNat, show a + 32 + s < c.heap.khEndAddr by omega]

/-- A legal operation returns and keeps the invariant, apart from the free blocks side by side that a cut in front of
a free block makes. -/
theorem TidyClient.step {op : HeapOp} (hlegal : c.Legal op) (halign : op.DefaultAlign) :
    (c.NoCutBeforeFree op → ∃ c' bs', c.step op = some c' ∧ TidyClient base size c' bs') ∧
      ((∃ c', c.step op = some c' ∧ c'.heap.blocks.IsChain Apart) → c.NoCutBeforeFree op) := by
  cases op with
  | alloc n align =>
    obtain ⟨hn, -, -⟩ := hlegal
    obtain rfl : align = khDefaultAlign := halign
    obtain ⟨h, p, bs', h1, h2⟩ := hc.alloc hn
    have h1' : khAllocAligned c.heap n khDefaultAlign = some (h, p) := h1
    exact ⟨fun _ => ⟨_, bs', by rw [Client.step, h1']; rfl, h2⟩, fun _ => trivial⟩
  | free ptr =>
    refine ⟨fun _ => ?_, fun _ => trivial⟩
    rcases hlegal with rfl | ⟨n, hptr⟩
    · refine ⟨_, bs, rfl, ?_⟩
      have hnull : (⟨khFree c.heap 0, c.live.filter (·.1 ≠ 0)⟩ : Client) = c := by
        rw [hc.inv.filter_zero, khFree, if_pos rfl]
      rw [hnull]
      exact hc
    · obtain ⟨bs', h1⟩ := hc.free hptr
      exact ⟨_, bs', rfl, h1⟩
  | store ptr i v =>
    refine ⟨fun _ => ?_, fun _ => trivial⟩
    obtain ⟨⟨n, hptr⟩, hlt⟩ := hlegal
    have hi := @Client.Inv.store c bs ptr n i v hc.inv hptr hlt
    exact ⟨_, bs, rfl, hc.next ⟨bs, hi⟩ (hc.tidy.of_layout hi.layout rfl) ⟨rfl, rfl⟩ hc.owned⟩
  | realloc ptr n =>
    obtain ⟨hn, rfl | ⟨k, hptr⟩⟩ := hlegal
    · -- a null pointer makes it an allocation
      obtain ⟨h, p, bs', h1, h2⟩ := hc.alloc hn
      have h1' : khRealloc c.heap 0 n = some (h, p) := by simpa [khRealloc, malloc] using h1
      refine ⟨fun _ => ⟨_, bs', by rw [Client.step, h1']; rfl, ?_⟩, fun _ hne => absurd rfl hne⟩
      rw [hc.inv.filter_zero]
      exact h2
    · obtain ⟨a, ⟨s, f⟩, rfl, hb, rfl, -⟩ := hc.inv.live ptr k hptr
      obtain ⟨pre, post, hbs, hpre, -, -⟩ := hc.tidy.heap.layout.segments.split_placed hb
      obtain ⟨h', q, bs', h1, hbase, htop, h2, h3, h4⟩ := hc.tidy.realloc hbs hpre hn
      have hstep : c.step (.realloc (a + 16) n) =
          some ⟨h', if q = 0 then c.live else (q, n) :: c.live.filter (·.1 ≠ a + 16)⟩ := by
        rw [Client.step, h1]
        rfl
      rw [hc.noCut_iff hbs hpre]
      refine ⟨fun hcut => ⟨_, bs', hstep, ?_⟩, ?_⟩
      · obtain ⟨h'', q', bs1, h5, h6, h7⟩ := hc.inv.realloc hptr hn fun _ _ => hc.tidy.heap.allocSafe _
        obtain ⟨rfl, rfl⟩ := Prod.mk.inj (Option.some.inj (h1.symm.trans h5))
        refine hc.next ⟨bs1, h7⟩ ⟨h2, h3.2 hcut⟩ h6 fun p b hp halloc => ?_
        rcases h4 p b hp halloc with rfl | ⟨hne, b', h8, h9⟩
        · rw [if_neg (by omega)]
          exact ⟨n, List.mem_cons_self⟩
        · obtain ⟨j, hj⟩ := hc.owned p b' h8 h9
          by_cases hq : q = 0
          · rw [if_pos hq]
            exact ⟨j, hj⟩
          · rw [if_neg hq]
            have hpa := hne hq
            exact ⟨j, List.mem_cons_of_mem _ (List.mem_filter.2 ⟨hj, by simpa using hpa⟩)⟩
      · rintro ⟨c', hs, hap⟩
        rw [hstep] at hs
        obtain rfl := Option.some.inj hs
        rw [h2.layout.blocks_eq] at hap
        exact h3.1 hap

end

private theorem tidyClient_init {m : Mem} {base size : Nat} (hbase : 32 ≤ base) (h16 : 16 ∣ base) (hsize : 32 ≤ size)
    (htop : base + size < 2 ^ 64) : TidyClient base size ⟨khInit m base size, []⟩ [⟨size - 32, false⟩] := by
  have hend : (khInit m base size).khEndAddr = base + size := add64_of_lt htop
  refine ⟨inv_init (by omega) hsize htop, ⟨⟨khInit_layout (by omega) hsize htop, hbase, ?_⟩, ?_⟩, ?_, rfl, hend⟩
  · intro a b hab
    rw [placed_cons, placed_nil, List.mem_singleton, Prod.mk.injEq] at hab
    rw [hab.1]
    exact h16
  · exact List.isChain_singleton _
  · intro a b hab halloc
    rw [placed_cons, placed_nil, List.mem_singleton, Prod.mk.injEq] at hab
    rw [hab.2] at halloc
    cases halloc

/-- In a run of legal calls from a new heap, all free neighbours are unified in every state, and a heap without live
pointers is the single block of `kh_init`, exactly if no call cuts a block in front of a free one. -/
theorem coalesced_iff {m : Mem} {base size : Nat} {ops : List HeapOp} (hbase : 32 ≤ base) (h16 : 16 ∣ base)
    (hsize : 32 ≤ size) (htop : base + size < 2 ^ 64)
    (hops : Machine.Meets Client.step (fun c op => c.Legal op ∧ op.DefaultAlign) ops ⟨khInit m base size, []⟩) :
    Machine.Meets Client.step Client.NoCutBeforeFree ops ⟨khInit m base size, []⟩ ↔
      Client.Coalesced base size ⟨khInit m base size, []⟩ ∧
        Machine.Always Client.step (fun _ _ c => c.Coalesced base size) ops ⟨khInit m base size, []⟩ := by
  have hinit := tidyClient_init (m := m) hbase h16 hsize htop
  have hiff : Machine.Meets Client.step Client.NoCutBeforeFree ops ⟨khInit m base size, []⟩ ↔
      Machine.Always Client.step (fun _ _ c => c.Coalesced base size) ops ⟨khInit m base size, []⟩ := by
    refine Machine.meets_iff_always_of (P := fun c => ∃ bs, TidyClient base size c bs) ?_ ?_ ⟨_, hinit⟩ hops
    · rintro c op ⟨bs, hc⟩ ⟨hlegal, halign⟩ hcut
      obtain ⟨c', bs', h1, h2⟩ := (hc.step hlegal halign).1 hcut
      exact ⟨c', h1, h2.coalesced (by omega), bs', h2⟩
    · rintro c op c' ⟨bs, hc⟩ ⟨hlegal, halign⟩ hstep hco
      exact (hc.step hlegal halign).2 ⟨c', hstep, hco.apart⟩
  rw [hiff]
  exact (and_iff_right (hinit.coalesced (by omega))).symm

instance (c : Client) (ptr : Nat) : Decidable (∃ n, (ptr, n) ∈ c.live) :=
  decidable_of_iff (ptr ∈ c.live.map Prod.fst) (by simp)

instance (c : Client) : ∀ op, Decidable (c.Legal op)
  | .alloc size align => inferInstanceAs (Decidable (size < 2 ^ 64 ∧ align < 2 ^ 64 ∧ isP2 align = true))
  | .realloc ptr size => inferInstanceAs (Decidable (size < 2 ^ 64 ∧ (ptr = 0 ∨ ∃ n, (ptr, n) ∈ c.live)))
  | .free ptr => inferInstanceAs (Decidable (ptr = 0 ∨ ∃ n, (ptr, n) ∈ c.live))
  | .store ptr i _ => inferInstanceAs (Decidable ((∃ n, (ptr, n) ∈ c.live) ∧ i < hdrSize c.heap.mem (ptr - 16)))

instance : ∀ op, Decidable (HeapOp.DefaultAlign op)
  | .alloc _ align => inferInstanceAs (Decidable (align = khDefaultAlign))
  | .realloc _ _ | .free _ | .store _ _ _ => isTrue trivial

/-- Two blocks, of which the second grows, are released on the heap of 512 bytes. -/
theorem coalesced_small :
    Machine.Meets Client.step Client.NoCutBeforeFree
        [.alloc 48 16, .alloc 32 16, .realloc 0x1060 64, .free 0x1010, .free 0x1060] ⟨smallHeap, []⟩ ↔
      Client.Coalesced 0x1000 512 ⟨smallHeap, []⟩ ∧
        Machine.Always Client.step (fun _ _ c => c.Coalesced 0x1000 512)
          [.alloc 48 16, .alloc 32 16, .realloc 0x1060 64, .free 0x1010, .free 0x1060] ⟨smallHeap, []⟩ :=
  coalesced_iff (by decide) (by decide) (by decide) (by decide) (by decide +kernel)

/-- A block is cut in front of a free one and released: the heap of 512 bytes ends as two free blocks. -/
theorem not_coalesced :
    Machine.Meets Client.step (fun c op => c.Legal op ∧ op.DefaultAlign)
        [.alloc 128 16, .realloc 0x1010 32, .free 0x1010] ⟨smallHeap, []⟩ ∧
      (∃ c, Machine.run Client.step [.alloc 128 16, .realloc 0x1010 32, .free 0x1010] ⟨smallHeap, []⟩ = some c ∧
        c.live = [] ∧ c.heap.blocks = [⟨128, false⟩, ⟨320, false⟩]) ∧
      ¬Machine.Always Client.step (fun _ _ c => c.Coalesced 0x1000 512)
        [.alloc 128 16, .realloc 0x1010 32, .free 0x1010] ⟨smallHeap, []⟩ := by
  have hrun : (Machine.run Client.step [.alloc 128 16, .realloc 0x1010 32, .free 0x1010] ⟨smallHeap, []⟩).any
      (fun c => c.live = [] ∧ c.heap.blocks = [⟨128, false⟩, ⟨320, false⟩]) = true := by decide +kernel
  obtain ⟨c, hc, hblocks⟩ := (Option.any_eq_true _ _).1 hrun
  obtain ⟨hlive, hblocks⟩ := of_decide_eq_true hblocks
  refine ⟨by decide, ⟨c, hc, hlive, hblocks⟩, ?_⟩
  rintro ⟨c1, h1, -, c2, h2, -, c3, h3, hco, -⟩
  simp only [Machine.run, h1, h2, h3, Option.bind_some, Option.some.injEq] at hc
  subst hc
  have hap := hco.apart
  rw [hblocks] at hap
  exact absurd hap (by decide)

end Pml.Kernel
