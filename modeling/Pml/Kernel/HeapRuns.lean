import Mathlib.Logic.Relation
import Mathlib.Data.List.Nodup
import Pml.Kernel.HeapRealloc

/-!
# Runs of the kernel heap

A client calls `kh_alloc_aligned`, `kh_realloc` and `kh_free` in any order, with pointers that it got from earlier
calls, and writes into the blocks it holds.  The heap stays tiled along every run in which no allocation is placed
at an unsafe position (`reachable_tiled`), and in such runs an allocation is sound (`reachable_alloc_sound`).
-/

namespace Pml.Kernel

open ByteMemory

/-! ### The blocks of a heap -/

def blocksFrom (h : Heap) : Nat → Nat → List Block
  | 0, _ => []
  | fuel + 1, a =>
    if h.khEndAddr ≤ a then []
    else ⟨hdrSize h.mem a, flagAlloc (hdrFlags h.mem a)⟩ :: blocksFrom h fuel (a + 32 + hdrSize h.mem a)

def Heap.blocks (h : Heap) : List Block := blocksFrom h (h.khEndAddr - h.khBaseAddr) h.khBaseAddr

private theorem blocksFrom_eq {h : Heap} {lo fuel : Nat} {bs : List Block}
    (hs : Segments (BlockAt h.mem) Block.len lo bs h.khEndAddr) (hfuel : bs.length ≤ fuel) :
    blocksFrom h fuel lo = bs := by
  induction bs generalizing lo fuel with
  | nil =>
    have hend : lo = h.khEndAddr := hs
    cases fuel with
    | zero => rfl
    | succ fuel => simp [blocksFrom, hend]
  | cons b bs ih =>
    obtain ⟨hb, hrest⟩ := hs
    have hle : lo + (b.size + 32) ≤ h.khEndAddr := hrest.le
    have hz : hdrSize h.mem lo = b.size := hb.hdr.size
    have hf : flagAlloc (hdrFlags h.mem lo) = b.alloc := by rw [hb.hdr.flags, flagAlloc_toNat]
    have e : lo + 32 + b.size = lo + b.len := by simp only [Block.len]; omega
    simp only [List.length_cons] at hfuel
    obtain ⟨fuel, rfl⟩ : ∃ k, fuel = k + 1 := ⟨fuel - 1, by omega⟩
    rw [blocksFrom, if_neg (by omega), hz, hf, e, ih hrest (by omega)]

theorem Layout.blocks_eq {h : Heap} {bs : List Block} (hl : Layout h bs) : h.blocks = bs :=
  blocksFrom_eq hl.segments (segments_length_le hl.segments)

theorem khInit_layout {m : Mem} {base size : Nat} (hbase : 16 ≤ base) (hsize : 32 ≤ size)
    (htop : base + size < 2 ^ 64) : Layout (khInit m base size) [⟨size - 32, false⟩] := by
  have e1 : sub64 (sub64 size 16) 16 = size - 32 := by
    rw [sub64_of_le (show 16 ≤ size by omega) (by omega), sub64_of_le (by omega) (by omega)]
    omega
  have e2 : add64 base size = base + size := add64_of_lt htop
  have e3 : sub64 (base + size) 16 = base + 16 + (size - 32) := by
    rw [sub64_of_le (by omega) htop]
    omega
  have hinit : khInit m base size =
      ⟨initTail (initHeader m base 0 (size - 32)) (base + 16 + (size - 32)) base, base, base + size, none⟩ := by
    simp only [khInit, khHeaderSize, khTailSize, e1, e2, e3]
  have hhdr : HeaderAt (initTail (initHeader m base 0 (size - 32)) (base + 16 + (size - 32)) base) base
      ⟨size - 32, false⟩ :=
    (headerAt_initHeader (m := m) (b := ⟨size - 32, false⟩) (show size - 32 < 2 ^ 64 by omega)).congr
      fun x _ _ => initTail_outside (by omega)
  rw [hinit]
  refine ⟨⟨⟨hhdr, tailAt_initTail (show base < 2 ^ 64 by omega)⟩, ?_⟩, hbase, htop⟩
  simp only [segments_nil, Block.len]
  omega

/-! ### Clients -/

/-- A heap and the pointers that were handed out, each with the size requested for it. -/
structure Client where
  heap : Heap
  live : List (Nat × Nat)

inductive HeapOp
  | alloc (size align : Nat)
  | realloc (ptr size : Nat)
  | free (ptr : Nat)
  | store (ptr i : Nat) (v : UInt8)

/-- One call, or one byte written to the block of a live pointer. -/
def Client.step (c : Client) : HeapOp → Option Client
  | .alloc size align => (khAllocAligned c.heap size align).map fun (h, p) =>
      ⟨h, if p = 0 then c.live else (p, size) :: c.live⟩
  | .realloc ptr size => (khRealloc c.heap ptr size).map fun (h, q) =>
      ⟨h, if q = 0 then c.live else (q, size) :: c.live.filter (·.1 ≠ ptr)⟩
  | .free ptr => some ⟨khFree c.heap ptr, c.live.filter (·.1 ≠ ptr)⟩
  | .store ptr i v => some { c with heap := { c.heap with mem := setByte c.heap.mem (ptr + i) v } }

/-- The operations that a client may perform: any size and any power-of-two alignment, but only live pointers. -/
def Client.Legal (c : Client) : HeapOp → Prop
  | .alloc size align => size < 2 ^ 64 ∧ align < 2 ^ 64 ∧ isP2 align = true
  | .realloc ptr size => size < 2 ^ 64 ∧ (ptr = 0 ∨ ∃ n, (ptr, n) ∈ c.live)
  | .free ptr => ptr = 0 ∨ ∃ n, (ptr, n) ∈ c.live
  | .store ptr i _ => (∃ n, (ptr, n) ∈ c.live) ∧ i < hdrSize c.heap.mem (ptr - 16)

/-- The allocation behind the operation, if there is one, is placed safely. -/
def Client.Safe (c : Client) : HeapOp → Prop
  | .alloc size align => AllocSafe c.heap.khBaseAddr c.heap.blocks (alignUp size 16) align
  | .realloc ptr size =>
    (ptr = 0 ∨ hdrSize c.heap.mem (ptr - 16) < alignUp size 16 ∧ ¬khNextFits c.heap (ptr - 16) (alignUp size 16)) →
      AllocSafe c.heap.khBaseAddr c.heap.blocks (alignUp size 16) 16
  | _ => True

def HeapStep (ok : Client → HeapOp → Prop) (c c' : Client) : Prop :=
  ∃ op, c.Legal op ∧ ok c op ∧ c.step op = some c'

def HeapRun (ok : Client → HeapOp → Prop) (m : Mem) (base size : Nat) (c : Client) : Prop :=
  Relation.ReflTransGen (HeapStep ok) ⟨khInit m base size, []⟩ c

/-- The invariant of safe runs: the heap is tiled, and every live pointer has an allocated block of its own, which
is large enough unless the rounding of the size wrapped. -/
structure Client.Inv (c : Client) (bs : List Block) : Prop where
  layout : Layout c.heap bs
  live : ∀ p n, (p, n) ∈ c.live → ∃ a b, p = a + 16 ∧ (a, b) ∈ placed Block.len c.heap.khBaseAddr bs ∧
    b.alloc = true ∧ (n ≤ 2 ^ 64 - 16 → n ≤ b.size)
  nodup : (c.live.map Prod.fst).Nodup

def SameRange (h h' : Heap) : Prop := h'.khBaseAddr = h.khBaseAddr ∧ h'.khEndAddr = h.khEndAddr

private theorem isP2_sixteen : isP2 16 = true := by decide

private theorem Client.Inv.carry {c : Client} {bs bs' : List Block} {h' : Heap} {keep : Nat → Prop} (hi : c.Inv bs)
    (hl : Layout h' bs') (hbase : h'.khBaseAddr = c.heap.khBaseAddr)
    (hcar : Carries c.heap.khBaseAddr c.heap.mem h'.mem bs bs' keep) {live : List (Nat × Nat)}
    (hsub : live.Sublist c.live) (hkeep : ∀ a n, (a + 16, n) ∈ live → keep a) : Client.Inv ⟨h', live⟩ bs' := by
  refine ⟨hl, ?_, (hsub.map Prod.fst).nodup hi.nodup⟩
  intro p n hp
  obtain ⟨a, b, rfl, h1, h2, h3⟩ := hi.live p n (hsub.subset hp)
  obtain ⟨b', h4, h5, h6, -⟩ := hcar a b h1 h2 (hkeep a n hp)
  refine ⟨a, b', rfl, ?_, h5, fun hn => Nat.le_trans (h3 hn) h6⟩
  show (a, b') ∈ placed Block.len h'.khBaseAddr bs'
  rw [hbase]
  exact h4

theorem Client.Inv.add {h : Heap} {live : List (Nat × Nat)} {bs : List Block} {a n : Nat} {b : Block}
    (hi : Client.Inv ⟨h, live⟩ bs) (hb : (a, b) ∈ placed Block.len h.khBaseAddr bs) (halloc : b.alloc = true)
    (hsize : n ≤ 2 ^ 64 - 16 → n ≤ b.size) (hfresh : ∀ k, (a + 16, k) ∉ live) :
    Client.Inv ⟨h, (a + 16, n) :: live⟩ bs := by
  refine ⟨hi.layout, ?_, ?_⟩
  · intro p k hp
    rcases List.mem_cons.1 hp with heq | hp
    · obtain ⟨rfl, rfl⟩ := Prod.mk.inj heq
      exact ⟨a, b, rfl, hb, halloc, hsize⟩
    · exact hi.live p k hp
  · rw [List.map_cons, List.nodup_cons]
    refine ⟨?_, hi.nodup⟩
    intro hmem
    obtain ⟨⟨p, k⟩, hp, hpa⟩ := List.mem_map.1 hmem
    simp only at hpa
    subst hpa
    exact hfresh k hp

private theorem filter_ne {live : List (Nat × Nat)} {ptr a n : Nat} (h : (a, n) ∈ live.filter (·.1 ≠ ptr)) :
    a ≠ ptr := by
  have h1 := (List.mem_filter.1 h).2
  simpa using h1

theorem Client.Inv.alloc {c : Client} {bs : List Block} {size align : Nat} (hi : c.Inv bs) (hp2 : isP2 align = true)
    (hsafe : AllocSafe c.heap.khBaseAddr bs (alignUp size 16) align) :
    ∃ h p bs', khAllocAligned c.heap size align = some (h, p) ∧ SameRange c.heap h ∧
      Client.Inv ⟨h, if p = 0 then c.live else (p, size) :: c.live⟩ bs' := by
  rcases khAllocAligned_spec size hi.layout hp2 hsafe with h1 | ⟨a, b, d, m', bs', hff, hd, hplace, h1, hA⟩
  · refine ⟨_, _, bs, h1, ⟨rfl, rfl⟩, ?_⟩
    simp only [↓reduceIte]
    exact ⟨⟨hi.layout.segments, hi.layout.base, hi.layout.top⟩, hi.live, hi.nodup⟩
  · refine ⟨_, _, bs', h1, ⟨rfl, rfl⟩, ?_⟩
    have hi' : Client.Inv ⟨{ c.heap with mem := m' }, c.live⟩ bs' :=
      hi.carry hA.layout rfl hA.carries (List.Sublist.refl _) fun _ _ _ => trivial
    obtain ⟨e, he1, he2, he3⟩ := hA.block
    have hp0 : a + 16 + d ≠ 0 := by omega
    have hpe : a + 16 + d = a + d + 16 := by omega
    rw [if_neg hp0, hpe]
    refine hi'.add he1 he2 (fun hn => ?_) fun k hk => ?_
    · have hle := le_alignUp_sixteen hn
      omega
    · obtain ⟨a', b', h2, h3, h4, -⟩ := hi.live _ _ hk
      have hfr := hA.fresh a' b' h3 h4
      omega

theorem Client.Inv.realloc {c : Client} {bs : List Block} {ptr n size : Nat} (hi : c.Inv bs)
    (hptr : (ptr, n) ∈ c.live) (hsize : size < 2 ^ 64)
    (hsafe : hdrSize c.heap.mem (ptr - 16) < alignUp size 16 → ¬khNextFits c.heap (ptr - 16) (alignUp size 16) →
      AllocSafe c.heap.khBaseAddr bs (alignUp size 16) 16) :
    ∃ h q bs', khRealloc c.heap ptr size = some (h, q) ∧ SameRange c.heap h ∧
      Client.Inv ⟨h, if q = 0 then c.live else (q, size) :: c.live.filter (·.1 ≠ ptr)⟩ bs' := by
  obtain ⟨a, ⟨s, f⟩, rfl, hb, rfl, -⟩ := hi.live ptr n hptr
  have hz : hdrSize c.heap.mem a = s := (hi.layout.segments.of_mem_placed hb).1.hdr.size
  rw [Nat.add_sub_cancel, hz] at hsafe
  obtain ⟨h, q, bs', h1, hR⟩ := khRealloc_spec hi.layout hb hsize hsafe
  refine ⟨h, q, bs', h1, ⟨hR.base, hR.top⟩, ?_⟩
  have hrest : Client.Inv ⟨h, c.live.filter (·.1 ≠ a + 16)⟩ bs' :=
    hi.carry hR.layout hR.base hR.carries List.filter_sublist fun a' k hk => by
      have hne := filter_ne hk
      omega
  rcases hR.result with ⟨rfl, hmem, rfl⟩ | ⟨a', e, rfl, he1, he2, he3, -, hfr⟩
  · simp only [↓reduceIte]
    refine hi.carry hR.layout hR.base ?_ (List.Sublist.refl _) fun _ _ _ => trivial
    rw [hmem]
    exact Carries.refl
  · have hp0 : a' + 16 ≠ 0 := by omega
    rw [if_neg hp0]
    rw [← hR.base] at he1
    refine hrest.add he1 he2 (fun hn => ?_) fun k hk => ?_
    · have hle := le_alignUp_sixteen hn
      omega
    · have hne := filter_ne hk
      obtain ⟨a2, b2, h2, h3, h4, -⟩ := hi.live _ _ (List.mem_filter.1 hk).1
      have hfr2 := hfr a2 b2 h3 h4
      omega

theorem Client.Inv.free {c : Client} {bs : List Block} {ptr n : Nat} (hi : c.Inv bs) (hptr : (ptr, n) ∈ c.live) :
    ∃ bs', SameRange c.heap (khFree c.heap ptr) ∧
      Client.Inv ⟨khFree c.heap ptr, c.live.filter (·.1 ≠ ptr)⟩ bs' := by
  obtain ⟨a, b, rfl, hb, -, -⟩ := hi.live ptr n hptr
  obtain ⟨pre, post, rfl, hpre, -, -⟩ := hi.layout.segments.split_placed hb
  obtain ⟨m', h1, h2, h3⟩ := khFree_spec hi.layout hpre
  rw [h1]
  refine ⟨_, ⟨rfl, rfl⟩, hi.carry h2 rfl h3 List.filter_sublist fun a' k hk => ?_⟩
  have hne := filter_ne hk
  omega

theorem Client.Inv.store {c : Client} {bs : List Block} {ptr n i : Nat} {v : UInt8} (hi : c.Inv bs)
    (hptr : (ptr, n) ∈ c.live) (hlt : i < hdrSize c.heap.mem (ptr - 16)) :
    Client.Inv { c with heap := { c.heap with mem := setByte c.heap.mem (ptr + i) v } } bs := by
  obtain ⟨a, b, rfl, hb, -, -⟩ := hi.live ptr n hptr
  have hz : hdrSize c.heap.mem a = b.size := (hi.layout.segments.of_mem_placed hb).1.hdr.size
  rw [Nat.add_sub_cancel, hz] at hlt
  have hout : ∀ x, x < a + 16 ∨ a + 16 + b.size ≤ x → setByte c.heap.mem (a + 16 + i) v x = c.heap.mem x :=
    fun x hx => setByte_of_ne (by omega)
  obtain ⟨h1, -⟩ := hi.layout.store hb hout
  exact ⟨h1, hi.live, hi.nodup⟩

theorem Client.Inv.step {c : Client} {bs : List Block} {op : HeapOp} (hi : c.Inv bs) (hlegal : c.Legal op)
    (hsafe : c.Safe op) : ∃ c' bs', c.step op = some c' ∧ SameRange c.heap c'.heap ∧ c'.Inv bs' := by
  have hblocks := hi.layout.blocks_eq
  cases op with
  | alloc size align =>
    obtain ⟨-, -, hp2⟩ := hlegal
    simp only [Client.Safe, hblocks] at hsafe
    obtain ⟨h, p, bs', h1, h2, h3⟩ := hi.alloc hp2 hsafe
    exact ⟨_, bs', by rw [Client.step, h1]; rfl, h2, h3⟩
  | realloc ptr size =>
    obtain ⟨hsize, hptr⟩ := hlegal
    simp only [Client.Safe, hblocks] at hsafe
    rcases hptr with rfl | ⟨n, hptr⟩
    · -- a null pointer makes it an allocation; no live pointer is null
      have hfilter : c.live.filter (·.1 ≠ 0) = c.live := by
        refine List.filter_eq_self.2 fun ⟨p, n⟩ hp => ?_
        obtain ⟨a, b, rfl, -⟩ := hi.live p n hp
        simp
      obtain ⟨h, p, bs', h1, h2, h3⟩ := hi.alloc isP2_sixteen (hsafe (Or.inl rfl))
      have h1' : khRealloc c.heap 0 size = some (h, p) := by simpa [khRealloc] using h1
      refine ⟨_, bs', by rw [Client.step, h1']; rfl, h2, ?_⟩
      rw [hfilter]
      exact h3
    · obtain ⟨h, q, bs', h1, h2, h3⟩ := hi.realloc hptr hsize fun h1 h2 => hsafe (Or.inr ⟨h1, h2⟩)
      exact ⟨_, bs', by rw [Client.step, h1]; rfl, h2, h3⟩
  | free ptr =>
    rcases hlegal with rfl | ⟨n, hptr⟩
    · refine ⟨_, bs, rfl, by simp [khFree, SameRange], ?_⟩
      have hi' : Client.Inv ⟨c.heap, c.live.filter (·.1 ≠ 0)⟩ bs :=
        hi.carry hi.layout rfl Carries.refl List.filter_sublist fun _ _ _ => trivial
      simpa [khFree] using hi'
    · obtain ⟨bs', h1, h2⟩ := hi.free hptr
      exact ⟨_, bs', rfl, h1, h2⟩
  | store ptr i v =>
    obtain ⟨⟨n, hptr⟩, hlt⟩ := hlegal
    exact ⟨_, bs, rfl, ⟨rfl, rfl⟩, hi.store hptr hlt⟩

theorem inv_init {m : Mem} {base size : Nat} (hbase : 16 ≤ base) (hsize : 32 ≤ size) (htop : base + size < 2 ^ 64) :
    Client.Inv ⟨khInit m base size, []⟩ [⟨size - 32, false⟩] :=
  ⟨khInit_layout hbase hsize htop, by simp, by simp⟩

theorem HeapRun.inv {ok : Client → HeapOp → Prop} {m : Mem} {base size : Nat} {c : Client}
    (hok : ∀ c op, ok c op → c.Safe op) (hbase : 16 ≤ base) (hsize : 32 ≤ size) (htop : base + size < 2 ^ 64)
    (hr : HeapRun ok m base size c) : SameRange (khInit m base size) c.heap ∧ ∃ bs, c.Inv bs := by
  induction hr with
  | refl => exact ⟨⟨rfl, rfl⟩, _, inv_init hbase hsize htop⟩
  | tail _ hstep ih =>
    obtain ⟨hrange, bs, hi⟩ := ih
    obtain ⟨op, hlegal, hsafe, hs⟩ := hstep
    obtain ⟨c', bs', h1, h2, h3⟩ := hi.step hlegal (hok _ _ hsafe)
    rw [h1] at hs
    obtain rfl := Option.some.inj hs
    exact ⟨⟨h2.1.trans hrange.1, h2.2.trans hrange.2⟩, bs', h3⟩

/-! ### A new heap of 512 bytes -/

def smallHeap : Heap := khInit (fun _ => 0) 0x1000 512

private theorem smallHeap_layout : Layout smallHeap [⟨480, false⟩] :=
  khInit_layout (by decide) (by decide) (by decide)

private theorem smallHeap_alloc (n align block : Nat) (hp2 : isP2 align = true)
    (hfit : Fits (alignUp n 16) align 0x1000 ⟨480, false⟩) (hblock : alignUp 0x1010 align = block) :
    khAllocAligned smallHeap n align =
      some ((khTake smallHeap (alignUp n 16) align (.found 0x1000 0x11f0 block)).1, block) := by
  have h1 : firstFit (alignUp n 16) align smallHeap.khBaseAddr [⟨480, false⟩] = some (0x1000, ⟨480, false⟩) :=
    if_pos hfit
  rw [khAllocAligned_firstFit n smallHeap_layout hp2, h1, searchResult, hblock]
  rfl

private theorem smallHeap_safe : AllocSafe 0x1000 [⟨480, false⟩] 32 16 := by
  intro a b hff
  have h1 : firstFit 32 16 0x1000 [⟨480, false⟩] = some (0x1000, ⟨480, false⟩) := by decide
  rw [h1] at hff
  obtain ⟨rfl, rfl⟩ := Prod.mk.inj (Option.some.inj hff)
  exact ⟨0, by decide, Or.inl rfl, fun _ => Or.inl rfl, Or.inl (by decide), by decide⟩

def smallClient : Client := ⟨(khTake smallHeap 32 16 (.found 0x1000 0x11f0 0x1010)).1, [(0x1010, 32)]⟩

private theorem smallClient_run {ok : Client → HeapOp → Prop}
    (hok : Client.Safe ⟨smallHeap, []⟩ (.alloc 32 16) → ok ⟨smallHeap, []⟩ (.alloc 32 16)) :
    HeapRun ok (fun _ => 0) 0x1000 512 smallClient := by
  have hcall := smallHeap_alloc 32 16 0x1010 (by decide) (by decide) (by decide)
  have hsafe : Client.Safe ⟨smallHeap, []⟩ (.alloc 32 16) := by
    show AllocSafe 0x1000 smallHeap.blocks 32 16
    rw [smallHeap_layout.blocks_eq]
    exact smallHeap_safe
  refine Relation.ReflTransGen.single ⟨.alloc 32 16, ⟨by decide, by decide, by decide⟩, hok hsafe, ?_⟩
  have h1 : Client.step ⟨smallHeap, []⟩ (.alloc 32 16) =
      some ⟨(khTake smallHeap (alignUp 32 16) 16 (.found 0x1000 0x11f0 0x1010)).1, [(0x1010, 32)]⟩ := by
    simp [Client.step, hcall]
  exact h1

/-- Along every safe run the heap is cut into blocks, and every further safe call returns. -/
theorem reachable_tiled {m : Mem} {base size : Nat} {c : Client} (hbase : 16 ≤ base) (hsize : 32 ≤ size)
    (htop : base + size < 2 ^ 64) (hr : HeapRun Client.Safe m base size c) :
    Tiled c.heap ∧ c.heap.khBaseAddr = base ∧ c.heap.khEndAddr = base + size ∧
      ∀ op, c.Legal op → c.Safe op → ∃ c', c.step op = some c' := by
  obtain ⟨⟨h1, h2⟩, bs, hi⟩ := hr.inv (fun _ _ h => h) hbase hsize htop
  have hend : (khInit m base size).khEndAddr = base + size := add64_of_lt htop
  refine ⟨hi.layout.tiled, h1, h2.trans hend, fun op hlegal hsafe => ?_⟩
  obtain ⟨c', bs', h3, -⟩ := hi.step hlegal hsafe
  exact ⟨c', h3⟩

/-- The run of one allocation on the small heap. -/
theorem reachable_tiled_small : HeapRun Client.Safe (fun _ => 0) 0x1000 512 smallClient ∧ Tiled smallClient.heap := by
  have hr : HeapRun Client.Safe (fun _ => 0) 0x1000 512 smallClient := smallClient_run fun h => h
  exact ⟨hr, (reachable_tiled (by decide) (by decide) (by decide) hr).1⟩

/-- An allocation of 208 bytes at a multiple of 256 leaves a tail that points to the old header. -/
theorem not_reachable_tiled : ∃ c, HeapRun (fun _ _ => True) (fun _ => 0) 0x1000 512 c ∧ ¬Tiled c.heap := by
  have hcall := smallHeap_alloc 208 256 0x1100 (by decide) (by decide) (by decide)
  refine ⟨⟨(khTake smallHeap 208 256 (.found 0x1000 0x11f0 0x1100)).1, [(0x1100, 208)]⟩, ?_, ?_⟩
  · refine Relation.ReflTransGen.single ⟨.alloc 208 256, ⟨by decide, by decide, by decide⟩, trivial, ?_⟩
    have h1 : Client.step ⟨smallHeap, []⟩ (.alloc 208 256) =
        some ⟨(khTake smallHeap (alignUp 208 16) 256 (.found 0x1000 0x11f0 0x1100)).1, [(0x1100, 208)]⟩ := by
      simp [Client.step, hcall]
    exact h1
  · generalize hh : (khTake smallHeap 208 256 (.found 0x1000 0x11f0 0x1100)).1 = h
    have hbase : h.khBaseAddr = 0x1000 := by rw [← hh]; rfl
    have hend : h.khEndAddr = 0x1200 := by rw [← hh]; rfl
    have e1 : hdrSize h.mem 0x1000 = 208 := by rw [← hh]; decide
    have e2 : hdrSize h.mem 0x10f0 = 240 := by rw [← hh]; decide
    have e3 : tailHeader h.mem 0x11f0 = 0x1000 := by rw [← hh]; decide
    rintro ⟨sizes, hs⟩
    simp only [hbase, hend] at hs
    -- the sizes in the headers lead to the tail at 0x11f0, which should point to 0x10f0
    rcases sizes with _ | ⟨s, _ | ⟨t, sizes⟩⟩
    · simp at hs
    · obtain ⟨⟨-, rfl, -⟩, h1⟩ := hs
      rw [e1] at h1
      simp at h1
    · obtain ⟨⟨-, rfl, -⟩, ⟨⟨-, h2, -, h3⟩, -⟩⟩ := hs
      simp only [e1, Nat.reduceAdd, e2] at h2 h3
      subst h2
      simp [e3] at h3

/-! ### Soundness of allocation -/

def HeapOp.NoWrap : HeapOp → Prop
  | .alloc size _ => size ≤ 2 ^ 64 - 16
  | .realloc _ size => size ≤ 2 ^ 64 - 16
  | _ => True

/-- What a client may expect of the result `p` of an allocation of `size` bytes that leaves the heap `h'`. -/
structure AllocSound (c : Client) (size align : Nat) (h' : Heap) (p : Nat) : Prop where
  aligned : align ∣ p
  header : 16 ≤ p ∧ hdrMagic h'.mem (p - 16) = khHeaderMagic ∧ flagAlloc (hdrFlags h'.mem (p - 16)) = true
  own : ∃ b, (p - 16, b) ∈ placed Block.len h'.khBaseAddr h'.blocks ∧ size ≤ b.size
  range : h'.khBaseAddr ≤ p ∧ p + size ≤ h'.khEndAddr
  live : ∀ q n, (q, n) ∈ c.live → p + size ≤ q ∨ q + n ≤ p
  blocks : ∀ a b, (a, b) ∈ placed Block.len h'.khBaseAddr h'.blocks →
    (p + size ≤ a ∨ a + 16 ≤ p) ∧ (p + size ≤ a + 16 + b.size ∨ a + 32 + b.size ≤ p)

private theorem HeapRun.live_le {m : Mem} {base size : Nat} {c : Client}
    (hr : HeapRun (fun c op => c.Safe op ∧ op.NoWrap) m base size c) :
    ∀ p n, (p, n) ∈ c.live → n ≤ 2 ^ 64 - 16 := by
  induction hr with
  | refl => simp
  | @tail c c' _ hstep ih =>
    obtain ⟨op, -, ⟨-, hwrap⟩, hs⟩ := hstep
    intro p n hp
    cases op with
    | alloc size align =>
      obtain ⟨⟨h, q⟩, -, rfl⟩ := Option.map_eq_some_iff.1 hs
      simp only at hp
      split at hp
      · exact ih p n hp
      · rcases List.mem_cons.1 hp with heq | hp
        · obtain ⟨-, rfl⟩ := Prod.mk.inj heq
          exact hwrap
        · exact ih p n hp
    | realloc ptr size =>
      obtain ⟨⟨h, q⟩, -, rfl⟩ := Option.map_eq_some_iff.1 hs
      simp only at hp
      split at hp
      · exact ih p n hp
      · rcases List.mem_cons.1 hp with heq | hp
        · obtain ⟨-, rfl⟩ := Prod.mk.inj heq
          exact hwrap
        · exact ih p n (List.mem_filter.1 hp).1
    | free ptr =>
      obtain rfl := Option.some.inj hs
      exact ih p n (List.mem_filter.1 hp).1
    | store ptr i v =>
      obtain rfl := Option.some.inj hs
      exact ih p n hp

/-- A block of the heap that is large enough for the request gives a sound result. -/
private theorem allocSound_of_block {c : Client} {h' : Heap} {bs bs' : List Block} {a n align : Nat} {b : Block}
    (hi : c.Inv bs) (hl : Layout h' bs') (hrange : h'.khBaseAddr = c.heap.khBaseAddr)
    (hcar : Carries c.heap.khBaseAddr c.heap.mem h'.mem bs bs' fun _ => True)
    (hb : (a, b) ∈ placed Block.len h'.khBaseAddr bs') (halloc : b.alloc = true) (hn : n ≤ b.size)
    (hfresh : ∀ p e, (p, e) ∈ placed Block.len c.heap.khBaseAddr bs → e.alloc = true → p ≠ a)
    (hle : ∀ p k, (p, k) ∈ c.live → k ≤ 2 ^ 64 - 16) (hdvd : align ∣ a + 16) :
    AllocSound c n align h' (a + 16) := by
  obtain ⟨⟨hhdr, -⟩, hlo, hhi⟩ := hl.segments.of_mem_placed hb
  have hlen : b.len = b.size + 32 := rfl
  refine ⟨hdvd, ⟨by omega, ?_, ?_⟩, ⟨b, ?_, hn⟩, ⟨by omega, by omega⟩, ?_, ?_⟩
  · rw [Nat.add_sub_cancel]
    exact hhdr.magic
  · rw [Nat.add_sub_cancel, hhdr.flags, flagAlloc_toNat, halloc]
  · rw [Nat.add_sub_cancel, hl.blocks_eq]
    exact hb
  · intro q k hq
    obtain ⟨a', e, rfl, h1, h2, h3⟩ := hi.live q k hq
    have hne := hfresh a' e h1 h2
    obtain ⟨e', h4, -, h6, -⟩ := hcar a' e h1 h2 trivial
    rw [← hrange] at h4
    have hk := h3 (hle _ _ hq)
    have hd := hl.segments.placed_disjoint hb h4
    have hlen' : e'.len = e'.size + 32 := rfl
    omega
  · intro a' e he
    rw [hl.blocks_eq] at he
    have hd := hl.segments.placed_disjoint hb he
    have hlen' : e.len = e.size + 32 := rfl
    rcases hd with ⟨rfl, rfl⟩ | hd
    · omega
    · omega

/-- In every state of a safe run, a safe allocation returns, and a result other than null is sound. -/
theorem reachable_alloc_sound {m : Mem} {base size : Nat} {c : Client} {n align : Nat} (hbase : 16 ≤ base)
    (hsize : 32 ≤ size) (htop : base + size < 2 ^ 64)
    (hr : HeapRun (fun c op => c.Safe op ∧ op.NoWrap) m base size c) (hn : n ≤ 2 ^ 64 - 16) (halign : align < 2 ^ 64)
    (hp2 : isP2 align = true) (hsafe : AllocSafe c.heap.khBaseAddr c.heap.blocks (alignUp n 16) align) :
    ∃ h' p, khAllocAligned c.heap n align = some (h', p) ∧ (p ≠ 0 → AllocSound c n align h' p) := by
  obtain ⟨-, bs, hi⟩ := hr.inv (fun _ _ h => h.1) hbase hsize htop
  rw [hi.layout.blocks_eq] at hsafe
  rcases khAllocAligned_spec n hi.layout hp2 hsafe with h1 | ⟨a, b, d, m', bs', hff, hd, -, h1, hA⟩
  · exact ⟨_, _, h1, fun h => absurd rfl h⟩
  · refine ⟨_, _, h1, fun _ => ?_⟩
    obtain ⟨e, he1, he2, he3⟩ := hA.block
    have hle := le_alignUp_sixteen hn
    have hdvd : align ∣ a + d + 16 := by
      obtain ⟨k, rfl⟩ := isP2_iff.1 hp2
      obtain ⟨-, -, hin⟩ := hi.layout.segments.of_mem_placed (firstFit_eq_some hff).1
      have htop' := hi.layout.top
      simp only [Block.len] at hin
      have hk : k ≤ 64 := by
        have hlt := (Nat.pow_lt_pow_iff_right (by decide)).1 halign
        omega
      have h2 := dvd_alignUp (show 0 < a + 16 by omega) (by omega) hk
      rw [hd] at h2
      have e1 : a + d + 16 = a + 16 + d := by omega
      rwa [e1]
    have e1 : a + 16 + d = a + d + 16 := by omega
    rw [e1]
    exact allocSound_of_block hi hA.layout rfl hA.carries he1 he2 (by omega) hA.fresh hr.live_le hdvd

/-- A second allocation on the small heap. -/
theorem reachable_alloc_sound_small : ∃ h' p, khAllocAligned smallClient.heap 48 64 = some (h', p) ∧
    (p ≠ 0 → AllocSound smallClient 48 64 h' p) := by
  have hr : HeapRun (fun c op => c.Safe op ∧ op.NoWrap) (fun _ => 0) 0x1000 512 smallClient :=
    smallClient_run fun h => ⟨h, by show 32 ≤ 2 ^ 64 - 16; decide⟩
  have hblocks : smallClient.heap.blocks = [⟨32, true⟩, ⟨416, false⟩] := by decide
  refine reachable_alloc_sound (by decide) (by decide) (by decide) hr (by decide) (by decide) (by decide) ?_
  rw [hblocks]
  intro a b hff
  have h1 : firstFit (alignUp 48 16) 64 0x1000 [⟨32, true⟩, ⟨416, false⟩] = some (0x1040, ⟨416, false⟩) := by decide
  rw [show smallClient.heap.khBaseAddr = 0x1000 from rfl, h1] at hff
  obtain ⟨rfl, rfl⟩ := Prod.mk.inj (Option.some.inj hff)
  exact ⟨48, by decide, Or.inr (by decide), by decide, Or.inl (by decide), by decide⟩

/-- An allocation at a multiple of 32 moves the header of the first block past the pointer that it returns. -/
theorem not_reachable_alloc_sound : ∃ c h' p, HeapRun (fun _ _ => True) (fun _ => 0) 0x1000 512 c ∧
    c.Legal (.alloc 32 32) ∧ khAllocAligned c.heap 32 32 = some (h', p) ∧ p ≠ 0 ∧ ¬AllocSound c 32 32 h' p := by
  have hcall := smallHeap_alloc 32 32 0x1020 (by decide) (by decide) (by decide)
  have hlegal : Client.Legal ⟨smallHeap, []⟩ (.alloc 32 32) := ⟨by decide, by decide, by decide⟩
  refine ⟨⟨smallHeap, []⟩, _, _, Relation.ReflTransGen.refl, hlegal, hcall, by decide, fun hs => ?_⟩
  have hmagic := hs.header.2.1
  revert hmagic
  decide

end Pml.Kernel
