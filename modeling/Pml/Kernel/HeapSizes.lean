import Pml.Kernel.HeapRuns

/-!
# The sizes of heap blocks

`kh_alloc_aligned` and `kh_realloc` round the requested size up in 64-bit arithmetic, and `calloc` multiplies its
arguments in it.  A result other than null is a block of the requested size exactly when nothing wraps and the
block is not moved up inside the first header of the heap (`sizes_honoured_iff`).
-/

namespace Pml.Kernel

open ByteMemory

/-! ### Aligned heaps -/

/-- A tiled heap as the calls with valid arguments leave it: each header lies at a multiple of 16. -/
structure AlignedHeap (h : Heap) (bs : List Block) : Prop where
  layout : Layout h bs
  base : 32 ≤ h.khBaseAddr
  aligned : ∀ a b, (a, b) ∈ placed Block.len h.khBaseAddr bs → 16 ∣ a

private theorem alignUp_distance {align a : Nat} (hp2 : isP2 align = true) (halign : align < 2 ^ 64) (ha : 16 ∣ a)
    (htop : a + 16 < 2 ^ 64) (hne : alignUp (a + 16) align ≠ 0) :
    ∃ d, alignUp (a + 16) align = a + 16 + d ∧ 16 ∣ d := by
  obtain ⟨k, rfl⟩ := isP2_iff.1 hp2
  have hk : k < 64 := (Nat.pow_lt_pow_iff_right (by decide)).1 halign
  have hle : a + 16 ≤ alignUp (a + 16) (2 ^ k) :=
    (alignUp_eq_zero_or_le (by omega) htop (by omega)).resolve_left hne
  have hdvd := dvd_alignUp (show 0 < a + 16 by omega) htop (show k ≤ 64 by omega)
  have hlt := alignUp_lt (k := k) (show 0 < a + 16 by omega) htop
  refine ⟨alignUp (a + 16) (2 ^ k) - (a + 16), by omega, ?_⟩
  have h16 : 16 ∣ a + 16 := Nat.dvd_add ha (Nat.dvd_refl 16)
  rcases Nat.lt_or_ge k 4 with h4 | h4
  · -- a smaller alignment already holds
    have h1 : 2 ^ k ∣ a + 16 := Nat.dvd_trans (Nat.pow_dvd_pow 2 (show k ≤ 4 by omega)) h16
    have h2 : 2 ^ k ∣ alignUp (a + 16) (2 ^ k) - (a + 16) := Nat.dvd_sub hdvd h1
    have h3 : alignUp (a + 16) (2 ^ k) - (a + 16) = 0 := Nat.eq_zero_of_dvd_of_lt h2 (by omega)
    rw [h3]
    exact Nat.dvd_zero 16
  · exact Nat.dvd_sub (Nat.dvd_trans (Nat.pow_dvd_pow 2 h4) hdvd) h16

section

variable {h : Heap} {bs : List Block} (hal : AlignedHeap h bs)
include hal

private theorem AlignedHeap.fit {n align a : Nat} {b : Block} (hff : firstFit n align h.khBaseAddr bs = some (a, b)) :
    16 ∣ a ∧ h.khBaseAddr ≤ a ∧ a + 32 + b.size ≤ h.khEndAddr ∧ b.alloc = false ∧
      alignUp (a + 16) align < a + 16 + b.size ∧ n ≤ a + 16 + b.size - alignUp (a + 16) align := by
  obtain ⟨hmem, hfree, hlt, hn⟩ := firstFit_eq_some hff
  obtain ⟨-, hlo, hhi⟩ := hal.layout.segments.of_mem_placed hmem
  have hlen : b.len = b.size + 32 := rfl
  exact ⟨hal.aligned a b hmem, hlo, by omega, hfree, hlt, hn⟩

theorem AlignedHeap.allocSafe (n : Nat) : AllocSafe h.khBaseAddr bs n khDefaultAlign := by
  intro a b hff
  obtain ⟨ha, hlo, hhi, -, -, hn⟩ := hal.fit hff
  have hbase := hal.base
  have htop := hal.layout.top
  have hup : alignUp (a + 16) 16 = a + 16 := by
    rw [alignUp_sixteen (by omega)]
    omega
  dsimp only [khDefaultAlign] at *
  rw [hup] at hn ⊢
  exact ⟨0, rfl, Or.inl rfl, fun _ => Or.inl rfl, Or.inl (by omega), by omega⟩

end

/-! ### The block behind a result -/

private theorem blocksFrom_reaches {h : Heap} {lo a : Nat} {pre : List Block} (fuel : Nat)
    (hpre : Segments (BlockAt h.mem) Block.len lo pre a) (ha : a < h.khEndAddr) (hfuel : pre.length < fuel) :
    (a, ⟨hdrSize h.mem a, flagAlloc (hdrFlags h.mem a)⟩) ∈ placed Block.len lo (blocksFrom h fuel lo) := by
  induction pre generalizing lo fuel with
  | nil =>
    obtain rfl : lo = a := hpre
    obtain ⟨fuel, rfl⟩ : ∃ k, fuel = k + 1 := ⟨fuel - 1, by simp at hfuel; omega⟩
    rw [blocksFrom, if_neg (by omega)]
    exact List.mem_cons_self
  | cons b pre ih =>
    obtain ⟨hb, hrest⟩ := hpre
    have hle : lo + (b.size + 32) ≤ a := hrest.le
    have hz : hdrSize h.mem lo = b.size := hb.hdr.size
    have e : lo + 32 + b.size = lo + b.len := by simp only [Block.len]; omega
    simp only [List.length_cons] at hfuel
    obtain ⟨fuel, rfl⟩ : ∃ k, fuel = k + 1 := ⟨fuel - 1, by omega⟩
    rw [blocksFrom, if_neg (by omega), placed_cons, hz, e]
    exact List.mem_cons_of_mem _ (ih fuel hrest (by omega))

private theorem placed_far {lo a : Nat} {bs : List Block} {b : Block} (hb : (a, b) ∈ placed Block.len lo bs) :
    a = lo ∨ lo + 32 ≤ a := by
  cases bs with
  | nil => simp at hb
  | cons c bs =>
    rw [placed_cons, List.mem_cons, Prod.mk.injEq] at hb
    rcases hb with ⟨rfl, -⟩ | hb
    · exact Or.inl rfl
    · have h1 := le_of_mem_placed hb
      simp only [Block.len] at h1
      omega

/-- `p` points to the data of an allocated block of the heap with at least `n` bytes, all inside the heap. -/
def Honoured (h : Heap) (p n : Nat) : Prop :=
  16 ≤ p ∧ p + n ≤ h.khEndAddr ∧
    ∃ b, (p - 16, b) ∈ placed Block.len h.khBaseAddr h.blocks ∧ b.alloc = true ∧ n ≤ b.size

private theorem khSplit_header {m : Mem} {a s n : Nat} (hb : HeaderAt m a ⟨s, false⟩)
    (hmagic : tailMagic m (a + 16 + s) = khTailMagic) (htop : a + 32 + s < 2 ^ 64) (hn : n ≤ s)
    (hn' : n + 64 < 2 ^ 64) :
    ∃ k, n ≤ k ∧ HeaderAt (setHdrFlags (khSplit m a (a + 16 + s) n) a
        (hdrFlags (khSplit m a (a + 16 + s) n) a ||| 1)) a ⟨k, true⟩ ∧
      ∀ x, x < a → setHdrFlags (khSplit m a (a + 16 + s) n) a
        (hdrFlags (khSplit m a (a + 16 + s) n) a ||| 1) x = m x := by
  by_cases hcut : n + 64 ≤ s
  · obtain ⟨hc, hout⟩ := khSplit_spec hb hmagic htop hn hn' (Or.inl hcut)
    rw [carve, if_pos hcut] at hc
    exact ⟨n, Nat.le_refl n, hc.1.hdr, fun x hx => hout x (Or.inl hx)⟩
  · have hsz : hdrSize m a = s := hb.size
    have hfl : hdrFlags m a = 0 := hb.flags
    have hsplit : khSplit m a (a + 16 + s) n = m := by
      simp only [khSplit, khHeaderSize, khTailSize, khMinBlockSplitSize, Nat.reduceAdd, add64_of_lt hn', hsz, hcut,
        ↓reduceIte]
    rw [hsplit, hfl]
    exact ⟨s, hn, hb.setFlags true, fun x hx => setHdrFlags_outside (by omega)⟩

/-! ### `kh_alloc_aligned` -/

/-- The request for `size` bytes at a multiple of `align`, `n` bytes after the rounding, finds no block, or it finds
one without a wrap and without a header that has to move twice. -/
def AllocOk (base : Nat) (bs : List Block) (size n align : Nat) : Prop :=
  ∀ a b, firstFit n align base bs = some (a, b) → alignUp (a + 16) align ≠ 0 →
    size ≤ 2 ^ 64 - 16 ∧ ¬(a = base ∧ a + 16 < alignUp (a + 16) align ∧ alignUp (a + 16) align < a + 48)

/-- A block that moves up to a place with enough room is large enough. -/
private theorem khTake_honoured {h : Heap} {bs : List Block} {n align a d : Nat} {b : Block} (hal : AlignedHeap h bs)
    (hff : firstFit n align h.khBaseAddr bs = some (a, b)) (hd : alignUp (a + 16) align = a + 16 + d) (h16 : 16 ∣ d)
    (hfirst : a = h.khBaseAddr → d = 0 ∨ 32 ≤ d) :
    Honoured (khTake h n align (.found a (a + 16 + b.size) (a + 16 + d))).1 (a + 16 + d) n := by
  obtain ⟨ha, hlo, hhi, hfree, hlt, hn⟩ := hal.fit hff
  obtain ⟨pre, post, rfl, hpre, hb, -⟩ := hal.layout.segments.split_placed (firstFit_eq_some hff).1
  have hbase := hal.base
  have htop := hal.layout.top
  obtain ⟨s, f⟩ := b
  obtain rfl : f = false := hfree
  dsimp only at *
  rw [hd] at hlt hn
  obtain ⟨hq, hmv⟩ := khPlace_moved (d := d) hb (by omega) (by omega) align hpre hal.layout.base (by omega) hfirst
  generalize hpl : khPlace h.mem h.khBaseAddr align a (a + 16 + s) (a + 16 + d) = pl at hq hmv
  obtain ⟨m1, hdr⟩ := pl
  obtain rfl : hdr = a + d := hq
  have et : a + 16 + s = a + d + 16 + (s - d) := by omega
  have hmg := hmv.magic
  rw [et] at hmg
  obtain ⟨k, hk, hhdr, hbelow⟩ := khSplit_header hmv.hdr hmg (by omega) (show n ≤ s - d by omega) (by omega)
  rw [← et] at hhdr hbelow
  simp only [khTake, hpl]
  generalize setHdrFlags (khSplit m1 (a + d) (a + 16 + s) n) (a + d)
    (hdrFlags (khSplit m1 (a + d) (a + 16 + s) n) (a + d) ||| 1) = m2 at hhdr hbelow
  refine ⟨by omega, by dsimp only; omega, ⟨k, true⟩, ?_, rfl, hk⟩
  have hbefore : Segments (BlockAt m2) Block.len h.khBaseAddr (slack d pre) (a + d) :=
    segments_congr hmv.before fun x _ hx => hbelow x hx
  have hlen := segments_length_le hbefore
  have hreach := blocksFrom_reaches (h := ⟨m2, h.khBaseAddr, h.khEndAddr, h.errno⟩)
    (h.khEndAddr - h.khBaseAddr) hbefore (by dsimp only; omega) (by omega)
  have e : a + 16 + d - 16 = a + d := by omega
  rw [hhdr.size, hhdr.flags, flagAlloc_toNat] at hreach
  rw [e]
  exact hreach

/-- `kh_alloc_aligned` returns, and a result other than null is honoured exactly if the request is fine. -/
private theorem khAllocAligned_honoured_iff {h : Heap} {bs : List Block} {size align : Nat} (hal : AlignedHeap h bs)
    (hsize : size < 2 ^ 64) (halign : align < 2 ^ 64) :
    ∃ h' p, khAllocAligned h size align = some (h', p) ∧ ((p ≠ 0 → Honoured h' p size) ↔
      (isP2 align = true → AllocOk h.khBaseAddr bs size (alignUp size 16) align)) := by
  by_cases hp2 : isP2 align = true
  swap
  · refine ⟨_, 0, by rw [khAllocAligned, if_pos (by simpa using hp2)], ?_⟩
    exact ⟨fun _ h => absurd h hp2, fun _ h => absurd rfl h⟩
  rw [khAllocAligned_firstFit size hal.layout hp2]
  refine ⟨_, _, rfl, ?_⟩
  simp only [hp2, forall_const]
  cases hff : firstFit (alignUp size 16) align h.khBaseAddr bs with
  | none =>
    refine ⟨fun _ a b hff' => ?_, fun _ h => absurd rfl h⟩
    rw [hff] at hff'
    cases hff'
  | some ab =>
    obtain ⟨a, b⟩ := ab
    obtain ⟨ha, hlo, hhi, hfree, hlt, hn⟩ := hal.fit hff
    have hbase := hal.base
    have htop := hal.layout.top
    have hcond : AllocOk h.khBaseAddr bs size (alignUp size 16) align ↔ (alignUp (a + 16) align ≠ 0 →
        size ≤ 2 ^ 64 - 16 ∧
          ¬(a = h.khBaseAddr ∧ a + 16 < alignUp (a + 16) align ∧ alignUp (a + 16) align < a + 48)) := by
      constructor
      · intro hok
        exact hok a b hff
      · intro hok a' b' hff'
        rw [hff] at hff'
        obtain ⟨rfl, rfl⟩ := Prod.mk.inj (Option.some.inj hff')
        exact hok
    rw [hcond]
    show (alignUp (a + 16) align ≠ 0 → Honoured _ (alignUp (a + 16) align) size) ↔ _
    refine imp_congr_right fun hne => ?_
    obtain ⟨d, hd, h16⟩ := alignUp_distance hp2 halign ha (by omega) hne
    simp only [searchResult, hd]
    constructor
    · intro hon
      have hend : a + 16 + d + size ≤ h.khEndAddr := hon.2.1
      refine ⟨by omega, ?_⟩
      rintro ⟨rfl, h1, h2⟩
      -- the header would have to lie inside the first one
      obtain ⟨-, -, c, hc, -⟩ := hon
      have hfar : h.khBaseAddr + 16 + d - 16 = h.khBaseAddr ∨ h.khBaseAddr + 32 ≤ h.khBaseAddr + 16 + d - 16 :=
        placed_far hc
      omega
    · rintro ⟨hwrap, hmove⟩
      have hle := le_alignUp_sixteen hwrap
      obtain ⟨h1, -, c, h3, h4, h5⟩ := khTake_honoured hal hff hd h16 (by omega)
      rw [hd] at hlt hn
      exact ⟨h1, show a + 16 + d + size ≤ h.khEndAddr by omega, c, h3, h4, by omega⟩

/-! ### The calls of `malloc.c` -/

def malloc (h : Heap) (size : Nat) : Option (Heap × Nat) := khAllocAligned h size khDefaultAlign

/-- `block * size` as a `size_t` -/
def mul64 (block size : Nat) : Nat := block * size % 2 ^ 64

def calloc (h : Heap) (block size : Nat) : Option (Heap × Nat) :=
  (malloc h (mul64 block size)).map fun (h', ptr) =>
    if ptr = 0 then (h', ptr) else ({ h' with mem := fill h'.mem ptr (mul64 block size) 0 }, ptr)

def realloc (h : Heap) (ptr size : Nat) : Option (Heap × Nat) := khRealloc h ptr size

/-- The calls that request memory. -/
inductive SizeCall
  | allocAligned (size align : Nat)
  | khRealloc (ptr size : Nat)
  | malloc (size : Nat)
  | calloc (block size : Nat)
  | realloc (ptr size : Nat)

def SizeCall.run (h : Heap) : SizeCall → Option (Heap × Nat)
  | .allocAligned size align => khAllocAligned h size align
  | .khRealloc ptr size => Kernel.khRealloc h ptr size
  | .malloc size => Kernel.malloc h size
  | .calloc block size => Kernel.calloc h block size
  | .realloc ptr size => Kernel.realloc h ptr size

/-- The number of bytes that the caller asks for; for `calloc` the product as a mathematical number. -/
def SizeCall.requested : SizeCall → Nat
  | .allocAligned size _ => size
  | .khRealloc _ size => size
  | .malloc size => size
  | .calloc block size => block * size
  | .realloc _ size => size

def Resizable (h : Heap) (ptr : Nat) : Prop :=
  ptr = 0 ∨ ∃ a b, ptr = a + 16 ∧ (a, b) ∈ placed Block.len h.khBaseAddr h.blocks ∧ b.alloc = true

/-- The arguments are of type `size_t`, and a pointer may be resized. -/
def SizeCall.Legal (h : Heap) : SizeCall → Prop
  | .allocAligned size align => size < 2 ^ 64 ∧ align < 2 ^ 64
  | .khRealloc ptr size => size < 2 ^ 64 ∧ Resizable h ptr
  | .malloc size => size < 2 ^ 64
  | .calloc block size => block < 2 ^ 64 ∧ size < 2 ^ 64
  | .realloc ptr size => size < 2 ^ 64 ∧ Resizable h ptr

def NewOk (h : Heap) (requested n : Nat) : Prop :=
  (firstFit (alignUp n 16) 16 h.khBaseAddr h.blocks).isSome = true → requested ≤ 2 ^ 64 - 16

def ResizeOk (h : Heap) (ptr size : Nat) : Prop :=
  if ptr = 0 then NewOk h size size else size ≤ 2 ^ 64 - 16

/-- The sizes of the call do not wrap, and an aligned block does not move twice, as far as the call gets there. -/
def SizeCall.Ok (h : Heap) : SizeCall → Prop
  | .allocAligned size align =>
    isP2 align = true → AllocOk h.khBaseAddr h.blocks size (alignUp size 16) align
  | .khRealloc ptr size => ResizeOk h ptr size
  | .malloc size => NewOk h size size
  | .calloc block size => NewOk h (block * size) (mul64 block size)
  | .realloc ptr size => ResizeOk h ptr size

private theorem honoured_of_block {h : Heap} {bs : List Block} {a n : Nat} {b : Block} (hl : Layout h bs)
    (hb : (a, b) ∈ placed Block.len h.khBaseAddr bs) (halloc : b.alloc = true) (hn : n ≤ b.size) :
    Honoured h (a + 16) n := by
  obtain ⟨-, -, hhi⟩ := hl.segments.of_mem_placed hb
  simp only [Block.len] at hhi
  refine ⟨by omega, by omega, b, ?_, halloc, hn⟩
  rw [Nat.add_sub_cancel, hl.blocks_eq]
  exact hb

theorem Honoured.le {h : Heap} {p n : Nat} (hon : Honoured h p n) (htop : h.khEndAddr < 2 ^ 64) :
    n ≤ 2 ^ 64 - 16 := by
  obtain ⟨h1, h2, -⟩ := hon
  omega

/-- A block that is large enough for the rounded size is honoured unless the caller asked for more than the size
that was rounded. -/
private theorem honoured_iff_le {h : Heap} {bs : List Block} {a n requested : Nat} {b : Block} (hl : Layout h bs)
    (hb : (a, b) ∈ placed Block.len h.khBaseAddr bs) (halloc : b.alloc = true) (hn : alignUp n 16 ≤ b.size)
    (hmod : n = requested % 2 ^ 64) : Honoured h (a + 16) requested ↔ requested ≤ 2 ^ 64 - 16 := by
  constructor
  · intro hon
    exact hon.le hl.top
  · intro hle
    have hnr : n = requested := by omega
    have hup := le_alignUp_sixteen hle
    rw [hnr] at hn
    exact honoured_of_block hl hb halloc (by omega)

section

variable {h : Heap} {bs : List Block} (hal : AlignedHeap h bs)
include hal

theorem malloc_spec (n : Nat) :
    (firstFit (alignUp n 16) 16 h.khBaseAddr bs = none ∧ malloc h n = some ({ h with errno := some .ENOMEM }, 0)) ∨
      ∃ a b m' bs', firstFit (alignUp n 16) 16 h.khBaseAddr bs = some (a, b) ∧
        malloc h n = some ({ h with mem := m' }, a + 16) ∧ Allocated h m' bs bs' (alignUp n 16) 0 a b := by
  have hp2 : isP2 16 = true := by decide
  cases hff : firstFit (alignUp n 16) 16 h.khBaseAddr bs with
  | none => exact Or.inl ⟨rfl, khAllocAligned_none hal.layout hp2 hff⟩
  | some ab =>
    obtain ⟨a, b⟩ := ab
    obtain ⟨ha, hlo, hhi, -⟩ := hal.fit hff
    have htop := hal.layout.top
    have hup : alignUp (a + 16) 16 = a + 16 + 0 := by
      rw [alignUp_sixteen (by omega)]
      omega
    obtain ⟨d, hd, hsafe⟩ := hal.allocSafe (alignUp n 16) a b hff
    obtain rfl : d = 0 := by
      have hd' : alignUp (a + 16) 16 = a + 16 + d := hd
      omega
    obtain ⟨m', bs', h1, h2⟩ := khAllocAligned_some hal.layout hp2 hff hup hsafe
    exact Or.inr ⟨a, b, m', bs', rfl, h1, h2⟩

private theorem malloc_honoured_iff {n : Nat} (hn : n < 2 ^ 64) :
    ∃ h' p, malloc h n = some (h', p) ∧ ((p ≠ 0 → Honoured h' p n) ↔ NewOk h n n) := by
  unfold NewOk
  rw [hal.layout.blocks_eq]
  rcases malloc_spec hal n with ⟨hff, h1⟩ | ⟨a, b, m', bs', hff, h1, hA⟩
  · rw [hff]
    exact ⟨_, 0, h1, ⟨fun _ hs => absurd hs (by decide), fun _ hp => absurd rfl hp⟩⟩
  · obtain ⟨c, hc1, hc2, hc3⟩ := hA.block
    rw [hff]
    refine ⟨_, _, h1, ?_⟩
    simp only [Option.isSome_some, forall_const, ne_eq, Nat.add_eq_zero_iff, OfNat.ofNat_ne_zero, and_false,
      not_false_eq_true]
    exact honoured_iff_le hA.layout hc1 hc2 hc3 (Nat.mod_eq_of_lt hn).symm

private theorem calloc_honoured_iff (block size : Nat) :
    ∃ h' p, calloc h block size = some (h', p) ∧
      ((p ≠ 0 → Honoured h' p (block * size)) ↔ NewOk h (block * size) (mul64 block size)) := by
  unfold NewOk calloc
  rw [hal.layout.blocks_eq]
  have hmod : mul64 block size = block * size % 2 ^ 64 := rfl
  rcases malloc_spec hal (mul64 block size) with ⟨hff, h1⟩ | ⟨a, b, m', bs', hff, h1, hA⟩
  · rw [hff, h1]
    exact ⟨_, 0, rfl, ⟨fun _ hs => absurd hs (by decide), fun _ hp => absurd rfl hp⟩⟩
  · obtain ⟨c, hc1, hc2, hc3⟩ := hA.block
    have hlt : mul64 block size < 2 ^ 64 := Nat.mod_lt _ (by decide)
    rw [hff, h1]
    refine ⟨_, a + 16, rfl, ?_⟩
    simp only [Option.isSome_some, forall_const, ne_eq, Nat.add_eq_zero_iff, OfNat.ofNat_ne_zero, and_false,
      not_false_eq_true]
    -- the zeros are written inside the block, unless the size wrapped
    generalize mul64 block size = n at *
    by_cases hwrap : n ≤ 2 ^ 64 - 16
    · have hup := le_alignUp_sixteen hwrap
      have hout : ∀ x, x < a + 16 ∨ a + 16 + c.size ≤ x → fill m' (a + 16) n 0 x = m' x :=
        fun x hx => fill_outside (by omega)
      obtain ⟨hl2, -⟩ := hA.layout.store hc1 hout
      exact honoured_iff_le hl2 hc1 hc2 hc3 hmod
    · have hbig : ¬block * size ≤ 2 ^ 64 - 16 := by
        intro hle
        rw [Nat.mod_eq_of_lt (by omega)] at hmod
        omega
      constructor
      · intro hon
        exact absurd (hon.le hal.layout.top) hbig
      · intro hle
        exact absurd hle hbig

private theorem khRealloc_honoured_iff {ptr size : Nat} (hsize : size < 2 ^ 64) (hptr : Resizable h ptr) :
    ∃ h' p, khRealloc h ptr size = some (h', p) ∧ ((p ≠ 0 → Honoured h' p size) ↔ ResizeOk h ptr size) := by
  rcases hptr with rfl | ⟨a, ⟨s, f⟩, rfl, hb, rfl⟩
  · have hnull : khRealloc h 0 size = malloc h size := by simp [khRealloc, malloc]
    rw [hnull, ResizeOk, if_pos rfl]
    exact malloc_honoured_iff hal hsize
  rw [hal.layout.blocks_eq] at hb
  rw [ResizeOk, if_neg (by omega)]
  obtain ⟨h', q, bs', h1, hR⟩ := khRealloc_spec hal.layout hb hsize fun _ _ => hal.allocSafe _
  refine ⟨h', q, h1, ?_⟩
  rcases hR.result with ⟨rfl, -, -⟩ | ⟨a', c, rfl, hc1, hc2, hc3, -⟩
  · -- a size that wraps to zero never needs another block
    refine ⟨fun _ => ?_, fun _ hp => absurd rfl hp⟩
    by_contra hbig
    have h0 : alignUp size 16 = 0 := by
      rw [alignUp_sixteen hsize]
      omega
    obtain ⟨pre, post, rfl, hpre, -, -⟩ := hal.layout.segments.split_placed hb
    rw [khRealloc_live hal.layout hpre size, h0, if_neg (by omega)] at h1
    split at h1 <;> simp at h1
  · rw [← hR.base] at hc1
    simp only [ne_eq, Nat.add_eq_zero_iff, OfNat.ofNat_ne_zero, and_false, not_false_eq_true, forall_const]
    exact honoured_iff_le hR.layout hc1 hc2 hc3 (Nat.mod_eq_of_lt hsize).symm

/-- On a tiled heap with aligned headers each call returns, and its result is null or a block of the requested size
exactly if the sizes of the call do not wrap and no aligned block moves twice. -/
theorem sizes_honoured_iff (c : SizeCall) (hc : c.Legal h) :
    ∃ h' p, c.run h = some (h', p) ∧ ((p ≠ 0 → Honoured h' p c.requested) ↔ c.Ok h) := by
  cases c with
  | allocAligned size align =>
    obtain ⟨h', p, h1, h2⟩ := khAllocAligned_honoured_iff hal hc.1 hc.2
    rw [← hal.layout.blocks_eq] at h2
    exact ⟨h', p, h1, h2⟩
  | khRealloc ptr size => exact khRealloc_honoured_iff hal hc.1 hc.2
  | malloc size => exact malloc_honoured_iff hal hc
  | calloc block size => exact calloc_honoured_iff hal block size
  | realloc ptr size => exact khRealloc_honoured_iff hal hc.1 hc.2

end

private theorem smallHeap_alignedHeap : AlignedHeap smallHeap [⟨480, false⟩] := by
  refine ⟨khInit_layout (by decide) (by decide) (by decide), by decide, ?_⟩
  intro a b hab
  rw [placed_cons, placed_nil, List.mem_singleton, Prod.mk.injEq] at hab
  obtain ⟨rfl, -⟩ := hab
  decide

/-- Forty zeroed bytes on the small heap. -/
theorem sizes_honoured_small : ∃ h' p, SizeCall.run smallHeap (.calloc 5 8) = some (h', p) ∧
    ((p ≠ 0 → Honoured h' p 40) ↔ SizeCall.Ok smallHeap (.calloc 5 8)) :=
  sizes_honoured_iff smallHeap_alignedHeap (.calloc 5 8) ⟨by decide, by decide⟩

/-- A request for all of memory, one for 2 ^ 32 objects of 2 ^ 32 bytes, and one that moves the header of the first
block twice: each returns a pointer, but not to a block of the requested size. -/
theorem sizes_not_honoured : AlignedHeap smallHeap [⟨480, false⟩] ∧
    (∃ h' p, SizeCall.run smallHeap (.malloc (2 ^ 64 - 1)) = some (h', p) ∧ p ≠ 0 ∧
      ¬Honoured h' p (2 ^ 64 - 1)) ∧
    (∃ h' p, SizeCall.run smallHeap (.calloc (2 ^ 32) (2 ^ 32)) = some (h', p) ∧ p ≠ 0 ∧
      ¬Honoured h' p (2 ^ 32 * 2 ^ 32)) ∧
    ∃ h' p, SizeCall.run smallHeap (.allocAligned 32 32) = some (h', p) ∧ p ≠ 0 ∧ ¬Honoured h' p 32 := by
  have hal := smallHeap_alignedHeap
  have hblocks : smallHeap.blocks = [⟨480, false⟩] := hal.layout.blocks_eq
  refine ⟨hal, ?_, ?_, ?_⟩
  · obtain ⟨h', p, h1, h2⟩ := malloc_honoured_iff hal (show 2 ^ 64 - 1 < 2 ^ 64 by decide)
    have hno : ¬NewOk smallHeap (2 ^ 64 - 1) (2 ^ 64 - 1) := by
      rw [NewOk, hblocks]
      decide
    exact ⟨h', p, h1, Classical.not_imp.1 (mt h2.1 hno)⟩
  · obtain ⟨h', p, h1, h2⟩ := calloc_honoured_iff hal (2 ^ 32) (2 ^ 32)
    have hno : ¬NewOk smallHeap (2 ^ 32 * 2 ^ 32) (mul64 (2 ^ 32) (2 ^ 32)) := by
      rw [NewOk, hblocks]
      decide
    exact ⟨h', p, h1, Classical.not_imp.1 (mt h2.1 hno)⟩
  · obtain ⟨h', p, h1, h2⟩ := khAllocAligned_honoured_iff hal (show 32 < 2 ^ 64 by decide)
      (show 32 < 2 ^ 64 by decide)
    have hno : ¬(isP2 32 = true → AllocOk smallHeap.khBaseAddr [⟨480, false⟩] 32 (alignUp 32 16) 32) := by
      intro hok
      have h3 := hok (by decide) 0x1000 ⟨480, false⟩ (by decide) (by decide)
      exact h3.2 (by decide)
    exact ⟨h', p, h1, Classical.not_imp.1 (mt h2.1 hno)⟩

end Pml.Kernel
