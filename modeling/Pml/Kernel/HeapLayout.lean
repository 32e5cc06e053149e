import Pml.Kernel.Heap
import Pml.Lib.Segments

/-!
# The layout of the kernel heap

`BlockAt m a b` says that the memory holds the block `b` with its header at `a`: the header and tail magic numbers
are right, the tail directly follows the data and points back to the header.  A heap is tiled by a list of blocks
if they lie one after the other from `kh_base_addr` to `kh_end_addr`.  On a tiled heap the search loop of
`kh_alloc_aligned` ends and finds the first block that fits (`khSearch_spec`).
-/

namespace Pml.Kernel

open ByteMemory

/-- A block: the number of its data bytes and whether it is allocated. -/
structure Block where
  size : Nat
  alloc : Bool
  deriving DecidableEq, Repr

def Block.len (b : Block) : Nat := b.size + 32

/-- A header with the given fields. -/
structure HeaderAt (m : Mem) (a : Nat) (b : Block) : Prop where
  magic : hdrMagic m a = khHeaderMagic
  flags : hdrFlags m a = b.alloc.toNat
  size : hdrSize m a = b.size

/-- A tail that belongs to the header at `a`. -/
structure TailAt (m : Mem) (t a : Nat) : Prop where
  magic : tailMagic m t = khTailMagic
  header : tailHeader m t = a

/-- A complete block with its header at `a`. -/
structure BlockAt (m : Mem) (a : Nat) (b : Block) : Prop where
  hdr : HeaderAt m a b
  tail : TailAt m (a + 16 + b.size) a

/-- The heap is cut into the blocks `bs`; the range neither touches the first 16 bytes of memory nor wraps. -/
structure Layout (h : Heap) (bs : List Block) : Prop where
  segments : Segments (BlockAt h.mem) Block.len h.khBaseAddr bs h.khEndAddr
  base : 16 ≤ h.khBaseAddr
  top : h.khEndAddr < 2 ^ 64

theorem HeaderAt.congr {m m' : Mem} {a : Nat} {b : Block} (h : HeaderAt m a b)
    (hm : ∀ x, a ≤ x → x < a + 16 → m' x = m x) : HeaderAt m' a b := by
  obtain ⟨h1, h2, h3⟩ := h
  refine ⟨?_, ?_, ?_⟩
  · rw [← h1]; exact readLE_congr fun x hx hx' => hm x (by omega) (by omega)
  · rw [← h2]; exact readLE_congr fun x hx hx' => hm x (by omega) (by omega)
  · rw [← h3]; exact readLE_congr fun x hx hx' => hm x (by omega) (by omega)

theorem TailAt.congr {m m' : Mem} {t a : Nat} (h : TailAt m t a) (hm : ∀ x, t ≤ x → x < t + 16 → m' x = m x) :
    TailAt m' t a := by
  obtain ⟨h1, h2⟩ := h
  refine ⟨?_, ?_⟩
  · rw [← h1]; exact readLE_congr fun x hx hx' => hm x (by omega) (by omega)
  · rw [← h2]; exact readLE_congr fun x hx hx' => hm x (by omega) (by omega)

theorem BlockAt.congr {m m' : Mem} {a : Nat} {b : Block} (h : BlockAt m a b)
    (hm : ∀ x, a ≤ x → x < a + b.len → m' x = m x) : BlockAt m' a b := by
  unfold Block.len at hm
  exact ⟨h.hdr.congr fun x h1 h2 => hm x h1 (by omega), h.tail.congr fun x h1 h2 => hm x (by omega) (by omega)⟩

/-! ### Stores to headers and tails -/

theorem initTail_outside {m : Mem} {t a x : Nat} (h : x < t ∨ t + 16 ≤ x) : initTail m t a x = m x := by
  unfold initTail setTailHeader setTailReserved setTailMagic
  rw [writeLE_outside (by omega), writeLE_outside (by omega), writeLE_outside (by omega)]

theorem initHeader_outside {m : Mem} {a f s x : Nat} (h : x < a ∨ a + 16 ≤ x) : initHeader m a f s x = m x := by
  unfold initHeader setHdrSize setHdrFlags setHdrMagic
  rw [writeLE_outside (by omega), writeLE_outside (by omega), writeLE_outside (by omega)]

theorem setHdrSize_outside {m : Mem} {a s x : Nat} (h : x < a + 8 ∨ a + 16 ≤ x) : setHdrSize m a s x = m x :=
  writeLE_outside (by omega)

theorem setHdrFlags_outside {m : Mem} {a f x : Nat} (h : x < a + 4 ∨ a + 8 ≤ x) : setHdrFlags m a f x = m x :=
  writeLE_outside (by omega)

theorem setTailHeader_outside {m : Mem} {t a x : Nat} (h : x < t + 8 ∨ t + 16 ≤ x) : setTailHeader m t a x = m x :=
  writeLE_outside (by omega)

theorem tailAt_initTail {m : Mem} {t a : Nat} (ha : a < 2 ^ 64) : TailAt (initTail m t a) t a := by
  unfold initTail setTailHeader setTailReserved setTailMagic
  refine ⟨?_, ?_⟩
  · unfold tailMagic
    rw [readLE_writeLE_disjoint (by omega), readLE_writeLE_disjoint (by omega), readLE_writeLE_self]
    rfl
  · unfold tailHeader
    rw [readLE_writeLE_self]
    exact Nat.mod_eq_of_lt ha

theorem headerAt_initHeader {m : Mem} {a : Nat} {b : Block} (hb : b.size < 2 ^ 64) :
    HeaderAt (initHeader m a b.alloc.toNat b.size) a b := by
  have hf : b.alloc.toNat < 2 := by cases b.alloc <;> decide
  unfold initHeader setHdrSize setHdrFlags setHdrMagic
  refine ⟨?_, ?_, ?_⟩
  · unfold hdrMagic
    rw [readLE_writeLE_disjoint (by omega), readLE_writeLE_disjoint (by omega), readLE_writeLE_self]
    rfl
  · unfold hdrFlags
    rw [readLE_writeLE_disjoint (by omega), readLE_writeLE_self]
    exact Nat.mod_eq_of_lt (Nat.lt_trans hf (by decide))
  · unfold hdrSize
    rw [readLE_writeLE_self]
    exact Nat.mod_eq_of_lt hb

theorem HeaderAt.setSize {m : Mem} {a s : Nat} {b : Block} (h : HeaderAt m a b) (hs : s < 2 ^ 64) :
    HeaderAt (setHdrSize m a s) a ⟨s, b.alloc⟩ := by
  obtain ⟨h1, h2, -⟩ := h
  unfold setHdrSize
  refine ⟨?_, ?_, ?_⟩
  · unfold hdrMagic at *
    rw [readLE_writeLE_disjoint (by omega), h1]
  · unfold hdrFlags at *
    rw [readLE_writeLE_disjoint (by omega), h2]
  · unfold hdrSize
    rw [readLE_writeLE_self]
    exact Nat.mod_eq_of_lt hs

theorem HeaderAt.setFlags {m : Mem} {a : Nat} {b : Block} (h : HeaderAt m a b) (f : Bool) :
    HeaderAt (setHdrFlags m a f.toNat) a ⟨b.size, f⟩ := by
  have hf : f.toNat < 2 := by cases f <;> decide
  obtain ⟨h1, -, h3⟩ := h
  unfold setHdrFlags
  refine ⟨?_, ?_, ?_⟩
  · unfold hdrMagic at *
    rw [readLE_writeLE_disjoint (by omega), h1]
  · unfold hdrFlags
    rw [readLE_writeLE_self]
    exact Nat.mod_eq_of_lt (Nat.lt_trans hf (by decide))
  · unfold hdrSize at *
    rw [readLE_writeLE_disjoint (by omega), h3]

theorem tailAt_setTailHeader {m : Mem} {t a : Nat} (h : tailMagic m t = khTailMagic) (ha : a < 2 ^ 64) :
    TailAt (setTailHeader m t a) t a := by
  unfold setTailHeader
  refine ⟨?_, ?_⟩
  · unfold tailMagic at *
    rw [readLE_writeLE_disjoint (by omega), h]
  · unfold tailHeader
    rw [readLE_writeLE_self]
    exact Nat.mod_eq_of_lt ha

theorem tailMagic_congr {m m' : Mem} {t : Nat} (hm : ∀ x, t ≤ x → x < t + 4 → m' x = m x) :
    tailMagic m' t = tailMagic m t := readLE_congr fun x h1 h2 => hm x h1 h2

theorem HeaderAt.copy {m : Mem} {a : Nat} {b : Block} (h : HeaderAt m a b) (a' : Nat) :
    HeaderAt (copy m a' a 16) a' b := by
  obtain ⟨h1, h2, h3⟩ := h
  refine ⟨?_, ?_, ?_⟩
  · rw [← h1]; exact readLE_copy_inside (i := 0) (by omega)
  · rw [← h2]; exact readLE_copy_inside (by omega)
  · rw [← h3]; exact readLE_copy_inside (by omega)

theorem TailAt.copy {m : Mem} {t a : Nat} (h : TailAt m t a) (t' : Nat) : TailAt (copy m t' t 16) t' a := by
  obtain ⟨h1, h2⟩ := h
  refine ⟨?_, ?_⟩
  · rw [← h1]; exact readLE_copy_inside (i := 0) (by omega)
  · rw [← h2]; exact readLE_copy_inside (by omega)

/-! ### Tiled heaps -/

theorem segments_congr {m m' : Mem} {lo hi : Nat} {bs : List Block} (h : Segments (BlockAt m) Block.len lo bs hi)
    (hm : ∀ x, lo ≤ x → x < hi → m' x = m x) : Segments (BlockAt m') Block.len lo bs hi :=
  h.mono fun _ _ _ h1 h2 hb => hb.congr fun x hx hx' => hm x (by omega) (by omega)

/-- Consecutive blocks from the base address to the end, given by their sizes; each has the magic numbers, its size in
the header and the address of the header in the tail. The flags are left out. -/
def Tiled (h : Heap) : Prop :=
  ∃ sizes : List Nat, Segments
    (fun a s => hdrMagic h.mem a = khHeaderMagic ∧ hdrSize h.mem a = s ∧
      tailMagic h.mem (a + 16 + s) = khTailMagic ∧ tailHeader h.mem (a + 16 + s) = a)
    (fun s => s + 32) h.khBaseAddr sizes h.khEndAddr

theorem Layout.tiled {h : Heap} {bs : List Block} (hl : Layout h bs) : Tiled h := by
  refine ⟨bs.map Block.size, ?_⟩
  obtain ⟨hs, -, -⟩ := hl
  generalize h.khBaseAddr = lo at hs
  induction bs generalizing lo with
  | nil => exact hs
  | cons b bs ih =>
    exact ⟨⟨hs.1.hdr.magic, hs.1.hdr.size, hs.1.tail.magic, hs.1.tail.header⟩, ih _ hs.2⟩

/-- Every allocated block with a header in `keep` stays where it is, does not shrink and keeps its data. -/
def Carries (base : Nat) (m m' : Mem) (bs bs' : List Block) (keep : Nat → Prop) : Prop :=
  ∀ p c, (p, c) ∈ placed Block.len base bs → c.alloc = true → keep p →
    ∃ c', (p, c') ∈ placed Block.len base bs' ∧ c'.alloc = true ∧ c.size ≤ c'.size ∧
      ∀ x, p + 16 ≤ x → x < p + 16 + c.size → m' x = m x

theorem Carries.refl {base : Nat} {m : Mem} {bs : List Block} {keep : Nat → Prop} : Carries base m m bs bs keep :=
  fun _ c hp hc _ => ⟨c, hp, hc, Nat.le_refl _, fun _ _ _ => rfl⟩

theorem Carries.trans {base : Nat} {m m' m'' : Mem} {bs bs' bs'' : List Block} {keep : Nat → Prop}
    (h : Carries base m m' bs bs' keep) (h' : Carries base m' m'' bs' bs'' keep) :
    Carries base m m'' bs bs'' keep := by
  intro p c hp hc hk
  obtain ⟨c1, hp1, hc1, hle1, hx1⟩ := h p c hp hc hk
  obtain ⟨c2, hp2, hc2, hle2, hx2⟩ := h' p c1 hp1 hc1 hk
  refine ⟨c2, hp2, hc2, by omega, fun x h1 h2 => ?_⟩
  rw [hx2 x h1 (by omega), hx1 x h1 h2]

theorem Carries.mono {base : Nat} {m m' : Mem} {bs bs' : List Block} {keep keep' : Nat → Prop}
    (h : Carries base m m' bs bs' keep) (hk : ∀ p, keep' p → keep p) : Carries base m m' bs bs' keep' :=
  fun p c hp hc hp' => h p c hp hc (hk p hp')

theorem data_of_mem {m m' : Mem} {lo hi : Nat} {bs : List Block} (hs : Segments (BlockAt m) Block.len lo bs hi)
    (hm : ∀ x, lo ≤ x → x < hi → m' x = m x) {p : Nat} {c : Block} (hp : (p, c) ∈ placed Block.len lo bs) :
    ∀ x, p + 16 ≤ x → x < p + 16 + c.size → m' x = m x := by
  obtain ⟨-, h1, h2⟩ := hs.of_mem_placed hp
  intro x h3 h4
  simp only [Block.len] at h2
  exact hm x (by omega) (by omega)

theorem Layout.store {h : Heap} {bs : List Block} {m' : Mem} {q : Nat} {c : Block} (hl : Layout h bs)
    (hq : (q, c) ∈ placed Block.len h.khBaseAddr bs)
    (hm : ∀ x, x < q + 16 ∨ q + 16 + c.size ≤ x → m' x = h.mem x) :
    Layout { h with mem := m' } bs ∧ Carries h.khBaseAddr h.mem m' bs bs (· ≠ q) := by
  obtain ⟨pre, post, rfl, hpre, hc, hpost⟩ := hl.segments.split_placed hq
  refine ⟨⟨?_, hl.base, hl.top⟩, ?_⟩
  · refine segments_split.2 ⟨q, ?_, ⟨?_, ?_⟩, ?_⟩
    · exact segments_congr hpre fun x _ hx => hm x (by omega)
    · exact hc.hdr.congr fun x _ hx => hm x (by omega)
    · exact hc.tail.congr fun x hx _ => hm x (by omega)
    · refine segments_congr hpost fun x hx _ => hm x ?_
      simp only [Block.len] at hx
      omega
  · intro p b hp hb hne
    refine ⟨b, hp, hb, Nat.le_refl _, fun x h1 h2 => hm x ?_⟩
    have hd := hl.segments.placed_disjoint hp hq
    simp only [Block.len] at hd
    omega

/-! ### The search for a block -/

/-- The fit test of `kh_alloc_aligned` for the block `b` with its header at `a`: the block is free and `size`
bytes fit between the aligned pointer and the tail. -/
def Fits (size align a : Nat) (b : Block) : Prop :=
  b.alloc = false ∧ alignUp (a + 16) align < a + 16 + b.size ∧
    size ≤ a + 16 + b.size - alignUp (a + 16) align

instance (size align a : Nat) (b : Block) : Decidable (Fits size align a b) := by
  unfold Fits; exact inferInstance

/-- The first block that passes the fit test, with the address of its header. -/
def firstFit (size align : Nat) : Nat → List Block → Option (Nat × Block)
  | _, [] => none
  | a, b :: bs => if Fits size align a b then some (a, b) else firstFit size align (a + b.len) bs

/-- The outcome of the search loop when `fit` is the first block that fits. -/
def searchResult (align : Nat) : Option (Nat × Block) → Search
  | none => .fail .ENOMEM
  | some (a, b) => .found a (a + 16 + b.size) (alignUp (a + 16) align)

theorem firstFit_eq_some {size align lo a : Nat} {bs : List Block} {b : Block}
    (h : firstFit size align lo bs = some (a, b)) : (a, b) ∈ placed Block.len lo bs ∧ Fits size align a b := by
  induction bs generalizing lo with
  | nil => simp [firstFit] at h
  | cons c bs ih =>
    unfold firstFit at h
    split at h
    · rename_i hf
      obtain ⟨rfl, rfl⟩ : lo = a ∧ c = b := by simpa using h
      exact ⟨by simp, hf⟩
    · obtain ⟨h1, h2⟩ := ih h
      exact ⟨by simp [h1], h2⟩

theorem flagAlloc_toNat (f : Bool) : flagAlloc f.toNat = f := by cases f <;> rfl

/-- On consecutive blocks the search loop returns the first block that fits, or fails with `ENOMEM`. -/
theorem khSearch_spec {h : Heap} {lo : Nat} {bs : List Block} (size align fuel : Nat)
    (hs : Segments (BlockAt h.mem) Block.len lo bs h.khEndAddr) (htop : h.khEndAddr < 2 ^ 64)
    (hfuel : bs.length < fuel) :
    khSearch h size align fuel lo = some (searchResult align (firstFit size align lo bs)) := by
  induction bs generalizing lo fuel with
  | nil =>
    obtain ⟨fuel, rfl⟩ : ∃ k, fuel = k + 1 := ⟨fuel - 1, by simp at hfuel; omega⟩
    simp [khSearch, firstFit, searchResult, Nat.le_of_eq (segments_nil.1 hs).symm]
  | cons b bs ih =>
    obtain ⟨fuel, rfl⟩ : ∃ k, fuel = k + 1 := ⟨fuel - 1, by omega⟩
    obtain ⟨⟨⟨hm, hf, hz⟩, htm, hth⟩, hrest⟩ := hs
    have hle := hrest.le
    have hlen : b.len = b.size + 32 := rfl
    have hblk := alignUp_lt_two_pow (lo + 16) align
    have e1 : add64 (add64 lo (hdrSize h.mem lo)) khHeaderSize = lo + 16 + b.size := by
      show add64 _ 16 = _
      rw [hz, add64_of_lt (show lo + b.size < 2 ^ 64 by omega), add64_of_lt (by omega)]
      omega
    have e2 : add64 lo khHeaderSize = lo + 16 := by
      show add64 lo 16 = _
      rw [add64_of_lt (by omega)]
    have e3 : add64 (lo + 16 + b.size) khTailSize = lo + b.len := by
      show add64 _ 16 = _
      rw [add64_of_lt (by omega), hlen]
      omega
    have hfit : (flagAlloc (hdrFlags h.mem lo) = false ∧ alignUp (lo + 16) align < lo + 16 + b.size ∧
        size ≤ sub64 (lo + 16 + b.size) (alignUp (lo + 16) align)) ↔ Fits size align lo b := by
      rw [hf, flagAlloc_toNat]
      refine and_congr_right fun _ => and_congr_right fun hlt => ?_
      rw [sub64_of_le (Nat.le_of_lt hlt) (by omega)]
    unfold khSearch firstFit
    simp only [e1, e2, e3, hm, htm, hth, hfit]
    simp only [Nat.not_le.2 (show lo < h.khEndAddr by omega), ne_eq, not_true_eq_false, or_self, ↓reduceIte]
    split
    · rfl
    · exact ih _ hrest (by simp at hfuel; omega)

theorem segments_length_le {m : Mem} {lo hi : Nat} {bs : List Block}
    (hs : Segments (BlockAt m) Block.len lo bs hi) : bs.length ≤ hi - lo := by
  induction bs generalizing lo with
  | nil => simp
  | cons b bs ih =>
    have h1 := ih hs.2
    have h2 := hs.2.le
    simp only [List.length_cons, Block.len] at *
    omega

end Pml.Kernel
