import Mathlib.Data.List.Infix
import Pml.Arch.PageTables
import Pml.Lib.Machine

/-!
# Runs of the page frame allocator (`arch/x86_64/mm.c`)

The frames of the memory map that the search has passed are in use (`NoHole`): `vm_next_page` jumps over gaps only,
and `free_page` goes back to the frame that it frees.  So a frame is not handed out twice, and a frame that was freed
is found again as long as the search did not reach the end of the map once; `mem_avail` is never set again.

`vm_next_page` looks for a gap before it moves on and not after, so the search runs over the end of a region into
memory that is not usable.  The addresses that `alloc_page` returns are good in runs in which it finds a free frame
before the end of the region (`alloc_whole_page`).
-/

namespace Pml.Arch

/-! ### Steps of the search -/

section

variable (f : Frames)

@[simp] theorem vmNextPage_count : (vmNextPage f).count = f.count := by
  rcases vmNextPage_cases f with ⟨i, curr, -, he⟩ | ⟨-, he⟩ | ⟨curr, he⟩
  all_goals rw [he]

@[simp] theorem vmNextPage_regions : (vmNextPage f).regions = f.regions := by
  rcases vmNextPage_cases f with ⟨i, curr, -, he⟩ | ⟨-, he⟩ | ⟨curr, he⟩
  all_goals rw [he]

def Frames.last : Nat := f.regions.length - 1

private theorem nextRegion_gap {f : Frames} {k c base curr : Nat} (h : nextRegion f k c = (some base, curr)) :
    base = (f.region (curr + 1)).base ∧ (f.region curr).base + (f.region curr).len ≤ f.nextPhysAddr ∧
      f.nextPhysAddr < base := by
  induction k generalizing c with
  | zero => simp [nextRegion] at h
  | succ k ih =>
    unfold nextRegion at h
    split at h
    · rename_i hgap
      obtain ⟨h1, rfl⟩ := Prod.mk.inj h
      obtain rfl := Option.some.inj h1
      exact ⟨rfl, hgap⟩
    · exact ih h

private theorem vmNextPage_moves :
    (∃ c, (f.region c).base + (f.region c).len ≤ f.nextPhysAddr ∧ f.nextPhysAddr < (f.region (c + 1)).base ∧
      vmNextPage f = { f with nextPhysAddr := (f.region (c + 1)).base, curr := c }) ∨
    (f.nextPhysAddr < (f.region f.last).base + (f.region f.last).len ∧
      vmNextPage f = { f with nextPhysAddr := f.nextPhysAddr + pageSize, curr := f.last }) ∨
    ((f.region f.last).base + (f.region f.last).len ≤ f.nextPhysAddr ∧
      ∃ curr, vmNextPage f = { f with memAvail := false, curr := curr }) := by
  unfold vmNextPage Frames.last
  rcases hr : nextRegion f (f.regions.length - 1 - f.curr) f.curr with ⟨_ | base, curr⟩
  · simp only [hr]
    split
    · rename_i hlt
      exact Or.inr (Or.inl ⟨hlt, rfl⟩)
    · rename_i hlt
      exact Or.inr (Or.inr ⟨Nat.le_of_not_lt hlt, curr, rfl⟩)
  · obtain ⟨rfl, h1, h2⟩ := nextRegion_gap hr
    exact Or.inl ⟨curr, h1, h2, by simp only [hr]⟩

end

private theorem allocPage_rule {P : Frames → Prop} {Q : Frames × Nat → Prop}
    (hskip : ∀ f, P f → f.memAvail = true → f.count (f.nextPhysAddr / pageSize) ≠ 0 → P (vmNextPage f))
    (htake : ∀ f, P f → f.memAvail = true → f.count (f.nextPhysAddr / pageSize) = 0 →
      Q (vmNextPage { f with count := Function.update f.count (f.nextPhysAddr / pageSize) 1 }, f.nextPhysAddr))
    (hend : ∀ f, P f → f.memAvail = false → Q (f, 0)) {f : Frames} (h : P f) : Q (allocPage f) := by
  induction hr : f.room using Nat.strong_induction_on generalizing f with
  | _ n ih =>
    unfold allocPage
    split
    · rename_i havail
      by_cases hc : f.count (f.nextPhysAddr / pageSize) = 0
      · rw [if_pos hc]
        exact htake f h havail hc
      · have hlt := vmNextPage_room havail
        rw [if_neg hc]
        exact ih _ (by omega) (hskip f h havail hc) rfl
    · rename_i havail
      exact hend f h (by simpa using havail)

private theorem allocPage_of_not_avail {f : Frames} (h : f.memAvail = false) : allocPage f = (f, 0) := by
  unfold allocPage
  simp [h]

theorem allocPage_of_free {f : Frames} (havail : f.memAvail = true)
    (hfree : f.count (f.nextPhysAddr / pageSize) = 0) :
    allocPage f =
      (vmNextPage { f with count := Function.update f.count (f.nextPhysAddr / pageSize) 1 }, f.nextPhysAddr) := by
  rw [allocPage]
  simp [havail, hfree]

private theorem allocPage_regions (f : Frames) : (allocPage f).1.regions = f.regions := by
  refine allocPage_rule (P := fun g => g.regions = f.regions) (Q := fun r => r.1.regions = f.regions) ?_ ?_ ?_ rfl
  · intro g hg _ _
    rw [vmNextPage_regions, hg]
  · intro g hg _ _
    rw [vmNextPage_regions]
    exact hg
  · intro g hg _
    exact hg

private theorem allocPage_counts (f : Frames) : (∀ i, f.count i ≠ 0 → (allocPage f).1.count i = f.count i) ∧
    ((allocPage f).2 ≠ 0 → f.count ((allocPage f).2 / pageSize) = 0 ∧
      (allocPage f).1.count ((allocPage f).2 / pageSize) = 1) := by
  refine allocPage_rule (P := fun g => g.count = f.count) (Q := fun r =>
    (∀ i, f.count i ≠ 0 → r.1.count i = f.count i) ∧
      (r.2 ≠ 0 → f.count (r.2 / pageSize) = 0 ∧ r.1.count (r.2 / pageSize) = 1)) ?_ ?_ ?_ rfl
  · intro g hg _ _
    rw [vmNextPage_count, hg]
  · intro g hg _ hfree
    simp only [vmNextPage_count]
    rw [← hg]
    refine ⟨fun i hi => ?_, fun _ => ⟨hfree, Function.update_self ..⟩⟩
    rw [Function.update_of_ne]
    rintro rfl
    exact hi hfree
  · intro g hg _
    exact ⟨fun i _ => congrFun hg i, fun h => absurd rfl h⟩

theorem alignDown_page {x : Nat} (hx : x < 2 ^ 64) : alignDown x pageSize = x / pageSize * pageSize := by
  have e : pageSize = 2 ^ 12 := rfl
  apply Nat.eq_of_testBit_eq
  intro i
  rw [e, testBit_alignDown (by decide), Nat.testBit_mul_two_pow, Nat.testBit_div_two_pow]
  by_cases h12 : 12 ≤ i
  · rw [Nat.sub_add_cancel h12]
    by_cases h64 : i < 64
    · simp [h12, h64]
    · have hb : x.testBit i = false :=
        Nat.testBit_lt_two_pow (Nat.lt_of_lt_of_le hx (Nat.pow_le_pow_right (by decide) (by omega)))
      simp [hb]
  · simp [h12, show i < 12 by omega]

private theorem freePage_moves (f : Frames) {addr : Nat} (hx : addr < 2 ^ 64) (h0 : addr ≠ 0) :
    (freePage f addr).count = Function.update f.count (addr / pageSize) (f.count (addr / pageSize) - 1) ∧
    (freePage f addr).regions = f.regions ∧ (freePage f addr).memAvail = f.memAvail ∧
    ((freePage f addr).nextPhysAddr = f.nextPhysAddr ∧
        (f.count (addr / pageSize) - 1 = 0 → f.nextPhysAddr ≤ addr / pageSize * pageSize) ∨
      (freePage f addr).nextPhysAddr = addr / pageSize * pageSize ∧ addr / pageSize * pageSize < f.nextPhysAddr) := by
  have hdiv : addr / pageSize * pageSize / pageSize = addr / pageSize := Nat.mul_div_cancel _ (by decide)
  unfold freePage
  simp only [h0, alignDown_page hx, hdiv, Function.update_self, ↓reduceIte]
  split
  · rename_i hback
    exact ⟨rfl, rfl, rfl, Or.inr ⟨rfl, hback.2⟩⟩
  · rename_i hn
    refine ⟨rfl, rfl, rfl, Or.inl ⟨rfl, fun hz => ?_⟩⟩
    exact Nat.le_of_not_lt fun hlt => hn ⟨hz, hlt⟩

private theorem refPage_next (f : Frames) (addr : Nat) : (refPage f addr).nextPhysAddr = f.nextPhysAddr ∧
    (refPage f addr).regions = f.regions ∧ (refPage f addr).memAvail = f.memAvail := by
  unfold refPage
  split
  · exact ⟨rfl, rfl, rfl⟩
  · simp only
    split
    · exact ⟨rfl, rfl, rfl⟩
    · exact ⟨rfl, rfl, rfl⟩

/-! ### Memory maps -/

def Ordered (rs : List MemRegion) : Prop := rs.Pairwise fun r r' => r.base + r.len ≤ r'.base

def InRegion (rs : List MemRegion) (k : Nat) : Prop :=
  ∃ r ∈ rs, r.base < (k + 1) * pageSize ∧ k * pageSize < r.base + r.len

def WholePage (rs : List MemRegion) (a : Nat) : Prop := ∃ r ∈ rs, r.base ≤ a ∧ a + pageSize ≤ r.base + r.len

section

variable {f : Frames} {r : MemRegion}

private theorem exists_region (hr : r ∈ f.regions) : ∃ i, i < f.regions.length ∧ f.region i = r := by
  obtain ⟨i, hi, he⟩ := List.getElem_of_mem hr
  exact ⟨i, hi, by rw [Frames.region, List.getD_eq_getElem _ _ hi, he]⟩

private theorem Ordered.region_le (h : Ordered f.regions) {i j : Nat} (hij : i < j) (hj : j < f.regions.length) :
    (f.region i).base + (f.region i).len ≤ (f.region j).base := by
  rw [Frames.region, Frames.region, List.getD_eq_getElem _ _ hj, List.getD_eq_getElem _ _ (Nat.lt_trans hij hj)]
  exact List.pairwise_iff_getElem.1 h i j (Nat.lt_trans hij hj) hj hij

theorem Ordered.end_le (h : Ordered f.regions) {i j : Nat} (hij : i ≤ j) (hj : j < f.regions.length) :
    (f.region i).base + (f.region i).len ≤ (f.region j).base + (f.region j).len := by
  rcases Nat.eq_or_lt_of_le hij with rfl | hlt
  · exact Nat.le_refl _
  · exact Nat.le_trans (h.region_le hlt hj) (Nat.le_add_right _ _)

theorem Ordered.base_le (h : Ordered f.regions) {i j : Nat} (hij : i ≤ j) (hj : j < f.regions.length) :
    (f.region i).base ≤ (f.region j).base := by
  rcases Nat.eq_or_lt_of_le hij with rfl | hlt
  · exact Nat.le_refl _
  · exact Nat.le_trans (Nat.le_add_right _ _) (h.region_le hlt hj)

private theorem lt_length_of_lt_base {a c : Nat} (h : a < (f.region c).base) : c < f.regions.length := by
  by_contra hge
  rw [Frames.region, List.getD_eq_default _ _ (Nat.le_of_not_lt hge)] at h
  exact Nat.not_lt_zero _ h

private theorem Ordered.end_le_last (h : Ordered f.regions) (hr : r ∈ f.regions) :
    r.base + r.len ≤ (f.region f.last).base + (f.region f.last).len := by
  obtain ⟨i, hi, rfl⟩ := exists_region hr
  exact h.end_le (by unfold Frames.last; omega) (by unfold Frames.last; omega)

private theorem Ordered.not_inRegion_gap (h : Ordered f.regions) {c k : Nat} (hc : c + 1 < f.regions.length)
    (h1 : (f.region c).base + (f.region c).len ≤ k * pageSize) (h2 : (k + 1) * pageSize ≤ (f.region (c + 1)).base) :
    ¬InRegion f.regions k := by
  rintro ⟨r, hr, h3, h4⟩
  obtain ⟨i, hi, rfl⟩ := exists_region hr
  by_cases hic : i ≤ c
  · have := h.end_le hic (by omega)
    omega
  · have := h.base_le (show c + 1 ≤ i by omega) hi
    omega

private theorem Ordered.vmNextPage_inside (h : Ordered f.regions) (hin : WholePage f.regions f.nextPhysAddr) :
    vmNextPage f = { f with nextPhysAddr := f.nextPhysAddr + pageSize, curr := f.last } := by
  obtain ⟨r, hr, h1, h2⟩ := hin
  have hlast := h.end_le_last hr
  have hpos : 0 < pageSize := by decide
  rcases vmNextPage_moves f with ⟨c, h3, h4, -⟩ | ⟨-, he⟩ | ⟨h3, -⟩
  · obtain ⟨i, hi, rfl⟩ := exists_region hr
    by_cases hic : i ≤ c
    · have := h.end_le hic (Nat.lt_of_succ_lt (lt_length_of_lt_base h4))
      omega
    · have := h.base_le (show c + 1 ≤ i by omega) hi
      omega
  · exact he
  · omega

end

/-! ### Frames behind the search -/

/-- The frames of the memory map from `n` on that lie below `next_phys_addr` are in use. -/
def NoHole (n : Nat) (f : Frames) : Prop :=
  ∀ k, n ≤ k → k < f.nextPhysAddr / pageSize → InRegion f.regions k → f.count k ≠ 0

private theorem page_le_of_div_lt {a k : Nat} (h : a / pageSize < k) : a < k * pageSize :=
  (Nat.div_lt_iff_lt_mul (by decide)).1 h

private theorem page_le_of_lt_div {a k : Nat} (h : k < a / pageSize) : (k + 1) * pageSize ≤ a :=
  (Nat.le_div_iff_mul_le (by decide)).1 h

private theorem add_page_div (a : Nat) : (a + pageSize) / pageSize = a / pageSize + 1 :=
  Nat.add_div_right _ (by decide)

/-- The frames from `n` on with a property that lie below `next_phys_addr` are in use. -/
def UsedBefore (R : Nat → Prop) (n : Nat) (f : Frames) : Prop :=
  ∀ k, n ≤ k → k < f.nextPhysAddr / pageSize → R k → f.count k ≠ 0

def GapFree (R : Nat → Prop) (f : Frames) : Prop :=
  ∀ c k, c + 1 < f.regions.length → (f.region c).base + (f.region c).len ≤ k * pageSize →
    (k + 1) * pageSize ≤ (f.region (c + 1)).base → ¬R k

private theorem Ordered.gapFree {f : Frames} (ho : Ordered f.regions) : GapFree (InRegion f.regions) f :=
  fun _ _ hc h1 h2 => ho.not_inRegion_gap hc h1 h2

theorem GapFree.congr {R : Nat → Prop} {f g : Frames} (h : GapFree R f) (hr : g.regions = f.regions) :
    GapFree R g := by
  have hregion : ∀ i, g.region i = f.region i := fun i => by rw [Frames.region, hr, Frames.region]
  intro c k hc h1 h2
  rw [hr] at hc
  rw [hregion] at h1 h2
  exact h c k hc h1 h2

section

variable {R : Nat → Prop} {n : Nat} {f : Frames}

theorem UsedBefore.vmNextPage (h : UsedBefore R n f) (hg : GapFree R f)
    (hc : f.count (f.nextPhysAddr / pageSize) ≠ 0) : UsedBefore R n (vmNextPage f) := by
  intro k hn hk hin
  rw [vmNextPage_count]
  have hold : k ≤ f.nextPhysAddr / pageSize → f.count k ≠ 0 := by
    intro hle
    rcases Nat.eq_or_lt_of_le hle with rfl | hlt
    · exact hc
    · exact h k hn hlt hin
  rcases vmNextPage_moves f with ⟨c, h1, h2, he⟩ | ⟨-, he⟩ | ⟨-, curr, he⟩
  · rw [he] at hk
    by_contra hz
    have hlt : f.nextPhysAddr / pageSize < k := Nat.lt_of_not_le fun hle => hold hle hz
    exact hg c k (lt_length_of_lt_base h2) (Nat.le_of_lt (Nat.lt_of_le_of_lt h1 (page_le_of_div_lt hlt)))
      (page_le_of_lt_div hk) hin
  · rw [he] at hk
    simp only [add_page_div] at hk
    exact hold (by omega)
  · rw [he] at hk
    exact h k hn hk hin

theorem UsedBefore.take (h : UsedBefore R n f) (hg : GapFree R f) : UsedBefore R n
    (Pml.Arch.vmNextPage { f with count := Function.update f.count (f.nextPhysAddr / pageSize) 1 }) := by
  refine UsedBefore.vmNextPage ?_ hg ?_
  · intro k hn hk hin
    simp only at hk ⊢
    rw [Function.update_of_ne (by omega)]
    exact h k hn hk hin
  · simp

theorem UsedBefore.allocPage (h : UsedBefore R n f) (hg : GapFree R f) : UsedBefore R n (allocPage f).1 := by
  refine (allocPage_rule (P := fun g => UsedBefore R n g ∧ g.regions = f.regions)
    (Q := fun r => UsedBefore R n r.1) ?_ ?_ ?_ ⟨h, rfl⟩)
  · rintro g ⟨hu, hr⟩ _ hc
    exact ⟨hu.vmNextPage (hg.congr hr) hc, by rw [vmNextPage_regions, hr]⟩
  · rintro g ⟨hu, hr⟩ _ _
    exact hu.take (hg.congr hr)
  · rintro g ⟨hu, -⟩ _
    exact hu

theorem UsedBefore.refPage (h : UsedBefore R n f) (addr : Nat) : UsedBefore R n (refPage f addr) := by
  obtain ⟨h1, -, -⟩ := refPage_next f addr
  intro k hn hk hin
  rw [h1] at hk
  have hc := h k hn hk hin
  rw [refPage_count]
  split
  · omega
  · exact hc

theorem UsedBefore.freePage (h : UsedBefore R n f) {addr : Nat} (hx : addr < 2 ^ 64) :
    UsedBefore R n (freePage f addr) := by
  by_cases h0 : addr = 0
  · rw [show Pml.Arch.freePage f addr = f by simp [Pml.Arch.freePage, h0]]
    exact h
  · obtain ⟨hc, -, -, hnext⟩ := freePage_moves f hx h0
    have hdiv : addr / pageSize * pageSize / pageSize = addr / pageSize := Nat.mul_div_cancel _ (by decide)
    intro k hn hk hin
    rw [hc]
    by_cases hk0 : k = addr / pageSize
    · subst hk0
      rw [Function.update_self]
      rcases hnext with ⟨he, hz⟩ | ⟨he, -⟩
      · rw [he] at hk
        intro hzero
        have hle := page_le_of_lt_div hk
        have := hz hzero
        rw [Nat.add_mul] at hle
        simp only [pageSize] at *
        omega
      · rw [he, hdiv] at hk
        omega
    · rw [Function.update_of_ne hk0]
      rcases hnext with ⟨he, -⟩ | ⟨he, hlt⟩
      · rw [he] at hk
        exact h k hn hk hin
      · rw [he] at hk
        exact h k hn (Nat.lt_of_lt_of_le hk (Nat.div_le_div_right (Nat.le_of_lt hlt))) hin

end

/-! ### Runs -/

/-- A call of the allocator. -/
inductive FrameInput
  | alloc
  | ref (addr : UInt64)
  | free (addr : UInt64)

/-- The allocator, and the addresses other than zero that `alloc_page` has returned. -/
structure FrameRun where
  frames : Frames
  returned : List Nat

def frameStep (s : FrameRun) : FrameInput → Option FrameRun
  | .alloc =>
    let a := allocPage s.frames
    some ⟨a.1, if a.2 = 0 then s.returned else a.2 :: s.returned⟩
  | .ref addr => some { s with frames := refPage s.frames addr.toNat }
  | .free addr => some { s with frames := freePage s.frames addr.toNat }

/-- What `vm_init` and `mark_resv_mem_alloc` leave: the frames below `next_phys_addr` are reserved.  The counts above
are not set: `mark_resv_mem_alloc` clears as many bytes as there are frames, and a count has four. -/
structure Frames.Boot (f : Frames) : Prop where
  map : f.regions ≠ []
  avail : f.memAvail = true
  pos : 0 < f.nextPhysAddr
  aligned : pageSize ∣ f.nextPhysAddr
  reserved : ∀ i, i < f.nextPhysAddr / pageSize → f.count i = 1

def Frames.start (f : Frames) : FrameRun := ⟨f, []⟩

private theorem frameStep_regions {s s' : FrameRun} {i : FrameInput} (h : frameStep s i = some s') :
    s'.frames.regions = s.frames.regions := by
  cases i with
  | alloc =>
    cases h
    exact allocPage_regions _
  | ref addr =>
    cases h
    exact (refPage_next _ _).2.1
  | free addr =>
    cases h
    by_cases h0 : addr.toNat = 0
    · simp [freePage, h0]
    · exact (freePage_moves _ addr.toNat_lt h0).2.1

private theorem run_usedBefore {R : Nat → Prop} {f : Frames} {is : List FrameInput} {s : FrameRun} (hg : GapFree R f)
    (hrun : Machine.run frameStep is f.start = some s) :
    UsedBefore R (f.nextPhysAddr / pageSize) s.frames ∧ s.frames.regions = f.regions := by
  refine Machine.run_invariant (P := fun s => UsedBefore R (f.nextPhysAddr / pageSize) s.frames ∧
    s.frames.regions = f.regions) ?_ ?_ hrun
  · rintro s i s' ⟨hh, hr⟩ hs
    refine ⟨?_, by rw [frameStep_regions hs, hr]⟩
    cases i with
    | alloc =>
      cases hs
      exact hh.allocPage (hg.congr hr)
    | ref addr =>
      cases hs
      exact hh.refPage _
    | free addr =>
      cases hs
      exact hh.freePage addr.toNat_lt
  · refine ⟨fun k hn hk _ => ?_, rfl⟩
    simp only [Frames.start] at hk
    omega

private theorem run_noHole {f : Frames} {is : List FrameInput} {s : FrameRun} (ho : Ordered f.regions)
    (hrun : Machine.run frameStep is f.start = some s) :
    NoHole (f.nextPhysAddr / pageSize) s.frames ∧ s.frames.regions = f.regions := by
  obtain ⟨hused, hr⟩ := run_usedBefore ho.gapFree hrun
  exact ⟨fun k hn hk hin => hused k hn hk (by rw [← hr]; exact hin), hr⟩

/-! ### A frame is not returned twice -/

/-- The call is a `free_page` of the frame. -/
def FrameInput.frees (k : Nat) : FrameInput → Bool
  | .free addr => addr.toNat ≠ 0 ∧ addr.toNat / pageSize = k
  | _ => false

/-- The call is a `ref_page` of the frame. -/
def FrameInput.refs (k : Nat) : FrameInput → Bool
  | .ref addr => addr.toNat ≠ 0 ∧ addr.toNat / pageSize = k
  | _ => false

/-- A call adds a reference to a frame in use, takes one, or leaves its count alone. -/
private theorem frameStep_count {s s' : FrameRun} {i : FrameInput} {k : Nat} (h : frameStep s i = some s')
    (hc : s.frames.count k ≠ 0) :
    (i.frees k = true ∧ i.refs k = false ∧ s'.frames.count k + 1 = s.frames.count k) ∨
    (i.frees k = false ∧ i.refs k = true ∧ s'.frames.count k = s.frames.count k + 1) ∨
    (i.frees k = false ∧ i.refs k = false ∧ s'.frames.count k = s.frames.count k) := by
  cases i with
  | alloc =>
    cases h
    exact Or.inr (Or.inr ⟨rfl, rfl, (allocPage_counts _).1 k hc⟩)
  | ref addr =>
    cases h
    simp only [FrameInput.frees, FrameInput.refs, refPage_count]
    by_cases hk : addr.toNat ≠ 0 ∧ addr.toNat / pageSize = k
    · obtain ⟨h0, rfl⟩ := hk
      simp [h0, hc]
    · have hk' : ¬(addr.toNat ≠ 0 ∧ k = addr.toNat / pageSize ∧ s.frames.count k ≠ 0) :=
        fun h => hk ⟨h.1, h.2.1.symm⟩
      rw [if_neg hk']
      simp [hk]
  | free addr =>
    cases h
    by_cases h0 : addr.toNat = 0
    · simp [FrameInput.frees, FrameInput.refs, freePage, h0]
    · obtain ⟨hcount, -⟩ := freePage_moves s.frames addr.toNat_lt h0
      simp only [FrameInput.frees, FrameInput.refs, hcount]
      by_cases hk : addr.toNat / pageSize = k
      · subst hk
        simp [h0]
        omega
      · simp [h0, hk, Function.update_of_ne (Ne.symm hk)]

private theorem count_ne_zero_of_run {k c : Nat} {is : List FrameInput} {s s' : FrameRun}
    (hrun : Machine.run frameStep is s = some s') (hc : s.frames.count k = c) (hpos : c ≠ 0)
    (hne : ∀ r, r <+: is → r.countP (·.frees k) ≠ r.countP (·.refs k) + c) : s'.frames.count k ≠ 0 := by
  induction is generalizing s c with
  | nil =>
    cases hrun
    omega
  | cons i is ih =>
    obtain ⟨t, ht, hrest⟩ := Option.bind_eq_some_iff.1 hrun
    have hhead := hne [i] (by simp)
    have htail : ∀ r, r <+: is → (i :: r).countP (·.frees k) ≠ (i :: r).countP (·.refs k) + c :=
      fun r hr => hne (i :: r) (List.cons_prefix_cons.2 ⟨rfl, hr⟩)
    simp only [List.countP_cons, List.countP_nil] at hhead htail
    have hck : s.frames.count k ≠ 0 := by omega
    rcases frameStep_count ht hck with ⟨h1, h2, h3⟩ | ⟨h1, h2, h3⟩ | ⟨h1, h2, h3⟩
    all_goals
      simp only [h1, h2, Bool.false_eq_true, ↓reduceIte] at hhead htail
      refine ih hrest rfl (by omega) fun r hr => ?_
      have := htail r hr
      omega

/-! ### A frame is found again -/

/-- The allocator after a number of calls of `alloc_page`. -/
def allocs : Nat → Frames → Frames
  | 0, f => f
  | n + 1, f => allocs n (allocPage f).1

/-- After some calls, `alloc_page` returns the frame. -/
def Found (f : Frames) (k : Nat) : Prop :=
  ∃ n, (allocPage (allocs n f)).2 ≠ 0 ∧ (allocPage (allocs n f)).2 / pageSize = k

private theorem not_found_of_not_avail {f : Frames} (h : f.memAvail = false) (k : Nat) : ¬Found f k := by
  have hstop := allocPage_of_not_avail h
  have hsame : ∀ n, allocs n f = f := by
    intro n
    induction n with
    | zero => rfl
    | succ n ih => rw [allocs, hstop, ih]
  rintro ⟨n, hn, -⟩
  rw [hsame, hstop] at hn
  exact hn rfl

private theorem vmNextPage_before {f : Frames} {k : Nat} (ho : Ordered f.regions) (hin : InRegion f.regions k)
    (hlt : f.nextPhysAddr / pageSize < k) :
    (vmNextPage f).memAvail = f.memAvail ∧ (vmNextPage f).nextPhysAddr / pageSize ≤ k := by
  have hnext := page_le_of_div_lt hlt
  rcases vmNextPage_moves f with ⟨c, h1, h2, he⟩ | ⟨-, he⟩ | ⟨h1, -⟩
  · rw [he]
    refine ⟨rfl, Nat.le_of_not_lt fun hgt => ?_⟩
    exact ho.not_inRegion_gap (lt_length_of_lt_base h2) (Nat.le_of_lt (Nat.lt_of_le_of_lt h1 hnext))
      (page_le_of_lt_div hgt) hin
  · rw [he]
    refine ⟨rfl, ?_⟩
    simp only [add_page_div]
    omega
  · obtain ⟨r, hr, -, hend⟩ := hin
    have := ho.end_le_last hr
    omega

/-- While the search has not reached the end of the map, it finds every free frame in front of it. -/
private theorem found_of_avail {f : Frames} {k : Nat} (ho : Ordered f.regions) (havail : f.memAvail = true)
    (hin : InRegion f.regions k) (hfree : f.count k = 0) (hk : 0 < k) (hle : f.nextPhysAddr / pageSize ≤ k) :
    Found f k := by
  induction hr : f.room using Nat.strong_induction_on generalizing f with
  | _ n ih =>
    by_cases hc : f.count (f.nextPhysAddr / pageSize) = 0
    · have he := allocPage_of_free havail hc
      rcases Nat.eq_or_lt_of_le hle with heq | hlt
      · refine ⟨0, ?_⟩
        rw [allocs, he]
        refine ⟨fun h0 => ?_, heq⟩
        simp only at h0
        rw [h0, Nat.zero_div] at heq
        omega
      · -- another frame is taken first, and the search has less room afterwards
        have hroom := vmNextPage_room
          (f := { f with count := Function.update f.count (f.nextPhysAddr / pageSize) 1 }) havail
        obtain ⟨h1, h2⟩ := vmNextPage_before
          (f := { f with count := Function.update f.count (f.nextPhysAddr / pageSize) 1 }) ho hin hlt
        have hcount : Function.update f.count (f.nextPhysAddr / pageSize) 1 k = 0 := by
          rw [Function.update_of_ne (by omega), hfree]
        obtain ⟨m, hm⟩ := ih _ (by rw [← hr]; exact hroom) (by rw [vmNextPage_regions]; exact ho)
          (by rw [h1]; exact havail) (by rw [vmNextPage_regions]; exact hin) (by rw [vmNextPage_count]; exact hcount)
          h2 rfl
        refine ⟨m + 1, ?_⟩
        rw [allocs, he]
        exact hm
    · have he : allocPage f = allocPage (vmNextPage f) := by
        rw [allocPage]
        simp [havail, hc]
      have hlt : f.nextPhysAddr / pageSize < k := by
        refine Nat.lt_of_le_of_ne hle fun heq => hc ?_
        rw [heq, hfree]
      have hroom := vmNextPage_room havail
      obtain ⟨h1, h2⟩ := vmNextPage_before ho hin hlt
      obtain ⟨m, hm⟩ := ih _ (by rw [← hr]; exact hroom) (by rw [vmNextPage_regions]; exact ho)
        (by rw [h1]; exact havail) (by rw [vmNextPage_regions]; exact hin)
        (by rw [vmNextPage_count]; exact hfree) h2 rfl
      refine ⟨m, ?_⟩
      cases m with
      | zero => rwa [allocs, he]
      | succ m => rwa [allocs, he]

/-- What the allocator promises after the calls `is` from the state `f`: a frame that was returned is not returned
again until it was freed once more than it was referenced, the frames of the map that the search has passed are in
use, and every free frame of the map will be returned. -/
structure FrameContract (f : Frames) (is : List FrameInput) (s : FrameRun) : Prop where
  noDouble : ∀ p q t, is = p ++ .alloc :: q → Machine.run frameStep p f.start = some t →
    (allocPage t.frames).2 ≠ 0 → (∀ r, r <+: q → r.countP (·.frees ((allocPage t.frames).2 / pageSize)) ≠
      r.countP (·.refs ((allocPage t.frames).2 / pageSize)) + 1) →
    (allocPage s.frames).2 ≠ 0 → (allocPage s.frames).2 / pageSize ≠ (allocPage t.frames).2 / pageSize
  noHole : ∀ k, f.nextPhysAddr / pageSize ≤ k → k < s.frames.nextPhysAddr / pageSize → InRegion f.regions k →
    s.frames.count k ≠ 0
  found : ∀ k, f.nextPhysAddr / pageSize ≤ k → InRegion f.regions k → s.frames.count k = 0 → Found s.frames k

private theorem run_noDouble {f : Frames} {p q : List FrameInput} {s t : FrameRun}
    (hrun : Machine.run frameStep (p ++ .alloc :: q) f.start = some s) (hp : Machine.run frameStep p f.start = some t)
    (ht : (allocPage t.frames).2 ≠ 0)
    (hq : ∀ r, r <+: q → r.countP (·.frees ((allocPage t.frames).2 / pageSize)) ≠
      r.countP (·.refs ((allocPage t.frames).2 / pageSize)) + 1)
    (hs : (allocPage s.frames).2 ≠ 0) : (allocPage s.frames).2 / pageSize ≠ (allocPage t.frames).2 / pageSize := by
  obtain ⟨t', hp', hrest⟩ := Machine.run_append hrun
  obtain rfl : t = t' := Option.some.inj (hp.symm.trans hp')
  obtain ⟨u, hu, hrest⟩ := Option.bind_eq_some_iff.1 hrest
  cases hu
  have huse := count_ne_zero_of_run hrest (((allocPage_counts t.frames).2 ht).2) (by decide) hq
  intro he
  have hfree := ((allocPage_counts s.frames).2 hs).1
  rw [he] at hfree
  exact huse hfree

/-- The allocator keeps its promises exactly until the search reaches the end of the memory map, unless no frame is
free then. -/
theorem frameContract_iff {f : Frames} {is : List FrameInput} {s : FrameRun} (hb : f.Boot) (ho : Ordered f.regions)
    (hrun : Machine.run frameStep is f.start = some s) :
    FrameContract f is s ↔ s.frames.memAvail = true ∨
      ∀ k, f.nextPhysAddr / pageSize ≤ k → InRegion f.regions k → s.frames.count k ≠ 0 := by
  obtain ⟨hhole, hr⟩ := run_noHole ho hrun
  have hpos : 0 < f.nextPhysAddr / pageSize := by
    obtain ⟨c, hc⟩ := hb.aligned
    have := hb.pos
    simp only [pageSize] at *
    omega
  constructor
  · intro h
    by_cases havail : s.frames.memAvail = true
    · exact Or.inl havail
    · refine Or.inr fun k hk hin hfree => ?_
      exact not_found_of_not_avail (by simpa using havail) k (h.found k hk hin hfree)
  · intro hcond
    refine ⟨?_, fun k hn hk hin => hhole k hn hk (by rw [hr]; exact hin), fun k hk hin hfree => ?_⟩
    · rintro p q t rfl hp ht hq hs
      exact run_noDouble hrun hp ht hq hs
    · rcases hcond with havail | huse
      · refine found_of_avail (by rw [hr]; exact ho) havail (by rw [hr]; exact hin) hfree (by omega) ?_
        refine Nat.le_of_not_lt fun hlt => ?_
        exact hhole k hk hlt (by rw [hr]; exact hin) hfree
      · exact absurd hfree (huse k hk hin)

def smallFrames : Frames := ⟨fun i => if i < 0x101 then 1 else 0, 0x101000, true, [⟨0x100000, 0x2000⟩], 0⟩

private theorem smallFrames_boot : smallFrames.Boot := by
  refine ⟨by decide, rfl, by decide, by decide, fun i hi => ?_⟩
  have : i < 0x101 := by simpa [smallFrames, pageSize] using hi
  simp [smallFrames, this]

private theorem smallFrames_ordered : Ordered smallFrames.regions := List.pairwise_singleton _ _

private theorem smallFrames_alloc : allocPage smallFrames =
    (⟨Function.update smallFrames.count 0x101 1, 0x102000, true, [⟨0x100000, 0x2000⟩], 0⟩, 0x101000) := by
  rw [allocPage]
  simp [smallFrames, vmNextPage, nextRegion, Frames.region, pageSize]

private theorem smallFrames_alloc_alloc : allocPage (allocPage smallFrames).1 =
    (⟨Function.update (Function.update smallFrames.count 0x101 1) 0x102 1, 0x102000, false,
      [⟨0x100000, 0x2000⟩], 0⟩, 0x102000) := by
  rw [smallFrames_alloc, allocPage]
  simp [smallFrames, vmNextPage, nextRegion, Frames.region, pageSize]

theorem frameContract_small : ∃ s, Machine.run frameStep [.alloc] smallFrames.start = some s ∧
    FrameContract smallFrames [.alloc] s := by
  refine ⟨_, rfl, (frameContract_iff smallFrames_boot smallFrames_ordered rfl).2 (Or.inl ?_)⟩
  simp only [Frames.start, smallFrames_alloc]

/-- The second allocation reaches the end of the map; the first frame is freed and not found again. -/
theorem not_frameContract : ∃ s, Machine.run frameStep [.alloc, .alloc, .free 0x101000] smallFrames.start = some s ∧
    ¬FrameContract smallFrames [.alloc, .alloc, .free 0x101000] s := by
  refine ⟨_, rfl, fun h => ?_⟩
  have hin : InRegion smallFrames.regions 0x101 := ⟨_, List.mem_singleton.2 rfl, by decide, by decide⟩
  have hfound := h.found 0x101 (by decide) hin
  simp only [Frames.start, smallFrames_alloc_alloc] at hfound
  refine not_found_of_not_avail rfl 0x101 (hfound ?_)
  rfl

/-! ### Addresses outside of the map -/

/-- A free frame lies at or above `next_phys_addr`, and all frames up to it lie inside regions. -/
def FrameAhead (s : FrameRun) : FrameInput → Prop
  | .alloc => s.frames.memAvail = true → ∃ k, s.frames.nextPhysAddr / pageSize ≤ k ∧ s.frames.count k = 0 ∧
      ∀ j, s.frames.nextPhysAddr / pageSize ≤ j → j ≤ k → WholePage s.frames.regions (j * pageSize)
  | _ => True

private theorem allocPage_ahead {f : Frames} (ho : Ordered f.regions) (ha : pageSize ∣ f.nextPhysAddr)
    (h : FrameAhead ⟨f, []⟩ .alloc) : pageSize ∣ (allocPage f).1.nextPhysAddr ∧
      ((allocPage f).2 ≠ 0 → pageSize ∣ (allocPage f).2 ∧ WholePage f.regions (allocPage f).2) := by
  by_cases havail : f.memAvail = true
  · obtain ⟨k, hle, hfree, hwhole⟩ := h havail
    -- the search stays inside of regions up to the frame `k`
    have hinside : ∀ g : Frames, pageSize ∣ g.nextPhysAddr → g.regions = f.regions →
        f.nextPhysAddr / pageSize ≤ g.nextPhysAddr / pageSize → g.nextPhysAddr / pageSize ≤ k →
        WholePage f.regions g.nextPhysAddr ∧
          vmNextPage g = { g with nextPhysAddr := g.nextPhysAddr + pageSize, curr := g.last } := by
      intro g hg hr h1 h2
      have hw := hwhole _ h1 h2
      rw [Nat.div_mul_cancel hg] at hw
      exact ⟨hw, Ordered.vmNextPage_inside (by rw [hr]; exact ho) (by rw [hr]; exact hw)⟩
    refine allocPage_rule
      (P := fun g => pageSize ∣ g.nextPhysAddr ∧ g.regions = f.regions ∧ g.count = f.count ∧ g.memAvail = true ∧
        f.nextPhysAddr / pageSize ≤ g.nextPhysAddr / pageSize ∧ g.nextPhysAddr / pageSize ≤ k)
      (Q := fun r => pageSize ∣ r.1.nextPhysAddr ∧ (r.2 ≠ 0 → pageSize ∣ r.2 ∧ WholePage f.regions r.2)) ?_ ?_ ?_
      ⟨ha, rfl, rfl, havail, Nat.le_refl _, hle⟩
    · rintro g ⟨hg, hr, hc, hav, h1, h2⟩ _ huse
      rw [(hinside g hg hr h1 h2).2]
      have hlt : g.nextPhysAddr / pageSize < k := by
        refine Nat.lt_of_le_of_ne h2 fun he => huse ?_
        rw [he, hc, hfree]
      refine ⟨Nat.dvd_add hg (Nat.dvd_refl _), hr, hc, hav, ?_, ?_⟩
      · simp only [add_page_div]
        omega
      · simp only [add_page_div]
        omega
    · rintro g ⟨hg, hr, hc, hav, h1, h2⟩ _ _
      obtain ⟨hw, -⟩ := hinside g hg hr h1 h2
      have hv := (hinside { g with count := Function.update g.count (g.nextPhysAddr / pageSize) 1 } hg hr h1 h2).2
      rw [hv]
      exact ⟨Nat.dvd_add hg (Nat.dvd_refl _), fun _ => ⟨hg, hw⟩⟩
    · rintro g ⟨hg, -⟩ _
      exact ⟨hg, fun h0 => absurd rfl h0⟩
  · rw [allocPage_of_not_avail (by simpa using havail)]
    exact ⟨ha, fun h0 => absurd rfl h0⟩

/-- In runs in which `alloc_page` finds a free frame before it leaves the regions, all addresses that it returns are
pages inside of regions. -/
theorem alloc_whole_page {f : Frames} {is : List FrameInput} {s : FrameRun} (ho : Ordered f.regions)
    (ha : pageSize ∣ f.nextPhysAddr) (hm : Machine.Meets frameStep FrameAhead is f.start)
    (hrun : Machine.run frameStep is f.start = some s) :
    ∀ a ∈ s.returned, pageSize ∣ a ∧ WholePage f.regions a := by
  have hinv : pageSize ∣ s.frames.nextPhysAddr ∧ s.frames.regions = f.regions ∧
      ∀ a ∈ s.returned, pageSize ∣ a ∧ WholePage f.regions a := by
    refine Machine.Meets.invariant (P := fun s => pageSize ∣ s.frames.nextPhysAddr ∧ s.frames.regions = f.regions ∧
      ∀ a ∈ s.returned, pageSize ∣ a ∧ WholePage f.regions a) ?_ ⟨ha, rfl, by simp [Frames.start]⟩ hm hrun
    rintro t i t' ⟨hn, hr, hret⟩ hC hs
    have hr' : t'.frames.regions = f.regions := by rw [frameStep_regions hs, hr]
    cases i with
    | alloc =>
      cases hs
      obtain ⟨h1, h2⟩ := allocPage_ahead (by rw [hr]; exact ho) hn hC
      rw [hr] at h2
      refine ⟨h1, hr', fun a hmem => ?_⟩
      simp only at hmem
      split at hmem
      · exact hret a hmem
      · rename_i h0
        rcases List.mem_cons.1 hmem with rfl | hmem
        · exact h2 h0
        · exact hret a hmem
    | ref addr =>
      cases hs
      exact ⟨by rw [(refPage_next _ _).1]; exact hn, hr', hret⟩
    | free addr =>
      cases hs
      refine ⟨?_, hr', hret⟩
      by_cases h0 : addr.toNat = 0
      · simpa [freePage, h0] using hn
      · obtain ⟨-, -, -, ⟨he, -⟩ | ⟨he, -⟩⟩ := freePage_moves t.frames addr.toNat_lt h0
        · simpa [he] using hn
        · simp only [he]
          exact Nat.dvd_mul_left _ _
  exact hinv.2.2

private theorem smallFrames_ahead : Machine.Meets frameStep FrameAhead [.alloc] smallFrames.start := by
  refine ⟨fun _ => ⟨0x101, by decide, rfl, fun j h1 h2 => ?_⟩, fun _ _ => trivial⟩
  obtain rfl : j = 0x101 := by
    simp only [Frames.start, smallFrames, pageSize] at h1
    omega
  exact ⟨_, List.mem_singleton.2 rfl, by decide, by decide⟩

theorem alloc_whole_page_small : ∃ s, Machine.run frameStep [.alloc] smallFrames.start = some s ∧
    s.returned = [0x101000] ∧ ∀ a ∈ s.returned, pageSize ∣ a ∧ WholePage smallFrames.regions a := by
  refine ⟨_, rfl, ?_, alloc_whole_page smallFrames_ordered smallFrames_boot.aligned smallFrames_ahead rfl⟩
  simp only [Frames.start, smallFrames_alloc]
  decide

/-- The second address is the end of the region. -/
theorem not_alloc_whole_page : ∃ s, Machine.run frameStep [.alloc, .alloc] smallFrames.start = some s ∧
    0x102000 ∈ s.returned ∧ ¬WholePage smallFrames.regions 0x102000 := by
  refine ⟨_, rfl, ?_, ?_⟩
  · simp [Frames.start, smallFrames_alloc_alloc]
  · rintro ⟨r, hr, -, h⟩
    obtain rfl := List.mem_singleton.1 hr
    exact absurd h (by decide)

/-! ### Exhausted memory -/

/-- No region of the map has a whole frame in a gap between two neighbours or behind the last region, as in every map
whose regions are in order and do not overlap. -/
structure Frames.Searchable (f : Frames) : Prop where
  gaps : GapFree (fun k => WholePage f.regions (k * pageSize)) f
  last : ∀ r ∈ f.regions, r.base + r.len ≤ (f.region f.last).base + (f.region f.last).len

private theorem Ordered.searchable {f : Frames} (h : Ordered f.regions) : f.Searchable := by
  refine ⟨fun c k hc h1 h2 hwhole => h.not_inRegion_gap hc h1 h2 ?_, fun r hr => h.end_le_last hr⟩
  obtain ⟨r, hr, h3, h4⟩ := hwhole
  have hpos : 0 < pageSize := by decide
  refine ⟨r, hr, ?_, ?_⟩
  · rw [Nat.add_mul]
    omega
  · omega

/-- All whole frames of the map at or above the initial `next_phys_addr` are in use. -/
def AllUsed (f : Frames) (s : FrameRun) : Prop :=
  ∀ k, f.nextPhysAddr / pageSize ≤ k → WholePage f.regions (k * pageSize) → s.frames.count k ≠ 0

/-- A search that has not reached the end of the map before only fails if it passes all frames. -/
private theorem allocPage_exhausted {f g : Frames} {n : Nat} (hs : f.Searchable) (hr : g.regions = f.regions)
    (hused : UsedBefore (fun k => WholePage f.regions (k * pageSize)) n g) (havail : g.memAvail = true)
    (hzero : ¬(g.nextPhysAddr = 0 ∧ g.count 0 = 0)) (hfail : (allocPage g).2 = 0) :
    ∀ k, n ≤ k → WholePage f.regions (k * pageSize) → g.count k ≠ 0 := by
  revert hfail
  refine allocPage_rule
    (P := fun h => UsedBefore (fun k => WholePage f.regions (k * pageSize)) n h ∧ h.regions = f.regions ∧
      h.count = g.count ∧ ¬(h.nextPhysAddr = 0 ∧ g.count 0 = 0) ∧
      (h.memAvail = false → (f.region f.last).base + (f.region f.last).len ≤ h.nextPhysAddr))
    (Q := fun r => r.2 = 0 → ∀ k, n ≤ k → WholePage f.regions (k * pageSize) → g.count k ≠ 0) ?_ ?_ ?_
    ⟨hused, hr, rfl, hzero, fun hna => by rw [havail] at hna; cases hna⟩
  · rintro h ⟨hu, hreg, hc, hz, -⟩ hav huse
    refine ⟨hu.vmNextPage (hs.gaps.congr hreg) huse, by rw [vmNextPage_regions, hreg],
      by rw [vmNextPage_count, hc], ?_, fun hna => ?_⟩
    · rintro ⟨h0, hc0⟩
      rcases vmNextPage_moves h with ⟨c, h1, h2, he⟩ | ⟨-, he⟩ | ⟨-, curr, he⟩
      · rw [he] at h0
        simp only at h0
        omega
      · rw [he] at h0
        simp only [pageSize] at h0
        omega
      · rw [he] at h0
        exact hz ⟨h0, hc0⟩
    · have hregion : (h.region h.last) = f.region f.last := by
        unfold Frames.last Frames.region
        rw [hreg]
      rcases vmNextPage_moves h with ⟨c, -, -, he⟩ | ⟨-, he⟩ | ⟨hend, curr, he⟩
      · rw [he] at hna
        rw [hav] at hna
        cases hna
      · rw [he] at hna
        rw [hav] at hna
        cases hna
      · rw [he, ← hregion]
        exact hend
  · rintro h ⟨-, -, hc, hz, -⟩ _ hfree h0
    simp only at h0
    rw [h0, Nat.zero_div, hc] at hfree
    exact absurd ⟨h0, hfree⟩ hz
  · rintro h ⟨hu, -, hc, -, hend⟩ hna _ k hk hwhole
    rw [← hc]
    refine hu k hk ?_ hwhole
    obtain ⟨r, hrm, -, h2⟩ := hwhole
    have h3 := hs.last r hrm
    have h4 := hend hna
    refine (Nat.le_div_iff_mul_le (by decide)).2 ?_
    rw [Nat.succ_mul]
    omega

/-- After every run, `alloc_page` fails only if all frames are in use, exactly if the search has not reached the end
of the map yet and would not return the frame at address 0, unless all frames are in use. -/
theorem alloc_complete_iff {f : Frames} {is : List FrameInput} {s : FrameRun} (hs : f.Searchable)
    (hrun : Machine.run frameStep is f.start = some s) :
    ((allocPage s.frames).2 = 0 → AllUsed f s) ↔
      (s.frames.memAvail = true ∧ ¬(s.frames.nextPhysAddr = 0 ∧ s.frames.count 0 = 0)) ∨ AllUsed f s := by
  obtain ⟨hused, hr⟩ := run_usedBefore hs.gaps hrun
  constructor
  · intro h
    by_cases havail : s.frames.memAvail = true
    · by_cases hzero : s.frames.nextPhysAddr = 0 ∧ s.frames.count 0 = 0
      · refine Or.inr (h ?_)
        rw [allocPage_of_free havail (by rw [hzero.1, Nat.zero_div]; exact hzero.2)]
        exact hzero.1
      · exact Or.inl ⟨havail, hzero⟩
    · refine Or.inr (h ?_)
      rw [allocPage_of_not_avail (by simpa using havail)]
  · rintro (⟨havail, hzero⟩ | hall) hfail
    · exact allocPage_exhausted hs hr hused havail hzero hfail
    · exact hall

theorem alloc_complete_small : ∃ s, Machine.run frameStep [.alloc] smallFrames.start = some s ∧
    ((allocPage s.frames).2 = 0 → AllUsed smallFrames s) := by
  have hrun : Machine.run frameStep [.alloc] smallFrames.start = some ⟨(allocPage smallFrames).1, [0x101000]⟩ := by
    simp only [Machine.run, frameStep, Frames.start, smallFrames_alloc]
    rfl
  refine ⟨_, hrun, (alloc_complete_iff smallFrames_ordered.searchable hrun).2 (Or.inl ?_)⟩
  simp only [smallFrames_alloc]
  decide

/-- Once the search has reached the end of the map, a frame that is freed is not found. -/
theorem not_alloc_complete : ∃ s, Machine.run frameStep [.alloc, .alloc, .free 0x101000] smallFrames.start = some s ∧
    (allocPage s.frames).2 = 0 ∧ ¬AllUsed smallFrames s := by
  refine ⟨_, rfl, ?_, fun h => ?_⟩
  · rw [allocPage_of_not_avail]
    simp only [Frames.start, smallFrames_alloc_alloc]
    rfl
  · have hcount := h 0x101 (by decide) ⟨_, List.mem_singleton.2 rfl, by decide, by decide⟩
    simp only [Frames.start, smallFrames_alloc_alloc] at hcount
    exact hcount rfl

end Pml.Arch
