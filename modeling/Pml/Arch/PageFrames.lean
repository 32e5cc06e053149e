import Mathlib.Logic.Function.Basic
import Mathlib.Tactic.Linarith
import Pml.Basic

/-!
# The page frame allocator (`arch/x86_64/mm.c`)

`phys_alloc_table` holds a reference count for every page frame.  `alloc_page` searches forward from
`next_phys_addr` for a frame with count zero; `vm_next_page` moves that address along the memory map and clears
`mem_avail` at its end.  The counts are natural numbers here: a count is at most the number of address spaces, each
of which needs a frame of its own, and there are fewer than `2 ^ 32` frames.
-/

namespace Pml.Arch

abbrev pageSize : Nat := 0x1000

structure MemRegion where
  base : Nat
  len : Nat
  deriving DecidableEq, Repr

/-- `phys_alloc_table`, `next_phys_addr`, `mem_avail` and `mmap`. -/
structure Frames where
  count : Nat → Nat
  nextPhysAddr : Nat
  memAvail : Bool
  regions : List MemRegion
  curr : Nat

def Frames.region (f : Frames) (i : Nat) : MemRegion := f.regions.getD i ⟨0, 0⟩

/-- The loop of `vm_next_page`, with the number of rounds that remain: the start of the region after a gap, if
`next_phys_addr` lies in one, and the region index where the loop stops. -/
def nextRegion (f : Frames) : Nat → Nat → Option Nat × Nat
  | 0, curr => (none, curr)
  | k + 1, curr =>
    if (f.region curr).base + (f.region curr).len ≤ f.nextPhysAddr ∧ f.nextPhysAddr < (f.region (curr + 1)).base then
      (some (f.region (curr + 1)).base, curr)
    else nextRegion f k (curr + 1)

def vmNextPage (f : Frames) : Frames :=
  let last := f.regions.length - 1
  match nextRegion f (last - f.curr) f.curr with
  | (some base, curr) => { f with nextPhysAddr := base, curr := curr }
  | (none, curr) =>
    if f.nextPhysAddr < (f.region last).base + (f.region last).len then
      { f with nextPhysAddr := f.nextPhysAddr + pageSize, curr := last }
    else { f with memAvail := false, curr := curr }

def Frames.limit (f : Frames) : Nat := (f.regions.map fun r => r.base + r.len).foldr max 0

def Frames.room (f : Frames) : Nat := if f.memAvail then f.limit - f.nextPhysAddr + 1 else 0

private theorem region_end_le (f : Frames) (i : Nat) : (f.region i).base + (f.region i).len ≤ f.limit := by
  unfold Frames.region Frames.limit
  induction f.regions generalizing i with
  | nil => simp
  | cons r rs ih =>
    simp only [List.map_cons, List.foldr_cons]
    cases i with
    | zero => simp
    | succ i => exact Nat.le_trans (ih i) (Nat.le_max_right _ _)

private theorem nextRegion_some {f : Frames} {k c base curr : Nat} (h : nextRegion f k c = (some base, curr)) :
    ∃ i, base = (f.region i).base ∧ f.nextPhysAddr < base := by
  induction k generalizing c with
  | zero => simp [nextRegion] at h
  | succ k ih =>
    unfold nextRegion at h
    split at h
    · rename_i hgap
      obtain ⟨h1, -⟩ := Prod.mk.inj h
      obtain rfl := Option.some.inj h1
      exact ⟨c + 1, rfl, hgap.2⟩
    · exact ih h

theorem vmNextPage_cases (f : Frames) :
    (∃ i curr, f.nextPhysAddr < (f.region i).base ∧
      vmNextPage f = { f with nextPhysAddr := (f.region i).base, curr := curr }) ∨
    (f.nextPhysAddr < f.limit ∧
      vmNextPage f = { f with nextPhysAddr := f.nextPhysAddr + pageSize, curr := f.regions.length - 1 }) ∨
    ∃ curr, vmNextPage f = { f with memAvail := false, curr := curr } := by
  unfold vmNextPage
  rcases hr : nextRegion f (f.regions.length - 1 - f.curr) f.curr with ⟨_ | base, curr⟩
  · simp only [hr]
    split
    · rename_i hlt
      exact Or.inr (Or.inl ⟨Nat.lt_of_lt_of_le hlt (region_end_le f _), rfl⟩)
    · exact Or.inr (Or.inr ⟨curr, rfl⟩)
  · obtain ⟨i, rfl, hlt⟩ := nextRegion_some hr
    exact Or.inl ⟨i, curr, hlt, by simp only [hr]⟩

theorem vmNextPage_room {f : Frames} (h : f.memAvail = true) : (vmNextPage f).room < f.room := by
  rcases vmNextPage_cases f with ⟨i, curr, hlt, he⟩ | ⟨hlt, he⟩ | ⟨curr, he⟩
  · have h1 := region_end_le f i
    simp only [he, Frames.room, h, Frames.limit, ↓reduceIte] at h1 ⊢
    omega
  · simp only [he, Frames.room, h, Frames.limit, pageSize, ↓reduceIte] at hlt ⊢
    omega
  · simp [he, Frames.room, h]

/-- `alloc_page`: zero if there is no free frame. -/
def allocPage (f : Frames) : Frames × Nat :=
  if h : f.memAvail = true then
    let i := f.nextPhysAddr / pageSize
    if f.count i = 0 then (vmNextPage { f with count := Function.update f.count i 1 }, f.nextPhysAddr)
    else allocPage (vmNextPage f)
  else (f, 0)
termination_by f.room
decreasing_by exact vmNextPage_room h

def refPage (f : Frames) (addr : Nat) : Frames :=
  if addr = 0 then f
  else
    let i := addr / pageSize
    if f.count i = 0 then f else { f with count := Function.update f.count i (f.count i + 1) }

/-- The loop of `free_page` that moves back to the region of an address. -/
def rewind (f : Frames) (addr : Nat) : Nat → Nat
  | 0 => 0
  | curr + 1 => if addr < (f.region (curr + 1)).base then rewind f addr curr else curr + 1

def freePage (f : Frames) (addr : Nat) : Frames :=
  if addr = 0 then f
  else
    let addr := alignDown addr pageSize
    let i := addr / pageSize
    let f := { f with count := Function.update f.count i (f.count i - 1) }
    if f.count i = 0 ∧ addr < f.nextPhysAddr then
      { f with nextPhysAddr := addr, curr := rewind f addr f.curr }
    else f

/-! ### What the operations do to the counts -/

/-- The memory map starts its regions on page boundaries below the limit of physical memory. -/
structure Frames.Wf (f : Frames) : Prop where
  aligned : pageSize ∣ f.nextPhysAddr
  next : f.nextPhysAddr ≤ 2 ^ 41 + pageSize
  bases : ∀ i, pageSize ∣ (f.region i).base
  ends : f.limit ≤ 2 ^ 41

theorem Frames.Wf.vmNextPage {f : Frames} (h : f.Wf) : (vmNextPage f).Wf ∧ (vmNextPage f).count = f.count := by
  have hends := h.ends
  rcases vmNextPage_cases f with ⟨i, curr, hlt, he⟩ | ⟨hlt, he⟩ | ⟨curr, he⟩
  · have h1 := region_end_le f i
    rw [he]
    exact ⟨⟨h.bases i, by simp only [pageSize]; omega, h.bases, h.ends⟩, rfl⟩
  · rw [he]
    refine ⟨⟨Nat.dvd_add h.aligned (Nat.dvd_refl _), ?_, h.bases, h.ends⟩, rfl⟩
    simp only [pageSize]
    omega
  · rw [he]
    exact ⟨⟨h.aligned, h.next, h.bases, h.ends⟩, rfl⟩

/-- `alloc_page` returns a frame that had count zero and has count one now, or changes no count. -/
theorem allocPage_spec {f : Frames} (h : f.Wf) : (allocPage f).1.Wf ∧
    (((allocPage f).2 = 0 ∧ (allocPage f).1.count = f.count) ∨
      (pageSize ∣ (allocPage f).2 ∧ (allocPage f).2 ≤ 2 ^ 41 + pageSize ∧ f.count ((allocPage f).2 / pageSize) = 0 ∧
        (allocPage f).1.count = Function.update f.count ((allocPage f).2 / pageSize) 1)) := by
  induction hr : f.room using Nat.strong_induction_on generalizing f with
  | _ n ih =>
    unfold allocPage
    split
    · rename_i havail
      by_cases hc : f.count (f.nextPhysAddr / pageSize) = 0
      · have hw : ({ f with count := Function.update f.count (f.nextPhysAddr / pageSize) 1 } : Frames).Wf :=
          ⟨h.aligned, h.next, h.bases, h.ends⟩
        obtain ⟨h1, h2⟩ := hw.vmNextPage
        rw [if_pos hc]
        exact ⟨h1, Or.inr ⟨h.aligned, h.next, hc, h2⟩⟩
      · obtain ⟨h1, h2⟩ := h.vmNextPage
        have hlt := vmNextPage_room havail
        have h3 := ih _ (by omega) h1 rfl
        rw [if_neg hc]
        rw [h2] at h3
        exact h3
    · exact ⟨h, Or.inl ⟨rfl, rfl⟩⟩

theorem allocPage_le {f : Frames} (h : f.Wf) (i : Nat) : f.count i ≤ (allocPage f).1.count i := by
  obtain ⟨-, ⟨-, hc⟩ | ⟨-, -, hz, hc⟩⟩ := allocPage_spec h
  · rw [hc]
  · rw [hc]
    by_cases hi : i = (allocPage f).2 / pageSize
    · rw [hi, hz]
      exact Nat.zero_le _
    · rw [Function.update_of_ne hi]

theorem refPage_count {f : Frames} {addr : Nat} (i : Nat) : (refPage f addr).count i =
    if addr ≠ 0 ∧ i = addr / pageSize ∧ f.count i ≠ 0 then f.count i + 1 else f.count i := by
  unfold refPage
  by_cases h0 : addr = 0
  · simp [h0]
  · by_cases hc : f.count (addr / pageSize) = 0
    · by_cases hi : i = addr / pageSize
      · simp [h0, hi, hc]
      · simp [h0, hi, hc]
    · by_cases hi : i = addr / pageSize
      · simp [h0, hi, hc]
      · simp [h0, hi, hc, Function.update_of_ne]

theorem Frames.Wf.refPage {f : Frames} (h : f.Wf) (addr : Nat) : (refPage f addr).Wf := by
  unfold Pml.Arch.refPage
  split
  · exact h
  · simp only
    split
    · exact h
    · exact ⟨h.aligned, h.next, h.bases, h.ends⟩

theorem freePage_spec {f : Frames} (h : f.Wf) {addr a : Nat} (h0 : addr ≠ 0) (ha : alignDown addr pageSize = a)
    (hdvd : pageSize ∣ a) : (freePage f addr).Wf ∧
      (freePage f addr).count = Function.update f.count (a / pageSize) (f.count (a / pageSize) - 1) := by
  unfold freePage
  simp only [h0, ha, ↓reduceIte]
  split
  · rename_i hlt
    have hnext := h.next
    exact ⟨⟨hdvd, by simp only at hlt ⊢; omega, h.bases, h.ends⟩, rfl⟩
  · exact ⟨⟨h.aligned, h.next, h.bases, h.ends⟩, rfl⟩

end Pml.Arch
