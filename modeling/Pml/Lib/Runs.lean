import Mathlib.Data.List.Basic
import Mathlib.Data.List.Pairwise

/-!
# Maps given by runs

A run maps the numbers of an interval to values.  A list of runs is a partial map of the numbers; it is ascending if
each run ends before the next ones start.
-/

namespace Runs

/-- The numbers from `lo` up to `hi`, with their values. -/
structure Run (α : Type*) where
  lo : Nat
  hi : Nat
  val : Nat → α

variable {α : Type*}

/-- The number is in the interval of the run. -/
def Run.Covers (r : Run α) (k : Nat) : Prop := r.lo ≤ k ∧ k < r.hi

instance (r : Run α) (k : Nat) : Decidable (r.Covers k) := inferInstanceAs (Decidable (_ ∧ _))

/-- The value of a number in the first run that has it. -/
def lookup (l : List (Run α)) (k : Nat) : Option α := (l.find? fun r => decide (r.Covers k)).map fun r => r.val k

/-- The numbers of all runs with their values, in the order of the list. -/
def points (l : List (Run α)) : List (Nat × α) :=
  l.flatMap fun r => (List.range' r.lo (r.hi - r.lo)).map fun k => (k, r.val k)

/-- Each run ends before the runs after it start. -/
def Ascending (l : List (Run α)) : Prop := l.Pairwise fun r s => r.hi ≤ s.lo

/-! ### Lookups -/

@[simp] theorem lookup_nil (k : Nat) : lookup ([] : List (Run α)) k = none := rfl

private theorem lookup_cons_of_covers {r : Run α} {k : Nat} (l : List (Run α)) (h : r.Covers k) :
    lookup (r :: l) k = some (r.val k) := by
  simp [lookup, h]

private theorem lookup_cons_of_not {r : Run α} {k : Nat} (l : List (Run α)) (h : ¬ r.Covers k) :
    lookup (r :: l) k = lookup l k := by
  simp [lookup, h]

private theorem exists_of_lookup {l : List (Run α)} {k : Nat} {a : α} (h : lookup l k = some a) :
    ∃ r ∈ l, r.Covers k ∧ r.val k = a := by
  unfold lookup at h
  rw [Option.map_eq_some_iff] at h
  obtain ⟨r, hr, ha⟩ := h
  exact ⟨r, List.mem_of_find?_eq_some hr, by simpa using List.find?_some hr, ha⟩

/-- In an ascending list at most one run has a number. -/
theorem Ascending.lookup_of_mem {l : List (Run α)} (hl : Ascending l) {r : Run α} (hr : r ∈ l) {k : Nat}
    (hk : r.Covers k) : lookup l k = some (r.val k) := by
  induction l with
  | nil => simp at hr
  | cons s l ih =>
    rcases List.mem_cons.1 hr with rfl | hmem
    · exact lookup_cons_of_covers l hk
    · have hlt := List.rel_of_pairwise_cons hl hmem
      rw [lookup_cons_of_not l (fun hc => by unfold Run.Covers at hc hk; omega)]
      exact ih (List.Pairwise.of_cons hl) hmem

/-! ### Points -/

theorem mem_points {l : List (Run α)} {k : Nat} {a : α} : (k, a) ∈ points l ↔ ∃ r ∈ l, r.Covers k ∧ r.val k = a := by
  unfold points
  rw [List.mem_flatMap]
  constructor
  · rintro ⟨r, hr, hk⟩
    obtain ⟨j, hj, he⟩ := List.mem_map.1 hk
    rw [List.mem_range'_1] at hj
    cases he
    exact ⟨r, hr, ⟨hj.1, by omega⟩, rfl⟩
  · rintro ⟨r, hr, hk, rfl⟩
    refine ⟨r, hr, List.mem_map.2 ⟨k, List.mem_range'_1.2 ⟨hk.1, ?_⟩, rfl⟩⟩
    have h2 := hk.2
    have h1 := hk.1
    omega

theorem Ascending.mem_points_iff {l : List (Run α)} (hl : Ascending l) {k : Nat} {a : α} :
    (k, a) ∈ points l ↔ lookup l k = some a := by
  rw [mem_points]
  constructor
  · rintro ⟨r, hr, hk, rfl⟩
    exact hl.lookup_of_mem hr hk
  · exact exists_of_lookup

/-- The points of an ascending list are in ascending order. -/
theorem Ascending.pairwise_points {l : List (Run α)} (hl : Ascending l) :
    (points l).Pairwise fun p q => p.1 < q.1 := by
  unfold points
  rw [List.pairwise_flatMap]
  constructor
  · intro r _
    rw [List.pairwise_map]
    exact List.pairwise_lt_range'
  · refine hl.imp ?_
    intro r s hrs p hp q hq
    obtain ⟨i, hi, rfl⟩ := List.mem_map.1 hp
    obtain ⟨j, hj, rfl⟩ := List.mem_map.1 hq
    rw [List.mem_range'_1] at hi hj
    simp only
    omega

end Runs
