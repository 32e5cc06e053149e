import Mathlib.Algebra.BigOperators.Group.Finset.Basic
import Mathlib.Data.Finset.Card

/-!
# Counts of a finite set

When one element enters a filtered set, its number of elements grows by one, and disjoint parts of a set have no more
elements than the set.
-/

namespace Counting

variable {α : Type*} {s : Finset α}

theorem card_filter_enter [DecidableEq α] {p q : α → Prop} [DecidablePred p] [DecidablePred q] {a : α} (hp : ¬p a)
    (h : ∀ x, q x ↔ x = a ∨ p x) : (s.filter q).card = (s.filter p).card + if a ∈ s then 1 else 0 := by
  by_cases ha : a ∈ s
  · rw [if_pos ha]
    have hins : s.filter q = insert a (s.filter p) := by
      ext x
      simp only [Finset.mem_filter, Finset.mem_insert, h]
      constructor
      · rintro ⟨hx, rfl | hpx⟩
        · exact Or.inl rfl
        · exact Or.inr ⟨hx, hpx⟩
      · rintro (rfl | ⟨hx, hpx⟩)
        · exact ⟨ha, Or.inl rfl⟩
        · exact ⟨hx, Or.inr hpx⟩
    rw [hins, Finset.card_insert_of_notMem (fun hmem => hp (Finset.mem_filter.1 hmem).2)]
  · rw [if_neg ha, Nat.add_zero]
    have hsame : ∀ x ∈ s, q x ↔ p x := fun x hx => by
      have hne : x ≠ a := fun hxa => ha (hxa ▸ hx)
      simp [h, hne]
    rw [Finset.filter_congr hsame]

/-- Disjoint parts of a set. -/
theorem sum_card_le {β : Type*} [DecidableEq β] {t : α → Finset β} {u : Finset β}
    (hdisj : (s : Set α).PairwiseDisjoint t) (hsub : ∀ x ∈ s, t x ⊆ u) : ∑ x ∈ s, (t x).card ≤ u.card := by
  rw [← Finset.card_biUnion hdisj]
  exact Finset.card_le_card (Finset.biUnion_subset.2 hsub)

end Counting
