import Mathlib.Data.List.Basic
import Mathlib.Data.List.Nodup

/-!
# Association lists

A list of pairs stands for the map that `List.lookup` reads: the first pair with a key gives its value.  Keys can
occur more than once; where a key does not, it is gone when its pair is taken out of the list.
-/

namespace Pml

section

variable {κ ν : Type} {k k' : κ} {v : ν} {l l1 l2 : List (κ × ν)}

theorem nodup_insert (h : k ∉ (l1 ++ l2).map Prod.fst) (hn : ((l1 ++ l2).map Prod.fst).Nodup) :
    ((l1 ++ (k, v) :: l2).map Prod.fst).Nodup := by
  rw [List.map_append] at h hn
  rw [List.map_append, List.map_cons, List.nodup_middle]
  exact List.nodup_cons.2 ⟨h, hn⟩

theorem nodup_erase (h : ((l1 ++ (k, v) :: l2).map Prod.fst).Nodup) : ((l1 ++ l2).map Prod.fst).Nodup := by
  rw [List.map_append, List.map_cons, List.nodup_middle] at h
  rw [List.map_append]
  exact (List.nodup_cons.1 h).2

theorem not_mem_of_nodup {v' : ν} (h : ((l1 ++ (k, v) :: l2).map Prod.fst).Nodup) : (k, v') ∉ l1 ++ l2 := by
  rw [List.map_append, List.map_cons, List.nodup_middle, List.nodup_cons] at h
  intro hm
  exact h.1 (List.map_append ▸ List.mem_map.2 ⟨_, hm, rfl⟩)

variable [BEq κ] [LawfulBEq κ]

theorem lookup_eq_none_iff : l.lookup k = none ↔ k ∉ l.map Prod.fst := by
  rw [List.lookup_eq_none_iff]
  constructor
  · intro h hmem
    obtain ⟨p, hp, rfl⟩ := List.mem_map.1 hmem
    simpa using h p hp
  · intro h p hp
    have hne : k ≠ p.1 := fun he => h (he ▸ List.mem_map_of_mem hp)
    simpa using hne

/-- Where no key repeats, the pairs are what a lookup finds. -/
theorem lookup_eq_some_iff (h : (l.map Prod.fst).Nodup) : l.lookup k = some v ↔ (k, v) ∈ l := by
  induction l with
  | nil => simp
  | cons e l ih =>
    rw [List.map_cons, List.nodup_cons] at h
    obtain ⟨k', v'⟩ := e
    rw [List.lookup_cons, List.mem_cons]
    by_cases hk : k = k'
    · subst hk
      have hnot : (k, v) ∉ l := fun hm => h.1 (List.mem_map.2 ⟨(k, v), hm, rfl⟩)
      simp [hnot, eq_comm]
    · have hbeq : (k == k') = false := by simpa using hk
      simp [hbeq, hk, ih h.2]

/-- A pair is found unless its key occurs before it. -/
theorem lookup_insert_self (h : k ∉ l1.map Prod.fst) : (l1 ++ (k, v) :: l2).lookup k = some v := by
  rw [List.lookup_append, lookup_eq_none_iff.2 h, List.lookup_cons_self]
  rfl

/-- A pair has no effect on other keys. -/
theorem lookup_insert_of_ne (h : k' ≠ k) : (l1 ++ (k, v) :: l2).lookup k' = (l1 ++ l2).lookup k' := by
  have hne : (k' == k) = false := by simpa using h
  rw [List.lookup_append, List.lookup_append, List.lookup_cons, hne]

/-- A key that does not repeat is gone with its pair. -/
theorem lookup_erase_self (h : ((l1 ++ (k, v) :: l2).map Prod.fst).count k ≤ 1) : (l1 ++ l2).lookup k = none := by
  rw [lookup_eq_none_iff, ← List.count_eq_zero]
  simp only [List.map_append, List.map_cons, List.count_append, List.count_cons_self] at h ⊢
  omega

end

end Pml
