import Mathlib.Data.List.Basic
import Mathlib.Data.List.Nodup
import Mathlib.Logic.Function.Basic
import Pml.Lib.Assoc

/-!
# Hash tables with chains

`n` chains hold pairs of keys and values.  In a table in which every key is in the chain of its hash and at most once
(`Placed`), the chains stand for a finite map (`Represents`): a key is looked up in its chain, the list of all the
pairs has each key once, and a change of one chain changes the map at one key (`Placed.update`, `Represents.update`).
The pairs can be distributed over any other number of chains (`Placed.distribute`).
-/

namespace Pml.Chains

variable {κ ν : Type}

/-- All the pairs, from the first chain to the last. -/
def contents (n : Nat) (b : Nat → List (κ × ν)) : List (κ × ν) := (List.range n).flatMap b

/-- Every key is in the chain of its hash, and at most once. -/
structure Placed (hash : κ → Nat) (n : Nat) (b : Nat → List (κ × ν)) : Prop where
  pos : 0 < n
  place : ∀ i < n, ∀ e ∈ b i, hash e.1 % n = i
  nodup : ∀ i < n, ((b i).map Prod.fst).Nodup

/-- The table stands for the map. -/
def Represents (n : Nat) (b : Nat → List (κ × ν)) (f : κ → Option ν) : Prop :=
  ∀ k v, (k, v) ∈ contents n b ↔ f k = some v

/-- Appends each pair to the chain of its hash. -/
def distribute (hash : κ → Nat) (n : Nat) : List (κ × ν) → (Nat → List (κ × ν)) → Nat → List (κ × ν)
  | [], b => b
  | e :: es, b => distribute hash n es (Function.update b (hash e.1 % n) (b (hash e.1 % n) ++ [e]))

section

variable {hash : κ → Nat} {n : Nat} {b : Nat → List (κ × ν)} {f : κ → Option ν} {k : κ} {v : ν}

theorem mem_contents {e : κ × ν} : e ∈ contents n b ↔ ∃ i < n, e ∈ b i := by
  simp [contents]

theorem Placed.mem_chain (h : Placed hash n b) {e : κ × ν} : e ∈ contents n b ↔ e ∈ b (hash e.1 % n) := by
  rw [mem_contents]
  constructor
  · rintro ⟨i, hi, he⟩
    rwa [h.place i hi e he]
  · exact fun he => ⟨_, Nat.mod_lt _ h.pos, he⟩

theorem Placed.nodup_contents (h : Placed hash n b) : ((contents n b).map Prod.fst).Nodup := by
  rw [contents, List.map_flatMap, List.nodup_flatMap]
  refine ⟨fun i hi => h.nodup i (List.mem_range.1 hi), List.nodup_range.imp_of_mem ?_⟩
  intro i j hi hj hne k hki hkj
  obtain ⟨e, he, rfl⟩ := List.mem_map.1 hki
  obtain ⟨e', he', hk⟩ := List.mem_map.1 hkj
  have h1 := h.place i (List.mem_range.1 hi) e he
  have h2 := h.place j (List.mem_range.1 hj) e' he'
  rw [hk] at h2
  exact hne (h1.symm.trans h2)

/-- A key is looked up in its chain. -/
theorem Placed.lookup_eq [BEq κ] [LawfulBEq κ] (h : Placed hash n b) (hf : Represents n b f) (k : κ) :
    (b (hash k % n)).lookup k = f k := by
  refine Option.ext fun v => ?_
  rw [lookup_eq_some_iff (h.nodup _ (Nat.mod_lt _ h.pos)), ← hf k v]
  exact h.mem_chain.symm

theorem Placed.mem_keys (h : Placed hash n b) (hf : Represents n b f) (k : κ) :
    k ∈ (b (hash k % n)).map Prod.fst ↔ f k ≠ none := by
  rw [Option.ne_none_iff_exists']
  constructor
  · intro hk
    obtain ⟨⟨k', v⟩, he, rfl⟩ := List.mem_map.1 hk
    exact ⟨v, (hf k' v).1 (h.mem_chain.2 he)⟩
  · rintro ⟨v, hv⟩
    exact List.mem_map.2 ⟨(k, v), h.mem_chain.1 ((hf k v).2 hv), rfl⟩

/-- The table stands for the map of what its lookups find. -/
theorem Placed.represents [BEq κ] [LawfulBEq κ] (h : Placed hash n b) :
    Represents n b fun k => (b (hash k % n)).lookup k := by
  intro k v
  rw [h.mem_chain]
  exact (lookup_eq_some_iff (h.nodup _ (Nat.mod_lt _ h.pos))).symm

/-! ### A change of one chain -/

section

variable {c : List (κ × ν)}

private theorem contents_succ (n : Nat) (b : Nat → List (κ × ν)) : contents (n + 1) b = contents n b ++ b n := by
  simp [contents, List.range_succ]

/-- The chains from the `n`th on do not matter. -/
private theorem contents_congr {b' : Nat → List (κ × ν)} (h : ∀ i < n, b' i = b i) :
    contents n b' = contents n b := by
  induction n with
  | zero => rfl
  | succ n ih =>
    rw [contents_succ, contents_succ, h n n.lt_succ_self, ih fun i hi => h i (Nat.lt_succ_of_lt hi)]

/-- A change of one chain changes the number of pairs by as much as the chain. -/
theorem length_contents_update {i : Nat} (hi : i < n) :
    (contents n (Function.update b i c)).length + (b i).length = (contents n b).length + c.length := by
  induction n with
  | zero => exact absurd hi i.not_lt_zero
  | succ n ih =>
    rw [contents_succ, contents_succ, List.length_append, List.length_append]
    by_cases hn : i = n
    · subst hn
      rw [contents_congr fun j hj => Function.update_of_ne (Nat.ne_of_lt hj) c b, Function.update_self]
      omega
    · have hlt := ih (by omega)
      rw [Function.update_of_ne (fun h => hn h.symm)]
      omega

/-- What is appended to a chain is added to the pairs. -/
theorem contents_update_append {i : Nat} (hi : i < n) (l : List (κ × ν)) :
    (contents n (Function.update b i (b i ++ l))).Perm (contents n b ++ l) := by
  induction n with
  | zero => exact absurd hi i.not_lt_zero
  | succ n ih =>
    rw [contents_succ, contents_succ]
    by_cases hn : i = n
    · subst hn
      rw [contents_congr fun j hj => Function.update_of_ne (Nat.ne_of_lt hj) _ b, Function.update_self,
        List.append_assoc]
    · rw [Function.update_of_ne (fun h => hn h.symm)]
      refine ((ih (by omega)).append_right (b n)).trans ?_
      rw [List.append_assoc, List.append_assoc]
      exact List.perm_append_comm.append_left _

theorem Placed.update (h : Placed hash n b) (hplace : ∀ e ∈ c, hash e.1 % n = hash k % n)
    (hnodup : (c.map Prod.fst).Nodup) : Placed hash n (Function.update b (hash k % n) c) := by
  refine ⟨h.pos, fun i hi e he => ?_, fun i hi => ?_⟩
  · by_cases heq : i = hash k % n
    · subst heq
      rw [Function.update_self] at he
      exact hplace e he
    · rw [Function.update_of_ne heq] at he
      exact h.place i hi e he
  · by_cases heq : i = hash k % n
    · rwa [heq, Function.update_self]
    · rw [Function.update_of_ne heq]
      exact h.nodup i hi

/-- A change of the chain of a key that leaves the other keys in it alone changes the map at the key. -/
theorem Represents.update [DecidableEq κ] (h : Placed hash n b) (hf : Represents n b f)
    (hc : Placed hash n (Function.update b (hash k % n) c)) {o : Option ν}
    (hother : ∀ e : κ × ν, e.1 ≠ k → (e ∈ c ↔ e ∈ b (hash k % n))) (hself : ∀ v, (k, v) ∈ c ↔ o = some v) :
    Represents n (Function.update b (hash k % n) c) (Function.update f k o) := by
  intro k' v
  rw [hc.mem_chain]
  by_cases hk : k' = k
  · subst hk
    rw [Function.update_self, Function.update_self]
    exact hself v
  · rw [Function.update_of_ne hk, ← hf k' v, h.mem_chain]
    by_cases hchain : hash k' % n = hash k % n
    · simp only [hchain, Function.update_self]
      exact hother (k', v) hk
    · simp only [Function.update_of_ne hchain]

end

/-! ### Another number of chains -/

private theorem distribute_apply (es : List (κ × ν)) (b : Nat → List (κ × ν)) (i : Nat) :
    distribute hash n es b i = b i ++ es.filter fun e => hash e.1 % n = i := by
  induction es generalizing b with
  | nil => simp [distribute]
  | cons e es ih =>
    rw [distribute, ih, List.filter_cons]
    by_cases h : hash e.1 % n = i
    · subst h
      simp
    · rw [Function.update_of_ne (fun he => h he.symm)]
      simp [h]

theorem distribute_append (es es' : List (κ × ν)) (b : Nat → List (κ × ν)) :
    distribute hash n (es ++ es') b = distribute hash n es' (distribute hash n es b) := by
  induction es generalizing b with
  | nil => rfl
  | cons e es ih => exact ih _

/-- The pairs stay the same. -/
theorem contents_distribute (hpos : 0 < n) (es : List (κ × ν)) (b : Nat → List (κ × ν)) :
    (contents n (distribute hash n es b)).Perm (contents n b ++ es) := by
  induction es generalizing b with
  | nil => simp [distribute]
  | cons e es ih =>
    have hperm := (contents_update_append (b := b) (Nat.mod_lt (hash e.1) hpos) [e]).append_right es
    rw [List.append_assoc, List.singleton_append] at hperm
    exact (ih _).trans hperm

theorem contents_nil (n : Nat) : contents n (fun _ => ([] : List (κ × ν))) = [] := by
  simp [contents]

theorem Placed.distribute {n' : Nat} (h : Placed hash n b) (hpos : 0 < n') :
    Placed hash n' (distribute hash n' (contents n b) fun _ => []) := by
  refine ⟨hpos, fun i _ e he => ?_, fun i _ => ?_⟩
  · rw [distribute_apply, List.nil_append, List.mem_filter] at he
    simpa using he.2
  · rw [distribute_apply, List.nil_append]
    exact h.nodup_contents.sublist (List.filter_sublist.map Prod.fst)

theorem Represents.distribute {n' : Nat} (h : Placed hash n b) (hf : Represents n b f) (hpos : 0 < n') :
    Represents n' (distribute hash n' (contents n b) fun _ => []) f := by
  intro k v
  rw [(h.distribute hpos).mem_chain, distribute_apply, List.nil_append, List.mem_filter, ← hf k v]
  simp

end

end Pml.Chains
