import Pml.Util.Map

/-!
# The representation invariant of the maps (`util/map.c`)

A map is valid if each entry is in the bucket of its hash, no key occurs twice, `object_count` is the number of
entries and is at most three quarters of the number of buckets and one.  An insertion keeps all of this.  A removal
takes an entry out and leaves `object_count` as it is, and nothing ever makes up for it: a run of calls keeps a
`hashmap` valid exactly when no removal finds its key (`map_valid_iff`), and a `strmap` exactly when each removal
finds an empty map.
-/

namespace Pml.Util

open Chains

/-- The invariant of a map. -/
structure Map.Valid {κ ν : Type} (hash : κ → UInt64) (m : Map κ ν) : Prop where
  placed : Placed (fun key => (hash key).toNat) m.bucketCount m.buckets
  unique : (m.iterate.map Prod.fst).Nodup
  count : m.objectCount = m.iterate.length
  load : m.objectCount ≤ m.bucketCount * 3 / 4 + 1

section

variable {κ ν : Type} {hash : κ → UInt64} {m : Map κ ν} {key : κ} {value : ν}

def Map.found [BEq κ] (hash : κ → UInt64) (m : Map κ ν) (key : κ) : Option ν :=
  (m.buckets (m.index hash key)).lookup key

private theorem Map.Valid.models [BEq κ] [LawfulBEq κ] (h : m.Valid hash) : m.Models hash (m.found hash) :=
  ⟨h.placed, h.placed.represents⟩

private theorem create_valid (hash : κ → UInt64) : (Map.create : Map κ ν).Valid hash := by
  refine ⟨(create_models hash).placed, ?_, ?_, Nat.zero_le _⟩
  · exact (create_models hash).placed.nodup_contents
  · exact congrArg List.length (contents_nil initBuckets).symm

/-! ### Insertion -/

private theorem grow_objectCount : (m.grow hash).objectCount = m.objectCount := by
  unfold Map.grow
  split <;> rfl

private theorem grow_iterate (hash : κ → UInt64) (hpos : 0 < m.bucketCount) :
    (m.grow hash).iterate.Perm m.iterate := by
  unfold Map.grow
  split
  · have hperm := @contents_distribute κ ν (fun key => (hash key).toNat) (m.bucketCount * 2)
      (Nat.mul_pos hpos (by decide)) (contents m.bucketCount m.buckets) fun _ => []
    rwa [contents_nil, List.nil_append] at hperm
  · exact List.Perm.refl _

private theorem grow_load (hash : κ → UInt64) (hpos : 0 < m.bucketCount)
    (hload : m.objectCount ≤ m.bucketCount * 3 / 4 + 1) :
    m.objectCount ≤ (m.grow hash).bucketCount * 3 / 4 := by
  unfold Map.grow
  split
  · dsimp only
    omega
  · omega

private theorem grow_valid (h : m.Valid hash) : (m.grow hash).Valid hash := by
  have hperm := grow_iterate hash h.placed.pos
  refine ⟨?_, (hperm.map Prod.fst).nodup_iff.2 h.unique, ?_, ?_⟩
  · unfold Map.grow
    split
    · exact h.placed.distribute (Nat.mul_pos h.placed.pos (by decide))
    · exact h.placed
  · rw [grow_objectCount, h.count, hperm.length_eq]
  · rw [grow_objectCount]
    exact Nat.le_trans (grow_load hash h.placed.pos h.load) (Nat.le_succ _)

variable [DecidableEq κ]

private theorem put_count (hash : κ → UInt64) (key : κ) (value : ν) (hpos : 0 < m.bucketCount) :
    ((m.put hash key value).objectCount = m.objectCount ∧
      (m.put hash key value).iterate.length = m.iterate.length) ∨
    ((m.put hash key value).objectCount = m.objectCount + 1 ∧
      (m.put hash key value).iterate.length = m.iterate.length + 1) := by
  have hi : m.index hash key < m.bucketCount := Nat.mod_lt _ hpos
  unfold Map.put
  cases hr : chainReplace key value (m.buckets (m.index hash key)) with
  | some c =>
    obtain ⟨l1, w, l2, hl, rfl⟩ := chainReplace_some hr
    have hlen := length_contents_update (b := m.buckets) (c := l1 ++ (key, value) :: l2) hi
    rw [hl] at hlen
    simp only [List.length_append, List.length_cons] at hlen
    exact Or.inl ⟨rfl, Nat.add_right_cancel hlen⟩
  | none =>
    have hlen := (contents_update_append (b := m.buckets) hi [(key, value)]).length_eq
    rw [List.length_append] at hlen
    exact Or.inr ⟨rfl, hlen⟩

private theorem insert_valid (h : m.Valid hash) (key : κ) (value : ν) : (m.insert hash key value).Valid hash := by
  have hg := grow_valid h
  have hp := put_models hg.models key value
  have hload := grow_load hash h.placed.pos h.load
  have hcount := hg.count
  rw [grow_objectCount] at hcount
  have hbuckets : (m.insert hash key value).bucketCount = (m.grow hash).bucketCount := by
    unfold Map.insert Map.put
    split <;> rfl
  refine ⟨hp.placed, hp.placed.nodup_contents, ?_, ?_⟩
  · rcases put_count hash key value hg.placed.pos with ⟨h1, h2⟩ | ⟨h1, h2⟩
    all_goals
      unfold Map.insert
      rw [h1, h2, hg.count]
  · rw [hbuckets]
    unfold Map.insert
    rcases put_count hash key value hg.placed.pos with ⟨h1, -⟩ | ⟨h1, -⟩
    all_goals
      rw [h1, grow_objectCount]
      omega

/-! ### Removal -/

omit [DecidableEq κ] in
private theorem not_valid_unlink {l1 l2 : List (κ × ν)} {e : κ × ν} {i : Nat} (h : m.Valid hash)
    (hi : i < m.bucketCount) (hl : m.buckets i = l1 ++ e :: l2) :
    ¬ (⟨m.bucketCount, m.objectCount, Function.update m.buckets i (l1 ++ l2)⟩ : Map κ ν).Valid hash := by
  intro h'
  have hlen := length_contents_update (b := m.buckets) (c := l1 ++ l2) hi
  have hc : m.objectCount = (contents m.bucketCount m.buckets).length := h.count
  have hc' : m.objectCount = (contents m.bucketCount (Function.update m.buckets i (l1 ++ l2))).length := h'.count
  rw [hl, ← hc', ← hc] at hlen
  simp only [List.length_append, List.length_cons] at hlen
  omega

variable [Zero ν]

/-- A removal is asked for only with a key that is not in the map. -/
def RemovesAbsent (m : Map κ ν) : MapCall κ ν → Prop
  | .remove key => key ∉ m.iterate.map Prod.fst
  | _ => True

def hashmapStep (hash : κ → UInt64) (m : Map κ ν) (call : MapCall κ ν) : Option (Map κ ν) :=
  some (hashmapCall hash m call).2

private theorem hashmapStep_valid_iff (h : m.Valid hash) (call : MapCall κ ν) :
    RemovesAbsent m call ↔ ∃ m', hashmapStep hash m call = some m' ∧ m'.Valid hash := by
  cases call with
  | insert key value => exact iff_of_true trivial ⟨_, rfl, insert_valid h key value⟩
  | lookup key => exact iff_of_true trivial ⟨_, rfl, h⟩
  | iterate => exact iff_of_true trivial ⟨_, rfl, h⟩
  | remove key =>
    have hi : m.index hash key < m.bucketCount := Nat.mod_lt _ h.placed.pos
    have hstep : hashmapStep hash m (.remove key) = some (hashmapRemove m key).2 := rfl
    have hmem : key ∈ m.iterate.map Prod.fst ↔ key ∈ (m.buckets (m.index hash key)).map Prod.fst := by
      simp only [List.mem_map]
      exact ⟨fun ⟨e, he, hk⟩ => ⟨e, by subst hk; exact h.placed.mem_chain.1 he, hk⟩,
        fun ⟨e, he, hk⟩ => ⟨e, mem_contents.2 ⟨_, hi, he⟩, hk⟩⟩
    unfold hashmapRemove at hstep
    rw [hashmapScan_eq h.models key (fun i hi => List.mem_range.1 hi), if_pos (List.mem_range.2 hi)] at hstep
    cases hu : chainUnlink key (m.buckets (m.index hash key)) with
    | none =>
      rw [hu] at hstep
      exact iff_of_true (fun hk => chainUnlink_none.1 hu (hmem.1 hk)) ⟨m, hstep, h⟩
    | some r =>
      obtain ⟨e, c⟩ := r
      obtain ⟨l1, w, l2, rfl, hl, rfl⟩ := chainUnlink_some hu
      rw [hu] at hstep
      refine iff_of_false (fun hk => hk (hmem.2 ?_)) ?_
      · rw [hl]
        simp
      · rintro ⟨m', hm', hv⟩
        rw [hstep] at hm'
        cases hm'
        exact not_valid_unlink h hi hl hv

/-- A `strmap` stays valid exactly when nothing is removed from a map with entries. -/
private theorem strmapStep_valid_iff (h : m.Valid hash) (call : MapCall κ ν) :
    RemovesFromEmpty m call ↔ ∃ m', strmapStep hash m call = some m' ∧ m'.Valid hash := by
  cases call with
  | insert key value => exact iff_of_true trivial ⟨_, rfl, insert_valid h key value⟩
  | lookup key => exact iff_of_true trivial ⟨_, rfl, h⟩
  | iterate => exact iff_of_true trivial ⟨_, rfl, h⟩
  | remove key =>
    have hstep : strmapStep hash m (.remove key) = (strmapRemove m key).map Prod.snd := rfl
    change m.iterate = [] ↔ _
    cases hit : m.iterate with
    | nil =>
      rw [strmapRemove_nil hit] at hstep
      exact iff_of_true rfl ⟨m, hstep, h⟩
    | cons e rest =>
      refine iff_of_false (by simp) ?_
      rintro ⟨m', hm', hv⟩
      obtain ⟨i, hi, es, hb, hscan⟩ := strmapScan_cons hit key
      unfold strmapRemove at hstep
      rw [hscan] at hstep
      by_cases hk : e.1 = key
      · rw [if_pos hk] at hstep
        rw [hstep] at hm'
        cases hm'
        exact not_valid_unlink h (List.mem_range.1 hi) (show m.buckets i = [] ++ e :: es from hb) hv
      · rw [if_neg hk] at hstep
        rw [hstep] at hm'
        cases hm'

end

/-- The maps stay valid through a run of calls, whatever is done, as long as no call takes an entry out; the removals
that a `strmap` survives are those from an empty map. -/
theorem map_valid_iff (siphash : UInt64 → UInt64) (calls : List (MapCall UInt64 UInt64))
    (strSiphash : CString → UInt64) (strCalls : List (MapCall CString UInt64)) :
    (Machine.Meets (hashmapStep siphash) RemovesAbsent calls Map.create ↔ ∀ p, p <+: calls →
      ∃ m, Machine.run (hashmapStep siphash) p Map.create = some m ∧ m.Valid siphash) ∧
    (Machine.Meets (strmapStep strSiphash) RemovesFromEmpty strCalls Map.create ↔ ∀ p, p <+: strCalls →
      ∃ m, Machine.run (strmapStep strSiphash) p Map.create = some m ∧ m.Valid strSiphash) :=
  ⟨Machine.meets_iff (fun _ call hm => hashmapStep_valid_iff hm call) (create_valid siphash),
    Machine.meets_iff (fun _ call hm => strmapStep_valid_iff hm call) (create_valid strSiphash)⟩

/-- A `hashmap` with one key, which is then removed, counts one entry and has none. -/
theorem map_not_valid : ∃ m, Machine.run (hashmapStep fun _ => 0) [.insert 1 1, .remove 1]
    (Map.create : Map UInt64 UInt64) = some m ∧ m.objectCount = 1 ∧ m.iterate = [] ∧ ¬ m.Valid fun _ => 0 := by
  refine ⟨_, rfl, rfl, rfl, fun h => ?_⟩
  have hcount := h.count
  cases hcount

end Pml.Util
