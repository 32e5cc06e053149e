import Mathlib.Data.UInt
import Pml.Lib.Chains
import Pml.Lib.Machine

/-!
# Hash maps (`util/map.c`)

`hashmap` has integer keys and `strmap` has strings; both are chains of entries that double in number when the map
fills up.  `hashmap` is a finite map through any sequence of calls (`hashmap_conforms`).  `strmap` is one as long as
nothing is removed: `strmap_remove` frees every entry on the way to the one that it looks for and goes on from the
freed memory, and it does not free the one that it takes out.

The bucket counts are natural numbers: a table of `2 ^ 61` buckets does not fit in the address space.
-/

namespace Pml.Util

open Chains

/-- `HASHMAP_INIT_BUCKETS`, `STRMAP_INIT_BUCKETS` -/
def initBuckets : Nat := 16

/-- `struct hashmap` and `struct strmap`: the buckets are chains of keys and values. -/
structure Map (κ ν : Type) where
  bucketCount : Nat
  objectCount : Nat
  buckets : Nat → List (κ × ν)

/-- A string of C: bytes without a null byte. -/
structure CString where
  bytes : List UInt8
  nonNull : 0 ∉ bytes
  deriving DecidableEq

/-! ### The chains -/

section

variable {κ ν : Type} [DecidableEq κ]

/-- Replaces the value of the first entry with the key, if there is one. -/
def chainReplace (key : κ) (value : ν) : List (κ × ν) → Option (List (κ × ν))
  | [] => none
  | e :: es => if e.1 = key then some ((e.1, value) :: es) else (chainReplace key value es).map (e :: ·)

/-- Takes the first entry with the key out of a chain, if there is one. -/
def chainUnlink (key : κ) : List (κ × ν) → Option ((κ × ν) × List (κ × ν))
  | [] => none
  | e :: es => if e.1 = key then some (e, es) else (chainUnlink key es).map fun r => (r.1, e :: r.2)

/-- The walk of `strmap_remove` along a chain: the chain without the entry of the key, or nothing if there is no such
entry.  An entry with another key is freed before the walk reads its `next`, which is undefined. -/
def chainUnlinkFreed (key : κ) : List (κ × ν) → Option (Option (List (κ × ν)))
  | [] => some none
  | e :: es => if e.1 = key then some (some es) else none

namespace Map

/-- `hashmap_create`, `strmap_create` -/
def create : Map κ ν := ⟨initBuckets, 0, fun _ => []⟩

variable (hash : κ → UInt64) (m : Map κ ν)

def index (key : κ) : Nat := (hash key).toNat % m.bucketCount

/-- Doubles the number of buckets if the map is three quarters full. -/
def grow : Map κ ν :=
  if m.objectCount ≥ m.bucketCount * 3 / 4 then
    { m with
      bucketCount := m.bucketCount * 2
      buckets := distribute (fun key => (hash key).toNat) (m.bucketCount * 2) (contents m.bucketCount m.buckets)
        fun _ => [] }
  else m

/-- Puts an entry into its bucket: in the place of the entry with its key, or at the end. -/
def put (key : κ) (value : ν) : Map κ ν :=
  match chainReplace key value (m.buckets (m.index hash key)) with
  | some chain => { m with buckets := Function.update m.buckets (m.index hash key) chain }
  | none =>
    { m with
      buckets := Function.update m.buckets (m.index hash key) (m.buckets (m.index hash key) ++ [(key, value)])
      objectCount := m.objectCount + 1 }

/-- `hashmap_insert`, `strmap_insert` -/
def insert (key : κ) (value : ν) : Map κ ν := (m.grow hash).put hash key value

/-- `hashmap_lookup`, `strmap_lookup`: 0 is `NULL`. -/
def lookup [Zero ν] (key : κ) : ν := ((m.buckets (m.index hash key)).lookup key).getD 0

/-- `hashmap_iterate`, `strmap_iterate`: the keys and values that the callback is called with. -/
def iterate : List (κ × ν) := contents m.bucketCount m.buckets

end Map

/-- What a call returns; a removal also with the entries that it frees. -/
inductive MapResult (κ ν : Type)
  | status (code : Int)
  | value (v : ν)
  | calls (l : List (κ × ν))
  | removed (code : Int) (freed : List (κ × ν))

/-- The walk of `hashmap_remove` through buckets. -/
def hashmapScan (key : κ) (b : Nat → List (κ × ν)) :
    List Nat → Option ((κ × ν) × (Nat → List (κ × ν)))
  | [] => none
  | i :: is =>
    match chainUnlink key (b i) with
    | some (e, chain) => some (e, Function.update b i chain)
    | none => hashmapScan key b is

def hashmapRemove (m : Map κ ν) (key : κ) : MapResult κ ν × Map κ ν :=
  match hashmapScan key m.buckets (List.range m.bucketCount) with
  | some (e, b) => (.removed 0 [e], { m with buckets := b })
  | none => (.removed (-1) [], m)

/-- The walk of `strmap_remove` through buckets; undefined if it reads freed memory. -/
def strmapScan (key : κ) (b : Nat → List (κ × ν)) : List Nat → Option (Option (Nat → List (κ × ν)))
  | [] => some none
  | i :: is =>
    match chainUnlinkFreed key (b i) with
    | none => none
    | some (some chain) => some (some (Function.update b i chain))
    | some none => strmapScan key b is

/-- `strmap_remove`: the entry that is taken out is not freed. -/
def strmapRemove (m : Map κ ν) (key : κ) : Option (MapResult κ ν × Map κ ν) :=
  match strmapScan key m.buckets (List.range m.bucketCount) with
  | none => none
  | some (some b) => some (.removed 0 [], { m with buckets := b })
  | some none => some (.removed (-1) [], m)

end

/-! ### Sequences of calls -/

/-- The calls on a map. -/
inductive MapCall (κ ν : Type)
  | insert (key : κ) (value : ν)
  | lookup (key : κ)
  | remove (key : κ)
  | iterate

section

variable {κ ν : Type} [DecidableEq κ] [Zero ν]

/-- A call on a `hashmap`. -/
def hashmapCall (hash : κ → UInt64) (m : Map κ ν) : MapCall κ ν → MapResult κ ν × Map κ ν
  | .insert key value => (.status 0, m.insert hash key value)
  | .lookup key => (.value (m.lookup hash key), m)
  | .remove key => hashmapRemove m key
  | .iterate => (.calls m.iterate, m)

/-- A call on a `strmap`. -/
def strmapCall (hash : κ → UInt64) (m : Map κ ν) : MapCall κ ν → Option (MapResult κ ν × Map κ ν)
  | .insert key value => some (.status 0, m.insert hash key value)
  | .lookup key => some (.value (m.lookup hash key), m)
  | .remove key => strmapRemove m key
  | .iterate => some (.calls m.iterate, m)

def hashmapRun (hash : κ → UInt64) : List (MapCall κ ν) → Map κ ν → List (MapResult κ ν)
  | [], _ => []
  | call :: calls, m => (hashmapCall hash m call).1 :: hashmapRun hash calls (hashmapCall hash m call).2

def strmapRun (hash : κ → UInt64) : List (MapCall κ ν) → Map κ ν → Option (List (MapResult κ ν))
  | [], _ => some []
  | call :: calls, m => (strmapCall hash m call).bind fun r => (strmapRun hash calls r.2).map (r.1 :: ·)

/-! ### Finite maps -/

def MapCall.effect (f : κ → Option ν) : MapCall κ ν → κ → Option ν
  | .insert key value => Function.update f key (some value)
  | .remove key => Function.update f key none
  | _ => f

/-- The result is what a finite map gives; `R` says what a removal of a key with a certain value, or none, must
return. -/
def MapCall.Agrees (R : κ → Option ν → Int → List (κ × ν) → Prop) (f : κ → Option ν) :
    MapCall κ ν → MapResult κ ν → Prop
  | .insert _ _, .status code => code = 0
  | .lookup key, .value v => v = (f key).getD 0
  | .remove key, .removed code freed => R key (f key) code freed
  | .iterate, .calls l => (l.map Prod.fst).Nodup ∧ ∀ k v, (k, v) ∈ l ↔ f k = some v
  | _, _ => False

def Conforms (R : κ → Option ν → Int → List (κ × ν) → Prop) (f : κ → Option ν) :
    List (MapCall κ ν) → List (MapResult κ ν) → Prop
  | [], [] => True
  | call :: calls, r :: rs => call.Agrees R f r ∧ Conforms R (call.effect f) calls rs
  | _, _ => False

def RemovesKey (key : κ) (o : Option ν) (code : Int) (freed : List (κ × ν)) : Prop :=
  (code = 0 ↔ o ≠ none) ∧ freed = (o.map (key, ·)).toList

def FreesOwn (key : κ) (o : Option ν) (_ : Int) (freed : List (κ × ν)) : Prop := freed = (o.map (key, ·)).toList

def SparesOthers (key : κ) (_ : Option ν) (_ : Int) (freed : List (κ × ν)) : Prop := ∀ e ∈ freed, e.1 = key

end

/-! ### A map stands for a finite map -/

/-- The map is well formed and stands for the finite map. -/
structure Map.Models {κ ν : Type} (hash : κ → UInt64) (m : Map κ ν) (f : κ → Option ν) : Prop where
  placed : Placed (fun key => (hash key).toNat) m.bucketCount m.buckets
  represents : Represents m.bucketCount m.buckets f

section

variable {κ ν : Type} {hash : κ → UInt64} {m : Map κ ν} {f : κ → Option ν} {key : κ} {value : ν}
  {l c : List (κ × ν)} {e : κ × ν}

theorem create_models (hash : κ → UInt64) : (Map.create : Map κ ν).Models hash fun _ => none := by
  refine ⟨⟨Nat.succ_pos 15, ?_, ?_⟩, ?_⟩
  · intro i _ e he
    cases he
  · intro i _
    exact List.nodup_nil
  · intro k v
    simp [Map.create, contents]

private theorem grow_models (h : m.Models hash f) : (m.grow hash).Models hash f := by
  unfold Map.grow
  split
  · have hpos : 0 < m.bucketCount * 2 := Nat.mul_pos h.placed.pos (by decide)
    exact ⟨h.placed.distribute hpos, h.represents.distribute h.placed hpos⟩
  · exact h

private theorem iterate_agrees (h : m.Models hash f) :
    (m.iterate.map Prod.fst).Nodup ∧ ∀ k v, (k, v) ∈ m.iterate ↔ f k = some v :=
  ⟨h.placed.nodup_contents, h.represents⟩

private theorem Map.Models.eq_none (h : m.Models hash f) (hempty : m.iterate = []) (key : κ) : f key = none := by
  by_contra hne
  obtain ⟨v, hv⟩ := Option.ne_none_iff_exists'.1 hne
  have hmem : (key, v) ∈ m.iterate := (h.represents key v).2 hv
  rw [hempty] at hmem
  cases hmem

variable [DecidableEq κ]

theorem Map.Models.update (h : m.Models hash f) {o : Option ν} {n : Nat}
    (hkeys : ∀ e ∈ c, e.1 = key ∨ e ∈ m.buckets (m.index hash key)) (hnodup : (c.map Prod.fst).Nodup)
    (hother : ∀ e : κ × ν, e.1 ≠ key → (e ∈ c ↔ e ∈ m.buckets (m.index hash key)))
    (hself : ∀ v, (key, v) ∈ c ↔ o = some v) :
    (⟨m.bucketCount, n, Function.update m.buckets (m.index hash key) c⟩ : Map κ ν).Models hash
      (Function.update f key o) := by
  have hp : Placed (fun key => (hash key).toNat) m.bucketCount (Function.update m.buckets (m.index hash key) c) := by
    refine h.placed.update (fun e he => ?_) hnodup
    rcases hkeys e he with rfl | he
    · rfl
    · exact h.placed.place _ (Nat.mod_lt _ h.placed.pos) e he
  exact ⟨hp, h.represents.update h.placed hp hother hself⟩

theorem lookup_agrees [Zero ν] (h : m.Models hash f) (key : κ) : m.lookup hash key = (f key).getD 0 := by
  unfold Map.lookup
  exact congrArg (Option.getD · 0) (h.placed.lookup_eq h.represents key)

/-! ### Insertion -/

theorem chainReplace_none : chainReplace key value l = none → key ∉ l.map Prod.fst := by
  induction l with
  | nil => simp
  | cons e l ih =>
    intro h
    unfold chainReplace at h
    split at h
    · cases h
    · rename_i hne
      rw [List.map_cons, List.mem_cons, not_or]
      exact ⟨fun he => hne he.symm, ih (Option.map_eq_none_iff.1 h)⟩

theorem chainReplace_some : chainReplace key value l = some c →
    ∃ l1 w l2, l = l1 ++ (key, w) :: l2 ∧ c = l1 ++ (key, value) :: l2 := by
  induction l generalizing c with
  | nil => simp [chainReplace]
  | cons e l ih =>
    intro h
    unfold chainReplace at h
    split at h
    · rename_i heq
      cases h
      obtain ⟨k, w⟩ := e
      cases heq
      exact ⟨[], w, l, rfl, rfl⟩
    · obtain ⟨c', hc', rfl⟩ := Option.map_eq_some_iff.1 h
      obtain ⟨l1, w, l2, rfl, rfl⟩ := ih hc'
      exact ⟨e :: l1, w, l2, rfl, rfl⟩

theorem put_models (h : m.Models hash f) (key : κ) (value : ν) :
    (m.put hash key value).Models hash (Function.update f key (some value)) := by
  have hnodup := h.placed.nodup (m.index hash key) (Nat.mod_lt _ h.placed.pos)
  unfold Map.put
  cases hr : chainReplace key value (m.buckets (m.index hash key)) with
  | some c =>
    obtain ⟨l1, w, l2, hl, rfl⟩ := chainReplace_some hr
    rw [hl] at hnodup
    have hnew : ((l1 ++ (key, value) :: l2).map Prod.fst).Nodup := by simpa using hnodup
    refine h.update (fun e he => ?_) hnew (fun e he => ?_) (fun v => ?_)
    · rw [hl]
      simp only [List.mem_append, List.mem_cons] at he ⊢
      rcases he with he | rfl | he
      · exact Or.inr (Or.inl he)
      · exact Or.inl rfl
      · exact Or.inr (Or.inr (Or.inr he))
    · have hne : ∀ w, e ≠ (key, w) := fun w hw => he (congrArg Prod.fst hw)
      rw [hl]
      simp [hne]
    · have hrest : (key, v) ∉ l1 ++ l2 := not_mem_of_nodup hnodup
      simp only [List.mem_append, not_or] at hrest
      simp [hrest.1, hrest.2, eq_comm]
  | none =>
    have hnew := chainReplace_none hr
    refine h.update (fun e he => ?_) ?_ (fun e he => ?_) (fun v => ?_)
    · rcases List.mem_append.1 he with he | he
      · exact Or.inr he
      · exact Or.inl (congrArg Prod.fst (List.mem_singleton.1 he))
    · rw [List.map_append, List.nodup_append]
      refine ⟨hnodup, by simp, ?_⟩
      rintro k hk k' hk' rfl
      have heq : k = key := by simpa using hk'
      exact hnew (heq ▸ hk)
    · have hne : e ≠ (key, value) := fun hw => he (congrArg Prod.fst hw)
      simp [hne]
    · have hnot : (key, v) ∉ m.buckets (m.index hash key) := fun hm => hnew (List.mem_map.2 ⟨_, hm, rfl⟩)
      simp [hnot, eq_comm]

theorem insert_models (h : m.Models hash f) (key : κ) (value : ν) :
    (m.insert hash key value).Models hash (Function.update f key (some value)) :=
  put_models (grow_models h) key value

/-! ### Removal -/

theorem chainUnlink_none : chainUnlink key l = none ↔ key ∉ l.map Prod.fst := by
  induction l with
  | nil => simp [chainUnlink]
  | cons e l ih =>
    unfold chainUnlink
    by_cases he : e.1 = key
    · simp [he]
    · rw [if_neg he, Option.map_eq_none_iff, ih, List.map_cons, List.mem_cons, not_or]
      exact (and_iff_right fun h => he h.symm).symm

theorem chainUnlink_some : chainUnlink key l = some (e, c) →
    ∃ l1 w l2, e = (key, w) ∧ l = l1 ++ (key, w) :: l2 ∧ c = l1 ++ l2 := by
  induction l generalizing c with
  | nil => simp [chainUnlink]
  | cons e' l ih =>
    intro h
    unfold chainUnlink at h
    split at h
    · rename_i heq
      cases h
      obtain ⟨k, w⟩ := e
      cases heq
      exact ⟨[], w, l, rfl, rfl, rfl⟩
    · obtain ⟨⟨e1, c'⟩, hc', heq⟩ := Option.map_eq_some_iff.1 h
      cases heq
      obtain ⟨l1, w, l2, rfl, rfl, rfl⟩ := ih hc'
      exact ⟨e' :: l1, w, l2, rfl, rfl, rfl⟩

/-- The walk through the buckets finds the key in its own bucket only. -/
theorem hashmapScan_eq (h : m.Models hash f) (key : κ) {is : List Nat} (his : ∀ i ∈ is, i < m.bucketCount) :
    hashmapScan key m.buckets is =
      if m.index hash key ∈ is then
        (chainUnlink key (m.buckets (m.index hash key))).map fun r =>
          (r.1, Function.update m.buckets (m.index hash key) r.2)
      else none := by
  induction is with
  | nil => rfl
  | cons i is ih =>
    have ih := ih fun j hj => his j (List.mem_cons_of_mem _ hj)
    unfold hashmapScan
    by_cases hi : m.index hash key = i
    · subst hi
      rw [if_pos List.mem_cons_self]
      cases hu : chainUnlink key (m.buckets (m.index hash key)) with
      | some r => rfl
      | none =>
        rw [ih, hu]
        exact ite_self _
    · have hnone : chainUnlink key (m.buckets i) = none := by
        rw [chainUnlink_none]
        intro hk
        obtain ⟨e, he, rfl⟩ := List.mem_map.1 hk
        exact hi (h.placed.place i (his i List.mem_cons_self) e he)
      rw [hnone]
      simp only [List.mem_cons, hi, false_or]
      exact ih

private theorem unlink_models (h : m.Models hash f) {l1 l2 : List (κ × ν)} {w : ν} {n : Nat}
    (hl : m.buckets (m.index hash key) = l1 ++ (key, w) :: l2) :
    (⟨m.bucketCount, n, Function.update m.buckets (m.index hash key) (l1 ++ l2)⟩ : Map κ ν).Models hash
      (Function.update f key none) := by
  have hnodup := h.placed.nodup (m.index hash key) (Nat.mod_lt _ h.placed.pos)
  rw [hl] at hnodup
  refine h.update (fun e he => ?_) (nodup_erase hnodup) (fun e he => ?_) (fun v => ?_)
  · right
    rw [hl]
    simp only [List.mem_append, List.mem_cons] at he ⊢
    tauto
  · have hne : e ≠ (key, w) := fun hw => he (congrArg Prod.fst hw)
    rw [hl]
    simp [hne]
  · have hrest : (key, v) ∉ l1 ++ l2 := not_mem_of_nodup hnodup
    simpa using hrest

/-- A removal finds the entry of its key, takes it out and frees it. -/
theorem hashmapRemove_models (h : m.Models hash f) (key : κ) :
    (hashmapRemove m key).2.Models hash (Function.update f key none) ∧
    ∃ code freed, (hashmapRemove m key).1 = .removed code freed ∧ RemovesKey key (f key) code freed := by
  have hlt : m.index hash key < m.bucketCount := Nat.mod_lt _ h.placed.pos
  unfold hashmapRemove
  rw [hashmapScan_eq h key (fun i hi => List.mem_range.1 hi), if_pos (List.mem_range.2 hlt)]
  cases hu : chainUnlink key (m.buckets (m.index hash key)) with
  | none =>
    have hf : f key = none := by
      by_contra hne
      exact chainUnlink_none.1 hu ((h.placed.mem_keys h.represents key).2 hne)
    refine ⟨?_, -1, [], rfl, by simp [hf], by simp [hf]⟩
    rw [show Function.update f key none = f from Function.update_eq_self_iff.2 hf.symm]
    exact h
  | some r =>
    obtain ⟨e, c⟩ := r
    obtain ⟨l1, w, l2, rfl, hl, rfl⟩ := chainUnlink_some hu
    have hf : f key = some w := by
      rw [← h.represents key w, h.placed.mem_chain]
      change (key, w) ∈ m.buckets (m.index hash key)
      rw [hl]
      simp
    exact ⟨unlink_models h hl, 0, [(key, w)], rfl, by simp [hf], by simp [hf]⟩

private theorem hashmapCall_models [Zero ν] (h : m.Models hash f) (call : MapCall κ ν) :
    (hashmapCall hash m call).2.Models hash (call.effect f) ∧
    call.Agrees RemovesKey f (hashmapCall hash m call).1 := by
  cases call with
  | insert key value => exact ⟨insert_models h key value, rfl⟩
  | lookup key => exact ⟨h, lookup_agrees h key⟩
  | remove key =>
    obtain ⟨hm, code, freed, hr, hspec⟩ := hashmapRemove_models h key
    refine ⟨hm, ?_⟩
    change MapCall.Agrees RemovesKey f (.remove key) (hashmapRemove m key).1
    rw [hr]
    exact hspec
  | iterate => exact ⟨h, iterate_agrees h⟩

private theorem hashmapRun_conforms [Zero ν] (h : m.Models hash f) (calls : List (MapCall κ ν)) :
    Conforms RemovesKey f calls (hashmapRun hash calls m) := by
  induction calls generalizing m f with
  | nil => trivial
  | cons call calls ih =>
    obtain ⟨hm, hr⟩ := hashmapCall_models h call
    exact ⟨hr, ih hm⟩

/-! ### Removal from a `strmap` -/

private theorem strmapScan_nil {b : Nat → List (κ × ν)} {is : List Nat} (h : is.flatMap b = []) (key : κ) :
    strmapScan key b is = some none := by
  induction is with
  | nil => rfl
  | cons i is ih =>
    rw [List.flatMap_cons, List.append_eq_nil_iff] at h
    unfold strmapScan
    rw [h.1]
    exact ih h.2

/-- The walk ends at the first entry: it takes it out if it is the entry of the key, and otherwise frees it and goes
on. -/
theorem strmapScan_cons {b : Nat → List (κ × ν)} {is : List Nat} {rest : List (κ × ν)} (h : is.flatMap b = e :: rest)
    (key : κ) : ∃ i ∈ is, ∃ es, b i = e :: es ∧
      strmapScan key b is = if e.1 = key then some (some (Function.update b i es)) else none := by
  induction is with
  | nil => cases h
  | cons i is ih =>
    rw [List.flatMap_cons] at h
    unfold strmapScan
    cases hb : b i with
    | nil =>
      rw [hb] at h
      obtain ⟨j, hj, es, hbj, hscan⟩ := ih h
      exact ⟨j, List.mem_cons_of_mem _ hj, es, hbj, hscan⟩
    | cons e' es =>
      rw [hb] at h
      obtain rfl := (List.cons.inj h).1
      refine ⟨i, List.mem_cons_self, es, hb, ?_⟩
      by_cases hk : e'.1 = key
      · simp only [chainUnlinkFreed, if_pos hk]
      · simp only [chainUnlinkFreed, if_neg hk]

theorem strmapRemove_nil (hempty : m.iterate = []) (key : κ) : strmapRemove m key = some (.removed (-1) [], m) := by
  unfold strmapRemove
  rw [strmapScan_nil hempty key]

private theorem strmapRemove_other {rest : List (κ × ν)} (hfirst : m.iterate = e :: rest) (hne : e.1 ≠ key) :
    strmapRemove m key = none := by
  obtain ⟨i, -, es, -, hscan⟩ := strmapScan_cons hfirst key
  unfold strmapRemove
  rw [hscan, if_neg hne]

private theorem strmapRemove_first (h : m.Models hash f) {rest : List (κ × ν)}
    (hfirst : m.iterate = (key, value) :: rest) :
    f key = some value ∧ ∃ m', strmapRemove m key = some (.removed 0 [], m') ∧
      m'.Models hash (Function.update f key none) := by
  obtain ⟨i, hi, es, hb, hscan⟩ := strmapScan_cons hfirst key
  rw [if_pos rfl] at hscan
  have hidx : i = m.index hash key :=
    (h.placed.place i (List.mem_range.1 hi) (key, value) (hb ▸ List.mem_cons_self)).symm
  subst hidx
  have hmem : (key, value) ∈ m.iterate := by
    rw [hfirst]
    exact List.mem_cons_self
  refine ⟨(h.represents key value).1 hmem,
    ⟨m.bucketCount, m.objectCount, Function.update m.buckets (m.index hash key) es⟩, ?_,
    unlink_models h (show m.buckets (m.index hash key) = [] ++ (key, value) :: es from hb)⟩
  unfold strmapRemove
  rw [hscan]

variable [Zero ν]

/-- A removal is asked for only when the map has no entries. -/
def RemovesFromEmpty (m : Map κ ν) : MapCall κ ν → Prop
  | .remove _ => m.iterate = []
  | _ => True

/-- A removal is asked for only when the map has no entries, or for the key of the first one. -/
def RemovesFirst (m : Map κ ν) : MapCall κ ν → Prop
  | .remove key => ∀ e, m.iterate.head? = some e → e.1 = key
  | _ => True

def strmapStep (hash : κ → UInt64) (m : Map κ ν) (call : MapCall κ ν) : Option (Map κ ν) :=
  (strmapCall hash m call).map Prod.snd

private theorem strmapCall_models (h : m.Models hash f) {call : MapCall κ ν} {r : MapResult κ ν} {m' : Map κ ν}
    (hr : strmapCall hash m call = some (r, m')) : m'.Models hash (call.effect f) := by
  cases call with
  | insert key value =>
    cases hr
    exact insert_models h key value
  | lookup key =>
    cases hr
    exact h
  | iterate =>
    cases hr
    exact h
  | remove key =>
    change strmapRemove m key = some (r, m') at hr
    cases hit : m.iterate with
    | nil =>
      rw [strmapRemove_nil hit] at hr
      cases hr
      have hf := h.eq_none hit key
      change m.Models hash (Function.update f key none)
      rwa [show Function.update f key none = f from Function.update_eq_self_iff.2 hf.symm]
    | cons e rest =>
      by_cases hk : e.1 = key
      · subst hk
        obtain ⟨-, m1, hr1, hm1⟩ := strmapRemove_first h hit
        rw [hr1] at hr
        cases hr
        exact hm1
      · rw [strmapRemove_other hit hk] at hr
        cases hr

private theorem strmapCall_agrees (h : m.Models hash f) {R : κ → Option ν → Int → List (κ × ν) → Prop}
    {call : MapCall κ ν}
    (hcall : ∀ key, call ≠ .remove key) : ∃ r m', strmapCall hash m call = some (r, m') ∧ call.Agrees R f r := by
  cases call with
  | insert key value => exact ⟨_, _, rfl, rfl⟩
  | lookup key => exact ⟨_, _, rfl, lookup_agrees h key⟩
  | iterate => exact ⟨_, _, rfl, iterate_agrees h⟩
  | remove key => exact absurd rfl (hcall key)

/-- A removal spares the other keys exactly when there are none before its own. -/
private theorem removesFirst_iff (h : m.Models hash f) (call : MapCall κ ν) :
    RemovesFirst m call ↔ ∃ r m', strmapCall hash m call = some (r, m') ∧ call.Agrees SparesOthers f r := by
  cases call with
  | insert key value => exact iff_of_true trivial (strmapCall_agrees h (by simp))
  | lookup key => exact iff_of_true trivial (strmapCall_agrees h (by simp))
  | iterate => exact iff_of_true trivial (strmapCall_agrees h (by simp))
  | remove key =>
    change (∀ e, m.iterate.head? = some e → e.1 = key) ↔
      ∃ r m', strmapRemove m key = some (r, m') ∧ MapCall.Agrees SparesOthers f (.remove key) r
    cases hit : m.iterate with
    | nil =>
      refine iff_of_true (by simp) ⟨_, _, strmapRemove_nil hit key, fun e he => ?_⟩
      cases he
    | cons e rest =>
      by_cases hk : e.1 = key
      · subst hk
        obtain ⟨-, m', hr, -⟩ := strmapRemove_first h hit
        refine iff_of_true (by simp) ⟨_, _, hr, fun e he => ?_⟩
        cases he
      · refine iff_of_false (by simpa using hk) ?_
        rintro ⟨r, m', hr, -⟩
        rw [strmapRemove_other hit hk] at hr
        cases hr

/-- A removal frees the entry of its key and no other exactly when there is nothing to free. -/
private theorem removesFromEmpty_iff (h : m.Models hash f) (call : MapCall κ ν) :
    RemovesFromEmpty m call ↔ ∃ r m', strmapCall hash m call = some (r, m') ∧ call.Agrees FreesOwn f r := by
  cases call with
  | insert key value => exact iff_of_true trivial (strmapCall_agrees h (by simp))
  | lookup key => exact iff_of_true trivial (strmapCall_agrees h (by simp))
  | iterate => exact iff_of_true trivial (strmapCall_agrees h (by simp))
  | remove key =>
    change m.iterate = [] ↔ ∃ r m', strmapRemove m key = some (r, m') ∧ MapCall.Agrees FreesOwn f (.remove key) r
    cases hit : m.iterate with
    | nil =>
      refine iff_of_true rfl ⟨_, _, strmapRemove_nil hit key, ?_⟩
      have hf := h.eq_none hit key
      change [] = ((f key).map (key, ·)).toList
      rw [hf]
      rfl
    | cons e rest =>
      refine iff_of_false (by simp) ?_
      rintro ⟨r, m', hr, hag⟩
      by_cases hk : e.1 = key
      · obtain ⟨k, v⟩ := e
        subst hk
        obtain ⟨hf, m1, hr1, -⟩ := strmapRemove_first h hit
        rw [hr1] at hr
        cases hr
        change [] = ((f k).map (k, ·)).toList at hag
        rw [hf] at hag
        cases hag
      · rw [strmapRemove_other hit hk] at hr
        cases hr

/-- If a condition says of each call whether it is defined and agrees with the finite map, then a run is defined and
conforms to the finite map exactly when all its calls meet the condition. -/
private theorem strmapRun_conforms_iff {R : κ → Option ν → Int → List (κ × ν) → Prop}
    {C : Map κ ν → MapCall κ ν → Prop} (hstep : ∀ m f call, m.Models hash f →
      (C m call ↔ ∃ r m', strmapCall hash m call = some (r, m') ∧ call.Agrees R f r))
    (h : m.Models hash f) (calls : List (MapCall κ ν)) :
    (∃ rs, strmapRun hash calls m = some rs ∧ Conforms R f calls rs) ↔ Machine.Meets (strmapStep hash) C calls m := by
  induction calls generalizing m f with
  | nil => exact iff_of_true ⟨[], rfl, trivial⟩ trivial
  | cons call calls ih =>
    constructor
    · rintro ⟨rs, hrs, hconf⟩
      obtain ⟨⟨r, m'⟩, hr, hrest⟩ := Option.bind_eq_some_iff.1 hrs
      obtain ⟨rs', hrs', rfl⟩ := Option.map_eq_some_iff.1 hrest
      refine ⟨(hstep m f call h).2 ⟨r, m', hr, hconf.1⟩, fun m'' hm'' => ?_⟩
      unfold strmapStep at hm''
      rw [hr] at hm''
      cases hm''
      exact (ih (strmapCall_models h hr)).1 ⟨rs', hrs', hconf.2⟩
    · rintro ⟨hc, hmeets⟩
      obtain ⟨r, m', hr, hag⟩ := (hstep m f call h).1 hc
      have hm' : strmapStep hash m call = some m' := by
        unfold strmapStep
        rw [hr]
        rfl
      obtain ⟨rs, hrs, hconf⟩ := (ih (strmapCall_models h hr)).2 (hmeets m' hm')
      refine ⟨r :: rs, ?_, hag, hconf⟩
      rw [strmapRun, hr, Option.bind_some, hrs]
      rfl

end

/-- Any sequence of calls on a new `hashmap` returns what a finite map returns. -/
theorem hashmap_conforms (siphash : UInt64 → UInt64) (calls : List (MapCall UInt64 UInt64)) :
    Conforms RemovesKey (fun _ => none) calls (hashmapRun siphash calls Map.create) :=
  hashmapRun_conforms (create_models siphash) calls

/-- A run of calls on a new `strmap` does what a finite map does, and each removal frees the entry of its key and no
other, exactly when the map is empty at each removal; it does not touch the entries of other keys exactly when each
removal finds an empty map or asks for the first entry. -/
theorem strmap_conforms_iff (siphash : CString → UInt64) (calls : List (MapCall CString UInt64)) :
    ((∃ rs, strmapRun siphash calls Map.create = some rs ∧ Conforms FreesOwn (fun _ => none) calls rs) ↔
      Machine.Meets (strmapStep siphash) RemovesFromEmpty calls Map.create) ∧
    ((∃ rs, strmapRun siphash calls Map.create = some rs ∧ Conforms SparesOthers (fun _ => none) calls rs) ↔
      Machine.Meets (strmapStep siphash) RemovesFirst calls Map.create) :=
  ⟨strmapRun_conforms_iff (fun _ _ call hm => removesFromEmpty_iff hm call) (create_models siphash) calls,
    strmapRun_conforms_iff (fun _ _ call hm => removesFirst_iff hm call) (create_models siphash) calls⟩

def removeMissing : List (MapCall CString UInt64) :=
  [.insert ⟨[97], by decide⟩ 1, .remove ⟨[98], by decide⟩, .lookup ⟨[97], by decide⟩]

/-- The removal of a string that is not in the map frees the entry of another. -/
theorem strmap_not_conforms : ¬ ∃ rs, strmapRun (fun _ => 0) removeMissing Map.create = some rs ∧
    Conforms SparesOthers (fun _ => none) removeMissing rs := by
  have hrun : strmapRun (fun _ => 0) removeMissing Map.create = none := rfl
  rintro ⟨rs, hrs, -⟩
  rw [hrun] at hrs
  cases hrs

end Pml.Util
