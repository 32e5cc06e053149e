import Pml.Util.Map

/-!
# Insertion into a map when memory runs out (`util/map.c`)

An insertion allocates the doubled array of buckets, a copy of each entry, and the new entry; a `strmap` allocates the
copy of the key as well, does not look whether it has it, and may get an entry without a key, which the next walk
along its chain cannot pass.  While the entries are copied, the chain of each bucket is freed as soon as it has been
copied.  If there is no memory for a copy then, the new array is given up, and the map is left with the old one, which
leads to the freed chains.  So a failed insertion leaves the map as it was exactly when no chain has been freed before
the first copy that fails: that copy is of an entry in the first bucket with entries (`insert_atomic_iff`).
-/

namespace Pml.Util

open Chains

/-- A map in memory: `freed` tells the buckets that lead to freed entries. -/
structure HeapMap (κ ν : Type) extends Map κ ν where
  freed : Nat → Bool

/-- The keys of entries, and what an insertion makes of its argument. -/
structure KeyKind (α κ : Type) where
  hash : κ → UInt64
  /-- whether the key of an entry can be read: it is not `NULL` -/
  readable : κ → Bool
  arg : α → κ
  /-- the key of a new entry, if there is memory for a copy and if there is not -/
  stored : Bool → α → κ
  readable_arg : ∀ key, readable (arg key) = true
  stored_arg : ∀ b key, readable (stored b key) = true → stored b key = arg key
  stored_true : ∀ key, stored true key = arg key

/-- The keys of a `hashmap`. -/
def hashmapKeys (siphash : UInt64 → UInt64) : KeyKind UInt64 UInt64 where
  hash := siphash
  readable _ := true
  arg key := key
  stored _ key := key
  readable_arg _ := rfl
  stored_arg _ _ _ := rfl
  stored_true _ := rfl

/-- The keys of a `strmap`: without memory `strdup` returns `NULL`. -/
def strmapKeys (siphash : CString → UInt64) : KeyKind CString (Option CString) where
  hash key := (key.map siphash).getD 0
  readable := Option.isSome
  arg := some
  stored ok key := if ok then some key else none
  readable_arg _ := rfl
  stored_arg b key h := by
    cases b with
    | true => rfl
    | false => cases h
  stored_true _ := rfl

section

variable {α κ ν : Type} [DecidableEq κ] (K : KeyKind α κ) (ok : Nat → Bool)

/-- The walk of an insertion along a chain: the chain with the new value, or nothing if no entry has the key;
undefined if it reads a key that is `NULL`. -/
def findReplace (key : α) (value : ν) : List (κ × ν) → Option (Option (List (κ × ν)))
  | [] => some none
  | e :: es =>
    if K.readable e.1 then
      if e.1 = K.arg key then some (some ((e.1, value) :: es))
      else (findReplace key value es).map (Option.map (e :: ·))
    else none

def chainFind (key : α) : List (κ × ν) → Option (Option ν)
  | [] => some none
  | e :: es =>
    if K.readable e.1 then
      if e.1 = K.arg key then some (some e.2) else chainFind key es
    else none

/-- Appends a copy of each entry of a chain to its bucket of `n`; the next allocation is number `a`.  Nothing if there
is no memory for a copy, and undefined if a key is `NULL`. -/
def copyChain (n : Nat) : List (κ × ν) → Nat → (Nat → List (κ × ν)) →
    Option (Option (Nat × (Nat → List (κ × ν))))
  | [], a, b => some (some (a, b))
  | e :: es, a, b =>
    if K.readable e.1 then
      if ok a then
        copyChain n es (a + 1)
          (Function.update b ((K.hash e.1).toNat % n) (b ((K.hash e.1).toNat % n) ++ [e]))
      else some none
    else none

/-- Copies the chains of buckets and frees each of them once it is copied.  The error is which buckets have been freed
by then. -/
def rehash (n : Nat) (old : Nat → List (κ × ν)) : List Nat → Nat → (Nat → List (κ × ν)) → (Nat → Bool) →
    Option (Except (Nat → Bool) (Nat × (Nat → List (κ × ν))))
  | [], a, b, _ => some (.ok (a, b))
  | i :: is, a, b, freed =>
    if freed i then none
    else
      match copyChain K ok n (old i) a b with
      | none => none
      | some none => some (.error freed)
      | some (some (a', b')) => rehash n old is a' b' (Function.update freed i !(old i).isEmpty)

namespace HeapMap

def create : HeapMap κ ν := ⟨Map.create, fun _ => false⟩

variable (s : HeapMap κ ν)

/-- Doubles the number of buckets if the map is three quarters full: the map with the number of the next allocation,
or the map that is left if there is no memory. -/
def grow : Option (Except (HeapMap κ ν) (Nat × HeapMap κ ν)) :=
  if s.objectCount ≥ s.bucketCount * 3 / 4 then
    if ok 0 then
      match rehash K ok (s.bucketCount * 2) s.buckets (List.range s.bucketCount) 1 (fun _ => []) s.freed with
      | none => none
      | some (.error freed) => some (.error { s with freed := freed })
      | some (.ok (a, b)) => some (.ok (a, ⟨⟨s.bucketCount * 2, s.objectCount, b⟩, fun _ => false⟩))
    else some (.error s)
  else some (.ok (0, s))

/-- Puts an entry into its bucket; the next allocation is number `a`. -/
def put (a : Nat) (key : α) (value : ν) : Option (Int × HeapMap κ ν) :=
  let i := s.index K.hash (K.arg key)
  if s.freed i then none
  else
    match findReplace K key value (s.buckets i) with
    | none => none
    | some (some chain) => some (0, { s with buckets := Function.update s.buckets i chain })
    | some none =>
      if ok a then
        some (0, { s with
          buckets := Function.update s.buckets i (s.buckets i ++ [(K.stored (ok (a + 1)) key, value)])
          objectCount := s.objectCount + 1 })
      else some (-1, s)

/-- `hashmap_insert`, `strmap_insert`: undefined if freed memory or a `NULL` key is read. -/
def insert (key : α) (value : ν) : Option (Int × HeapMap κ ν) :=
  match s.grow K ok with
  | none => none
  | some (.error s') => some (-1, s')
  | some (.ok (a, s')) => s'.put K ok a key value

/-- The entry that `hashmap_lookup` or `strmap_lookup` finds. -/
def find (key : α) : Option (Option ν) :=
  if s.freed (s.index K.hash (K.arg key)) then none
  else chainFind K key (s.buckets (s.index K.hash (K.arg key)))

/-- Some bucket leads to freed entries.  These are the first entries of the map, so a walk through all of it reads
them first. -/
def dangling : Bool := (List.range s.bucketCount).any s.freed

end HeapMap

/-- The calls on a map; the allocations in an insertion succeed or fail as `ok` says. -/
inductive HeapCall (α ν : Type)
  | insert (key : α) (value : ν) (ok : Nat → Bool)
  | lookup (key : α)
  | remove (key : α)
  | iterate

/-- The map after a call, where `remove` is the removal of the kind of map. -/
def heapStep (remove : Map κ ν → α → Option (Map κ ν)) (s : HeapMap κ ν) : HeapCall α ν → Option (HeapMap κ ν)
  | .insert key value ok => (s.insert K ok key value).map Prod.snd
  | .lookup key => (s.find K key).map fun _ => s
  | .remove key => if s.dangling then none else (remove s.toMap key).map fun m => { s with toMap := m }
  | .iterate => if s.dangling then none else some s

end

def hashmapHeapStep {ν : Type} (siphash : UInt64 → UInt64) :
    HeapMap UInt64 ν → HeapCall UInt64 ν → Option (HeapMap UInt64 ν) :=
  heapStep (hashmapKeys siphash) fun m key => some (hashmapRemove m key).2

def strmapHeapStep {ν : Type} (siphash : CString → UInt64) :
    HeapMap (Option CString) ν → HeapCall CString ν → Option (HeapMap (Option CString) ν) :=
  heapStep (strmapKeys siphash) fun m key => (strmapRemove m (some key)).map Prod.snd

/-! ### What an insertion promises -/

section

variable {α κ ν : Type} (K : KeyKind α κ)

/-- Entries that can be copied one after the other from allocation `a` on. -/
structure Copied (ok : Nat → Bool) (a : Nat) (l : List (κ × ν)) : Prop where
  readable : ∀ e ∈ l, K.readable e.1 = true
  memory : ∀ j < l.length, ok (a + j) = true

/-- No bucket leads to freed entries, and the entries with keys are in their buckets and differ in their keys. -/
structure HeapMap.Intact (s : HeapMap κ ν) : Prop where
  pos : 0 < s.bucketCount
  unfreed : ∀ i < s.bucketCount, s.freed i = false
  place : ∀ i < s.bucketCount, ∀ e ∈ s.buckets i, K.readable e.1 = true → s.index K.hash e.1 = i
  nodup : ∀ i < s.bucketCount, (((s.buckets i).map Prod.fst).filter K.readable).Nodup

variable [DecidableEq κ]

/-- A failed insertion leaves every key its entry, and the map leads to no freed entry. -/
def Atomic (s : HeapMap κ ν) : HeapCall α ν → Prop
  | .insert key value ok => ∀ s', s.insert K ok key value = some (-1, s') →
    (∀ k, s'.find K k = s.find K k) ∧ s'.iterate.Perm s.iterate ∧ ∀ i < s'.bucketCount, s'.freed i = false
  | _ => True

/-- If the map is about to grow and there is memory for the new array, then the first entry that there is no memory to
copy is in the bucket of all the entries before it. -/
def SparesChains (s : HeapMap κ ν) : HeapCall α ν → Prop
  | .insert _ _ ok => s.objectCount ≥ s.bucketCount * 3 / 4 → ok 0 = true →
    ∀ l1 e l2, s.iterate = l1 ++ e :: l2 → Copied K ok 1 l1 → K.readable e.1 = true → ok (1 + l1.length) = false →
      ∀ e' ∈ l1, s.index K.hash e'.1 = s.index K.hash e.1
  | _ => True

end

section

variable {α κ ν : Type} {K : KeyKind α κ} {ok : Nat → Bool} {l : List (κ × ν)} {e : κ × ν}

/-! ### The copies -/

variable {a : Nat} {l1 l2 l1' l2' : List (κ × ν)} {e' : κ × ν}

theorem Copied.append (h1 : Copied K ok a l1) (h2 : Copied K ok (a + l1.length) l2) : Copied K ok a (l1 ++ l2) := by
  refine ⟨fun e he => ?_, fun j hj => ?_⟩
  · rcases List.mem_append.1 he with he | he
    · exact h1.readable e he
    · exact h2.readable e he
  · rw [List.length_append] at hj
    by_cases hlt : j < l1.length
    · exact h1.memory j hlt
    · have hmem := h2.memory (j - l1.length) (by omega)
      rwa [show a + l1.length + (j - l1.length) = a + j by omega] at hmem

/-- The copying comes as far as an entry whose key is `NULL`, or for whose copy there is no memory. -/
structure Stops (K : KeyKind α κ) (ok : Nat → Bool) (a : Nat) (l1 : List (κ × ν)) (e : κ × ν) : Prop where
  copied : Copied K ok a l1
  stop : K.readable e.1 = true → ok (a + l1.length) = false

private theorem Stops.not_copied (h : Stops K ok a l1 e) : ¬ Copied K ok a (l1 ++ e :: l2) := by
  intro hc
  have hr : K.readable e.1 = true := hc.readable e (by simp)
  have hmem := hc.memory l1.length (by simp)
  rw [h.stop hr] at hmem
  cases hmem

theorem Stops.unique (h : Stops K ok a l1 e) (h' : Stops K ok a l1' e')
    (heq : l1 ++ e :: l2 = l1' ++ e' :: l2') : l1 = l1' ∧ e = e' := by
  rcases List.append_eq_append_iff.1 heq with ⟨m, rfl, hm⟩ | ⟨m, rfl, hm⟩
  · cases m with
    | nil => exact ⟨(List.append_nil l1).symm, (List.cons.inj hm).1⟩
    | cons x m =>
      obtain ⟨rfl, -⟩ := List.cons.inj hm
      exact absurd h'.copied h.not_copied
  · cases m with
    | nil => exact ⟨List.append_nil l1', (List.cons.inj hm).1.symm⟩
    | cons x m =>
      obtain ⟨rfl, -⟩ := List.cons.inj hm
      exact absurd h.copied h'.not_copied

/-- What becomes of the copies of a chain: they are all made, there is no memory for one, or a key is `NULL`. -/
private theorem copyChain_cases (n : Nat) (l : List (κ × ν)) (a : Nat) (b : Nat → List (κ × ν)) :
    (copyChain K ok n l a b = some (some (a + l.length, distribute (fun key => (K.hash key).toNat) n l b)) ∧
      Copied K ok a l) ∨
    ∃ l1 e l2, l = l1 ++ e :: l2 ∧ Stops K ok a l1 e ∧
      copyChain K ok n l a b = if K.readable e.1 then some none else none := by
  induction l generalizing a b with
  | nil => exact Or.inl ⟨rfl, ⟨fun e he => (by cases he), fun j hj => absurd hj j.not_lt_zero⟩⟩
  | cons e l ih =>
    have hnil : Copied K ok a ([] : List (κ × ν)) := ⟨fun e he => (by cases he), fun j hj => absurd hj j.not_lt_zero⟩
    unfold copyChain
    by_cases hr : K.readable e.1 = true
    · rw [if_pos hr]
      by_cases hok : ok a = true
      · rw [if_pos hok]
        have hone : Copied K ok a [e] := by
          refine ⟨fun e' he' => ?_, fun j hj => ?_⟩
          · rw [List.mem_singleton.1 he']
            exact hr
          · rw [Nat.lt_one_iff.1 hj]
            exact hok
        rcases ih (a + 1) (Function.update b ((K.hash e.1).toNat % n) (b ((K.hash e.1).toNat % n) ++ [e])) with
          ⟨h, hc⟩ | ⟨l1, x, l2, rfl, hs, h⟩
        · left
          rw [h, List.length_cons, Nat.add_assoc a 1, Nat.add_comm 1]
          exact ⟨rfl, hone.append hc⟩
        · right
          refine ⟨e :: l1, x, l2, rfl, ⟨hone.append hs.copied, fun hx => ?_⟩, h⟩
          rw [List.length_cons, Nat.add_comm l1.length, ← Nat.add_assoc]
          exact hs.stop hx
      · rw [if_neg hok]
        refine Or.inr ⟨[], e, l, rfl, ⟨hnil, fun _ => Bool.eq_false_iff.2 hok⟩, ?_⟩
        rw [if_pos hr]
    · rw [if_neg hr]
      refine Or.inr ⟨[], e, l, rfl, ⟨hnil, fun h => absurd h hr⟩, ?_⟩
      rw [if_neg hr]

def freedAfter (old : Nat → List (κ × ν)) (freed : Nat → Bool) (pre : List Nat) (j : Nat) : Bool :=
  if j ∈ pre then !(old j).isEmpty else freed j

private theorem freedAfter_cons (old : Nat → List (κ × ν)) (freed : Nat → Bool) (i : Nat) (pre : List Nat) :
    freedAfter old (Function.update freed i !(old i).isEmpty) pre = freedAfter old freed (i :: pre) := by
  funext j
  unfold freedAfter
  by_cases hj : j ∈ pre
  · rw [if_pos hj, if_pos (List.mem_cons_of_mem _ hj)]
  · rw [if_neg hj]
    by_cases hji : j = i
    · subst hji
      rw [Function.update_self, if_pos List.mem_cons_self]
    · rw [Function.update_of_ne hji, if_neg (by simp [hji, hj])]

/-- What becomes of the copies of the buckets: they are all made, or the copying stops in one, and the chains of the
buckets before it have been freed. -/
private theorem rehash_cases (n : Nat) (old : Nat → List (κ × ν)) {is : List Nat} (a : Nat) (b : Nat → List (κ × ν))
    {freed : Nat → Bool} (hfreed : ∀ i ∈ is, freed i = false) (his : is.Nodup) :
    (rehash K ok n old is a b freed = some (.ok (a + (is.flatMap old).length,
        distribute (fun key => (K.hash key).toNat) n (is.flatMap old) b)) ∧ Copied K ok a (is.flatMap old)) ∨
    ∃ pre i post l1 e l2, is = pre ++ i :: post ∧ old i = l1 ++ e :: l2 ∧
      Stops K ok a (pre.flatMap old ++ l1) e ∧
      rehash K ok n old is a b freed =
        if K.readable e.1 then some (.error (freedAfter old freed pre)) else none := by
  induction is generalizing a b freed with
  | nil => exact Or.inl ⟨rfl, ⟨fun e he => (by cases he), fun j hj => absurd hj j.not_lt_zero⟩⟩
  | cons i is ih =>
    obtain ⟨hi, his⟩ := List.nodup_cons.1 his
    unfold rehash
    rw [if_neg (by rw [hfreed i List.mem_cons_self]; decide)]
    rcases @copyChain_cases α κ ν K ok n (old i) a b with ⟨hcopy, hc⟩ | ⟨l1, e, l2, hl, hs, hcopy⟩
    · have hrest : ∀ j ∈ is, Function.update freed i (!(old i).isEmpty) j = false := by
        intro j hj
        rw [Function.update_of_ne fun (h : j = i) => hi (h ▸ hj)]
        exact hfreed j (List.mem_cons_of_mem _ hj)
      rw [hcopy]
      dsimp only
      rcases ih (a + (old i).length) (distribute (fun key => (K.hash key).toNat) n (old i) b) hrest his with
        ⟨h, hc'⟩ | ⟨pre, k, post, l1, e, l2, rfl, hl, hs, h⟩
      · left
        rw [h, List.flatMap_cons, List.length_append, distribute_append, Nat.add_assoc]
        exact ⟨rfl, hc.append hc'⟩
      · refine Or.inr ⟨i :: pre, k, post, l1, e, l2, rfl, hl, ?_, ?_⟩
        · rw [List.flatMap_cons, List.append_assoc]
          refine ⟨hc.append hs.copied, fun hr => ?_⟩
          rw [List.length_append, ← Nat.add_assoc]
          exact hs.stop hr
        · rw [h, freedAfter_cons]
    · refine Or.inr ⟨[], i, is, l1, e, l2, rfl, hl, hs, ?_⟩
      have hnone : freedAfter old freed [] = freed := rfl
      rw [hcopy, hnone]
      cases K.readable e.1 <;> rfl

/-! ### The growth -/

namespace HeapMap

variable {s : HeapMap κ ν}

def doubled (K : KeyKind α κ) (s : HeapMap κ ν) : HeapMap κ ν :=
  ⟨⟨s.bucketCount * 2, s.objectCount,
    distribute (fun key => (K.hash key).toNat) (s.bucketCount * 2) s.iterate fun _ => []⟩, fun _ => false⟩

theorem Intact.placed (h : s.Intact K) (hr : ∀ e ∈ s.iterate, K.readable e.1 = true) :
    Placed (fun key => (K.hash key).toNat) s.bucketCount s.buckets := by
  refine ⟨h.pos, fun i hi e he => h.place i hi e he (hr e (mem_contents.2 ⟨i, hi, he⟩)), fun i hi => ?_⟩
  have hnodup := h.nodup i hi
  rwa [List.filter_eq_self.2] at hnodup
  intro k hk
  obtain ⟨e, he, rfl⟩ := List.mem_map.1 hk
  exact hr e (mem_contents.2 ⟨i, hi, he⟩)

private theorem intact_of_placed {n c : Nat} {b : Nat → List (κ × ν)}
    (h : Placed (fun key => (K.hash key).toNat) n b) :
    HeapMap.Intact K (⟨⟨n, c, b⟩, fun _ => false⟩ : HeapMap κ ν) :=
  ⟨h.pos, fun _ _ => rfl, fun i hi e he _ => h.place i hi e he, fun i hi => (h.nodup i hi).filter _⟩

private theorem doubled_iterate (h : s.Intact K) : (doubled K s).iterate.Perm s.iterate := by
  have hperm := @contents_distribute κ ν (fun key => (K.hash key).toNat) (s.bucketCount * 2)
    (Nat.mul_pos h.pos (by decide)) s.iterate fun _ => []
  rwa [contents_nil, List.nil_append] at hperm

private theorem doubled_intact (h : s.Intact K) (hr : ∀ e ∈ s.iterate, K.readable e.1 = true) :
    (doubled K s).Intact K :=
  intact_of_placed ((h.placed hr).distribute (Nat.mul_pos h.pos (by decide)))

private theorem Intact.grow_cases (h : s.Intact K) (ok : Nat → Bool) :
    (s.objectCount < s.bucketCount * 3 / 4 ∧ s.grow K ok = some (.ok (0, s))) ∨
    (ok 0 = false ∧ s.grow K ok = some (.error s)) ∨
    (s.objectCount ≥ s.bucketCount * 3 / 4 ∧ Copied K ok 1 s.iterate ∧
      s.grow K ok = some (.ok (1 + s.iterate.length, doubled K s))) ∨
    (s.objectCount ≥ s.bucketCount * 3 / 4 ∧ ok 0 = true ∧
      ∃ pre i post l1 e l2, List.range s.bucketCount = pre ++ i :: post ∧ s.buckets i = l1 ++ e :: l2 ∧
        Stops K ok 1 (pre.flatMap s.buckets ++ l1) e ∧ s.grow K ok = if K.readable e.1 then
          some (.error { s with freed := freedAfter s.buckets s.freed pre }) else none) := by
  unfold grow
  by_cases hfull : s.objectCount ≥ s.bucketCount * 3 / 4
  · rw [if_pos hfull]
    by_cases hok : ok 0 = true
    · rw [if_pos hok]
      rcases @rehash_cases α κ ν K ok (s.bucketCount * 2) s.buckets (List.range s.bucketCount) 1 (fun _ => []) s.freed
        (fun i hi => h.unfreed i (List.mem_range.1 hi)) List.nodup_range with
        ⟨hr, hc⟩ | ⟨pre, i, post, l1, e, l2, hrange, hl, hs, hr⟩
      · rw [hr]
        exact Or.inr (Or.inr (Or.inl ⟨hfull, hc, rfl⟩))
      · refine Or.inr (Or.inr (Or.inr ⟨hfull, hok, pre, i, post, l1, e, l2, hrange, hl, hs, ?_⟩))
        rw [hr]
        cases K.readable e.1 <;> rfl
    · rw [if_neg hok]
      exact Or.inr (Or.inl ⟨Bool.eq_false_iff.2 hok, rfl⟩)
  · rw [if_neg hfull]
    exact Or.inl ⟨Nat.lt_of_not_le hfull, rfl⟩

end HeapMap

variable [DecidableEq κ] {key : α} {value : ν}

/-! ### Walks along a chain -/

private theorem findReplace_some {r : Option (List (κ × ν))} (h : findReplace K key value l = some r) :
    r = chainReplace (K.arg key) value l ∧ (r = none → ∀ e ∈ l, K.readable e.1 = true) := by
  induction l generalizing r with
  | nil =>
    cases h
    exact ⟨rfl, fun _ e he => by cases he⟩
  | cons e l ih =>
    unfold findReplace at h
    unfold chainReplace
    by_cases hr : K.readable e.1 = true
    · rw [if_pos hr] at h
      by_cases hk : e.1 = K.arg key
      · rw [if_pos hk] at h ⊢
        cases h
        exact ⟨rfl, fun hn => by cases hn⟩
      · rw [if_neg hk] at h ⊢
        obtain ⟨r', hr', rfl⟩ := Option.map_eq_some_iff.1 h
        obtain ⟨rfl, hall⟩ := ih hr'
        refine ⟨rfl, fun hn e' he' => ?_⟩
        rcases List.mem_cons.1 he' with rfl | he'
        · exact hr
        · exact hall (Option.map_eq_none_iff.1 hn) e' he'
    · rw [if_neg hr] at h
      cases h

private theorem findReplace_eq (h : ∀ e ∈ l, K.readable e.1 = true) (key : α) (value : ν) :
    findReplace K key value l = some (chainReplace (K.arg key) value l) := by
  induction l with
  | nil => rfl
  | cons e l ih =>
    unfold findReplace chainReplace
    rw [if_pos (h e List.mem_cons_self)]
    by_cases hk : e.1 = K.arg key
    · rw [if_pos hk, if_pos hk]
    · rw [if_neg hk, if_neg hk, ih fun e he => h e (List.mem_cons_of_mem _ he), Option.map_some]

private theorem chainFind_eq (h : ∀ e ∈ l, K.readable e.1 = true) (key : α) :
    chainFind K key l = some (l.lookup (K.arg key)) := by
  induction l with
  | nil => rfl
  | cons e l ih =>
    obtain ⟨k, v⟩ := e
    unfold chainFind
    rw [if_pos (h _ List.mem_cons_self), ih fun e he => h e (List.mem_cons_of_mem _ he), List.lookup_cons]
    by_cases hk : k = K.arg key
    · subst hk
      simp
    · rw [if_neg hk]
      have hne : (K.arg key == k) = false := beq_eq_false_iff_ne.2 fun h => hk h.symm
      simp [hne]

namespace HeapMap

variable {s s' : HeapMap κ ν}

private theorem find_of_unfreed {key : α} (h : s.freed (s.index K.hash (K.arg key)) = false) :
    s.find K key = chainFind K key (s.buckets (s.index K.hash (K.arg key))) := by
  unfold find
  rw [if_neg (by rw [h]; decide)]

private theorem find_eq (h : s.Intact K) (hr : ∀ e ∈ s.iterate, K.readable e.1 = true) (key : α) :
    s.find K key = some ((s.buckets (s.index K.hash (K.arg key))).lookup (K.arg key)) := by
  have hi : s.index K.hash (K.arg key) < s.bucketCount := Nat.mod_lt _ h.pos
  rw [find_of_unfreed (h.unfreed _ hi)]
  exact chainFind_eq (fun e he => hr e (mem_contents.2 ⟨_, hi, he⟩)) key

private theorem doubled_find (h : s.Intact K) (hr : ∀ e ∈ s.iterate, K.readable e.1 = true) (key : α) :
    (doubled K s).find K key = s.find K key := by
  have hp := h.placed hr
  have hpos : 0 < s.bucketCount * 2 := Nat.mul_pos h.pos (by decide)
  rw [find_eq h hr, find_eq (doubled_intact h hr) fun e he => hr e ((doubled_iterate h).mem_iff.1 he)]
  exact congrArg some ((hp.distribute hpos).lookup_eq (hp.represents.distribute hp hpos) (K.arg key))

/-! ### The steps -/

omit [DecidableEq κ] in
theorem Intact.update (h : s.Intact K) {i n : Nat} {c : List (κ × ν)}
    (hplace : ∀ k ∈ c.map Prod.fst, K.readable k = true → s.index K.hash k = i)
    (hnodup : ((c.map Prod.fst).filter K.readable).Nodup) :
    HeapMap.Intact K (⟨⟨s.bucketCount, n, Function.update s.buckets i c⟩, s.freed⟩ : HeapMap κ ν) := by
  refine ⟨h.pos, h.unfreed, fun j hj e he hr => ?_, fun j hj => ?_⟩
  · change e ∈ Function.update s.buckets i c j at he
    by_cases hji : j = i
    · subst hji
      rw [Function.update_self] at he
      exact hplace e.1 (List.mem_map.2 ⟨e, he, rfl⟩) hr
    · rw [Function.update_of_ne hji] at he
      exact h.place j hj e he hr
  · change (((Function.update s.buckets i c j).map Prod.fst).filter K.readable).Nodup
    by_cases hji : j = i
    · rwa [hji, Function.update_self]
    · rw [Function.update_of_ne hji]
      exact h.nodup j hj

omit [DecidableEq κ] in
private theorem Intact.place_key (h : s.Intact K) {i : Nat} (hi : i < s.bucketCount) :
    ∀ k ∈ (s.buckets i).map Prod.fst, K.readable k = true → s.index K.hash k = i := by
  intro k hk hr
  obtain ⟨e, he, rfl⟩ := List.mem_map.1 hk
  exact h.place i hi e he hr

omit [DecidableEq κ] in
theorem Intact.sublist (h : s.Intact K) {i n : Nat} (hi : i < s.bucketCount) {c : List (κ × ν)}
    (hc : c.Sublist (s.buckets i)) :
    HeapMap.Intact K (⟨⟨s.bucketCount, n, Function.update s.buckets i c⟩, s.freed⟩ : HeapMap κ ν) :=
  h.update (fun k hk => h.place_key hi k ((hc.map Prod.fst).subset hk))
    ((h.nodup i hi).sublist ((hc.map Prod.fst).filter _))

/-- The entry is put into its bucket, or there is no memory for it and nothing changes. -/
private theorem put_cases (h : s.Intact K) {ok : Nat → Bool} {a : Nat} {key : α} {value : ν} {code : Int}
    (hput : s.put K ok a key value = some (code, s')) : code = -1 ∧ s' = s ∨ code = 0 ∧ s'.Intact K := by
  have hi : s.index K.hash (K.arg key) < s.bucketCount := Nat.mod_lt _ h.pos
  unfold put at hput
  dsimp only at hput
  rw [if_neg (by rw [h.unfreed _ hi]; decide)] at hput
  cases hf : findReplace K key value (s.buckets (s.index K.hash (K.arg key))) with
  | none =>
    rw [hf] at hput
    cases hput
  | some r =>
    rw [hf] at hput
    obtain ⟨hr, hall⟩ := findReplace_some hf
    cases r with
    | some c =>
      cases hput
      obtain ⟨l1, w, l2, hl, rfl⟩ := chainReplace_some hr.symm
      have hkeys : (l1 ++ (K.arg key, value) :: l2).map Prod.fst =
          (s.buckets (s.index K.hash (K.arg key))).map Prod.fst := by
        rw [hl]
        simp
      refine Or.inr ⟨rfl, h.update ?_ ?_⟩
      · rw [hkeys]
        exact h.place_key hi
      · rw [hkeys]
        exact h.nodup _ hi
    | none =>
      dsimp only at hput
      by_cases hok : ok a = true
      · rw [if_pos hok] at hput
        cases hput
        have hnew := chainReplace_none hr.symm
        refine Or.inr ⟨rfl, h.update (fun k hk hread => ?_) ?_⟩
        · rw [List.map_append, List.mem_append] at hk
          rcases hk with hk | hk
          · exact h.place_key hi k hk hread
          · obtain rfl := List.mem_singleton.1 hk
            rw [K.stored_arg _ _ hread]
        · rw [List.map_append, List.filter_append, List.nodup_append]
          refine ⟨h.nodup _ hi, (List.nodup_singleton _).filter _, ?_⟩
          rintro k hk k' hk' rfl
          obtain ⟨hk', hread⟩ := List.mem_filter.1 hk'
          obtain rfl := List.mem_singleton.1 hk'
          rw [K.stored_arg _ _ hread] at hk
          exact hnew (List.mem_filter.1 hk).1
      · rw [if_neg hok] at hput
        cases hput
        exact Or.inl ⟨rfl, rfl⟩

private theorem put_eq (h : s.Intact K) (hr : ∀ e ∈ s.iterate, K.readable e.1 = true) {ok : Nat → Bool}
    (hok : ∀ n, ok n = true) (a : Nat) (key : α) (value : ν) :
    s.put K ok a key value = some (0, ⟨s.toMap.put K.hash (K.arg key) value, s.freed⟩) := by
  have hi : s.index K.hash (K.arg key) < s.bucketCount := Nat.mod_lt _ h.pos
  unfold put Map.put
  dsimp only
  rw [if_neg (by rw [h.unfreed _ hi]; decide), findReplace_eq fun e he => hr e (mem_contents.2 ⟨_, hi, he⟩)]
  cases chainReplace (K.arg key) value (s.buckets (s.index K.hash (K.arg key))) with
  | some c => rfl
  | none =>
    dsimp only
    rw [if_pos (hok a), hok (a + 1), K.stored_true]

theorem insert_eq (h : s.Intact K) (hr : ∀ e ∈ s.iterate, K.readable e.1 = true) {ok : Nat → Bool}
    (hok : ∀ n, ok n = true) (key : α) (value : ν) : ∃ freed,
    s.insert K ok key value = some (0, ⟨s.toMap.insert K.hash (K.arg key) value, freed⟩) := by
  unfold insert Map.insert Map.grow
  rcases h.grow_cases ok with ⟨hlt, hg⟩ | ⟨h0, -⟩ | ⟨hfull, -, hg⟩ | ⟨-, -, pre, i, post, l1, e, l2, hrange, hl,
    hs, -⟩
  · rw [hg, if_neg (Nat.not_le_of_lt hlt)]
    exact ⟨_, put_eq h hr hok 0 key value⟩
  · rw [hok 0] at h0
    cases h0
  · rw [hg, if_pos hfull]
    exact ⟨_, put_eq (doubled_intact h hr) (fun e he => hr e ((doubled_iterate h).mem_iff.1 he)) hok _ key value⟩
  · have hmem : e ∈ s.iterate := by
      refine mem_contents.2 ⟨i, List.mem_range.1 ?_, ?_⟩
      · rw [hrange]
        simp
      · rw [hl]
        simp
    have hfail := hs.stop (hr e hmem)
    rw [hok] at hfail
    cases hfail

end HeapMap

variable {s s' : HeapMap κ ν}

omit [DecidableEq κ] in
/-- When the copying stops, chains have been freed exactly when the entries before the one that it stops at are in
more than one bucket. -/
private theorem freedAfter_iff (h : s.Intact K) {pre post : List Nat} {i : Nat}
    (hrange : List.range s.bucketCount = pre ++ i :: post)
    (hl : s.buckets i = l1 ++ e :: l2) (hs : ∀ x ∈ pre.flatMap s.buckets ++ l1 ++ [e], K.readable x.1 = true) :
    (∀ j < s.bucketCount, freedAfter s.buckets s.freed pre j = false) ↔
      ∀ x ∈ pre.flatMap s.buckets ++ l1, s.index K.hash x.1 = s.index K.hash e.1 := by
  have hmem : ∀ j ∈ pre ++ i :: post, j < s.bucketCount := fun j hj => List.mem_range.1 (hrange ▸ hj)
  have hi : i < s.bucketCount := hmem i (by simp)
  have hei : s.index K.hash e.1 = i := h.place i hi e (by rw [hl]; simp) (hs e (by simp))
  have hne : ∀ j ∈ pre, j ≠ i := by
    have hnodup : (pre ++ i :: post).Nodup := hrange ▸ List.nodup_range
    rintro j hj rfl
    exact (List.nodup_append.1 hnodup).2.2 j hj j List.mem_cons_self rfl
  constructor
  · intro hfree x hx
    rcases List.mem_append.1 hx with hx | hx
    · obtain ⟨j, hj, hxj⟩ := List.mem_flatMap.1 hx
      have hempty := hfree j (hmem j (List.mem_append_left _ hj))
      unfold freedAfter at hempty
      rw [if_pos hj, Bool.not_eq_false', List.isEmpty_iff] at hempty
      rw [hempty] at hxj
      cases hxj
    · rw [hei]
      exact h.place i hi x (by rw [hl]; exact List.mem_append_left _ hx) (hs x (by simp [hx]))
  · intro hsame j hj
    unfold freedAfter
    by_cases hjp : j ∈ pre
    · rw [if_pos hjp, Bool.not_eq_false', List.isEmpty_iff]
      cases hb : s.buckets j with
      | nil => rfl
      | cons x es =>
        have hx : x ∈ pre.flatMap s.buckets := List.mem_flatMap.2 ⟨j, hjp, by rw [hb]; exact List.mem_cons_self⟩
        have hxj := h.place j hj x (by rw [hb]; exact List.mem_cons_self) (hs x (by simp [hx]))
        have hxe := hsame x (List.mem_append_left _ hx)
        rw [hxj, hei] at hxe
        exact absurd hxe (hne j hjp)
    · rw [if_neg hjp]
      exact h.unfreed j hj

/-- A call is atomic exactly when the copies do not fail after a chain has been freed. -/
private theorem atomic_iff (h : s.Intact K) (call : HeapCall α ν) : Atomic K s call ↔ SparesChains K s call := by
  cases call with
  | lookup key => exact Iff.rfl
  | remove key => exact Iff.rfl
  | iterate => exact Iff.rfl
  | insert key value ok =>
    change (∀ s', s.insert K ok key value = some (-1, s') → _) ↔ (_ → _ → ∀ l1 e l2, _)
    unfold HeapMap.insert
    rcases h.grow_cases ok with ⟨hlt, hg⟩ | ⟨hok, hg⟩ | ⟨-, hc, hg⟩ |
      ⟨hfull, hok, pre, i, post, l1, e, l2, hrange, hl, hs, hg⟩
    · -- the map does not grow
      rw [hg]
      refine iff_of_true (fun s' hput => ?_) (fun hfull => absurd hlt (Nat.not_lt_of_le hfull))
      rcases HeapMap.put_cases h hput with ⟨-, rfl⟩ | ⟨hcode, -⟩
      · exact ⟨fun _ => rfl, List.Perm.refl _, h.unfreed⟩
      · cases hcode
    · -- there is no memory for the new array of buckets
      rw [hg]
      refine iff_of_true (fun s' hs' => ?_) (fun _ hok' => ?_)
      · cases hs'
        exact ⟨fun _ => rfl, List.Perm.refl _, h.unfreed⟩
      · rw [hok] at hok'
        cases hok'
    · -- all entries are copied, and only the new entry may fail
      rw [hg]
      refine iff_of_true (fun s' hput => ?_) (fun _ _ l1 e l2 hit hl1 _ hfail => ?_)
      · rcases HeapMap.put_cases (HeapMap.doubled_intact h hc.readable) hput with ⟨-, rfl⟩ | ⟨hcode, -⟩
        · exact ⟨HeapMap.doubled_find h hc.readable, HeapMap.doubled_iterate h, fun _ _ => rfl⟩
        · cases hcode
      · rw [hit] at hc
        exact absurd hc (Stops.not_copied ⟨hl1, fun _ => hfail⟩)
    · -- the copy of an entry fails after the chains before it have been freed
      have hit : s.iterate = (pre.flatMap s.buckets ++ l1) ++ e :: (l2 ++ post.flatMap s.buckets) := by
        unfold Map.iterate contents
        rw [hrange, List.flatMap_append, List.flatMap_cons, hl]
        simp
      rw [hg]
      by_cases hr : K.readable e.1 = true
      · rw [if_pos hr]
        have hread : ∀ x ∈ pre.flatMap s.buckets ++ l1 ++ [e], K.readable x.1 = true := by
          intro x hx
          rcases List.mem_append.1 hx with hx | hx
          · exact hs.copied.readable x hx
          · rwa [List.mem_singleton.1 hx]
        have hfree := freedAfter_iff h hrange hl hread
        constructor
        · intro hatomic _ _ l1' e' l2' hit' hl1' hr' hfail'
          obtain ⟨rfl, rfl⟩ := hs.unique ⟨hl1', fun _ => hfail'⟩ (hit.symm.trans hit')
          exact hfree.1 (hatomic _ rfl).2.2
        · intro hspare s' hs'
          cases hs'
          have hunfreed := hfree.2 (hspare hfull hok _ e _ hit hs.copied hr (hs.stop hr))
          refine ⟨fun key => ?_, List.Perm.refl _, hunfreed⟩
          have hidx : s.index K.hash (K.arg key) < s.bucketCount := Nat.mod_lt _ h.pos
          rw [HeapMap.find_of_unfreed (h.unfreed _ hidx)]
          exact HeapMap.find_of_unfreed (hunfreed _ hidx)
      · rw [if_neg hr]
        refine iff_of_true (fun s' hs' => by cases hs') ?_
        intro _ _ l1' e' l2' hit' hl1' hr' hfail'
        obtain ⟨rfl, rfl⟩ := hs.unique ⟨hl1', fun _ => hfail'⟩ (hit.symm.trans hit')
        exact absurd hr' hr

/-- What a removal does: it takes entries out of one chain, if it does anything. -/
def Unlinks (remove : Map κ ν → α → Option (Map κ ν)) : Prop :=
  ∀ m key m', remove m key = some m' → m' = m ∨
    ∃ i < m.bucketCount, ∃ c, c.Sublist (m.buckets i) ∧ m' = { m with buckets := Function.update m.buckets i c }

private theorem heapStep_intact {remove : Map κ ν → α → Option (Map κ ν)} (hremove : Unlinks remove) (h : s.Intact K)
    {call : HeapCall α ν} (ha : Atomic K s call) (hstep : heapStep K remove s call = some s') : s'.Intact K := by
  cases call with
  | lookup key =>
    obtain ⟨-, -, rfl⟩ := Option.map_eq_some_iff.1 hstep
    exact h
  | iterate =>
    change (if s.dangling then none else some s) = some s' at hstep
    split_ifs at hstep
    cases hstep
    exact h
  | remove key =>
    change (if s.dangling then none else (remove s.toMap key).map fun m => { s with toMap := m }) = some s' at hstep
    split_ifs at hstep
    · obtain ⟨m', hm', rfl⟩ := Option.map_eq_some_iff.1 hstep
      rcases hremove _ key m' hm' with rfl | ⟨i, hi, c, hc, rfl⟩
      · exact h
      · exact h.sublist hi hc
  | insert key value ok =>
    obtain ⟨⟨code, s1⟩, hins, rfl⟩ := Option.map_eq_some_iff.1 hstep
    have hfail : code = -1 → ∀ i < s1.bucketCount, s1.freed i = false := by
      rintro rfl
      exact (ha s1 hins).2.2
    unfold HeapMap.insert at hins
    rcases h.grow_cases ok with ⟨-, hg⟩ | ⟨-, hg⟩ | ⟨-, hc, hg⟩ | ⟨-, -, pre, i, post, l1, e, l2, -, -, -, hg⟩
    · rw [hg] at hins
      rcases HeapMap.put_cases h hins with ⟨-, rfl⟩ | ⟨-, h1⟩
      · exact h
      · exact h1
    · rw [hg] at hins
      cases hins
      exact h
    · rw [hg] at hins
      rcases HeapMap.put_cases (HeapMap.doubled_intact h hc.readable) hins with ⟨-, rfl⟩ | ⟨-, h1⟩
      · exact HeapMap.doubled_intact h hc.readable
      · exact h1
    · rw [hg] at hins
      split_ifs at hins
      cases hins
      exact ⟨h.pos, hfail rfl, h.place, h.nodup⟩

/-! ### The removals -/

omit [DecidableEq κ] in
private theorem sublist_without (l1 l2 : List (κ × ν)) : (l1 ++ l2).Sublist (l1 ++ e :: l2) :=
  (List.sublist_cons_self e l2).append_left l1

private theorem hashmapScan_unlinks {k : κ} {b b' : Nat → List (κ × ν)} {is : List Nat}
    (h : hashmapScan k b is = some (e, b')) : ∃ i ∈ is, ∃ c, c.Sublist (b i) ∧ b' = Function.update b i c := by
  induction is with
  | nil => cases h
  | cons i is ih =>
    unfold hashmapScan at h
    cases hu : chainUnlink k (b i) with
    | some r =>
      obtain ⟨x, c⟩ := r
      rw [hu] at h
      cases h
      obtain ⟨l1, w, l2, -, hl, rfl⟩ := chainUnlink_some hu
      exact ⟨i, List.mem_cons_self, _, hl ▸ sublist_without l1 l2, rfl⟩
    | none =>
      rw [hu] at h
      obtain ⟨j, hj, c, hc, rfl⟩ := ih h
      exact ⟨j, List.mem_cons_of_mem _ hj, c, hc, rfl⟩

private theorem hashmapRemove_unlinks : Unlinks fun (m : Map κ ν) key => some (hashmapRemove m key).2 := by
  intro m key m' h
  dsimp only at h
  unfold hashmapRemove at h
  cases hs : hashmapScan key m.buckets (List.range m.bucketCount) with
  | some r =>
    obtain ⟨e, b⟩ := r
    rw [hs] at h
    cases h
    obtain ⟨i, hi, c, hc, rfl⟩ := hashmapScan_unlinks hs
    exact Or.inr ⟨i, List.mem_range.1 hi, c, hc, rfl⟩
  | none =>
    rw [hs] at h
    cases h
    exact Or.inl rfl

private theorem strmapScan_unlinks {k : κ} {b b' : Nat → List (κ × ν)} {is : List Nat}
    (h : strmapScan k b is = some (some b')) : ∃ i ∈ is, ∃ c, c.Sublist (b i) ∧ b' = Function.update b i c := by
  induction is with
  | nil => cases h
  | cons i is ih =>
    unfold strmapScan at h
    cases hb : b i with
    | nil =>
      rw [hb] at h
      obtain ⟨j, hj, c, hc, rfl⟩ := ih h
      exact ⟨j, List.mem_cons_of_mem _ hj, c, hc, rfl⟩
    | cons x es =>
      rw [hb] at h
      by_cases hk : x.1 = k
      · simp only [chainUnlinkFreed, if_pos hk] at h
        cases h
        exact ⟨i, List.mem_cons_self, es, hb ▸ List.sublist_cons_self x es, rfl⟩
      · simp only [chainUnlinkFreed, if_neg hk] at h
        cases h

private theorem strmapRemove_unlinks (f : α → κ) :
    Unlinks fun (m : Map κ ν) key => (strmapRemove m (f key)).map Prod.snd := by
  intro m key m' h
  obtain ⟨r, hr, rfl⟩ := Option.map_eq_some_iff.1 h
  unfold strmapRemove at hr
  cases hs : strmapScan (f key) m.buckets (List.range m.bucketCount) with
  | none =>
    rw [hs] at hr
    cases hr
  | some o =>
    rw [hs] at hr
    cases o with
    | none =>
      cases hr
      exact Or.inl rfl
    | some b =>
      cases hr
      obtain ⟨i, hi, c, hc, rfl⟩ := strmapScan_unlinks hs
      exact Or.inr ⟨i, List.mem_range.1 hi, c, hc, rfl⟩

omit [DecidableEq κ] in
private theorem create_intact : HeapMap.Intact K (HeapMap.create : HeapMap κ ν) :=
  HeapMap.intact_of_placed
    ⟨Nat.succ_pos 15, fun _ _ e he => (by cases he), fun _ _ => List.nodup_nil⟩

private theorem heapRun_atomic_iff {remove : Map κ ν → α → Option (Map κ ν)} (hremove : Unlinks remove)
    (calls : List (HeapCall α ν)) : Machine.Meets (heapStep K remove) (Atomic K) calls HeapMap.create ↔
      Machine.Meets (heapStep K remove) (SparesChains K) calls HeapMap.create :=
  Machine.meets_congr (fun _ call h => atomic_iff h call) (fun _ _ _ h ha hs => heapStep_intact hremove h ha hs)
    create_intact

end

/-- In a run of calls on a new map, with any allocations failing, every failed insertion leaves the map as it was
exactly when, whenever the entries are copied, the first copy that fails is of an entry in the first bucket with
entries. -/
theorem insert_atomic_iff (siphash : UInt64 → UInt64) (calls : List (HeapCall UInt64 UInt64))
    (strSiphash : CString → UInt64) (strCalls : List (HeapCall CString UInt64)) :
    (Machine.Meets (hashmapHeapStep siphash) (Atomic (hashmapKeys siphash)) calls HeapMap.create ↔
      Machine.Meets (hashmapHeapStep siphash) (SparesChains (hashmapKeys siphash)) calls HeapMap.create) ∧
    (Machine.Meets (strmapHeapStep strSiphash) (Atomic (strmapKeys strSiphash)) strCalls HeapMap.create ↔
      Machine.Meets (strmapHeapStep strSiphash) (SparesChains (strmapKeys strSiphash)) strCalls HeapMap.create) :=
  ⟨heapRun_atomic_iff hashmapRemove_unlinks calls, heapRun_atomic_iff (strmapRemove_unlinks some) strCalls⟩

def fillMap : List (HeapCall UInt64 UInt64) :=
  (List.range 12).map fun k => .insert (UInt64.ofNat k) 1 fun _ => true

/-- There is memory for the copy of the first entry, and not for that of the second: the insertion fails, and the
first bucket leads to an entry that has been freed. -/
theorem insert_not_atomic : ∃ s s', Machine.run (hashmapHeapStep fun k => k) fillMap HeapMap.create = some s ∧
    s.insert (hashmapKeys fun k => k) (fun n => n < 2) 12 1 = some (-1, s') ∧ s'.freed 0 = true ∧
    s'.buckets 0 = [(0, 1)] ∧ ¬ Atomic (hashmapKeys fun k => k) s (.insert 12 1 fun n => n < 2) := by
  refine ⟨_, _, rfl, rfl, rfl, rfl, fun h => ?_⟩
  have hfree := (h _ rfl).2.2 0 (by decide)
  cases hfree

end Pml.Util
