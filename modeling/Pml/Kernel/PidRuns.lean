import Mathlib.Data.List.Find
import Pml.Lib.Machine
import Pml.Kernel.Processes

/-!
# Runs of the allocator of process IDs (`kernel/pid.c`)

`alloc_pid` sets the size of the bitmap before it knows that `realloc` succeeds.  After a failure the size is larger
than the bitmap, and the search runs past its end.  And the loop is not entered any more when the size has reached its
limit: the IDs of the last part are never handed out, and neither are those that are freed later.  Apart from that
each ID that is handed out is free, and the search fails only if there is none (`pids_right_iff`).
-/

namespace Pml.Kernel

open Machine

/-- The allocator of IDs with the number of bytes that are allocated for the bitmap. -/
structure PidTable extends Pids where
  room : Nat

/-- What `alloc_pid` returns: an ID, or -1 because `realloc` has failed, or -1 behind the loop. -/
inductive PidResult
  | pid (n : Nat)
  | noMemory
  | exhausted
  deriving DecidableEq

namespace PidTable

/-- The bit at which the inner loop of `alloc_pid` stops, because it is clear or outside of the bitmap. -/
def search (s : PidTable) : Option Nat :=
  (List.range' s.next (s.size * 8 - s.next)).find? fun n => s.room ≤ n / 8 || !s.bitmap n

/-- `realloc` and `memset` for a larger bitmap. -/
def grow (s : PidTable) : PidTable where
  bitmap n := if s.size * 8 ≤ n then false else s.bitmap n
  next := max s.next (s.size * 8)
  size := s.size + pidBitmapIncrement
  room := s.size + pidBitmapIncrement

/-- The loop of `alloc_pid`, where `mem` tells for which sizes `realloc` succeeds; it is undefined if the loop tests a
bit outside of the bitmap. -/
def allocLoop (mem : Nat → Bool) : Nat → PidTable → Option (PidResult × PidTable)
  | 0, s => some (.exhausted, s)
  | fuel + 1, s =>
    if s.size < pidBitmapSizeLimit then
      match s.search with
      | some n =>
        if s.room ≤ n / 8 then none
        else some (.pid n, { s with bitmap := Function.update s.bitmap n true, next := n + 1 })
      | none =>
        if mem (s.size + pidBitmapIncrement) = false then
          some (.noMemory, { s with next := max s.next (s.size * 8), size := s.size + pidBitmapIncrement })
        else allocLoop mem fuel s.grow
    else some (.exhausted, s)

/-- `alloc_pid` -/
def alloc (mem : Nat → Bool) (s : PidTable) : Option (PidResult × PidTable) :=
  s.allocLoop mem (pidBitmapSizeLimit / pidBitmapIncrement)

/-- `free_pid` -/
def free (s : PidTable) (pid : Int) : Option PidTable :=
  if 0 ≤ pid ∧ s.room ≤ pid.toNat / 8 then none else some { s with toPids := s.toPids.free pid }

/-- `init_pid_allocator` -/
def init : PidTable := ⟨⟨fun n => n = 0, 1, pidBitmapIncrement⟩, pidBitmapIncrement⟩

end PidTable

/-- A call of `alloc_pid` or of `free_pid`. -/
inductive PidInput
  | alloc (mem : Nat → Bool)
  | free (pid : Nat)

/-- The allocator, and the IDs that are allocated: those that were returned and not freed since, and 0. -/
structure PidState where
  table : PidTable
  live : Nat → Bool

def PidResult.mark (r : PidResult) (live : Nat → Bool) : Nat → Bool :=
  match r with
  | .pid n => Function.update live n true
  | _ => live

def pidStep (s : PidState) : PidInput → Option PidState
  | .alloc mem => (s.table.alloc mem).map fun r => ⟨r.2, r.1.mark s.live⟩
  | .free pid => (s.table.free pid).map fun t => ⟨t, Function.update s.live pid false⟩

def PidOwned (s : PidState) : PidInput → Prop
  | .alloc _ => True
  | .free pid => s.live pid = true

/-- `alloc_pid` returns an ID that is not allocated; it fails only if `realloc` fails or all IDs are allocated. -/
def PidRight (s : PidState) (inp : PidInput) (_ : PidState) : Prop :=
  ∀ mem, inp = .alloc mem → ∃ r t, s.table.alloc mem = some (r, t) ∧ (∀ n, r = .pid n → s.live n = false) ∧
    (r = .exhausted → ∀ n < pidBitmapSizeLimit * 8, s.live n = true)

/-- The size is below its limit, and a bit of the bitmap is clear, or no `realloc` has failed before and the one that
is due fails or leaves the size below the limit. -/
def PidFits (s : PidState) : PidInput → Prop
  | .alloc mem => s.table.size < pidBitmapSizeLimit ∧ ((∃ n < s.table.room * 8, s.table.bitmap n = false) ∨
      (s.table.room = s.table.size ∧ (mem (s.table.size + pidBitmapIncrement) = false ∨
        s.table.size + pidBitmapIncrement < pidBitmapSizeLimit)))
  | .free _ => True

/-- The bits are those of the allocated IDs, all bits below the start of the search are set, and some ID is free. -/
structure PidState.Kept (s : PidState) : Prop where
  live : ∀ n, s.live n = true ↔ n < s.table.room * 8 ∧ s.table.bitmap n = true
  next : s.table.next ≤ s.table.room * 8
  passed : ∀ n < s.table.next, s.table.bitmap n = true
  room : s.table.room ≤ s.table.size
  spare : ∃ n < pidBitmapSizeLimit * 8, s.live n = false

def pidStart : PidState := ⟨PidTable.init, fun n => n = 0⟩

theorem pidStart_kept : pidStart.Kept := by
  constructor
  · intro n
    unfold pidStart PidTable.init
    simp only [decide_eq_true_eq]
    constructor
    · rintro rfl
      exact ⟨by decide, rfl⟩
    · exact fun h => h.2
  · decide
  · intro n hn
    unfold pidStart PidTable.init at *
    dsimp only at *
    exact decide_eq_true (by omega)
  · decide
  · exact ⟨1, by decide, rfl⟩

section

variable {s : PidState}

/-- The search finds the first clear bit of the bitmap, or it reaches the end of the bitmap. -/
theorem PidState.Kept.search (h : s.Kept) :
    (∃ n < s.table.room * 8, s.table.search = some n ∧ s.table.bitmap n = false ∧ ∀ m < n, s.table.bitmap m = true) ∨
    ((∀ n < s.table.room * 8, s.table.bitmap n = true) ∧
      s.table.search = if s.table.room < s.table.size then some (s.table.room * 8) else none) := by
  have hnext := h.next
  have hroom := h.room
  have hpassed := h.passed
  unfold PidTable.search
  by_cases hall : ∀ n < s.table.room * 8, s.table.bitmap n = true
  · refine Or.inr ⟨hall, ?_⟩
    have hskip : ∀ n < s.table.room * 8, (decide (s.table.room ≤ n / 8) || !s.table.bitmap n) = false := by
      intro n hn
      rw [hall n hn, decide_eq_false (by omega)]
      rfl
    split
    · rw [List.find?_range'_eq_some]
      refine ⟨?_, ?_, fun j _ hj => ?_⟩
      · rw [decide_eq_true (by omega)]
        rfl
      · rw [List.mem_range'_1]
        omega
      · rw [hskip j hj]
        rfl
    · rw [List.find?_range'_eq_none]
      intro j _ hj
      rw [hskip j (by omega)]
      rfl
  · have hex : ∃ n, n < s.table.room * 8 ∧ s.table.bitmap n = false := by
      simpa using hall
    obtain ⟨hlt, hclear⟩ := Nat.find_spec hex
    have hset : ∀ m < Nat.find hex, s.table.bitmap m = true := by
      intro m hm
      by_contra hc
      exact Nat.find_min hex hm ⟨by omega, by simpa using hc⟩
    refine Or.inl ⟨Nat.find hex, hlt, ?_, hclear, hset⟩
    have hle : s.table.next ≤ Nat.find hex := by
      by_contra hc
      rw [hpassed _ (by omega)] at hclear
      cases hclear
    rw [List.find?_range'_eq_some]
    refine ⟨?_, ?_, fun j _ hj => ?_⟩
    · rw [hclear]
      simp
    · rw [List.mem_range'_1]
      omega
    · rw [hset j hj, decide_eq_false (by omega)]
      rfl

theorem PidState.Kept.grow (h : s.Kept) (hroom : s.table.room = s.table.size)
    (hall : ∀ n < s.table.room * 8, s.table.bitmap n = true) :
    ({ s with table := s.table.grow } : PidState).Kept := by
  have hnext := h.next
  have hinc : pidBitmapIncrement = 1024 := rfl
  unfold PidTable.grow
  constructor
  · intro n
    dsimp only
    rw [h.live n]
    split
    · constructor
      · omega
      · rintro ⟨-, hf⟩
        cases hf
    · refine and_congr_left fun _ => ?_
      omega
  · dsimp only
    omega
  · intro n hn
    dsimp only at hn ⊢
    rw [if_neg (by omega)]
    exact hall n (by omega)
  · exact Nat.le_refl _
  · exact h.spare

private theorem allocLoop_found {mem : Nat → Bool} {t : PidTable} {n : Nat} (hlimit : t.size < pidBitmapSizeLimit)
    (hs : t.search = some n) (hn : n < t.room * 8) (fuel : Nat) : t.allocLoop mem (fuel + 1) =
      some (.pid n, { t with bitmap := Function.update t.bitmap n true, next := n + 1 }) := by
  rw [PidTable.allocLoop, if_pos hlimit, hs]
  dsimp only
  rw [if_neg (by omega)]

theorem PidState.Kept.alloc_cases (h : s.Kept) (mem : Nat → Bool) :
    (pidBitmapSizeLimit ≤ s.table.size ∧ s.table.alloc mem = some (.exhausted, s.table)) ∨
    (s.table.size < pidBitmapSizeLimit ∧ ∃ n < s.table.room * 8, s.table.bitmap n = false ∧
      (∀ m < n, s.table.bitmap m = true) ∧ s.table.alloc mem =
        some (.pid n, { s.table with bitmap := Function.update s.table.bitmap n true, next := n + 1 })) ∨
    ((∀ n < s.table.room * 8, s.table.bitmap n = true) ∧ s.table.size < pidBitmapSizeLimit ∧
      ((s.table.room < s.table.size ∧ s.table.alloc mem = none) ∨
      (s.table.room = s.table.size ∧ mem (s.table.size + pidBitmapIncrement) = false ∧ s.table.alloc mem =
        some (.noMemory, { s.table with
          next := max s.table.next (s.table.size * 8), size := s.table.size + pidBitmapIncrement })) ∨
      (s.table.room = s.table.size ∧ mem (s.table.size + pidBitmapIncrement) = true ∧
        s.table.size + pidBitmapIncrement < pidBitmapSizeLimit ∧ s.table.alloc mem =
        some (.pid (s.table.size * 8), { s.table.grow with
          bitmap := Function.update s.table.grow.bitmap (s.table.size * 8) true, next := s.table.size * 8 + 1 })) ∨
      (s.table.room = s.table.size ∧ mem (s.table.size + pidBitmapIncrement) = true ∧
        pidBitmapSizeLimit ≤ s.table.size + pidBitmapIncrement ∧
        s.table.alloc mem = some (.exhausted, s.table.grow)))) := by
  have hfuel : pidBitmapSizeLimit / pidBitmapIncrement = 30 + 1 + 1 := rfl
  have hinc : pidBitmapIncrement = 1024 := rfl
  have hle := h.room
  unfold PidTable.alloc
  rw [hfuel]
  by_cases hlimit : s.table.size < pidBitmapSizeLimit
  · rcases h.search with ⟨n, hn, hs, hclear, hset⟩ | ⟨hall, hs⟩
    · exact Or.inr (Or.inl ⟨hlimit, n, hn, hclear, hset, allocLoop_found hlimit hs hn _⟩)
    · refine Or.inr (Or.inr ⟨hall, hlimit, ?_⟩)
      rw [PidTable.allocLoop, if_pos hlimit, hs]
      by_cases hroom : s.table.room < s.table.size
      · -- an earlier `realloc` has failed, so the search reads past the end
        rw [if_pos hroom]
        dsimp only
        rw [if_pos (by omega)]
        exact Or.inl ⟨hroom, rfl⟩
      · rw [if_neg hroom]
        dsimp only
        have hroom' : s.table.room = s.table.size := by omega
        cases hmem : mem (s.table.size + pidBitmapIncrement) with
        | false =>
          rw [if_pos rfl]
          exact Or.inr (Or.inl ⟨hroom', rfl, rfl⟩)
        | true =>
          rw [if_neg (by decide)]
          by_cases hnew : s.table.size + pidBitmapIncrement < pidBitmapSizeLimit
          · refine Or.inr (Or.inr (Or.inl ⟨hroom', rfl, hnew, ?_⟩))
            have hg := h.grow hroom' hall
            have hfirst : s.table.grow.bitmap (s.table.size * 8) = false := if_pos (Nat.le_refl _)
            have hin : s.table.size * 8 < s.table.grow.room * 8 := by
              show s.table.size * 8 < (s.table.size + pidBitmapIncrement) * 8
              omega
            rcases hg.search with ⟨n, hn, hs', hclear, hset⟩ | ⟨hall', -⟩
            · -- the first ID that is free is the first one of the new bytes
              have he : n = s.table.size * 8 := by
                rcases Nat.lt_trichotomy n (s.table.size * 8) with hlt | he | hlt
                · have htrue : s.table.grow.bitmap n = true := (if_neg (by omega)).trans (hall n (by omega))
                  rw [htrue] at hclear
                  cases hclear
                · exact he
                · rw [hset _ hlt] at hfirst
                  cases hfirst
              rw [he] at hs'
              exact allocLoop_found hnew hs' hin _
            · rw [hall' _ hin] at hfirst
              cases hfirst
          · refine Or.inr (Or.inr (Or.inr ⟨hroom', rfl, by omega, ?_⟩))
            rw [PidTable.allocLoop]
            exact if_neg hnew
  · rw [PidTable.allocLoop, if_neg hlimit]
    exact Or.inl ⟨by omega, rfl⟩

private theorem PidState.Kept.not_live (h : s.Kept) {n : Nat} (hn : n < s.table.room * 8 → s.table.bitmap n = false) :
    s.live n = false := by
  rw [Bool.eq_false_iff]
  intro hl
  obtain ⟨h1, h2⟩ := (h.live n).1 hl
  rw [hn h1] at h2
  cases h2

theorem PidState.Kept.take (h : s.Kept) {n : Nat} (hlimit : s.table.room < pidBitmapSizeLimit)
    (hn : n < s.table.room * 8) (hset : ∀ m < n, s.table.bitmap m = true) :
    (⟨{ s.table with bitmap := Function.update s.table.bitmap n true, next := n + 1 },
      Function.update s.live n true⟩ : PidState).Kept := by
  -- the ID behind the bitmap is free
  refine ⟨fun m => ?_, hn, fun m hm => ?_, h.room, s.table.room * 8, by omega,
    (Function.update_of_ne hn.ne' ..).trans (h.not_live fun hlt => absurd hlt (Nat.lt_irrefl _))⟩
  · dsimp only
    by_cases he : m = n
    · rw [he, Function.update_self, Function.update_self]
      exact ⟨fun _ => ⟨hn, rfl⟩, fun _ => rfl⟩
    · rw [Function.update_of_ne he, Function.update_of_ne he]
      exact h.live m
  · dsimp only at hm ⊢
    by_cases he : m = n
    · rw [he, Function.update_self]
    · rw [Function.update_of_ne he]
      exact hset m (by omega)

theorem PidState.Kept.free (h : s.Kept) {pid : Nat} (hp : s.live pid = true) :
    ∃ s', pidStep s (.free pid) = some s' ∧ s'.Kept := by
  obtain ⟨hlt, -⟩ := (h.live pid).1 hp
  have hnext := h.next
  have hfree : s.table.free pid = some { s.table with
      bitmap := Function.update s.table.bitmap pid false, next := min s.table.next pid } := by
    unfold PidTable.free
    rw [if_neg (by simp only [Int.toNat_natCast]; omega)]
    rfl
  obtain ⟨n, hspare, hn⟩ := h.spare
  refine ⟨_, congrArg (Option.map _) hfree, fun m => ?_, ?_, fun m hm => ?_, h.room, n, hspare, ?_⟩
  · dsimp only
    by_cases he : m = pid
    · rw [he, Function.update_self, Function.update_self]
      exact ⟨fun hf => (by cases hf), fun hf => hf.2⟩
    · rw [Function.update_of_ne he, Function.update_of_ne he]
      exact h.live m
  · dsimp only
    omega
  · dsimp only at hm ⊢
    rw [Function.update_of_ne (by omega)]
    exact h.passed m (by omega)
  · dsimp only
    by_cases he : n = pid
    · rw [he, Function.update_self]
    · rw [Function.update_of_ne he, hn]

/-- Every call that is defined keeps the state in order, also one that fails. -/
theorem PidState.Kept.step (h : s.Kept) {inp : PidInput} (ho : PidOwned s inp) {s' : PidState}
    (hs : pidStep s inp = some s') : s'.Kept := by
  cases inp with
  | free pid =>
    obtain ⟨t, ht, hkept⟩ := h.free ho
    cases ht.symm.trans hs
    exact hkept
  | alloc mem =>
    obtain ⟨⟨r, t⟩, ht, rfl⟩ := Option.map_eq_some_iff.1 (show (s.table.alloc mem).map _ = some s' from hs)
    rcases h.alloc_cases mem with ⟨-, he⟩ | ⟨hlimit, n, hn, -, hset, he⟩ | ⟨hall, hlimit, hc⟩
    · cases he.symm.trans ht
      exact h
    · cases he.symm.trans ht
      exact h.take (Nat.lt_of_le_of_lt h.room hlimit) hn hset
    rcases hc with ⟨-, he⟩ | ⟨hroom, -, he⟩ | ⟨hroom, -, hnew, he⟩ | ⟨hroom, -, -, he⟩
    · cases he.symm.trans ht
    · cases he.symm.trans ht
      have hnext := h.next
      refine ⟨h.live, ?_, fun n hn => ?_, ?_, h.spare⟩
      · dsimp only
        omega
      · dsimp only at hn
        exact hall n (by omega)
      · dsimp only
        omega
    · cases he.symm.trans ht
      have hinc : pidBitmapIncrement = 1024 := rfl
      refine (h.grow hroom hall).take hnew ?_ fun m hm => (if_neg (by omega)).trans (hall m (by omega))
      show s.table.size * 8 < (s.table.size + pidBitmapIncrement) * 8
      omega
    · cases he.symm.trans ht
      exact h.grow hroom hall

theorem PidState.Kept.alloc (h : s.Kept) {mem : Nat → Bool} (hf : PidFits s (.alloc mem)) :
    ∃ s', pidStep s (.alloc mem) = some s' ∧ PidRight s (.alloc mem) s' ∧ s'.Kept := by
  obtain ⟨hlimit, hfree⟩ := hf
  suffices hres : ∃ r t, s.table.alloc mem = some (r, t) ∧ (∀ n, r = .pid n → s.live n = false) ∧ r ≠ .exhausted by
    obtain ⟨r, t, he, hnew, hr⟩ := hres
    have hs : pidStep s (.alloc mem) = some ⟨t, r.mark s.live⟩ := congrArg (Option.map _) he
    refine ⟨_, hs, fun mem' hm => ?_, @PidState.Kept.step s h (.alloc mem) trivial _ hs⟩
    cases hm
    exact ⟨r, t, he, hnew, fun hx => absurd hx hr⟩
  rcases h.alloc_cases mem with ⟨hsize, -⟩ | ⟨-, n, hn, hclear, -, he⟩ | ⟨hall, -, hc⟩
  · omega
  · refine ⟨_, _, he, fun k hk => ?_, fun hk => by cases hk⟩
    cases hk
    exact h.not_live fun _ => hclear
  · have hdue : s.table.room = s.table.size ∧ (mem (s.table.size + pidBitmapIncrement) = false ∨
        s.table.size + pidBitmapIncrement < pidBitmapSizeLimit) := by
      rcases hfree with ⟨n, hn, hclear⟩ | hdue
      · rw [hall n hn] at hclear
        cases hclear
      · exact hdue
    obtain ⟨hroom, hdue⟩ := hdue
    rcases hc with ⟨hlt, -⟩ | ⟨-, -, he⟩ | ⟨-, -, -, he⟩ | ⟨-, hmem, hnew, -⟩
    · omega
    · exact ⟨_, _, he, fun k hk => (by cases hk), fun hk => by cases hk⟩
    · refine ⟨_, _, he, fun k hk => ?_, fun hk => by cases hk⟩
      cases hk
      exact h.not_live fun hlt => absurd hlt (by omega)
    · rcases hdue with hdue | hdue
      · rw [hmem] at hdue
        cases hdue
      · omega

theorem PidState.Kept.fits (h : s.Kept) {mem : Nat → Bool} {r : PidResult} {t : PidTable}
    (ha : s.table.alloc mem = some (r, t)) (hr : r = .exhausted → ∀ n < pidBitmapSizeLimit * 8, s.live n = true) :
    PidFits s (.alloc mem) := by
  have hout : ¬ ∀ n < pidBitmapSizeLimit * 8, s.live n = true := by
    intro hall
    obtain ⟨n, hn, hfree⟩ := h.spare
    rw [hall n hn] at hfree
    cases hfree
  rcases h.alloc_cases mem with ⟨-, he⟩ | ⟨hsize, n, hn, hclear, -⟩ | ⟨-, hsize, hc⟩
  · cases he.symm.trans ha
    exact absurd (hr rfl) hout
  · exact ⟨hsize, Or.inl ⟨n, hn, hclear⟩⟩
  · rcases hc with ⟨-, he⟩ | ⟨h1, h2, -⟩ | ⟨h1, -, h2, -⟩ | ⟨-, -, -, he⟩
    · cases he.symm.trans ha
    · exact ⟨hsize, Or.inr ⟨h1, Or.inl h2⟩⟩
    · exact ⟨hsize, Or.inr ⟨h1, Or.inr h2⟩⟩
    · cases he.symm.trans ha
      exact absurd (hr rfl) hout

end

def PidResult.found : PidResult → Option Nat
  | .pid n => some n
  | _ => none

private theorem PidTable.search_eq {t : PidTable} (h : t.room = t.size) :
    t.search = (List.range' t.next (t.size * 8 - t.next)).find? fun n => !t.bitmap n := by
  refine List.find?_congr fun n hn => ?_
  rw [List.mem_range'_1] at hn
  rw [decide_eq_false (by omega)]
  rfl

/-- As long as `realloc` succeeds, this is the allocator of the processes. -/
theorem PidTable.allocLoop_toPids {mem : Nat → Bool} (hmem : ∀ n, mem n = true) (fuel : Nat) {t : PidTable}
    (h : t.room = t.size) : ∃ r t', t.allocLoop mem fuel = some (r, t') ∧ t'.room = t'.size ∧
      t.toPids.allocLoop fuel = (r.found, t'.toPids) := by
  induction fuel generalizing t with
  | zero => exact ⟨_, _, rfl, h, rfl⟩
  | succ fuel ih =>
    rw [PidTable.allocLoop, Pids.allocLoop, ← PidTable.search_eq h]
    by_cases hlimit : t.size < pidBitmapSizeLimit
    · rw [if_pos hlimit, if_pos hlimit]
      cases hs : t.search with
      | none =>
        dsimp only
        rw [hmem, if_neg (by decide)]
        exact ih rfl
      | some n =>
        dsimp only
        have hn : n < t.size * 8 := by
          have hmem := List.mem_of_find?_eq_some hs
          rw [List.mem_range'_1] at hmem
          omega
        rw [if_neg (by omega)]
        exact ⟨_, _, rfl, h, rfl⟩
    · rw [if_neg hlimit, if_neg hlimit]
      exact ⟨_, _, rfl, h, rfl⟩

/-- In every run of allocations and of releases of allocated IDs, the allocations are right exactly if each of them
meets the condition. -/
theorem pids_right_iff {is : List PidInput} (ho : Meets pidStep PidOwned is pidStart) :
    Meets pidStep PidFits is pidStart ↔ Always pidStep PidRight is pidStart := by
  refine meets_iff_always_of (fun s inp h ho hf => ?_) (fun s inp s' h _ hs hr => ?_) pidStart_kept ho
  · cases inp with
    | alloc mem => exact h.alloc hf
    | free pid =>
      obtain ⟨s', hs, hk⟩ := h.free ho
      exact ⟨s', hs, fun mem he => (by cases he), hk⟩
  · cases inp with
    | alloc mem =>
      obtain ⟨r, t, ha, -, hall⟩ := hr mem rfl
      exact h.fits ha hall
    | free pid => trivial

/-! ### Two runs -/

instance (s : PidState) : (inp : PidInput) → Decidable (PidOwned s inp)
  | .alloc _ => isTrue trivial
  | .free pid => inferInstanceAs (Decidable (s.live pid = true))

instance (t : PidTable) : Decidable (∃ n < t.room * 8, t.bitmap n = false) :=
  decidable_of_iff ((List.range (t.room * 8)).any (fun n => !t.bitmap n) = true) (by simp)

instance (s : PidState) : (inp : PidInput) → Decidable (PidFits s inp)
  | .alloc mem => inferInstanceAs (Decidable (s.table.size < pidBitmapSizeLimit ∧
      ((∃ n < s.table.room * 8, s.table.bitmap n = false) ∨ (s.table.room = s.table.size ∧
        (mem (s.table.size + pidBitmapIncrement) = false ∨ s.table.size + pidBitmapIncrement < pidBitmapSizeLimit)))))
  | .free _ => isTrue trivial

def pidReuse : List PidInput :=
  [.alloc fun _ => true, .alloc fun _ => true, .free 1, .alloc fun _ => true]

theorem pids_right_reuse : Always pidStep PidRight pidReuse pidStart :=
  (pids_right_iff (by decide)).1 (by decide +kernel)

/-- The allocations from a state in which no ID from `next` on is allocated. -/
private theorem run_fill (mem : Nat → Bool) (k : Nat) {s : PidState} (h : s.Kept)
    (hsize : s.table.size = s.table.room)
    (hlimit : s.table.room < pidBitmapSizeLimit) (hk : s.table.next + k ≤ s.table.room * 8)
    (hclear : ∀ n, s.table.next ≤ n → s.table.bitmap n = false) :
    ∃ s', run pidStep (List.replicate k (.alloc mem)) s = some s' ∧ s'.Kept ∧ s'.table.room = s.table.room ∧
      s'.table.size = s.table.size ∧ s'.table.next = s.table.next + k := by
  induction k generalizing s with
  | zero => exact ⟨s, rfl, h, rfl, rfl, rfl⟩
  | succ k ih =>
    have hnext := hclear _ (Nat.le_refl _)
    rcases h.alloc_cases mem with ⟨hs, -⟩ | ⟨-, n, hn, hfree, hset, he⟩ | ⟨hall, -⟩
    · omega
    · have hfirst : n = s.table.next := by
        rcases Nat.lt_trichotomy n s.table.next with hlt | heq | hlt
        · rw [h.passed n hlt] at hfree
          cases hfree
        · exact heq
        · rw [hset _ hlt] at hnext
          cases hnext
      rw [hfirst] at hn he hset
      obtain ⟨s', hrun, hk', h1, h2, h3⟩ := ih (h.take hlimit hn hset) hsize hlimit
        (by dsimp only; omega) fun m hm => by
        dsimp only at hm ⊢
        rw [Function.update_of_ne (by omega)]
        exact hclear m (by omega)
      refine ⟨s', ?_, hk', h1, h2, h3.trans (by dsimp only; omega)⟩
      rw [List.replicate_succ, run, pidStep, he]
      exact hrun
    · rw [hall _ (by omega)] at hnext
      cases hnext

def pidOverrun : List PidInput :=
  List.replicate 8191 (.alloc fun _ => true) ++ [.alloc fun _ => false] ++ [.alloc fun _ => true]

private theorem meets_owned_allocs {is : List PidInput} (h : ∀ inp ∈ is, ∃ mem, inp = .alloc mem) (s : PidState) :
    Meets pidStep PidOwned is s := by
  induction is generalizing s with
  | nil => trivial
  | cons inp is ih =>
    obtain ⟨mem, rfl⟩ := h inp (List.mem_cons_self ..)
    exact ⟨trivial, fun s' _ => ih (fun i hi => h i (List.mem_cons_of_mem _ hi)) s'⟩

/-- When all IDs of the bitmap are allocated and `realloc` fails, the next allocation tests a bit behind the
bitmap. -/
private theorem alloc_overruns (h : s.Kept) {mem mem' : Nat → Bool} (hroom : s.table.room = s.table.size)
    (hfull : s.table.next = s.table.room * 8) (hmem : mem (s.table.size + pidBitmapIncrement) = false)
    (hsize : s.table.size + pidBitmapIncrement < pidBitmapSizeLimit) {t : PidState}
    (hs : pidStep s (.alloc mem) = some t) : pidStep t (.alloc mem') = none := by
  have hinc : pidBitmapIncrement = 1024 := rfl
  have hset : ∀ n < s.table.room * 8, s.table.bitmap n = true := fun n hn => h.passed n (by omega)
  obtain ⟨t', ht', -, hkept⟩ := h.alloc (show PidFits s (.alloc mem) from ⟨by omega, Or.inr ⟨hroom, Or.inl hmem⟩⟩)
  obtain rfl := Option.some.inj (ht'.symm.trans hs)
  rcases h.alloc_cases mem with ⟨hlimit, -⟩ | ⟨-, n, hn, hclear, -⟩ | ⟨-, -, hc⟩
  · omega
  · rw [hset n hn] at hclear
    cases hclear
  · rcases hc with ⟨hlt, -⟩ | ⟨-, -, he⟩ | ⟨-, htrue, -⟩ | ⟨-, htrue, -⟩
    · omega
    · rw [pidStep, he] at hs
      cases hs
      rcases hkept.alloc_cases mem' with ⟨hlimit, -⟩ | ⟨-, n, hn, hclear, -⟩ | ⟨-, -, hc'⟩
      · dsimp only [PidResult.mark, Option.map] at hlimit
        omega
      · rw [hset n hn] at hclear
        cases hclear
      · rcases hc' with ⟨-, he'⟩ | ⟨heq, -⟩ | ⟨heq, -⟩ | ⟨heq, -⟩
        · rw [pidStep, he']
          rfl
        · dsimp only at heq
          omega
        · dsimp only at heq
          omega
        · dsimp only at heq
          omega
    · rw [hmem] at htrue
      cases htrue
    · rw [hmem] at htrue
      cases htrue

/-- The last allocation tests a bit behind the bitmap. -/
theorem not_pids_right :
    Meets pidStep PidOwned pidOverrun pidStart ∧ ¬ Always pidStep PidRight pidOverrun pidStart := by
  constructor
  · refine meets_owned_allocs (fun inp hi => ?_) _
    simp only [pidOverrun, List.mem_append, List.mem_replicate, List.mem_singleton] at hi
    rcases hi with (⟨-, rfl⟩ | rfl) | rfl
    · exact ⟨_, rfl⟩
    · exact ⟨_, rfl⟩
    · exact ⟨_, rfl⟩
  · intro hright
    obtain ⟨t, t', hrun, hlast, -⟩ := hright.last
    obtain ⟨u, hfill, hfail⟩ := run_append hrun
    obtain ⟨u', hfill', hu, hroom, hsize, hnext⟩ := run_fill (fun _ => true) 8191 pidStart_kept rfl
      (by decide) (by decide) fun n hn => decide_eq_false (by change 1 ≤ n at hn; omega)
    obtain rfl := Option.some.inj (hfill'.symm.trans hfill)
    obtain ⟨r, hr, hrt⟩ := Option.bind_eq_some_iff.1 hfail
    obtain rfl := Option.some.inj hrt
    have hfull : u'.table.next = u'.table.room * 8 := by
      rw [hnext, hroom]
      rfl
    have hmore : u'.table.size + pidBitmapIncrement < pidBitmapSizeLimit := by
      rw [hsize]
      decide
    rw [alloc_overruns hu (hroom.trans hsize.symm) hfull rfl hmore hr] at hlast
    cases hlast

end Pml.Kernel
