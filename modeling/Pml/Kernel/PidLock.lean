import Pml.Kernel.PidRuns
import Pml.Util.Lock

/-!
# Concurrent calls of `alloc_pid` and `free_pid` (`kernel/pid.c`)

Threads on several processors allocate and release IDs at the same time.  Each test and each update that the two
functions make of the bitmap, its size and the start of the search is a step of its own, and `pid_bitmap_lock` is held
from the first to the last one.  Whatever the order of the steps, the calls have the results that they have one after
the other (`pid_calls_serial`), and an ID that is handed out twice was released in between (`pid_not_twice`).  There
is no step that accesses a bit outside of the bitmap, so that a run goes on only as long as no call does.
-/

namespace Pml.Kernel

open Machine Pml.Util

/-- Where a call of `alloc_pid` or of `free_pid` is. -/
inductive PidCall
  /-- at the test of the outer loop -/
  | enter (mem : Nat → Bool)
  /-- at the test of the inner loop -/
  | scan (mem : Nat → Bool)
  /-- at the test of a bit -/
  | test (mem : Nat → Bool)
  /-- before the `next_pid++` of the loop -/
  | skip (mem : Nat → Bool)
  /-- before `pid = next_pid++` -/
  | found (mem : Nat → Bool)
  /-- before `set_bit` -/
  | mark (n : Nat)
  /-- before the addition to `pid_bitmap_size` -/
  | enlarge (mem : Nat → Bool)
  /-- before `realloc` -/
  | move (mem : Nat → Bool)
  /-- before `memset` -/
  | clear (mem : Nat → Bool)
  | got (r : PidResult)
  /-- before `clear_bit` -/
  | drop (n : Nat)
  /-- before the test of `next_pid` -/
  | lower (n : Nat)
  | freed

namespace PidCall

/-- One step of a call; there is none that accesses a bit outside of the bitmap. -/
def next : PidCall → PidTable → Option (PidCall × PidTable)
  | .enter mem, s => some (if s.size < pidBitmapSizeLimit then .scan mem else .got .exhausted, s)
  | .scan mem, s => some (if s.next < s.size * 8 then .test mem else .enlarge mem, s)
  | .test mem, s =>
    if s.room ≤ s.next / 8 then none else some (if s.bitmap s.next then .skip mem else .found mem, s)
  | .skip mem, s => some (.scan mem, { s with next := s.next + 1 })
  | .found _, s => some (.mark s.next, { s with next := s.next + 1 })
  | .mark n, s => some (.got (.pid n), { s with bitmap := Function.update s.bitmap n true })
  | .enlarge mem, s => some (.move mem, { s with size := s.size + pidBitmapIncrement })
  | .move mem, s => some (if mem s.size = false then (.got .noMemory, s) else (.clear mem, { s with room := s.size }))
  | .clear mem, s => some (.enter mem,
      { s with bitmap := fun n => if (s.size - pidBitmapIncrement) * 8 ≤ n then false else s.bitmap n })
  | .drop n, s =>
    if s.room ≤ n / 8 then none else some (.lower n, { s with bitmap := Function.update s.bitmap n false })
  | .lower n, s => some (.freed, { s with next := if n < s.next then n else s.next })
  | .got _, _ => none
  | .freed, _ => none

def final : PidCall → Bool
  | .got _ => true
  | .freed => true
  | _ => false

/-- The calls of `alloc_pid`, and those of `free_pid` with an ID that is not negative, which take the lock. -/
def Starts : PidCall → Prop
  | .enter _ => True
  | .drop _ => True
  | _ => False

/-- The end of `alloc_pid` with its result. -/
def ended (r : Option (PidResult × PidTable)) : Option (PidCall × PidTable) := r.map fun r => (.got r.1, r.2)

/-- The rest of `alloc_pid` from `memset` on, from `realloc` on, and from the enlargement on. -/
def clearRest (mem : Nat → Bool) (s : PidTable) : Option (PidCall × PidTable) :=
  ended (PidTable.alloc mem
    { s with bitmap := fun n => if (s.size - pidBitmapIncrement) * 8 ≤ n then false else s.bitmap n })

def moveRest (mem : Nat → Bool) (s : PidTable) : Option (PidCall × PidTable) :=
  if mem s.size = false then some (.got .noMemory, s) else clearRest mem { s with room := s.size }

def enlargeRest (mem : Nat → Bool) (s : PidTable) : Option (PidCall × PidTable) :=
  moveRest mem { s with size := s.size + pidBitmapIncrement }

/-- The rest of `alloc_pid` from the test of the inner loop on. -/
def scanRest (mem : Nat → Bool) (s : PidTable) : Option (PidCall × PidTable) :=
  match s.search with
  | some n =>
    if s.room ≤ n / 8 then none
    else some (.got (.pid n), { s with bitmap := Function.update s.bitmap n true, next := n + 1 })
  | none => enlargeRest mem { s with next := max s.next (s.size * 8) }

/-- The rest of `alloc_pid` from `pid = next_pid++` on, and from the test of a bit on. -/
def foundRest (s : PidTable) : Option (PidCall × PidTable) :=
  some (.got (.pid s.next), { s with bitmap := Function.update s.bitmap s.next true, next := s.next + 1 })

def testRest (mem : Nat → Bool) (s : PidTable) : Option (PidCall × PidTable) :=
  if s.room ≤ s.next / 8 then none
  else if s.bitmap s.next then scanRest mem { s with next := s.next + 1 }
  else foundRest s

/-- How a call ends from where it is, if no other thread touches the table. -/
def rest : PidCall → PidTable → Option (PidCall × PidTable)
  | .enter mem, s => ended (s.alloc mem)
  | .scan mem, s => scanRest mem s
  | .test mem, s => testRest mem s
  | .skip mem, s => scanRest mem { s with next := s.next + 1 }
  | .found _, s => foundRest s
  | .mark n, s => some (.got (.pid n), { s with bitmap := Function.update s.bitmap n true })
  | .enlarge mem, s => enlargeRest mem s
  | .move mem, s => moveRest mem s
  | .clear mem, s => clearRest mem s
  | .drop n, s => (s.free n).map fun t => (.freed, t)
  | .lower n, s => some (.freed, { s with next := if n < s.next then n else s.next })
  | .got r, s => some (.got r, s)
  | .freed, s => some (.freed, s)

end PidCall

/-- The code that `pid_bitmap_lock` guards. -/
def pidGuard : Guard PidCall PidTable := ⟨PidCall.next, PidCall.final⟩

private theorem PidTable.allocLoop_fuel {mem : Nat → Bool} (fuel : Nat) {s : PidTable}
    (h : pidBitmapSizeLimit ≤ s.size + fuel * pidBitmapIncrement) :
    s.allocLoop mem (fuel + 1) = s.allocLoop mem fuel := by
  induction fuel generalizing s with
  | zero =>
    have hle : pidBitmapSizeLimit ≤ s.size := by simpa using h
    exact if_neg (by omega)
  | succ fuel ih =>
    rw [PidTable.allocLoop]
    conv_rhs => rw [PidTable.allocLoop]
    split
    · cases s.search with
      | some n => rfl
      | none =>
        dsimp only
        rw [ih (show pidBitmapSizeLimit ≤ s.size + pidBitmapIncrement + fuel * pidBitmapIncrement by
          rw [Nat.succ_mul] at h
          omega)]
    · rfl

private theorem PidTable.alloc_succ {mem : Nat → Bool} {s : PidTable} :
    s.alloc mem = s.allocLoop mem (pidBitmapSizeLimit / pidBitmapIncrement + 1) := by
  refine (PidTable.allocLoop_fuel _ ?_).symm
  have : pidBitmapSizeLimit / pidBitmapIncrement * pidBitmapIncrement = pidBitmapSizeLimit := rfl
  omega

private theorem PidTable.search_succ {s : PidTable} (h : s.next < s.size * 8) :
    s.search = if decide (s.room ≤ s.next / 8) || !s.bitmap s.next then some s.next
      else PidTable.search { s with next := s.next + 1 } := by
  obtain ⟨k, hk⟩ : ∃ k, s.size * 8 - s.next = k + 1 := ⟨s.size * 8 - s.next - 1, by omega⟩
  have hk' : s.size * 8 - (s.next + 1) = k := by omega
  unfold PidTable.search
  dsimp only
  rw [hk, hk', List.range'_succ, List.find?_cons]
  cases decide (s.room ≤ s.next / 8) || !s.bitmap s.next with
  | true => rfl
  | false => rfl

private theorem PidTable.search_end {s : PidTable} (h : ¬ s.next < s.size * 8) : s.search = none := by
  unfold PidTable.search
  rw [show s.size * 8 - s.next = 0 by omega]
  rfl

namespace PidCall

variable {mem : Nat → Bool} {s s' : PidTable} {c c' : PidCall}

private theorem rest_enter : rest (.enter mem) s =
    if s.size < pidBitmapSizeLimit then rest (.scan mem) s else some (.got .exhausted, s) := by
  show ended (s.alloc mem) = _
  rw [PidTable.alloc_succ, PidTable.allocLoop]
  split
  · show _ = scanRest mem s
    unfold scanRest
    cases hs : s.search with
    | some n =>
      dsimp only
      split <;> rfl
    | none =>
      dsimp only
      unfold enlargeRest moveRest
      dsimp only
      split
      · rfl
      · unfold clearRest PidTable.alloc PidTable.grow
        dsimp only
        rw [Nat.add_sub_cancel]
  · rfl

private theorem rest_scan :
    rest (.scan mem) s = if s.next < s.size * 8 then rest (.test mem) s else rest (.enlarge mem) s := by
  show scanRest mem s = if _ then testRest mem s else enlargeRest mem s
  unfold scanRest
  by_cases h : s.next < s.size * 8
  · rw [PidTable.search_succ h, if_pos h]
    unfold testRest scanRest
    by_cases hin : s.room ≤ s.next / 8
    · rw [decide_eq_true hin, Bool.true_or, if_pos rfl, if_pos hin]
      exact if_pos hin
    · rw [decide_eq_false hin, Bool.false_or, if_neg hin]
      have hmax : max (s.next + 1) (s.size * 8) = max s.next (s.size * 8) := by omega
      cases hb : s.bitmap s.next with
      | true =>
        dsimp only
        rw [Bool.not_true, if_neg (by decide), if_pos rfl, hmax]
      | false =>
        rw [Bool.not_false, if_pos rfl, if_neg (by decide)]
        exact if_neg hin
  · rw [PidTable.search_end h, if_neg h]
    dsimp only
    rw [Nat.max_eq_left (by omega)]

private theorem rest_test (h : ¬ s.room ≤ s.next / 8) :
    rest (.test mem) s = if s.bitmap s.next then rest (.skip mem) s else rest (.found mem) s := if_neg h

private theorem rest_drop {n : Nat} (h : ¬ s.room ≤ n / 8) :
    rest (.drop n) s = rest (.lower n) { s with bitmap := Function.update s.bitmap n false } := by
  show (s.free n).map _ = _
  unfold PidTable.free Pids.free
  rw [if_neg (by simp only [Int.toNat_natCast]; omega)]
  dsimp only
  rw [Option.map_some, if_neg (by omega)]
  have hmin : min s.next n = if n < s.next then n else s.next := by
    split <;> omega
  simp only [Int.toNat_natCast, hmin]
  rfl

private theorem rest_next (h : next c s = some (c', s')) : rest c' s' = rest c s := by
  cases c with
  | enter mem =>
    rw [rest_enter]
    cases h
    split
    · rfl
    · rfl
  | scan mem =>
    rw [rest_scan]
    cases h
    split
    · rfl
    · rfl
  | test mem =>
    simp only [next] at h
    split at h
    · cases h
    · rename_i hin
      rw [rest_test hin]
      cases h
      split
      · rfl
      · rfl
  | move mem =>
    show _ = moveRest mem s
    unfold moveRest
    simp only [next] at h
    by_cases hm : mem s.size = false
    · rw [if_pos hm]
      rw [if_pos hm] at h
      cases h
      rfl
    · rw [if_neg hm]
      rw [if_neg hm] at h
      cases h
      rfl
  | drop n =>
    simp only [next] at h
    split at h
    · cases h
    · rename_i hin
      rw [rest_drop hin]
      cases h
      rfl
  | got r => cases h
  | freed => cases h
  | skip mem | found mem | mark n | enlarge mem | clear mem | lower n =>
    cases h
    rfl

private theorem rest_steps {c₀ : PidCall} {s₀ : PidTable} (h : pidGuard.Steps c₀ s₀ c s) : rest c s = rest c₀ s₀ := by
  induction h with
  | refl => rfl
  | tail _ _ hnext ih => exact (rest_next hnext).trans ih

private theorem rest_final (h : final c = true) : rest c s = some (c, s) := by
  cases c with
  | got r => rfl
  | freed => rfl
  | _ => cases h

end PidCall

/-- A call that has ended, as `alloc_pid` or as `free_pid` without steps of other threads in between. -/
inductive PidCalled (s s' : PidTable) : PidCall → PidCall → Prop
  | alloc {mem : Nat → Bool} {r : PidResult} : s.alloc mem = some (r, s') → PidCalled s s' (.enter mem) (.got r)
  | free {n : Nat} : s.free n = some s' → PidCalled s s' (.drop n) .freed

/-- The calls, one after the other. -/
inductive PidCalls {T : Type} (s : PidTable) : List (T × PidCall × PidCall) → PidTable → Prop
  | nil : PidCalls s [] s
  | snoc {calls : List (T × PidCall × PidCall)} {s₁ s₂ : PidTable} {t : T} {c c' : PidCall} : PidCalls s calls s₁ →
      PidCalled s₁ s₂ c c' → PidCalls s (calls ++ [(t, c, c')]) s₂

private theorem pidCalled_of_steps {c c' : PidCall} {s s' : PidTable} (hs : c.Starts) (h : pidGuard.Steps c s c' s')
    (hf : c'.final = true) : PidCalled s s' c c' := by
  have hrest := PidCall.rest_steps h
  rw [PidCall.rest_final hf] at hrest
  cases c with
  | enter mem =>
    obtain ⟨r, ha, hr⟩ := Option.map_eq_some_iff.1 hrest.symm
    cases hr
    exact .alloc ha
  | drop n =>
    obtain ⟨r, ha, hr⟩ := Option.map_eq_some_iff.1 hrest.symm
    cases hr
    exact .free ha
  | _ => cases hs

section

variable {T : Type} {s : PidTable} {calls : List (T × PidCall × PidCall)}

private theorem pidCalls_of_serial (hs : ∀ c ∈ calls, c.2.1.Starts) {s' : PidTable} (h : pidGuard.Serial s calls s') :
    PidCalls s calls s' := by
  induction h with
  | nil => exact .nil
  | snoc _ hsteps hf ih =>
    refine .snoc (ih fun c hc => hs c (List.mem_append_left _ hc)) (pidCalled_of_steps ?_ hsteps hf)
    exact hs _ (List.mem_append_right _ (List.mem_singleton.2 rfl))

def PidTable.Taken (s : PidTable) (n : Nat) : Prop := s.bitmap n = true ∧ n < s.size * 8

private theorem PidTable.allocLoop_taken {mem : Nat → Bool} {n : Nat} (fuel : Nat) {s s' : PidTable} {r : PidResult}
    (h : s.allocLoop mem fuel = some (r, s')) :
    (s.Taken n → s'.Taken n ∧ r ≠ .pid n) ∧ (r = .pid n → s'.Taken n) := by
  induction fuel generalizing s with
  | zero =>
    cases h
    exact ⟨fun hn => ⟨hn, fun hr => by cases hr⟩, fun hr => by cases hr⟩
  | succ fuel ih =>
    rw [PidTable.allocLoop] at h
    split at h
    · cases hs : s.search with
      | some m =>
        rw [hs] at h
        dsimp only at h
        split at h
        · cases h
        · rename_i hin
          cases h
          -- the search has stopped at a bit that is clear
          have hclear : s.bitmap m = false := by
            have hp := List.find?_some hs
            rw [decide_eq_false hin] at hp
            simpa using hp
          have hrange := List.mem_of_find?_eq_some hs
          rw [List.mem_range'_1] at hrange
          refine ⟨fun hn => ?_, fun hr => ?_⟩
          · have hne : n ≠ m := by
              rintro rfl
              rw [hn.1] at hclear
              cases hclear
            exact ⟨⟨(Function.update_of_ne hne _ _).trans hn.1, hn.2⟩, fun hr => hne (PidResult.pid.inj hr).symm⟩
          · obtain rfl := PidResult.pid.inj hr
            exact ⟨Function.update_self .., by dsimp only; omega⟩
      | none =>
        rw [hs] at h
        dsimp only at h
        split at h
        · cases h
          refine ⟨fun hn => ⟨⟨hn.1, ?_⟩, fun hr => by cases hr⟩, fun hr => by cases hr⟩
          have hlt := hn.2
          dsimp only
          omega
        · obtain ⟨hkeep, hnew⟩ := ih h
          refine ⟨fun hn => hkeep ⟨?_, ?_⟩, hnew⟩
          · have hlt := hn.2
            exact (if_neg (by omega)).trans hn.1
          · have hlt := hn.2
            show n < (s.size + pidBitmapIncrement) * 8
            omega
    · cases h
      exact ⟨fun hn => ⟨hn, fun hr => by cases hr⟩, fun hr => by cases hr⟩

private theorem PidTable.free_taken {s s' : PidTable} {m n : Nat} (h : s.free m = some s') (hn : s.Taken n)
    (hne : m ≠ n) :
    s'.Taken n := by
  unfold PidTable.free at h
  split at h
  · cases h
  · cases h
    unfold Pids.free
    rw [if_neg (by omega)]
    refine ⟨?_, hn.2⟩
    dsimp only
    rw [Int.toNat_natCast, Function.update_of_ne (Ne.symm hne)]
    exact hn.1

/-- An ID that was handed out and not released since is taken, and no call hands it out. -/
theorem PidCalls.taken {s' : PidTable} (h : PidCalls s calls s') {n : Nat} {a b : List (T × PidCall × PidCall)}
    {t : T}
    {c : PidCall} (he : calls = a ++ (t, c, .got (.pid n)) :: b) (hkept : ∀ v, (v, PidCall.drop n, .freed) ∉ b) :
    s'.Taken n ∧ ∀ u c', (u, c', PidCall.got (.pid n)) ∉ b := by
  induction h generalizing b with
  | nil =>
    have hlen := congrArg List.length he
    simp at hlen
  | @snoc calls s₁ s₂ u c₁ c₂ hcalls hcalled ih =>
    rcases List.eq_nil_or_concat b with rfl | ⟨b, x, rfl⟩
    · obtain ⟨rfl, hx⟩ := List.append_inj' he rfl
      cases hx
      cases hcalled with
      | alloc ha => exact ⟨(PidTable.allocLoop_taken _ ha).2 rfl, fun u c' hm => by cases hm⟩
    · rw [List.concat_eq_append] at he hkept ⊢
      rw [← List.cons_append, ← List.append_assoc] at he
      obtain ⟨rfl, hx⟩ := List.append_inj' he rfl
      cases hx
      obtain ⟨htaken, hnone⟩ := ih rfl fun v hv => hkept v (List.mem_append_left _ hv)
      cases hcalled with
      | alloc ha =>
        obtain ⟨h1, h2⟩ := (PidTable.allocLoop_taken _ ha).1 htaken
        refine ⟨h1, fun u' c' hm => ?_⟩
        rcases List.mem_append.1 hm with hm | hm
        · exact hnone u' c' hm
        · cases List.mem_singleton.1 hm
          exact h2 rfl
      | @free m hf =>
        have hne : m ≠ n := by
          rintro rfl
          exact hkept u (List.mem_append_right _ (List.mem_singleton.2 rfl))
        refine ⟨PidTable.free_taken hf htaken hne, fun u' c' hm => ?_⟩
        rcases List.mem_append.1 hm with hm | hm
        · exact hnone u' c' hm
        · cases List.mem_singleton.1 hm

theorem PidCalls.init {s' : PidTable} (h : PidCalls s calls s') {a b : List (T × PidCall × PidCall)}
    (he : calls = a ++ b) : ∃ s₁, PidCalls s a s₁ := by
  induction h generalizing b with
  | nil =>
    obtain ⟨rfl, -⟩ := List.append_eq_nil_iff.1 he.symm
    exact ⟨s, .nil⟩
  | @snoc calls s₁ s₂ u c₁ c₂ hcalls hcalled ih =>
    rcases List.eq_nil_or_concat b with rfl | ⟨b, x, rfl⟩
    · rw [List.append_nil] at he
      exact ⟨s₂, he ▸ hcalls.snoc hcalled⟩
    · rw [List.concat_eq_append, ← List.append_assoc] at he
      exact ih (List.append_inj' he rfl).1

variable [DecidableEq T] {moves : List (Move T PidCall)} {st : Spin T PidCall PidTable}

/-- However the steps of the calls of all threads are interleaved, at most one thread is at the table, and when none
is, the calls that have ended have the results and the effect of the same calls one after the other. -/
theorem pid_calls_serial (hcalls : ∀ t c, .call t c ∈ moves → c.Starts)
    (hrun : run (spinStep pidGuard) moves (Spin.start PidTable.init) = some st) :
    (∀ t u, st.Has t → st.Has u → t = u) ∧
      ((∀ t, ¬ st.Has t) → PidCalls PidTable.init st.finished st.data) := by
  have h := Spin.run_serialised hrun
  refine ⟨h.one, fun hnone => pidCalls_of_serial (Spin.run_starts hcalls hrun).finished ?_⟩
  obtain ⟨d, hserial, hd, -⟩ := h.data
  rw [hd hnone]
  exact hserial

/-- However the steps of the calls are interleaved, an ID that two calls return was released between them. -/
theorem pid_not_twice (hcalls : ∀ t c, .call t c ∈ moves → c.Starts)
    (hrun : run (spinStep pidGuard) moves (Spin.start PidTable.init) = some st) {n : Nat} {t u : T} {c c' : PidCall}
    {a b e : List (T × PidCall × PidCall)}
    (hfin : st.finished = a ++ (t, c, .got (.pid n)) :: (b ++ (u, c', .got (.pid n)) :: e)) :
    ∃ v, (v, PidCall.drop n, .freed) ∈ b := by
  obtain ⟨d, hserial, -⟩ := (Spin.run_serialised hrun).data
  have hseq := pidCalls_of_serial (Spin.run_starts hcalls hrun).finished hserial
  have hsplit : st.finished = (a ++ (t, c, .got (.pid n)) :: (b ++ [(u, c', .got (.pid n))])) ++ e := by
    rw [hfin]
    simp
  obtain ⟨s₁, hs₁⟩ := hseq.init hsplit
  by_contra hcontra
  have hkept : ∀ v, (v, PidCall.drop n, .freed) ∉ b ++ [(u, c', .got (.pid n))] := by
    intro v hv
    rcases List.mem_append.1 hv with hv | hv
    · exact hcontra ⟨v, hv⟩
    · cases List.mem_singleton.1 hv
  exact (hs₁.taken rfl hkept).2 u c' (List.mem_append_right _ (List.mem_singleton.2 rfl))

end

/-- Two threads allocate an ID at the same time, and the second one finds the bit of the first one set. -/
def pidRace : List (Move Bool PidCall) :=
  [.call false (.enter fun _ => true), .call true (.enter fun _ => true), .go true, .go false, .go false, .go true,
    .go true, .go true, .go true, .go true, .go true, .go true, .go false, .go false, .go false, .go false, .go false,
    .go false, .go false, .go false, .go false]

private theorem pidRace_starts : ∀ t c, .call t c ∈ pidRace → c.Starts := by
  intro t c h
  simp only [pidRace, List.mem_cons, List.not_mem_nil, Move.call.injEq, reduceCtorEq, or_false] at h
  rcases h with ⟨-, rfl⟩ | ⟨-, rfl⟩ <;> trivial

theorem pid_calls_serial_race : ∃ st, run (spinStep pidGuard) pidRace (Spin.start PidTable.init) = some st ∧
    st.finished.map (fun c => (c.1, c.2.2)) = [(true, .got (.pid 1)), (false, .got (.pid 2))] ∧
    ∀ t u, st.Has t → st.Has u → t = u :=
  ⟨_, rfl, rfl, (pid_calls_serial pidRace_starts rfl).1⟩

/-- A thread allocates an ID and releases it, and another one gets it. -/
def pidTurns : List (Move Bool PidCall) :=
  .call false (.enter fun _ => true) :: List.replicate 8 (.go false) ++
    .call false (.drop 1) :: List.replicate 5 (.go false) ++
    .call true (.enter fun _ => true) :: List.replicate 8 (.go true)

private theorem pidTurns_starts : ∀ t c, .call t c ∈ pidTurns → c.Starts := by
  intro t c h
  simp only [pidTurns, List.replicate, List.cons_append, List.nil_append, List.mem_cons, List.not_mem_nil,
    Move.call.injEq, reduceCtorEq, or_false, false_or] at h
  rcases h with ⟨-, rfl⟩ | ⟨-, rfl⟩ | ⟨-, rfl⟩ <;> trivial

theorem pid_not_twice_turns : ∃ st, run (spinStep pidGuard) pidTurns (Spin.start PidTable.init) = some st ∧
    ∃ v, (v, PidCall.drop 1, PidCall.freed) ∈ [((false : Bool), PidCall.drop 1, PidCall.freed)] :=
  ⟨_, rfl, pid_not_twice (a := []) (b := [(false, .drop 1, .freed)]) (e := []) pidTurns_starts rfl rfl⟩

end Pml.Kernel
