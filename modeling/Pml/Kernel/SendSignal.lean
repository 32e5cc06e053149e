import Mathlib.Data.List.Basic
import Pml.Kernel.Signals

/-!
# The thread that a signal is sent to (`send_signal` of `kernel/signal.c`)

`send_signal` goes over the threads of the process up to three times, with weaker and weaker conditions.  The first
loop, which is to find a running thread that neither blocks the signal nor has it pending, has lost a negation: it
finds a thread that blocks the signal.  The other loops are right, so the signal goes to a thread that can take it
unless running threads without the signal pending differ in that they block it (`sendSignal_right_iff`).
-/

namespace Pml.Kernel

variable {Info : Type}

inductive ThreadState
  | running
  | blocked
  | io
  deriving DecidableEq

/-- A thread of a process: its state, and its fields for signals. -/
structure ProcThread (Info : Type) where
  state : ThreadState
  signals : SigThread Info

namespace ProcThread

/-- `thread->state == THREAD_STATE_RUNNING` -/
def isRunning (t : ProcThread Info) : Bool := t.state = .running

/-- `sigismember (&thread->sigpending, sig)` -/
def hasPending (t : ProcThread Info) (sig : Nat) : Bool := sigismember t.signals.sigpending sig

/-- `sigismember (&thread->sigblocked, sig)` -/
def hasBlocked (t : ProcThread Info) (sig : Nat) : Bool := sigismember t.signals.sigblocked sig

end ProcThread

/-- The index of the thread that the loops of `send_signal` find, or 0. -/
def sendTarget (threads : List (ProcThread Info)) (sig : Nat) : Nat :=
  match threads.findIdx? fun t => t.isRunning && !t.hasPending sig && t.hasBlocked sig with
  | some i => i
  | none =>
    match threads.findIdx? fun t => t.isRunning && !t.hasPending sig with
    | some i => i
    | none => (threads.findIdx? fun t => t.isRunning).getD 0

/-- `send_signal_thread` on the thread with an index. -/
def sendTo (threads : List (ProcThread Info)) (i sig : Nat) (info : Info) (mem : Bool) :
    Option (List (ProcThread Info)) :=
  threads[i]?.bind fun t =>
    (sendSignalThread t.signals sig info mem).map fun s => threads.set i { t with signals := s }

def sendSignal (threads : List (ProcThread Info)) (sig : Nat) (info : Info) (mem : Bool) :
    Option (List (ProcThread Info)) :=
  sendTo threads (sendTarget threads sig) sig info mem

def CanTake (sig : Nat) (t : ProcThread Info) : Prop :=
  t.isRunning = true ∧ t.hasPending sig = false ∧ t.hasBlocked sig = false

def CanWait (sig : Nat) (t : ProcThread Info) : Prop := t.isRunning = true ∧ t.hasPending sig = false

/-- The signal goes to a thread with the property: `send_signal_thread` is called with this thread. -/
def GoesTo (threads : List (ProcThread Info)) (sig : Nat) (P : ProcThread Info → Prop) : Prop :=
  ∃ t, threads[sendTarget threads sig]? = some t ∧ P t ∧ ∀ info mem, sendSignal threads sig info mem =
    (sendSignalThread t.signals sig info mem).map fun s =>
    threads.set (sendTarget threads sig) { t with signals := s }

/-- The signal goes to a thread that can take it, if there is one; otherwise to a running thread that does not have it
pending; otherwise to a running thread, and otherwise to the first one. -/
structure SendsRight (threads : List (ProcThread Info)) (sig : Nat) : Prop where
  take : (∃ t ∈ threads, CanTake sig t) → GoesTo threads sig (CanTake sig)
  wait : (∀ t ∈ threads, ¬ CanTake sig t) → (∃ t ∈ threads, CanWait sig t) → GoesTo threads sig (CanWait sig)
  running : (∀ t ∈ threads, ¬ CanWait sig t) → (∃ t ∈ threads, t.isRunning = true) →
    GoesTo threads sig fun t => t.isRunning = true
  first : (∀ t ∈ threads, t.isRunning = false) → sendTarget threads sig = 0

def BlockAlike (threads : List (ProcThread Info)) (sig : Nat) : Prop :=
  ∀ t ∈ threads, ∀ u ∈ threads, CanWait sig t → CanWait sig u → t.hasBlocked sig = u.hasBlocked sig

section

variable {threads : List (ProcThread Info)} {sig : Nat}

private theorem CanTake.canWait {t : ProcThread Info} (h : CanTake sig t) : CanWait sig t := ⟨h.1, h.2.1⟩

private theorem goesTo_of_target {P : ProcThread Info → Prop} {t : ProcThread Info}
    (ht : threads[sendTarget threads sig]? = some t) (hP : P t) : GoesTo threads sig P := by
  refine ⟨t, ht, hP, fun info mem => ?_⟩
  rw [sendSignal, sendTo, ht, Option.bind_some]

private theorem findIdx?_thread {p : ProcThread Info → Bool} {i : Nat} (h : threads.findIdx? p = some i) :
    ∃ t, threads[i]? = some t ∧ t ∈ threads ∧ p t = true := by
  obtain ⟨hi, hp, -⟩ := List.findIdx?_eq_some_iff_getElem.1 h
  exact ⟨threads[i], List.getElem?_eq_getElem hi, List.getElem_mem hi, hp⟩

private theorem sendTarget_cases (threads : List (ProcThread Info)) (sig : Nat) :
    (∃ t ∈ threads, threads[sendTarget threads sig]? = some t ∧ CanWait sig t ∧ t.hasBlocked sig = true) ∨
    ((∀ t ∈ threads, CanWait sig t → t.hasBlocked sig = false) ∧
      ((∃ t ∈ threads, threads[sendTarget threads sig]? = some t ∧ CanWait sig t) ∨
      ((∀ t ∈ threads, ¬ CanWait sig t) ∧
        ((∃ t ∈ threads, threads[sendTarget threads sig]? = some t ∧ t.isRunning = true) ∨
        ((∀ t ∈ threads, t.isRunning = false) ∧ sendTarget threads sig = 0))))) := by
  unfold sendTarget CanWait
  cases h1 : threads.findIdx? fun t => t.isRunning && !t.hasPending sig && t.hasBlocked sig with
  | some i =>
    obtain ⟨t, ht, hmem, hp⟩ := findIdx?_thread h1
    simp only [Bool.and_eq_true, Bool.not_eq_true'] at hp
    exact Or.inl ⟨t, hmem, ht, hp.1, hp.2⟩
  | none =>
    simp only [List.findIdx?_eq_none_iff, Bool.and_eq_false_iff, Bool.not_eq_false'] at h1
    refine Or.inr ⟨fun t ht hw => ?_, ?_⟩
    · rcases h1 t ht with (h | h) | h
      · rw [hw.1] at h
        cases h
      · rw [hw.2] at h
        cases h
      · exact h
    cases h2 : threads.findIdx? fun t => t.isRunning && !t.hasPending sig with
    | some i =>
      obtain ⟨t, ht, hmem, hp⟩ := findIdx?_thread h2
      simp only [Bool.and_eq_true, Bool.not_eq_true'] at hp
      exact Or.inl ⟨t, hmem, ht, hp⟩
    | none =>
      simp only [List.findIdx?_eq_none_iff, Bool.and_eq_false_iff, Bool.not_eq_false'] at h2
      refine Or.inr ⟨fun t ht hw => ?_, ?_⟩
      · rcases h2 t ht with h | h
        · rw [hw.1] at h
          cases h
        · rw [hw.2] at h
          cases h
      cases h3 : threads.findIdx? fun t => t.isRunning with
      | some i =>
        obtain ⟨t, ht, hmem, hp⟩ := findIdx?_thread h3
        exact Or.inl ⟨t, hmem, ht, hp⟩
      | none => exact Or.inr ⟨List.findIdx?_eq_none_iff.1 h3, rfl⟩

private theorem SendsRight.not_mixed (h : SendsRight threads sig) {t u : ProcThread Info} (ht : t ∈ threads)
    (hu : u ∈ threads)
    (hwt : CanWait sig t) (hwu : CanWait sig u) (hbt : t.hasBlocked sig = true) (hbu : u.hasBlocked sig = false) :
    False := by
  obtain ⟨v, hv, ⟨-, -, hbv⟩, -⟩ := h.take ⟨u, hu, hwu.1, hwu.2, hbu⟩
  rcases sendTarget_cases threads sig with ⟨w, -, hw, -, hbw⟩ | ⟨hall, -⟩
  · obtain rfl := Option.some.inj (hv.symm.trans hw)
    rw [hbv] at hbw
    cases hbw
  · rw [hall t ht hwt] at hbt
    cases hbt

end

/-- The signal goes to the right thread exactly if the running threads that do not have it pending all block it, or
none of them does. -/
theorem sendSignal_right_iff (threads : List (ProcThread Info)) (sig : Nat) :
    SendsRight threads sig ↔ BlockAlike threads sig := by
  constructor
  · intro h t ht u hu hwt hwu
    cases hbt : t.hasBlocked sig with
    | true =>
      cases hbu : u.hasBlocked sig with
      | true => rfl
      | false => exact (h.not_mixed ht hu hwt hwu hbt hbu).elim
    | false =>
      cases hbu : u.hasBlocked sig with
      | true => exact (h.not_mixed hu ht hwu hwt hbu hbt).elim
      | false => rfl
  · intro h
    rcases sendTarget_cases threads sig with ⟨t, hmem, ht, hw, hb⟩ |
      ⟨hfree, ⟨t, hmem, ht, hw⟩ | ⟨hnone, ⟨t, hmem, ht, hr⟩ | ⟨hstopped, h0⟩⟩⟩
    · refine ⟨?_, fun _ _ => goesTo_of_target ht hw, fun hn _ => absurd hw (hn t hmem), fun hn => ?_⟩
      · rintro ⟨u, hu, hcan⟩
        have halike := h t hmem u hu hw hcan.canWait
        rw [hb, hcan.2.2] at halike
        cases halike
      · have hrun := hw.1
        rw [hn t hmem] at hrun
        cases hrun
    · refine ⟨fun _ => goesTo_of_target ht ⟨hw.1, hw.2, hfree t hmem hw⟩, fun _ _ => goesTo_of_target ht hw,
        fun hn _ => absurd hw (hn t hmem), fun hn => ?_⟩
      have hrun := hw.1
      rw [hn t hmem] at hrun
      cases hrun
    · refine ⟨?_, ?_, fun _ _ => goesTo_of_target ht hr, fun hn => ?_⟩
      · rintro ⟨u, hu, hcan⟩
        exact absurd hcan.canWait (hnone u hu)
      · rintro - ⟨u, hu, hcan⟩
        exact absurd hcan (hnone u hu)
      · rw [hn t hmem] at hr
        cases hr
    · refine ⟨?_, ?_, ?_, fun _ => h0⟩
      · rintro ⟨u, hu, hcan⟩
        exact absurd hcan.canWait (hnone u hu)
      · rintro - ⟨u, hu, hcan⟩
        exact absurd hcan (hnone u hu)
      · rintro - ⟨u, hu, hrun⟩
        rw [hstopped u hu] at hrun
        cases hrun

def idleThread (blocked : SigSet) : ProcThread Nat := ⟨.running, { (sigInit 0).thread with sigblocked := blocked }⟩

/-- The first of two running threads blocks `SIGUSR1`, the second one does not, and the signal goes to the first. -/
theorem not_sendSignal_right : ¬ SendsRight [idleThread (sigaddset 0 10), idleThread 0] 10 := fun h =>
  h.not_mixed (List.mem_cons_self ..) (List.mem_cons_of_mem _ (List.mem_cons_self ..)) ⟨rfl, by decide⟩
    ⟨rfl, by decide⟩
    (by decide) (by decide)

end Pml.Kernel
