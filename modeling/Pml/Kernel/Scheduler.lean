import Mathlib.Logic.Relation
import Pml.Basic
import Pml.Kernel.SendSignal
import Pml.Lib.RoundRobin

/-!
# The scheduler (`thread_switch`, `process_kill`, `process_exit`)

The process queue and the queue of the threads of a process each have a front.  `thread_switch` goes on to the next
thread of the current process, or to the next process after the last thread, until the thread is running.  From the
process at index `exit_process`, which `process_kill` sets, it goes on to the next process at once, and the stub that
calls it frees that process afterwards unless the index is 0.

Only `exit_process == process_queue.front` before a step is looked at.  So the thread at the front of the exiting
process is selected if the loop comes to it first (`thread_switch_spec`).  It does not if the exiting process is the
current one and the fronts of the others are 0, as they are after every switch.
-/

namespace Pml.Kernel

open RoundRobin

/-- The members of `struct thread` that a switch needs. -/
structure SchedThread where
  tid : Int
  state : ThreadState
  pml4t : Nat
  stack : Nat
  deriving DecidableEq

/-- A process with its queue of threads. -/
@[ext] structure SchedProcess where
  pid : Int
  sid : Int
  threads : List SchedThread
  front : Nat
  front_lt : front < threads.length

/-- The process queue. -/
structure SchedQueue where
  procs : List SchedProcess
  front : Nat
  front_lt : front < procs.length

namespace SchedProcess

def thread (p : SchedProcess) : SchedThread := p.threads.get ⟨p.front, p.front_lt⟩

def restart (p : SchedProcess) : SchedProcess := { p with front := 0, front_lt := Nat.zero_lt_of_lt p.front_lt }

/-- `threads.front++` -/
def advance (p : SchedProcess) (h : p.front + 1 ≠ p.threads.length) : SchedProcess where
  __ := p
  front := p.front + 1
  front_lt := by
    have := p.front_lt
    omega

end SchedProcess

namespace SchedQueue

variable (q : SchedQueue)

def thisProcess : SchedProcess := q.procs.get ⟨q.front, q.front_lt⟩

def thisThread : SchedThread := q.thisProcess.thread

/-- `process_queue.front` after a step to the next process. -/
def nextFront : Nat := if q.front + 1 = q.procs.length then 0 else q.front + 1

private theorem nextFront_lt : q.nextFront < q.procs.length := by
  have := q.front_lt
  unfold nextFront
  split <;> omega

def replace (p : SchedProcess) (front : Nat) (h : front < q.procs.length) : SchedQueue where
  procs := q.procs.set q.front p
  front := front
  front_lt := by
    rw [List.length_set]
    exact h

/-- The body of the loop of `thread_switch`. -/
def step (exitProcess : Nat) : SchedQueue :=
  if h : exitProcess = q.front ∨ q.thisProcess.front + 1 = q.thisProcess.threads.length then
    q.replace q.thisProcess.restart q.nextFront q.nextFront_lt
  else q.replace (q.thisProcess.advance fun he => h (Or.inr he)) q.front q.front_lt

/-- The loop of `thread_switch`, with a bound on the number of rounds. -/
def switchLoop (exitProcess : Nat) : Nat → SchedQueue → Option SchedQueue
  | 0, _ => none
  | n + 1, q =>
    if (q.step exitProcess).thisThread.state ≠ .running then switchLoop exitProcess n (q.step exitProcess)
    else some (q.step exitProcess)

end SchedQueue

/-- What `thread_switch` leaves behind and returns. -/
structure Switched where
  queue : SchedQueue
  currentTty : Nat
  pml4tPhys : Nat
  stack : Nat

/-- `thread_switch`, where `ttyGetFromSid` is `tty_get_from_sid` and `vma` is `KERNEL_VMA`. -/
def threadSwitch (ttyGetFromSid : Int → Nat) (vma exitProcess n : Nat) (q : SchedQueue) : Option Switched :=
  (q.switchLoop exitProcess n).map fun q =>
    ⟨q, ttyGetFromSid q.thisProcess.sid, sub64 q.thisThread.pml4t vma, q.thisThread.stack⟩

/-- `process_exit` on the process queue; undefined if the index is not in the queue or the front is not in it any
more. -/
def processQueueExit (q : SchedQueue) (index : Nat) : Option SchedQueue :=
  let procs := q.procs.eraseIdx index
  let front := if index < q.front then q.front - 1 else q.front
  if h : index < q.procs.length ∧ front < procs.length then some ⟨procs, front, h.2⟩ else none

/-! ### The threads of a queue -/

namespace SchedQueue

variable (q : SchedQueue)

def Running (p t : Nat) : Prop := ((q.procs[p]?.bind fun p => p.threads[t]?).map SchedThread.state) = some .running

instance (p t : Nat) : Decidable (q.Running p t) := inferInstanceAs (Decidable (_ = _))

def threadFront (p : Nat) : Nat := (q.procs[p]?.map SchedProcess.front).getD 0

def threadCount (p : Nat) : Nat := (q.procs[p]?.map fun p => p.threads.length).getD 0

private theorem running_lt {p t : Nat} (h : q.Running p t) : p < q.procs.length ∧ t < q.threadCount p := by
  unfold Running at h
  unfold threadCount
  obtain ⟨T, hT, -⟩ := Option.map_eq_some_iff.1 h
  obtain ⟨P, hP, hPT⟩ := Option.bind_eq_some_iff.1 hT
  refine ⟨(List.getElem?_eq_some_iff.1 hP).1, ?_⟩
  rw [hP]
  exact (List.getElem?_eq_some_iff.1 hPT).1

def ring (exitProcess : Nat) : Ring :=
  ⟨q.procs.length, exitProcess, q.threadCount, q.Running, fun _ _ h => q.running_lt h⟩

def cursor : Cursor := ⟨q.front, q.threadFront⟩

def SameThreads (q q' : SchedQueue) : Prop :=
  q.procs.map (fun p => (p.pid, p.sid, p.threads)) = q'.procs.map fun p => (p.pid, p.sid, p.threads)

variable {q}

theorem SameThreads.trans {q' q'' : SchedQueue} (h : q.SameThreads q') (h' : q'.SameThreads q'') :
    q.SameThreads q'' :=
  Eq.trans h h'

theorem SameThreads.get {q' : SchedQueue} (h : q.SameThreads q') (p : Nat) :
    (q.procs[p]?.map fun p => (p.pid, p.sid, p.threads)) = q'.procs[p]?.map fun p => (p.pid, p.sid, p.threads) := by
  rw [← List.getElem?_map, ← List.getElem?_map]
  exact congrArg (·[p]?) h

theorem SameThreads.running {q' : SchedQueue} (h : q.SameThreads q') : q.Running = q'.Running := by
  funext p t
  have hp := h.get p
  unfold Running
  cases hq : q.procs[p]? <;> cases hq' : q'.procs[p]? <;> rw [hq, hq'] at hp
  · cases hp
  · cases hp
  · have hthreads := congrArg (fun x => x.2.2) (Option.some.inj hp)
    dsimp only at hthreads
    rw [Option.bind_some, Option.bind_some, hthreads]

private theorem SameThreads.threadCount {q' : SchedQueue} (h : q.SameThreads q') :
    q.threadCount = q'.threadCount := by
  funext p
  have hp := congrArg (fun x => (Option.map (fun x => x.2.2.length) x).getD 0) (h.get p)
  rw [Option.map_map, Option.map_map] at hp
  exact hp

private theorem SameThreads.ring {q' : SchedQueue} (h : q.SameThreads q') (exitProcess : Nat) :
    q.ring exitProcess = q'.ring exitProcess := by
  have hlen : q.procs.length = q'.procs.length := by
    have hmap := congrArg List.length h
    rw [List.length_map, List.length_map] at hmap
    exact hmap
  unfold SchedQueue.ring
  simp only [hlen, h.running, h.threadCount]

private theorem replace_spec {P : SchedProcess} {front : Nat} (h : front < q.procs.length)
    (hP : (P.pid, P.sid, P.threads) = (q.thisProcess.pid, q.thisProcess.sid, q.thisProcess.threads)) :
    q.SameThreads (q.replace P front h) ∧
      (q.replace P front h).cursor = ⟨front, Function.update q.threadFront q.front P.front⟩ := by
  have hget : q.procs[q.front]? = some q.thisProcess := List.getElem?_eq_getElem q.front_lt
  refine ⟨?_, Cursor.ext rfl ?_⟩
  · unfold SameThreads replace
    rw [List.map_set]
    refine List.ext_getElem? fun i => ?_
    by_cases hi : q.front = i
    · rw [← hi, List.getElem?_set_self (by rw [List.length_map]; exact q.front_lt), List.getElem?_map, hget, hP]
      rfl
    · rw [List.getElem?_set_ne hi]
  · funext p
    show (((q.procs.set q.front P)[p]?).map SchedProcess.front).getD 0 = Function.update q.threadFront q.front
      P.front p
    by_cases hp : q.front = p
    · rw [← hp, Function.update_self, List.getElem?_set_self q.front_lt]
      rfl
    · rw [Function.update_of_ne (Ne.symm hp), List.getElem?_set_ne hp]
      rfl

private theorem threadFront_front : q.threadFront q.front = q.thisProcess.front := by
  have hget : q.procs[q.front]? = some q.thisProcess := List.getElem?_eq_getElem q.front_lt
  unfold threadFront
  rw [hget]
  rfl

private theorem threadCount_front : q.threadCount q.front = q.thisProcess.threads.length := by
  have hget : q.procs[q.front]? = some q.thisProcess := List.getElem?_eq_getElem q.front_lt
  unfold threadCount
  rw [hget]
  rfl

private theorem step_spec (q : SchedQueue) (exitProcess : Nat) : q.SameThreads (q.step exitProcess) ∧
    (q.step exitProcess).cursor = (q.ring exitProcess).next q.cursor := by
  unfold step Ring.next
  show _ ∧ _ = if exitProcess = q.front ∨ q.threadFront q.front + 1 = q.threadCount q.front then _ else
    (⟨q.front, Function.update q.threadFront q.front (q.threadFront q.front + 1)⟩ : Cursor)
  rw [threadFront_front, threadCount_front]
  by_cases h : exitProcess = q.front ∨ q.thisProcess.front + 1 = q.thisProcess.threads.length
  · rw [dif_pos h, if_pos h]
    exact replace_spec _ rfl
  · rw [dif_neg h, if_neg h]
    exact replace_spec (P := q.thisProcess.advance fun he => h (Or.inr he)) _ rfl

private theorem running_cursor (q : SchedQueue) (exitProcess : Nat) :
    (q.ring exitProcess).Ready q.cursor ↔ q.thisThread.state = .running := by
  have hget : q.procs[q.front]? = some q.thisProcess := List.getElem?_eq_getElem q.front_lt
  have hthread : q.thisProcess.threads[q.thisProcess.front]? = some q.thisThread := List.getElem?_eq_getElem _
  show q.Running q.front (q.threadFront q.front) ↔ _
  unfold Running
  rw [threadFront_front, hget, Option.bind_some, hthread, Option.map_some, Option.some_inj]

private theorem switchLoop_spec {exitProcess : Nat} {q : SchedQueue} {c : Cursor}
    (h : (q.ring exitProcess).Arrives ((q.ring exitProcess).next q.cursor) c) :
    ∃ n q', q.switchLoop exitProcess n = some q' ∧ q.SameThreads q' ∧ q'.cursor = c := by
  generalize hring : q.ring exitProcess = r at h
  generalize hstart : r.next q.cursor = c₀ at h
  induction h generalizing q with
  | @stop c hready =>
    obtain ⟨hsame, hcursor⟩ := q.step_spec exitProcess
    have hrun : (q.step exitProcess).thisThread.state = .running := by
      rw [← running_cursor _ exitProcess, ← hsame.ring, hcursor, hring, hstart]
      exact hready
    refine ⟨1, q.step exitProcess, ?_, hsame, ?_⟩
    · unfold switchLoop
      rw [if_neg (not_not.2 hrun)]
    · rw [hcursor, hring, hstart]
  | @go c₁ c₂ hnot harr ih =>
    obtain ⟨hsame, hcursor⟩ := q.step_spec exitProcess
    have hrun : (q.step exitProcess).thisThread.state ≠ .running := by
      rw [ne_eq, ← running_cursor _ exitProcess, ← hsame.ring, hcursor, hring, hstart]
      exact hnot
    obtain ⟨n, q', hloop, hsame', hc⟩ := ih (q := q.step exitProcess) (by rw [← hsame.ring, hring])
      (by rw [hcursor, hring, hstart])
    refine ⟨n + 1, q', ?_, hsame.trans hsame', hc⟩
    unfold switchLoop
    rw [if_pos hrun]
    exact hloop

end SchedQueue

/-! ### The selected thread -/

namespace SchedQueue

variable (q : SchedQueue)

/-- There is a running thread that comes before the exiting process, or the first thread of it that is looked at is
not running and there is one that comes before the second, or that is not running either. -/
def Passes (exitProcess : Nat) : Prop :=
  (∃ p t, q.Running p t ∧ (p = q.front ∧ p ≠ exitProcess ∧ q.threadFront p < t ∨
    RoundRobin.Between q.front p exitProcess ∧ q.threadFront p ≤ t)) ∨
  ¬q.Running exitProcess (if exitProcess = q.front then 0 else q.threadFront exitProcess) ∧
    ((∃ p t, q.Running p t ∧ (p = q.front ∧ p ≠ exitProcess ∨ RoundRobin.Between q.front p exitProcess ∨
      RoundRobin.Between exitProcess p q.front ∧ q.threadFront p ≤ t)) ∨ ¬q.Running exitProcess 0)

def Rested : Prop := ∀ p, p ≠ q.front → q.threadFront p = 0

end SchedQueue

private theorem processQueueExit_spec {q : SchedQueue} (index : Nat) (hindex : index < q.procs.length)
    (hne : index ≠ q.front) :
    ∃ q', processQueueExit q index = some q' ∧ q'.thisProcess = q.thisProcess := by
  have hfront := q.front_lt
  have hget : (q.procs.eraseIdx index)[if index < q.front then q.front - 1 else q.front]? = some q.thisProcess := by
    rw [List.getElem?_eraseIdx]
    by_cases hlt : index < q.front
    · rw [if_pos hlt, if_neg (by omega), Nat.sub_add_cancel (by omega)]
      exact List.getElem?_eq_getElem hfront
    · rw [if_neg hlt, if_pos (by omega)]
      exact List.getElem?_eq_getElem hfront
  obtain ⟨hbound, hvalue⟩ := List.getElem?_eq_some_iff.1 hget
  exact ⟨_, dif_pos ⟨hindex, hbound⟩, hvalue⟩

private theorem threadFront_lt (q : SchedQueue) : ∀ p < q.procs.length, q.threadFront p < q.threadCount p := by
  intro p hp
  have hget : q.procs[p]? = some q.procs[p] := List.getElem?_eq_getElem hp
  unfold SchedQueue.threadFront SchedQueue.threadCount
  rw [hget]
  exact (q.procs[p]).front_lt

private theorem SchedQueue.Rested.passes {q : SchedQueue} (hq : q.Rested) {p t : Nat} (hp : p ≠ q.front)
    (hrun : q.Running p t) :
    q.Passes q.front := by
  refine Or.inl ⟨p, t, hrun, Or.inr ⟨?_, ?_⟩⟩
  · unfold RoundRobin.Between
    rw [if_neg (Nat.lt_irrefl _)]
    omega
  · rw [hq p hp]
    exact Nat.zero_le t

theorem SchedQueue.Rested.step {q : SchedQueue} (hq : q.Rested) (exitProcess : Nat) :
    (q.step exitProcess).Rested := by
  have hcursor := (q.step_spec exitProcess).2
  have hfront : (q.step exitProcess).front = _ := congrArg Cursor.queue hcursor
  have hfronts : (q.step exitProcess).threadFront = _ := congrArg Cursor.fronts hcursor
  intro p hp
  rw [hfront] at hp
  rw [hfronts]
  unfold Ring.next Ring.leave at hp ⊢
  by_cases hpf : p = q.front
  · split at hp
    · rw [if_pos ‹_›, hpf]
      exact Function.update_self _ _ _
    · exact absurd hpf hp
  · split
    · exact (Function.update_of_ne hpf _ _).trans (hq p hpf)
    · exact (Function.update_of_ne hpf _ _).trans (hq p hpf)

private theorem SchedQueue.Rested.switchLoop {exitProcess n : Nat} {q q' : SchedQueue} (hq : q.Rested)
    (h : q.switchLoop exitProcess n = some q') : q'.Rested := by
  induction n generalizing q with
  | zero => cases h
  | succ n ih =>
    unfold SchedQueue.switchLoop at h
    split at h
    · exact ih (hq.step exitProcess) h
    · obtain rfl := Option.some.inj h
      exact hq.step exitProcess

private theorem threadSwitch_total (ttyGetFromSid : Int → Nat) (vma : Nat) {exitProcess : Nat} {q : SchedQueue}
    (h : ∃ p t, p ≠ exitProcess ∧ q.Running p t) :
    ∃ n s, threadSwitch ttyGetFromSid vma exitProcess n q = some s ∧ q.SameThreads s.queue ∧
      s.queue.thisThread.state = .running ∧ (s.queue.front ≠ exitProcess ↔ q.Passes exitProcess) ∧
      (q.Rested → s.queue.Rested) := by
  obtain ⟨c, harr, hiff⟩ := Ring.next_avoids_iff (r := q.ring exitProcess) q.front_lt (threadFront_lt q) h
  obtain ⟨n, q', hloop, hsame, rfl⟩ := SchedQueue.switchLoop_spec harr
  refine ⟨n, ⟨q', ttyGetFromSid q'.thisProcess.sid, sub64 q'.thisThread.pml4t vma, q'.thisThread.stack⟩, ?_, hsame,
    ?_, hiff, fun hq => hq.switchLoop hloop⟩
  · unfold threadSwitch
    rw [hloop]
    rfl
  · rw [← SchedQueue.running_cursor _ exitProcess, ← hsame.ring]
    exact harr.ready

/-- With a running thread outside the exiting process, `thread_switch` terminates and selects a running thread.  It is
in another process than the exiting one exactly under the condition, which holds if that is the current one and the
fronts of the others are 0, as `thread_switch` leaves them.  `process_exit` for another process than the current one
changes neither the current process nor its thread. -/
theorem thread_switch_spec (ttyGetFromSid : Int → Nat) (vma exitProcess : Nat) (q : SchedQueue)
    (h : ∃ p t, p ≠ exitProcess ∧ q.Running p t) :
    (∃ n s, threadSwitch ttyGetFromSid vma exitProcess n q = some s ∧ q.SameThreads s.queue ∧
      s.queue.thisThread.state = .running ∧ (s.queue.front ≠ exitProcess ↔ q.Passes exitProcess) ∧
      (q.Rested → s.queue.Rested)) ∧
    (q.Rested → exitProcess = q.front → q.Passes exitProcess) ∧
    ∀ index, index < q.procs.length → index ≠ q.front → ∃ q', processQueueExit q index = some q' ∧
      q'.thisProcess = q.thisProcess ∧ q'.thisThread = q.thisThread := by
  refine ⟨threadSwitch_total ttyGetFromSid vma h, ?_, ?_⟩
  · rintro hq rfl
    obtain ⟨p, t, hp, hrun⟩ := h
    exact hq.passes hp hrun
  · intro index hindex hne
    obtain ⟨q', hexit, hthis⟩ := processQueueExit_spec index hindex hne
    refine ⟨q', hexit, hthis, ?_⟩
    unfold SchedQueue.thisThread
    rw [hthis]

def twoProcesses : SchedQueue :=
  ⟨[⟨0, 0, [⟨0, .running, 0, 0⟩], 0, by decide⟩, ⟨1, 1, [⟨1, .running, 0, 0⟩], 0, by decide⟩], 1, by decide⟩

private theorem twoProcesses_rested : twoProcesses.Rested := by
  intro p hp
  match p, hp with
  | 0, _ => rfl
  | 1, hp => exact absurd rfl hp
  | _ + 2, _ => rfl

theorem thread_switch_two : (∃ p t, p ≠ 1 ∧ twoProcesses.Running p t) ∧
    ∃ n s, threadSwitch (fun _ => 0) 0 1 n twoProcesses = some s ∧ s.queue.front ≠ 1 :=
  have h : ∃ p t, p ≠ 1 ∧ twoProcesses.Running p t := ⟨0, 0, by decide, by decide⟩
  have hspec := thread_switch_spec (fun _ => 0) 0 1 twoProcesses h
  ⟨h, hspec.1.imp fun n hn => hn.imp fun s hs => ⟨hs.1, hs.2.2.2.1.2 (hspec.2.1 twoProcesses_rested rfl)⟩⟩

/-- If no process exits, then the kernel process, with index 0, is selected after the other one. -/
theorem not_thread_switch_other : ¬∀ (q : SchedQueue) (exitProcess : Nat), (∃ p t, p ≠ exitProcess ∧ q.Running p t) →
    ∃ n s, threadSwitch (fun _ => 0) 0 exitProcess n q = some s ∧ s.queue.thisThread.state = .running ∧
      s.queue.front ≠ exitProcess := by
  intro h
  obtain ⟨n, s, hswitch, -, hfront⟩ := h twoProcesses 0 ⟨1, 0, by decide, by decide⟩
  cases n with
  | zero => cases hswitch
  | succ n =>
    obtain rfl := Option.some.inj hswitch
    exact hfront rfl

/-! ### Runs -/

theorem SchedQueue.Rested.exit {q q' : SchedQueue} (hq : q.Rested) {index : Nat}
    (h : processQueueExit q index = some q') :
    q'.Rested := by
  unfold processQueueExit at h
  dsimp only at h
  by_cases hbound : index < q.procs.length ∧
      (if index < q.front then q.front - 1 else q.front) < (q.procs.eraseIdx index).length
  · rw [dif_pos hbound] at h
    obtain rfl := Option.some.inj h
    intro p hp
    -- the index that the process had before
    have hget : (q.procs.eraseIdx index)[p]? = q.procs[if p < index then p else p + 1]? := by
      rw [List.getElem?_eraseIdx]
      split <;> rfl
    have hfront : SchedQueue.threadFront ⟨q.procs.eraseIdx index, _, hbound.2⟩ p =
        q.threadFront (if p < index then p else p + 1) := by
      unfold SchedQueue.threadFront
      rw [← hget]
    rw [hfront]
    refine hq _ ?_
    dsimp only at hp
    split at hp <;> split <;> omega
  · rw [dif_neg hbound] at h
    cases h

/-- The queue and `exit_process`. -/
structure Sched where
  queue : SchedQueue
  exitProcess : Nat

/-- `process_kill`, a call of `thread_switch` by the stub, which frees an exiting process, and anything else, which
leaves the fronts as they are. -/
inductive Sched.Step (ttyGetFromSid : Int → Nat) (vma : Nat) : Sched → Sched → Prop
  | kill (s : Sched) : Step ttyGetFromSid vma s { s with exitProcess := s.queue.front }
  | tick {s : Sched} {n : Nat} {r : Switched} (h : threadSwitch ttyGetFromSid vma s.exitProcess n s.queue = some r)
      (hexit : s.exitProcess = 0) : Step ttyGetFromSid vma s ⟨r.queue, 0⟩
  | exit {s : Sched} {n : Nat} {r : Switched} {q : SchedQueue}
      (h : threadSwitch ttyGetFromSid vma s.exitProcess n s.queue = some r) (hexit : s.exitProcess ≠ 0)
      (hq : processQueueExit r.queue s.exitProcess = some q) : Step ttyGetFromSid vma s ⟨q, 0⟩
  | other {s : Sched} {q : SchedQueue} (hfront : q.front = s.queue.front)
      (hfronts : ∀ p, p ≠ q.front → q.threadFront p = s.queue.threadFront p) :
      Step ttyGetFromSid vma s { s with queue := q }

/-- Only the current process has a front that has been moved, and only the current process exits. -/
structure Sched.Inv (s : Sched) : Prop where
  rested : s.queue.Rested
  exiting : s.exitProcess = 0 ∨ s.exitProcess = s.queue.front

theorem Sched.Step.inv {ttyGetFromSid : Int → Nat} {vma : Nat} {s s' : Sched} (h : Sched.Step ttyGetFromSid vma s s')
    (hs : s.Inv) : s'.Inv := by
  have hswitch : ∀ {n r}, threadSwitch ttyGetFromSid vma s.exitProcess n s.queue = some r → r.queue.Rested := by
    intro n r hr
    obtain ⟨q, hq, rfl⟩ := Option.map_eq_some_iff.1 hr
    exact hs.rested.switchLoop hq
  cases h with
  | kill => exact ⟨hs.rested, Or.inr rfl⟩
  | tick h => exact ⟨hswitch h, Or.inl rfl⟩
  | exit h _ hq => exact ⟨(hswitch h).exit hq, Or.inl rfl⟩
  | other hfront hfronts =>
    refine ⟨fun p hp => ?_, ?_⟩
    · rw [hfronts p hp]
      exact hs.rested p (by rw [← hfront]; exact hp)
    · rw [hfront]
      exact hs.exiting

/-- In any run a process that exits is not selected again as long as another one can run, and the selected process and
thread are the current ones after it has been freed. -/
theorem Sched.exit_selects_other {ttyGetFromSid : Int → Nat} {vma : Nat} {s₀ s : Sched} (hinit : s₀.Inv)
    (hrun : Relation.ReflTransGen (Sched.Step ttyGetFromSid vma) s₀ s) (hexit : s.exitProcess ≠ 0)
    (h : ∃ p t, p ≠ s.exitProcess ∧ s.queue.Running p t) :
    ∃ n r q, threadSwitch ttyGetFromSid vma s.exitProcess n s.queue = some r ∧ r.queue.thisThread.state = .running ∧
      r.queue.front ≠ s.exitProcess ∧ processQueueExit r.queue s.exitProcess = some q ∧
      q.thisProcess = r.queue.thisProcess := by
  have hinv : s.Inv := by
    clear h hexit
    induction hrun with
    | refl => exact hinit
    | tail _ hstep ih => exact hstep.inv ih
  have hfront : s.exitProcess = s.queue.front := hinv.exiting.resolve_left hexit
  obtain ⟨n, r, hswitch, hsame, hrunning, hiff, -⟩ := threadSwitch_total ttyGetFromSid vma h
  have hne : r.queue.front ≠ s.exitProcess := by
    obtain ⟨p, t, hp, hrun⟩ := h
    rw [hiff, hfront]
    exact hinv.rested.passes (by rw [← hfront]; exact hp) hrun
  have hlen : s.queue.procs.length = r.queue.procs.length := congrArg Ring.len (hsame.ring 0)
  obtain ⟨q, hq, hthis⟩ := processQueueExit_spec s.exitProcess (by
    rw [← hlen, hfront]
    exact s.queue.front_lt) (Ne.symm hne)
  exact ⟨n, r, q, hswitch, hrunning, hne, hq, hthis⟩

/-- The second process is killed. -/
theorem Sched.exit_selects_other_two : ∃ n r, threadSwitch (fun _ => 0) 0 1 n twoProcesses = some r ∧
    r.queue.front ≠ 1 ∧ processQueueExit r.queue 1 ≠ none :=
  have hkill : Sched.Step (fun _ => 0) 0 ⟨twoProcesses, 0⟩ ⟨twoProcesses, 1⟩ := .kill _
  have ⟨n, r, q, hswitch, _, hne, hq, _⟩ := Sched.exit_selects_other ⟨twoProcesses_rested, Or.inl rfl⟩ (.single hkill)
    (by decide) ⟨0, 0, by decide, by decide⟩
  ⟨n, r, hswitch, hne, fun hnone => by cases hq.symm.trans hnone⟩

end Pml.Kernel
