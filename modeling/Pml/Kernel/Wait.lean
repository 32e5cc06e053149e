import Pml.Kernel.ProcessTree

/-!
# Waiting for children (`kernel/wait.c`, `kernel/process.c`)

A process that terminates leaves a wait state with its parent, and is freed later.  `sys_wait4` takes the first wait
state that fits out of the array of its caller.  The `Ledger` is what the states are for: each process owes its parent
one status, which is handed out once.  The code keeps to it (`waits_kept`) as long as the caller still has children
in its list, the child that it asks for is not freed, and nothing is lost when the array is closed: the move of the
later states is `len` bytes long and not `len` states.
-/

namespace Pml.Kernel

open ByteMemory

/-! ### Wait states -/

def waitRunning : Int := 0

def waitExited : Int := 1

def waitSignaled : Int := 2

def waitStopped : Int := 4

/-- `sizeof (struct wait_state)`: the process and group IDs, 144 bytes of `struct rusage`, the status and the code. -/
abbrev waitStateSize : Nat := 160

def readInt (m : Mem) (a : Nat) : Int :=
  let n := readLE m a 4
  if n < 2 ^ 31 then n else n - 2 ^ 32

def writeInt (m : Mem) (a : Nat) (x : Int) : Mem := writeLE m a 4 (x % 2 ^ 32).toNat

/-- The members of `struct wait_state` but the resource usage. -/
structure WaitState where
  pid : Int
  pgid : Int
  status : Int
  code : Int
  deriving DecidableEq

namespace WaitQueue

def state (w : WaitQueue) (i : Nat) : WaitState :=
  let a := i * waitStateSize
  ⟨readInt w.states a, readInt w.states (a + 4), readInt w.states (a + 152), readInt w.states (a + 156)⟩

/-- Adds a wait state; `rusage` is the resource usage of the process that terminates. -/
def push (w : WaitQueue) (st : WaitState) (rusage : Mem) : WaitQueue :=
  let a := w.len * waitStateSize
  let m := writeInt (writeInt w.states a st.pid) (a + 4) st.pgid
  let m := writeInt (writeInt m (a + 152) st.status) (a + 156) st.code
  ⟨w.len + 1, fun x => if a + 8 ≤ x ∧ x < a + 152 then rusage (x - (a + 8)) else m x⟩

/-- Takes out the wait state with an index: `memmove (states + i, states + i + 1, --len - i)`. -/
def pop (w : WaitQueue) (i : Nat) : WaitQueue :=
  ⟨w.len - 1, copy w.states (i * waitStateSize) ((i + 1) * waitStateSize) (w.len - 1 - i)⟩

end WaitQueue

/-- The status word that `do_wait` stores. -/
def statusWord (status code : Int) : Int :=
  let word := code % 256 * 256
  if status = waitSignaled then word + 0x01 else if status = waitStopped then word + 0x7f else word

namespace Processes

variable (pidHash : Int → UInt64) (keyHash : UInt64 → UInt64) (s : Processes)

def processFillWait (a : Nat) (mode status : Int) (rusage : Mem) : Processes :=
  let parent := s.lookupPid pidHash keyHash (s.mem a).ppid
  if parent = 0 then s
  else
    let p := s.mem parent
    s.set parent { p with waits := p.waits.push ⟨(s.mem a).pid, p.pgid, mode, status⟩ rusage }

/-- The test of `do_wait`. -/
def waitsFor (p : Process) (pid : Int) (st : WaitState) : Bool :=
  !(0 < pid && st.pid != pid) && st.status != waitRunning && !(pid == 0 && st.pgid != p.pgid)

/-- The index of the wait state that `do_wait` takes. -/
def waitIndex (p : Process) (pid : Int) : Option Nat :=
  (List.range p.waits.len).find? fun i => waitsFor p pid (p.waits.state i)

/-- `do_wait`: the process ID, which is 0 if there is no state, and the status word. -/
def doWait (a : Nat) (pid : Int) : Int × Int × Processes :=
  match waitIndex (s.mem a) pid with
  | none => (0, 0, s)
  | some i =>
    let st := (s.mem a).waits.state i
    (st.pid, statusWord st.status st.code, s.set a { s.mem a with waits := (s.mem a).waits.pop i })

end Processes

/-! ### The system -/

/-- The calls of the processes: `rusage` is the resource usage at the time. -/
inductive WaitCall
  | fork (parent child : Nat)
  | terminate (a : Nat) (mode code : Int) (rusage : Mem)
  | exit (a : Nat)
  | wait (a : Nat) (pid : Int) (nohang : Bool)
  | poll (a : Nat) (pid : Int)

/-- What a call returns: `sys_wait4` fails, returns a process ID and a status word, or 0, or blocks. -/
inductive WaitResult
  | forked (pid : Int)
  | done
  | error (e : Errno)
  | returned (pid word : Int)
  | zero
  | blocked
  deriving DecidableEq

/-- The processes, those of them that have terminated and are not freed yet, and the arguments of those that are
blocked in `sys_wait4`. -/
structure WaitSystem where
  procs : Processes
  dying : List Nat
  waiting : Nat → Option Int

section

variable (pidHash : Int → UInt64) (keyHash : UInt64 → UInt64)

def negInt (x : Int) : Int := if x = -2 ^ 31 then x else -x

/-- The process ID that `sys_wait4` passes to `do_wait`. -/
def waitArg (pid : Int) : Int := if pid < -1 then negInt pid else pid

/-- The first part of `sys_wait4`, up to the first time that the process blocks. -/
def sysWait4 (s : Processes) (a : Nat) (pid : Int) (nohang : Bool) : WaitResult × Processes :=
  let pid := waitArg pid
  if (s.mem a).children = [] then (.error .ECHILD, s)
  else if 0 < pid ∧ s.lookupPid pidHash keyHash pid = 0 then (.error .ESRCH, s)
  else
    let (ret, word, s) := s.doWait a pid
    if ret ≠ 0 then (.returned ret word, s) else if nohang then (.zero, s) else (.blocked, s)

/-- The loop of `sys_wait4`, when the process runs again. -/
def sysWait4Loop (s : Processes) (a : Nat) (pid : Int) : WaitResult × Processes :=
  let (ret, word, s) := s.doWait a pid
  if ret ≠ 0 then (.returned ret word, s) else (.blocked, s)

def WaitSystem.runs (s : WaitSystem) (a : Nat) : Prop := a ∈ s.procs.queue ∧ a ∉ s.dying

instance (s : WaitSystem) (a : Nat) : Decidable (s.runs a) := inferInstanceAs (Decidable (_ ∧ _))

/-- The result of a call and the state after it.  A process terminates once, before it is freed, and makes no calls
afterwards or while it is blocked; it waits for one child or for any. -/
def waitStep (s : WaitSystem) : WaitCall → Option (WaitResult × WaitSystem)
  | .fork parent child =>
    if s.runs parent ∧ s.waiting parent = none then
      (treeStep pidHash keyHash s.procs (.fork parent child)).map fun procs =>
        (.forked (procs.mem child).pid, { s with procs := procs })
    else none
  | .terminate a mode code rusage =>
    if s.runs a ∧ (s.procs.mem a).pid ≠ 0 ∧ (s.procs.mem a).pid ≠ 1 ∧ (mode = waitExited ∨ mode = waitSignaled) ∧
        -2 ^ 31 ≤ code ∧ code < 2 ^ 31 then
      some (.done, ⟨s.procs.processFillWait pidHash keyHash a mode code rusage, a :: s.dying,
        Function.update s.waiting a none⟩)
    else none
  | .exit a =>
    if a ∈ s.dying then
      (treeStep pidHash keyHash s.procs (.exit a)).map fun procs =>
        (.done, { s with procs := procs, dying := s.dying.erase a })
    else none
  | .wait a pid nohang =>
    if s.runs a ∧ s.waiting a = none ∧ (pid = -1 ∨ 0 < pid) then
      let (r, procs) := sysWait4 pidHash keyHash s.procs a pid nohang
      some (r, { s with
        procs := procs, waiting := if r = .blocked then Function.update s.waiting a (some pid) else s.waiting })
    else none
  | .poll a pid =>
    if s.runs a ∧ s.waiting a = some pid ∧ (pid = -1 ∨ 0 < pid) then
      let (r, procs) := sysWait4Loop s.procs a pid
      some (r, { s with
        procs := procs, waiting := if r = .blocked then s.waiting else Function.update s.waiting a none })
    else none

def waitRun : List WaitCall → WaitSystem → Option (List WaitResult)
  | [], _ => some []
  | call :: calls, s => (waitStep pidHash keyHash s call).bind fun r => (waitRun calls r.2).map (r.1 :: ·)

end

/-! ### The ledger -/

/-- The status of a child: its process ID, and the mode and the code with which it terminated. -/
structure ChildStatus where
  pid : Int
  mode : Int
  code : Int
  deriving DecidableEq

/-- The parents and the IDs of the processes, and the statuses that each of them has not collected yet. -/
structure Ledger where
  parent : Family
  pid : Nat → Int
  due : Nat → List ChildStatus

namespace Ledger

def Fits (pid : Int) (st : ChildStatus) : Prop := pid = -1 ∨ st.pid = pid

/-- A wait: if a status fits, one that does is returned and is due no more; otherwise nothing is returned. -/
def Collects (l : Ledger) (a : Nat) (pid : Int) (r : WaitResult) (l' : Ledger) : Prop :=
  (∃ st ∈ l.due a, Fits pid st ∧ r = .returned st.pid (statusWord st.mode st.code) ∧
    l' = { l with due := Function.update l.due a ((l.due a).erase st) }) ∨
  ((∀ st ∈ l.due a, ¬ Fits pid st) ∧ (∀ p w, r ≠ .returned p w) ∧ l' = l)

def Allows (init : Nat) (l : Ledger) : WaitCall → WaitResult → Ledger → Prop
  | .fork parent child, r, l' => ∃ pid, r = .forked pid ∧
    l' = ⟨l.parent.step init (.fork parent child), Function.update l.pid child pid, Function.update l.due child []⟩
  | .terminate a mode code _, _, l' => ∃ b, l.parent a = some b ∧
    l' = { l with due := Function.update l.due b (l.due b ++ [⟨l.pid a, mode, code⟩]) }
  | .exit a, _, l' => l' = { l with parent := l.parent.step init (.exit a) }
  | .wait a pid _, r, l' => l.Collects a pid r l'
  | .poll a pid, r, l' => l.Collects a pid r l'

def AllowsRun (init : Nat) : List WaitCall → List WaitResult → Ledger → Prop
  | [], [], _ => True
  | call :: calls, r :: rs, l => ∃ l', l.Allows init call r l' ∧ AllowsRun init calls rs l'
  | _, _, _ => False

def start (root init : Nat) : Ledger :=
  ⟨Family.start root init, Function.update (fun _ => 0) init 1, fun _ => []⟩

end Ledger

/-! ### When no status is lost -/

/-- The bytes of the later states that are not moved are those of the states that they are moved to. -/
def WaitQueue.Slides (w : WaitQueue) (i : Nat) : Prop :=
  ∀ x, i * waitStateSize + (w.len - 1 - i) ≤ x → x < (w.len - 1) * waitStateSize →
    w.states x = w.states (x + waitStateSize)

def WaitQueue.First (w : WaitQueue) (pid : Int) (i : Nat) : Prop :=
  i < w.len ∧ (pid = -1 ∨ (w.state i).pid = pid) ∧ ∀ j < i, ¬ (pid = -1 ∨ (w.state j).pid = pid)

/-- If there is a status to collect, then a call to wait finds children in the list of the caller and, if it asks for
one child, finds the child, and the array can be closed behind the state. -/
def Collectable (pidHash : Int → UInt64) (keyHash : UInt64 → UInt64) (s : WaitSystem) : WaitCall → Prop
  | .wait a pid _ => ∀ i, (s.procs.mem a).waits.First pid i →
    (s.procs.mem a).children ≠ [] ∧ (0 < pid → s.procs.lookupPid pidHash keyHash pid ≠ 0) ∧
    (s.procs.mem a).waits.Slides i
  | .poll a pid => ∀ i, (s.procs.mem a).waits.First pid i → (s.procs.mem a).waits.Slides i
  | _ => True

/-! ### Wait states in memory -/

private theorem readInt_congr {m m' : Mem} {a : Nat} (h : ∀ x, a ≤ x → x < a + 4 → m x = m' x) :
    readInt m a = readInt m' a := by
  unfold readInt
  rw [readLE_congr h]

private theorem readInt_writeInt_self {x : Int} (h : -2 ^ 31 ≤ x) (h' : x < 2 ^ 31) (m : Mem) (a : Nat) :
    readInt (writeInt m a x) a = x := by
  unfold readInt writeInt
  rw [readLE_writeLE_self]
  dsimp only
  split <;> omega

private theorem readInt_writeInt_disjoint {m : Mem} {a b : Nat} (h : a + 4 ≤ b ∨ b + 4 ≤ a) (x : Int) :
    readInt (writeInt m b x) a = readInt m a := by
  unfold readInt writeInt
  rw [readLE_writeLE_disjoint h]

namespace WaitQueue

variable {w : WaitQueue} {st : WaitState} {i j : Nat}

private theorem state_congr {w w' : WaitQueue} {i j : Nat}
    (h : ∀ x < waitStateSize, w.states (i * waitStateSize + x) = w'.states (j * waitStateSize + x)) :
    w.state i = w'.state j := by
  have hfield : ∀ o, o + 4 ≤ waitStateSize →
      readInt w.states (i * waitStateSize + o) = readInt w'.states (j * waitStateSize + o) := by
    intro o ho
    unfold readInt
    have hr : readLE w.states (i * waitStateSize + o) 4 = readLE w'.states (j * waitStateSize + o) 4 := by
      refine readLE_congr_shift fun k hk => ?_
      rw [Nat.add_assoc, Nat.add_assoc]
      exact h (o + k) (by omega)
    rw [hr]
  have h0 := hfield 0 (by decide)
  have h4 := hfield 4 (by decide)
  have h152 := hfield 152 (by decide)
  have h156 := hfield 156 (by decide)
  rw [Nat.add_zero, Nat.add_zero] at h0
  unfold state
  dsimp only
  rw [h0, h4, h152, h156]

theorem state_push_of_lt (h : i < w.len) (st : WaitState) (rusage : Mem) :
    (w.push st rusage).state i = w.state i := by
  refine state_congr fun x hx => ?_
  have hsize : waitStateSize = 160 := rfl
  have hlt : i * waitStateSize + x < w.len * waitStateSize := by
    have := Nat.mul_le_mul_right waitStateSize h
    rw [Nat.succ_mul] at this
    omega
  unfold push writeInt
  dsimp only
  rw [if_neg (by omega), writeLE_outside (by omega), writeLE_outside (by omega), writeLE_outside (by omega),
    writeLE_outside (by omega)]

theorem state_push_self (hpid : st.pid ∈ pidT) (hpgid : st.pgid ∈ pidT) (hstatus : st.status ∈ pidT)
    (hcode : st.code ∈ pidT) (rusage : Mem) : (w.push st rusage).state w.len = st := by
  obtain ⟨b, hb⟩ : ∃ b, b = w.len * waitStateSize := ⟨_, rfl⟩
  obtain ⟨m, hm⟩ : ∃ m, m = writeInt (writeInt (writeInt (writeInt w.states b st.pid) (b + 4) st.pgid) (b + 152)
    st.status) (b + 156) st.code := ⟨_, rfl⟩
  -- the resource usage is between the members
  have hfield : ∀ o, o + 4 ≤ 8 ∨ 152 ≤ o → readInt (w.push st rusage).states (b + o) = readInt m (b + o) := by
    intro o ho
    refine readInt_congr fun x h1 h2 => ?_
    unfold push
    dsimp only
    rw [← hb, ← hm, if_neg (by omega)]
  have hpid' : readInt m b = st.pid := by
    rw [hm, readInt_writeInt_disjoint (by omega), readInt_writeInt_disjoint (by omega),
      readInt_writeInt_disjoint (by omega), readInt_writeInt_self hpid.1 hpid.2]
  have hpgid' : readInt m (b + 4) = st.pgid := by
    rw [hm, readInt_writeInt_disjoint (by omega), readInt_writeInt_disjoint (by omega),
      readInt_writeInt_self hpgid.1 hpgid.2]
  have hstatus' : readInt m (b + 152) = st.status := by
    rw [hm, readInt_writeInt_disjoint (by omega), readInt_writeInt_self hstatus.1 hstatus.2]
  have hcode' : readInt m (b + 156) = st.code := by
    rw [hm, readInt_writeInt_self hcode.1 hcode.2]
  have h0 := hfield 0 (by omega)
  rw [Nat.add_zero] at h0
  unfold state
  dsimp only
  rw [← hb, h0, hfield 4 (by omega), hfield 152 (by omega), hfield 156 (by omega), hpid', hpgid', hstatus', hcode']

theorem state_pop_of_lt (h : j < i) : (w.pop i).state j = w.state j := by
  refine state_congr fun x hx => ?_
  have hlt : j * waitStateSize + x < i * waitStateSize := by
    have := Nat.mul_le_mul_right waitStateSize h
    rw [Nat.succ_mul] at this
    omega
  exact copy_outside (by omega)

theorem state_pop_of_le (hs : w.Slides i) (h : i ≤ j) (hj : j + 1 < w.len) : (w.pop i).state j = w.state (j + 1) := by
  refine state_congr fun x hx => ?_
  have hij := Nat.mul_le_mul_right waitStateSize h
  have hjl : j * waitStateSize + x < (w.len - 1) * waitStateSize := by
    have := Nat.mul_le_mul_right waitStateSize (show j + 1 ≤ w.len - 1 by omega)
    rw [Nat.succ_mul] at this
    omega
  have hsucc : ∀ n, (n + 1) * waitStateSize = n * waitStateSize + waitStateSize := fun n => Nat.succ_mul n _
  unfold pop
  dsimp only
  by_cases hn : j * waitStateSize + x < i * waitStateSize + (w.len - 1 - i)
  · obtain ⟨k, hk⟩ : ∃ k, j * waitStateSize + x = i * waitStateSize + k := ⟨_, (Nat.add_sub_cancel' (by omega)).symm⟩
    rw [hk, copy_inside (by omega), hsucc, hsucc]
    congr 1
    omega
  · rw [copy_outside (by omega), hs _ (by omega) hjl, hsucc]
    congr 1
    omega

end WaitQueue

/-! ### The states that a process holds -/

/-- The array holds the statuses, one after the other. -/
structure WaitQueue.Records (w : WaitQueue) (l : List ChildStatus) : Prop where
  len : w.len = l.length
  state : ∀ i st, l[i]? = some st → (w.state i).pid = st.pid ∧ (w.state i).status = st.mode ∧
    (w.state i).code = st.code
  valid : ∀ st ∈ l, st.pid ≠ 0 ∧ st.mode ≠ waitRunning

namespace WaitQueue

variable {w : WaitQueue} {l : List ChildStatus} {i : Nat} {pid : Int}

private theorem records_nil (m : Mem) : (⟨0, m⟩ : WaitQueue).Records [] :=
  ⟨rfl, fun i st h => by simp at h, fun st h => by cases h⟩

theorem Records.push (h : w.Records l) (st : WaitState) (hpid : st.pid ∈ pidT) (hpgid : st.pgid ∈ pidT)
    (hstatus : st.status ∈ pidT) (hcode : st.code ∈ pidT) (hvalid : st.pid ≠ 0 ∧ st.status ≠ waitRunning)
    (rusage : Mem) : (w.push st rusage).Records (l ++ [⟨st.pid, st.status, st.code⟩]) := by
  refine ⟨?_, ?_, ?_⟩
  · rw [List.length_append, ← h.len]
    rfl
  · intro i st' hi
    rcases Nat.lt_trichotomy i l.length with hlt | heq | hgt
    · rw [List.getElem?_append_left hlt] at hi
      rw [state_push_of_lt (h.len ▸ hlt)]
      exact h.state i st' hi
    · rw [heq, List.getElem?_append_right (le_refl _), Nat.sub_self] at hi
      cases hi
      rw [heq, ← h.len, state_push_self hpid hpgid hstatus hcode]
      exact ⟨rfl, rfl, rfl⟩
    · rw [List.getElem?_eq_none (by simp; omega)] at hi
      cases hi
  · intro st' hst'
    rcases List.mem_append.1 hst' with hst' | hst'
    · exact h.valid st' hst'
    · rw [List.mem_singleton.1 hst']
      exact hvalid

theorem Records.pop (h : w.Records l) (hi : i < w.len) (hs : w.Slides i) : (w.pop i).Records (l.eraseIdx i) := by
  refine ⟨?_, ?_, fun st hst => h.valid st (List.mem_of_mem_eraseIdx hst)⟩
  · rw [List.length_eraseIdx_of_lt (h.len ▸ hi), ← h.len]
    rfl
  · intro j st hj
    by_cases hji : j < i
    · rw [List.getElem?_eraseIdx_of_lt hji] at hj
      rw [state_pop_of_lt hji]
      exact h.state j st hj
    · rw [List.getElem?_eraseIdx_of_ge (by omega)] at hj
      have hlt := (List.getElem?_eq_some_iff.1 hj).1
      rw [state_pop_of_le hs (by omega) (by rw [h.len]; exact hlt)]
      exact h.state (j + 1) st hj

private theorem Records.first_iff (h : w.Records l) : w.First pid i ↔
    ∃ st, l[i]? = some st ∧ Ledger.Fits pid st ∧ ∀ j < i, ∀ st', l[j]? = some st' → ¬ Ledger.Fits pid st' := by
  unfold First Ledger.Fits
  constructor
  · rintro ⟨hi, hfit, hbefore⟩
    rw [h.len] at hi
    refine ⟨l[i], List.getElem?_eq_getElem hi, ?_, fun j hj st' hst' => ?_⟩
    · rwa [← (h.state i _ (List.getElem?_eq_getElem hi)).1]
    · rw [← (h.state j st' hst').1]
      exact hbefore j hj
  · rintro ⟨st, hst, hfit, hbefore⟩
    have hi := (List.getElem?_eq_some_iff.1 hst).1
    refine ⟨by rw [h.len]; exact hi, ?_, fun j hj => ?_⟩
    · rwa [(h.state i st hst).1]
    · have hjl : j < l.length := by omega
      rw [(h.state j _ (List.getElem?_eq_getElem hjl)).1]
      exact hbefore j hj _ (List.getElem?_eq_getElem hjl)

theorem Records.waitsFor_iff {p : Process} (h : p.waits.Records l) (hpid : pid = -1 ∨ 0 < pid)
    (hi : i < p.waits.len) :
    Processes.waitsFor p pid (p.waits.state i) = true ↔ pid = -1 ∨ (p.waits.state i).pid = pid := by
  have hst := List.getElem?_eq_getElem (h.len ▸ hi)
  have hrun : (p.waits.state i).status ≠ waitRunning := by
    rw [(h.state i _ hst).2.1]
    exact (h.valid _ (List.getElem_mem _)).2
  unfold Processes.waitsFor
  rcases hpid with rfl | hpos
  · simpa using hrun
  · have h1 : pid ≠ -1 := by omega
    have h2 : pid ≠ 0 := by omega
    simp [hpos, h1, h2, hrun]

private theorem Records.waitIndex_eq_some {p : Process} (h : p.waits.Records l) (hpid : pid = -1 ∨ 0 < pid) :
    Processes.waitIndex p pid = some i ↔ p.waits.First pid i := by
  unfold Processes.waitIndex First
  rw [List.find?_range_eq_some]
  constructor
  · rintro ⟨hfit, hi, hbefore⟩
    rw [List.mem_range] at hi
    refine ⟨hi, (h.waitsFor_iff hpid hi).1 hfit, fun j hj hfit' => ?_⟩
    have hnot := hbefore j hj
    rw [(h.waitsFor_iff hpid (by omega)).2 hfit'] at hnot
    cases hnot
  · rintro ⟨hi, hfit, hbefore⟩
    refine ⟨(h.waitsFor_iff hpid hi).2 hfit, List.mem_range.2 hi, fun j hj => ?_⟩
    have hnot := mt (h.waitsFor_iff hpid (by omega)).1 (hbefore j hj)
    simpa using hnot

private theorem Records.waitIndex_eq_none {p : Process} (h : p.waits.Records l) (hpid : pid = -1 ∨ 0 < pid)
    (hnone : Processes.waitIndex p pid = none) : ∀ st ∈ l, ¬ Ledger.Fits pid st := by
  intro st hst hfit
  obtain ⟨i, hi⟩ := List.mem_iff_getElem?.1 hst
  have hlt : i < p.waits.len := by
    rw [h.len]
    exact (List.getElem?_eq_some_iff.1 hi).1
  refine List.find?_eq_none.1 hnone i (List.mem_range.2 hlt) ((h.waitsFor_iff hpid hlt).2 ?_)
  rwa [(h.state i st hi).1]

end WaitQueue

private theorem erase_eq_eraseIdx_of_first {l : List ChildStatus} {i : Nat} {st : ChildStatus} (hi : l[i]? = some st)
    (hbefore : ∀ j < i, l[j]? ≠ some st) : l.erase st = l.eraseIdx i := by
  induction l generalizing i with
  | nil => cases hi
  | cons a l ih =>
    cases i with
    | zero =>
      cases hi
      rw [List.erase_cons_head]
      rfl
    | succ i =>
      have hne : a ≠ st := fun he => hbefore 0 (Nat.succ_pos i) (by rw [he]; rfl)
      rw [List.erase_cons_tail (by simpa using hne), List.eraseIdx_cons_succ,
        ih hi fun j hj => hbefore (j + 1) (Nat.succ_lt_succ hj)]

/-! ### What holds of the system -/

/-- The processes form the tree of the ledger, and every process holds the statuses that it has not collected. -/
structure WaitSystem.Keeps (pidHash : Int → UInt64) (keyHash : UInt64 → UInt64) (root init : Nat) (s : WaitSystem)
    (l : Ledger) : Prop where
  tree : s.procs.Inv pidHash keyHash root l.parent
  hasInit : s.procs.HasInit root init l.parent
  pid : ∀ a ∈ s.procs.queue, (s.procs.mem a).pid = l.pid a
  pgid : ∀ a ∈ s.procs.queue, (s.procs.mem a).pgid ∈ pidT
  waits : ∀ a ∈ s.procs.queue, (s.procs.mem a).waits.Records (l.due a)

section

variable {pidHash : Int → UInt64} {keyHash : UInt64 → UInt64} {root init : Nat} {s s' : WaitSystem} {l : Ledger}

namespace Processes

private theorem Inv.setWaits {p : Processes} {f : Family} (h : p.Inv pidHash keyHash root f) (a : Nat)
    (w : WaitQueue) : (p.set a { p.mem a with waits := w }).Inv pidHash keyHash root f := by
  have hmem : ∀ b, ∃ w', (p.set a { p.mem a with waits := w }).mem b = { p.mem b with waits := w' } := by
    intro b
    by_cases hb : b = a
    · subst hb
      exact ⟨w, set_mem_self ..⟩
    · exact ⟨(p.mem b).waits, set_mem_of_ne hb _⟩
  refine h.congr rfl rfl rfl (fun b => ?_) (fun b => ?_) (fun b => ?_) <;>
  · obtain ⟨w', hw'⟩ := hmem b
    rw [hw']

private theorem HasInit.setWaits {p : Processes} {f : Family} (h : p.HasInit root init f) (a : Nat) (w : WaitQueue) :
    (p.set a { p.mem a with waits := w }).HasInit root init f := by
  refine ⟨h.live, ?_, h.parent⟩
  by_cases hb : init = a
  · subst hb
    rw [set_mem_self]
    exact h.pid
  · rw [set_mem_of_ne hb]
    exact h.pid

end Processes

/-- A process gets another array of wait states, for the statuses that it then has. -/
private theorem WaitSystem.Keeps.setWaits (h : s.Keeps pidHash keyHash root init l) {a : Nat} {w : WaitQueue}
    {st : List ChildStatus} (hw : w.Records st) (dying : List Nat) (waiting : Nat → Option Int) :
    (⟨s.procs.set a { s.procs.mem a with waits := w }, dying, waiting⟩ : WaitSystem).Keeps pidHash keyHash root init
      { l with due := Function.update l.due a st } := by
  refine ⟨h.tree.setWaits a w, h.hasInit.setWaits a w, fun b hb => ?_, fun b hb => ?_, fun b hb => ?_⟩
  · dsimp only
    by_cases hba : b = a
    · subst hba
      rw [Processes.set_mem_self]
      exact h.pid b hb
    · rw [Processes.set_mem_of_ne hba]
      exact h.pid b hb
  · dsimp only
    by_cases hba : b = a
    · subst hba
      rw [Processes.set_mem_self]
      exact h.pgid b hb
    · rw [Processes.set_mem_of_ne hba]
      exact h.pgid b hb
  · dsimp only
    by_cases hba : b = a
    · subst hba
      rw [Processes.set_mem_self, Function.update_self]
      exact hw
    · rw [Processes.set_mem_of_ne hba, Function.update_of_ne hba]
      exact h.waits b hb

theorem WaitSystem.Keeps.fork (hinj : Set.InjOn pidHash pidT) (h : s.Keeps pidHash keyHash root init l)
    {parent child : Nat} {procs : Processes}
    (hstep : treeStep pidHash keyHash s.procs (.fork parent child) = some procs) :
    ({ s with procs := procs } : WaitSystem).Keeps pidHash keyHash root init
      ⟨l.parent.step init (.fork parent child), Function.update l.pid child (procs.mem child).pid,
        Function.update l.due child []⟩ := by
  obtain ⟨hp, -, hcq, pid, hf⟩ := Processes.fork_spec hstep
  have hne : ∀ {a}, a ∈ s.procs.queue → a ≠ child := fun ha he => hcq (he ▸ ha)
  have hq : ∀ {a}, a ∈ procs.queue ↔ a ∈ s.procs.queue ∨ a = child := by
    intro a
    rw [hf.queue, List.mem_append, List.mem_singleton]
  have hold : ∀ {a}, a ∈ s.procs.queue → ∃ c, procs.mem a = { s.procs.mem a with children := c } := by
    intro a ha
    by_cases hap : a = parent
    · rw [hap]
      exact ⟨_, hf.parentMem⟩
    · exact ⟨_, hf.other a hap (hne ha)⟩
  refine ⟨h.tree.fork init hinj hstep, h.hasInit.fork hstep, fun a ha => ?_, fun a ha => ?_, fun a ha => ?_⟩
  · rcases hq.1 ha with ha | rfl
    · obtain ⟨c, hc⟩ := hold ha
      dsimp only
      rw [hc, Function.update_of_ne (hne ha)]
      exact h.pid a ha
    · dsimp only
      rw [Function.update_self]
  · rcases hq.1 ha with ha | rfl
    · obtain ⟨c, hc⟩ := hold ha
      dsimp only
      rw [hc]
      exact h.pgid a ha
    · dsimp only
      rw [hf.childMem]
      exact h.pgid parent hp
  · rcases hq.1 ha with ha | rfl
    · obtain ⟨c, hc⟩ := hold ha
      dsimp only
      rw [hc, Function.update_of_ne (hne ha)]
      exact h.waits a ha
    · dsimp only
      rw [hf.childMem, Function.update_self]
      exact WaitQueue.records_nil _

theorem WaitSystem.Keeps.exit (hinj : Set.InjOn pidHash pidT) (h : s.Keeps pidHash keyHash root init l) {q : Nat}
    {procs : Processes} (hstep : treeStep pidHash keyHash s.procs (.exit q) = some procs) (dying : List Nat) :
    ({ s with procs := procs, dying := dying } : WaitSystem).Keeps pidHash keyHash root init
      { l with parent := l.parent.step init (.exit q) } := by
  obtain ⟨hq, -, -, hex⟩ := Processes.exit_spec hinj h.tree h.hasInit hstep
  obtain ⟨htree, hinit⟩ := h.tree.exit hinj h.hasInit hstep
  have hmem : ∀ {a}, a ∈ procs.queue → a ∈ s.procs.queue ∧ ∃ p c, procs.mem a =
      { s.procs.mem a with ppid := p, children := c } := by
    intro a ha
    rw [hex.queue, h.tree.nodup.mem_erase_iff] at ha
    exact ⟨ha.2, _, _, hex.other a ha.2 ha.1⟩
  refine ⟨htree, hinit, fun a ha => ?_, fun a ha => ?_, fun a ha => ?_⟩ <;> obtain ⟨ha, p, c, hm⟩ := hmem ha <;>
    dsimp only <;> rw [hm]
  · exact h.pid a ha
  · exact h.pgid a ha
  · exact h.waits a ha

private theorem WaitSystem.Keeps.fillWait (hinj : Set.InjOn pidHash pidT) (h : s.Keeps pidHash keyHash root init l)
    {a : Nat} (ha : a ∈ s.procs.queue) (ha0 : (s.procs.mem a).pid ≠ 0) {mode code : Int}
    (hmode : mode = waitExited ∨ mode = waitSignaled) (hcode : code ∈ pidT) (rusage : Mem) (dying : List Nat)
    (waiting : Nat → Option Int) : ∃ b, l.parent a = some b ∧
      (⟨s.procs.processFillWait pidHash keyHash a mode code rusage, dying, waiting⟩ : WaitSystem).Keeps
        pidHash keyHash root init
        { l with due := Function.update l.due b (l.due b ++ [⟨l.pid a, mode, code⟩]) } := by
  have hroot : a ≠ root := fun he => ha0 (he ▸ h.tree.rootLive.2)
  obtain ⟨b, hb⟩ := Option.ne_none_iff_exists'.1 (mt (h.tree.orphan a ha).1 hroot)
  obtain ⟨-, hbq, -, hpp⟩ := h.tree.parent a b hb
  have hb0 : b ≠ 0 := fun he => h.tree.nonnull (he ▸ hbq)
  have hlookup : s.procs.lookupPid pidHash keyHash (s.procs.mem a).ppid = b := by
    rw [hpp]
    exact (Processes.Maps.lookup_iff hinj (fun c hc => h.tree.pid_mem hc) h.tree.mapped (h.tree.pid_mem hbq) hb0).2
      ⟨hbq, rfl⟩
  refine ⟨b, hb, ?_⟩
  unfold Processes.processFillWait
  dsimp only
  rw [hlookup, if_neg hb0, ← h.pid a ha]
  have hstatus : mode ∈ pidT ∧ mode ≠ waitRunning := by
    rcases hmode with rfl | rfl <;> exact ⟨⟨by decide, by decide⟩, by decide⟩
  exact h.setWaits ((h.waits b hbq).push ⟨(s.procs.mem a).pid, (s.procs.mem b).pgid, mode, code⟩
    (h.tree.pid_mem ha) (h.pgid b hbq) hstatus.1 hcode ⟨ha0, hstatus.2⟩ rusage) dying waiting

/-- What `do_wait` returns, and what it leaves behind if the array can be closed. -/
theorem WaitSystem.Keeps.doWait (h : s.Keeps pidHash keyHash root init l) {a : Nat} (ha : a ∈ s.procs.queue)
    {pid : Int} (hpid : pid = -1 ∨ 0 < pid) :
    (∃ i st, (s.procs.mem a).waits.First pid i ∧ st ∈ l.due a ∧ Ledger.Fits pid st ∧ st.pid ≠ 0 ∧
      (s.procs.doWait a pid).1 = st.pid ∧ (s.procs.doWait a pid).2.1 = statusWord st.mode st.code ∧
      ((s.procs.mem a).waits.Slides i → ∀ dying waiting,
        (⟨(s.procs.doWait a pid).2.2, dying, waiting⟩ : WaitSystem).Keeps pidHash keyHash root init
          { l with due := Function.update l.due a ((l.due a).erase st) })) ∨
    ((∀ st ∈ l.due a, ¬ Ledger.Fits pid st) ∧ s.procs.doWait a pid = (0, 0, s.procs)) := by
  have hrec := h.waits a ha
  unfold Processes.doWait
  cases hw : Processes.waitIndex (s.procs.mem a) pid with
  | none =>
    exact Or.inr ⟨hrec.waitIndex_eq_none hpid hw, rfl⟩
  | some i =>
    have hfirst := (hrec.waitIndex_eq_some hpid).1 hw
    obtain ⟨st, hst, hfit, hbefore⟩ := hrec.first_iff.1 hfirst
    obtain ⟨h1, h2, h3⟩ := hrec.state i st hst
    refine Or.inl ⟨i, st, hfirst, List.mem_of_getElem? hst, hfit, (hrec.valid st (List.mem_of_getElem? hst)).1, h1,
      ?_, ?_⟩
    · dsimp only
      rw [h2, h3]
    · intro hs dying waiting
      rw [erase_eq_eraseIdx_of_first hst fun j hj he => hbefore j hj st he hfit]
      exact h.setWaits (hrec.pop hfirst.1 hs) dying waiting

private theorem WaitSystem.Keeps.collects (h : s.Keeps pidHash keyHash root init l) {a : Nat} (ha : a ∈ s.procs.queue)
    {pid : Int} (hpid : pid = -1 ∨ 0 < pid)
    (hs : ∀ i, (s.procs.mem a).waits.First pid i → (s.procs.mem a).waits.Slides i) {other : WaitResult}
    (hother : ∀ p w, other ≠ .returned p w) (dying : List Nat) (waiting : Nat → Option Int) :
    ∃ l', l.Collects a pid (if (s.procs.doWait a pid).1 ≠ 0 then
        .returned (s.procs.doWait a pid).1 (s.procs.doWait a pid).2.1 else other) l' ∧
      (⟨(s.procs.doWait a pid).2.2, dying, waiting⟩ : WaitSystem).Keeps pidHash keyHash root init l' := by
  rcases h.doWait ha hpid with ⟨i, st, hfirst, hst, hfit, hne, h1, h2, h3⟩ | ⟨hnone, hd⟩
  · refine ⟨_, Or.inl ⟨st, hst, hfit, ?_, rfl⟩, h3 (hs i hfirst) dying waiting⟩
    rw [if_pos (by rwa [h1]), h1, h2]
  · rw [hd]
    exact ⟨l, Or.inr ⟨hnone, fun p w => hother p w, rfl⟩, h.tree, h.hasInit, h.pid, h.pgid, h.waits⟩

theorem sysWait4Loop_eq (s : Processes) (a : Nat) (pid : Int) : sysWait4Loop s a pid =
    (if (s.doWait a pid).1 ≠ 0 then .returned (s.doWait a pid).1 (s.doWait a pid).2.1 else .blocked,
      (s.doWait a pid).2.2) := by
  unfold sysWait4Loop
  obtain ⟨ret, word, s'⟩ := s.doWait a pid
  dsimp only
  split <;> rfl

theorem waitArg_eq {pid : Int} (hpid : pid = -1 ∨ 0 < pid) : waitArg pid = pid := if_neg (by omega)

theorem sysWait4_eq {s : Processes} {a : Nat} {pid : Int} (hc : (s.mem a).children ≠ [])
    (hl : 0 < waitArg pid → s.lookupPid pidHash keyHash (waitArg pid) ≠ 0) (nohang : Bool) :
    sysWait4 pidHash keyHash s a pid nohang =
    (if (s.doWait a (waitArg pid)).1 ≠ 0 then
        .returned (s.doWait a (waitArg pid)).1 (s.doWait a (waitArg pid)).2.1
      else if nohang then .zero else .blocked, (s.doWait a (waitArg pid)).2.2) := by
  unfold sysWait4
  dsimp only
  rw [if_neg hc, if_neg fun hg => hl hg.1 hg.2]
  obtain ⟨ret, word, s'⟩ := s.doWait a (waitArg pid)
  dsimp only
  split
  · rfl
  · split <;> rfl

theorem sysWait4_error {s : Processes} {a : Nat} {pid : Int}
    (h : ¬ ((s.mem a).children ≠ [] ∧ (0 < waitArg pid → s.lookupPid pidHash keyHash (waitArg pid) ≠ 0)))
    (nohang : Bool) : ∃ e, sysWait4 pidHash keyHash s a pid nohang = (.error e, s) := by
  unfold sysWait4
  dsimp only
  by_cases hc : (s.mem a).children = []
  · exact ⟨_, if_pos hc⟩
  · rw [if_neg hc]
    refine ⟨.ESRCH, if_pos ?_⟩
    by_contra hn
    exact h ⟨hc, fun hp hl => hn ⟨hp, hl⟩⟩

/-- A call that meets the condition returns what the ledger allows, and the processes keep to the ledger. -/
private theorem waitStep_allows (hinj : Set.InjOn pidHash pidT) (h : s.Keeps pidHash keyHash root init l)
    {call : WaitCall} (hc : Collectable pidHash keyHash s call) {r : WaitResult}
    (hstep : waitStep pidHash keyHash s call = some (r, s')) :
    ∃ l', l.Allows init call r l' ∧ s'.Keeps pidHash keyHash root init l' := by
  cases call with
  | fork parent child =>
    unfold waitStep at hstep
    dsimp only at hstep
    split at hstep
    · obtain ⟨procs, hprocs, he⟩ := Option.map_eq_some_iff.1 hstep
      cases he
      exact ⟨_, ⟨_, rfl, rfl⟩, h.fork hinj hprocs⟩
    · cases hstep
  | terminate a mode code rusage =>
    unfold waitStep at hstep
    dsimp only at hstep
    split at hstep
    · rename_i hguard
      obtain ⟨⟨ha, -⟩, ha0, -, hmode, hcode1, hcode2⟩ := hguard
      cases hstep
      obtain ⟨b, hb, hkeeps⟩ := h.fillWait hinj ha ha0 hmode ⟨hcode1, hcode2⟩ rusage (a :: s.dying)
        (Function.update s.waiting a none)
      exact ⟨_, ⟨b, hb, rfl⟩, hkeeps⟩
    · cases hstep
  | exit a =>
    unfold waitStep at hstep
    dsimp only at hstep
    split at hstep
    · obtain ⟨procs, hprocs, he⟩ := Option.map_eq_some_iff.1 hstep
      cases he
      exact ⟨_, rfl, h.exit hinj hprocs _⟩
    · cases hstep
  | wait a pid nohang =>
    unfold waitStep at hstep
    dsimp only at hstep
    split at hstep
    · rename_i hguard
      obtain ⟨⟨ha, -⟩, -, hpid⟩ := hguard
      have harg := waitArg_eq hpid
      by_cases hfound : (s.procs.mem a).children ≠ [] ∧ (0 < pid → s.procs.lookupPid pidHash keyHash pid ≠ 0)
      · rw [sysWait4_eq hfound.1 (by rw [harg]; exact hfound.2), harg] at hstep
        cases hstep
        refine h.collects ha hpid (fun i hi => (hc i hi).2.2) (fun p w => ?_) _ _
        cases nohang <;> simp
      · -- the call fails, so no child with a report may match
        obtain ⟨e, he⟩ := sysWait4_error (by rw [harg]; exact hfound) nohang
        rw [he] at hstep
        cases hstep
        refine ⟨l, Or.inr ⟨?_, fun p w => by simp, rfl⟩, h.tree, h.hasInit, h.pid, h.pgid, h.waits⟩
        refine (h.waits a ha).waitIndex_eq_none hpid ?_
        cases hw : Processes.waitIndex (s.procs.mem a) pid with
        | none => rfl
        | some i =>
          obtain ⟨h1, h2, -⟩ := hc i (((h.waits a ha).waitIndex_eq_some hpid).1 hw)
          exact absurd ⟨h1, h2⟩ hfound
    · cases hstep
  | poll a pid =>
    unfold waitStep at hstep
    dsimp only at hstep
    split at hstep
    · rename_i hguard
      obtain ⟨⟨ha, -⟩, -, hpid⟩ := hguard
      rw [sysWait4Loop_eq] at hstep
      cases hstep
      exact h.collects ha hpid hc (fun p w => by simp) _ _
    · cases hstep

private theorem waitRun_allows (hinj : Set.InjOn pidHash pidT) (h : s.Keeps pidHash keyHash root init l)
    {calls : List WaitCall} {rs : List WaitResult} (hrun : waitRun pidHash keyHash calls s = some rs)
    (hc : Machine.Meets (fun s call => (waitStep pidHash keyHash s call).map Prod.snd)
      (Collectable pidHash keyHash) calls s) : l.AllowsRun init calls rs := by
  induction calls generalizing s l rs with
  | nil =>
    cases hrun
    trivial
  | cons call calls ih =>
    obtain ⟨⟨r, t⟩, ht, hrest⟩ := Option.bind_eq_some_iff.1 hrun
    obtain ⟨rs', hrs', rfl⟩ := Option.map_eq_some_iff.1 hrest
    obtain ⟨l', hl', hk⟩ := waitStep_allows hinj h hc.1 ht
    exact ⟨l', hl', ih hk hrs' (hc.2 t (congrArg (Option.map Prod.snd) ht))⟩

end

def startWait (procs : Processes) : WaitSystem := ⟨procs, [], fun _ => none⟩

private theorem start_keeps {pidHash : Int → UInt64} (hinj : Set.InjOn pidHash pidT) {keyHash : UInt64 → UInt64}
    {root init : Nat} (hroot : root ≠ 0) {procs : Processes}
    (hstart : treeStep pidHash keyHash (Processes.boot pidHash keyHash root) (.fork root init) = some procs) :
    (startWait procs).Keeps pidHash keyHash root init (Ledger.start root init) := by
  obtain ⟨htree, hinit⟩ := Processes.start_inv hinj hroot hstart
  obtain ⟨-, -, hiq, pid, hf⟩ := Processes.fork_spec hstart
  have hne : root ≠ init := fun he => hiq (he ▸ List.mem_singleton.2 rfl)
  have hq : ∀ {a}, a ∈ procs.queue → a = root ∨ a = init := by
    intro a ha
    rw [hf.queue] at ha
    simpa [Processes.boot] using ha
  have hroot' : procs.mem root = ⟨0, 0, 0, [(pid : Int)], ⟨0, fun _ => 0⟩⟩ := hf.parentMem
  have hinit' : procs.mem init = ⟨pid, 0, 0, [], ⟨0, fun _ => 0⟩⟩ := hf.childMem
  refine ⟨htree, hinit, fun a ha => ?_, fun a ha => ?_, fun a ha => ?_⟩ <;> rcases hq ha with rfl | rfl
  · change (procs.mem a).pid = Function.update (fun _ => (0 : Int)) init 1 a
    rw [hroot', Function.update_of_ne hne]
  · change (procs.mem a).pid = Function.update (fun _ => (0 : Int)) a 1 a
    rw [hinit.pid, Function.update_self]
  · change (procs.mem a).pgid ∈ pidT
    rw [hroot']
    exact (show (0 : Int) ∈ pidT from ⟨by decide, by decide⟩)
  · change (procs.mem a).pgid ∈ pidT
    rw [hinit']
    exact (show (0 : Int) ∈ pidT from ⟨by decide, by decide⟩)
  · change (procs.mem a).waits.Records []
    rw [hroot']
    exact WaitQueue.records_nil _
  · change (procs.mem a).waits.Records []
    rw [hinit']
    exact WaitQueue.records_nil _

/-- In every run of forks, terminations and exits after the fork of process 1, in which each wait that could collect a
status meets the condition, each status is handed out once, to the parent that asks for it. -/
theorem waits_kept {pidHash : Int → UInt64} (hinj : Set.InjOn pidHash pidT) (keyHash : UInt64 → UInt64)
    {root init : Nat} (hroot : root ≠ 0) {procs : Processes}
    (hstart : treeStep pidHash keyHash (Processes.boot pidHash keyHash root) (.fork root init) = some procs)
    {calls : List WaitCall} {rs : List WaitResult} (hrun : waitRun pidHash keyHash calls (startWait procs) = some rs)
    (hc : Machine.Meets (fun s call => (waitStep pidHash keyHash s call).map Prod.snd)
      (Collectable pidHash keyHash) calls (startWait procs)) : (Ledger.start root init).AllowsRun init calls rs :=
  waitRun_allows hinj (start_keeps hinj hroot hstart) hrun hc

def smallStart : Option Processes := treeStep UInt64.ofInt id (Processes.boot UInt64.ofInt id 10) (.fork 10 20)

def smallRun (calls : List WaitCall) : Option WaitSystem :=
  smallStart.bind fun procs =>
    Machine.run (fun s call => (waitStep UInt64.ofInt id s call).map Prod.snd) calls (startWait procs)

def timelyWait : List WaitCall :=
  [.fork 20 30, .terminate 30 waitExited 7 (fun _ => 0), .wait 20 2 false, .exit 30]

theorem waits_kept_small : ∃ procs rs, smallStart = some procs ∧
    waitRun UInt64.ofInt id timelyWait (startWait procs) = some rs ∧
    (Ledger.start 10 20).AllowsRun 20 timelyWait rs := by
  have hstart : smallStart.isSome = true := by decide
  obtain ⟨procs, hprocs⟩ := Option.isSome_iff_exists.1 hstart
  have hrun : smallStart.bind (fun p => waitRun UInt64.ofInt id timelyWait (startWait p)) =
      some [.forked 2, .done, .returned 2 (7 * 256), .done] := by decide
  have hstate : (smallRun (timelyWait.take 2)).all (fun s => (s.procs.mem 20).children ≠ [] ∧
      s.procs.lookupPid UInt64.ofInt id 2 ≠ 0 ∧ (s.procs.mem 20).waits.len = 1) = true := by decide
  rw [hprocs] at hrun
  refine ⟨procs, _, hprocs, hrun, waits_kept Processes.ofInt_injOn id (by decide) hprocs hrun ?_⟩
  refine ⟨trivial, fun s1 h1 => ⟨trivial, fun s2 h2 => ⟨fun i hi => ?_, fun _ _ => ⟨trivial, fun _ _ => trivial⟩⟩⟩⟩
  have hs2 : smallRun (timelyWait.take 2) = some s2 := by
    unfold smallRun timelyWait
    rw [hprocs]
    simp only [List.take, Machine.run, Option.bind_some, h1, h2]
  rw [hs2] at hstate
  obtain ⟨hc, hl, hlen⟩ := of_decide_eq_true hstate
  refine ⟨hc, fun _ => hl, fun x h1 h2 => ?_⟩
  rw [hlen] at h2
  omega

def lateWait : List WaitCall :=
  [.fork 20 30, .terminate 30 waitExited 7 (fun _ => 0), .exit 30, .wait 20 2 false]

/-- The status of the child is not returned. -/
theorem waits_not_kept : ∃ procs rs, smallStart = some procs ∧
    waitRun UInt64.ofInt id lateWait (startWait procs) = some rs ∧
    ¬ (Ledger.start 10 20).AllowsRun 20 lateWait rs := by
  have hstart : smallStart.isSome = true := by decide
  obtain ⟨procs, hprocs⟩ := Option.isSome_iff_exists.1 hstart
  have hrun : smallStart.bind (fun p => waitRun UInt64.ofInt id lateWait (startWait p)) =
      some [.forked 2, .done, .done, .error .ECHILD] := by decide
  rw [hprocs] at hrun
  refine ⟨procs, _, hprocs, hrun, ?_⟩
  rintro ⟨l1, ⟨p1, hp1, rfl⟩, l2, ⟨b, hb, rfl⟩, l3, rfl, l4, hcollects, -⟩
  cases hp1
  have hb20 : b = 20 := (Option.some.inj hb).symm
  subst hb20
  rcases hcollects with ⟨st, -, -, hr, -⟩ | ⟨hnone, -⟩
  · cases hr
  · exact hnone ⟨2, waitExited, 7⟩ (by decide) (Or.inr rfl)

end Pml.Kernel
