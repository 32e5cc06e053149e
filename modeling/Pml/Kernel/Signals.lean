import Mathlib.Algebra.Order.BigOperators.Group.List
import Mathlib.Algebra.Order.Ring.Nat
import Mathlib.Data.Finset.Card
import Mathlib.Order.Interval.Finset.Nat
import Pml.Basic
import Pml.Lib.Machine

/-!
# Signals (`kernel/signal.c`)

A thread keeps its pending signals in a mask, with one record for each standard signal and a queue of records for each
real-time signal, and counts them in `sig`.  `poll_signal_handler`, which enters a handler, resets the counter and
takes the counter for the number of a signal; the array of queues has no place for the signal `NSIG`; and
`send_signal_thread` does not undo its changes if there is no memory for a queue.  Without these three the counter,
the mask and the queues agree (`signals_accounted`).

A signal number is shifted into a mask as on the machine, which takes the shift count modulo 64.  A function is
undefined (`none`) where the code accesses an array outside of its bounds.
-/

namespace Pml.Kernel

open Machine

abbrev nsig : Nat := 64

abbrev sigrtmin : Nat := 32

def saSiginfo : Nat := 1 <<< 2
def saNodefer : Nat := 1 <<< 5

/-- `SIG_DFL` and `SIG_IGN` -/
def sigDfl : Nat := 0
def sigIgn : Nat := 1

/-- `sigset_t` -/
abbrev SigSet : Type := BitVec 64

/-! ### Masks -/

/-- The shift count of `1UL << (NSIG - sig)`. -/
def sigShift (sig : Nat) : Nat := ((nsig - sig : Int) % 64).toNat

def sigBit (sig : Nat) : SigSet := BitVec.twoPow 64 (sigShift sig)

def sigaddset (set : SigSet) (sig : Nat) : SigSet := set ||| sigBit sig

def sigdelset (set : SigSet) (sig : Nat) : SigSet := set &&& ~~~sigBit sig

def sigismember (set : SigSet) (sig : Nat) : Bool := set &&& sigBit sig != 0

/-! ### Threads -/

/-- `struct rtsig_queue`, with the memory of the queue; an entry is `none` if nothing was stored there. -/
structure RtsigQueue (Info : Type) where
  queue : List (Option Info)
  len : Nat

/-- The fields of `struct thread` for signals. -/
structure SigThread (Info : Type) where
  sig : Nat
  sigblocked : SigSet
  sigpending : SigSet
  sigready : SigSet
  siginfo : List Info
  rtqueue : List (RtsigQueue Info)
  handler : Nat
  hflags : Nat
  hsig : Nat
  hmask : SigSet

structure Sigaction where
  saHandler : Nat
  saSigaction : Nat
  saFlags : Nat
  saMask : SigSet

/-- A thread with the handlers of its process, and the signal that has terminated the process. -/
structure SigState (Info : Type) where
  thread : SigThread Info
  sighandlers : List Sigaction
  killed : Option Nat

variable {Info : Type}

def RtsigQueue.push (q : RtsigQueue Info) (info : Info) : RtsigQueue Info :=
  ⟨(q.queue ++ List.replicate (q.len + 1 - q.queue.length) none).take (q.len + 1) |>.set q.len (some info), q.len + 1⟩

/-- The first record, and the queue after the `memmove`. -/
def RtsigQueue.pop (q : RtsigQueue Info) : Option (Option Info × RtsigQueue Info) :=
  if q.len = 0 ∨ q.queue.length < q.len then none
  else q.queue.head?.map fun info =>
    (info, ⟨(q.queue.drop 1).take (q.len - 1) ++ q.queue.drop (q.len - 1), q.len - 1⟩)

/-- The signal at which the loop of `poll_signal` stops. -/
def nextSignal (t : SigThread Info) : Option Nat :=
  (List.range' 1 nsig).find? fun i => sigismember t.sigready i && !sigismember t.sigblocked i

/-- `poll_signal`: the signal with its record, or `none` for zero, and the thread afterwards. -/
def pollSignal (t : SigThread Info) : Option (Option (Nat × Option Info) × SigThread Info) :=
  if t.sig = 0 then some (none, t)
  else
    match nextSignal t with
    | none => some (none, t)
    | some i =>
      if i < sigrtmin then
        match t.siginfo[i - 1]? with
        | none => none
        | some info => some (some (i, some info), { t with sigready := sigdelset t.sigready i, sig := t.sig - 1 })
      else
        match t.rtqueue[i - sigrtmin]?.bind RtsigQueue.pop with
        | none => none
        | some (info, q) => some (some (i, info), { t with
            sigready := if q.len = 0 then sigdelset t.sigready i else t.sigready
            rtqueue := t.rtqueue.set (i - sigrtmin) q
            sig := t.sig - 1 })

/-- `poll_signal_handler`: the address, the signal and the mask to restore, and the thread afterwards. -/
def pollSignalHandler (t : SigThread Info) : (Nat × Nat × SigSet) × SigThread Info :=
  let blocked := t.sigblocked ||| t.hmask
  ((t.handler, t.hsig, t.sigblocked), { t with
    sigblocked := if t.hflags &&& saNodefer = 0 then sigaddset blocked t.hsig else blocked
    sigready := sigdelset t.sigready t.sig
    sig := 0
    handler := 0
    hflags := 0
    hsig := 0
    hmask := 0 })

def updateSignalMask (t : SigThread Info) (mask : SigSet) : SigThread Info := { t with sigblocked := mask }

/-- `send_signal_thread`, where `mem` tells whether `realloc` succeeds. -/
def sendSignalThread (t : SigThread Info) (sig : Nat) (info : Info) (mem : Bool) : Option (SigThread Info) :=
  if sigismember t.sigready sig ∧ sig < sigrtmin then some t
  else
    let pending := if sigismember t.sigblocked sig then sigaddset t.sigpending sig else t.sigpending
    let t := { t with sigpending := pending, sigready := sigaddset t.sigready sig }
    if sig < sigrtmin then
      if sig - 1 < t.siginfo.length then some { t with siginfo := t.siginfo.set (sig - 1) info, sig := t.sig + 1 }
      else none
    else
      match t.rtqueue[sig - sigrtmin]? with
      | none => none
      | some q =>
        if mem = false then some { t with rtqueue := t.rtqueue.set (sig - sigrtmin) { q with len := q.len + 1 } }
        else some { t with rtqueue := t.rtqueue.set (sig - sigrtmin) (q.push info), sig := t.sig + 1 }

/-! ### System calls -/

/-- `SIGKILL` and `SIGSTOP` -/
abbrev sigkill : Nat := 9
abbrev sigstop : Nat := 19

/-- The signals whose default action in `handle_signal` is to terminate the process: `SIGABRT`, `SIGALRM`, `SIGBUS`,
`SIGFPE`, `SIGHUP`, `SIGILL`, `SIGINT`, `SIGIO`, `SIGPIPE`, `SIGPROF`, `SIGPWR`, `SIGQUIT`, `SIGSEGV`, `SIGSTKFLT`,
`SIGSYS`, `SIGTERM`, `SIGTRAP`, `SIGUSR1`, `SIGUSR2`, `SIGVTALRM`, `SIGXCPU` and `SIGXFSZ`. -/
def terminates : List Nat := [6, 14, 7, 8, 1, 4, 2, 29, 13, 27, 30, 3, 11, 16, 31, 15, 5, 10, 12, 26, 24, 25]

/-- The signals whose default action is to stop the process: `SIGTSTP`, `SIGTTIN` and `SIGTTOU`. -/
def stops : List Nat := [20, 21, 22]

/-- `handle_signal`.  The signal to the parent process is left out. -/
def handleSignal (s : SigState Info) (sig : Nat) : Option (SigState Info) :=
  match s.sighandlers[sig - 1]? with
  | none => none
  | some h =>
    let plain := h.saFlags &&& saSiginfo = 0
    if sig ≠ sigkill ∧ plain ∧ h.saHandler = sigIgn then some s
    else if sig = sigkill ∨ (sig ∈ terminates ∧ plain ∧ h.saHandler = sigDfl) then some { s with killed := some sig }
    else if sig = sigstop ∨ (sig ∈ stops ∧ plain ∧ h.saHandler = sigDfl) then some s
    else some { s with thread := { s.thread with
      handler := if plain then h.saHandler else h.saSigaction
      hflags := h.saFlags
      hsig := sig
      hmask := h.saMask } }

def sysSigaction (s : SigState Info) (sig : Int) (act : Option Sigaction) :
    Except Errno (Option Sigaction) × SigState Info :=
  if sig ≤ 0 ∨ (nsig : Int) < sig ∨ sig = sigkill ∨ sig = sigstop then (.error .EINVAL, s)
  else (.ok s.sighandlers[sig.toNat - 1]?, { s with sighandlers := match act with
    | none => s.sighandlers
    | some act => s.sighandlers.set (sig.toNat - 1) act })

def sysSignal (s : SigState Info) (sig : Int) (handler : Nat) : Except Errno (Option Sigaction) × SigState Info :=
  if sig ≤ 0 ∨ (nsig : Int) < sig ∨ sig = sigkill ∨ sig = sigstop then (.error .EINVAL, s)
  else sysSigaction s sig (some ⟨handler, 0, 0, 0⟩)

/-- `sys_sigprocmask`: the old mask and the thread afterwards. -/
def sysSigprocmask (t : SigThread Info) (how : Int) (set : Option SigSet) : Except Errno SigSet × SigThread Info :=
  match set with
  | none => (.ok t.sigblocked, t)
  | some set =>
    if how = 0 then (.ok t.sigblocked, { t with sigblocked := t.sigblocked ||| set })
    else if how = 1 then (.ok t.sigblocked, { t with sigblocked := t.sigblocked &&& ~~~set })
    else if how = 2 then (.ok t.sigblocked, { t with sigblocked := set })
    else (.error .EINVAL, t)

/-- `sys_sigsuspend`; the pause does not return, so the mask is not restored. -/
def sysSigsuspend (t : SigThread Info) (mask : SigSet) : SigThread Info := { t with sigblocked := mask }

/-- A signal number that `sys_kill` sends. -/
abbrev SigNum : Type := { sig : Nat // 1 ≤ sig ∧ sig ≤ nsig }

/-- What can happen to a thread. -/
inductive SigInput (Info : Type)
  | send (sig : SigNum) (info : Info) (mem : Bool)
  | poll
  | handle (sig : SigNum)
  | enter
  | updateMask (mask : SigSet)
  | sigprocmask (how : Int) (set : Option SigSet)
  | sigsuspend (mask : SigSet)
  | sigaction (sig : Int) (act : Option Sigaction)
  | signal (sig : Int) (handler : Nat)

def signalStep (s : SigState Info) : SigInput Info → Option (SigState Info)
  | .send sig info mem => (sendSignalThread s.thread sig info mem).map fun t => { s with thread := t }
  | .poll => (pollSignal s.thread).map fun r => { s with thread := r.2 }
  | .handle sig => handleSignal s sig
  | .enter => some { s with thread := (pollSignalHandler s.thread).2 }
  | .updateMask mask => some { s with thread := updateSignalMask s.thread mask }
  | .sigprocmask how set => some { s with thread := (sysSigprocmask s.thread how set).2 }
  | .sigsuspend mask => some { s with thread := sysSigsuspend s.thread mask }
  | .sigaction sig act => some (sysSigaction s sig act).2
  | .signal sig handler => some (sysSignal s sig handler).2

def sigInit (zero : Info) : SigState Info :=
  ⟨⟨0, 0, 0, 0, List.replicate sigrtmin zero, List.replicate (nsig - sigrtmin) ⟨[], 0⟩, 0, 0, 0, 0⟩,
    List.replicate nsig ⟨0, 0, 0, 0⟩, none⟩

/-! ### Lemmas on masks -/

private theorem sigShift_lt (sig : Nat) : sigShift sig < 64 := by
  unfold sigShift
  omega

private theorem sigShift_inj {a b : Nat} (ha : 1 ≤ a ∧ a ≤ nsig) (hb : 1 ≤ b ∧ b ≤ nsig)
    (h : sigShift a = sigShift b) :
    a = b := by
  unfold sigShift at h
  simp only [nsig] at *
  omega

theorem sigismember_eq (set : SigSet) (sig : Nat) : sigismember set sig = set.getLsbD (sigShift sig) := by
  have hlt := sigShift_lt sig
  unfold sigismember sigBit
  rw [BitVec.and_twoPow]
  cases set.getLsbD (sigShift sig) with
  | false => simp
  | true =>
    simp only [↓reduceIte, bne_iff_ne, ne_eq]
    intro h
    have hbit := congrArg (fun x => x.getLsbD (sigShift sig)) h
    simp [hlt] at hbit

private theorem sigismember_add (set : SigSet) (a b : Nat) :
    sigismember (sigaddset set a) b = (sigismember set b || decide (sigShift a = sigShift b)) := by
  rw [sigismember_eq, sigismember_eq, sigaddset, sigBit, BitVec.getLsbD_or, BitVec.getLsbD_twoPow]
  simp [sigShift_lt]

theorem sigismember_del (set : SigSet) (a b : Nat) :
    sigismember (sigdelset set a) b = (sigismember set b && !decide (sigShift a = sigShift b)) := by
  rw [sigismember_eq, sigismember_eq, sigdelset, sigBit, BitVec.getLsbD_and, BitVec.getLsbD_not,
    BitVec.getLsbD_twoPow]
  simp [sigShift_lt]

section

variable {a b : Nat} (ha : 1 ≤ a ∧ a ≤ nsig) (hb : 1 ≤ b ∧ b ≤ nsig) (set : SigSet)
include ha hb

theorem member_add : sigismember (sigaddset set a) b = true ↔ b = a ∨ sigismember set b = true := by
  rw [sigismember_add, Bool.or_eq_true, decide_eq_true_iff]
  constructor
  · rintro (h | h)
    · exact Or.inr h
    · exact Or.inl (sigShift_inj ha hb h).symm
  · rintro (rfl | h)
    · exact Or.inr rfl
    · exact Or.inl h

theorem member_del : sigismember (sigdelset set a) b = true ↔ b ≠ a ∧ sigismember set b = true := by
  rw [sigismember_del, Bool.and_eq_true, Bool.not_eq_true', decide_eq_false_iff_not]
  constructor
  · rintro ⟨h1, h2⟩
    refine ⟨?_, h1⟩
    rintro rfl
    exact h2 rfl
  · rintro ⟨h1, h2⟩
    exact ⟨h2, fun h => h1 (sigShift_inj ha hb h).symm⟩

end

/-! ### The account -/

def standardReady (t : SigThread Info) : Finset Nat :=
  (Finset.Ico 1 sigrtmin).filter fun i => sigismember t.sigready i = true

def RtsigQueue.Holds (q : RtsigQueue Info) : Prop := q.len ≤ q.queue.length ∧ ∀ x ∈ q.queue.take q.len, x.isSome

/-- The counter, the mask and the queues describe the same signals. -/
structure SigThread.Accounted (t : SigThread Info) : Prop where
  count : t.sig = (standardReady t).card + (t.rtqueue.map (·.len)).sum
  ready : ∀ sig, sigrtmin ≤ sig → sig ≤ nsig →
    (sigismember t.sigready sig = true ↔ ∃ q, t.rtqueue[sig - sigrtmin]? = some q ∧ 0 < q.len)
  stored : ∀ q ∈ t.rtqueue, q.Holds
  infos : t.siginfo.length = sigrtmin
  queues : t.rtqueue.length = nsig - sigrtmin

/-- The signal has a queue, and there is memory for it; a handler is entered when no signal is counted, or only
`SIGHUP`. -/
def SignalSafe (s : SigState Info) : SigInput Info → Prop
  | .send sig _ mem => sig.1 ≠ nsig ∧ (sigrtmin ≤ sig.1 → mem = true)
  | .enter => s.thread.sig = 0 ∨ (s.thread.sig = 1 ∧ sigismember s.thread.sigready 1 = true)
  | _ => True

/-! ### Queues -/

theorem RtsigQueue.Holds.push {q : RtsigQueue Info} (h : q.Holds) (info : Info) :
    (q.push info).Holds ∧ (q.push info).queue.take (q.len + 1) = q.queue.take q.len ++ [some info] := by
  obtain ⟨h1, h2⟩ := h
  have hq : (q.push info).queue = q.queue.take q.len ++ [some info] := by
    unfold RtsigQueue.push
    simp only
    rw [List.set_eq_take_append_cons_drop, if_pos (by simp; omega), List.take_take, List.drop_take,
      Nat.min_eq_left (Nat.le_succ _), List.take_append_of_le_length h1]
    simp
  have hlen : (q.push info).len = q.len + 1 := rfl
  have htake : (q.push info).queue.take (q.len + 1) = q.queue.take q.len ++ [some info] := by
    rw [hq]
    exact List.take_of_length_le (by simp)
  refine ⟨⟨?_, ?_⟩, htake⟩
  · rw [hq, hlen]
    simp [h1]
  · rw [hlen, htake]
    intro x hx
    rcases List.mem_append.1 hx with hx | hx
    · exact h2 x hx
    · rw [List.mem_singleton.1 hx]
      rfl

theorem RtsigQueue.Holds.pop {q : RtsigQueue Info} (h : q.Holds) (hpos : 0 < q.len) : ∃ info q',
    q.pop = some (some info, q') ∧ q'.Holds ∧ q'.len = q.len - 1 ∧
      q.queue.take q.len = some info :: q'.queue.take (q.len - 1) := by
  obtain ⟨queue, len⟩ := q
  obtain ⟨h1, h2⟩ := h
  obtain ⟨n, rfl⟩ : ∃ n, len = n + 1 := ⟨len - 1, by simp only at hpos; omega⟩
  simp only at h1 h2
  cases queue with
  | nil => simp at h1
  | cons x queue =>
    rw [List.length_cons, Nat.add_le_add_iff_right] at h1
    rw [List.take_succ_cons] at h2
    obtain ⟨info, rfl⟩ := Option.isSome_iff_exists.1 (h2 x List.mem_cons_self)
    have htake : (queue.take n ++ (some info :: queue).drop n).take n = queue.take n :=
      List.take_left' (by simp [h1])
    refine ⟨info, ⟨queue.take n ++ (some info :: queue).drop n, n⟩, ?_, ⟨?_, ?_⟩, rfl, ?_⟩
    · rw [RtsigQueue.pop, if_neg (by simp; omega)]
      simp
    · simp [h1]
    · simp only [htake]
      exact fun y hy => h2 y (List.mem_cons_of_mem _ hy)
    · simp only [Nat.add_sub_cancel, htake, List.take_succ_cons]

private theorem sum_set {l : List Nat} {i x y : Nat} (h : l[i]? = some x) : (l.set i y).sum + x = l.sum + y := by
  induction l generalizing i with
  | nil => simp at h
  | cons a l ih =>
    cases i with
    | zero =>
      obtain rfl : a = x := by simpa using h
      simp only [List.set_cons_zero, List.sum_cons]
      omega
    | succ i =>
      have h1 := ih (i := i) (by simpa using h)
      simp only [List.set_cons_succ, List.sum_cons]
      omega

/-! ### Steps -/

section

variable {t : SigThread Info} (h : t.Accounted)
include h

theorem SigThread.Accounted.queue {sig : Nat} (h1 : sigrtmin ≤ sig) (h2 : sig ≤ nsig)
    (hr : sigismember t.sigready sig = true) : ∃ q, t.rtqueue[sig - sigrtmin]? = some q ∧ 0 < q.len ∧ q.Holds := by
  obtain ⟨q, hq, hpos⟩ := (h.ready sig h1 h2).1 hr
  exact ⟨q, hq, hpos, h.stored q (List.mem_of_getElem? hq)⟩

theorem SigThread.Accounted.congr {t' : SigThread Info} (hsig : t'.sig = t.sig) (hready : t'.sigready = t.sigready)
    (hinfo : t'.siginfo = t.siginfo) (hqueue : t'.rtqueue = t.rtqueue) : t'.Accounted := by
  obtain ⟨h1, h2, h3, h4, h5⟩ := h
  refine ⟨?_, ?_, ?_, ?_, ?_⟩
  · unfold standardReady at h1 ⊢
    rw [hsig, hready, hqueue, h1]
  · rw [hready, hqueue]
    exact h2
  · rw [hqueue]
    exact h3
  · rw [hinfo, h4]
  · rw [hqueue, h5]

/-- A queue is replaced by one with another length; the mask has the signal exactly if the queue is not empty. -/
private theorem SigThread.Accounted.setQueue {sig : Nat} (h1 : sigrtmin ≤ sig) (h2 : sig ≤ nsig)
    {q q' : RtsigQueue Info} (hq : t.rtqueue[sig - sigrtmin]? = some q) (hq' : q'.Holds) {t' : SigThread Info}
    (hqueue : t'.rtqueue = t.rtqueue.set (sig - sigrtmin) q') (hinfo : t'.siginfo.length = t.siginfo.length)
    (hsig : t'.sig + q.len = t.sig + q'.len)
    (hself : sigismember t'.sigready sig = true ↔ 0 < q'.len)
    (hother : ∀ b, 1 ≤ b → b ≤ nsig → b ≠ sig →
      (sigismember t'.sigready b = true ↔ sigismember t.sigready b = true)) :
    t'.Accounted := by
  have hlt := (List.getElem?_eq_some_iff.1 hq).1
  refine ⟨?_, ?_, ?_, ?_, ?_⟩
  · have hstd : standardReady t' = standardReady t := by
      refine Finset.filter_congr fun i hi => ?_
      obtain ⟨hi1, hi2⟩ := Finset.mem_Ico.1 hi
      exact hother i hi1 (by simp only [sigrtmin, nsig] at *; omega) (by omega)
    have hsum : (t'.rtqueue.map (·.len)).sum + q.len = (t.rtqueue.map (·.len)).sum + q'.len := by
      rw [hqueue, List.map_set]
      exact sum_set (by rw [List.getElem?_map, hq]; rfl)
    have hc := h.count
    rw [hstd]
    omega
  · intro b hb1 hb2
    by_cases hbs : b = sig
    · subst hbs
      rw [hself, hqueue, List.getElem?_set_self hlt]
      simp
    · rw [hother b (by simp only [sigrtmin] at *; omega) hb2 hbs, h.ready b hb1 hb2, hqueue,
        List.getElem?_set_ne (by omega)]
  · intro x hx
    rw [hqueue] at hx
    rcases List.mem_or_eq_of_mem_set hx with hx | rfl
    · exact h.stored x hx
    · exact hq'
  · rw [hinfo, h.infos]
  · rw [hqueue, List.length_set, h.queues]

private theorem SigThread.Accounted.setStandard {sig : Nat} (h2 : sig < sigrtmin) {t' : SigThread Info}
    (hqueue : t'.rtqueue = t.rtqueue) (hinfo : t'.siginfo.length = t.siginfo.length)
    (hsig : t'.sig + (standardReady t).card = t.sig + (standardReady t').card)
    (hother : ∀ b, 1 ≤ b → b ≤ nsig → b ≠ sig →
      (sigismember t'.sigready b = true ↔ sigismember t.sigready b = true)) :
    t'.Accounted := by
  refine ⟨?_, ?_, ?_, ?_, ?_⟩
  · have hc := h.count
    rw [hqueue]
    omega
  · intro b hb1 hb2
    rw [hother b (by simp only [sigrtmin] at *; omega) hb2 (by omega), hqueue]
    exact h.ready b hb1 hb2
  · rw [hqueue]
    exact h.stored
  · rw [hinfo, h.infos]
  · rw [hqueue, h.queues]

omit h in
private theorem len_le_sum {q : RtsigQueue Info} (hq : q ∈ t.rtqueue) : q.len ≤ (t.rtqueue.map (·.len)).sum :=
  List.single_le_sum (fun _ _ => Nat.zero_le _) _ (List.mem_map.2 ⟨q, hq, rfl⟩)

theorem SigThread.Accounted.idle (h0 : t.sig = 0) {sig : Nat} (h1 : 1 ≤ sig) (h2 : sig ≤ nsig) :
    sigismember t.sigready sig = false := by
  have hc := h.count
  rw [Bool.eq_false_iff]
  intro hr
  by_cases hstd : sig < sigrtmin
  · have hmem : sig ∈ standardReady t := Finset.mem_filter.2 ⟨Finset.mem_Ico.2 ⟨h1, hstd⟩, hr⟩
    have hpos := Finset.card_pos.2 ⟨sig, hmem⟩
    omega
  · obtain ⟨q, hq, hpos, -⟩ := h.queue (Nat.le_of_not_lt hstd) h2 hr
    have hle := len_le_sum (List.mem_of_getElem? hq)
    omega

end

theorem nextSignal_some {t : SigThread Info} {i : Nat} (hn : nextSignal t = some i) : (1 ≤ i ∧ i ≤ nsig) ∧
    sigismember t.sigready i = true ∧ sigismember t.sigblocked i = false ∧
    ∀ j, 1 ≤ j → j < i → sigismember t.sigready j = true → sigismember t.sigblocked j = true := by
  obtain ⟨h1, h2, h3⟩ := List.find?_range'_eq_some.1 hn
  simp only [Bool.and_eq_true, Bool.not_eq_true'] at h1
  rw [List.mem_range'_1] at h2
  refine ⟨⟨h2.1, by simp only [nsig] at *; omega⟩, h1.1, h1.2, fun j hj hji hr => ?_⟩
  simpa [hr] using h3 j hj hji

theorem nextSignal_none {t : SigThread Info} (hn : nextSignal t = none) {i : Nat} (h1 : 1 ≤ i) (h2 : i ≤ nsig)
    (hr : sigismember t.sigready i = true) : sigismember t.sigblocked i = true := by
  have hmem : i ∈ List.range' 1 nsig := by
    rw [List.mem_range'_1]
    simp only [nsig] at *
    omega
  simpa [hr] using List.find?_eq_none.1 hn i hmem

section

variable {t : SigThread Info} (h : t.Accounted)
include h

theorem send_standard {sig : Nat} (h1 : 1 ≤ sig) (h2 : sig < sigrtmin) (hr : sigismember t.sigready sig = false)
    (info : Info) (mem : Bool) : ∃ t', sendSignalThread t sig info mem = some t' ∧ t'.Accounted ∧
      t'.sigready = sigaddset t.sigready sig ∧ t'.siginfo = t.siginfo.set (sig - 1) info ∧ t'.rtqueue = t.rtqueue ∧
      t'.sig = t.sig + 1 ∧ t'.sigblocked = t.sigblocked := by
  have hvalid : 1 ≤ sig ∧ sig ≤ nsig := ⟨h1, by simp only [sigrtmin, nsig] at *; omega⟩
  have hlen : sig - 1 < t.siginfo.length := by
    rw [h.infos]
    omega
  unfold sendSignalThread
  rw [if_neg (by simp [hr])]
  simp only [h2, hlen, ↓reduceIte]
  refine ⟨_, rfl, h.setStandard h2 rfl (by simp) ?_ fun b hb1 hb2 hne => ?_, rfl, rfl, rfl, rfl, rfl⟩
  · have hins : (Finset.Ico 1 sigrtmin).filter (fun i => sigismember (sigaddset t.sigready sig) i = true) =
        insert sig (standardReady t) := by
      ext i
      simp only [standardReady, Finset.mem_insert, Finset.mem_filter, Finset.mem_Ico]
      constructor
      · rintro ⟨hi, hm⟩
        rcases (member_add hvalid ⟨hi.1, by simp only [sigrtmin, nsig] at *; omega⟩ _).1 hm with rfl | hm
        · exact Or.inl rfl
        · exact Or.inr ⟨hi, hm⟩
      · rintro (rfl | ⟨hi, hm⟩)
        · exact ⟨⟨h1, h2⟩, (member_add hvalid hvalid _).2 (Or.inl rfl)⟩
        · exact ⟨hi, (member_add hvalid ⟨hi.1, by simp only [sigrtmin, nsig] at *; omega⟩ _).2 (Or.inr hm)⟩
    have hnot : sig ∉ standardReady t := fun hmem => by simp [(Finset.mem_filter.1 hmem).2] at hr
    have hcard := Finset.card_insert_of_notMem hnot
    rw [← hins] at hcard
    simp only [standardReady] at hcard ⊢
    omega
  · rw [member_add hvalid ⟨hb1, hb2⟩]
    simp [hne]

theorem send_realtime {sig : Nat} (h1 : sigrtmin ≤ sig) (h2 : sig < nsig) (info : Info) :
    ∃ q, t.rtqueue[sig - sigrtmin]? = some q ∧ q.Holds ∧ ∃ t', sendSignalThread t sig info true = some t' ∧
      t'.Accounted ∧ t'.sigready = sigaddset t.sigready sig ∧ t'.siginfo = t.siginfo ∧
      t'.rtqueue = t.rtqueue.set (sig - sigrtmin) (q.push info) ∧ t'.sigblocked = t.sigblocked := by
  have hvalid : 1 ≤ sig ∧ sig ≤ nsig := ⟨by simp only [sigrtmin] at *; omega, Nat.le_of_lt h2⟩
  have hlt : sig - sigrtmin < t.rtqueue.length := by
    rw [h.queues]
    omega
  have hq := List.getElem?_eq_getElem hlt
  have hholds := h.stored _ (List.getElem_mem hlt)
  refine ⟨_, hq, hholds, ?_⟩
  unfold sendSignalThread
  rw [if_neg (by omega)]
  simp only [hq, Nat.not_lt.2 h1, ↓reduceIte, Bool.true_eq_false]
  refine ⟨_, rfl, h.setQueue h1 hvalid.2 hq (hholds.push info).1 rfl rfl ?_ ?_ fun b hb1 hb2 hne => ?_, rfl, rfl,
    rfl, rfl⟩
  · simp only [RtsigQueue.push]
    omega
  · simp only [RtsigQueue.push]
    exact ⟨fun _ => Nat.succ_pos _, fun _ => (member_add hvalid hvalid _).2 (Or.inl rfl)⟩
  · rw [member_add hvalid ⟨hb1, hb2⟩]
    simp [hne]

/-- `poll_signal` finds nothing, or it takes the record of a signal that is ready and not blocked. -/
theorem pollSignal_cases :
    (pollSignal t = some (none, t) ∧ ∀ i, 1 ≤ i → i ≤ nsig → sigismember t.sigready i = true →
      sigismember t.sigblocked i = true) ∨
    (∃ i info t', 1 ≤ i ∧ i < sigrtmin ∧ sigismember t.sigready i = true ∧
      pollSignal t = some (some (i, some info), t') ∧ t'.Accounted ∧ t.siginfo[i - 1]? = some info ∧
      t'.sigready = sigdelset t.sigready i ∧ t'.siginfo = t.siginfo ∧ t'.rtqueue = t.rtqueue) ∨
    ∃ i info q q' t', sigrtmin ≤ i ∧ i ≤ nsig ∧ pollSignal t = some (some (i, some info), t') ∧ t'.Accounted ∧
      t.rtqueue[i - sigrtmin]? = some q ∧ q'.len = q.len - 1 ∧
      q.queue.take q.len = some info :: q'.queue.take (q.len - 1) ∧
      t'.sigready = (if q'.len = 0 then sigdelset t.sigready i else t.sigready) ∧ t'.siginfo = t.siginfo ∧
      t'.rtqueue = t.rtqueue.set (i - sigrtmin) q' := by
  unfold pollSignal
  by_cases h0 : t.sig = 0
  · refine Or.inl ⟨if_pos h0, fun i h1 h2 hr => ?_⟩
    rw [h.idle h0 h1 h2] at hr
    exact absurd hr (by simp)
  rw [if_neg h0]
  cases hn : nextSignal t with
  | none => exact Or.inl ⟨rfl, fun i h1 h2 hr => nextSignal_none hn h1 h2 hr⟩
  | some i =>
    obtain ⟨hvalid, hr, -, -⟩ := nextSignal_some hn
    right
    by_cases hstd : i < sigrtmin
    · left
      have hlen : i - 1 < t.siginfo.length := by
        rw [h.infos]
        omega
      have hinfo := List.getElem?_eq_getElem hlen
      simp only [hstd, ↓reduceIte, hinfo]
      refine ⟨i, _, _, hvalid.1, hstd, hr, rfl, h.setStandard hstd rfl rfl ?_ fun b hb1 hb2 hne => ?_, hinfo, rfl,
        rfl, rfl⟩
      · -- one standard signal less is ready
        have hera : (Finset.Ico 1 sigrtmin).filter (fun j => sigismember (sigdelset t.sigready i) j = true) =
            (standardReady t).erase i := by
          ext j
          simp only [standardReady, Finset.mem_erase, Finset.mem_filter, Finset.mem_Ico]
          constructor
          · rintro ⟨hj, hm⟩
            obtain ⟨hne, hm⟩ := (member_del hvalid ⟨hj.1, by simp only [sigrtmin, nsig] at *; omega⟩ _).1 hm
            exact ⟨hne, hj, hm⟩
          · rintro ⟨hne, hj, hm⟩
            exact ⟨hj, (member_del hvalid ⟨hj.1, by simp only [sigrtmin, nsig] at *; omega⟩ _).2 ⟨hne, hm⟩⟩
        have hmem : i ∈ standardReady t := Finset.mem_filter.2 ⟨Finset.mem_Ico.2 ⟨hvalid.1, hstd⟩, hr⟩
        have hcard := Finset.card_erase_add_one hmem
        rw [← hera] at hcard
        simp only [standardReady] at hcard ⊢
        omega
      · rw [member_del hvalid ⟨hb1, hb2⟩]
        simp [hne]
    · right
      have hge := Nat.le_of_not_lt hstd
      -- the queue of a real-time signal that is ready is not empty
      obtain ⟨q, hq, hpos, hholds⟩ := h.queue hge hvalid.2 hr
      obtain ⟨info, q', hpop, hholds', hlen, htake⟩ := hholds.pop hpos
      simp only [hstd, ↓reduceIte, hq, Option.bind_some, hpop]
      refine ⟨i, info, q, q', _, hge, hvalid.2, rfl,
        h.setQueue hge hvalid.2 hq hholds' rfl rfl ?_ ?_ fun b hb1 hb2 hne => ?_, hq, hlen, htake, rfl, rfl, rfl⟩
      · simp only
        omega
      · by_cases hz : q'.len = 0
        · simp only [hz, ↓reduceIte]
          rw [member_del hvalid hvalid]
          simp
        · simp only [hz, ↓reduceIte]
          exact ⟨fun _ => Nat.pos_of_ne_zero hz, fun _ => hr⟩
      · by_cases hz : q'.len = 0
        · simp only [hz, ↓reduceIte]
          rw [member_del hvalid ⟨hb1, hb2⟩]
          simp [hne]
        · simp only [hz, ↓reduceIte]

private theorem send_last (info : Info) (mem : Bool) : sendSignalThread t nsig info mem = none := by
  have hq : t.rtqueue[nsig - sigrtmin]? = none := List.getElem?_eq_none (Nat.le_of_eq h.queues)
  unfold sendSignalThread
  rw [if_neg fun hand => absurd hand.2 (by decide)]
  simp only [hq, show ¬nsig < sigrtmin by decide, ↓reduceIte]

private theorem not_send_realtime {sig : Nat} (h1 : sigrtmin ≤ sig) (h2 : sig ≤ nsig) {info : Info}
    {t' : SigThread Info} (hs : sendSignalThread t sig info false = some t') : ¬t'.Accounted := by
  have hvalid : 1 ≤ sig ∧ sig ≤ nsig := ⟨by simp only [sigrtmin] at *; omega, h2⟩
  unfold sendSignalThread at hs
  rw [if_neg (by omega)] at hs
  simp only [Nat.not_lt.2 h1, ↓reduceIte] at hs
  split at hs
  · cases hs
  · rename_i q hq
    cases hs
    intro h'
    have hc := h.count
    have hc' := h'.count
    have hstd : (Finset.Ico 1 sigrtmin).filter (fun i => sigismember (sigaddset t.sigready sig) i = true) =
        standardReady t := by
      refine Finset.filter_congr fun i hi => ?_
      obtain ⟨hi1, hi2⟩ := Finset.mem_Ico.1 hi
      rw [member_add hvalid ⟨hi1, by simp only [sigrtmin, nsig] at *; omega⟩]
      have hne : i ≠ sig := by omega
      simp [hne]
    have hsum := sum_set (l := t.rtqueue.map (·.len)) (i := sig - sigrtmin) (x := q.len) (y := q.len + 1)
      (by rw [List.getElem?_map, hq]; rfl)
    unfold standardReady at hc'
    rw [hstd, List.map_set] at hc'
    simp only at hc'
    omega

/-- Entering a handler keeps the account exactly if nothing was counted, or only `SIGHUP`. -/
private theorem enter_iff : (pollSignalHandler t).2.Accounted ↔
    t.sig = 0 ∨ (t.sig = 1 ∧ sigismember t.sigready 1 = true) := by
  have hc := h.count
  have hstd : ∀ b, b ∈ standardReady t ↔ (1 ≤ b ∧ b < sigrtmin) ∧ sigismember t.sigready b = true := fun b => by
    rw [standardReady, Finset.mem_filter, Finset.mem_Ico]
  constructor
  · intro h'
    have hc' : 0 = _ := h'.count
    have hsum : (t.rtqueue.map (·.len)).sum = 0 := (Nat.add_eq_zero_iff.1 hc'.symm).2
    -- The mask has lost one bit, and now it is empty.
    have hbit : ∀ b ∈ standardReady t, sigShift t.sig = sigShift b := by
      intro b hb
      obtain ⟨⟨h1, h2⟩, hr⟩ := (hstd b).1 hb
      have hidle : sigismember (sigdelset t.sigready t.sig) b = false :=
        h'.idle rfl h1 (by simp only [sigrtmin, nsig] at *; omega)
      rw [sigismember_del, hr] at hidle
      simpa using hidle
    have hcard : (standardReady t).card ≤ 1 := by
      refine Finset.card_le_one.2 fun a ha b hb => ?_
      obtain ⟨⟨h1, h2⟩, -⟩ := (hstd a).1 ha
      obtain ⟨⟨h3, h4⟩, -⟩ := (hstd b).1 hb
      simp only [sigrtmin] at h2 h4
      exact sigShift_inj ⟨h1, by simp only [nsig]; omega⟩ ⟨h3, by simp only [nsig]; omega⟩
        ((hbit a ha).symm.trans (hbit b hb))
    by_cases h0 : t.sig = 0
    · exact Or.inl h0
    · have h1 : t.sig = 1 := by omega
      obtain ⟨b, hb⟩ := Finset.card_pos.1 (show 0 < (standardReady t).card by omega)
      obtain ⟨⟨hb1, hb2⟩, hr⟩ := (hstd b).1 hb
      have hshift := hbit b hb
      rw [h1] at hshift
      simp only [sigrtmin] at hb2
      obtain rfl := sigShift_inj ⟨by decide, by decide⟩ ⟨hb1, by simp only [nsig]; omega⟩ hshift
      exact Or.inr ⟨h1, hr⟩
  · intro hcond
    have hsum : (t.rtqueue.map (·.len)).sum = 0 := by
      rcases hcond with h0 | ⟨h1, hr⟩
      · omega
      · have hpos := Finset.card_pos.2 ⟨1, (hstd 1).2 ⟨⟨by decide, by decide⟩, hr⟩⟩
        omega
    have hempty : ∀ q ∈ t.rtqueue, ¬0 < q.len := fun q hq hpos => by
      have hle := len_le_sum hq
      omega
    have hidle : ∀ b, 1 ≤ b → b ≤ nsig → sigismember (sigdelset t.sigready t.sig) b = false := by
      intro b hb1 hb2
      rw [Bool.eq_false_iff]
      intro hb
      rw [sigismember_del, Bool.and_eq_true, Bool.not_eq_true', decide_eq_false_iff_not] at hb
      rcases hcond with h0 | ⟨h1, hr⟩
      · rw [h.idle h0 hb1 hb2] at hb
        exact absurd hb.1 (by simp)
      · by_cases hlt : b < sigrtmin
        · have hone : (standardReady t).card ≤ 1 := by omega
          have heq := Finset.card_le_one.1 hone b ((hstd b).2 ⟨⟨hb1, hlt⟩, hb.1⟩) 1
            ((hstd 1).2 ⟨⟨by decide, by decide⟩, hr⟩)
          rw [h1, heq] at hb
          exact hb.2 rfl
        · obtain ⟨q, hq, hpos, -⟩ := h.queue (Nat.le_of_not_lt hlt) hb2 hb.1
          exact hempty q (List.mem_of_getElem? hq) hpos
    refine ⟨?_, fun sig h1 h2 => ?_, h.stored, h.infos, h.queues⟩
    · have hnone : standardReady (pollSignalHandler t).2 = ∅ := by
        refine Finset.filter_eq_empty_iff.2 fun b hb => ?_
        obtain ⟨hb1, hb2⟩ := Finset.mem_Ico.1 hb
        have := hidle b hb1 (by simp only [sigrtmin, nsig] at *; omega)
        simp [pollSignalHandler, this]
      rw [hnone, Finset.card_empty, Nat.zero_add]
      exact hsum.symm
    · constructor
      · intro hr
        have := hidle sig (by simp only [sigrtmin] at *; omega) h2
        simp [pollSignalHandler, this] at hr
      · rintro ⟨q, hq, hpos⟩
        exact absurd hpos (hempty q (List.mem_of_getElem? hq))

end

theorem sysSigprocmask_keeps (t : SigThread Info) (how : Int) (set : Option SigSet) :
    ∃ mask, (sysSigprocmask t how set).2 = { t with sigblocked := mask } := by
  unfold sysSigprocmask
  split
  · exact ⟨t.sigblocked, rfl⟩
  · split
    · exact ⟨_, rfl⟩
    · split
      · exact ⟨_, rfl⟩
      · split
        · exact ⟨_, rfl⟩
        · exact ⟨t.sigblocked, rfl⟩

theorem sysSigaction_thread (s : SigState Info) (sig : Int) (act : Option Sigaction) :
    (sysSigaction s sig act).2.thread = s.thread := by
  unfold sysSigaction
  split
  · rfl
  · rfl

theorem sysSignal_thread (s : SigState Info) (sig : Int) (handler : Nat) :
    (sysSignal s sig handler).2.thread = s.thread := by
  unfold sysSignal
  split
  · rfl
  · exact sysSigaction_thread s sig _

theorem sysSigaction_handlers (s : SigState Info) (sig : Int) (act : Option Sigaction) :
    (sysSigaction s sig act).2.sighandlers.length = s.sighandlers.length := by
  unfold sysSigaction
  split
  · rfl
  · cases act with
    | none => rfl
    | some act => exact List.length_set

theorem sysSignal_handlers (s : SigState Info) (sig : Int) (handler : Nat) :
    (sysSignal s sig handler).2.sighandlers.length = s.sighandlers.length := by
  unfold sysSignal
  split
  · rfl
  · exact sysSigaction_handlers s sig _

theorem handleSignal_some (s : SigState Info) (sig : SigNum) (hlen : s.sighandlers.length = nsig) :
    ∃ s', handleSignal s sig = some s' ∧ s'.sighandlers = s.sighandlers ∧ s'.thread.sig = s.thread.sig ∧
      s'.thread.sigready = s.thread.sigready ∧ s'.thread.siginfo = s.thread.siginfo ∧
      s'.thread.rtqueue = s.thread.rtqueue ∧ s'.thread.sigblocked = s.thread.sigblocked := by
  have hlt : sig.1 - 1 < s.sighandlers.length := by
    have := sig.2
    omega
  unfold handleSignal
  rw [List.getElem?_eq_getElem hlt]
  simp only
  split
  · exact ⟨s, rfl, rfl, rfl, rfl, rfl, rfl, rfl⟩
  · split
    · exact ⟨_, rfl, rfl, rfl, rfl, rfl, rfl, rfl⟩
    · split
      · exact ⟨s, rfl, rfl, rfl, rfl, rfl, rfl, rfl⟩
      · exact ⟨_, rfl, rfl, rfl, rfl, rfl, rfl, rfl⟩

def SigState.Accounted (s : SigState Info) : Prop := s.thread.Accounted ∧ s.sighandlers.length = nsig

/-- A step exists and keeps the account exactly if its input is safe. -/
theorem signalStep_accounted_iff {s : SigState Info} (i : SigInput Info) (h : s.Accounted) :
    SignalSafe s i ↔ ∃ s', signalStep s i = some s' ∧ s'.Accounted := by
  obtain ⟨ht, hlen⟩ := h
  cases i with
  | send sig info mem =>
    obtain ⟨sig, hsig1, hsig2⟩ := sig
    simp only [SignalSafe, signalStep]
    by_cases hlast : sig = nsig
    · -- the last signal is past the end of the queues
      subst hlast
      rw [send_last ht]
      simp
    · by_cases hstd : sig < sigrtmin
      · refine iff_of_true ⟨hlast, fun hge => absurd hstd (Nat.not_lt.2 hge)⟩ ?_
        cases hr : sigismember s.thread.sigready sig with
        | true =>
          have hsame : sendSignalThread s.thread sig info mem = some s.thread := if_pos ⟨hr, hstd⟩
          rw [hsame]
          exact ⟨s, rfl, ht, hlen⟩
        | false =>
          obtain ⟨t', hsend, ht', -⟩ := send_standard ht hsig1 hstd hr info mem
          rw [hsend]
          exact ⟨_, rfl, ht', hlen⟩
      · have hge := Nat.le_of_not_lt hstd
        cases mem with
        | true =>
          obtain ⟨q, -, -, t', hsend, ht', -⟩ := send_realtime ht hge (Nat.lt_of_le_of_ne hsig2 hlast) info
          refine iff_of_true ⟨hlast, fun _ => rfl⟩ ?_
          rw [hsend]
          exact ⟨_, rfl, ht', hlen⟩
        | false =>
          -- without memory the queue is counted one record longer than it is
          refine iff_of_false (fun hand => absurd (hand.2 hge) (by simp)) ?_
          rintro ⟨s', hs', hacc⟩
          obtain ⟨t', hsend, rfl⟩ := Option.map_eq_some_iff.1 hs'
          exact not_send_realtime ht hge hsig2 hsend hacc.1
  | poll =>
    refine iff_of_true trivial ?_
    simp only [signalStep]
    rcases pollSignal_cases ht with ⟨hp, -⟩ | ⟨_, _, t', -, -, -, hp, ht', -⟩ | ⟨_, _, _, _, t', -, -, hp, ht', -⟩
    · rw [hp]
      exact ⟨_, rfl, ht, hlen⟩
    · rw [hp]
      exact ⟨_, rfl, ht', hlen⟩
    · rw [hp]
      exact ⟨_, rfl, ht', hlen⟩
  | handle sig =>
    refine iff_of_true trivial ?_
    obtain ⟨s', hs', h1, h2, h3, h4, h5, -⟩ := handleSignal_some s sig hlen
    exact ⟨s', hs', ht.congr h2 h3 h4 h5, by rw [h1, hlen]⟩
  | enter =>
    simp only [SignalSafe, signalStep]
    rw [← enter_iff ht]
    exact ⟨fun h => ⟨_, rfl, h, hlen⟩, fun ⟨s', hs', h⟩ => by cases hs'; exact h.1⟩
  | updateMask mask => exact iff_of_true trivial ⟨_, rfl, ht.congr rfl rfl rfl rfl, hlen⟩
  | sigprocmask how set =>
    obtain ⟨mask, hmask⟩ := sysSigprocmask_keeps s.thread how set
    refine iff_of_true trivial ⟨_, rfl, ?_, hlen⟩
    rw [hmask]
    exact ht.congr rfl rfl rfl rfl
  | sigsuspend mask => exact iff_of_true trivial ⟨_, rfl, ht.congr rfl rfl rfl rfl, hlen⟩
  | sigaction sig act =>
    refine iff_of_true trivial ⟨_, rfl, ?_, (sysSigaction_handlers s sig act).trans hlen⟩
    rw [sysSigaction_thread]
    exact ht
  | signal sig handler =>
    refine iff_of_true trivial ⟨_, rfl, ?_, (sysSignal_handlers s sig handler).trans hlen⟩
    rw [sysSignal_thread]
    exact ht

theorem sigInit_accounted (zero : Info) : (sigInit zero).Accounted := by
  refine ⟨⟨?_, fun sig h1 h2 => ?_, ?_, List.length_replicate, List.length_replicate⟩, List.length_replicate⟩
  · have hnone : standardReady (sigInit zero).thread = ∅ := by
      refine Finset.filter_eq_empty_iff.2 fun b _ => ?_
      simp [sigInit, sigismember]
    rw [hnone]
    simp [sigInit]
  · refine iff_of_false (by simp [sigInit, sigismember]) ?_
    rintro ⟨q, hq, hpos⟩
    rw [List.eq_of_mem_replicate (List.mem_of_getElem? hq)] at hpos
    exact absurd hpos (by simp)
  · intro q hq
    rw [List.eq_of_mem_replicate hq]
    exact ⟨Nat.le_refl _, by simp⟩

/-- For every run from a new thread on: all inputs are safe if and only if every part of the run stays inside the
arrays and leads to a state in which the counter, the mask and the queues agree. -/
theorem signals_accounted (zero : Info) (inputs : List (SigInput Info)) :
    Meets signalStep SignalSafe inputs (sigInit zero) ↔
      ∀ p, p <+: inputs → ∃ s, Machine.run signalStep p (sigInit zero) = some s ∧ s.thread.Accounted ∧
        s.sighandlers.length = nsig :=
  meets_iff (fun _ i h => signalStep_accounted_iff i h) (sigInit_accounted zero)

def nestedSignals : List (SigInput Unit) :=
  [.sigaction 10 (some ⟨0x1000, 0, 0, 0⟩), .send ⟨10, by decide⟩ () true, .send ⟨12, by decide⟩ () true, .poll,
    .handle ⟨10, by decide⟩, .enter]

theorem not_signals_accounted : ∃ s, Machine.run signalStep nestedSignals (sigInit ()) = some s ∧
    ¬s.thread.Accounted := by
  refine ⟨_, rfl, fun h => ?_⟩
  exact absurd h.count (by decide)

end Pml.Kernel
