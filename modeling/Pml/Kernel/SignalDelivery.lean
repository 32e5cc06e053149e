import Pml.Kernel.Signals

/-!
# The delivery of signals

The records that `poll_signal` delivers are those that were sent, in their order and without loss, as long as no
handler is entered while signals are counted and no record is sent for the signal `NSIG` (`signals_delivered`).
`SIGKILL` is delivered exactly if it is not blocked, which the system calls allow, and if the counter reaches it
(`sigkill_iff`).
-/

namespace Pml.Kernel

open Machine

variable {Info : Type}

/-! ### No signal is lost or duplicated -/

/-- The records that were queued and delivered, for each signal. -/
structure SigLog (Info : Type) where
  state : SigState Info
  sent : Nat → List Info
  delivered : Nat → List (Option Info)

/-- The record of a call of `send_signal_thread`; a standard signal that is ready is not queued again. -/
def logSend (l : SigLog Info) (sig : Nat) (info : Info) : Nat → List Info :=
  if sigismember l.state.thread.sigready sig ∧ sig < sigrtmin then l.sent
  else Function.update l.sent sig (l.sent sig ++ [info])

/-- The record of a call of `poll_signal`. -/
def logPoll (l : SigLog Info) : Nat → List (Option Info) :=
  match pollSignal l.state.thread with
  | some (some (sig, info), _) => Function.update l.delivered sig (l.delivered sig ++ [info])
  | _ => l.delivered

def logStep (l : SigLog Info) (i : SigInput Info) : Option (SigLog Info) :=
  (signalStep l.state i).map fun s =>
    match i with
    | .send sig info _ => ⟨s, logSend l sig info, l.delivered⟩
    | .poll => ⟨s, l.sent, logPoll l⟩
    | _ => ⟨s, l.sent, l.delivered⟩

def logInit (zero : Info) : SigLog Info := ⟨sigInit zero, fun _ => [], fun _ => []⟩

def pendingInfo (t : SigThread Info) (sig : Nat) : List (Option Info) :=
  if sigismember t.sigready sig then [t.siginfo[sig - 1]?] else []

/-- Real-time records are delivered in the order in which they were sent; a standard signal is delivered once for each
time that it was queued, before it is queued again; and a signal that is ready and not blocked is found. -/
structure SigLog.Delivers (l : SigLog Info) : Prop where
  realtime : ∀ sig, sigrtmin ≤ sig → sig ≤ nsig → l.delivered sig <+: (l.sent sig).map some
  standard : ∀ sig, 1 ≤ sig → sig < sigrtmin →
    (l.sent sig).map some = l.delivered sig ++ pendingInfo l.state.thread sig
  found : ∀ sig, 1 ≤ sig → sig ≤ nsig → sigismember l.state.thread.sigready sig = true →
    sigismember l.state.thread.sigblocked sig = false →
    ∃ i info t, pollSignal l.state.thread = some (some (i, info), t) ∧ i ≠ 0

/-- The signal has a queue, and there is memory for it; a handler is entered when no signal is counted. -/
def DeliverySafe (l : SigLog Info) : SigInput Info → Prop
  | .send sig _ mem => sig.1 ≠ nsig ∧ mem = true
  | .enter => l.state.thread.sig = 0
  | _ => True

/-- All records that were sent are delivered or pending. -/
structure SigLog.Inv (l : SigLog Info) : Prop where
  accounted : l.state.Accounted
  standard : ∀ sig, 1 ≤ sig → sig < sigrtmin →
    (l.sent sig).map some = l.delivered sig ++ pendingInfo l.state.thread sig
  realtime : ∀ sig q, sigrtmin ≤ sig → sig ≤ nsig → l.state.thread.rtqueue[sig - sigrtmin]? = some q →
    (l.sent sig).map some = l.delivered sig ++ q.queue.take q.len
  last : l.delivered nsig = []

private theorem SigLog.Inv.delivers {l : SigLog Info} (h : l.Inv) : l.Delivers := by
  refine ⟨fun sig h1 h2 => ?_, h.standard, fun sig h1 h2 hr hb => ?_⟩
  · cases hq : l.state.thread.rtqueue[sig - sigrtmin]? with
    | some q =>
      rw [h.realtime sig q h1 h2 hq]
      exact List.prefix_append _ _
    | none =>
      have hlen := List.getElem?_eq_none_iff.1 hq
      rw [h.accounted.1.queues] at hlen
      have hlast : sig = nsig := by
        simp only [sigrtmin, nsig] at *
        omega
      rw [hlast, h.last]
      exact List.nil_prefix
  · rcases pollSignal_cases h.accounted.1 with ⟨-, hall⟩ | ⟨i, info, t, h3, -, -, hp, -⟩ | ⟨i, info, _, _, t, h3, -,
      hp, -⟩
    · rw [hall sig h1 h2 hr] at hb
      exact absurd hb (by simp)
    · exact ⟨i, some info, t, hp, by omega⟩
    · exact ⟨i, some info, t, hp, by simp only [sigrtmin] at h3; omega⟩

theorem SigLog.Inv.congr {l : SigLog Info} (h : l.Inv) {s : SigState Info} (hacc : s.Accounted)
    (hready : s.thread.sigready = l.state.thread.sigready) (hinfo : s.thread.siginfo = l.state.thread.siginfo)
    (hqueue : s.thread.rtqueue = l.state.thread.rtqueue) : SigLog.Inv ⟨s, l.sent, l.delivered⟩ := by
  refine ⟨hacc, fun sig h1 h2 => ?_, fun sig q h1 h2 hq => ?_, h.last⟩
  · unfold pendingInfo
    simp only [hready, hinfo]
    exact h.standard sig h1 h2
  · simp only [hqueue] at hq
    exact h.realtime sig q h1 h2 hq

section

variable {l : SigLog Info} (h : l.Inv)
include h

omit h in
private theorem pendingInfo_congr {t t' : SigThread Info} {sig : Nat}
    (hr : sigismember t'.sigready sig = true ↔ sigismember t.sigready sig = true)
    (hi : t'.siginfo[sig - 1]? = t.siginfo[sig - 1]?) : pendingInfo t' sig = pendingInfo t sig := by
  unfold pendingInfo
  rw [hi]
  exact if_congr hr rfl rfl

private theorem send_standard_inv {sig : Nat} (h1 : 1 ≤ sig) (h2 : sig < sigrtmin)
    (hr : sigismember l.state.thread.sigready sig = false) (info : Info) : ∃ t',
      sendSignalThread l.state.thread sig info true = some t' ∧
      SigLog.Inv ⟨{ l.state with thread := t' }, Function.update l.sent sig (l.sent sig ++ [info]), l.delivered⟩ := by
  obtain ⟨t', hsend, hacc, hready, hinfo, hqueue, -, -⟩ := send_standard h.accounted.1 h1 h2 hr info true
  have hvalid : 1 ≤ sig ∧ sig ≤ nsig := ⟨h1, by simp only [sigrtmin, nsig] at *; omega⟩
  refine ⟨t', hsend, ⟨hacc, h.accounted.2⟩, fun b hb1 hb2 => ?_, fun b q hb1 hb2 hq => ?_, h.last⟩
  · have hold := h.standard b hb1 hb2
    have hbv : 1 ≤ b ∧ b ≤ nsig := ⟨hb1, by simp only [sigrtmin, nsig] at *; omega⟩
    simp only
    by_cases hb : b = sig
    · subst hb
      have hlen : b - 1 < l.state.thread.siginfo.length := by
        rw [h.accounted.1.infos]
        omega
      have hnew : pendingInfo t' b = [some info] := by
        rw [pendingInfo, hready, hinfo, List.getElem?_set_self hlen,
          if_pos ((member_add hvalid hvalid _).2 (Or.inl rfl))]
      have hnone : pendingInfo l.state.thread b = [] := if_neg (by simp [hr])
      rw [hnone, List.append_nil] at hold
      rw [Function.update_self, List.map_append, hold, hnew]
      rfl
    · rw [Function.update_of_ne hb, pendingInfo_congr (t := l.state.thread) _ _, hold]
      · rw [hready, member_add hvalid hbv]
        simp [hb]
      · rw [hinfo, List.getElem?_set_ne (by omega)]
  · simp only [hqueue] at hq
    simp only
    rw [Function.update_of_ne (by omega)]
    exact h.realtime b q hb1 hb2 hq

private theorem send_realtime_inv {sig : Nat} (h1 : sigrtmin ≤ sig) (h2 : sig < nsig) (info : Info) : ∃ t',
      sendSignalThread l.state.thread sig info true = some t' ∧
      SigLog.Inv ⟨{ l.state with thread := t' }, Function.update l.sent sig (l.sent sig ++ [info]), l.delivered⟩ := by
  obtain ⟨q, hq, hholds, t', hsend, hacc, hready, hinfo, hqueue, -⟩ := send_realtime h.accounted.1 h1 h2 info
  have hvalid : 1 ≤ sig ∧ sig ≤ nsig := ⟨by simp only [sigrtmin] at *; omega, Nat.le_of_lt h2⟩
  refine ⟨t', hsend, ⟨hacc, h.accounted.2⟩, fun b hb1 hb2 => ?_, fun b q' hb1 hb2 hq' => ?_, h.last⟩
  · have hbv : 1 ≤ b ∧ b ≤ nsig := ⟨hb1, by simp only [sigrtmin, nsig] at *; omega⟩
    have hne : b ≠ sig := by omega
    simp only
    rw [Function.update_of_ne hne, pendingInfo_congr (t := l.state.thread) _ (by rw [hinfo]), h.standard b hb1 hb2]
    rw [hready, member_add hvalid hbv]
    simp [hne]
  · simp only [hqueue] at hq'
    by_cases hb : b = sig
    · subst hb
      rw [List.getElem?_set_self (List.getElem?_eq_some_iff.1 hq).1] at hq'
      obtain rfl := Option.some.inj hq'
      have hlen : (q.push info).len = q.len + 1 := rfl
      simp only
      rw [Function.update_self, List.map_append, h.realtime b q h1 hb2 hq, hlen, (hholds.push info).2]
      simp
    · rw [List.getElem?_set_ne (by omega)] at hq'
      simp only
      rw [Function.update_of_ne hb]
      exact h.realtime b q' hb1 hb2 hq'

private theorem poll_inv : ∃ r, pollSignal l.state.thread = some r ∧
    SigLog.Inv ⟨{ l.state with thread := r.2 }, l.sent, logPoll l⟩ := by
  unfold logPoll
  rcases pollSignal_cases h.accounted.1 with ⟨hp, -⟩ | ⟨i, info, t', h1, h2, hr, hp, hacc, hi, hready, hinfo,
    hqueue⟩ |
    ⟨i, info, q, q', t', h1, h2, hp, hacc, hq, hlen, htake, hready, hinfo, hqueue⟩
  · rw [hp]
    exact ⟨_, rfl, h.congr h.accounted rfl rfl rfl⟩
  · -- the record of a standard signal is delivered
    rw [hp]
    have hvalid : 1 ≤ i ∧ i ≤ nsig := ⟨h1, by simp only [sigrtmin, nsig] at *; omega⟩
    refine ⟨_, rfl, ⟨hacc, h.accounted.2⟩, fun b hb1 hb2 => ?_, fun b q hb1 hb2 hq => ?_, ?_⟩
    · have hold := h.standard b hb1 hb2
      have hbv : 1 ≤ b ∧ b ≤ nsig := ⟨hb1, by simp only [sigrtmin, nsig] at *; omega⟩
      simp only
      by_cases hb : b = i
      · subst hb
        have hnew : pendingInfo t' b = [] := by
          refine if_neg ?_
          rw [hready, member_del hvalid hvalid]
          simp
        have hone : pendingInfo l.state.thread b = [some info] := by rw [pendingInfo, if_pos hr, hi]
        rw [Function.update_self, hold, hnew, hone, List.append_nil]
      · rw [Function.update_of_ne hb, pendingInfo_congr (t := l.state.thread) _ (by rw [hinfo]), hold]
        rw [hready, member_del hvalid hbv]
        simp [hb]
    · simp only [hqueue] at hq
      simp only
      rw [Function.update_of_ne (by omega)]
      exact h.realtime b q hb1 hb2 hq
    · simp only
      rw [Function.update_of_ne (by simp only [nsig, sigrtmin] at *; omega)]
      exact h.last
  · -- the first record in the queue of a real-time signal is delivered
    rw [hp]
    have hvalid : 1 ≤ i ∧ i ≤ nsig := ⟨by simp only [sigrtmin] at *; omega, h2⟩
    have hlt := (List.getElem?_eq_some_iff.1 hq).1
    refine ⟨_, rfl, ⟨hacc, h.accounted.2⟩, fun b hb1 hb2 => ?_, fun b q1 hb1 hb2 hq1 => ?_, ?_⟩
    · have hbv : 1 ≤ b ∧ b ≤ nsig := ⟨hb1, by simp only [sigrtmin, nsig] at *; omega⟩
      have hne : b ≠ i := by omega
      simp only
      rw [Function.update_of_ne hne, pendingInfo_congr (t := l.state.thread) _ (by rw [hinfo]), h.standard b hb1 hb2]
      rw [hready]
      split
      · rw [member_del hvalid hbv]
        simp [hne]
      · rfl
    · simp only [hqueue] at hq1
      simp only
      by_cases hb : b = i
      · subst hb
        rw [List.getElem?_set_self hlt] at hq1
        obtain rfl := Option.some.inj hq1
        rw [Function.update_self, h.realtime b q hb1 hb2 hq, htake, hlen]
        simp
      · rw [List.getElem?_set_ne (by omega)] at hq1
        rw [Function.update_of_ne hb]
        exact h.realtime b q1 hb1 hb2 hq1
    · rw [h.accounted.1.queues] at hlt
      simp only
      rw [Function.update_of_ne (by simp only [nsig, sigrtmin] at *; omega)]
      exact h.last

end

private theorem logStep_inv (l : SigLog Info) (i : SigInput Info) (l' : SigLog Info) (h : l.Inv)
    (hsafe : DeliverySafe l i) (hs : logStep l i = some l') : l'.Inv := by
  obtain ⟨s', hs', rfl⟩ := Option.map_eq_some_iff.1 hs
  -- The other steps keep the account, and change neither the ready signals nor the records.
  have hother : SignalSafe l.state i → s'.thread.sigready = l.state.thread.sigready →
      s'.thread.siginfo = l.state.thread.siginfo → s'.thread.rtqueue = l.state.thread.rtqueue →
      SigLog.Inv ⟨s', l.sent, l.delivered⟩ := by
    intro hsig h1 h2 h3
    obtain ⟨s1, hs1, hacc⟩ := (signalStep_accounted_iff i h.accounted).1 hsig
    obtain rfl := Option.some.inj (hs'.symm.trans hs1)
    exact h.congr hacc h1 h2 h3
  cases i with
  | send sig info mem =>
    obtain ⟨sig, hsig1, hsig2⟩ := sig
    obtain ⟨hlast, hmem⟩ := hsafe
    simp only at hlast hmem
    subst hmem
    simp only [signalStep] at hs'
    simp only [logSend]
    by_cases hstd : sig < sigrtmin
    · cases hr : sigismember l.state.thread.sigready sig with
      | true =>
        have hsame : sendSignalThread l.state.thread sig info true = some l.state.thread := if_pos ⟨hr, hstd⟩
        rw [hsame] at hs'
        cases hs'
        rw [if_pos ⟨rfl, hstd⟩]
        exact h
      | false =>
        obtain ⟨t', hsend, hinv⟩ := send_standard_inv h hsig1 hstd hr info
        rw [hsend] at hs'
        cases hs'
        rw [if_neg (by simp)]
        exact hinv
    · obtain ⟨t', hsend, hinv⟩ :=
        send_realtime_inv h (Nat.le_of_not_lt hstd) (Nat.lt_of_le_of_ne hsig2 hlast) info
      rw [hsend] at hs'
      cases hs'
      rw [if_neg (by omega)]
      exact hinv
  | poll =>
    obtain ⟨r, hp, hinv⟩ := poll_inv h
    simp only [signalStep, hp] at hs'
    cases hs'
    exact hinv
  | handle sig =>
    obtain ⟨s1, hs1, -, -, h3, h4, h5, -⟩ := handleSignal_some l.state sig h.accounted.2
    obtain rfl := Option.some.inj (hs'.symm.trans hs1)
    exact hother trivial h3 h4 h5
  | enter =>
    simp only [signalStep] at hs'
    cases hs'
    refine hother (Or.inl hsafe) ?_ rfl rfl
    -- No signal is ready, so there is nothing to remove.
    refine BitVec.eq_of_getLsbD_eq fun i hi => ?_
    have hbit : sigShift (nsig - i) = i := by
      unfold sigShift
      simp only [nsig]
      omega
    have hidle := h.accounted.1.idle hsafe (show 1 ≤ nsig - i by simp only [nsig]; omega) (by omega)
    rw [sigismember_eq, hbit] at hidle
    have hdel := sigismember_del l.state.thread.sigready l.state.thread.sig (nsig - i)
    rw [sigismember_eq, sigismember_eq, hbit, hidle, Bool.false_and] at hdel
    rw [hidle]
    exact hdel
  | updateMask mask =>
    cases hs'
    exact hother trivial rfl rfl rfl
  | sigprocmask how set =>
    cases hs'
    obtain ⟨mask, hmask⟩ := sysSigprocmask_keeps l.state.thread how set
    refine hother trivial ?_ ?_ ?_
    all_goals rw [hmask]
  | sigsuspend mask =>
    cases hs'
    exact hother trivial rfl rfl rfl
  | sigaction sig act =>
    cases hs'
    refine hother trivial ?_ ?_ ?_
    all_goals rw [sysSigaction_thread]
  | signal sig handler =>
    cases hs'
    refine hother trivial ?_ ?_ ?_
    all_goals rw [sysSignal_thread]

private theorem logInit_inv (zero : Info) : (logInit zero).Inv := by
  refine ⟨sigInit_accounted zero, fun sig _ _ => ?_, fun sig q _ _ hq => ?_, rfl⟩
  · simp [logInit, pendingInfo, sigInit, sigismember]
  · rw [List.eq_of_mem_replicate (List.mem_of_getElem? hq)]
    rfl

/-- In every run whose inputs are safe, no signal is lost or duplicated. -/
theorem signals_delivered {zero : Info} {inputs : List (SigInput Info)} {l : SigLog Info}
    (hsafe : Meets logStep DeliverySafe inputs (logInit zero))
    (hrun : Machine.run logStep inputs (logInit zero) = some l) : l.Delivers :=
  (Meets.invariant logStep_inv (logInit_inv zero) hsafe hrun).delivers

def twoRecords : List (SigInput Nat) := [.send ⟨40, by decide⟩ 1 true, .send ⟨40, by decide⟩ 2 true, .poll]

theorem signals_delivered_twice : ∃ l, Machine.run logStep twoRecords (logInit 0) = some l ∧
    l.delivered 40 = [some 1] ∧ l.Delivers := by
  have hret : ((Machine.run logStep twoRecords (logInit 0)).map fun l => l.delivered 40) = some [some 1] := by decide
  obtain ⟨l, hrun, hdelivered⟩ := Option.map_eq_some_iff.1 hret
  have hsafe : Meets logStep DeliverySafe twoRecords (logInit 0) :=
    ⟨⟨by decide, rfl⟩, fun _ _ => ⟨⟨by decide, rfl⟩, fun _ _ => ⟨trivial, fun _ _ => trivial⟩⟩⟩
  exact ⟨l, hrun, hdelivered, signals_delivered hsafe hrun⟩

/-- A signal that waits while the handler of another one is entered is not found afterwards. -/
theorem not_signals_delivered : ∃ l, Machine.run logStep nestedSignals (logInit ()) = some l ∧ ¬l.Delivers := by
  refine ⟨_, rfl, fun h => ?_⟩
  obtain ⟨i, info, t, hp, -⟩ := h.found 12 (by decide) (by decide) (by decide) (by decide)
  rw [pollSignal, if_pos (by decide)] at hp
  simp at hp

/-! ### `SIGKILL` -/

/-- The signals of the first `n` calls of `poll_signal`, up to the call that returns zero. -/
def pollSeq : Nat → SigThread Info → List Nat
  | 0, _ => []
  | n + 1, t =>
    match pollSignal t with
    | some (some (i, _), t') => i :: pollSeq n t'
    | _ => []

/-- After `SIGKILL` was sent, calls of `poll_signal` return it, and `handle_signal` terminates the process. -/
def SigState.Kills (s : SigState Info) (info : Info) (mem : Bool) : Prop :=
  ∃ t, sendSignalThread s.thread sigkill info mem = some t ∧ (∃ n, sigkill ∈ pollSeq n t) ∧
    ∀ t' : SigThread Info,
      handleSignal { s with thread := t' } sigkill = some { s with thread := t', killed := some sigkill }

/-- The signals that `poll_signal` returns before `SIGKILL`. -/
def readyBefore (t : SigThread Info) : Finset Nat :=
  (Finset.Ico 1 sigkill).filter fun i => sigismember t.sigready i = true ∧ sigismember t.sigblocked i = false

/-- `SIGKILL` is not blocked, and the counter, with `SIGKILL`, exceeds the number of signals before it. -/
def SigkillOpen (t : SigThread Info) : Prop :=
  sigismember t.sigblocked sigkill = false ∧
    (readyBefore t).card < t.sig + if sigismember t.sigready sigkill then 0 else 1

private theorem mem_readyBefore {t : SigThread Info} {i : Nat} : i ∈ readyBefore t ↔
    (1 ≤ i ∧ i < sigkill) ∧ sigismember t.sigready i = true ∧ sigismember t.sigblocked i = false := by
  rw [readyBefore, Finset.mem_filter, Finset.mem_Ico]

private theorem pollSignal_some {t t' : SigThread Info} {i : Nat} {info : Option Info}
    (hp : pollSignal t = some (some (i, info), t')) :
    t.sig ≠ 0 ∧ nextSignal t = some i ∧ t'.sigblocked = t.sigblocked := by
  unfold pollSignal at hp
  split at hp
  · simp at hp
  · rename_i h0
    split at hp
    · simp at hp
    · rename_i j hn
      split at hp
      · split at hp
        · simp at hp
        · simp only [Option.some.injEq, Prod.mk.injEq] at hp
          obtain ⟨⟨rfl, -⟩, rfl⟩ := hp
          exact ⟨h0, hn, rfl⟩
      · split at hp
        · simp at hp
        · simp only [Option.some.injEq, Prod.mk.injEq] at hp
          obtain ⟨⟨rfl, -⟩, rfl⟩ := hp
          exact ⟨h0, hn, rfl⟩

private theorem pollSignal_standard {t : SigThread Info} {i : Nat} (hlen : t.siginfo.length = sigrtmin)
    (h0 : t.sig ≠ 0) (hn : nextSignal t = some i) (hi : i < sigrtmin) : ∃ info,
      pollSignal t = some (some (i, info), { t with sigready := sigdelset t.sigready i, sig := t.sig - 1 }) := by
  have hlt : i - 1 < t.siginfo.length := by
    rw [hlen]
    omega
  unfold pollSignal
  simp only [h0, hn, hi, ↓reduceIte, List.getElem?_eq_getElem hlt]
  exact ⟨_, rfl⟩

private theorem not_mem_pollSeq {n sig : Nat} {t : SigThread Info} (hb : sigismember t.sigblocked sig = true) :
    sig ∉ pollSeq n t := by
  induction n generalizing t with
  | zero => exact List.not_mem_nil
  | succ n ih =>
    rw [pollSeq]
    split
    · rename_i i info t' hp
      obtain ⟨-, hn, hblocked⟩ := pollSignal_some hp
      have hi := (nextSignal_some hn).2.2.1
      intro hmem
      rcases List.mem_cons.1 hmem with rfl | hmem
      · rw [hb] at hi
        exact absurd hi (by simp)
      · exact ih (by rw [hblocked, hb]) hmem
    · exact List.not_mem_nil

private theorem readyBefore_del {t : SigThread Info} {i : Nat} (hi : i ∈ readyBefore t) (n : Nat) :
    readyBefore { t with sigready := sigdelset t.sigready i, sig := n } = (readyBefore t).erase i := by
  have hvalid : ∀ {j}, 1 ≤ j ∧ j < sigkill → 1 ≤ j ∧ j ≤ nsig :=
    fun hj => ⟨hj.1, by simp only [sigkill, nsig] at *; omega⟩
  have hi' := (mem_readyBefore.1 hi).1
  ext j
  rw [Finset.mem_erase, mem_readyBefore, mem_readyBefore]
  simp only
  constructor
  · rintro ⟨hj, hr, hb⟩
    obtain ⟨hne, hr⟩ := (member_del (hvalid hi') (hvalid hj) _).1 hr
    exact ⟨hne, hj, hr, hb⟩
  · rintro ⟨hne, hj, hr, hb⟩
    exact ⟨hj, (member_del (hvalid hi') (hvalid hj) _).2 ⟨hne, hr⟩, hb⟩

private theorem nextSignal_before {t : SigThread Info} (hr : sigismember t.sigready sigkill = true)
    (hb : sigismember t.sigblocked sigkill = false) : ∃ i, nextSignal t = some i ∧
      (i ∈ readyBefore t ∨ (i = sigkill ∧ readyBefore t = ∅)) := by
  cases hn : nextSignal t with
  | none =>
    have := nextSignal_none hn (i := sigkill) (by decide) (by decide) hr
    rw [hb] at this
    exact absurd this (by simp)
  | some i =>
    obtain ⟨⟨h1, h2⟩, hri, hbi, hmin⟩ := nextSignal_some hn
    refine ⟨i, rfl, ?_⟩
    rcases Nat.lt_trichotomy i sigkill with hlt | rfl | hgt
    · exact Or.inl (mem_readyBefore.2 ⟨⟨h1, hlt⟩, hri, hbi⟩)
    · refine Or.inr ⟨rfl, Finset.eq_empty_of_forall_notMem fun j hj => ?_⟩
      obtain ⟨hj, hrj, hbj⟩ := mem_readyBefore.1 hj
      rw [hmin j hj.1 hj.2 hrj] at hbj
      exact absurd hbj (by simp)
    · have := hmin sigkill (by decide) hgt hr
      rw [hb] at this
      exact absurd this (by simp)

private theorem mem_pollSeq {k : Nat} {t : SigThread Info} (hlen : t.siginfo.length = sigrtmin)
    (hr : sigismember t.sigready sigkill = true) (hb : sigismember t.sigblocked sigkill = false)
    (hk : (readyBefore t).card = k) (hsig : k < t.sig) : sigkill ∈ pollSeq (k + 1) t := by
  induction k generalizing t with
  | zero =>
    obtain ⟨i, hn, hi | ⟨rfl, -⟩⟩ := nextSignal_before hr hb
    · rw [Finset.card_eq_zero.1 hk] at hi
      exact absurd hi (Finset.notMem_empty i)
    · obtain ⟨info, hp⟩ := pollSignal_standard hlen (by omega) hn (by decide)
      rw [pollSeq, hp]
      exact List.mem_cons_self
  | succ k ih =>
    obtain ⟨i, hn, hi | ⟨rfl, hempty⟩⟩ := nextSignal_before hr hb
    · have hlt := (mem_readyBefore.1 hi).1
      obtain ⟨info, hp⟩ := pollSignal_standard hlen (by omega) hn (by simp only [sigkill, sigrtmin] at *; omega)
      rw [pollSeq, hp]
      refine List.mem_cons_of_mem _ (ih hlen ?_ hb ?_ ?_)
      · refine (member_del ⟨hlt.1, ?_⟩ ⟨by decide, by decide⟩ _).2 ⟨by omega, hr⟩
        simp only [sigkill, nsig] at *
        omega
      · rw [readyBefore_del hi, Finset.card_erase_of_mem hi, hk, Nat.add_sub_cancel]
      · simp only
        omega
    · rw [hempty, Finset.card_empty] at hk
      exact absurd hk (by simp)

private theorem card_lt_of_mem_pollSeq {n : Nat} {t : SigThread Info} (hlen : t.siginfo.length = sigrtmin)
    (hr : sigismember t.sigready sigkill = true) (hb : sigismember t.sigblocked sigkill = false)
    (hmem : sigkill ∈ pollSeq n t) : (readyBefore t).card < t.sig := by
  induction n generalizing t with
  | zero => exact absurd hmem List.not_mem_nil
  | succ n ih =>
    rw [pollSeq] at hmem
    split at hmem
    · rename_i i info t' hp
      obtain ⟨h0, hn, -⟩ := pollSignal_some hp
      obtain ⟨j, hn', hj | ⟨rfl, hempty⟩⟩ := nextSignal_before hr hb
      · obtain rfl := Option.some.inj (hn.symm.trans hn')
        have hlt := (mem_readyBefore.1 hj).1
        obtain ⟨info', hp'⟩ := pollSignal_standard hlen h0 hn (by simp only [sigkill, sigrtmin] at *; omega)
        obtain ⟨-, rfl⟩ := Prod.mk.inj (Option.some.inj (hp.symm.trans hp'))
        rcases List.mem_cons.1 hmem with heq | hmem
        · omega
        · have hr' :=
            (member_del (b := sigkill) ⟨hlt.1, by simp only [sigkill, nsig] at *; omega⟩ ⟨by decide, by decide⟩
            t.sigready).2 ⟨by omega, hr⟩
          have hcard := ih (t := { t with sigready := sigdelset t.sigready i, sig := t.sig - 1 }) hlen hr' hb hmem
          rw [readyBefore_del hj, Finset.card_erase_of_mem hj] at hcard
          simp only at hcard
          omega
      · rw [hempty, Finset.card_empty]
        omega
    · exact absurd hmem List.not_mem_nil

private theorem send_sigkill {t : SigThread Info} (hlen : t.siginfo.length = sigrtmin) (info : Info) (mem : Bool) :
    ∃ t', sendSignalThread t sigkill info mem = some t' ∧ t'.siginfo.length = sigrtmin ∧
      sigismember t'.sigready sigkill = true ∧ t'.sigblocked = t.sigblocked ∧ readyBefore t' = readyBefore t ∧
      t'.sig = t.sig + if sigismember t.sigready sigkill then 0 else 1 := by
  cases hr : sigismember t.sigready sigkill with
  | true => exact ⟨t, if_pos ⟨hr, by decide⟩, hlen, hr, rfl, rfl, rfl⟩
  | false =>
    have hlt : sigkill - 1 < t.siginfo.length := by
      rw [hlen]
      decide
    unfold sendSignalThread
    rw [if_neg (by simp [hr])]
    simp only [show sigkill < sigrtmin by decide, hlt, ↓reduceIte]
    refine ⟨_, rfl, by simp [hlen],
      (member_add ⟨by decide, by decide⟩ ⟨by decide, by decide⟩ _).2 (Or.inl rfl), rfl, ?_, rfl⟩
    refine Finset.filter_congr fun j hj => ?_
    obtain ⟨hj1, hj2⟩ := Finset.mem_Ico.1 hj
    simp only
    rw [member_add ⟨by decide, by decide⟩ ⟨hj1, by simp only [sigkill, nsig] at *; omega⟩]
    have hne : j ≠ sigkill := by omega
    simp [hne]

def SigState.Sized (s : SigState Info) : Prop := s.thread.siginfo.length = sigrtmin ∧ s.sighandlers.length = nsig

private theorem sendSignalThread_infos {t t' : SigThread Info} {sig : Nat} {info : Info} {mem : Bool}
    (hs : sendSignalThread t sig info mem = some t') : t'.siginfo.length = t.siginfo.length := by
  unfold sendSignalThread at hs
  split at hs
  · cases hs
    rfl
  · simp only at hs
    split at hs
    · split at hs
      · cases hs
        exact List.length_set
      · cases hs
    · split at hs
      · cases hs
      · split at hs
        · cases hs
          rfl
        · cases hs
          rfl

private theorem pollSignal_infos {t : SigThread Info} {r : Option (Nat × Option Info) × SigThread Info}
    (hs : pollSignal t = some r) : r.2.siginfo = t.siginfo := by
  unfold pollSignal at hs
  split at hs
  · cases hs
    rfl
  · split at hs
    · cases hs
      rfl
    · split at hs
      · split at hs
        · cases hs
        · cases hs
          rfl
      · split at hs
        · cases hs
        · cases hs
          rfl

private theorem signalStep_sized (s : SigState Info) (i : SigInput Info) (s' : SigState Info) (h : s.Sized)
    (hs : signalStep s i = some s') : s'.Sized := by
  obtain ⟨h1, h2⟩ := h
  cases i with
  | send sig info mem =>
    obtain ⟨t', ht', rfl⟩ := Option.map_eq_some_iff.1 hs
    exact ⟨(sendSignalThread_infos ht').trans h1, h2⟩
  | poll =>
    obtain ⟨r, hr, rfl⟩ := Option.map_eq_some_iff.1 hs
    refine ⟨?_, h2⟩
    rw [pollSignal_infos hr]
    exact h1
  | handle sig =>
    obtain ⟨s1, hs1, h3, -, -, h4, -⟩ := handleSignal_some s sig h2
    obtain rfl := Option.some.inj (hs.symm.trans hs1)
    exact ⟨by rw [h4, h1], by rw [h3, h2]⟩
  | enter =>
    cases hs
    exact ⟨h1, h2⟩
  | updateMask mask =>
    cases hs
    exact ⟨h1, h2⟩
  | sigprocmask how set =>
    cases hs
    obtain ⟨mask, hmask⟩ := sysSigprocmask_keeps s.thread how set
    refine ⟨?_, h2⟩
    rw [hmask]
    exact h1
  | sigsuspend mask =>
    cases hs
    exact ⟨h1, h2⟩
  | sigaction sig act =>
    cases hs
    exact ⟨by rw [sysSigaction_thread, h1], (sysSigaction_handlers s sig act).trans h2⟩
  | signal sig handler =>
    cases hs
    exact ⟨by rw [sysSignal_thread, h1], (sysSignal_handlers s sig handler).trans h2⟩

private theorem handle_sigkill {s : SigState Info} (h : s.sighandlers.length = nsig) :
    handleSignal s sigkill = some { s with killed := some sigkill } := by
  have hlt : sigkill - 1 < s.sighandlers.length := by
    rw [h]
    decide
  unfold handleSignal
  rw [List.getElem?_eq_getElem hlt]
  simp only [ne_eq, not_true_eq_false, false_and, ↓reduceIte, true_or]

/-- After every run: `SIGKILL` terminates the process if and only if it is not blocked and the counter is not too
small for the signals before it. -/
theorem sigkill_iff {zero : Info} {inputs : List (SigInput Info)} {s : SigState Info}
    (hrun : Machine.run signalStep inputs (sigInit zero) = some s) (info : Info) (mem : Bool) :
    s.Kills info mem ↔ SigkillOpen s.thread := by
  have hinit : (sigInit zero).Sized := ⟨List.length_replicate, List.length_replicate⟩
  obtain ⟨h1, h2⟩ := run_invariant signalStep_sized hinit hrun
  obtain ⟨t, hsend, hlen, hr, hblocked, hbefore, hsig⟩ := send_sigkill h1 info mem
  unfold SigkillOpen
  rw [← hbefore, ← hsig, ← hblocked]
  constructor
  · rintro ⟨t1, hsend1, ⟨n, hmem⟩, -⟩
    obtain rfl := Option.some.inj (hsend.symm.trans hsend1)
    have hb : sigismember t.sigblocked sigkill = false := by
      rw [Bool.eq_false_iff]
      exact fun hb => not_mem_pollSeq hb hmem
    exact ⟨hb, card_lt_of_mem_pollSeq hlen hr hb hmem⟩
  · rintro ⟨hb, hcard⟩
    exact ⟨t, hsend, ⟨_, mem_pollSeq hlen hr hb rfl hcard⟩, fun t' => handle_sigkill h2⟩

/-- A process that has blocked `SIGUSR1`. -/
theorem sigkill_open : ∃ s : SigState Unit,
    Machine.run signalStep [.sigprocmask 0 (some (sigBit 10))] (sigInit ()) = some s ∧ s.Kills () true := by
  refine ⟨_, rfl,
    (sigkill_iff (show Machine.run signalStep [.sigprocmask 0 (some (sigBit 10))] (sigInit ()) = some _ from rfl)
    () true).2 ?_⟩
  exact ⟨by decide, by decide⟩

/-- A process that has blocked `SIGKILL`. -/
theorem not_sigkill : ∃ s : SigState Unit,
    Machine.run signalStep [.sigprocmask 0 (some (sigBit sigkill))] (sigInit ()) = some s ∧ ¬s.Kills () true := by
  refine ⟨_, rfl, ?_⟩
  rintro ⟨t, hsend, ⟨n, hmem⟩, -⟩
  have hblocked :
    (sendSignalThread (sysSigprocmask (sigInit ()).thread 0 (some (sigBit sigkill))).2 sigkill () true).map
      (fun t => sigismember t.sigblocked sigkill) = some true := by decide
  rw [hsend] at hblocked
  exact not_mem_pollSeq (Option.some.inj hblocked) hmem

end Pml.Kernel
