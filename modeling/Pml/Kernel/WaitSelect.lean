import Pml.Kernel.DoWait

/-!
# Which children `sys_wait4` selects (`kernel/wait.c`, `kernel/process.c`, `kernel/pid.c`)

`sys_wait4` distinguishes positive arguments, 0, -1 and numbers below -1, which are to select a child, the process
group of the caller, any child and a process group.  But the group that `process_fill_wait` records is that of the
parent, since the variable of the process has been overwritten by then, and an argument below -1 is negated and taken
for a process ID.  So the last two classes select by the wrong number; the states that are selected are the right ones
if the wrong number and the right one agree on the first state that counts (`sysWait4_selects_iff`).
-/

namespace Pml.Kernel

/-- A child that has terminated: its process ID, its process group and that of its parent at that time, the mode and
the code. -/
structure ChildExit where
  pid : Int
  pgid : Int
  callerGroup : Int
  mode : Int
  code : Int
  deriving DecidableEq

/-- `sys_setpgid` of the process at `a`, where `sid` tells the sessions of the processes. -/
def sysSetpgid (pidHash : Int → UInt64) (keyHash : UInt64 → UInt64) (sid : Nat → Int) (s : Processes) (a : Nat)
    (pid pgid : Int) : Except Errno Unit × Processes :=
  if pgid < 0 then (.error .EINVAL, s)
  else
    let process := if pid ≠ 0 then s.lookupPid pidHash keyHash pid else a
    if process = 0 then (.error .ESRCH, s)
    else
      let pgid := if pgid = 0 then (s.mem process).pid else pgid
      if sid process = pid then (.error .EPERM, s)
      else
        let leader := s.lookupPid pidHash keyHash pgid
        if leader = 0 then (.error .ESRCH, s)
        else if sid process ≠ sid leader then (.error .EPERM, s)
        else (.ok (), s.set process { s.mem process with pgid := pgid })

section

variable (pidHash : Int → UInt64) (keyHash : UInt64 → UInt64)

/-- The queue of the process at `a` has recorded the exits.  They are recorded by `process_fill_wait` of children, and
collected by waits that close the array without a loss; everything else that happens to the processes leaves the queue
alone. -/
inductive Recorded (a : Nat) : Processes → List ChildExit → Prop
  | start {s : Processes} (h : (s.mem a).waits.len = 0) : Recorded a s []
  | fill {s : Processes} {cs : List ChildExit} (h : Recorded a s cs) {b : Nat}
    (hparent : s.lookupPid pidHash keyHash (s.mem b).ppid = a) (ha : a ≠ 0) (hpid : (s.mem b).pid ∈ pidT)
    (hne : (s.mem b).pid ≠ 0) (hpgid : (s.mem b).pgid ∈ pidT) (hgroup : (s.mem a).pgid ∈ pidT) {mode code : Int}
    (hmode : mode = waitExited ∨ mode = waitSignaled) (hcode : code ∈ pidT) (rusage : ByteMemory.Mem) :
    Recorded a (s.processFillWait pidHash keyHash b mode code rusage)
      (cs ++ [⟨(s.mem b).pid, (s.mem b).pgid, (s.mem a).pgid, mode, code⟩])
  | collect {s : Processes} {cs : List ChildExit} (h : Recorded a s cs) {i : Nat} (hi : i < (s.mem a).waits.len)
    (hs : (s.mem a).waits.Slides i) :
    Recorded a (s.set a { s.mem a with waits := (s.mem a).waits.pop i }) (cs.eraseIdx i)
  | other {s s' : Processes} {cs : List ChildExit} (h : Recorded a s cs) (hw : (s'.mem a).waits = (s.mem a).waits) :
    Recorded a s' cs

/-- A call of `sys_wait4`, or a later turn of its loop. -/
inductive WaitTurn
  | call (nohang : Bool)
  | again
  deriving DecidableEq

def waitTurn (s : Processes) (a : Nat) (pid : Int) : WaitTurn → WaitResult × Processes
  | .call nohang => sysWait4 pidHash keyHash s a pid nohang
  | .again => sysWait4Loop s a (waitArg pid)

/-- The call does not fail with `ECHILD` or `ESRCH`. -/
def Waits (s : Processes) (a : Nat) (pid : Int) : WaitTurn → Prop
  | .call _ => (s.mem a).children ≠ [] ∧
    (0 < waitArg pid → s.lookupPid pidHash keyHash (waitArg pid) ≠ 0)
  | .again => True

def Selects (pid group : Int) (c : ChildExit) : Prop :=
  if 0 < pid then c.pid = pid else if pid = 0 then c.pgid = group else if pid = -1 then True else c.pgid = -pid

/-- A state that is returned is that of a child that the wait is for, and 0 is returned only if there is none. -/
structure SelectsRight (s : Processes) (a : Nat) (cs : List ChildExit) (pid : Int) (turn : WaitTurn) : Prop where
  returned : ∀ p w, (waitTurn pidHash keyHash s a pid turn).1 = .returned p w → ∃ i c,
    FirstMatch (s.mem a) (waitArg pid) i ∧ cs[i]? = some c ∧ p = c.pid ∧ w = statusWord c.mode c.code ∧
    Selects pid (s.mem a).pgid c
  zero : (waitTurn pidHash keyHash s a pid turn).1 = .zero → ∀ c ∈ cs, ¬ Selects pid (s.mem a).pgid c

/-- The first exit of the one kind is also of the other kind; if there is none, then there is none of the other kind
either, when it matters. -/
def FirstAgrees (cs : List ChildExit) (P Q : ChildExit → Prop) (matters : Prop) : Prop :=
  (∀ (i : Nat) c, cs[i]? = some c → P c → (∀ j < i, ∀ d, cs[j]? = some d → ¬ P d) → Q c) ∧
  ((∀ c ∈ cs, ¬ P c) → matters → ∀ c ∈ cs, ¬ Q c)

/-- The wait is for one child or for any, or the call fails, or the recorded group of the parent, and the process ID
for an argument below -1, agree with the group of the child. -/
def SelectsWell (s : Processes) (a : Nat) (cs : List ChildExit) (pid : Int) (turn : WaitTurn) : Prop :=
  pid = -1 ∨ 0 < pid ∨ ¬ Waits pidHash keyHash s a pid turn ∨
  (pid = 0 ∧ FirstAgrees cs (fun c => c.callerGroup = (s.mem a).pgid) (fun c => c.pgid = (s.mem a).pgid)
    (turn = .call true)) ∨
  (pid < -1 ∧ FirstAgrees cs (fun c => pid = -2 ^ 31 ∨ c.pid = -pid) (fun c => c.pgid = -pid) (turn = .call true))

end

section

variable {pidHash : Int → UInt64} {keyHash : UInt64 → UInt64} {s : Processes} {a : Nat} {cs : List ChildExit}
  {pid : Int}

/-- The queue holds the recorded states. -/
structure HoldsExits (w : WaitQueue) (cs : List ChildExit) : Prop where
  len : w.len = cs.length
  state : ∀ (i : Nat) c, cs[i]? = some c → w.state i = ⟨c.pid, c.callerGroup, c.mode, c.code⟩
  valid : ∀ c ∈ cs, c.pid ≠ 0 ∧ c.mode ≠ waitRunning ∧ c.pgid ∈ pidT

theorem HoldsExits.push {w : WaitQueue} (h : HoldsExits w cs) {c : ChildExit} (hpid : c.pid ∈ pidT)
    (hgroup : c.callerGroup ∈ pidT) (hmode : c.mode = waitExited ∨ c.mode = waitSignaled) (hcode : c.code ∈ pidT)
    (hne : c.pid ≠ 0) (hpgid : c.pgid ∈ pidT) (rusage : ByteMemory.Mem) :
    HoldsExits (w.push ⟨c.pid, c.callerGroup, c.mode, c.code⟩ rusage) (cs ++ [c]) := by
  have hstatus : c.mode ∈ pidT ∧ c.mode ≠ waitRunning := by
    rcases hmode with he | he
    · rw [he]
      exact ⟨⟨by decide, by decide⟩, by decide⟩
    · rw [he]
      exact ⟨⟨by decide, by decide⟩, by decide⟩
  refine ⟨?_, fun i d hi => ?_, fun d hd => ?_⟩
  · rw [List.length_append, ← h.len]
    rfl
  · rcases Nat.lt_trichotomy i cs.length with hlt | heq | hgt
    · rw [List.getElem?_append_left hlt] at hi
      rw [WaitQueue.state_push_of_lt (h.len ▸ hlt)]
      exact h.state i d hi
    · rw [heq, List.getElem?_append_right (le_refl _), Nat.sub_self] at hi
      obtain rfl := Option.some.inj hi
      rw [heq, ← h.len]
      exact WaitQueue.state_push_self hpid hgroup hstatus.1 hcode rusage
    · rw [List.getElem?_eq_none (by rw [List.length_append, List.length_singleton]; omega)] at hi
      cases hi
  · rcases List.mem_append.1 hd with hd | hd
    · exact h.valid d hd
    · rw [List.mem_singleton.1 hd]
      exact ⟨hne, hstatus.2, hpgid⟩

theorem HoldsExits.pop {w : WaitQueue} (h : HoldsExits w cs) {i : Nat} (hi : i < w.len) (hs : w.Slides i) :
    HoldsExits (w.pop i) (cs.eraseIdx i) := by
  refine ⟨?_, fun j c hj => ?_, fun c hc => h.valid c (List.mem_of_mem_eraseIdx hc)⟩
  · rw [List.length_eraseIdx_of_lt (h.len ▸ hi), ← h.len]
    rfl
  · by_cases hji : j < i
    · rw [List.getElem?_eraseIdx_of_lt hji] at hj
      rw [WaitQueue.state_pop_of_lt hji]
      exact h.state j c hj
    · rw [List.getElem?_eraseIdx_of_ge (by omega)] at hj
      have hlt := (List.getElem?_eq_some_iff.1 hj).1
      rw [WaitQueue.state_pop_of_le hs (by omega) (by rw [h.len]; exact hlt)]
      exact h.state (j + 1) c hj

theorem Recorded.holds (h : Recorded pidHash keyHash a s cs) : HoldsExits (s.mem a).waits cs := by
  induction h with
  | start h => exact ⟨h, fun i c hi => by simp at hi, fun c hc => by cases hc⟩
  | @fill s cs h b hparent ha hpid hne hpgid hgroup mode code hmode hcode rusage ih =>
    rw [Processes.processFillWait, hparent, if_neg ha, waits_set_self]
    obtain ⟨c, hc⟩ : ∃ c : ChildExit, c = ⟨(s.mem b).pid, (s.mem b).pgid, (s.mem a).pgid, mode, code⟩ := ⟨_, rfl⟩
    have hpush := ih.push (c := c) (by rwa [hc]) (by rwa [hc]) (by rwa [hc]) (by rwa [hc]) (by rwa [hc])
      (by rwa [hc]) rusage
    rw [hc] at hpush
    exact hpush
  | collect h hi hs ih =>
    rw [waits_set_self]
    exact ih.pop hi hs
  | other h hw ih =>
    rw [hw]
    exact ih

/-- The test of `do_wait` on a recorded state. -/
def Eligible (n group : Int) (c : ChildExit) : Prop := (0 < n → c.pid = n) ∧ (n = 0 → c.callerGroup = group)

private theorem HoldsExits.matches_iff (h : HoldsExits (s.mem a).waits cs) {n : Int} {i : Nat} {c : ChildExit}
    (hc : cs[i]? = some c) :
    Matches (s.mem a) n ((s.mem a).waits.state i) ↔ Eligible n (s.mem a).pgid c := by
  rw [h.state i c hc]
  exact ⟨fun hm => ⟨hm.child, hm.group⟩,
    fun hf => ⟨(h.valid c (List.mem_of_getElem? hc)).2.1, hf.1, hf.2⟩⟩

private theorem HoldsExits.firstMatch_iff (h : HoldsExits (s.mem a).waits cs) {n : Int} {i : Nat} :
    FirstMatch (s.mem a) n i ↔ ∃ c, cs[i]? = some c ∧ Eligible n (s.mem a).pgid c ∧
      ∀ j < i, ∀ d, cs[j]? = some d → ¬ Eligible n (s.mem a).pgid d := by
  constructor
  · intro hf
    have hi : i < cs.length := h.len ▸ hf.lt
    refine ⟨_, List.getElem?_eq_getElem hi, (h.matches_iff (List.getElem?_eq_getElem hi)).1 hf.fits, ?_⟩
    exact fun j hj d hd hfit => hf.first j hj ((h.matches_iff hd).2 hfit)
  · rintro ⟨c, hc, hfit, hfirst⟩
    have hi := (List.getElem?_eq_some_iff.1 hc).1
    refine ⟨by rw [h.len]; exact hi, (h.matches_iff hc).2 hfit, fun j hj hm => ?_⟩
    have hd := List.getElem?_eq_getElem (show j < cs.length by omega)
    exact hfirst j hj _ hd ((h.matches_iff hd).1 hm)

private theorem HoldsExits.waitTurn_cases (h : HoldsExits (s.mem a).waits cs) (pid : Int) (turn : WaitTurn) :
    (¬ Waits pidHash keyHash s a pid turn ∧ ∃ e, (waitTurn pidHash keyHash s a pid turn).1 = .error e) ∨
    (Waits pidHash keyHash s a pid turn ∧
      ((∃ i c, FirstMatch (s.mem a) (waitArg pid) i ∧ cs[i]? = some c ∧
        (waitTurn pidHash keyHash s a pid turn).1 = .returned c.pid (statusWord c.mode c.code)) ∨
      ((∀ c ∈ cs, ¬ Eligible (waitArg pid) (s.mem a).pgid c) ∧ (waitTurn pidHash keyHash s a pid turn).1 =
        if turn = .call true then .zero else .blocked))) := by
  have hdo : (∃ i c, FirstMatch (s.mem a) (waitArg pid) i ∧ cs[i]? = some c ∧ c.pid ≠ 0 ∧
      (s.doWait a (waitArg pid)).1 = c.pid ∧ (s.doWait a (waitArg pid)).2.1 = statusWord c.mode c.code) ∨
      ((∀ c ∈ cs, ¬ Eligible (waitArg pid) (s.mem a).pgid c) ∧ (s.doWait a (waitArg pid)).1 = 0) := by
    cases hw : Processes.waitIndex (s.mem a) (waitArg pid) with
    | some i =>
      have hfirst := waitIndex_some_iff.1 hw
      obtain ⟨c, hc, -⟩ := h.firstMatch_iff.1 hfirst
      have hst := h.state i c hc
      rw [doWait_some hfirst, hst]
      exact Or.inl ⟨i, c, hfirst, hc, (h.valid c (List.mem_of_getElem? hc)).1, rfl, rfl⟩
    | none =>
      have hnone := waitIndex_none_iff.1 hw
      rw [doWait_none hnone]
      refine Or.inr ⟨fun c hc hfit => ?_, rfl⟩
      obtain ⟨i, hi⟩ := List.mem_iff_getElem?.1 hc
      exact hnone i (by rw [h.len]; exact (List.getElem?_eq_some_iff.1 hi).1) ((h.matches_iff hi).2 hfit)
  cases turn with
  | call nohang =>
    unfold waitTurn
    dsimp only
    by_cases hw : Waits pidHash keyHash s a pid (.call nohang)
    · refine Or.inr ⟨hw, ?_⟩
      rw [sysWait4_eq hw.1 hw.2]
      rcases hdo with ⟨i, c, hfirst, hc, hne, h1, h2⟩ | ⟨hnone, h1⟩
      · rw [h1, h2]
        exact Or.inl ⟨i, c, hfirst, hc, if_pos hne⟩
      · rw [h1]
        refine Or.inr ⟨hnone, ?_⟩
        cases nohang with
        | false => rfl
        | true => rfl
    · obtain ⟨e, he⟩ := sysWait4_error hw nohang
      exact Or.inl ⟨hw, e, by rw [he]⟩
  | again =>
    unfold waitTurn
    dsimp only
    refine Or.inr ⟨trivial, ?_⟩
    rw [sysWait4Loop_eq]
    rcases hdo with ⟨i, c, hfirst, hc, hne, h1, h2⟩ | ⟨hnone, h1⟩
    · rw [h1, h2]
      exact Or.inl ⟨i, c, hfirst, hc, if_pos hne⟩
    · rw [h1]
      exact Or.inr ⟨hnone, rfl⟩

/-- The states are selected rightly if the test of `do_wait` agrees with the wait. -/
private theorem HoldsExits.selects_iff (h : HoldsExits (s.mem a).waits cs) (pid : Int) (turn : WaitTurn) :
    SelectsRight pidHash keyHash s a cs pid turn ↔ (Waits pidHash keyHash s a pid turn →
      FirstAgrees cs (Eligible (waitArg pid) (s.mem a).pgid) (Selects pid (s.mem a).pgid) (turn = .call true)) := by
  rcases h.waitTurn_cases pid turn with ⟨hw, e, he⟩ | ⟨hw, ⟨i, c, hfirst, hc, he⟩ | ⟨hnone, he⟩⟩
  · refine ⟨fun _ hwaits => absurd hwaits hw, fun _ => ⟨fun p w hr => ?_, fun hz => ?_⟩⟩
    · rw [he] at hr
      cases hr
    · rw [he] at hz
      cases hz
  · obtain ⟨c', hc', hfit, hbefore⟩ := h.firstMatch_iff.1 hfirst
    obtain rfl := Option.some.inj (hc.symm.trans hc')
    constructor
    · rintro ⟨hret, -⟩ -
      obtain ⟨j, d, hj, hd, -, -, hsel⟩ := hret _ _ he
      obtain rfl := hfirst.unique hj
      obtain rfl := Option.some.inj (hc.symm.trans hd)
      refine ⟨fun k e hk hfitk hbeforek => ?_, fun hn => absurd hfit (hn _ (List.mem_of_getElem? hc))⟩
      have hkfirst := h.firstMatch_iff.2 ⟨e, hk, hfitk, hbeforek⟩
      obtain rfl := hfirst.unique hkfirst
      obtain rfl := Option.some.inj (hc.symm.trans hk)
      exact hsel
    · intro hagree
      refine ⟨fun p w hr => ?_, fun hz => ?_⟩
      · rw [he] at hr
        cases hr
        exact ⟨i, c, hfirst, hc, rfl, rfl, (hagree hw).1 i c hc hfit hbefore⟩
      · rw [he] at hz
        cases hz
  · constructor
    · rintro ⟨-, hzero⟩ -
      refine ⟨fun i c hc hfit => absurd hfit (hnone c (List.mem_of_getElem? hc)), fun _ hm => hzero ?_⟩
      rw [he, if_pos hm]
    · intro hagree
      refine ⟨fun p w hr => ?_, fun hz => ?_⟩
      · rw [he] at hr
        split at hr
        · cases hr
        · cases hr
      · rw [he] at hz
        split at hz
        · rename_i hm
          exact (hagree hw).2 hnone hm
        · cases hz

private theorem FirstAgrees.of_imp {P Q : ChildExit → Prop} (h : ∀ c ∈ cs, P c ↔ Q c) (matters : Prop) :
    FirstAgrees cs P Q matters :=
  ⟨fun _ c hc hP _ => (h c (List.mem_of_getElem? hc)).1 hP, fun hn _ c hc hQ => hn c hc ((h c hc).2 hQ)⟩

private theorem firstAgrees_congr {P P' Q Q' : ChildExit → Prop} (hP : ∀ c ∈ cs, P c ↔ P' c)
    (hQ : ∀ c ∈ cs, Q c ↔ Q' c) (matters : Prop) : FirstAgrees cs P Q matters ↔ FirstAgrees cs P' Q' matters := by
  have hmem : ∀ {i : Nat} {c}, cs[i]? = some c → c ∈ cs := fun h => List.mem_of_getElem? h
  unfold FirstAgrees
  refine and_congr ⟨fun h i c hc h1 h2 => ?_, fun h i c hc h1 h2 => ?_⟩
    ⟨fun h h1 h2 c hc => ?_, fun h h1 h2 c hc => ?_⟩
  · exact (hQ c (hmem hc)).1
      (h i c hc ((hP c (hmem hc)).2 h1) fun j hj d hd h3 => h2 j hj d hd ((hP d (hmem hd)).1 h3))
  · exact (hQ c (hmem hc)).2
      (h i c hc ((hP c (hmem hc)).1 h1) fun j hj d hd h3 => h2 j hj d hd ((hP d (hmem hd)).2 h3))
  · exact fun h3 => h (fun d hd h4 => h1 d hd ((hP d hd).1 h4)) h2 c hc ((hQ c hc).2 h3)
  · exact fun h3 => h (fun d hd h4 => h1 d hd ((hP d hd).2 h4)) h2 c hc ((hQ c hc).1 h3)

end

/-- `sys_wait4` selects the right states exactly if it waits for one child or for any, or fails, or the number that it
compares agrees with the group of the child. -/
theorem sysWait4_selects_iff {pidHash : Int → UInt64} {keyHash : UInt64 → UInt64} {s : Processes} {a : Nat}
    {cs : List ChildExit} (h : Recorded pidHash keyHash a s cs) {pid : Int} (hpid : pid ∈ pidT) (turn : WaitTurn) :
    SelectsRight pidHash keyHash s a cs pid turn ↔ SelectsWell pidHash keyHash s a cs pid turn := by
  have hh := h.holds
  rw [hh.selects_iff]
  unfold SelectsWell
  obtain ⟨hlow, hhigh⟩ := hpid
  rcases (by omega : pid = -1 ∨ 0 < pid ∨ pid = 0 ∨ pid < -1) with rfl | hpos | rfl | hneg
  · refine ⟨fun _ => Or.inl rfl, fun _ _ => FirstAgrees.of_imp (fun c _ => ?_) _⟩
    exact ⟨fun _ => trivial, fun _ => ⟨fun hp => absurd hp (by decide), fun hp => absurd hp (by decide)⟩⟩
  · have harg : waitArg pid = pid := waitArg_eq (Or.inr hpos)
    refine ⟨fun _ => Or.inr (Or.inl hpos), fun _ _ => FirstAgrees.of_imp (fun c _ => ?_) _⟩
    unfold Eligible Selects
    rw [harg, if_pos hpos]
    exact ⟨fun hf => hf.1 hpos, fun hc => ⟨fun _ => hc, fun hz => absurd hz (by omega)⟩⟩
  · have hagree := firstAgrees_congr (P := Eligible 0 (s.mem a).pgid) (Q := Selects 0 (s.mem a).pgid)
      (fun c (_ : c ∈ cs) => (⟨fun hf => hf.2 rfl, fun hc => ⟨fun hp => absurd hp (by decide), fun _ => hc⟩⟩ :
        Eligible 0 (s.mem a).pgid c ↔ c.callerGroup = (s.mem a).pgid))
      (fun c _ => (Iff.rfl : _ ↔ c.pgid = (s.mem a).pgid)) (turn = .call true)
    rw [show waitArg 0 = 0 from rfl, hagree, imp_iff_not_or]
    simp
  · have hgroup : ∀ c ∈ cs, Selects pid (s.mem a).pgid c ↔ c.pgid = -pid := by
      intro c _
      unfold Selects
      rw [if_neg (by omega), if_neg (by omega), if_neg (by omega)]
    have heligible : ∀ c ∈ cs, Eligible (waitArg pid) (s.mem a).pgid c ↔ pid = -2 ^ 31 ∨ c.pid = -pid := by
      intro c _
      unfold Eligible waitArg negInt
      rw [if_pos hneg]
      split
      · rename_i hmin
        exact ⟨fun _ => Or.inl hmin, fun _ => ⟨fun hp => absurd hp (by omega), fun hz => absurd hz (by omega)⟩⟩
      · rename_i hmin
        exact ⟨fun hf => Or.inr (hf.1 (by omega)),
          fun hc => ⟨fun _ => hc.resolve_left hmin, fun hz => absurd hz (by omega)⟩⟩
    rw [firstAgrees_congr heligible hgroup, imp_iff_not_or]
    constructor
    · rintro (hw | hagree)
      · exact Or.inr (Or.inr (Or.inl hw))
      · exact Or.inr (Or.inr (Or.inr (Or.inr ⟨hneg, hagree⟩)))
    · rintro (he | hp | hw | ⟨hz, -⟩ | ⟨-, hagree⟩)
      · omega
      · omega
      · exact Or.inl hw
      · omega
      · exact Or.inr hagree

/-! ### A child in a group of its own -/

def ownGroup : Option Processes :=
  smallStart.bind fun s => (treeStep UInt64.ofInt id s (.fork 20 30)).map fun s =>
    (sysSetpgid UInt64.ofInt id (fun _ => 0) s 20 2 2).2

def ownExit : ChildExit := ⟨2, 2, 0, waitExited, 7⟩

private theorem ownGroup_exit (pid : Int) (r : WaitResult)
    (hr :
      ownGroup.all
      (fun s => (waitTurn UInt64.ofInt id (s.processFillWait UInt64.ofInt id 30 waitExited 7 fun _ => 0) 20
      pid (.call true)).1 = r) = true) :
    ∃ s, Recorded UInt64.ofInt id 20 s [ownExit] ∧ (s.mem 20).pgid = 0 ∧
      (waitTurn UInt64.ofInt id s 20 pid (.call true)).1 = r := by
  have hsome : ownGroup.isSome = true := by decide
  obtain ⟨s, hs⟩ := Option.isSome_iff_exists.1 hsome
  have hall : ownGroup.all (fun s => (s.mem 20).waits.len = 0 ∧ (s.mem 20).pgid = 0 ∧ (s.mem 30).pid = 2 ∧
      (s.mem 30).pgid = 2 ∧ s.lookupPid UInt64.ofInt id (s.mem 30).ppid = 20 ∧
      ((s.processFillWait UInt64.ofInt id 30 waitExited 7 fun _ => 0).mem 20).pgid = 0) = true := by decide
  rw [hs] at hall hr
  obtain ⟨hlen, hgroup, hpid, hpgid, hparent, hafter⟩ := of_decide_eq_true hall
  have hfill := (Recorded.start hlen).fill hparent (by decide) (by rw [hpid]; exact ⟨by decide, by decide⟩)
    (by rw [hpid]; decide) (by rw [hpgid]; exact ⟨by decide, by decide⟩)
    (by rw [hgroup]; exact ⟨by decide, by decide⟩)
    (Or.inl rfl) (show (7 : Int) ∈ pidT from ⟨by decide, by decide⟩) (fun _ => 0)
  rw [hpid, hpgid, hgroup] at hfill
  exact ⟨_, hfill, hafter, of_decide_eq_true hr⟩

/-- A wait for the group of the child. -/
theorem sysWait4_selects_group : ∃ s, Recorded UInt64.ofInt id 20 s [ownExit] ∧
    SelectsRight UInt64.ofInt id s 20 [ownExit] (-2) (.call true) := by
  obtain ⟨s, h, -, -⟩ := ownGroup_exit (-2) (.returned 2 (7 * 256)) (by decide)
  refine ⟨s, h, (sysWait4_selects_iff h ⟨by decide, by decide⟩ _).2 (Or.inr (Or.inr (Or.inr (Or.inr ?_))))⟩
  refine ⟨by decide, fun i c hc _ _ => ?_, fun hn => ?_⟩
  · rw [List.mem_singleton.1 (List.mem_of_getElem? hc)]
    rfl
  · exact absurd (Or.inr rfl) (hn ownExit (List.mem_singleton.2 rfl))

/-- A wait for the group of the caller returns the status of the child in another group. -/
theorem not_sysWait4_selects : ∃ s, Recorded UInt64.ofInt id 20 s [ownExit] ∧
    ¬ SelectsRight UInt64.ofInt id s 20 [ownExit] 0 (.call true) := by
  obtain ⟨s, h, hgroup, hr⟩ := ownGroup_exit 0 (.returned 2 (7 * 256)) (by decide)
  refine ⟨s, h, fun hright => ?_⟩
  obtain ⟨i, c, -, hc, -, -, hsel⟩ := hright.returned _ _ hr
  rw [List.mem_singleton.1 (List.mem_of_getElem? hc), hgroup] at hsel
  exact absurd (show (2 : Int) = 0 from hsel) (by decide)

end Pml.Kernel
