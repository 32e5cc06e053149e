import Pml.Kernel.FileRefs

/-!
# Open files over runs of all processes (`process_fork`, `process_free` of `kernel/process.c`)

Any number of processes open, close, duplicate and map files, fork and exit, in any order.  `process_fork` copies the
slots and counts them, but copies the regions without counting their files, and `process_free` releases the slots, but
not the regions.  So the counts are right as long as no region with a file is removed, copied or left, and `F_DUPFD`
stores into free slots (`counts_accounted_iff`).

The outcome of the calls of `process_fork` into other parts of the kernel is an input (`ForkOutcome`), as is the
memory that they and `thread_unmap_user_mem` leave.
-/

namespace Pml.Kernel

open Arch Machine

/-- The members of `struct process` that point to open files, with the page tables of its thread. -/
structure Proc where
  fds : FdTable
  mmaps : List Region
  pml4t : Nat

/-- The system with its process queue. -/
structure Sys where
  vm : Vm
  files : Files
  procs : List Proc

def Sys.view (s : Sys) (p : Proc) : MmState := ⟨s.vm, s.files, p.fds, p.mmaps, p.pml4t⟩

def Sys.put (s : Sys) (n : Nat) (m : MmState) : Sys := ⟨m.vm, m.files, s.procs.set n ⟨m.fds, m.mmaps, m.pml4t⟩⟩

/-- The loop of `process_fork` over the slots. -/
def refSlots (f : Files) (slots : List (Option Nat)) : Files := slots.foldl (fun f slot => slot.elim f f.ref) f

/-- The loop of `process_free` over the slots: `free_altprocfd` for each one in use.  The table goes with the
process. -/
def freeSlots (f : Files) (slots : List (Option Nat)) : Files := slots.foldl (fun f slot => slot.elim f (freeFd f)) f

/-- How far `process_fork` gets. -/
inductive ForkOutcome where
  /-- `process_alloc`, `thread_clone`, `thread_attach_process` or the table of regions fails. -/
  | failed (vm : Vm)
  /-- There is no memory for the descriptor table. -/
  | noFds (vm : Vm)
  /-- There is no memory for the table of children, or `process_enqueue` fails. -/
  | noChild (vm : Vm)
  | done (vm : Vm) (pml4t : Nat)

/-- `process_fork` and `process_enqueue`.  Without a descriptor table, `process_free` follows a null pointer if there
are slots. -/
def processFork (s : Sys) (p : Proc) : ForkOutcome → Option Sys
  | .failed vm => some { s with vm := vm }
  | .noFds vm => if p.fds.size = 0 then some { s with vm := vm } else none
  | .noChild vm => some { s with vm := vm, files := freeSlots (refSlots s.files p.fds.table) p.fds.table }
  | .done vm pml4t => some ⟨vm, refSlots s.files p.fds.table, s.procs ++ [{ p with pml4t := pml4t }]⟩

def processExit (s : Sys) (n : Nat) (p : Proc) (vm : Vm) : Sys :=
  ⟨vm, freeSlots s.files p.fds.table, s.procs.eraseIdx n⟩

/-- What the process with an index in the queue does. -/
inductive Event where
  | call (c : Call)
  | fork (o : ForkOutcome)
  | exit (vm : Vm)

def sysStep (s : Sys) (i : Nat × Event) : Option Sys :=
  match s.procs[i.1]? with
  | none => some s
  | some p =>
    match i.2 with
    | .call c => (callStep (s.view p) c).map (s.put i.1)
    | .fork o => processFork s p o
    | .exit vm => some (processExit s i.1 p vm)

/-- The condition on what a process does, in the state before it. -/
def EventSafe (s : Sys) (p : Proc) : Event → Prop
  | .call c => CallSafe (s.view p) c
  | .fork (.failed _) => True
  | .fork (.noFds _) => False
  | .fork (.noChild _) => True
  | .fork (.done _ _) => ∀ r ∈ p.mmaps, r.file = none
  | .exit _ => ∀ r ∈ p.mmaps, r.file = none

def SysSafe (s : Sys) (i : Nat × Event) : Prop := ∀ p, s.procs[i.1]? = some p → EventSafe s p i.2

/-! ### The count of each file -/

def Proc.refs (p : Proc) (i : Nat) : Nat := p.fds.refs i + regionRefs p.mmaps i

def pointers (procs : List Proc) (i : Nat) : Nat := (procs.map fun p => p.refs i).sum

def Accounted (s : Sys) : Prop := ∀ i, s.files.count i = pointers s.procs i

/-- What is true of a step: the counts are right after it, nothing points to an entry that is not in use, and `munmap`
leaves the descriptor slots as they are. -/
structure Correct (s : Sys) (i : Nat × Event) (s' : Sys) : Prop where
  accounted : Accounted s'
  unused : ∀ k, s'.files.count k = 0 → ∀ p ∈ s'.procs, some k ∉ p.fds.table ∧ ∀ r ∈ p.mmaps, r.file ≠ some k
  munmap : ∀ env addr len, i.2 = .call (.munmap env addr len) → s'.procs.map (·.fds) = s.procs.map (·.fds)

/-- The counts are right, the files in use have vnodes, and the tables of the processes are in order. -/
structure Sys.Inv (s : Sys) : Prop where
  accounted : Accounted s
  named : s.files.Named
  procs : ∀ p ∈ s.procs, p.fds.Wf ∧ InUser p.mmaps

section

variable {procs : List Proc} {n : Nat} {p : Proc}

private theorem pointers_append (a b : List Proc) (i : Nat) : pointers (a ++ b) i = pointers a i + pointers b i := by
  unfold pointers
  rw [List.map_append, List.sum_append]

private theorem pointers_cons (p : Proc) (b : List Proc) (i : Nat) : pointers (p :: b) i = p.refs i + pointers b i :=
  rfl

private theorem pointers_split (h : procs[n]? = some p) (i : Nat) :
    pointers procs i = pointers (procs.eraseIdx n) i + p.refs i := by
  obtain ⟨hlt, rfl⟩ := List.getElem?_eq_some_iff.1 h
  conv_lhs => rw [← List.take_append_drop n procs, List.drop_eq_getElem_cons hlt]
  rw [List.eraseIdx_eq_take_drop_succ, pointers_append, pointers_append, pointers_cons]
  omega

private theorem pointers_set (h : procs[n]? = some p) (q : Proc) (i : Nat) :
    pointers (procs.set n q) i = pointers (procs.eraseIdx n) i + q.refs i := by
  obtain ⟨hlt, rfl⟩ := List.getElem?_eq_some_iff.1 h
  rw [List.set_eq_take_append_cons_drop, if_pos hlt, List.eraseIdx_eq_take_drop_succ, pointers_append,
    pointers_append, pointers_cons]
  omega

theorem Accounted.unused {s : Sys} (h : Accounted s) {k : Nat} (hk : s.files.count k = 0) {p : Proc}
    (hp : p ∈ s.procs) : some k ∉ p.fds.table ∧ ∀ r ∈ p.mmaps, r.file ≠ some k := by
  obtain ⟨n, hn⟩ := List.mem_iff_getElem?.1 hp
  have h1 := h k
  rw [hk, pointers_split hn, Proc.refs] at h1
  constructor
  · intro hmem
    have h2 : 0 < p.fds.refs k := List.count_pos_iff.2 hmem
    omega
  · intro r hr hfile
    have h2 : 0 < regionRefs p.mmaps k := List.countP_pos_iff.2 ⟨r, hr, by simpa using hfile⟩
    omega

end

/-! ### The loops over the slots -/

private theorem count_refSlots (f : Files) (slots : List (Option Nat)) (i : Nat) :
    (refSlots f slots).count i = f.count i + slots.count (some i) := by
  induction slots generalizing f with
  | nil => rfl
  | cons slot slots ih =>
    unfold refSlots at ih ⊢
    rw [List.foldl_cons, ih, List.count_cons]
    cases slot with
    | none => rfl
    | some k =>
      simp only [Option.elim_some, count_ref, beq_iff_eq, Option.some.injEq, eq_comm (a := k)]
      omega

private theorem named_refSlots {f : Files} (h : f.Named) {slots : List (Option Nat)}
    (hpos : ∀ i, some i ∈ slots → 0 < f.count i) : (refSlots f slots).Named := by
  induction slots generalizing f with
  | nil => exact h
  | cons slot slots ih =>
    unfold refSlots at ih ⊢
    rw [List.foldl_cons]
    cases slot with
    | none => exact ih h fun i hi => hpos i (List.mem_cons_of_mem _ hi)
    | some k =>
      refine ih (h.ref (hpos k List.mem_cons_self)) fun i hi => ?_
      have h1 := hpos i (List.mem_cons_of_mem _ hi)
      simp only [Option.elim_some, count_ref]
      omega

private theorem freeSlots_spec {f : Files} (slots : List (Option Nat)) (h : ∀ i, slots.count (some i) ≤ f.count i) :
    (∀ i, (freeSlots f slots).count i + slots.count (some i) = f.count i) ∧
      (f.Named → (freeSlots f slots).Named) := by
  induction slots generalizing f with
  | nil => exact ⟨fun i => rfl, id⟩
  | cons slot slots ih =>
    unfold freeSlots at ih ⊢
    simp only [List.foldl_cons]
    cases slot with
    | none =>
      have hnone : ∀ i, (none :: slots).count (some i) = slots.count (some i) := fun i => by
        rw [List.count_cons]
        rfl
      simp only [hnone] at h ⊢
      exact ih h
    | some k =>
      have hsome : ∀ i, (some k :: slots).count (some i) = slots.count (some i) + if i = k then 1 else 0 := by
        intro i
        rw [List.count_cons]
        simp only [beq_iff_eq, Option.some.injEq, eq_comm (a := k)]
      simp only [hsome] at h ⊢
      have hpos : 0 < f.count k := by
        have h1 := h k
        rw [if_pos rfl] at h1
        omega
      have hle : ∀ i, slots.count (some i) ≤ (freeFd f k).count i := by
        intro i
        have h4 := count_freeFd hpos i
        have h5 := h i
        omega
      obtain ⟨h2, h3⟩ := ih hle
      refine ⟨fun i => ?_, fun hn => h3 (hn.freeFd hpos)⟩
      have h4 := count_freeFd hpos i
      have h5 := h2 i
      simp only [Option.elim_some]
      omega

/-! ### Steps and runs -/

section

variable {s : Sys} {n : Nat} {p : Proc} (h : s.Inv) (hp : s.procs[n]? = some p)
include h hp

theorem Sys.Inv.wf : (s.view p).Wf := by
  obtain ⟨h1, h2⟩ := h.procs p (List.mem_of_getElem? hp)
  exact ⟨h1, h2⟩

theorem Sys.Inv.counted : (s.view p).Counted (pointers (s.procs.eraseIdx n)) := by
  intro i
  have h1 := h.accounted i
  rw [pointers_split hp, Proc.refs] at h1
  show s.files.count i = pointers (s.procs.eraseIdx n) i + regionRefs p.mmaps i + p.fds.refs i
  omega

omit h in
private theorem accounted_put_iff (m : MmState) :
    Accounted (s.put n m) ↔ m.Counted (pointers (s.procs.eraseIdx n)) := by
  refine forall_congr' fun i => ?_
  show m.files.count i = pointers (s.procs.set n _) i ↔ _ = _
  rw [pointers_set hp, Proc.refs]
  show _ ↔ m.files.count i = pointers (s.procs.eraseIdx n) i + regionRefs m.mmaps i + m.fds.refs i
  constructor
  · intro h1
    simp only at h1
    omega
  · intro h1
    simp only
    omega

private theorem Sys.Inv.call_ok {c : Call} (hC : CallSafe (s.view p) c) :
    ∃ s', (callStep (s.view p) c).map (s.put n) = some s' ∧
    s'.Inv ∧ ∀ env addr len, c = .munmap env addr len → s'.procs.map (·.fds) = s.procs.map (·.fds) := by
  have hw := h.wf hp
  have hc := h.counted hp
  obtain ⟨m, hm, h1, h2, h3⟩ := callStep_counted hw hc h.named hC
  have hw' := callStep_wf hw hc hm
  refine ⟨s.put n m, by rw [hm, Option.map_some], ⟨(accounted_put_iff hp m).2 h1, h2, ?_⟩, fun env addr len he => ?_⟩
  · intro q hq
    rcases List.mem_or_eq_of_mem_set hq with hq | rfl
    · exact h.procs q hq
    · exact ⟨hw'.fds, hw'.user⟩
  · have hfds : m.fds = p.fds := h3 env addr len he
    obtain ⟨hlt, hget⟩ := List.getElem?_eq_some_iff.1 hp
    show (s.procs.set n _).map (·.fds) = _
    rw [List.map_set]
    simp only [hfds]
    have hmap : (s.procs.map (·.fds))[n]? = some p.fds := by rw [List.getElem?_map, hp, Option.map_some]
    obtain ⟨hlt', hget'⟩ := List.getElem?_eq_some_iff.1 hmap
    conv_lhs => rw [← hget', List.set_getElem_self]

private theorem Sys.Inv.slots_le (i : Nat) : p.fds.table.count (some i) ≤ s.files.count i := by
  have h1 := h.accounted i
  have h2 : p.fds.refs i = p.fds.table.count (some i) := rfl
  rw [pointers_split hp, Proc.refs] at h1
  omega

private theorem Sys.Inv.fork_ok {o : ForkOutcome} (hC : EventSafe s p (.fork o)) :
    ∃ s', processFork s p o = some s' ∧ s'.Inv := by
  have hle := h.slots_le hp
  have hpos : ∀ i, some i ∈ p.fds.table → 0 < s.files.count i := fun i hi =>
    Nat.lt_of_lt_of_le (List.count_pos_iff.2 hi) (hle i)
  have hnamed := named_refSlots h.named hpos
  cases o with
  | failed vm => exact ⟨_, rfl, h.accounted, h.named, h.procs⟩
  | noFds vm => exact absurd hC id
  | noChild vm =>
    have hslots : ∀ i, p.fds.table.count (some i) ≤ (refSlots s.files p.fds.table).count i := by
      intro i
      rw [count_refSlots]
      omega
    obtain ⟨h1, h2⟩ := freeSlots_spec p.fds.table hslots
    refine ⟨_, rfl, fun i => ?_, h2 hnamed, h.procs⟩
    have h3 := h1 i
    have h4 := h.accounted i
    rw [count_refSlots] at h3
    show (freeSlots (refSlots s.files p.fds.table) p.fds.table).count i = pointers s.procs i
    omega
  | done vm pml4t =>
    refine ⟨_, rfl, fun i => ?_, hnamed, fun q hq => ?_⟩
    · have h1 := h.accounted i
      have h2 := regionRefs_eq_zero hC i
      show (refSlots s.files p.fds.table).count i = pointers (s.procs ++ [_]) i
      rw [count_refSlots, pointers_append, h1]
      show _ = _ + (p.fds.refs i + regionRefs p.mmaps i + 0)
      rw [h2]
      rfl
    · rcases List.mem_append.1 hq with hq | hq
      · exact h.procs q hq
      · obtain rfl := List.mem_singleton.1 hq
        exact h.procs p (List.mem_of_getElem? hp)

private theorem Sys.Inv.exit_count (vm : Vm) (i : Nat) : (processExit s n p vm).files.count i =
    pointers (processExit s n p vm).procs i + regionRefs p.mmaps i := by
  have h1 := (freeSlots_spec p.fds.table (h.slots_le hp)).1 i
  have h2 := h.counted hp i
  have h3 : p.fds.refs i = p.fds.table.count (some i) := rfl
  have h4 : s.files.count i = pointers (s.procs.eraseIdx n) i + regionRefs p.mmaps i + p.fds.refs i := h2
  show (freeSlots s.files p.fds.table).count i = pointers (s.procs.eraseIdx n) i + regionRefs p.mmaps i
  omega

private theorem Sys.Inv.exit_ok {vm : Vm} (hC : EventSafe s p (.exit vm)) : (processExit s n p vm).Inv := by
  refine ⟨fun i => ?_, (freeSlots_spec p.fds.table (h.slots_le hp)).2 h.named, fun q hq => ?_⟩
  · rw [h.exit_count hp, regionRefs_eq_zero hC, Nat.add_zero]
  · exact h.procs q (List.mem_of_mem_eraseIdx hq)

/-- If the counts are still right after a step, then it met its condition. -/
private theorem Sys.Inv.needs {e : Event} {s' : Sys} (hs : sysStep s (n, e) = some s') (h' : Accounted s') :
    EventSafe s p e := by
  unfold sysStep at hs
  simp only [hp] at hs
  cases e with
  | call c =>
    obtain ⟨m, hm, rfl⟩ := Option.map_eq_some_iff.1 hs
    exact callStep_needs (h.wf hp) (h.counted hp) hm ((accounted_put_iff hp m).1 h')
  | fork o =>
    cases o with
    | failed vm => exact trivial
    | noFds vm =>
      have hsize := (h.wf hp).fds.pos
      simp only [processFork, if_neg (show ¬p.fds.size = 0 from Nat.ne_of_gt hsize)] at hs
      cases hs
    | noChild vm => exact trivial
    | done vm pml4t =>
      obtain rfl := Option.some.inj hs
      refine file_none_of_regionRefs fun i => ?_
      have h1 : (refSlots s.files p.fds.table).count i = pointers (s.procs ++ [{ p with pml4t := pml4t }]) i := h' i
      have h2 := h.accounted i
      have h3 : pointers [{ p with pml4t := pml4t }] i = p.fds.refs i + regionRefs p.mmaps i + 0 := rfl
      have h4 : p.fds.refs i = p.fds.table.count (some i) := rfl
      rw [count_refSlots, pointers_append] at h1
      omega
  | exit vm =>
    obtain rfl := Option.some.inj hs
    refine file_none_of_regionRefs fun i => ?_
    have h1 := h.exit_count hp vm i
    have h2 := h' i
    omega

end

private theorem Sys.Inv.step_ok {s : Sys} (h : s.Inv) {i : Nat × Event} (hC : SysSafe s i) :
    ∃ s', sysStep s i = some s' ∧ Correct s i s' ∧ s'.Inv := by
  have hcorrect : ∀ {s' : Sys}, s'.Inv → (∀ env addr len, i.2 = .call (.munmap env addr len) →
      s'.procs.map (·.fds) = s.procs.map (·.fds)) → Correct s i s' := fun h' hm =>
    ⟨h'.accounted, fun k hk p hp => h'.accounted.unused hk hp, hm⟩
  obtain ⟨n, e⟩ := i
  rcases hp : s.procs[n]? with _ | p
  · refine ⟨s, ?_, hcorrect h fun _ _ _ _ => rfl, h⟩
    simp only [sysStep, hp]
  have hsafe := hC p hp
  cases e with
  | call c =>
    obtain ⟨s', hs, h', hm⟩ := h.call_ok hp hsafe
    refine ⟨s', ?_, hcorrect h' fun env addr len he => hm env addr len (Event.call.inj he), h'⟩
    simp only [sysStep, hp]
    exact hs
  | fork o =>
    obtain ⟨s', hs, h'⟩ := h.fork_ok hp hsafe
    refine ⟨s', ?_, hcorrect h' (fun _ _ _ he => by cases he), h'⟩
    simp only [sysStep, hp]
    exact hs
  | exit vm =>
    have h' := h.exit_ok hp hsafe
    refine ⟨_, ?_, hcorrect h' (fun _ _ _ he => by cases he), h'⟩
    simp only [sysStep, hp]

/-- In a run of all processes, every step exists, leaves the count of each file equal to the number of slots and
regions that point to it, and keeps the slots if it is a `munmap`, if and only if no call removes a region with a
file, no process with such a region forks or exits, `F_DUPFD` finds a free slot, and `process_fork` has memory for the
slots. -/
theorem counts_accounted_iff {s : Sys} (h : s.Inv) (is : List (Nat × Event)) :
    Meets sysStep SysSafe is s ↔ Always sysStep Correct is s :=
  meets_iff_always (P := Sys.Inv) (fun _ _ h hC => h.step_ok hC)
    (fun _ i _ h hs hQ _ hp => h.needs (n := i.1) hp hs hQ.accounted) h

def initSys : Sys := ⟨smallVm, noFiles, [⟨initFds, [], 0x1000⟩]⟩

private theorem initSys_inv : initSys.Inv := by
  refine ⟨fun i => ?_, fun i hi => absurd hi (Nat.lt_irrefl 0), fun p hp => ?_⟩
  · have hfree : initFds.refs i = 0 := by
      unfold FdTable.refs initFds
      rw [List.count_replicate]
      rfl
    show 0 = initFds.refs i + 0 + 0
    rw [hfree]
  · obtain rfl := List.mem_singleton.1 hp
    exact ⟨initFds_wf, fun r hr => absurd hr List.not_mem_nil⟩

def openFirst : Nat × Event := (0, .call (.fd (.openFile (.ok 7) 0 true)))

def mapFirst : Nat × Event := (0, .call (.mmap anonEnv 0x1000 0x1000 protRead mapPrivate 0 0))

def closeFirst : Nat × Event := (0, .call (.fd (.close 0)))

def unmapFirst : Nat × Event := (0, .call (.munmap anonEnv 0x1000 0x1000))

/-- A mapping outlives the descriptor. -/
theorem counts_accounted_closed : Always sysStep Correct [openFirst, mapFirst, closeFirst] initSys := by
  have hmap : ∀ s, SysSafe s mapFirst := by
    intro s p _ r hr
    have haligned : ¬((0x1000 : Word) : Nat) &&& (pageSize - 1) ≠ 0 := by decide
    have hfix : ¬mapPrivate &&& mapFixed ≠ 0 := by decide
    have hlost : lost (s.view p) (.mmap anonEnv 0x1000 0x1000 protRead mapPrivate 0 0) = [] := by
      simp only [lost, if_neg haligned, if_neg hfix]
      split
      · rfl
      · rfl
    exact absurd (hlost ▸ hr) List.not_mem_nil
  refine (counts_accounted_iff initSys_inv _).1 ⟨fun _ _ => trivial, fun s _ => ⟨hmap s, fun s' _ => ?_⟩⟩
  exact ⟨fun _ _ => trivial, fun _ _ => trivial⟩

/-- `munmap` of a file clears the descriptor slot, and the count of the file stays one. -/
theorem not_counts_accounted : ¬Always sysStep Correct [openFirst, mapFirst, unmapFirst] initSys := by
  have hrun : ((Machine.run sysStep [openFirst, mapFirst, unmapFirst] initSys).map fun s =>
      (s.files.count 0, pointers s.procs 0)) = some (1, 0) := by
    decide +kernel
  intro h
  obtain ⟨t, t', h1, h2, h3⟩ := Always.last [openFirst, mapFirst] h
  obtain ⟨s, hs, heq⟩ := Option.map_eq_some_iff.1 hrun
  obtain ⟨u, hu, hlast⟩ := run_append (p := [openFirst, mapFirst]) hs
  obtain rfl := Option.some.inj (h1.symm.trans hu)
  have hst : s = t' := by
    rw [Machine.run, h2] at hlast
    exact (Option.some.inj hlast).symm
  have hacc := h3.accounted 0
  rw [← hst] at hacc
  obtain ⟨hone, hzero⟩ := Prod.mk.inj heq
  omega

end Pml.Kernel
