import Mathlib.Data.Set.Function
import Pml.Kernel.Processes

/-!
# The process tree

Over any run of forks and exits the parent IDs, the lists of children, the map of process IDs and the process queue
agree on one tree: the `Family`, which takes each live process but the first to its parent, and the children of a
process that exits to process 1.
-/

namespace Pml.Kernel

open Util

/-- The values of `pid_t`. -/
def pidT : Set Int := {p | -2 ^ 31 ≤ p ∧ p < 2 ^ 31}

/-- A fork by the process at `parent`, for a structure that is allocated at `child`, or an exit. -/
inductive TreeCall
  | fork (parent child : Nat)
  | exit (process : Nat)

/-- The state after a call: a live process forks, or a live process exits that is not process 0 or 1.  Memory that is
allocated is not in use. -/
def treeStep (pidHash : Int → UInt64) (keyHash : UInt64 → UInt64) (s : Processes) : TreeCall → Option Processes
  | .fork parent child =>
    if parent ∈ s.queue ∧ child ≠ 0 ∧ child ∉ s.queue then
      (s.processFork parent child).map fun s => s.processEnqueue pidHash keyHash child
    else none
  | .exit a =>
    if a ∈ s.queue ∧ (s.mem a).pid ≠ 0 ∧ (s.mem a).pid ≠ 1 then
      some (s.processExit pidHash keyHash (s.queue.idxOf a))
    else none

abbrev Family := Nat → Option Nat

namespace Family

/-- The family after a call: a fork adds a child, and the children of a process that exits go to `init`. -/
def step (init : Nat) (f : Family) : TreeCall → Family
  | .fork parent child => Function.update f child (some parent)
  | .exit a => fun c => if c = a then none else if f c = some a then some init else f c

def run (init : Nat) : List TreeCall → Family → Family
  | [], f => f
  | call :: calls, f => run init calls (f.step init call)

def start (root init : Nat) : Family := Function.update (fun _ => none) init (some root)

end Family

namespace Processes

/-- The processes agree with the family: `lookup_pid` finds exactly the processes in the queue, and every process but
the first is listed once, by its parent, whose ID is its `ppid`. -/
structure Consistent (pidHash : Int → UInt64) (keyHash : UInt64 → UInt64) (root init : Nat) (f : Family)
    (s : Processes) : Prop where
  lookup : ∀ p ∈ pidT, ∀ a, a ≠ 0 → (s.lookupPid pidHash keyHash p = a ↔ a ∈ s.queue ∧ (s.mem a).pid = p)
  initLive : init ∈ s.queue ∧ (s.mem init).pid = 1
  parent : ∀ a ∈ s.queue, a ≠ root → ∃ b ∈ s.queue, f a = some b ∧ (s.mem a).ppid = (s.mem b).pid ∧
    (s.mem b).children.count (s.mem a).pid = 1 ∧ ∀ c ∈ s.queue, c ≠ b → (s.mem a).pid ∉ (s.mem c).children

/-- What holds of the processes in every run. -/
structure Inv (pidHash : Int → UInt64) (keyHash : UInt64 → UInt64) (root : Nat) (f : Family) (s : Processes) :
    Prop where
  nodup : s.queue.Nodup
  nonnull : 0 ∉ s.queue
  rootLive : root ∈ s.queue ∧ (s.mem root).pid = 0
  inj : ∀ a ∈ s.queue, ∀ b ∈ s.queue, (s.mem a).pid = (s.mem b).pid → a = b
  used : ∀ a ∈ s.queue, ∃ n : Nat, (s.mem a).pid = n ∧ s.pids.bitmap n = true ∧ n < s.pids.size * 8 ∧
    n < pidBitmapSizeLimit * 8
  mapped : ∃ g, s.pidMap.Models keyHash g ∧ ∀ key a, g key = some a ↔ a ∈ s.queue ∧ pidHash (s.mem a).pid = key
  parent : ∀ a b, f a = some b → a ∈ s.queue ∧ b ∈ s.queue ∧ a ≠ b ∧ (s.mem a).ppid = (s.mem b).pid
  orphan : ∀ a ∈ s.queue, f a = none ↔ a = root
  children : ∀ b ∈ s.queue, (s.mem b).children.Nodup ∧
    ∀ p, p ∈ (s.mem b).children ↔ ∃ a, f a = some b ∧ (s.mem a).pid = p

/-- Process 1 is live, and its parent is the first process. -/
structure HasInit (root init : Nat) (f : Family) (s : Processes) : Prop where
  live : init ∈ s.queue
  pid : (s.mem init).pid = 1
  parent : f init = some root

end Processes

/-! ### Process IDs -/

namespace Pids

private theorem allocLoop_spec {fuel : Nat} {s s' : Pids} {pid : Nat} (h : allocLoop fuel s = (some pid, s')) :
    (s.bitmap pid = false ∨ s.size * 8 ≤ pid) ∧ pid < s'.size * 8 ∧ pid < pidBitmapSizeLimit * 8 ∧
    s'.bitmap pid = true ∧ s.size ≤ s'.size ∧ ∀ n, n < s.size * 8 → s.bitmap n = true → s'.bitmap n = true := by
  induction fuel generalizing s with
  | zero => cases h
  | succ fuel ih =>
    unfold allocLoop at h
    split at h
    · rename_i hsize
      split at h
      · rename_i n hn
        cases h
        have hmem := List.mem_range'_1.1 (List.mem_of_find?_eq_some hn)
        have hfree : s.bitmap pid = false := by simpa using List.find?_some hn
        refine ⟨Or.inl hfree, ?_, ?_, Function.update_self .., le_refl _, fun n _ hused => ?_⟩
        · change pid < s.size * 8
          omega
        · omega
        · by_cases hne : n = pid
          · subst hne
            exact Function.update_self ..
          · exact (Function.update_of_ne hne ..).trans hused
      · obtain ⟨h1, h2, h3, h4, h5, h6⟩ := ih h
        dsimp only at h1 h5 h6
        refine ⟨?_, h2, h3, h4, by omega, fun n hn hused => h6 n (by omega) ?_⟩
        · rcases h1 with h1 | h1
          · by_cases hp : s.size * 8 ≤ pid
            · exact Or.inr hp
            · rw [if_neg hp] at h1
              exact Or.inl h1
          · exact Or.inr (by omega)
        · rw [if_neg (by omega)]
          exact hused
    · cases h

private theorem free_bitmap {s : Pids} {pid : Int} {n : Nat} (hne : (n : Int) ≠ pid) :
    (s.free pid).bitmap n = s.bitmap n ∧ (s.free pid).size = s.size := by
  unfold free
  split
  · exact ⟨rfl, rfl⟩
  · exact ⟨Function.update_of_ne (by omega) .., rfl⟩

end Pids

namespace Processes

section

variable {pidHash : Int → UInt64} {keyHash : UInt64 → UInt64} {root init : Nat} {f : Family} {s s' : Processes}

@[simp] theorem set_queue (s : Processes) (a : Nat) (p : Process) : (s.set a p).queue = s.queue := rfl

@[simp] theorem set_pidMap (s : Processes) (a : Nat) (p : Process) : (s.set a p).pidMap = s.pidMap := rfl

@[simp] theorem set_pids (s : Processes) (a : Nat) (p : Process) : (s.set a p).pids = s.pids := rfl

@[simp] theorem set_mem_self (s : Processes) (a : Nat) (p : Process) : (s.set a p).mem a = p :=
  Function.update_self ..

theorem set_mem_of_ne {a b : Nat} (h : b ≠ a) (p : Process) : (s.set a p).mem b = s.mem b :=
  Function.update_of_ne h ..

@[simp] theorem lookupPid_set (a : Nat) (p : Process) (pid : Int) :
    (s.set a p).lookupPid pidHash keyHash pid = s.lookupPid pidHash keyHash pid := rfl

private theorem mem_pidT {pid : Int} {n : Nat} (h : pid = n) (hn : n < pidBitmapSizeLimit * 8) : pid ∈ pidT := by
  have hlimit : pidBitmapSizeLimit = 32768 := rfl
  rw [h]
  constructor <;> omega

theorem Inv.pid_mem (h : s.Inv pidHash keyHash root f) {a : Nat} (ha : a ∈ s.queue) : (s.mem a).pid ∈ pidT := by
  obtain ⟨n, hn, -, -, hlt⟩ := h.used a ha
  exact mem_pidT hn hlt

/-! ### The map of process IDs -/

def Maps (pidHash : Int → UInt64) (keyHash : UInt64 → UInt64) (s : Processes) (live : Nat → Prop) : Prop :=
  ∃ g, s.pidMap.Models keyHash g ∧ ∀ key a, g key = some a ↔ live a ∧ pidHash (s.mem a).pid = key

theorem Maps.lookup_iff {live : Nat → Prop} (hinj : Set.InjOn pidHash pidT)
    (hpid : ∀ a, live a → (s.mem a).pid ∈ pidT) (h : s.Maps pidHash keyHash live) {p : Int} (hp : p ∈ pidT) {a : Nat}
    (ha : a ≠ 0) :
    s.lookupPid pidHash keyHash p = a ↔ live a ∧ (s.mem a).pid = p := by
  obtain ⟨g, hg, hlive⟩ := h
  unfold lookupPid
  rw [lookup_agrees hg]
  constructor
  · intro h
    cases hv : g (pidHash p) with
    | none =>
      rw [hv] at h
      exact absurd h.symm ha
    | some b =>
      rw [hv] at h
      obtain rfl : b = a := h
      obtain ⟨hl, he⟩ := (hlive _ _).1 hv
      exact ⟨hl, hinj (hpid b hl) hp he⟩
  · rintro ⟨hl, rfl⟩
    rw [(hlive _ a).2 ⟨hl, rfl⟩]
    rfl

theorem Inv.congr (h : s.Inv pidHash keyHash root f) (hq : s'.queue = s.queue) (hm : s'.pidMap = s.pidMap)
    (hp : s'.pids = s.pids) (hid : ∀ a, (s'.mem a).pid = (s.mem a).pid) (hpp : ∀ a, (s'.mem a).ppid = (s.mem a).ppid)
    (hc : ∀ a, (s'.mem a).children = (s.mem a).children) : s'.Inv pidHash keyHash root f := by
  refine ⟨?_, ?_, ?_, ?_, ?_, ?_, ?_, ?_, ?_⟩
  · rw [hq]
    exact h.nodup
  · rw [hq]
    exact h.nonnull
  · rw [hq, hid]
    exact h.rootLive
  · simpa only [hq, hid] using h.inj
  · simpa only [hq, hid, hp] using h.used
  · simpa only [hq, hid, hm] using h.mapped
  · simpa only [hq, hid, hpp] using h.parent
  · rw [hq]
    exact h.orphan
  · simpa only [hq, hid, hc] using h.children

/-! ### Consistency -/

private theorem Inv.consistent (hinj : Set.InjOn pidHash pidT) (h : s.Inv pidHash keyHash root f)
    (hi : s.HasInit root init f) : s.Consistent pidHash keyHash root init f := by
  refine ⟨fun p hp a ha => Maps.lookup_iff hinj (fun b hb => h.pid_mem hb) h.mapped hp ha, ⟨hi.live, hi.pid⟩, ?_⟩
  intro a ha hroot
  obtain ⟨b, hb⟩ := Option.ne_none_iff_exists'.1 (mt (h.orphan a ha).1 hroot)
  obtain ⟨-, hbq, -, hppid⟩ := h.parent a b hb
  refine ⟨b, hbq, hb, hppid, ?_, ?_⟩
  · exact List.count_eq_one_of_mem (h.children b hbq).1 (((h.children b hbq).2 _).2 ⟨a, hb, rfl⟩)
  · intro c hc hne hmem
    obtain ⟨a', ha', hpid⟩ := ((h.children c hc).2 _).1 hmem
    obtain rfl := h.inj a' (h.parent a' c ha').1 a ha hpid
    rw [hb] at ha'
    exact hne (Option.some.inj ha').symm

/-! ### Forks -/

/-- What a fork makes of the processes. -/
structure Forked (pidHash : Int → UInt64) (keyHash : UInt64 → UInt64) (s s' : Processes) (parent child pid : Nat) :
    Prop where
  alloc : s.pids.alloc = (some pid, s'.pids)
  queue : s'.queue = s.queue ++ [child]
  pidMap : s'.pidMap = s.pidMap.insert keyHash (pidHash pid) child
  childMem : s'.mem child = ⟨pid, (s.mem parent).pid, (s.mem parent).pgid, [], ⟨0, fun _ => 0⟩⟩
  parentMem : s'.mem parent = { s.mem parent with children := (s.mem parent).children ++ [(pid : Int)] }
  other : ∀ a, a ≠ parent → a ≠ child → s'.mem a = s.mem a

theorem fork_spec {parent child : Nat} (h : treeStep pidHash keyHash s (.fork parent child) = some s') :
    parent ∈ s.queue ∧ child ≠ 0 ∧ child ∉ s.queue ∧ ∃ pid, Forked pidHash keyHash s s' parent child pid := by
  unfold treeStep at h
  dsimp only at h
  split at h
  · rename_i hguard
    obtain ⟨hp, hc, hcq⟩ := hguard
    have hne : parent ≠ child := fun he => hcq (he ▸ hp)
    refine ⟨hp, hc, hcq, ?_⟩
    unfold processFork at h
    cases ha : s.pids.alloc with
    | mk o pids =>
      rw [ha] at h
      cases o with
      | none => cases h
      | some pid =>
        cases h
        refine ⟨pid, ha, rfl, ?_, ?_, ?_, fun a h1 h2 => ?_⟩
        · simp [processEnqueue, mapPidProcess, set_mem_of_ne hne.symm]
        · simp [processEnqueue, mapPidProcess, set_mem_of_ne hne.symm]
        · simp [processEnqueue, mapPidProcess, set_mem_of_ne hne]
        · simp [processEnqueue, mapPidProcess, set_mem_of_ne h1, set_mem_of_ne h2]
  · cases h

private theorem Forked.mem_of_ne {parent child pid a : Nat} (h : Forked pidHash keyHash s s' parent child pid)
    (ha : a ≠ child) : (s'.mem a).pid = (s.mem a).pid ∧ (s'.mem a).ppid = (s.mem a).ppid := by
  by_cases hp : a = parent
  · rw [hp, h.parentMem]
    exact ⟨rfl, rfl⟩
  · rw [h.other a hp ha]
    exact ⟨rfl, rfl⟩

theorem Inv.fresh {parent child pid : Nat} (h : s.Inv pidHash keyHash root f)
    (hf : Forked pidHash keyHash s s' parent child pid) {a : Nat} (ha : a ∈ s.queue) :
    (s.mem a).pid ≠ (pid : Int) := by
  intro he
  obtain ⟨n, hn, hused, hlt, -⟩ := h.used a ha
  obtain ⟨hfree, -⟩ := Pids.allocLoop_spec hf.alloc
  obtain rfl : n = pid := by omega
  rcases hfree with hfree | hfree
  · rw [hfree] at hused
    cases hused
  · omega

theorem Inv.fork (init : Nat) (hinj : Set.InjOn pidHash pidT) (h : s.Inv pidHash keyHash root f) {parent child : Nat}
    (hstep : treeStep pidHash keyHash s (.fork parent child) = some s') :
    s'.Inv pidHash keyHash root (f.step init (.fork parent child)) := by
  obtain ⟨hp, hc0, hcq, pid, hf⟩ := fork_spec hstep
  obtain ⟨-, hlt, hlimit, hset, hsize, hkeep⟩ := Pids.allocLoop_spec hf.alloc
  have hne : ∀ {a}, a ∈ s.queue → a ≠ child := fun ha he => hcq (he ▸ ha)
  have hpid : ∀ {a}, a ∈ s.queue → (s'.mem a).pid = (s.mem a).pid := fun ha => (hf.mem_of_ne (hne ha)).1
  have hchild : (s'.mem child).pid = (pid : Int) := by rw [hf.childMem]
  have hq : ∀ {a}, a ∈ s'.queue ↔ a ∈ s.queue ∨ a = child := by
    intro a
    rw [hf.queue, List.mem_append, List.mem_singleton]
  have hold : ∀ {a}, a ≠ child → f.step init (.fork parent child) a = f a := fun ha => Function.update_of_ne ha ..
  have hnew : f.step init (.fork parent child) child = some parent := Function.update_self ..
  refine ⟨?_, ?_, ?_, ?_, ?_, ?_, ?_, ?_, ?_⟩
  · -- no structure is in the queue twice
    rw [hf.queue]
    exact List.nodup_append.2 ⟨h.nodup, List.nodup_singleton child, fun a ha b hb he =>
      hcq (List.mem_singleton.1 hb ▸ he ▸ ha)⟩
  · intro h0
    rcases hq.1 h0 with h0 | h0
    · exact h.nonnull h0
    · exact hc0 h0.symm
  · exact ⟨hq.2 (Or.inl h.rootLive.1), (hpid h.rootLive.1).trans h.rootLive.2⟩
  · -- the ID of the child was free, so no other process has it
    intro a ha b hb he
    rcases hq.1 ha with ha | rfl <;> rcases hq.1 hb with hb | rfl
    · rw [hpid ha, hpid hb] at he
      exact h.inj a ha b hb he
    · rw [hpid ha, hchild] at he
      exact absurd he (h.fresh hf ha)
    · rw [hpid hb, hchild] at he
      exact absurd he.symm (h.fresh hf hb)
    · rfl
  · -- the IDs in use are allocated, and that of the child now is
    intro a ha
    rcases hq.1 ha with ha | rfl
    · obtain ⟨n, hn, hused, hn1, hn2⟩ := h.used a ha
      exact ⟨n, (hpid ha).trans hn, hkeep n hn1 hused, by omega, hn2⟩
    · exact ⟨pid, hchild, hset, hlt, hlimit⟩
  · -- the map of the IDs has one more key, which is new since the hash is injective on the IDs
    obtain ⟨g, hg, hlive⟩ := h.mapped
    refine ⟨Function.update g (pidHash pid) (some child), ?_, fun key a => ?_⟩
    · rw [hf.pidMap]
      exact insert_models hg _ _
    · have hkey : ∀ {a}, a ∈ s.queue → pidHash (s.mem a).pid ≠ pidHash (pid : Int) := fun ha he =>
        h.fresh hf ha (hinj (h.pid_mem ha) (mem_pidT rfl hlimit) he)
      by_cases hk : key = pidHash pid
      · subst hk
        rw [Function.update_self]
        constructor
        · intro he
          obtain rfl := Option.some.inj he
          exact ⟨hq.2 (Or.inr rfl), by rw [hchild]⟩
        · rintro ⟨ha, he⟩
          rcases hq.1 ha with ha | rfl
          · rw [hpid ha] at he
            exact absurd he (hkey ha)
          · rfl
      · rw [Function.update_of_ne hk, hlive]
        constructor
        · rintro ⟨ha, he⟩
          exact ⟨hq.2 (Or.inl ha), by rw [hpid ha, he]⟩
        · rintro ⟨ha, he⟩
          rcases hq.1 ha with ha | rfl
          · exact ⟨ha, by rw [← hpid ha, he]⟩
          · rw [hchild] at he
            exact absurd he.symm hk
  · -- the child has the parent, and the others keep theirs
    intro a b hab
    by_cases ha : a = child
    · subst ha
      rw [hnew] at hab
      obtain rfl := Option.some.inj hab
      refine ⟨hq.2 (Or.inr rfl), hq.2 (Or.inl hp), (hne hp).symm, ?_⟩
      rw [hpid hp, hf.childMem]
    · rw [hold ha] at hab
      obtain ⟨haq, hbq, hab', hpp⟩ := h.parent a b hab
      refine ⟨hq.2 (Or.inl haq), hq.2 (Or.inl hbq), hab', ?_⟩
      rw [(hf.mem_of_ne ha).2, hpid hbq, hpp]
  · intro a ha
    by_cases hac : a = child
    · subst hac
      rw [hnew]
      exact iff_of_false (by simp) (fun he => hcq (he ▸ h.rootLive.1))
    · rw [hold hac]
      exact h.orphan a ((hq.1 ha).resolve_right hac)
  · -- of the lists of children only that of the parent is longer, by the ID of the child
    intro b hb
    rcases hq.1 hb with hbq | rfl
    · have hmem : ∀ p, (∃ a, f.step init (.fork parent child) a = some b ∧ (s'.mem a).pid = p) ↔
          (∃ a, f a = some b ∧ (s.mem a).pid = p) ∨ (b = parent ∧ (pid : Int) = p) := by
        intro p
        constructor
        · rintro ⟨a, hab, hap⟩
          by_cases hac : a = child
          · subst hac
            rw [hnew] at hab
            exact Or.inr ⟨(Option.some.inj hab).symm, hchild.symm.trans hap⟩
          · rw [hold hac] at hab
            exact Or.inl ⟨a, hab, (hpid (h.parent a b hab).1).symm.trans hap⟩
        · rintro (⟨a, hab, hap⟩ | ⟨rfl, hap⟩)
          · have haq := (h.parent a b hab).1
            exact ⟨a, (hold (hne haq)).trans hab, (hpid haq).trans hap⟩
          · exact ⟨child, hnew, hchild.trans hap⟩
      obtain ⟨hnd, hch⟩ := h.children b hbq
      by_cases hbp : b = parent
      · subst hbp
        rw [hf.parentMem]
        dsimp only
        refine ⟨List.nodup_append.2 ⟨hnd, List.nodup_singleton _, fun p hp' q hq' he => ?_⟩, fun p => ?_⟩
        · rw [List.mem_singleton] at hq'
          obtain ⟨a, ha, hap⟩ := (hch p).1 hp'
          exact h.fresh hf (h.parent a b ha).1 (hap.trans (he.trans hq'))
        · rw [hmem, List.mem_append, List.mem_singleton, hch]
          exact or_congr_right ⟨fun he => ⟨rfl, he.symm⟩, fun he => he.2.symm⟩
      · rw [hf.other b hbp (hne hbq)]
        refine ⟨hnd, fun p => ?_⟩
        rw [hmem, hch]
        exact (or_iff_left fun he => hbp he.1).symm
    · rw [hf.childMem]
      refine ⟨List.nodup_nil, fun p => iff_of_false (by simp) ?_⟩
      rintro ⟨a, hab, -⟩
      by_cases hac : a = b
      · subst hac
        rw [hnew] at hab
        exact hne hp (Option.some.inj hab)
      · rw [hold hac] at hab
        exact hcq (h.parent a b hab).2.1

/-! ### Exits -/

@[simp] theorem dropChild_queue (s : Processes) (parent : Nat) (pid : Int) :
    (s.dropChild parent pid).queue = s.queue := by
  unfold dropChild
  split <;> rfl

@[simp] theorem dropChild_pidMap (s : Processes) (parent : Nat) (pid : Int) :
    (s.dropChild parent pid).pidMap = s.pidMap := by
  unfold dropChild
  split <;> rfl

@[simp] theorem dropChild_pids (s : Processes) (parent : Nat) (pid : Int) :
    (s.dropChild parent pid).pids = s.pids := by
  unfold dropChild
  split <;> rfl

private theorem dropChild_mem {parent : Nat} (hp : parent ≠ 0) (pid : Int) (a : Nat) :
    (s.dropChild parent pid).mem a =
      { s.mem a with children := if a = parent then (s.mem a).children.erase pid else (s.mem a).children } := by
  unfold dropChild
  rw [if_pos hp]
  by_cases ha : a = parent
  · subst ha
    rw [set_mem_self, if_pos rfl]
  · rw [set_mem_of_ne ha, if_neg ha]

/-- The loop over the children: the processes that it finds get parent 1. -/
private theorem reassign_spec (pidHash : Int → UInt64) (keyHash : UInt64 → UInt64) (pids : List Int) (s : Processes) :
    (s.reassign pidHash keyHash pids).queue = s.queue ∧ (s.reassign pidHash keyHash pids).pidMap = s.pidMap ∧
    (s.reassign pidHash keyHash pids).pids = s.pids ∧
    ∀ a, (s.reassign pidHash keyHash pids).mem a =
      { s.mem a with
        ppid := if a ≠ 0 ∧ ∃ p ∈ pids, s.lookupPid pidHash keyHash p = a then 1 else (s.mem a).ppid } := by
  induction pids generalizing s with
  | nil => exact ⟨rfl, rfl, rfl, fun a => by simp [reassign]⟩
  | cons p pids ih =>
    unfold reassign
    by_cases hc : s.lookupPid pidHash keyHash p = 0
    · simp only [hc, ne_eq, not_true_eq_false, if_false]
      obtain ⟨h1, h2, h3, h4⟩ := ih s
      refine ⟨h1, h2, h3, fun a => ?_⟩
      rw [h4 a]
      have hiff : (a ≠ 0 ∧ ∃ q ∈ pids, s.lookupPid pidHash keyHash q = a) ↔
          ¬ a = 0 ∧ ∃ q ∈ p :: pids, s.lookupPid pidHash keyHash q = a := by
        refine and_congr_right fun ha => ?_
        rw [List.exists_mem_cons_iff, hc]
        exact (or_iff_right fun he => ha he.symm).symm
      exact Process.ext rfl (if_congr hiff rfl rfl) rfl rfl rfl
    · simp only [ne_eq, hc, not_false_eq_true, if_true]
      obtain ⟨h1, h2, h3, h4⟩ := ih (s.set (s.lookupPid pidHash keyHash p)
        { s.mem (s.lookupPid pidHash keyHash p) with ppid := 1 })
      refine ⟨h1, h2, h3, fun a => ?_⟩
      rw [h4 a]
      simp only [lookupPid_set]
      by_cases ha : a = s.lookupPid pidHash keyHash p
      · subst ha
        have hex : ∃ q ∈ p :: pids, s.lookupPid pidHash keyHash q = s.lookupPid pidHash keyHash p :=
          ⟨p, List.mem_cons_self, rfl⟩
        rw [set_mem_self]
        exact Process.ext rfl ((ite_self _).trans (if_pos ⟨hc, hex⟩).symm) rfl rfl rfl
      · have hiff : (a ≠ 0 ∧ ∃ q ∈ pids, s.lookupPid pidHash keyHash q = a) ↔
            ¬ a = 0 ∧ ∃ q ∈ p :: pids, s.lookupPid pidHash keyHash q = a := by
          refine and_congr_right fun _ => ?_
          rw [List.exists_mem_cons_iff]
          exact (or_iff_right fun he => ha he.symm).symm
        rw [set_mem_of_ne ha]
        exact Process.ext rfl (if_congr hiff rfl rfl) rfl rfl rfl

private theorem adopt_spec (pidHash : Int → UInt64) (keyHash : UInt64 → UInt64) {init : Nat} (hinit : init ≠ 0)
    (children : List Int) (s : Processes) :
    (s.adopt pidHash keyHash init children).queue = s.queue ∧
    (s.adopt pidHash keyHash init children).pidMap = s.pidMap ∧
    (s.adopt pidHash keyHash init children).pids = s.pids ∧
    ∀ a, (s.adopt pidHash keyHash init children).mem a =
      { s.mem a with
        ppid := if a ≠ 0 ∧ ∃ p ∈ children, s.lookupPid pidHash keyHash p = a then 1 else (s.mem a).ppid
        children := (s.mem a).children ++ if a = init then children else [] } := by
  unfold adopt
  by_cases hc : children = []
  · subst hc
    exact ⟨rfl, rfl, rfl, fun a => by simp⟩
  · rw [if_pos hc, if_pos hinit]
    obtain ⟨h1, h2, h3, h4⟩ := reassign_spec pidHash keyHash children
      (s.set init { s.mem init with children := (s.mem init).children ++ children })
    refine ⟨h1, h2, h3, fun a => ?_⟩
    rw [h4 a]
    by_cases ha : a = init
    · subst ha
      rw [set_mem_self, if_pos rfl]
      rfl
    · rw [set_mem_of_ne ha, if_neg ha, List.append_nil]
      rfl

/-- What the exit of a process leaves of the others. -/
structure Exited (pidHash : Int → UInt64) (init : Nat) (f : Family) (s s' : Processes) (q : Nat) : Prop where
  queue : s'.queue = s.queue.erase q
  pidMap : s'.pidMap = (hashmapRemove s.pidMap (pidHash (s.mem q).pid)).2
  pids : s'.pids = s.pids.free (s.mem q).pid
  other : ∀ a ∈ s.queue, a ≠ q → s'.mem a =
    { s.mem a with
      ppid := if f a = some q then 1 else (s.mem a).ppid
      children := (s.mem a).children.erase (s.mem q).pid ++ if a = init then (s.mem q).children else [] }

theorem Inv.unmapped (hinj : Set.InjOn pidHash pidT) (h : s.Inv pidHash keyHash root f) {q : Nat}
    (hq : q ∈ s.queue) : ∃ g, ((hashmapRemove s.pidMap (pidHash (s.mem q).pid)).2).Models keyHash g ∧
      ∀ key a, g key = some a ↔ (a ∈ s.queue ∧ a ≠ q) ∧ pidHash (s.mem a).pid = key := by
  obtain ⟨g, hg, hlive⟩ := h.mapped
  refine ⟨Function.update g (pidHash (s.mem q).pid) none, (hashmapRemove_models hg _).1, fun key a => ?_⟩
  by_cases hk : key = pidHash (s.mem q).pid
  · subst hk
    rw [Function.update_self]
    refine iff_of_false (by simp) ?_
    rintro ⟨⟨ha, hne⟩, he⟩
    exact hne (h.inj a ha q hq (hinj (h.pid_mem ha) (h.pid_mem hq) he))
  · rw [Function.update_of_ne hk, hlive]
    constructor
    · rintro ⟨ha, rfl⟩
      exact ⟨⟨ha, fun he => hk (he ▸ rfl)⟩, rfl⟩
    · rintro ⟨⟨ha, -⟩, he⟩
      exact ⟨ha, he⟩

private theorem Inv.erase_of_not_parent (h : s.Inv pidHash keyHash root f) {q b a : Nat} (hq : q ∈ s.queue)
    (hb : f q = some b) (ha : a ∈ s.queue) (hne : a ≠ b) :
    (s.mem a).children.erase (s.mem q).pid = (s.mem a).children := by
  refine List.erase_of_not_mem fun hmem => ?_
  obtain ⟨x, hx, hpid⟩ := ((h.children a ha).2 _).1 hmem
  obtain rfl := h.inj x (h.parent x a hx).1 q hq hpid
  rw [hb] at hx
  exact hne (Option.some.inj hx).symm

/-- `process_free` takes the process out of the list of its parent and gives its children to process 1. -/
private theorem free_spec (hinj : Set.InjOn pidHash pidT) (h : s.Inv pidHash keyHash root f)
    (hi : s.HasInit root init f) {q : Nat} (hq : q ∈ s.queue) (hqroot : q ≠ root) (hqinit : q ≠ init) :
    (s.processFree pidHash keyHash q).queue = s.queue ∧
    (s.processFree pidHash keyHash q).pidMap = (hashmapRemove s.pidMap (pidHash (s.mem q).pid)).2 ∧
    (s.processFree pidHash keyHash q).pids = s.pids.free (s.mem q).pid ∧
    ∀ a ∈ s.queue, a ≠ q → (s.processFree pidHash keyHash q).mem a =
      { s.mem a with
        ppid := if f a = some q then 1 else (s.mem a).ppid
        children := (s.mem a).children.erase (s.mem q).pid ++ if a = init then (s.mem q).children else [] } := by
  obtain ⟨b, hb⟩ := Option.ne_none_iff_exists'.1 (mt (h.orphan q hq).1 hqroot)
  obtain ⟨-, hbq, hqb, hpp⟩ := h.parent q b hb
  have hne0 : ∀ {a}, a ∈ s.queue → a ≠ 0 := fun ha he => h.nonnull (he ▸ ha)
  have hlookup : ∀ {s1 : Processes}, s1.pidMap = (hashmapRemove s.pidMap (pidHash (s.mem q).pid)).2 →
      ∀ {p a}, a ∈ s.queue → a ≠ q → (s.mem a).pid = p → s1.lookupPid pidHash keyHash p = a := by
    intro s1 hs1 p a ha hne hp
    obtain ⟨g, hg, hlive⟩ := h.unmapped hinj hq
    unfold lookupPid
    rw [hs1, lookup_agrees hg, (hlive (pidHash p) a).2 ⟨⟨ha, hne⟩, by rw [hp]⟩]
    rfl
  -- the state after the process has been unmapped, and after it has been taken out of the list of its parent
  obtain ⟨s1, hs1⟩ : ∃ s1, s1 = { s with pids := s.pids.free (s.mem q).pid }.unmapPid pidHash (s.mem q).pid :=
    ⟨_, rfl⟩
  have hmem1 : s1.mem = s.mem := by rw [hs1]; rfl
  have hmap1 : s1.pidMap = (hashmapRemove s.pidMap (pidHash (s.mem q).pid)).2 := by rw [hs1]; rfl
  have hparent : s1.lookupPid pidHash keyHash (s1.mem q).ppid = b := by
    rw [hmem1]
    exact hlookup hmap1 hbq hqb.symm hpp.symm
  have hinit : (s1.dropChild b (s.mem q).pid).lookupPid pidHash keyHash 1 = init :=
    hlookup (by rw [dropChild_pidMap, hmap1]) hi.live hqinit.symm hi.pid
  have hmem2 : ∀ a ∈ s.queue, (s1.dropChild b (s.mem q).pid).mem a =
      { s.mem a with children := if a = b then (s.mem a).children.erase (s.mem q).pid else (s.mem a).children } := by
    intro a _
    rw [dropChild_mem (hne0 hbq), hmem1]
  have hchildren : ((s1.dropChild b (s.mem q).pid).mem q).children = (s.mem q).children := by
    rw [hmem2 q hq]
    exact if_neg hqb
  have hfree : s.processFree pidHash keyHash q =
      (s1.dropChild b (s.mem q).pid).adopt pidHash keyHash init (s.mem q).children := by
    unfold processFree
    dsimp only
    rw [← hs1, hparent, hinit, hchildren]
  obtain ⟨h1, h2, h3, h4⟩ :=
    adopt_spec pidHash keyHash (hne0 hi.live) (s.mem q).children (s1.dropChild b (s.mem q).pid)
  rw [hfree]
  refine ⟨?_, ?_, ?_, fun a ha hne => ?_⟩
  · rw [h1, dropChild_queue, hs1]
    rfl
  · rw [h2, dropChild_pidMap, hmap1]
  · rw [h3, dropChild_pids, hs1]
    rfl
  · have hfound : (a ≠ 0 ∧ ∃ p ∈ (s.mem q).children,
        (s1.dropChild b (s.mem q).pid).lookupPid pidHash keyHash p = a) ↔ f a = some q := by
      constructor
      · rintro ⟨-, p, hp, hla⟩
        obtain ⟨x, hx, hxp⟩ := ((h.children q hq).2 p).1 hp
        obtain ⟨hxq, -, hxne, -⟩ := h.parent x q hx
        rw [hlookup (by rw [dropChild_pidMap, hmap1]) hxq hxne hxp] at hla
        rwa [← hla]
      · intro hfa
        exact ⟨hne0 ha, (s.mem a).pid, ((h.children q hq).2 _).2 ⟨a, hfa, rfl⟩,
          hlookup (by rw [dropChild_pidMap, hmap1]) ha hne rfl⟩
    have herase : (if a = b then (s.mem a).children.erase (s.mem q).pid else (s.mem a).children) =
        (s.mem a).children.erase (s.mem q).pid := by
      by_cases hab : a = b
      · exact if_pos hab
      · rw [if_neg hab, h.erase_of_not_parent hq hb ha hab]
    rw [h4 a, hmem2 a ha, if_congr hfound rfl rfl, herase]

theorem exit_spec (hinj : Set.InjOn pidHash pidT) (h : s.Inv pidHash keyHash root f) (hi : s.HasInit root init f)
    {q : Nat} (hstep : treeStep pidHash keyHash s (.exit q) = some s') :
    q ∈ s.queue ∧ (s.mem q).pid ≠ 0 ∧ (s.mem q).pid ≠ 1 ∧ Exited pidHash init f s s' q := by
  unfold treeStep at hstep
  dsimp only at hstep
  split at hstep
  · rename_i hguard
    obtain ⟨hq, hq0, hq1⟩ := hguard
    refine ⟨hq, hq0, hq1, ?_⟩
    cases hstep
    have hlt : s.queue.idxOf q < s.queue.length := List.idxOf_lt_length_of_mem hq
    have hget : s.queue.getD (s.queue.idxOf q) 0 = q := by
      rw [List.getD_eq_getElem?_getD, List.getElem?_eq_getElem hlt]
      exact List.getElem_idxOf hlt
    have hqroot : q ≠ root := fun he => hq0 (he ▸ h.rootLive.2)
    have hqinit : q ≠ init := fun he => hq1 (he ▸ hi.pid)
    obtain ⟨h1, h2, h3, h4⟩ := free_spec hinj h hi hq hqroot hqinit
    unfold processExit
    rw [hget]
    refine ⟨?_, h2, h3, h4⟩
    change (s.processFree pidHash keyHash q).queue.eraseIdx (s.queue.idxOf q) = s.queue.erase q
    rw [h1, List.erase_eq_eraseIdx_of_idxOf rfl]
  · cases hstep

theorem Inv.exit (hinj : Set.InjOn pidHash pidT) (h : s.Inv pidHash keyHash root f) (hi : s.HasInit root init f)
    {q : Nat} (hstep : treeStep pidHash keyHash s (.exit q) = some s') :
    s'.Inv pidHash keyHash root (f.step init (.exit q)) ∧ s'.HasInit root init (f.step init (.exit q)) := by
  obtain ⟨hq, hq0, hq1, hex⟩ := exit_spec hinj h hi hstep
  have hqroot : q ≠ root := fun he => hq0 (he ▸ h.rootLive.2)
  have hqinit : q ≠ init := fun he => hq1 (he ▸ hi.pid)
  have hmem : ∀ {a}, a ∈ s'.queue ↔ a ≠ q ∧ a ∈ s.queue := by
    intro a
    rw [hex.queue]
    exact h.nodup.mem_erase_iff
  have hpid : ∀ {a}, a ∈ s.queue → a ≠ q → (s'.mem a).pid = (s.mem a).pid := by
    intro a ha hne
    rw [hex.other a ha hne]
  have hfam : ∀ {a}, a ≠ q → f.step init (.exit q) a = if f a = some q then some init else f a :=
    fun hne => if_neg hne
  have hroot : root ∈ s'.queue := hmem.2 ⟨hqroot.symm, h.rootLive.1⟩
  have hinit : init ∈ s'.queue := hmem.2 ⟨hqinit.symm, hi.live⟩
  have hpid1 : (s'.mem init).pid = 1 := (hpid hi.live hqinit.symm).trans hi.pid
  have hinitParent : f.step init (.exit q) init = some root := by
    rw [hfam hqinit.symm, if_neg, hi.parent]
    rw [hi.parent]
    exact fun he => hqroot (Option.some.inj he).symm
  refine ⟨⟨?_, ?_, ?_, ?_, ?_, ?_, ?_, ?_, ?_⟩, hinit, hpid1, hinitParent⟩
  · rw [hex.queue]
    exact h.nodup.erase q
  · exact fun h0 => h.nonnull (hmem.1 h0).2
  · exact ⟨hroot, (hpid h.rootLive.1 hqroot.symm).trans h.rootLive.2⟩
  · intro a ha b hb he
    obtain ⟨ha1, ha2⟩ := hmem.1 ha
    obtain ⟨hb1, hb2⟩ := hmem.1 hb
    rw [hpid ha2 ha1, hpid hb2 hb1] at he
    exact h.inj a ha2 b hb2 he
  · -- the IDs of the others stay allocated, since only that of `q` is given back
    intro a ha
    obtain ⟨ha1, ha2⟩ := hmem.1 ha
    obtain ⟨n, hn, hused, hlt, hlimit⟩ := h.used a ha2
    have hne : (n : Int) ≠ (s.mem q).pid := fun he => ha1 (h.inj a ha2 q hq (hn.trans he))
    obtain ⟨hb, hs⟩ := Pids.free_bitmap (s := s.pids) hne
    refine ⟨n, (hpid ha2 ha1).trans hn, ?_, ?_, hlimit⟩
    · rw [hex.pids, hb, hused]
    · rw [hex.pids, hs]
      exact hlt
  · obtain ⟨g, hg, hlive⟩ := h.unmapped hinj hq
    refine ⟨g, by rw [hex.pidMap]; exact hg, fun key a => ?_⟩
    rw [hlive, hmem, and_comm (a := a ∈ s.queue)]
    refine and_congr_right fun ha => ?_
    rw [hpid ha.2 ha.1]
  · -- the children of `q` now have `init` as their parent
    intro a b hab
    by_cases haq : a = q
    · subst haq
      rw [show f.step init (.exit a) a = none from if_pos rfl] at hab
      cases hab
    · rw [hfam haq] at hab
      by_cases hfa : f a = some q
      · rw [if_pos hfa] at hab
        obtain rfl := Option.some.inj hab
        obtain ⟨ha, -, -, hpp⟩ := h.parent a q hfa
        refine ⟨hmem.2 ⟨haq, ha⟩, hinit, ?_, ?_⟩
        · rintro rfl
          rw [hi.parent] at hfa
          exact hqroot (Option.some.inj hfa).symm
        · rw [hpid1, hex.other a ha haq]
          exact if_pos hfa
      · rw [if_neg hfa] at hab
        obtain ⟨ha, hb, hne, hpp⟩ := h.parent a b hab
        have hbq : b ≠ q := fun he => hfa (he ▸ hab)
        refine ⟨hmem.2 ⟨haq, ha⟩, hmem.2 ⟨hbq, hb⟩, hne, ?_⟩
        rw [hpid hb hbq, ← hpp, hex.other a ha haq]
        exact if_neg hfa
  · intro a ha
    obtain ⟨ha1, ha2⟩ := hmem.1 ha
    rw [hfam ha1, ← h.orphan a ha2]
    by_cases hfa : f a = some q
    · rw [if_pos hfa, hfa]
      exact iff_of_false (by simp) (by simp)
    · rw [if_neg hfa]
  · -- the list of `init` gets the children of `q`, and `q` is dropped from the list of its parent
    intro b hb
    obtain ⟨hbq, hb⟩ := hmem.1 hb
    rw [hex.other b hb hbq]
    dsimp only
    obtain ⟨hnd, hch⟩ := h.children b hb
    obtain ⟨hndq, hchq⟩ := h.children q hq
    have hsplit : ∀ p, (∃ a, f.step init (.exit q) a = some b ∧ (s'.mem a).pid = p) ↔
        (p ≠ (s.mem q).pid ∧ ∃ a, f a = some b ∧ (s.mem a).pid = p) ∨
        (b = init ∧ ∃ a, f a = some q ∧ (s.mem a).pid = p) := by
      intro p
      constructor
      · rintro ⟨a, hab, hap⟩
        have haq : a ≠ q := by
          rintro rfl
          rw [show f.step init (.exit a) a = none from if_pos rfl] at hab
          cases hab
        rw [hfam haq] at hab
        by_cases hfa : f a = some q
        · rw [if_pos hfa] at hab
          rw [hpid (h.parent a q hfa).1 haq] at hap
          exact Or.inr ⟨(Option.some.inj hab).symm, a, hfa, hap⟩
        · rw [if_neg hfa] at hab
          have ha := (h.parent a b hab).1
          rw [hpid ha haq] at hap
          exact Or.inl ⟨fun he => haq (h.inj a ha q hq (hap.trans he)), a, hab, hap⟩
      · rintro (⟨hne, a, hab, hap⟩ | ⟨rfl, a, haq, hap⟩)
        · have ha := (h.parent a b hab).1
          have haq : a ≠ q := fun he => hne (he ▸ hap).symm
          refine ⟨a, ?_, (hpid ha haq).trans hap⟩
          rw [hfam haq, if_neg, hab]
          rw [hab]
          exact fun he => hbq (Option.some.inj he)
        · obtain ⟨ha, -, hne, -⟩ := h.parent a q haq
          exact ⟨a, by rw [hfam hne, if_pos haq], (hpid ha hne).trans hap⟩
    have hdisj : ∀ p ∈ (s.mem b).children, p ∉ (s.mem q).children := by
      intro p hp hp'
      obtain ⟨a, ha, hap⟩ := (hch p).1 hp
      obtain ⟨a', ha', hap'⟩ := (hchq p).1 hp'
      obtain rfl := h.inj a (h.parent a b ha).1 a' (h.parent a' q ha').1 (hap.trans hap'.symm)
      rw [ha] at ha'
      exact hbq (Option.some.inj ha')
    constructor
    · refine List.nodup_append.2 ⟨hnd.erase _, ?_, fun p hp p' hp' he => ?_⟩
      · split
        · exact hndq
        · exact List.nodup_nil
      · subst he
        split at hp'
        · exact hdisj p (List.mem_of_mem_erase hp) hp'
        · cases hp'
    · intro p
      rw [hsplit, List.mem_append, hnd.mem_erase_iff, hch]
      refine or_congr_right ?_
      by_cases hbi : b = init
      · rw [if_pos hbi, hchq]
        exact (and_iff_right hbi).symm
      · rw [if_neg hbi]
        exact iff_of_false (by simp) fun he => hbi he.1

/-! ### Runs -/

private theorem boot_models (pidHash : Int → UInt64) (keyHash : UInt64 → UInt64) (root : Nat) :
    (boot pidHash keyHash root).pidMap.Models keyHash
      (Function.update (fun _ => none) (pidHash 0) (some root)) :=
  insert_models (create_models keyHash) _ _

private theorem boot_inv (hroot : root ≠ 0) :
    (boot pidHash keyHash root).Inv pidHash keyHash root (fun _ => none) := by
  have hq : ∀ {a}, a ∈ (boot pidHash keyHash root).queue ↔ a = root := List.mem_singleton
  refine ⟨List.nodup_singleton root, fun h0 => hroot (hq.1 h0).symm, ⟨hq.2 rfl, rfl⟩, ?_, ?_, ?_, ?_, ?_, ?_⟩
  · intro a ha b hb _
    rw [hq.1 ha, hq.1 hb]
  · intro a _
    exact ⟨0, rfl, rfl, Nat.mul_pos (Nat.succ_pos 1023) (by decide), by decide⟩
  · refine ⟨_, boot_models pidHash keyHash root, fun key a => ?_⟩
    rw [hq]
    by_cases hk : key = pidHash 0
    · subst hk
      rw [Function.update_self, Option.some_inj]
      exact ⟨fun he => ⟨he.symm, rfl⟩, fun he => he.1.symm⟩
    · rw [Function.update_of_ne hk]
      exact iff_of_false (by simp) fun he => hk he.2.symm
  · intro a b hab
    cases hab
  · intro a ha
    exact iff_of_true rfl (hq.1 ha)
  · intro b _
    refine ⟨List.nodup_nil, fun p => iff_of_false (by simp [boot]) ?_⟩
    rintro ⟨a, ha, -⟩
    cases ha

private theorem boot_alloc (pidHash : Int → UInt64) (keyHash : UInt64 → UInt64) (root : Nat) :
    ((boot pidHash keyHash root).pids.alloc).1 = some 1 := by
  rfl

theorem start_inv (hinj : Set.InjOn pidHash pidT) (hroot : root ≠ 0)
    (hstep : treeStep pidHash keyHash (boot pidHash keyHash root) (.fork root init) = some s) :
    s.Inv pidHash keyHash root (Family.start root init) ∧ s.HasInit root init (Family.start root init) := by
  refine ⟨(boot_inv hroot).fork init hinj hstep, ?_⟩
  obtain ⟨-, -, -, pid, hf⟩ := fork_spec hstep
  have hpid : pid = 1 := by
    have h1 := boot_alloc pidHash keyHash root
    rw [hf.alloc] at h1
    exact Option.some.inj h1
  subst hpid
  refine ⟨?_, by rw [hf.childMem]; rfl, Function.update_self ..⟩
  rw [hf.queue]
  exact List.mem_append_right _ (List.mem_singleton.2 rfl)

theorem HasInit.fork (hi : s.HasInit root init f) {parent child : Nat}
    (hstep : treeStep pidHash keyHash s (.fork parent child) = some s') :
    s'.HasInit root init (f.step init (.fork parent child)) := by
  obtain ⟨-, -, hcq, pid, hf⟩ := fork_spec hstep
  have hne : init ≠ child := fun he => hcq (he ▸ hi.live)
  refine ⟨?_, (hf.mem_of_ne hne).1.trans hi.pid, (Function.update_of_ne hne ..).trans hi.parent⟩
  rw [hf.queue]
  exact List.mem_append_left _ hi.live

private theorem run_inv (hinj : Set.InjOn pidHash pidT) {calls : List TreeCall} (h : s.Inv pidHash keyHash root f)
    (hi : s.HasInit root init f) (hrun : Machine.run (treeStep pidHash keyHash) calls s = some s') :
    s'.Inv pidHash keyHash root (f.run init calls) ∧ s'.HasInit root init (f.run init calls) := by
  induction calls generalizing s f with
  | nil =>
    cases hrun
    exact ⟨h, hi⟩
  | cons call calls ih =>
    obtain ⟨t, ht, hrest⟩ := Option.bind_eq_some_iff.1 hrun
    cases call with
    | fork parent child => exact ih (h.fork init hinj ht) (hi.fork ht) hrest
    | exit q =>
      obtain ⟨h1, h2⟩ := h.exit hinj hi ht
      exact ih h1 h2 hrest

end

/-- In every run of forks and exits after the fork of process 1, the processes agree with the family of the run. -/
theorem tree_consistent {pidHash : Int → UInt64} (hinj : Set.InjOn pidHash pidT) (keyHash : UInt64 → UInt64)
    {root init : Nat} (hroot : root ≠ 0) (calls : List TreeCall) {s : Processes}
    (hrun : Machine.run (treeStep pidHash keyHash) (.fork root init :: calls) (boot pidHash keyHash root) = some s) :
    s.Consistent pidHash keyHash root init ((Family.start root init).run init calls) := by
  obtain ⟨t, ht, hrest⟩ := Option.bind_eq_some_iff.1 hrun
  obtain ⟨h, hi⟩ := start_inv hinj hroot ht
  obtain ⟨h', hi'⟩ := run_inv hinj h hi hrest
  exact h'.consistent hinj hi'

def orphanRun : List TreeCall := [.fork 10 20, .fork 20 30, .fork 30 40, .exit 30]

theorem ofInt_injOn : Set.InjOn UInt64.ofInt pidT := by
  intro p hp q hq h
  have hnat := congrArg UInt64.toNat h
  unfold UInt64.ofInt at hnat
  rw [UInt64.toNat_ofNat', UInt64.toNat_ofNat'] at hnat
  obtain ⟨hp1, hp2⟩ := hp
  obtain ⟨hq1, hq2⟩ := hq
  omega

theorem tree_consistent_small :
    ∃ s, Machine.run (treeStep UInt64.ofInt id) orphanRun (boot UInt64.ofInt id 10) = some s ∧
    s.Consistent UInt64.ofInt id 10 20 ((Family.start 10 20).run 20 orphanRun.tail) := by
  have hrun : (Machine.run (treeStep UInt64.ofInt id) orphanRun (boot UInt64.ofInt id 10)).isSome = true := by
    decide
  obtain ⟨s, hs⟩ := Option.isSome_iff_exists.1 hrun
  exact ⟨s, hs, tree_consistent ofInt_injOn id (by decide) _ hs⟩

end Processes

end Pml.Kernel
