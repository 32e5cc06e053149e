import Pml.Arch.RefCounts
import Pml.Arch.ThreadLocal
import Pml.Kernel.FileCounts
import Pml.Kernel.PidRuns

/-!
# Forks that fail (`process_fork`, `process_enqueue` and `process_free` of `kernel/process.c`, `arch/x86_64/thread.c`)

`process_fork` takes a process ID, page frames, references to the pages of the parent, to its files and to its
directory, and an entry in its list of children, and `process_enqueue` an entry in the process queue.  Each of them
can fail for want of memory, and then what was taken before has to be given back.

`process_free` is called for a structure whose ID is still 0, and so takes the kernel process out of the map of
process IDs.  `thread_clone` never frees the thread-local table, nor the references to the pages of the parent.  Once
the thread is attached to the process, it is freed before `process_free` and again by it.  And the two lengths that
are counted up in the argument of `realloc` stay as they are.  So a fork leaves no trace only if it fails before any
of this (`fork_noTrace_iff`).
-/

namespace Pml.Kernel

open Arch ByteMemory Radix Util

/-! ### The code -/

structure ChildTable where
  info : Nat → Int
  len : Nat

/-- The loop of `process_free` that removes a child. -/
def ChildTable.drop (t : ChildTable) (pid : Int) : ChildTable :=
  match (List.range t.len).find? fun i => t.info i = pid with
  | some i => ⟨fun j => if i ≤ j ∧ j < t.len - 1 then t.info (j + 1) else t.info j, t.len - 1⟩
  | none => t

/-- What is freed. -/
inductive Freed where
  | process
  | thread
  | threadQueue
  | mmaps
  | pid (n : Nat)
  | frame (addr : Nat)

/-- The state that a fork works on: memory, the allocator of process IDs, the open files, the reference counts of
vnodes, the children of the processes by the addresses of their structures, the map of process IDs and the process
queue. `freed` logs what is freed; the pages of the user half, of which references are given back, are left out. -/
structure ForkState where
  vm : Vm
  pids : PidTable
  files : Files
  vnodes : Nat → Nat
  children : Nat → ChildTable
  pidMap : Map UInt64 Nat
  queue : Nat → Nat
  queueLen : Nat
  freed : List Freed

/-- The process that forks, and its running thread. -/
structure Caller where
  address : Nat
  pid : Int
  thread : Thread
  cwd : Nat
  fds : List (Option Nat)

/-- The members of the new `struct process` that `process_free` reads; it has no children and no wait states. -/
structure NewProcess where
  pid : Int := 0
  ppid : Int := 0
  threads : List Thread := []
  fdTable : Option (List (Option Nat)) := none
  fdSize : Nat := 0

/-- The allocations on the kernel heap that succeed: the process structure, which is at `address` then, the thread
structure, the bitmap of process IDs of a size, the thread queue, the tables of regions, descriptors and children, and
the process queue. -/
structure ForkHeap where
  process : Bool
  address : Nat
  thread : Bool
  pidBitmap : Nat → Bool
  threadQueue : Bool
  mmaps : Bool
  fds : Bool
  children : Bool
  processQueue : Bool

namespace ForkState

/-- The frames of the thread-local table of a PML4 table and of what `free_pdpt` finds below it. -/
def localFrames (m : Mem) (pml4t : Nat) : List Nat :=
  match child (ptEntry m pml4t (pml4tIndex threadLocalBaseVma)) with
  | some tlp => framesBelow m 3 tlp ++ [tlp]
  | none => []

def threadFree (s : ForkState) (t : Thread) : Option ForkState :=
  (s.pids.free t.tid).map fun pids =>
    let e := ptEntry s.vm.mem t.pml4t (pml4tIndex threadLocalBaseVma)
    let f :=
      if hasFlag e pageFlagPresent then
        let tlp := alignDown e pageSize
        freePage (freePdpt s.vm.mem s.vm.frames tlp) tlp
      else s.vm.frames
    { s with
      pids := pids
      vm := ⟨s.vm.mem, freePage f t.pml4t⟩
      freed := s.freed ++
        .pid t.tid :: ((localFrames s.vm.mem t.pml4t).map .frame ++ [.frame t.pml4t, .thread]) }

section

variable (st : Nat) (h : ForkHeap) (cow : Bool)

/-- `thread_clone`, where `cow` is its argument `copy` and the signal trampoline is at physical address `st`;
undefined if `alloc_pid` is. -/
def threadClone (p : Thread) (s : ForkState) : Option (ForkState × Option Thread) :=
  if h.thread = false then some (s, none)
  else
    let a := allocPage s.vm.frames
    if a.2 = 0 then some ({ s with vm := ⟨s.vm.mem, a.1⟩, freed := s.freed ++ [.thread] }, none)
    else
      match s.pids.alloc h.pidBitmap with
      | none => none
      | some (.pid tid, pids) =>
        let b := allocPage a.1
        if b.2 = 0 then
          (pids.free tid).map fun pids =>
            ({ s with
               vm := ⟨s.vm.mem, freePage b.1 a.2⟩
               pids := pids
               freed := s.freed ++ [.pid tid, .frame a.2, .thread] }, none)
        else
          let r := clonePages st p a.2 (clonePml4t cow p.pml4t a.2 b.2 ⟨s.vm.mem, b.1⟩)
          if r.2 = false then
            (pids.free tid).map fun pids =>
              ({ s with
                 vm := ⟨r.1.mem, freePage (freePdpt r.1.mem r.1.frames b.2) a.2⟩
                 pids := pids
                 freed := s.freed ++ ((framesBelow r.1.mem 3 b.2).map .frame ++ [.pid tid, .frame a.2, .thread]) },
                none)
          else some ({ s with vm := r.1, pids := pids }, some ⟨tid, a.2, p.stackBase, p.stackSize⟩)
      | some (_, pids) =>
        some ({ s with
                vm := ⟨s.vm.mem, freePage a.1 a.2⟩
                pids := pids
                freed := s.freed ++ [.frame a.2, .thread] }, none)

end

/-- `free_altprocfd` for a slot in use: a file without references gives back the one to its vnode. -/
def freeAltprocfd (s : ForkState) (i : Nat) : ForkState :=
  { s with
    files := freeFd s.files i
    vnodes :=
      if decCount (s.files.entry i).count = 0 then
        (s.files.entry i).vnode.elim s.vnodes fun v => Function.update s.vnodes v (s.vnodes v - 1)
      else s.vnodes }

/-- The loop of `process_free` over the slots; undefined if there are slots but no table. -/
def freeSlots (s : ForkState) (p : NewProcess) : Option ForkState :=
  if p.fdSize = 0 then some s
  else p.fdTable.map fun slots => slots.foldl (fun s slot => slot.elim s s.freeAltprocfd) s

section

variable (pidHash : Int → UInt64) (keyHash : UInt64 → UInt64)

/-- `lookup_pid`: 0 is `NULL`. -/
def lookupPid (s : ForkState) (pid : Int) : Nat := s.pidMap.lookup keyHash (pidHash pid)

/-- The end of `process_free`, from `unmap_pid` on. -/
def processUnlink (s : ForkState) (p : NewProcess) : Option ForkState :=
  let s : ForkState := { s with pidMap := (hashmapRemove s.pidMap (pidHash p.pid)).2 }
  (s.freeSlots p).map fun s =>
    let parent := s.lookupPid pidHash keyHash p.ppid
    { s with
      children :=
        if parent ≠ 0 then Function.update s.children parent ((s.children parent).drop p.pid) else s.children
      freed := s.freed ++ [.process] }

/-- `process_free` of a new process. -/
def processFree (s : ForkState) (p : NewProcess) : Option ForkState :=
  match p.threads with
  | [] => s.processUnlink pidHash keyHash p
  | t :: ts =>
    ((t :: ts).foldlM threadFree { s with vm := vmUnmapUserMem s.vm t.pml4t }).bind fun s =>
      processUnlink pidHash keyHash { s with freed := s.freed ++ [.threadQueue] } p

/-- The labels `err2` to `err0` of `process_fork` for a thread that is attached: `process_free` frees it again, and
reads in the structure what `thread_free` has left there. -/
def forkError (c : Caller) (s : ForkState) (p : NewProcess) (t : Thread) : Option (ForkState × Option NewProcess) :=
  let s : ForkState := { s with vnodes := Function.update s.vnodes c.cwd (s.vnodes c.cwd - 1) }
  ((s.threadFree t).bind fun s => s.processFree pidHash keyHash p).map fun s => (s, none)

/-- The part of `process_fork` after the thread is attached. -/
def processFill (h : ForkHeap) (c : Caller) (s : ForkState) (t : Thread) : Option (ForkState × Option NewProcess) :=
  let p : NewProcess := { pid := t.tid, ppid := c.pid, threads := [t] }
  let s : ForkState := { s with vnodes := Function.update s.vnodes c.cwd (s.vnodes c.cwd + 1) }
  if h.mmaps = false then forkError pidHash keyHash c s p t
  else
    let p := { p with fdSize := c.fds.length }
    if h.fds = false then forkError pidHash keyHash c { s with freed := s.freed ++ [.mmaps] } p t
    else
      let p := { p with fdTable := some c.fds }
      let s : ForkState := { s with files := refSlots s.files c.fds }
      let l := s.children c.address
      if h.children = false then
        forkError pidHash keyHash c
          { s with
            children := Function.update s.children c.address ⟨l.info, l.len + 1⟩
            freed := s.freed ++ [.mmaps] } p t
      else
        some ({ s with
                children := Function.update s.children c.address ⟨Function.update l.info l.len p.pid, l.len + 1⟩ },
              some p)

variable (st : Nat) (h : ForkHeap) (cow : Bool) (c : Caller)

/-- `process_fork`, with `thread_attach_process` -/
def processFork (s : ForkState) : Option (ForkState × Option NewProcess) :=
  if h.process = false then some (s, none)
  else
    (threadClone st h cow c.thread s).bind fun r =>
      match r.2 with
      | none => (r.1.processFree pidHash keyHash {}).map fun s => (s, none)
      | some t =>
        if h.threadQueue = false then
          ((r.1.threadFree t).bind fun s => s.processFree pidHash keyHash {}).map fun s => (s, none)
        else processFill pidHash keyHash h c r.1 t

def processEnqueue (s : ForkState) (p : NewProcess) : ForkState × Bool :=
  if h.processQueue = false then ({ s with queueLen := s.queueLen + 1 }, false)
  else
    ({ s with
       queue := Function.update s.queue s.queueLen h.address
       queueLen := s.queueLen + 1
       pidMap := s.pidMap.insert keyHash (pidHash p.pid) h.address }, true)

/-- `__fork`: the second component tells whether it succeeds. -/
def fork (s : ForkState) : Option (ForkState × Bool) :=
  (processFork pidHash keyHash st h cow c s).bind fun r =>
    match r.2 with
    | none => some (r.1, false)
    | some p =>
      let e := processEnqueue pidHash keyHash h r.1 p
      if e.2 = false then (e.1.processFree pidHash keyHash p).map fun s => (s, false) else some e

end

end ForkState

/-! ### No trace -/

def PidTable.Allocated (t : PidTable) (n : Nat) : Prop := n < t.room * 8 ∧ t.bitmap n = true

/-- The fork has left no trace, and nothing was freed twice. -/
structure NoTrace (pidHash : Int → UInt64) (keyHash : UInt64 → UInt64) (c : Caller) (s s' : ForkState) : Prop where
  pids : ∀ n, s'.pids.Allocated n ↔ s.pids.Allocated n
  frames : s'.vm.frames.count = s.vm.frames.count
  files : ∀ i, (s'.files.entry i).count = (s.files.entry i).count
  vnodes : s'.vnodes = s.vnodes
  children : (s'.children c.address).len = (s.children c.address).len ∧
    ∀ i < (s.children c.address).len, (s'.children c.address).info i = (s.children c.address).info i
  queue : s'.queueLen = s.queueLen ∧ ∀ i < s.queueLen, s'.queue i = s.queue i
  pidMap : ∀ pid, s'.lookupPid pidHash keyHash pid = s.lookupPid pidHash keyHash pid
  once : ∃ l, s'.freed = s.freed ++ l ∧ l.Nodup

/-- What is true of the state when a process forks: the ID allocator, the frames and the map of IDs are in order, the
PML4 table of the process and the tables of its user half are in use, as is the frame of the signal trampoline at
`st`. -/
structure ForkState.Wf (keyHash : UInt64 → UInt64) (st : Nat) (c : Caller) (s : ForkState) : Prop where
  pids : ∃ live, (⟨s.pids, live⟩ : PidState).Kept
  frames : s.vm.frames.Wf
  zero : s.vm.frames.count 0 ≠ 0
  root : pageSize ∣ c.thread.pml4t ∧ s.vm.frames.count (c.thread.pml4t / pageSize) ≠ 0
  user : UserCounted s.vm.mem s.vm.frames c.thread.pml4t
  trampoline : st < 2 ^ 64 ∧ st / pageSize ≠ 0 ∧ s.vm.frames.count (st / pageSize) ≠ 0
  stack : c.thread.StackPlaced
  pidMap : ∃ f, s.pidMap.Models keyHash f

/-- `alloc_pid` fails: the size is at its limit, or all bits are set and the bitmap cannot be enlarged. -/
def PidFails (t : PidTable) (mem : Nat → Bool) : Prop :=
  pidBitmapSizeLimit ≤ t.size ∨ ((∀ n < t.room * 8, t.bitmap n = true) ∧ t.room = t.size ∧
    (mem (t.size + pidBitmapIncrement) = false ∨ pidBitmapSizeLimit ≤ t.size + pidBitmapIncrement))

/-- `alloc_pid` finds an ID: a bit is clear, or the bitmap can be enlarged. -/
def PidFound (t : PidTable) (mem : Nat → Bool) : Prop :=
  t.size < pidBitmapSizeLimit ∧ ((∃ n < t.room * 8, t.bitmap n = false) ∨
    (t.room = t.size ∧ mem (t.size + pidBitmapIncrement) = true ∧ t.size + pidBitmapIncrement < pidBitmapSizeLimit))

/-- There is no memory for the process structure; or the kernel process is not in the map of IDs, and the fork fails
before `thread_clone` has both tables, or it fails to attach the thread when the process has no user memory. -/
def CleanFailure (pidHash : Int → UInt64) (keyHash : UInt64 → UInt64) (h : ForkHeap) (c : Caller) (s : ForkState) :
    Prop :=
  h.process = false ∨ (s.lookupPid pidHash keyHash 0 = 0 ∧
    (h.thread = false ∨ ¬Delivers s.vm.frames 1 ∨ PidFails s.pids h.pidBitmap ∨
      (PidFound s.pids h.pidBitmap ∧ (¬Delivers s.vm.frames 2 ∨
        (Delivers s.vm.frames (pagesNeeded c.thread) ∧ h.threadQueue = false ∧ UserFree s.vm.mem c.thread.pml4t)))))

/-! ### The ID of the thread -/

private theorem allocated_free {t u : PidTable} {n : Nat} (hn : n < u.room * 8)
    (hclear : ¬t.Allocated n) (hother : ∀ m, m ≠ n → (u.Allocated m ↔ t.Allocated m)) :
    ∃ t', u.free n = some t' ∧ ∀ m, t'.Allocated m ↔ t.Allocated m := by
  refine ⟨{ u with toPids := u.toPids.free n }, if_neg (by simp only [Int.toNat_natCast]; omega), fun m => ?_⟩
  have hbit : ({ u with toPids := u.toPids.free n } : PidTable).bitmap = Function.update u.bitmap n false := by
    unfold Pids.free
    rw [if_neg (by omega)]
    rfl
  unfold PidTable.Allocated
  rw [hbit]
  by_cases hm : m = n
  · subst hm
    rw [Function.update_self]
    exact ⟨fun h => absurd h.2 (by decide), fun h => absurd h hclear⟩
  · rw [Function.update_of_ne hm]
    exact hother m hm

/-- `alloc_pid` fails and changes nothing, or it returns an ID that was free, or it reads behind the bitmap. -/
private theorem allocPid_cases {t : PidTable} {live : Nat → Bool} (hk : (⟨t, live⟩ : PidState).Kept)
    (mem : Nat → Bool) :
    (PidFails t mem ∧ ∃ r t', t.alloc mem = some (r, t') ∧ (∀ n, r ≠ .pid n) ∧ ∀ n, t'.Allocated n ↔ t.Allocated n) ∨
    (PidFound t mem ∧ ∃ n u t', t.alloc mem = some (.pid n, u) ∧ u.free n = some t' ∧
      ∀ m, t'.Allocated m ↔ t.Allocated m) ∨
    (¬PidFails t mem ∧ ¬PidFound t mem ∧ t.alloc mem = none) := by
  have hgrow : t.room = t.size → ∀ m, t.grow.Allocated m ↔ t.Allocated m := by
    intro hroom m
    unfold PidTable.Allocated PidTable.grow
    dsimp only
    split
    · exact ⟨fun h => absurd h.2 (by decide), fun h => by omega⟩
    · exact and_congr_left fun _ => by omega
  have hcases := hk.alloc_cases mem
  dsimp only at hcases
  rcases hcases with ⟨hsize, he⟩ | ⟨hsize, n, hn, hclear, -, he⟩ | ⟨hall, hsize, hc⟩
  · exact Or.inl ⟨Or.inl hsize, _, _, he, (fun n hn => by cases hn), fun _ => Iff.rfl⟩
  · refine Or.inr
      (Or.inl ⟨⟨hsize, Or.inl ⟨n, hn, hclear⟩⟩, n, ⟨⟨Function.update t.bitmap n true, n + 1, t.size⟩, t.room⟩, ?_⟩)
    obtain ⟨t', h1, h2⟩ := allocated_free (t := t)
      (u := { t with bitmap := Function.update t.bitmap n true, next := n + 1 }) hn
      (fun h => by rw [h.2] at hclear; cases hclear) fun m hm => by
        unfold PidTable.Allocated
        dsimp only
        rw [Function.update_of_ne hm]
    exact ⟨t', he, h1, h2⟩
  · rcases hc with ⟨hlt, he⟩ | ⟨hroom, hmem, he⟩ | ⟨hroom, hmem, hnew, he⟩ | ⟨hroom, -, hnew, he⟩
    · refine Or.inr (Or.inr ⟨?_, ?_, he⟩)
      · rintro (h1 | ⟨-, h1, -⟩)
        · omega
        · exact absurd h1 (Nat.ne_of_lt hlt)
      · rintro ⟨-, ⟨n, hn, hclear⟩ | ⟨h1, -⟩⟩
        · rw [hall n hn] at hclear
          cases hclear
        · exact absurd h1 (Nat.ne_of_lt hlt)
    · exact Or.inl ⟨Or.inr ⟨hall, hroom, Or.inl hmem⟩, _, _, he, (fun n hn => by cases hn), fun _ => Iff.rfl⟩
    · refine Or.inr (Or.inl ⟨⟨hsize, Or.inr ⟨hroom, hmem, hnew⟩⟩, t.size * 8,
        ⟨⟨Function.update t.grow.bitmap (t.size * 8) true, t.size * 8 + 1, t.grow.size⟩, t.grow.room⟩, ?_⟩)
      have hin : t.size * 8 < t.grow.room * 8 := by
        show t.size * 8 < (t.size + pidBitmapIncrement) * 8
        have hinc : pidBitmapIncrement = 1024 := rfl
        omega
      obtain ⟨t', h1, h2⟩ := allocated_free (t := t)
        (u := { t.grow with bitmap := Function.update t.grow.bitmap (t.size * 8) true, next := t.size * 8 + 1 }) hin
        (fun h => by have := h.1; omega) fun m hm => by
          rw [← hgrow hroom m]
          unfold PidTable.Allocated
          dsimp only
          rw [Function.update_of_ne hm]
      exact ⟨t', he, h1, h2⟩
    · exact Or.inl ⟨Or.inr ⟨hall, hroom, Or.inr hnew⟩, _, _, he, (fun n hn => by cases hn), hgrow hroom⟩

private theorem pidFails_not_found {t : PidTable} {mem : Nat → Bool} (h : PidFails t mem) : ¬PidFound t mem := by
  rintro ⟨hsize, hfound⟩
  rcases h with hlimit | ⟨hall, hroom, hdue⟩
  · omega
  · rcases hfound with ⟨n, hn, hclear⟩ | ⟨-, hmem, hnew⟩
    · rw [hall n hn] at hclear
      cases hclear
    · rcases hdue with hdue | hdue
      · rw [hmem] at hdue
        cases hdue
      · omega

/-! ### `thread_clone` -/

/-- What was taken has been given back, and nothing was freed twice. -/
structure GivenBack (s s' : ForkState) : Prop where
  rest : s' = { s with vm := s'.vm, pids := s'.pids, freed := s'.freed }
  pids : ∀ n, s'.pids.Allocated n ↔ s.pids.Allocated n
  frames : s'.vm.frames.count = s.vm.frames.count
  log : ∃ l, s'.freed = s.freed ++ l ∧ l.Nodup ∧ Freed.process ∉ l

/-- `thread_free` gives back everything but the references to the user half. -/
structure FreesThread (p : Thread) (s s' : ForkState) (t : Thread) : Prop where
  frees : ∃ s'', s'.threadFree t = some s'' ∧
    s'' = { s with vm := s''.vm, pids := s''.pids, freed := s''.freed } ∧
    (∀ n, s''.pids.Allocated n ↔ s.pids.Allocated n) ∧
    (s''.vm.frames.count = s.vm.frames.count ↔ UserFree s.vm.mem p.pml4t) ∧
    ∃ l, s''.freed = s.freed ++ l ∧ l.Nodup ∧ Freed.process ∉ l

/-- There is not enough memory for both tables of `thread_clone`, or no ID. -/
def CloneStops (h : ForkHeap) (s : ForkState) : Prop :=
  h.thread = false ∨ ¬Delivers s.vm.frames 1 ∨ PidFails s.pids h.pidBitmap ∨
    (PidFound s.pids h.pidBitmap ∧ ¬Delivers s.vm.frames 2)

/-- `thread_clone` stops before it has both tables; it stops later, and the thread-local table stays allocated; it
reads behind the bitmap of IDs; or it succeeds. -/
inductive Cloned (h : ForkHeap) (p : Thread) (s : ForkState) : Option (ForkState × Option Thread) → Prop
  | stops (s' : ForkState) (cond : CloneStops h s) (given : GivenBack s s') : Cloned h p s (some (s', none))
  | leaks (s' : ForkState) (cond : ¬CloneStops h s) (pages : ¬Delivers s.vm.frames (pagesNeeded p))
      (rest : s' = { s with vm := s'.vm, pids := s'.pids, freed := s'.freed })
      (frames : s'.vm.frames.count ≠ s.vm.frames.count) : Cloned h p s (some (s', none))
  | outside (cond : ¬CloneStops h s) (pid : ¬PidFound s.pids h.pidBitmap) : Cloned h p s none
  | done (s' : ForkState) (t : Thread) (cond : ¬CloneStops h s) (pid : PidFound s.pids h.pidBitmap)
      (pages : Delivers s.vm.frames (pagesNeeded p)) (rest : s' = { s with vm := s'.vm, pids := s'.pids })
      (frees : FreesThread p s s' t) : Cloned h p s (some (s', some t))

private theorem delivers_one {f : Frames} : Delivers f 1 ↔ (allocPage f).2 ≠ 0 := by
  refine ⟨fun h => h 0 Nat.one_pos, fun h j hj => ?_⟩
  obtain rfl : j = 0 := by omega
  exact h

private theorem delivers_two {f : Frames} :
    Delivers f 2 ↔ (allocPage f).2 ≠ 0 ∧ (allocPage (allocPage f).1).2 ≠ 0 := by
  refine ⟨fun h => ⟨h 0 (by decide), h 1 (by decide)⟩, fun h j hj => ?_⟩
  rcases (by omega : j = 0 ∨ j = 1) with rfl | rfl
  · exact h.1
  · exact h.2

section

variable {keyHash : UInt64 → UInt64} {st : Nat} {c : Caller} {s : ForkState} (hw : s.Wf keyHash st c) (h : ForkHeap)
  (cow : Bool)
include hw

/-- The state after all pages have been mapped or a frame was missing. -/
theorem ForkState.Wf.clonePages (ha : (allocPage s.vm.frames).2 ≠ 0)
    (hb : (allocPage (allocPage s.vm.frames).1).2 ≠ 0)
    {r : Vm × Bool} (hr : clonePages st c.thread (allocPage s.vm.frames).2
      (clonePml4t cow c.thread.pml4t (allocPage s.vm.frames).2 (allocPage (allocPage s.vm.frames).1).2
        ⟨s.vm.mem, (allocPage (allocPage s.vm.frames).1).1⟩) = r) :
    let m := markedMem cow c.thread.pml4t (allocPage (allocPage s.vm.frames).1).2 s.vm.mem
    let k := refUser m (allocPage (allocPage s.vm.frames).1).1 c.thread.pml4t
    InUse k.count (allocPage s.vm.frames).2 (allocPage (allocPage s.vm.frames).1).2 ∧
    ((r.2 = false ∧ ¬Delivers s.vm.frames (pagesNeeded c.thread) ∧
      ∃ K E, Building k.count r.1 (allocPage s.vm.frames).2 (allocPage (allocPage s.vm.frames).1).2 K E) ∨
    (r.2 = true ∧ Delivers s.vm.frames (pagesNeeded c.thread) ∧
      Built k.count r.1 (allocPage s.vm.frames).2 (allocPage (allocPage s.vm.frames).1).2)) := by
  have hnew := newTables hw.frames ha hb
  generalize (allocPage s.vm.frames).2 = a at *
  generalize allocPage (allocPage s.vm.frames).1 = b at *
  obtain ⟨-, hrd, -, hrz⟩ := hnew.root
  obtain ⟨-, htd, htlt, htz⟩ := hnew.table
  obtain ⟨hpd, hpc⟩ := hw.root
  have hpt : c.thread.pml4t ≠ b.2 := fun he => hpc (he ▸ htz)
  have hrt : a ≠ b.2 := fun he => hnew.ne (by rw [he])
  have hwf1 : (⟨s.vm.mem, b.1⟩ : Vm).frames.Wf := hnew.wf
  have hstart := building_start (r := a) cow hwf1 hpd hrd htd htlt hpt hrt
  rw [clonePml4t_frames] at hstart
  dsimp only at hstart ⊢
  have huse : InUse (refUser (markedMem cow c.thread.pml4t b.2 s.vm.mem) b.1 c.thread.pml4t).count a b.2 :=
    hnew.inUse hw.zero
  have hst :
    TrampolineFrame (refUser (markedMem cow c.thread.pml4t b.2 s.vm.mem) b.1 c.thread.pml4t).count a b.2 st :=
    hnew.trampoline hw.trampoline.1 hw.trampoline.2.1 hw.trampoline.2.2
  have hserved : Arch.Served s.vm.frames 2 (clonePml4t cow c.thread.pml4t a b.2 ⟨s.vm.mem, b.1⟩).frames := by
    rw [clonePml4t_frames]
    exact ⟨hnew.served.1, hnew.served.2.trans (sameSearch_refUser _ _ _)⟩
  refine ⟨huse, ?_⟩
  rcases hstart.clonePages huse hst hw.stack with ⟨hok, hbuild, hfail⟩ | ⟨hok, hbuilt, hdeliver⟩
  · rw [hr] at hok hbuild
    exact Or.inl ⟨hok, hfail _ hserved, hbuild⟩
  · rw [hr] at hok hbuilt
    exact Or.inr ⟨hok, hdeliver _ hserved, hbuilt⟩

private theorem ForkState.Wf.threadFree (ha : (allocPage s.vm.frames).2 ≠ 0)
    (hb : (allocPage (allocPage s.vm.frames).1).2 ≠ 0) {vm : Vm} {pids pids' : PidTable} {tid : Nat}
    (hfree : pids.free tid = some pids') (hpids : ∀ n, pids'.Allocated n ↔ s.pids.Allocated n)
    (hbuilt : Built (refUser (markedMem cow c.thread.pml4t (allocPage (allocPage s.vm.frames).1).2 s.vm.mem)
      (allocPage (allocPage s.vm.frames).1).1 c.thread.pml4t).count vm (allocPage s.vm.frames).2
      (allocPage (allocPage s.vm.frames).1).2) :
    FreesThread c.thread s { s with vm := vm, pids := pids }
      ⟨tid, (allocPage s.vm.frames).2, c.thread.stackBase, c.thread.stackSize⟩ := by
  have hnew := newTables hw.frames ha hb
  generalize (allocPage s.vm.frames).2 = a at *
  generalize allocPage (allocPage s.vm.frames).1 = b at *
  obtain ⟨K, htree⟩ := hbuilt.tree
  obtain ⟨hwf, hcount⟩ := hbuilt.freePdpt
  have hidx : pml4tIndex threadLocalBaseVma = 506 := by decide
  have hpt : c.thread.pml4t ≠ b.2 := fun he => hw.root.2 (he ▸ hnew.table.2.2.2)
  obtain ⟨hmarked, -⟩ := markedMem_spec cow s.vm.mem hw.root.1 hnew.table.2.1 hpt
  obtain ⟨hpres, hdown⟩ := child_eq_some.1 htree.root
  have hlocal : ForkState.localFrames vm.mem a = framesBelow vm.mem 3 b.2 ++ [b.2] := by
    unfold ForkState.localFrames
    rw [hidx, htree.root]
  have hnodup : (framesBelow vm.mem 3 b.2 ++ [b.2] ++ [a]).Nodup := by
    rw [List.append_assoc, List.singleton_append, List.nodup_append]
    have hrt : b.2 ≠ a := fun he => hnew.ne (by rw [he])
    refine ⟨htree.nodup, by simpa using hrt, fun g hg g' hg' => ?_⟩
    obtain ⟨hin, hne⟩ := htree.mem_frames.1 hg
    rintro rfl
    rcases List.mem_cons.1 hg' with he | hg'
    · exact hne he
    · obtain rfl := List.mem_singleton.1 hg'
      exact htree.outside hin
  refine ⟨_, congrArg (Option.map _) hfree, rfl, hpids, ?_, _, rfl, ?_, ?_⟩
  · dsimp only
    rw [hidx, if_pos hpres, ← hdown]
    rw [hnew.restored_iff hwf hcount fun i hi g hg => hw.user i hi g (by rwa [← hmarked i hi])]
    exact forall₂_congr fun i hi => by rw [hmarked i hi]
  · dsimp only
    rw [hlocal]
    have hmap : ((framesBelow vm.mem 3 b.2 ++ [b.2] ++ [a]).map Freed.frame).Nodup :=
      hnodup.map fun x y he => by cases he; rfl
    rw [List.map_append] at hmap
    simp only [List.map_cons, List.map_nil] at hmap
    rw [List.nodup_cons, ← List.singleton_append (l := [Freed.thread]), ← List.append_assoc, List.nodup_append]
    refine ⟨by simp, hmap, List.nodup_singleton _, fun x hx y hy => ?_⟩
    obtain rfl := List.mem_singleton.1 hy
    rintro rfl
    simp at hx
  · simp

theorem ForkState.Wf.threadClone : Cloned h c.thread s (s.threadClone st h cow c.thread) := by
  obtain ⟨live, hkept⟩ := hw.pids
  unfold ForkState.threadClone
  by_cases hthread : h.thread = false
  · rw [if_pos hthread]
    exact .stops s (Or.inl hthread) ⟨rfl, fun _ => Iff.rfl, rfl, [], by simp, List.nodup_nil, List.not_mem_nil⟩
  rw [if_neg hthread]
  dsimp only
  by_cases ha : (allocPage s.vm.frames).2 = 0
  · rw [if_pos ha]
    refine .stops _ (Or.inr (Or.inl fun hd => delivers_one.1 hd ha))
      ⟨rfl, fun _ => Iff.rfl, ?_, _, rfl, by simp, by simp⟩
    exact (allocPage_none hw.frames hw.zero ha).2
  rw [if_neg ha]
  have hone : Delivers s.vm.frames 1 := delivers_one.2 ha
  obtain ⟨hwfa, -, -, hza, hca⟩ := allocPage_table hw.frames ha
  rcases allocPid_cases hkept h.pidBitmap with ⟨hfails, r, t', he, hr, hpids⟩ | ⟨hfound, n, u, t', he, hfree, hpids⟩ |
    ⟨hfails, hfound, he⟩
  · -- no ID
    have hframes := freePage_allocated hw.frames ha hwfa rfl
    rw [he]
    cases r with
    | pid n => exact absurd rfl (hr n)
    | noMemory => exact .stops _ (Or.inr (Or.inr (Or.inl hfails))) ⟨rfl, hpids, hframes, _, rfl, by simp, by simp⟩
    | exhausted => exact .stops _ (Or.inr (Or.inr (Or.inl hfails))) ⟨rfl, hpids, hframes, _, rfl, by simp, by simp⟩
  · rw [he]
    dsimp only
    have hnot : (allocPage (allocPage s.vm.frames).1).2 ≠ 0 → ¬CloneStops h s := by
      rintro hb (h1 | h1 | h1 | ⟨-, h1⟩)
      · exact hthread h1
      · exact h1 hone
      · exact pidFails_not_found h1 hfound
      · exact h1 (delivers_two.2 ⟨ha, hb⟩)
    by_cases hb : (allocPage (allocPage s.vm.frames).1).2 = 0
    · have hza' : (allocPage s.vm.frames).1.count 0 ≠ 0 := by
        rw [hca, Function.update_of_ne]
        · exact hw.zero
        · intro he0
          rw [← he0] at hza
          exact hw.zero hza
      obtain ⟨hwfb, hcb⟩ := allocPage_none hwfa hza' hb
      rw [if_pos hb, hfree]
      refine .stops _ (Or.inr (Or.inr (Or.inr ⟨hfound, fun hd => (delivers_two.1 hd).2 hb⟩)))
        ⟨rfl, hpids, ?_, _, rfl, by simp, by simp⟩
      exact freePage_allocated hw.frames ha hwfb hcb
    · rw [if_neg hb]
      obtain ⟨huse, hpages⟩ := hw.clonePages cow ha hb rfl
      have hnew := newTables hw.frames ha hb
      generalize Arch.clonePages st c.thread (allocPage s.vm.frames).2 _ = r at hpages ⊢
      rcases hpages with ⟨hok, hmiss, K, E, hbuild⟩ | ⟨hok, hpages, hbuilt⟩
      · -- the thread-local table keeps its reference
        rw [if_pos hok, hfree]
        refine .leaks _ (hnot hb) hmiss rfl fun hsame => ?_
        obtain ⟨hwf, hne⟩ := hbuild.freePdpt_table huse
        obtain ⟨hr0, hrd, hrlt, -⟩ := hnew.root
        have hcount := (freePage_spec hwf hr0 (alignDown_of_dvd hrlt hrd) hrd).2
        have htable := congrFun hsame ((allocPage (allocPage s.vm.frames).1).2 / pageSize)
        dsimp only at htable
        rw [hcount, Function.update_of_ne (Ne.symm hnew.ne), hnew.table.2.2.2] at htable
        exact hne htable
      · rw [if_neg (by rw [hok]; decide)]
        exact .done _ _ (hnot hb) hfound hpages rfl (hw.threadFree cow ha hb hfree hpids hbuilt)
  · -- a read behind the bitmap
    rw [he]
    refine .outside ?_ hfound
    rintro (h1 | h1 | h1 | ⟨h1, -⟩)
    · exact hthread h1
    · exact h1 hone
    · exact hfails h1
    · exact hfound h1

end

/-! ### `process_free` -/

def Later (s s' : ForkState) : Prop := s'.queueLen = s.queueLen ∧ ∃ l, s'.freed = s.freed ++ l

theorem Later.refl (s : ForkState) : Later s s := ⟨rfl, [], (List.append_nil _).symm⟩

theorem Later.trans {s s' s'' : ForkState} (h1 : Later s s') (h2 : Later s' s'') : Later s s'' := by
  obtain ⟨l, hl⟩ := h1.2
  obtain ⟨l', hl'⟩ := h2.2
  exact ⟨h2.1.trans h1.1, l ++ l', by rw [hl', hl, List.append_assoc]⟩

private theorem threadFree_later {s s' : ForkState} {t : Thread} (h : s.threadFree t = some s') :
    s'.queueLen = s.queueLen ∧ ∃ l, s'.freed = s.freed ++ l ∧ Freed.thread ∈ l := by
  obtain ⟨pids, -, rfl⟩ := Option.map_eq_some_iff.1 h
  exact ⟨rfl, _, rfl, by simp⟩

private theorem freeSlots_later {s s' : ForkState} {p : NewProcess} (h : s.freeSlots p = some s') : Later s s' := by
  have hloop : ∀ (slots : List (Option Nat)) (s : ForkState),
      Later s (slots.foldl (fun s slot => slot.elim s s.freeAltprocfd) s) := by
    intro slots
    induction slots with
    | nil => exact Later.refl
    | cons slot slots ih =>
      intro s
      refine Later.trans ?_ (ih _)
      cases slot with
      | none => exact .refl s
      | some i => exact ⟨rfl, [], (List.append_nil _).symm⟩
  unfold ForkState.freeSlots at h
  split at h
  · obtain rfl := Option.some.inj h
    exact .refl s
  · obtain ⟨slots, -, rfl⟩ := Option.map_eq_some_iff.1 h
    exact hloop slots s

section

variable {pidHash : Int → UInt64} {keyHash : UInt64 → UInt64}

private theorem processUnlink_later {s s' : ForkState} {p : NewProcess}
    (h : s.processUnlink pidHash keyHash p = some s') :
    Later s s' := by
  unfold ForkState.processUnlink at h
  obtain ⟨s1, h1, rfl⟩ := Option.map_eq_some_iff.1 h
  obtain ⟨hlen, l, hl⟩ := freeSlots_later h1
  exact ⟨hlen, l ++ [.process], by
    dsimp only at hl ⊢
    rw [hl, List.append_assoc]⟩

private theorem processFree_later {s s' : ForkState} {p : NewProcess} {t : Thread} (ht : p.threads = [t])
    (h : s.processFree pidHash keyHash p = some s') :
    s'.queueLen = s.queueLen ∧ ∃ l, s'.freed = s.freed ++ l ∧ Freed.thread ∈ l := by
  unfold ForkState.processFree at h
  rw [ht] at h
  dsimp only at h
  obtain ⟨s1, h1, h2⟩ := Option.bind_eq_some_iff.1 h
  rw [List.foldlM_cons] at h1
  obtain ⟨s2, h3, h4⟩ := Option.bind_eq_some_iff.1 h1
  rw [List.foldlM_nil] at h4
  obtain rfl := Option.some.inj h4
  obtain ⟨hlen, l, hl, hmem⟩ := threadFree_later h3
  obtain ⟨hlen', l', hl'⟩ := processUnlink_later h2
  refine ⟨hlen'.trans hlen, l ++ ([.threadQueue] ++ l'), ?_, List.mem_append_left _ hmem⟩
  dsimp only at hl hl'
  rw [hl', hl]
  simp only [List.append_assoc]

private theorem forkError_twice {c : Caller} {s s0 : ForkState} {p : NewProcess} {t : Thread}
    {r : ForkState × Option NewProcess} (ht : p.threads = [t]) (hs : ∃ l, s.freed = s0.freed ++ l)
    (h : ForkState.forkError pidHash keyHash c s p t = some r) : r.2 = none ∧ ¬NoTrace pidHash keyHash c s0 r.1 := by
  unfold ForkState.forkError at h
  dsimp only at h
  obtain ⟨s2, h1, rfl⟩ := Option.map_eq_some_iff.1 h
  obtain ⟨s1, h2, h3⟩ := Option.bind_eq_some_iff.1 h1
  obtain ⟨-, l1, hl1, hmem1⟩ := threadFree_later h2
  obtain ⟨-, l2, hl2, hmem2⟩ := processFree_later ht h3
  obtain ⟨l0, hl0⟩ := hs
  refine ⟨rfl, fun hno => ?_⟩
  obtain ⟨l, hl, hnodup⟩ := hno.once
  dsimp only at hl hl1
  rw [hl2, hl1, hl0, List.append_assoc, List.append_assoc, List.append_cancel_left_eq] at hl
  rw [← hl, ← List.append_assoc, List.nodup_append] at hnodup
  exact hnodup.2.2 _ (List.mem_append_right l0 hmem1) _ hmem2 rfl

private theorem processFill_cases {h : ForkHeap} {c : Caller} {s s0 : ForkState} {t : Thread}
    {r : ForkState × Option NewProcess} (hfreed : s.freed = s0.freed) (hlen : s.queueLen = s0.queueLen)
    (hr : ForkState.processFill pidHash keyHash h c s t = some r) :
    (r.2 = none ∧ ¬NoTrace pidHash keyHash c s0 r.1) ∨
      ∃ p, r.2 = some p ∧ p.threads = [t] ∧ r.1.queueLen = s0.queueLen := by
  unfold ForkState.processFill at hr
  dsimp only at hr
  split at hr
  · refine Or.inl (forkError_twice ?_ ⟨[], ?_⟩ hr)
    · rfl
    · rw [List.append_nil]
      exact hfreed
  · split at hr
    · exact Or.inl (forkError_twice (by rfl) ⟨[.mmaps], by rw [← hfreed]⟩ hr)
    · split at hr
      · exact Or.inl (forkError_twice (by rfl) ⟨[.mmaps], by rw [← hfreed]⟩ hr)
      · obtain rfl := Option.some.inj hr
        exact Or.inr ⟨_, rfl, rfl, hlen⟩

private theorem processFree_empty {s : ForkState} {f : UInt64 → Option Nat} (hm : s.pidMap.Models keyHash f) :
    s.processFree pidHash keyHash {} = some { s with
      pidMap := (hashmapRemove s.pidMap (pidHash 0)).2, freed := s.freed ++ [.process] } := by
  have hzero : (hashmapRemove s.pidMap (pidHash 0)).2.lookup keyHash (pidHash 0) = 0 := by
    rw [lookup_agrees (hashmapRemove_models hm (pidHash 0)).1, Function.update_self]
    rfl
  unfold ForkState.processFree ForkState.processUnlink ForkState.freeSlots ForkState.lookupPid
  dsimp only
  rw [if_pos rfl, Option.map_some, hzero]
  rfl

/-- Without contents, a process structure is freed without a trace if the kernel process is not in the map of IDs. -/
private theorem noTrace_unmapped {c : Caller} {s s' : ForkState} {f : UInt64 → Option Nat}
    (hm : s.pidMap.Models keyHash f) (hrest : s' = { s with vm := s'.vm, pids := s'.pids, freed := s'.freed })
    (hpids : ∀ n, s'.pids.Allocated n ↔ s.pids.Allocated n)
    (hlog : ∃ l, s'.freed = s.freed ++ l ∧ l.Nodup ∧ Freed.process ∉ l) :
    (∃ s'', s'.processFree pidHash keyHash {} = some s'' ∧ NoTrace pidHash keyHash c s s'') ↔
      s.lookupPid pidHash keyHash 0 = 0 ∧ s'.vm.frames.count = s.vm.frames.count := by
  rw [hrest, processFree_empty (by exact hm)]
  have hlookup : ∀ pid, (hashmapRemove s.pidMap (pidHash 0)).2.lookup keyHash (pidHash pid) =
      if pidHash pid = pidHash 0 then 0 else s.pidMap.lookup keyHash (pidHash pid) := by
    intro pid
    rw [lookup_agrees (hashmapRemove_models hm (pidHash 0)).1, lookup_agrees hm]
    split
    · rename_i he
      rw [he, Function.update_self]
      rfl
    · rename_i hne
      rw [Function.update_of_ne hne]
  constructor
  · rintro ⟨s'', he, hno⟩
    obtain rfl := Option.some.inj he
    refine ⟨?_, hno.frames⟩
    have h0 := hno.pidMap 0
    unfold ForkState.lookupPid at h0 ⊢
    rw [← h0]
    dsimp only
    rw [hlookup 0, if_pos rfl]
  · rintro ⟨h0, hframes⟩
    obtain ⟨l, hl, hnodup, hnot⟩ := hlog
    refine ⟨_, rfl, hpids, hframes, fun _ => rfl, rfl, ⟨rfl, fun _ _ => rfl⟩, ⟨rfl, fun _ _ => rfl⟩, fun pid => ?_,
      l ++ [.process], ?_, ?_⟩
    · unfold ForkState.lookupPid at h0 ⊢
      dsimp only
      rw [hlookup pid]
      split
      · rename_i he
        rw [he, h0]
      · rfl
    · dsimp only
      rw [hl, List.append_assoc]
    · rw [List.nodup_append]
      refine ⟨hnodup, List.nodup_singleton _, fun x hx y hy => ?_⟩
      obtain rfl := List.mem_singleton.1 hy
      rintro rfl
      exact hnot hx

end

/-! ### Forks that fail -/

section

variable {pidHash : Int → UInt64} {keyHash : UInt64 → UInt64} {st : Nat} {h : ForkHeap} {cow : Bool} {c : Caller}
  {s : ForkState}

theorem NoTrace.refl (s : ForkState) : NoTrace pidHash keyHash c s s :=
  ⟨fun _ => Iff.rfl, rfl, fun _ => rfl, rfl, ⟨rfl, fun _ _ => rfl⟩, ⟨rfl, fun _ _ => rfl⟩, fun _ => rfl, [],
    (List.append_nil _).symm, List.nodup_nil⟩

private theorem cleanFailure_stops (hp : h.process ≠ false) (hc : CloneStops h s) :
    CleanFailure pidHash keyHash h c s ↔ s.lookupPid pidHash keyHash 0 = 0 := by
  constructor
  · rintro (h1 | ⟨h1, -⟩)
    · exact absurd h1 hp
    · exact h1
  · intro h0
    refine Or.inr ⟨h0, ?_⟩
    rcases hc with h1 | h1 | h1 | ⟨h1, h2⟩
    · exact Or.inl h1
    · exact Or.inr (Or.inl h1)
    · exact Or.inr (Or.inr (Or.inl h1))
    · exact Or.inr (Or.inr (Or.inr ⟨h1, Or.inl h2⟩))

private theorem cleanFailure_goes (hp : h.process ≠ false) (hc : ¬CloneStops h s) :
    CleanFailure pidHash keyHash h c s ↔ s.lookupPid pidHash keyHash 0 = 0 ∧ PidFound s.pids h.pidBitmap ∧
      Delivers s.vm.frames (pagesNeeded c.thread) ∧ h.threadQueue = false ∧ UserFree s.vm.mem c.thread.pml4t := by
  constructor
  · rintro (h1 | ⟨h0, h1 | h1 | h1 | ⟨h1, h2 | h2⟩⟩)
    · exact absurd h1 hp
    · exact absurd (Or.inl h1) hc
    · exact absurd (Or.inr (Or.inl h1)) hc
    · exact absurd (Or.inr (Or.inr (Or.inl h1))) hc
    · exact absurd (Or.inr (Or.inr (Or.inr ⟨h1, h2⟩))) hc
    · exact ⟨h0, h1, h2⟩
  · rintro ⟨h0, h1, h2⟩
    exact Or.inr ⟨h0, Or.inr (Or.inr (Or.inr ⟨h1, Or.inr h2⟩))⟩

/-- The part of `__fork` after the thread is attached: a failure leaves a trace. -/
private theorem fork_attached {s' : ForkState} {t : Thread} (hrest : s' = { s with vm := s'.vm, pids := s'.pids })
    {s'' : ForkState} (he : ((ForkState.processFill pidHash keyHash h c s' t).bind fun r =>
      match r.2 with
      | none => some (r.1, false)
      | some p =>
        let e := ForkState.processEnqueue pidHash keyHash h r.1 p
        if e.2 = false then (e.1.processFree pidHash keyHash p).map fun s => (s, false) else some e) = some
          (s'', false)) :
    ¬NoTrace pidHash keyHash c s s'' := by
  obtain ⟨⟨s1, o⟩, h1, h2⟩ := Option.bind_eq_some_iff.1 he
  have hfreed : s'.freed = s.freed := by rw [hrest]
  have hqueue : s'.queueLen = s.queueLen := by rw [hrest]
  rcases processFill_cases hfreed hqueue h1 with ⟨ho, hno⟩ | ⟨p, ho, ht, hlen⟩
  · dsimp only at ho hno h2
    subst ho
    obtain ⟨rfl, -⟩ := Prod.mk.inj (Option.some.inj h2)
    exact hno
  · dsimp only at ho hlen h2
    subst ho
    unfold ForkState.processEnqueue at h2
    dsimp only at h2
    split at h2
    · -- the length of the queue is not counted down
      rw [if_pos rfl] at h2
      obtain ⟨s2, h3, h4⟩ := Option.map_eq_some_iff.1 h2
      obtain ⟨rfl, -⟩ := Prod.mk.inj h4
      obtain ⟨hlen', -⟩ := processFree_later ht h3
      intro hno
      have hqueue := hno.queue.1
      dsimp only at hlen'
      omega
    · rw [if_neg (by decide : ¬true = false)] at h2
      exact absurd (Prod.mk.inj (Option.some.inj h2)).2 (by decide)

/-- A fork that fails leaves no trace exactly if it fails for want of a process structure, or, when the kernel process
is not in the map of IDs, before `thread_clone` has both tables or at the thread queue of a process without user
memory. -/
theorem fork_noTrace_iff (hw : s.Wf keyHash st c)
    (hfail : ∀ s', ForkState.fork pidHash keyHash st h cow c s ≠ some (s', true)) :
    (∃ s', ForkState.fork pidHash keyHash st h cow c s = some (s', false) ∧ NoTrace pidHash keyHash c s s') ↔
      CleanFailure pidHash keyHash h c s := by
  obtain ⟨f, hm⟩ := hw.pidMap
  unfold ForkState.fork ForkState.processFork at hfail ⊢
  by_cases hp : h.process = false
  · rw [if_pos hp]
    exact ⟨fun _ => Or.inl hp, fun _ => ⟨s, rfl, NoTrace.refl s⟩⟩
  rw [if_neg hp] at hfail ⊢
  have hclone := hw.threadClone h cow
  generalize s.threadClone st h cow c.thread = o at hclone hfail ⊢
  -- a call of `process_free` for a structure without contents ends the fork
  have hend : ∀ s1 :
    ForkState, (∃ s', (((s1.processFree pidHash keyHash {}).map fun s => (s, (none : Option NewProcess))).bind
      fun r => match r.2 with
        | none => some (r.1, false)
        | some p =>
          let e := ForkState.processEnqueue pidHash keyHash h r.1 p
          if e.2 = false then (e.1.processFree pidHash keyHash p).map fun s => (s, false) else some e) =
        some (s', false) ∧ NoTrace pidHash keyHash c s s') ↔
      ∃ s', s1.processFree pidHash keyHash {} = some s' ∧ NoTrace pidHash keyHash c s s' := by
    intro s1
    refine exists_congr fun s' => and_congr_left fun _ => ?_
    cases s1.processFree pidHash keyHash {} with
    | none => exact ⟨(fun he => by cases he), (fun he => by cases he)⟩
    | some s2 =>
      constructor
      · intro he
        exact congrArg some (Prod.mk.inj (Option.some.inj he)).1
      · intro he
        cases he
        rfl
  cases hclone with
  | stops s1 cond given =>
    rw [cleanFailure_stops hp cond]
    refine (hend s1).trans ((noTrace_unmapped hm given.rest given.pids given.log).trans ?_)
    exact ⟨fun h0 => h0.1, fun h0 => ⟨h0, given.frames⟩⟩
  | leaks s1 cond pages rest frames =>
    rw [cleanFailure_goes hp cond]
    refine (hend s1).trans ⟨?_, fun h0 => absurd h0.2.2.1 pages⟩
    rintro ⟨s2, he, hno⟩
    refine absurd ?_ frames
    have hm1 : s1.pidMap.Models keyHash f := by
      rw [rest]
      exact hm
    rw [processFree_empty hm1] at he
    obtain rfl := Option.some.inj he
    exact hno.frames
  | outside cond pid =>
    rw [cleanFailure_goes hp cond]
    refine ⟨?_, fun h0 => absurd h0.2.1 pid⟩
    rintro ⟨s1, he, -⟩
    cases he
  | done s1 t cond pid pages rest frees =>
    rw [cleanFailure_goes hp cond]
    dsimp only [Option.bind_some] at hfail ⊢
    by_cases hq : h.threadQueue = false
    · obtain ⟨s2, hfree, hrest, hpids, hframes, hlog⟩ := frees.frees
      rw [if_pos hq, hfree]
      refine (hend s2).trans ((noTrace_unmapped hm hrest hpids hlog).trans ?_)
      rw [hframes]
      exact ⟨fun h0 => ⟨h0.1, pid, pages, hq, h0.2⟩, fun h0 => ⟨h0.1, h0.2.2.2.2⟩⟩
    · rw [if_neg hq]
      refine ⟨?_, fun h0 => absurd h0.2.2.2.1 hq⟩
      rintro ⟨s2, he, hno⟩
      exact absurd hno (fork_attached rest he)

end

/-! ### Forks without memory for the thread or for its queue -/

/-- `pid_t` as a key. -/
def pidKey (pid : Int) : UInt64 := UInt64.ofNat (pid % 2 ^ 64).toNat

def forkCaller : Caller :=
  ⟨0x100000, 1, ⟨1, 0x1000, processStackTopVma - kernelStackSize, kernelStackSize⟩, 5, []⟩

/-- The kernel process is the only one in the map of IDs, and the frames 0 to 2 are in use. -/
def forkStart : ForkState where
  vm := ⟨fun _ => 0, ⟨fun k => if k < 3 then 1 else 0, 0x3000, true, [⟨0, 0x1000000⟩], 0⟩⟩
  pids := PidTable.init
  files := ⟨fun _ => {}, 0⟩
  vnodes := fun _ => 1
  children := fun _ => ⟨fun _ => 0, 0⟩
  pidMap := Map.create.insert id (pidKey 0) 0x80000
  queue := fun _ => 0x80000
  queueLen := 1
  freed := []

def forkHeap (thread : Bool) : ForkHeap := ⟨true, 0x200000, thread, fun _ => true, false, true, true, true, true⟩

private theorem forkStart_wf : forkStart.Wf id 0x2000 forkCaller where
  pids := ⟨_, pidStart_kept⟩
  frames := by
    refine ⟨by decide, by decide, fun i => ?_, by decide⟩
    rcases i with - | i
    · exact Nat.dvd_zero _
    · exact Nat.dvd_zero _
  zero := by decide
  root := by decide
  user := by
    intro i _ g hg
    have hentry : ptEntry forkStart.vm.mem forkCaller.thread.pml4t i = 0 := rfl
    rw [hentry] at hg
    cases hg
  trampoline := by decide
  stack := ⟨rfl, rfl⟩
  pidMap := ⟨_, insert_models (create_models id) (pidKey 0) 0x80000⟩

def forkUnmapped : ForkState := { forkStart with pidMap := Map.create }

private theorem forkUnmapped_wf : forkUnmapped.Wf id 0x2000 forkCaller :=
  { forkStart_wf with pidMap := ⟨_, create_models id⟩ }

/-- The first frames that `alloc_page` returns are those after frame 2. -/
private theorem forkStart_allocs {j : Nat} (hj : j < 4093) :
    ∃ count, (∀ i, 3 + j ≤ i → count i = 0) ∧
      allocs j forkStart.vm.frames = ⟨count, (3 + j) * pageSize, true, [⟨0, 0x1000000⟩], 0⟩ := by
  induction j with
  | zero => exact ⟨_, fun i hi => if_neg (by omega), rfl⟩
  | succ j ih =>
    obtain ⟨count, hfree, he⟩ := ih (by omega)
    have hpage : (3 + j) * pageSize / pageSize = 3 + j := Nat.mul_div_cancel _ (by decide)
    refine ⟨Function.update count (3 + j) 1, fun i hi => ?_, ?_⟩
    · rw [Function.update_of_ne (by omega)]
      exact hfree i (by omega)
    · have hin : (3 + j) * pageSize < 0x1000000 := by
        simp only [pageSize]
        omega
      rw [allocs_succ, he, allocPage_of_free rfl (by rw [hpage]; exact hfree _ (Nat.le_refl _)), hpage]
      unfold vmNextPage
      simp only [List.length_singleton, Nat.sub_self, nextRegion, Frames.region, List.getD_cons_zero,
        Nat.zero_add, hin, ↓reduceIte, Frames.mk.injEq, true_and, and_true]
      simp only [pageSize]
      omega

private theorem forkStart_delivers : Delivers forkStart.vm.frames (pagesNeeded forkCaller.thread) := by
  have hpages : (clonedPages forkCaller.thread).length = 768 := by
    simp [clonedPages, stackPages, kernelPages, forkCaller, kernelStackSize, pageSize]
  have hneeded := pagesNeeded_le forkCaller.thread
  intro j hj
  obtain ⟨count, hfree, he⟩ := forkStart_allocs (j := j) (by omega)
  have hpage : (3 + j) * pageSize / pageSize = 3 + j := Nat.mul_div_cancel _ (by decide)
  rw [he, allocPage_of_free rfl (by rw [hpage]; exact hfree _ (Nat.le_refl _))]
  exact Nat.mul_ne_zero (by omega) (by decide)

/-- If there is no memory for the queue of threads, the fork fails. -/
private theorem fork_noQueue {pidHash : Int → UInt64} {keyHash : UInt64 → UInt64} {st : Nat} {h : ForkHeap}
    {cow : Bool} {c : Caller} {s s' : ForkState} (hq : h.threadQueue = false) :
    ForkState.fork pidHash keyHash st h cow c s ≠ some (s', true) := by
  intro he
  obtain ⟨⟨s1, o⟩, h1, h2⟩ := Option.bind_eq_some_iff.1 he
  have hnone : o = none := by
    unfold ForkState.processFork at h1
    by_cases hp : h.process = false
    · rw [if_pos hp] at h1
      exact (Prod.mk.inj (Option.some.inj h1)).2.symm
    · rw [if_neg hp] at h1
      obtain ⟨⟨s2, t⟩, -, h3⟩ := Option.bind_eq_some_iff.1 h1
      cases t with
      | none =>
        obtain ⟨s3, -, h4⟩ := Option.map_eq_some_iff.1 h3
        exact (Prod.mk.inj h4).2.symm
      | some t =>
        dsimp only at h3
        rw [if_pos hq] at h3
        obtain ⟨s3, -, h4⟩ := Option.map_eq_some_iff.1 h3
        exact (Prod.mk.inj h4).2.symm
  subst hnone
  cases h2

/-- When PID 0 is not in the map and there is no memory for the queue of threads, the fork takes an ID and all its
frames and gives them back. -/
theorem forkUnmapped_noTrace : ∃ s', ForkState.fork pidKey id 0x2000 (forkHeap true) true forkCaller forkUnmapped =
    some (s', false) ∧ NoTrace pidKey id forkCaller forkUnmapped s' := by
  refine (fork_noTrace_iff forkUnmapped_wf fun s' => fork_noQueue (h := forkHeap true) rfl).2 ?_
  have hfound : PidFound forkUnmapped.pids (forkHeap true).pidBitmap := ⟨by decide, Or.inl ⟨1, by decide, rfl⟩⟩
  have huser : UserFree forkUnmapped.vm.mem forkCaller.thread.pml4t := fun i _ =>
    congrArg child (show ptEntry forkUnmapped.vm.mem forkCaller.thread.pml4t i = 0 from rfl)
  exact Or.inr ⟨rfl, Or.inr (Or.inr (Or.inr ⟨hfound, Or.inr ⟨forkStart_delivers, rfl, huser⟩⟩))⟩

private theorem fork_noThread {pidHash : Int → UInt64} {keyHash : UInt64 → UInt64} {st : Nat} {h : ForkHeap}
    {cow : Bool}
    {c : Caller} {s : ForkState} {f : UInt64 → Option Nat} (hm : s.pidMap.Models keyHash f) (hp : h.process ≠ false)
    (ht : h.thread = false) : ForkState.fork pidHash keyHash st h cow c s = some ({ s with
      pidMap := (hashmapRemove s.pidMap (pidHash 0)).2, freed := s.freed ++ [.process] }, false) := by
  unfold ForkState.fork ForkState.processFork ForkState.threadClone
  rw [if_neg hp, if_pos ht, Option.bind_some]
  dsimp only
  rw [processFree_empty hm]
  rfl

/-- A fork that fails can leave a trace. -/
theorem forkStart_trace : ¬∀ (h : ForkHeap) (s : ForkState), s.Wf id 0x2000 forkCaller →
    ∀ s', ForkState.fork pidKey id 0x2000 h true forkCaller s = some (s', false) →
    NoTrace pidKey id forkCaller s s' := by
  intro hclaim
  have hm : forkStart.pidMap.Models id (Function.update (fun _ => none) (pidKey 0) (some 0x80000)) :=
    insert_models (create_models id) (pidKey 0) 0x80000
  have hno := hclaim (forkHeap false) forkStart forkStart_wf _ (fork_noThread hm (by decide) rfl)
  have h0 := hno.pidMap 0
  unfold ForkState.lookupPid at h0
  dsimp only at h0
  rw [lookup_agrees (hashmapRemove_models hm (pidKey 0)).1, Function.update_self] at h0
  have h1 : forkStart.pidMap.lookup id (pidKey 0) = 0x80000 := by
    refine (lookup_agrees hm (pidKey 0)).trans ?_
    rw [Function.update_self]
    rfl
  rw [h1] at h0
  exact absurd h0 (by decide)

end Pml.Kernel
