import Pml.Basic
import Pml.Lib.ByteMemory
import Pml.Util.Map

/-!
# Processes (`kernel/process.c`, `kernel/pid.c`)

A process structure is at an address; the process queue is the list of the addresses of the live processes, and a hash
map leads from the hash of a process ID to the address.  The IDs come from a bitmap.  A process lists the IDs of its
children and keeps the ID of its parent; `processFork` and `processFree` keep the two in step.

Every process has one thread here, whose ID is the ID of the process: `sys_clone` is not implemented.  `siphash` on a
process ID is `pidHash` and on the key of the hash map `keyHash`.
-/

namespace Pml.Kernel

open ByteMemory Util

/-! ### Process IDs -/

abbrev pidBitmapIncrement : Nat := 1024

abbrev pidBitmapSizeLimit : Nat := 32768

/-- The bitmap of allocated IDs, its size in bytes, and the ID to start searching from. -/
structure Pids where
  bitmap : Nat → Bool
  next : Nat
  size : Nat

namespace Pids

/-- The loop of `alloc_pid`; `fuel` bounds how often the bitmap is enlarged. -/
def allocLoop : Nat → Pids → Option Nat × Pids
  | 0, s => (none, s)
  | fuel + 1, s =>
    if s.size < pidBitmapSizeLimit then
      match (List.range' s.next (s.size * 8 - s.next)).find? fun n => !s.bitmap n with
      | some pid => (some pid, { s with bitmap := Function.update s.bitmap pid true, next := pid + 1 })
      | none =>
        allocLoop fuel
          { bitmap := fun n => if s.size * 8 ≤ n then false else s.bitmap n
            next := max s.next (s.size * 8)
            size := s.size + pidBitmapIncrement }
    else (none, s)

/-- `alloc_pid`: the bitmap starts with `PID_BITMAP_INCREMENT` bytes and grows by as many each time. -/
def alloc (s : Pids) : Option Nat × Pids := allocLoop (pidBitmapSizeLimit / pidBitmapIncrement) s

/-- `free_pid` -/
def free (s : Pids) (pid : Int) : Pids :=
  if pid < 0 then s
  else { s with bitmap := Function.update s.bitmap pid.toNat false, next := min s.next pid.toNat }

end Pids

/-! ### Process structures -/

/-- `struct wait_queue`: the bytes of `len` members of type `struct wait_state`. -/
structure WaitQueue where
  len : Nat
  states : Mem

/-- The members of `struct process` that the tree and the wait states are made of. -/
@[ext]
structure Process where
  pid : Int
  ppid : Int
  pgid : Int
  children : List Int
  waits : WaitQueue

/-- The process structures by their addresses, the process queue, the map of process IDs and the allocator of IDs. -/
structure Processes where
  mem : Nat → Process
  queue : List Nat
  pidMap : Map UInt64 Nat
  pids : Pids

namespace Processes

def set (s : Processes) (a : Nat) (p : Process) : Processes := { s with mem := Function.update s.mem a p }

section

variable (pidHash : Int → UInt64) (keyHash : UInt64 → UInt64) (s : Processes)

def mapPidProcess (pid : Int) (a : Nat) : Processes := { s with pidMap := s.pidMap.insert keyHash (pidHash pid) a }

def unmapPid (pid : Int) : Processes := { s with pidMap := (hashmapRemove s.pidMap (pidHash pid)).2 }

/-- `lookup_pid`: 0 is `NULL`. -/
def lookupPid (pid : Int) : Nat := s.pidMap.lookup keyHash (pidHash pid)

/-- `process_fork`, called by the process at `parent`; the structure of the new process is allocated at `child`. -/
def processFork (parent child : Nat) : Option Processes :=
  match s.pids.alloc with
  | (none, _) => none
  | (some pid, pids) =>
    let s := { s with pids := pids }
    let s := s.set child ⟨pid, (s.mem parent).pid, (s.mem parent).pgid, [], ⟨0, fun _ => 0⟩⟩
    some (s.set parent { s.mem parent with children := (s.mem parent).children ++ [(pid : Int)] })

def processEnqueue (a : Nat) : Processes :=
  { s with queue := s.queue ++ [a] }.mapPidProcess pidHash keyHash (s.mem a).pid a

/-- The loop of `process_free` over the children of the process. -/
def reassign (s : Processes) : List Int → Processes
  | [] => s
  | pid :: pids =>
    let child := s.lookupPid pidHash keyHash pid
    (if child ≠ 0 then s.set child { s.mem child with ppid := 1 } else s).reassign pids

def dropChild (parent : Nat) (pid : Int) : Processes :=
  if parent ≠ 0 then s.set parent { s.mem parent with children := (s.mem parent).children.erase pid } else s

/-- Gives the children of a process to process 1, if it has children and there is a process 1. -/
def adopt (init : Nat) (children : List Int) : Processes :=
  if children ≠ [] then
    if init ≠ 0 then
      (s.set init { s.mem init with children := (s.mem init).children ++ children }).reassign pidHash keyHash children
    else s
  else s

def processFree (a : Nat) : Processes :=
  let pid := (s.mem a).pid
  let s := { s with pids := s.pids.free pid }.unmapPid pidHash pid
  let s := s.dropChild (s.lookupPid pidHash keyHash (s.mem a).ppid) pid
  s.adopt pidHash keyHash (s.lookupPid pidHash keyHash 1) (s.mem a).children

def processExit (index : Nat) : Processes :=
  let s := s.processFree pidHash keyHash (s.queue.getD index 0)
  { s with queue := s.queue.eraseIdx index }

/-- The state at the end of `init_pid_allocator`: the kernel process at address `a`, with ID 0. -/
def boot (a : Nat) : Processes :=
  { mem := fun _ => ⟨0, 0, 0, [], ⟨0, fun _ => 0⟩⟩
    queue := [a]
    pidMap := (Map.create : Map UInt64 Nat).insert keyHash (pidHash 0) a
    pids := ⟨Function.update (fun _ => false) 0 true, 1, pidBitmapIncrement⟩ }

end

end Processes

end Pml.Kernel
