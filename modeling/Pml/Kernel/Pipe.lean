import Pml.Basic
import Pml.Lib.ByteMemory
import Pml.Lib.Machine

/-!
# Pipes (`drivers/fs/pipe.c`)

A pipe keeps the bytes that were written and not yet read in a buffer, between the indexes `start` and `end`.  A call
waits in a loop around `sched_yield`: `pipe_read` for a byte and `pipe_write` for room.  Between two of these yields a
call is atomic, so the system is a machine whose inputs are the calls, the turns of waiting calls and the closing of
the write end.

`pipe_read` takes a part of the bytes without moving `start`, and it returns nothing from the moment on when one end
was closed.  In runs without these two the pipe is a queue of bytes (`pipe_fifo`).
-/

namespace Pml.Kernel

open ByteMemory Machine

abbrev pipeSize : Nat := 8 * 4096

structure Pipe where
  buffer : Mem
  start : Nat
  fin : Nat
  widowed : Bool

def bytes (m : Mem) (a n : Nat) : List UInt8 := (List.range n).map fun i => m (a + i)

def storeBytes (m : Mem) (a : Nat) (data : List UInt8) : Mem := fun x =>
  if a ≤ x ∧ x < a + data.length then data.getD (x - a) 0 else m x

/-- The length that `pipe_read` returns. -/
def Pipe.readLen (p : Pipe) (len : Nat) : Nat := if p.fin - p.start < len then p.fin - p.start else len

/-- `pipe_read` after the wait: the bytes and the pipe afterwards. -/
def pipeRead (p : Pipe) (len : Nat) : List UInt8 × Pipe :=
  (bytes p.buffer p.start (p.readLen len), if p.fin - p.start ≤ len then { p with start := 0, fin := 0 } else p)

def Pipe.append (p : Pipe) (data : List UInt8) : Pipe :=
  { p with buffer := storeBytes p.buffer p.fin data, fin := p.fin + data.length }

def Pipe.compact (p : Pipe) : Pipe :=
  { p with buffer := copy p.buffer 0 p.start (p.fin - p.start), fin := p.fin - p.start, start := 0 }

/-- A call that waits. -/
inductive Waiting
  | reader (len : Nat)
  | writer (data : List UInt8)

/-- A pipe with the calls that wait, and the bytes that writes have accepted and reads have returned so far. -/
structure PipeSystem where
  pipe : Pipe
  waiting : List Waiting
  accepted : List UInt8
  returned : List UInt8

/-- A call for a read or a write, the turn of a waiting call, and `pipe_dealloc` of the write end. -/
inductive PipeInput
  | read (len : Nat)
  | write (data : List UInt8)
  | turn (i : Nat)
  | close

def PipeSystem.finishRead (s : PipeSystem) (len : Nat) : PipeSystem :=
  { s with pipe := (pipeRead s.pipe len).2, returned := s.returned ++ (pipeRead s.pipe len).1 }

def PipeSystem.finishWrite (s : PipeSystem) (p : Pipe) (data : List UInt8) : PipeSystem :=
  { s with pipe := p.append data, accepted := s.accepted ++ data }

/-- `pipe_read`; from a widowed pipe it returns no bytes. -/
def PipeSystem.read (s : PipeSystem) (len : Nat) : PipeSystem :=
  if s.pipe.widowed then s
  else if s.pipe.start = s.pipe.fin then { s with waiting := s.waiting ++ [.reader len] }
  else s.finishRead len

/-- `pipe_write`; into a widowed pipe it fails with `EPIPE`, and for more than the size of a pipe with `ENOSPC`. -/
def PipeSystem.write (s : PipeSystem) (data : List UInt8) : PipeSystem :=
  if s.pipe.widowed ∨ pipeSize < data.length then s
  else if pipeSize - s.pipe.fin < data.length then { s with waiting := s.waiting ++ [.writer data] }
  else s.finishWrite s.pipe data

/-- The loop of a waiting call looks at the pipe again; it goes on to wait, or the call returns. -/
def PipeSystem.turn (s : PipeSystem) (i : Nat) : Option PipeSystem :=
  match s.waiting[i]? with
  | none => none
  | some (.reader len) =>
    if s.pipe.start = s.pipe.fin then some s
    else some { s.finishRead len with waiting := s.waiting.eraseIdx i }
  | some (.writer data) =>
    if pipeSize - s.pipe.fin + s.pipe.start < data.length then some s
    else some { s.finishWrite s.pipe.compact data with waiting := s.waiting.eraseIdx i }

/-- One step; the write end is closed once. -/
def pipeStep (s : PipeSystem) : PipeInput → Option PipeSystem
  | .read len => some (s.read len)
  | .write data => some (s.write data)
  | .turn i => s.turn i
  | .close => if s.pipe.widowed then none else some { s with pipe := { s.pipe with widowed := true } }

/-- The pipe of `sys_pipe`. -/
def pipeInit (buffer : Mem) : PipeSystem := ⟨⟨buffer, 0, 0, false⟩, [], [], []⟩

/-! ### The queue -/

def PipeSystem.unread (s : PipeSystem) : List UInt8 := s.accepted.drop s.returned.length

/-- What a call of `pipe_read` returns at once, or `none` if it waits. -/
def PipeSystem.readNow (s : PipeSystem) (len : Nat) : Option (List UInt8) :=
  if s.pipe.widowed then some []
  else if s.pipe.start = s.pipe.fin then none
  else some (pipeRead s.pipe len).1

/-- The reads have returned the first bytes of the writes in their order, the rest is available to reads, and the
indexes are in the buffer. -/
structure PipeSystem.Fifo (s : PipeSystem) : Prop where
  returned_prefix : s.returned <+: s.accepted
  available : s.unread ≠ [] → ∀ len, s.readNow len = some (s.unread.take len)
  start_le : s.pipe.start ≤ s.pipe.fin
  fin_le : s.pipe.fin ≤ pipeSize

def Pipe.TakesAll (p : Pipe) (len : Nat) : Prop := len = 0 ∨ p.fin - p.start ≤ len

/-- The inputs that keep the queue: no read takes only a part of the bytes in the buffer, the write end is closed when
the buffer is empty, and no waiting write returns after that. -/
def PipeSafe (s : PipeSystem) : PipeInput → Prop
  | .read len => s.pipe.TakesAll len
  | .write _ => True
  | .turn i =>
    match s.waiting[i]? with
    | some (.reader len) => s.pipe.TakesAll len
    | some (.writer _) => s.pipe.widowed = false
    | none => True
  | .close => s.pipe.start = s.pipe.fin

/-! ### Bytes -/

@[simp] theorem length_bytes (m : Mem) (a n : Nat) : (bytes m a n).length = n := by simp [bytes]

@[simp] theorem bytes_zero (m : Mem) (a : Nat) : bytes m a 0 = [] := rfl

private theorem bytes_add (m : Mem) (a n k : Nat) : bytes m a (n + k) = bytes m a n ++ bytes m (a + n) k := by
  unfold bytes
  rw [List.range_add, List.map_append, List.map_map]
  congr 1
  refine List.map_congr_left fun i _ => ?_
  simp [Nat.add_assoc]

private theorem bytes_congr {m m' : Mem} {a a' n : Nat} (h : ∀ i < n, m (a + i) = m' (a' + i)) :
    bytes m a n = bytes m' a' n :=
  List.map_congr_left fun i hi => h i (List.mem_range.1 hi)

private theorem take_bytes (m : Mem) (a : Nat) {n k : Nat} (h : k ≤ n) : (bytes m a n).take k = bytes m a k := by
  have e : n = k + (n - k) := by omega
  rw [e, bytes_add]
  simp

private theorem bytes_storeBytes (m : Mem) (a : Nat) (data : List UInt8) :
    bytes (storeBytes m a data) a data.length = data := by
  refine List.ext_getElem (by simp) fun i hi hi' => ?_
  simp [bytes, storeBytes, hi']

private theorem bytes_storeBytes_below (m : Mem) (data : List UInt8) {a b n : Nat} (h : a + n ≤ b) :
    bytes (storeBytes m b data) a n = bytes m a n :=
  bytes_congr fun i hi => by
    unfold storeBytes
    rw [if_neg (by omega)]

private theorem bytes_copy (m : Mem) (dst src n : Nat) : bytes (copy m dst src n) dst n = bytes m src n :=
  bytes_congr fun i hi => by
    unfold copy
    rw [if_pos (by omega), Nat.add_sub_cancel_left]

/-! ### What a step does to the bytes of the buffer -/

def Pipe.content (p : Pipe) : List UInt8 := bytes p.buffer p.start (p.fin - p.start)

private theorem content_append {p : Pipe} (h : p.start ≤ p.fin) (data : List UInt8) :
    (p.append data).content = p.content ++ data := by
  unfold Pipe.content Pipe.append
  simp only
  have e : p.fin + data.length - p.start = p.fin - p.start + data.length := by omega
  rw [e, bytes_add, bytes_storeBytes_below _ _ (by omega), show p.start + (p.fin - p.start) = p.fin by omega,
    bytes_storeBytes]

private theorem content_compact (p : Pipe) : p.compact.content = p.content := by
  unfold Pipe.content Pipe.compact
  simp only [Nat.sub_zero]
  exact bytes_copy _ _ _ _

private theorem pipeRead_bytes (p : Pipe) (len : Nat) : (pipeRead p len).1 = p.content.take len := by
  unfold pipeRead Pipe.content Pipe.readLen
  simp only
  split
  · rename_i hlt
    rw [List.take_of_length_le (by simp; omega)]
  · rw [take_bytes _ _ (by omega)]

private theorem pipeRead_content {p : Pipe} {len : Nat} (h : p.TakesAll len) :
    (pipeRead p len).1 ++ (pipeRead p len).2.content = p.content := by
  rw [pipeRead_bytes]
  by_cases hall : p.fin - p.start ≤ len
  · have hlen : p.content.length ≤ len := by simpa [Pipe.content] using hall
    rw [List.take_of_length_le hlen]
    simp [pipeRead, hall, Pipe.content]
  · have h0 : len = 0 := h.resolve_right hall
    subst h0
    simp only [pipeRead, hall, ↓reduceIte, List.take_zero, List.nil_append]

/-! ### Runs -/

/-- The accepted bytes are the returned ones and those in the buffer, which is empty when an end was closed. -/
structure PipeSystem.Inv (s : PipeSystem) : Prop where
  accepted : s.accepted = s.returned ++ s.pipe.content
  start_le : s.pipe.start ≤ s.pipe.fin
  fin_le : s.pipe.fin ≤ pipeSize
  widowed : s.pipe.widowed = true → s.pipe.start = s.pipe.fin

private theorem PipeSystem.Inv.finishRead {s : PipeSystem} (h : s.Inv) {len : Nat} (hall : s.pipe.TakesAll len)
    (ws : List Waiting) : { s.finishRead len with waiting := ws }.Inv := by
  obtain ⟨hacc, hle, hsize, hwid⟩ := h
  refine ⟨?_, ?_, ?_, ?_⟩
  · simp only [PipeSystem.finishRead]
    rw [List.append_assoc, pipeRead_content hall, hacc]
  · simp only [PipeSystem.finishRead, pipeRead]
    split
    · exact Nat.le_refl 0
    · exact hle
  · simp only [PipeSystem.finishRead, pipeRead]
    split
    · exact Nat.zero_le _
    · exact hsize
  · simp only [PipeSystem.finishRead, pipeRead]
    split
    · exact fun _ => rfl
    · exact hwid

private theorem PipeSystem.Inv.finishWrite {s : PipeSystem} (h : s.Inv) {p : Pipe} {data : List UInt8}
    (hc : p.content = s.pipe.content) (hle : p.start ≤ p.fin) (hroom : p.fin + data.length ≤ pipeSize)
    (hw : p.widowed = false) (ws : List Waiting) : { s.finishWrite p data with waiting := ws }.Inv := by
  refine ⟨?_, ?_, hroom, ?_⟩
  · simp only [PipeSystem.finishWrite]
    rw [content_append hle, hc, h.accepted, List.append_assoc]
  · simp only [PipeSystem.finishWrite, Pipe.append]
    omega
  · intro hwid
    simp only [PipeSystem.finishWrite, Pipe.append, hw] at hwid
    cases hwid

theorem PipeSystem.Inv.wait {s : PipeSystem} (h : s.Inv) (ws : List Waiting) : { s with waiting := ws }.Inv :=
  ⟨h.accepted, h.start_le, h.fin_le, h.widowed⟩

theorem PipeSystem.Inv.read {s : PipeSystem} (h : s.Inv) {len : Nat} (hall : s.pipe.TakesAll len) :
    (s.read len).Inv := by
  unfold PipeSystem.read
  split
  · exact h
  · split
    · exact h.wait _
    · exact h.finishRead hall _

theorem PipeSystem.Inv.write {s : PipeSystem} (h : s.Inv) (data : List UInt8) : (s.write data).Inv := by
  unfold PipeSystem.write
  split
  · exact h
  · rename_i hgo
    simp only [not_or, Bool.not_eq_true] at hgo
    split
    · exact h.wait _
    · have hsize := h.fin_le
      exact h.finishWrite rfl h.start_le (by omega) hgo.1 _

theorem PipeSystem.Inv.turn {s s' : PipeSystem} (h : s.Inv) {i : Nat} (hc : PipeSafe s (.turn i))
    (hs : s.turn i = some s') : s'.Inv := by
  unfold PipeSystem.turn at hs
  unfold PipeSafe at hc
  split at hs
  · cases hs
  · rename_i len hw
    simp only [hw] at hc
    split at hs
    · cases hs
      exact h
    · cases hs
      exact h.finishRead hc _
  · rename_i data hw
    simp only [hw] at hc
    split at hs
    · cases hs
      exact h
    · cases hs
      rename_i hroom
      have hsize := h.fin_le
      have hle := h.start_le
      refine h.finishWrite (content_compact s.pipe) (Nat.zero_le _) ?_ hc _
      simp only [Pipe.compact]
      omega

private theorem pipeStep_inv (s : PipeSystem) (i : PipeInput) (s' : PipeSystem) (h : s.Inv) (hc : PipeSafe s i)
    (hs : pipeStep s i = some s') : s'.Inv := by
  cases i with
  | read len =>
    cases hs
    exact h.read hc
  | write data =>
    cases hs
    exact h.write data
  | turn i => exact h.turn hc hs
  | close =>
    unfold pipeStep at hs
    simp only at hs
    split at hs
    · cases hs
    · cases hs
      exact ⟨h.accepted, h.start_le, h.fin_le, fun _ => hc⟩

private theorem PipeSystem.Inv.fifo {s : PipeSystem} (h : s.Inv) : s.Fifo := by
  have hunread : s.unread = s.pipe.content := by
    unfold PipeSystem.unread
    rw [h.accepted, List.drop_left]
  refine ⟨⟨s.pipe.content, h.accepted.symm⟩, ?_, h.start_le, h.fin_le⟩
  intro hne len
  rw [hunread] at hne ⊢
  have hse : s.pipe.start ≠ s.pipe.fin := by
    intro heq
    exact hne (by simp [Pipe.content, heq])
  have hw : s.pipe.widowed = false := by
    cases hwid : s.pipe.widowed with
    | false => rfl
    | true => exact absurd (h.widowed hwid) hse
  simp only [PipeSystem.readNow, hw, hse, Bool.false_eq_true, ↓reduceIte, pipeRead_bytes]

/-- In every run whose inputs are safe, the pipe is a queue of bytes. -/
theorem pipe_fifo {buffer : Mem} {inputs : List PipeInput} {s : PipeSystem}
    (hsafe : Meets pipeStep PipeSafe inputs (pipeInit buffer))
    (hrun : run pipeStep inputs (pipeInit buffer) = some s) : s.Fifo := by
  have hinit : (pipeInit buffer).Inv := ⟨rfl, Nat.le_refl 0, Nat.zero_le _, fun _ => rfl⟩
  exact (Meets.invariant pipeStep_inv hinit hsafe hrun).fifo

/-- Two bytes are written and read, and the write end is closed. -/
theorem pipe_fifo_small : Meets pipeStep PipeSafe [.write [1, 2], .read 2, .close] (pipeInit fun _ => 0) ∧
    ∃ s, run pipeStep [.write [1, 2], .read 2, .close] (pipeInit fun _ => 0) = some s ∧ s.returned = [1, 2] ∧
    s.Fifo := by
  have hsafe : Meets pipeStep PipeSafe [.write [1, 2], .read 2, .close] (pipeInit fun _ => 0) := by
    refine ⟨trivial, fun s1 h1 => ?_⟩
    cases h1
    refine ⟨.inr (by decide), fun s2 h2 => ?_⟩
    cases h2
    exact ⟨rfl, fun _ _ => trivial⟩
  exact ⟨hsafe, _, rfl, rfl, pipe_fifo hsafe rfl⟩

/-- Of two bytes that were written, two reads of one byte return the first one twice. -/
theorem not_pipe_fifo : ∃ s, run pipeStep [.write [1, 2], .read 1, .read 1] (pipeInit fun _ => 0) = some s ∧
    s.accepted = [1, 2] ∧ s.returned = [1, 1] ∧ ¬ s.Fifo := by
  refine ⟨_, rfl, rfl, rfl, fun h => ?_⟩
  exact absurd h.returned_prefix (by decide)

end Pml.Kernel
