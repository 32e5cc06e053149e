import Pml.Kernel.Wait

/-!
# Taking a wait state out of the queue (`do_wait` of `kernel/wait.c`)

`do_wait` returns the first wait state that matches its argument and closes the array behind it.  The `memmove` that
closes it is `len` bytes long, not `len` structures, so the states behind the one that is taken are only kept if the
bytes that are not moved happen to be the right ones (`blocks_pop_iff`, `doWait_right_iff`).
-/

namespace Pml.Kernel

open ByteMemory

/-! ### The status word (`include/pml/wait.h`) -/

def wifexited (x : Int) : Prop := x % 256 = 0

def wifsignaled (x : Int) : Prop := 0 < x % 128 ∧ x % 128 < 127

def wifstopped (x : Int) : Prop := x % 256 = 127

def wexitstatus (x : Int) : Int := x / 256 % 256

def wtermsig (x : Int) : Int := x / 256 % 128

def wstopsig (x : Int) : Int := wexitstatus x

/-- The status word tells the mode and the code of a wait state. -/
structure Encodes (word : Int) (st : WaitState) : Prop where
  exited : st.status = waitExited → wifexited word ∧ wexitstatus word = st.code % 256
  signaled : st.status = waitSignaled → wifsignaled word ∧ wtermsig word = st.code % 128
  stopped : st.status = waitStopped → wifstopped word ∧ wstopsig word = st.code % 256

private theorem statusWord_encodes (st : WaitState) : Encodes (statusWord st.status st.code) st := by
  have hmodes : waitExited = 1 ∧ waitSignaled = 2 ∧ waitStopped = 4 := ⟨rfl, rfl, rfl⟩
  obtain ⟨h1, h2, h4⟩ := hmodes
  unfold statusWord
  constructor
  · intro h
    rw [if_neg (by omega), if_neg (by omega)]
    unfold wifexited wexitstatus
    omega
  · intro h
    rw [if_pos h]
    unfold wifsignaled wtermsig
    omega
  · intro h
    rw [if_neg (by omega), if_pos h]
    unfold wifstopped wstopsig wexitstatus
    omega

/-! ### The array -/

namespace WaitQueue

def block (w : WaitQueue) (i : Nat) : List UInt8 :=
  (List.range waitStateSize).map fun x => w.states (i * waitStateSize + x)

def blocks (w : WaitQueue) : List (List UInt8) := (List.range w.len).map w.block

variable {w w' : WaitQueue} {i j : Nat}

private theorem block_eq_iff : w.block i = w'.block j ↔
    ∀ x < waitStateSize, w.states (i * waitStateSize + x) = w'.states (j * waitStateSize + x) := by
  unfold block
  rw [List.map_inj_left]
  simp only [List.mem_range]

private theorem getElem?_blocks (w : WaitQueue) (j : Nat) :
    w.blocks[j]? = if j < w.len then some (w.block j) else none := by
  unfold blocks
  rw [List.getElem?_map]
  split
  · rename_i h
    rw [List.getElem?_range h]
    rfl
  · rename_i h
    rw [List.getElem?_eq_none (by simpa using h)]
    rfl

def skip (i j : Nat) : Nat := if j < i then j else j + 1

private theorem blocks_pop_eq_iff (hi : i < w.len) : (w.pop i).blocks = w.blocks.eraseIdx i ↔
    ∀ j < w.len - 1, (w.pop i).block j = w.block (skip i j) := by
  have hget : ∀ j, (w.blocks.eraseIdx i)[j]? = if j < w.len - 1 then some (w.block (skip i j)) else none := by
    intro j
    unfold skip
    rw [List.getElem?_eraseIdx]
    by_cases hj : j < i
    · rw [if_pos hj, if_pos hj, getElem?_blocks, if_pos (by omega), if_pos (by omega)]
    · rw [if_neg hj, if_neg hj, getElem?_blocks]
      exact if_congr (by omega) rfl rfl
  have hlen : (w.pop i).len = w.len - 1 := rfl
  constructor
  · intro h j hj
    have hj' : (w.pop i).blocks[j]? = (w.blocks.eraseIdx i)[j]? := by rw [h]
    rw [getElem?_blocks, hget, hlen, if_pos hj, if_pos hj] at hj'
    exact Option.some.inj hj'
  · intro h
    refine List.ext_getElem? fun j => ?_
    rw [getElem?_blocks, hget, hlen]
    by_cases hj : j < w.len - 1
    · rw [if_pos hj, if_pos hj, h j hj]
    · rw [if_neg hj, if_neg hj]

/-- The array is closed behind a wait state, without a loss, exactly if the bytes that are not moved are those of the
states that they are moved to. -/
private theorem blocks_pop_iff (hi : i < w.len) : (w.pop i).blocks = w.blocks.eraseIdx i ↔ w.Slides i := by
  have hmem : (w.pop i).states = copy w.states (i * 160) ((i + 1) * 160) (w.len - 1 - i) := rfl
  rw [blocks_pop_eq_iff hi]
  unfold Slides
  simp only [block_eq_iff, waitStateSize, hmem]
  constructor
  · intro h x h1 h2
    have hblock := h (x / 160) (by omega) (x % 160) (by omega)
    rw [skip, if_neg (by omega), show x / 160 * 160 + x % 160 = x by omega,
      show (x / 160 + 1) * 160 + x % 160 = x + 160 by omega, copy_outside (by omega)] at hblock
    exact hblock
  · intro h j hj x hx
    unfold skip
    by_cases hji : j < i
    · rw [if_pos hji, copy_outside (by omega)]
    · rw [if_neg hji]
      by_cases hn : j * 160 + x < i * 160 + (w.len - 1 - i)
      · obtain ⟨k, hk⟩ : ∃ k, j * 160 + x = i * 160 + k := ⟨_, (Nat.add_sub_cancel' (by omega)).symm⟩
        rw [hk, copy_inside (by omega)]
        congr 1
        omega
      · rw [copy_outside (by omega), h _ (by omega) (by omega)]
        congr 1
        omega

end WaitQueue

/-! ### `do_wait` -/

/-- The wait state matches the argument of `do_wait`. -/
structure Matches (p : Process) (pid : Int) (st : WaitState) : Prop where
  status : st.status ≠ waitRunning
  child : 0 < pid → st.pid = pid
  group : pid = 0 → st.pgid = p.pgid

/-- The index is that of the first wait state that matches. -/
structure FirstMatch (p : Process) (pid : Int) (i : Nat) : Prop where
  lt : i < p.waits.len
  fits : Matches p pid (p.waits.state i)
  first : ∀ j < i, ¬ Matches p pid (p.waits.state j)

/-- What `do_wait` has to do: if it returns a process ID, then it is that of the first wait state that matches, which
is removed; if nothing matches, then it returns 0 and removes nothing. -/
structure WaitsRight (s : Processes) (a : Nat) (pid : Int) : Prop where
  found : (s.doWait a pid).1 ≠ 0 → ∃ i, FirstMatch (s.mem a) pid i ∧
    (s.doWait a pid).1 = ((s.mem a).waits.state i).pid ∧ Encodes (s.doWait a pid).2.1 ((s.mem a).waits.state i) ∧
    ((s.doWait a pid).2.2.mem a).waits.blocks = (s.mem a).waits.blocks.eraseIdx i
  nothing : (∀ i < (s.mem a).waits.len, ¬ Matches (s.mem a) pid ((s.mem a).waits.state i)) →
    (s.doWait a pid).1 = 0 ∧ (s.doWait a pid).2.2 = s

theorem waitsFor_iff {p : Process} {pid : Int} {st : WaitState} :
    Processes.waitsFor p pid st = true ↔ Matches p pid st := by
  unfold Processes.waitsFor
  simp only [Bool.and_eq_true, Bool.not_eq_true', Bool.and_eq_false_iff, decide_eq_false_iff_not, bne_iff_ne, ne_eq,
    bne_eq_false_iff_eq, beq_eq_false_iff_ne]
  constructor
  · rintro ⟨⟨h1, h2⟩, h3⟩
    exact ⟨h2, fun hp => h1.resolve_left (by omega), fun hp => h3.resolve_left (by omega)⟩
  · rintro ⟨h1, h2, h3⟩
    refine ⟨⟨?_, h1⟩, ?_⟩
    · by_cases hp : 0 < pid
      · exact Or.inr (h2 hp)
      · exact Or.inl hp
    · by_cases hp : pid = 0
      · exact Or.inr (h3 hp)
      · exact Or.inl hp

theorem waitIndex_some_iff {p : Process} {pid : Int} {i : Nat} :
    Processes.waitIndex p pid = some i ↔ FirstMatch p pid i := by
  unfold Processes.waitIndex
  rw [List.find?_range_eq_some]
  simp only [waitsFor_iff, List.mem_range, Bool.not_eq_true', Bool.eq_false_iff, ne_eq]
  exact ⟨fun ⟨h1, h2, h3⟩ => ⟨h2, h1, h3⟩, fun ⟨h1, h2, h3⟩ => ⟨h2, h1, h3⟩⟩

theorem waitIndex_none_iff {p : Process} {pid : Int} :
    Processes.waitIndex p pid = none ↔ ∀ i < p.waits.len, ¬ Matches p pid (p.waits.state i) := by
  unfold Processes.waitIndex
  rw [List.find?_range_eq_none]
  simp only [Bool.not_eq_true', Bool.eq_false_iff, ne_eq, waitsFor_iff]

theorem FirstMatch.unique {p : Process} {pid : Int} {i j : Nat} (hi : FirstMatch p pid i) (hj : FirstMatch p pid j) :
    i = j :=
  Option.some.inj ((waitIndex_some_iff.2 hi).symm.trans (waitIndex_some_iff.2 hj))

theorem doWait_some {s : Processes} {a i : Nat} {pid : Int} (h : FirstMatch (s.mem a) pid i) : s.doWait a pid =
    (((s.mem a).waits.state i).pid, statusWord ((s.mem a).waits.state i).status ((s.mem a).waits.state i).code,
      s.set a { s.mem a with waits := (s.mem a).waits.pop i }) := by
  rw [Processes.doWait, waitIndex_some_iff.2 h]

theorem doWait_none {s : Processes} {a : Nat} {pid : Int}
    (h : ∀ i < (s.mem a).waits.len, ¬ Matches (s.mem a) pid ((s.mem a).waits.state i)) :
    s.doWait a pid = (0, 0, s) := by
  rw [Processes.doWait, waitIndex_none_iff.2 h]

theorem waits_set_self (s : Processes) (a : Nat) (w : WaitQueue) :
    ((s.set a { s.mem a with waits := w }).mem a).waits = w := by
  unfold Processes.set
  dsimp only
  rw [Function.update_self]

private theorem WaitsRight.slides {s : Processes} {a i : Nat} {pid : Int} (h : WaitsRight s a pid)
    (hi : FirstMatch (s.mem a) pid i) (hne : ((s.mem a).waits.state i).pid ≠ 0) : (s.mem a).waits.Slides i := by
  have heq := doWait_some hi
  obtain ⟨j, hj, -, -, hblocks⟩ := h.found (by rw [heq]; exact hne)
  obtain rfl := hi.unique hj
  rw [heq, waits_set_self] at hblocks
  exact (WaitQueue.blocks_pop_iff hi.lt).1 hblocks

/-- `do_wait` is right exactly if the first wait state that matches, unless it has the process ID 0, can be taken out
without a loss. -/
theorem doWait_right_iff (s : Processes) (a : Nat) (pid : Int) : WaitsRight s a pid ↔
    ∀ i, FirstMatch (s.mem a) pid i → ((s.mem a).waits.state i).pid ≠ 0 → (s.mem a).waits.Slides i := by
  constructor
  · exact fun h i => h.slides
  · intro h
    constructor
    · intro hret
      cases hw : Processes.waitIndex (s.mem a) pid with
      | none =>
        rw [doWait_none (waitIndex_none_iff.1 hw)] at hret
        exact absurd rfl hret
      | some i =>
        have hi := waitIndex_some_iff.1 hw
        rw [doWait_some hi] at hret ⊢
        refine ⟨i, hi, rfl, statusWord_encodes _, ?_⟩
        rw [waits_set_self]
        exact (WaitQueue.blocks_pop_iff hi.lt).2 (h i hi hret)
    · intro hnone
      rw [doWait_none hnone]
      exact ⟨rfl, rfl⟩

def twoExits : Processes :=
  (Processes.boot UInt64.ofInt id 10).set 10 ⟨1, 0, 1, [2, 3],
    ((⟨0, fun _ => 0⟩ : WaitQueue).push ⟨2, 1, waitExited, 7⟩ fun _ => 0).push ⟨3, 1, waitExited, 9⟩ fun _ => 0⟩

/-- The first status is taken out, and the second one has the code of the first afterwards. -/
theorem not_doWait_right : ¬ WaitsRight twoExits 10 (-1) := by
  intro h
  have hfirst : FirstMatch (twoExits.mem 10) (-1) 0 := waitIndex_some_iff.1 (by decide)
  have hcode := h.slides hfirst (by decide) 156 (by decide) (by decide)
  exact absurd hcode (by decide)

end Pml.Kernel
