import Pml.Kernel.Pipe
import Pml.Arch.PageFrames

/-!
# The buffers of pipes (`sys_pipe` and `pipe_dealloc` of `drivers/fs/pipe.c`)

The buffers are eight pages each in an area of kernel memory, whose tables are the same in all address spaces.
`sys_pipe` takes the buffer at `pipe_addr`, or the one behind it if the first page there is mapped, and does not look
further; `pipe_dealloc` moves `pipe_addr` back.  If the pages of a buffer cannot all be mapped, `sys_pipe` leaves
`pipe_addr` one page before the buffer.  In runs without these two the buffers are disjoint (`buffers_separate`).

The area is modelled by the translations of its pages.  The outcome of `alloc_page` and `vm_map_page` for each page
and the outcome of the other allocations of `sys_pipe` are inputs.
-/

namespace Pml.Kernel

open Arch Machine

abbrev pipePages : Nat := 8

abbrev pipeBufferBaseVma : Nat := 0xfffffd8000000000

abbrev pipeBufferTopVma : Nat := 0xfffffd9000000000

/-- A pipe that has not been freed. -/
structure LivePipe where
  buffer : Nat
  widowed : Bool
  deriving DecidableEq

/-- `pipe_addr`, the frame of each mapped page of the area (0 if it is not mapped) and the pipes. -/
structure PipeArea where
  pipeAddr : Nat
  phys : Nat → Nat
  live : List LivePipe

abbrev FrameAddr : Type := { page : Nat // page ≠ 0 }

/-- What `sys_pipe` finds: whether it gets its vnodes, descriptors and the structure, and the frame that is mapped for
each page of the buffer, if there is one. -/
structure PipeEnv where
  ready : Bool
  frames : Nat → Option FrameAddr

/-- The loop of `sys_pipe` over the pages from `i` on, `k` in number; the second component is the page that failed. -/
def mapBuffer (frames : Nat → Option FrameAddr) : Nat → Nat → PipeArea → PipeArea × Option Nat
  | 0, _, s => (s, none)
  | k + 1, i, s =>
    match frames i with
    | none => (s, some i)
    | some page => mapBuffer frames k (i + 1)
        { s with phys := Function.update s.phys s.pipeAddr page, pipeAddr := s.pipeAddr + pageSize }

/-- The loop at `err1`, over as many pages as were mapped. -/
def unmapBack : Nat → PipeArea → PipeArea
  | 0, s => s
  | c + 1, s => unmapBack c { s with phys := Function.update s.phys s.pipeAddr 0, pipeAddr := s.pipeAddr - pageSize }

/-- The address that `sys_pipe` chooses; the loop ends in its first round. -/
def PipeArea.target (s : PipeArea) : Nat :=
  if s.pipeAddr < pipeBufferTopVma ∧ s.phys s.pipeAddr ≠ 0 then s.pipeAddr + pipeSize else s.pipeAddr

def sysPipe (s : PipeArea) (env : PipeEnv) : PipeArea :=
  if env.ready = false then s
  else if pipeBufferTopVma ≤ s.target then { s with pipeAddr := s.target }
  else
    match mapBuffer env.frames pipePages 0 { s with pipeAddr := s.target } with
    | (s', some i) => unmapBack i { s' with pipeAddr := s'.pipeAddr - pageSize }
    | (s', none) => { s' with live := ⟨s.target, false⟩ :: s'.live }

/-- The loop of `pipe_dealloc`. -/
def unmapBuffer (phys : Nat → Nat) (buffer : Nat) : Nat → Nat → Nat
  | 0 => phys
  | k + 1 => Function.update (unmapBuffer phys buffer k) (buffer + k * pageSize) 0

/-- `pipe_dealloc` for an end of the pipe at index `i`. -/
def pipeDealloc (s : PipeArea) (i : Nat) : Option PipeArea :=
  match s.live[i]? with
  | none => none
  | some p =>
    if p.widowed then
      some ⟨if p.buffer < s.pipeAddr then p.buffer else s.pipeAddr, unmapBuffer s.phys p.buffer pipePages,
        s.live.eraseIdx i⟩
    else some { s with live := s.live.set i { p with widowed := true } }

inductive PipesInput
  | pipe (env : PipeEnv)
  | close (i : Nat)

/-- A call of `sys_pipe`, or an end of a pipe is closed. -/
def pipesStep (s : PipeArea) : PipesInput → Option PipeArea
  | .pipe env => some (sysPipe s env)
  | .close i => pipeDealloc s i

def pipesInit : PipeArea := ⟨pipeBufferBaseVma, fun _ => 0, []⟩

/-- The buffers are disjoint, in the area and mapped. -/
structure PipeArea.Separate (s : PipeArea) : Prop where
  disjoint : s.live.Pairwise fun p q => p.buffer + pipeSize ≤ q.buffer ∨ q.buffer + pipeSize ≤ p.buffer
  inside : ∀ p ∈ s.live, pipeBufferBaseVma ≤ p.buffer ∧ p.buffer + pipeSize ≤ pipeBufferTopVma
  mapped : ∀ p ∈ s.live, ∀ k < pipePages, s.phys (p.buffer + k * pageSize) ≠ 0

/-- A call that goes on to map a buffer finds the first page at the address that it chooses unmapped, and gets all its
pages. -/
def PipesSafe (s : PipeArea) : PipesInput → Prop
  | .pipe env => env.ready = true → s.target < pipeBufferTopVma →
      s.phys s.target = 0 ∧ ∀ i < pipePages, (env.frames i).isSome
  | .close _ => True

/-! ### The loops -/

private theorem mapBuffer_spec {frames : Nat → Option FrameAddr} {k i : Nat} {s : PipeArea}
    (h : ∀ j, i ≤ j → j < i + k → (frames j).isSome) : ∃ phys,
      mapBuffer frames k i s = (⟨s.pipeAddr + k * pageSize, phys, s.live⟩, none) ∧
      (∀ j < k, phys (s.pipeAddr + j * pageSize) ≠ 0) ∧
      ∀ v, v < s.pipeAddr ∨ s.pipeAddr + k * pageSize ≤ v → phys v = s.phys v := by
  induction k generalizing i s with
  | zero =>
    refine ⟨s.phys, ?_, by simp, fun _ _ => rfl⟩
    simp [mapBuffer]
  | succ k ih =>
    obtain ⟨page, hpage⟩ := Option.isSome_iff_exists.1 (h i (Nat.le_refl _) (by omega))
    obtain ⟨phys, h1, h2, h3⟩ := ih (i := i + 1)
      (s := { s with phys := Function.update s.phys s.pipeAddr page, pipeAddr := s.pipeAddr + pageSize })
      fun j hj hj' => h j (by omega) (by omega)
    simp only at h1 h2 h3
    have hadd : ∀ j, s.pipeAddr + pageSize + j * pageSize = s.pipeAddr + (j + 1) * pageSize := fun j => by
      rw [Nat.succ_mul]
      omega
    refine ⟨phys, ?_, fun j hj => ?_, fun v hv => ?_⟩
    · rw [mapBuffer, hpage]
      simp only [h1, hadd]
    · cases j with
      | zero =>
        rw [Nat.zero_mul, Nat.add_zero, h3 _ (Or.inl (by simp only [pageSize]; omega)), Function.update_self]
        exact page.2
      | succ j =>
        rw [← hadd]
        exact h2 j (by omega)
    · rw [hadd] at h3
      rw [h3 v (by simp only [pageSize] at *; omega), Function.update_of_ne (by simp only [pageSize] at *; omega)]

private theorem unmapBuffer_outside {phys : Nat → Nat} {buffer k v : Nat}
    (h : v < buffer ∨ buffer + k * pageSize ≤ v) :
    unmapBuffer phys buffer k v = phys v := by
  induction k with
  | zero => rfl
  | succ k ih =>
    simp only [pageSize] at h
    have hne : v ≠ buffer + k * pageSize := by
      simp only [pageSize]
      omega
    have hout : v < buffer ∨ buffer + k * pageSize ≤ v :=
      h.imp_right fun h => Nat.le_trans (Nat.add_le_add_left (Nat.mul_le_mul_right _ (Nat.le_succ k)) _) h
    rw [unmapBuffer, Function.update_of_ne hne]
    exact ih hout

/-! ### The invariant -/

/-- `pipe_addr` and the buffers are at multiples of the size of a buffer, and the buffers are mapped and distinct. -/
structure PipeArea.Inv (s : PipeArea) : Prop where
  addr : ∃ k, s.pipeAddr = pipeBufferBaseVma + k * pipeSize
  top : s.pipeAddr ≤ pipeBufferTopVma
  buffer : ∀ p ∈ s.live, ∃ k, p.buffer = pipeBufferBaseVma + k * pipeSize
  below : ∀ p ∈ s.live, p.buffer < pipeBufferTopVma
  mapped : ∀ p ∈ s.live, ∀ k < pipePages, s.phys (p.buffer + k * pageSize) ≠ 0
  distinct : (s.live.map (·.buffer)).Nodup

private theorem buffers_apart {a b : Nat} (ha : ∃ k, a = pipeBufferBaseVma + k * pipeSize)
    (hb : ∃ k, b = pipeBufferBaseVma + k * pipeSize) (hne : a ≠ b) : a + pipeSize ≤ b ∨ b + pipeSize ≤ a := by
  obtain ⟨j, rfl⟩ := ha
  obtain ⟨k, rfl⟩ := hb
  simp only [pipeSize] at *
  omega

private theorem buffer_le_top {a : Nat} (ha : ∃ k, a = pipeBufferBaseVma + k * pipeSize)
    (hlt : a < pipeBufferTopVma) :
    a + pipeSize ≤ pipeBufferTopVma := by
  obtain ⟨k, rfl⟩ := ha
  simp only [pipeSize, pipeBufferBaseVma, pipeBufferTopVma] at *
  omega

private theorem PipeArea.Inv.separate {s : PipeArea} (h : s.Inv) : s.Separate := by
  refine ⟨?_, fun p hp => ⟨?_, buffer_le_top (h.buffer p hp) (h.below p hp)⟩, h.mapped⟩
  · refine (List.pairwise_map.1 h.distinct).imp_of_mem fun hp hq hne => ?_
    exact buffers_apart (h.buffer _ hp) (h.buffer _ hq) hne
  · obtain ⟨k, hk⟩ := h.buffer p hp
    rw [hk]
    exact Nat.le_add_right _ _

private theorem page_outside {a b k : Nat} (h : a + pipeSize ≤ b ∨ b + pipeSize ≤ a) (hk : k < pipePages) :
    a + k * pageSize < b ∨ b + pipePages * pageSize ≤ a + k * pageSize := by
  simp only [pipeSize, pipePages, pageSize] at *
  omega

private theorem target_grid {s : PipeArea} (h : s.Inv) : (∃ k, s.target = pipeBufferBaseVma + k * pipeSize) ∧
    s.target ≤ pipeBufferTopVma := by
  obtain ⟨k, hk⟩ := h.addr
  unfold PipeArea.target
  split
  · rename_i hm
    refine ⟨⟨k + 1, ?_⟩, buffer_le_top h.addr hm.1⟩
    rw [hk, Nat.succ_mul, Nat.add_assoc]
  · exact ⟨h.addr, h.top⟩

private theorem sysPipe_inv {s : PipeArea} {env : PipeEnv} (h : s.Inv) (hsafe : PipesSafe s (.pipe env)) :
    (sysPipe s env).Inv := by
  obtain ⟨hgrid, hle⟩ := target_grid h
  unfold sysPipe
  split
  · exact h
  · rename_i hready
    split
    · exact ⟨hgrid, hle, h.buffer, h.below, h.mapped, h.distinct⟩
    · rename_i htop
      obtain ⟨hfree, hframes⟩ := hsafe (Bool.eq_true_of_not_eq_false hready) (Nat.lt_of_not_le htop)
      obtain ⟨phys, h1, h2, h3⟩ := mapBuffer_spec (k := pipePages) (i := 0) (s := { s with pipeAddr := s.target })
        fun j _ hj => hframes j (by omega)
      simp only [h1]
      simp only at h2 h3
      have hsize : pipePages * pageSize = pipeSize := by decide
      have hnew : ∀ p ∈ s.live, p.buffer ≠ s.target := by
        intro p hp heq
        refine h.mapped p hp 0 (by decide) ?_
        rw [Nat.zero_mul, Nat.add_zero, heq, hfree]
      refine ⟨?_, ?_, ?_, ?_, ?_, ?_⟩
      · obtain ⟨k, hk⟩ := hgrid
        refine ⟨k + 1, ?_⟩
        simp only [hsize]
        rw [hk, Nat.succ_mul, Nat.add_assoc]
      · simp only [hsize]
        exact buffer_le_top hgrid (Nat.lt_of_not_le htop)
      · intro p hp
        rcases List.mem_cons.1 hp with rfl | hp
        · exact hgrid
        · exact h.buffer p hp
      · intro p hp
        rcases List.mem_cons.1 hp with rfl | hp
        · exact Nat.lt_of_not_le htop
        · exact h.below p hp
      · intro p hp k hk
        rcases List.mem_cons.1 hp with rfl | hp
        · exact h2 k hk
        · have hapart := buffers_apart (h.buffer p hp) hgrid (hnew p hp)
          simp only [h3 _ (page_outside hapart hk)]
          exact h.mapped p hp k hk
      · simp only [List.map_cons, List.nodup_cons, List.mem_map, not_exists, not_and]
        exact ⟨hnew, h.distinct⟩

private theorem pipeDealloc_inv {s s' : PipeArea} {i : Nat} (h : s.Inv) (hs : pipeDealloc s i = some s') :
    s'.Inv := by
  unfold pipeDealloc at hs
  split at hs
  · cases hs
  · rename_i p hp
    obtain ⟨hi, hpi⟩ := List.getElem?_eq_some_iff.1 hp
    have hmem : p ∈ s.live := List.mem_of_getElem? hp
    split at hs
    · -- the other end is closed already, and the buffer goes with this one
      cases hs
      have hsub : (s.live.eraseIdx i).Sublist s.live := List.eraseIdx_sublist ..
      have hne : ∀ q ∈ s.live.eraseIdx i, q.buffer ≠ p.buffer := by
        intro q hq heq
        obtain ⟨j, hj, hji, hqj⟩ := List.mem_eraseIdx_iff_getElem.1 hq
        have hj' : j < (s.live.map (·.buffer)).length := by simpa using hj
        have hi' : i < (s.live.map (·.buffer)).length := by simpa using hi
        have hsame : (s.live.map (·.buffer))[j] = (s.live.map (·.buffer))[i] := by
          rw [List.getElem_map, List.getElem_map, hqj, hpi, heq]
        exact hji ((List.Nodup.getElem_inj_iff h.distinct).1 hsame)
      refine ⟨?_, ?_, fun q hq => h.buffer q (hsub.subset hq), fun q hq => h.below q (hsub.subset hq), ?_,
        h.distinct.sublist (hsub.map _)⟩
      · simp only
        split
        · exact h.buffer p hmem
        · exact h.addr
      · simp only
        split
        · exact Nat.le_of_lt (h.below p hmem)
        · exact h.top
      · intro q hq k hk
        have hapart := buffers_apart (h.buffer q (hsub.subset hq)) (h.buffer p hmem) (hne q hq)
        simp only [unmapBuffer_outside (page_outside hapart hk)]
        exact h.mapped q (hsub.subset hq) k hk
    · -- the other end still uses the buffer
      cases hs
      have hset : ∀ q ∈ s.live.set i { p with widowed := true }, ∃ p' ∈ s.live, p'.buffer = q.buffer := by
        intro q hq
        rcases List.mem_or_eq_of_mem_set hq with hq | rfl
        · exact ⟨q, hq, rfl⟩
        · exact ⟨p, hmem, rfl⟩
      refine ⟨h.addr, h.top, fun q hq => ?_, fun q hq => ?_, fun q hq k hk => ?_, ?_⟩
      · obtain ⟨p', hp', heq⟩ := hset q hq
        rw [← heq]
        exact h.buffer p' hp'
      · obtain ⟨p', hp', heq⟩ := hset q hq
        rw [← heq]
        exact h.below p' hp'
      · obtain ⟨p', hp', heq⟩ := hset q hq
        rw [← heq]
        exact h.mapped p' hp' k hk
      · have hsame : (s.live.map (·.buffer)).set i p.buffer = s.live.map (·.buffer) := by
          refine List.ext_getElem (by simp) fun j h1 h2 => ?_
          by_cases hij : i = j
          · subst hij
            rw [List.getElem_set_self, List.getElem_map, hpi]
          · rw [List.getElem_set_ne hij]
        simp only [List.map_set, hsame]
        exact h.distinct

private theorem pipesStep_inv (s : PipeArea) (i : PipesInput) (s' : PipeArea) (h : s.Inv) (hsafe : PipesSafe s i)
    (hs : pipesStep s i = some s') : s'.Inv := by
  cases i with
  | pipe env =>
    cases hs
    exact sysPipe_inv h hsafe
  | close i => exact pipeDealloc_inv h hs

/-- In every run whose inputs are safe, the buffers are disjoint, in the area and mapped. -/
theorem buffers_separate {inputs : List PipesInput} {s : PipeArea}
    (hsafe : Meets pipesStep PipesSafe inputs pipesInit)
    (hrun : Machine.run pipesStep inputs pipesInit = some s) : s.Separate := by
  have hinit : pipesInit.Inv := by
    refine ⟨⟨0, by decide⟩, by decide, ?_, ?_, ?_, List.nodup_nil⟩
    all_goals
      intro p hp
      exact absurd hp List.not_mem_nil
  exact (Meets.invariant pipesStep_inv hinit hsafe hrun).separate

def pipeEnv : PipeEnv := ⟨true, fun i => some ⟨(i + 1) * pageSize, by simp [pageSize]⟩⟩

/-- Two pipes, of which the first one is freed, and a third one in its buffer. -/
theorem buffers_separate_reuse : ∃ s, Machine.run pipesStep
    [.pipe pipeEnv, .pipe pipeEnv, .close 1, .close 1, .pipe pipeEnv] pipesInit = some s ∧ s.Separate := by
  have hsafe : Meets pipesStep PipesSafe [.pipe pipeEnv, .pipe pipeEnv, .close 1, .close 1, .pipe pipeEnv]
      pipesInit := by
    have hpipe : ∀ s, s.phys s.target = 0 → PipesSafe s (.pipe pipeEnv) := fun s h _ _ => ⟨h, fun _ _ => rfl⟩
    refine ⟨hpipe _ (by decide), fun s1 h1 => ?_⟩
    cases h1
    refine ⟨hpipe _ (by decide), fun s2 h2 => ?_⟩
    cases h2
    refine ⟨trivial, fun s3 h3 => ?_⟩
    cases h3
    refine ⟨trivial, fun s4 h4 => ?_⟩
    cases h4
    exact ⟨hpipe _ (by decide), fun _ _ => trivial⟩
  exact ⟨_, rfl, buffers_separate hsafe rfl⟩

/-- The first of three pipes is freed; of two further pipes the second one gets the buffer of the third pipe. -/
theorem not_buffers_separate : ∃ s, Machine.run pipesStep
    [.pipe pipeEnv, .pipe pipeEnv, .pipe pipeEnv, .close 2, .close 2, .pipe pipeEnv, .pipe pipeEnv] pipesInit =
    some s ∧ ¬s.Separate := by
  refine ⟨_, rfl, fun h => ?_⟩
  exact absurd h.disjoint (by decide)

end Pml.Kernel
