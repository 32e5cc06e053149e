import Pml.Arch.Fork

/-!
# Isolation of address spaces

A machine runs user programs in the address spaces that forks have made.  Programs store bytes, and a store that the
page tables do not allow goes to the page fault handler and is tried again.  In any interleaving, an address space
reads the last value that it has stored since a fork, or else the value at the time of the fork (`fork_isolation`).
-/

namespace Pml.Arch

open ByteMemory Radix

abbrev UserAddr : Type := Fin (2 ^ 47)

/-- The address spaces, by the address of their PML4 table. -/
structure Machine where
  vm : Vm
  spaces : List Nat

/-- What can happen next. -/
inductive Action where
  | fork (r : Nat)
  | fault (r : Nat) (v : UserAddr)
  | store (r : Nat) (v : UserAddr) (b : UInt8)

/-- One step.  A fork without memory adds no address space, and a store that is not allowed changes nothing. -/
def step (s : Machine) : Action → Machine
  | .fork r =>
    if r ∈ s.spaces then
      let c := threadClone s.vm r
      if c.2 = 0 then { s with vm := c.1 } else ⟨c.1, c.2 :: s.spaces⟩
    else s
  | .fault r v => if r ∈ s.spaces then { s with vm := (intPageFault s.vm r v).1 } else s
  | .store r v b =>
    if r ∈ s.spaces then
      match userStore s.vm.mem r v b with
      | some m => { s with vm := { s.vm with mem := m } }
      | none => s
    else s

def run (s : Machine) (as : List Action) : Machine := as.foldl step s

def Machine.load (s : Machine) (r : Nat) (v : UserAddr) : Option UInt8 := userLoad s.vm.mem r v

def stored (s : Machine) (r : Nat) (v : UserAddr) : Action → Option UInt8
  | .store r' v' b => if r' = r ∧ v' = v ∧ (userStore s.vm.mem r v b).isSome then some b else none
  | _ => none

def lastStored (s : Machine) (r : Nat) (v : UserAddr) : List Action → Option UInt8
  | [] => none
  | a :: as => (lastStored (step s a) r v as).or (stored s r v a)

/-- The user half of an address space before any fork: a tree of page tables and 4 KiB pages on allocated frames. -/
structure UserTree (vm : Vm) (r : Nat) : Prop where
  wf : vm.frames.Wf
  aligned : pageSize ∣ r
  used : vm.frames.count (r / pageSize) ≠ 0
  root : ∀ p, ¬Reach vm.mem r p r
  unique : ∀ p p' f, Reach vm.mem r p f → Reach vm.mem r p' f → p = p'
  counted : ∀ p f, Reach vm.mem r p f → vm.frames.count (f / pageSize) ≠ 0
  cow : ∀ p f, Reach vm.mem r p f → ∀ e ∈ trail (ptEntry vm.mem) child r p,
    hasFlag e pageFlagCow = true → hasFlag e pageFlagRw = false
  small : ∀ p f, Reach vm.mem r p f → 2 ≤ p.length → p.length ≤ 3 →
    ∀ e ∈ (trail (ptEntry vm.mem) child r p).getLast?, hasFlag e pageFlagSize = false

theorem UserTree.sharing {vm : Vm} {r : Nat} (h : UserTree vm r) : Sharing vm [r] := by
  have hr : ∀ {x}, x ∈ [r] → x = r := fun hx => List.mem_singleton.1 hx
  refine ⟨h.wf, List.nodup_singleton r, ?_, ?_, ?_, fun f => ?_, ?_, ?_, ?_⟩
  · intro x hx
    obtain rfl := hr hx
    exact ⟨h.aligned, h.used⟩
  · intro x hx y hy p hf
    obtain rfl := hr hx
    obtain rfl := hr hy
    exact h.root p hf
  · intro x hx y hy p p' f hf hf'
    obtain rfl := hr hx
    obtain rfl := hr hy
    exact h.unique p p' f hf hf'
  · rcases Nat.eq_zero_or_pos (users vm.mem [r] f) with h0 | hpos
    · omega
    · obtain ⟨x, hx, p, hf⟩ := exists_of_users_pos hpos
      obtain rfl := hr hx
      have h1 := h.counted p f hf
      have h2 : users vm.mem [x] f ≤ 1 := users_le_one (List.nodup_singleton x) fun y hy _ => hr hy
      omega
  · intro x hx y hy p f _ _ _
    rw [hr hx, hr hy]
  · intro x hx p f hf
    obtain rfl := hr hx
    exact h.cow p f hf
  · intro x hx p f hf
    obtain rfl := hr hx
    exact h.small p f hf

/-! ### Steps and runs -/

section

variable {s : Machine} (hs : Sharing s.vm s.spaces)
include hs

theorem step_sharing (a : Action) : Sharing (step s a).vm (step s a).spaces := by
  cases a with
  | fork r =>
    simp only [step]
    by_cases hr : r ∈ s.spaces
    · rcases threadClone_spec hs hr with ⟨h0, hu⟩ | ⟨h0, hs', -⟩
      · simpa only [hr, h0, ↓reduceIte] using hu.sharing
      · simpa only [hr, h0, ↓reduceIte] using hs'
    · simpa only [hr, ↓reduceIte] using hs
  | fault r v =>
    simp only [step]
    by_cases hr : r ∈ s.spaces
    · simpa only [hr, ↓reduceIte] using (intPageFault_unchanged hs hr v.isLt).sharing
    · simpa only [hr, ↓reduceIte] using hs
  | store r v b =>
    simp only [step]
    by_cases hr : r ∈ s.spaces
    · cases hst : userStore s.vm.mem r v b with
      | none => simpa only [hr, ↓reduceIte] using hs
      | some m => simpa only [hr, ↓reduceIte] using (userStore_spec hs hr v.isLt hst).1
    · simpa only [hr, ↓reduceIte] using hs

omit hs in
theorem mem_step_spaces {r : Nat} (hr : r ∈ s.spaces) (a : Action) : r ∈ (step s a).spaces := by
  cases a with
  | fork r' =>
    simp only [step]
    split
    · split
      · exact hr
      · exact List.mem_cons_of_mem _ hr
    · exact hr
  | fault r' v =>
    simp only [step]
    split <;> exact hr
  | store r' v b =>
    simp only [step]
    split
    · split <;> exact hr
    · exact hr

/-- After a step an address space reads what it has stored in this step, or else what it read before. -/
private theorem step_load {r : Nat} (hr : r ∈ s.spaces) (v : UserAddr) (a : Action) :
    (step s a).load r v = (stored s r v a).or (s.load r v) := by
  unfold Machine.load
  cases a with
  | fork r' =>
    simp only [step, stored, Option.none_or]
    by_cases hr' : r' ∈ s.spaces
    · rcases threadClone_spec hs hr' with ⟨h0, hu⟩ | ⟨h0, -, hl, -⟩
      · simpa only [hr', h0, ↓reduceIte] using hu.load r hr v v.isLt
      · simpa only [hr', h0, ↓reduceIte] using hl r hr v v.isLt
    · simp only [hr', ↓reduceIte]
  | fault r' v' =>
    simp only [step, stored, Option.none_or]
    by_cases hr' : r' ∈ s.spaces
    · simpa only [hr', ↓reduceIte] using (intPageFault_unchanged hs hr' v'.isLt).load r hr v v.isLt
    · simp only [hr', ↓reduceIte]
  | store r' v' b =>
    simp only [step, stored]
    by_cases hsame : r' = r ∧ v' = v
    · obtain ⟨rfl, rfl⟩ := hsame
      cases hst : userStore s.vm.mem r' v' b with
      | none => simp [hr]
      | some m => simpa [hr] using (userStore_spec hs hr v'.isLt hst).2.1
    · have hno : ¬(r' = r ∧ v' = v ∧ (userStore s.vm.mem r v b).isSome) := fun h => hsame ⟨h.1, h.2.1⟩
      rw [if_neg hno, Option.none_or]
      by_cases hr' : r' ∈ s.spaces
      · cases hst : userStore s.vm.mem r' v' b with
        | none => simp only [hr', ↓reduceIte]
        | some m =>
          simp only [hr', ↓reduceIte]
          exact (userStore_spec hs hr' v'.isLt hst).2.2 r hr v v.isLt
            fun h => hsame ⟨h.1.symm, Fin.ext h.2.symm⟩
      · simp only [hr', ↓reduceIte]

theorem run_sharing (as : List Action) : Sharing (run s as).vm (run s as).spaces := by
  induction as generalizing s with
  | nil => exact hs
  | cons a as ih => exact ih (step_sharing hs a)

private theorem run_load {r : Nat} (hr : r ∈ s.spaces) (v : UserAddr) (as : List Action) :
    (run s as).load r v = (lastStored s r v as).or (s.load r v) := by
  induction as generalizing s with
  | nil => rfl
  | cons a as ih =>
    rw [lastStored, Option.or_assoc, ← step_load hs hr v a]
    exact ih (step_sharing hs a) (mem_step_spaces hr a)

private theorem fork_load {r n : Nat} (hn : n ∈ (step s (.fork r)).spaces) (hnew : n ∉ s.spaces) (v : UserAddr) :
    r ∈ s.spaces ∧ (step s (.fork r)).load n v = s.load r v := by
  unfold Machine.load
  simp only [step] at hn ⊢
  by_cases hr : r ∈ s.spaces
  · rcases threadClone_spec hs hr with ⟨h0, -⟩ | ⟨h0, -, -, hl⟩
    · simp only [hr, h0, ↓reduceIte] at hn
      exact absurd hn hnew
    · simp only [hr, h0, ↓reduceIte] at hn ⊢
      rcases List.mem_cons.1 hn with rfl | hn
      · exact ⟨trivial, hl v v.isLt⟩
      · exact absurd hn hnew
  · simp only [hr, ↓reduceIte] at hn
    exact absurd hn hnew

end

/-- After any run, whatever happens next: an address space reads the last byte that it stores from then on, or else
what it reads now; and a fork gives the new address space what its parent reads now. -/
theorem fork_isolation {vm : Vm} {r0 : Nat} (h0 : UserTree vm r0) (before : List Action) :
    (∀ r ∈ (run ⟨vm, [r0]⟩ before).spaces, ∀ v after,
      (run (run ⟨vm, [r0]⟩ before) after).load r v =
        (lastStored (run ⟨vm, [r0]⟩ before) r v after).or ((run ⟨vm, [r0]⟩ before).load r v)) ∧
    ∀ r n, n ∈ (step (run ⟨vm, [r0]⟩ before) (.fork r)).spaces → n ∉ (run ⟨vm, [r0]⟩ before).spaces →
      r ∈ (run ⟨vm, [r0]⟩ before).spaces ∧
      ∀ v, (step (run ⟨vm, [r0]⟩ before) (.fork r)).load n v = (run ⟨vm, [r0]⟩ before).load r v := by
  have hs : Sharing (run ⟨vm, [r0]⟩ before).vm (run ⟨vm, [r0]⟩ before).spaces :=
    run_sharing (s := ⟨vm, [r0]⟩) h0.sharing before
  constructor
  · intro r hr v after
    exact run_load hs hr v after
  · intro r n hn hnew
    exact ⟨(fork_load hs hn hnew 0).1, fun v => (fork_load hs hn hnew v).2⟩

/-! ### A small address space -/

def smallTree : Mem :=
  setEntry (setEntry (setEntry (setEntry (fun _ => 0) 0x1000 0 0x2007) 0x2000 0 0x3007) 0x3000 0 0x4007)
    0x4000 0 0x5007

def smallVm : Vm where
  mem := smallTree
  frames := ⟨fun i => if i ≤ 5 then 1 else 0, 0x6000, true, [⟨0, 0x100000⟩], 0⟩

theorem smallTree_entry {k i : Nat} (hk : k < 4) (hi : i < 512) :
    ptEntry smallTree (0x1000 * (k + 1)) i = if i = 0 then 0x1000 * (k + 2) + 7 else 0 := by
  have hd : ∀ j, pageSize ∣ 0x1000 * j := fun j => Nat.dvd_mul_right _ _
  by_cases h0 : i = 0
  · have hall : ∀ k < 4, ptEntry smallTree (0x1000 * (k + 1)) 0 = 0x1000 * (k + 2) + 7 := by decide
    rw [if_pos h0, h0, hall k hk]
  · rw [if_neg h0, smallTree, ptEntry_setEntry_of_ne (hd 4) (hd _) (by decide) hi (fun h => h0 h.2),
      ptEntry_setEntry_of_ne (hd 3) (hd _) (by decide) hi (fun h => h0 h.2),
      ptEntry_setEntry_of_ne (hd 2) (hd _) (by decide) hi (fun h => h0 h.2),
      ptEntry_setEntry_of_ne (hd 1) (hd _) (by decide) hi (fun h => h0 h.2)]
    rfl

theorem walk_zeros {m : Mem} {f : Nat → Nat} {n k : Nat}
    (h : ∀ j < k + n, child (ptEntry m (f j) 0) = some (f (j + 1))) :
    walk (ptEntry m) child (f k) (List.replicate n 0) = some (f (k + n)) := by
  induction n generalizing k with
  | zero => rfl
  | succ n ih =>
    rw [List.replicate_succ, walk_cons, h k (by omega), Option.bind_some, ih fun j hj => h j (by omega),
      Nat.add_assoc k, Nat.add_comm 1 n]

/-- One table at each level, in the frames from `b` on, and one page behind them. -/
structure Chain (m : Mem) (b : Nat) (e : Nat → Nat) : Prop where
  entry : ∀ k < 4, ∀ i < 512, ptEntry m (pageSize * (b + k)) i = if i = 0 then e k else 0
  next : ∀ k < 4, child (e k) = some (pageSize * (b + (k + 1)))
  flags : ∀ k < 4, hasFlag (e k) pageFlagCow = false ∧ hasFlag (e k) pageFlagSize = false

section

variable {m : Mem} {b : Nat} {e : Nat → Nat} (hc : Chain m b e)
include hc

theorem Chain.walk {p : List Nat} {k f : Nat} (hlen : k + p.length ≤ 4) (hlt : ∀ i ∈ p, i < 512)
    (hw : walk (ptEntry m) child (pageSize * (b + k)) p = some f) :
    p = List.replicate p.length 0 ∧ f = pageSize * (b + (k + p.length)) ∧
      ∀ x ∈ trail (ptEntry m) child (pageSize * (b + k)) p,
        hasFlag x pageFlagCow = false ∧ hasFlag x pageFlagSize = false := by
  induction p generalizing k with
  | nil =>
    refine ⟨rfl, ?_, by simp⟩
    exact (Option.some.inj hw).symm
  | cons i p ih =>
    simp only [List.length_cons] at hlen
    have hk : k < 4 := by omega
    rw [walk_cons, trail_cons] at *
    rw [hc.entry k hk i (hlt i (by simp))] at hw ⊢
    by_cases h0 : i = 0
    · subst h0
      simp only [↓reduceIte, hc.next k hk, Option.bind_some, Option.elim_some] at hw ⊢
      obtain ⟨h1, h2, h3⟩ := ih (k := k + 1) (by omega) (fun j hj => hlt j (List.mem_cons_of_mem _ hj)) hw
      refine ⟨?_, ?_, ?_⟩
      · rw [List.length_cons, List.replicate_succ, ← h1]
      · rw [h2, List.length_cons, Nat.add_right_comm k 1, Nat.add_assoc k]
      · intro x hx
        rcases List.mem_cons.1 hx with rfl | hx
        · exact hc.flags k hk
        · exact h3 x hx
    · simp only [h0, ↓reduceIte, child_zero, Option.bind_none] at hw
      exact absurd hw (by simp)

private theorem Chain.userTree {frames : Frames} (hwf : frames.Wf) (hcount : ∀ k ≤ 4, frames.count (b + k) ≠ 0) :
    UserTree ⟨m, frames⟩ (pageSize * b) := by
  have hreach : ∀ p f, Reach m (pageSize * b) p f → p = List.replicate p.length 0 ∧ f = pageSize * (b + p.length) ∧
      ∀ x ∈ trail (ptEntry m) child (pageSize * b) p, hasFlag x pageFlagCow = false ∧
      hasFlag x pageFlagSize = false := by
    intro p f h
    have hw := hc.walk (k := 0) (by simpa using h.path.len) h.path.lt h.walk
    rwa [Nat.zero_add] at hw
  have hpos : ∀ p f, Reach m (pageSize * b) p f → 0 < p.length := fun p f h => List.length_pos_iff.2 h.path.pos
  have hframe : ∀ k, pageSize * (b + k) / pageSize = b + k := fun k => Nat.mul_div_cancel_left _ (by decide)
  refine ⟨hwf, Nat.dvd_mul_right _ _, ?_, ?_, ?_, ?_, ?_, ?_⟩
  · have h := hcount 0 (by decide)
    rwa [← hframe 0] at h
  · intro p h
    have h1 := hpos p _ h
    have h2 := (hreach p _ h).2.1
    have h3 := Nat.eq_of_mul_eq_mul_left (show 0 < pageSize by decide) h2
    omega
  · intro p p' f h h'
    obtain ⟨h1, h2, -⟩ := hreach p f h
    obtain ⟨h3, h4, -⟩ := hreach p' f h'
    have h5 := Nat.eq_of_mul_eq_mul_left (show 0 < pageSize by decide) (h2.symm.trans h4)
    rw [h1, h3, show p.length = p'.length by omega]
  · intro p f h
    rw [(hreach p f h).2.1, hframe]
    exact hcount _ h.path.len
  · intro p f h x hx hcow
    rw [((hreach p f h).2.2 x hx).1] at hcow
    exact absurd hcow (by decide)
  · intro p f h _ _ x hx
    exact ((hreach p f h).2.2 x (List.mem_of_getLast? hx)).2

end

theorem smallTree_chain : Chain smallTree 1 fun k => 0x1000 * (k + 2) + 7 := by
  refine ⟨fun k hk i hi => ?_, by decide, by decide⟩
  rw [Nat.add_comm 1 k]
  exact smallTree_entry hk hi

theorem smallVm_tree : UserTree smallVm 0x1000 := by
  refine smallTree_chain.userTree ⟨by decide, by decide, ?_, by decide⟩ (by decide)
  intro i
  cases i with
  | zero => decide
  | succ i => exact Nat.dvd_zero _

/-! ### A fork of a small address space -/

def chainTree (e : Nat) : Mem :=
  setEntry (setEntry (setEntry (setEntry (fun _ => 0) 0x10000 0 0x11007) 0x11000 0 0x12007) 0x12000 0 0x13007)
    0x13000 0 e

def chainVm (e : Nat) : Vm where
  mem := chainTree e
  frames := ⟨fun i => if i < 2 ∨ 16 ≤ i then 1 else 0, 0x2000, true, [⟨0, 0x100000⟩], 0⟩

def chainEntry (e k : Nat) : Nat := if k = 3 then e else 0x1000 * (k + 17) + 7

section

variable {e : Nat} (he : e = 0x14005 ∨ e = 0x14007)
include he

theorem chainTree_chain : Chain (chainTree e) 16 (chainEntry e) := by
  have hall : (∀ k < 4, ptEntry (chainTree e) (pageSize * (16 + k)) 0 = chainEntry e k) ∧
      (∀ k < 4, child (chainEntry e k) = some (pageSize * (16 + (k + 1)))) ∧
      ∀ k < 4, hasFlag (chainEntry e k) pageFlagCow = false ∧ hasFlag (chainEntry e k) pageFlagSize = false := by
    rcases he with rfl | rfl <;> decide
  refine ⟨fun k hk i hi => ?_, hall.2.1, hall.2.2⟩
  have hd : ∀ j, pageSize ∣ 0x1000 * j := fun j => Nat.dvd_mul_right _ _
  by_cases h0 : i = 0
  · rw [if_pos h0, h0, hall.1 k hk]
  · rw [if_neg h0, chainTree, ptEntry_setEntry_of_ne (hd 19) (hd _) (by decide) hi (fun h => h0 h.2),
      ptEntry_setEntry_of_ne (hd 18) (hd _) (by decide) hi (fun h => h0 h.2),
      ptEntry_setEntry_of_ne (hd 17) (hd _) (by decide) hi (fun h => h0 h.2),
      ptEntry_setEntry_of_ne (hd 16) (hd _) (by decide) hi (fun h => h0 h.2)]
    simp [ptEntry, readLE]

theorem chainVm_tree : UserTree (chainVm e) 0x10000 := by
  refine (chainTree_chain he).userTree ⟨by decide, by decide, ?_, by decide⟩ (by decide)
  intro i
  cases i with
  | zero => decide
  | succ i => exact Nat.dvd_zero _

end

/-- The allocator hands out the frames from address `a` on, one after the other, up to frame 16. -/
structure Bump (f : Frames) (a : Nat) : Prop where
  avail : f.memAvail = true
  next : f.nextPhysAddr = a
  regions : f.regions = [⟨0, 0x100000⟩]
  free : ∀ k, a / pageSize ≤ k → k < 16 → f.count k = 0

theorem Bump.allocPage {f : Frames} {a b : Nat} (h : Bump f a) (ha : a < 0x10000) (hab : a + pageSize = b) :
    ∃ f', allocPage f = (f', a) ∧ Bump f' b := by
  subst hab
  have hc : f.count (a / pageSize) = 0 := h.free _ (Nat.le_refl _) (by simp only [pageSize]; omega)
  have hnext : vmNextPage { f with count := Function.update f.count (a / pageSize) 1 } =
      { f with count := Function.update f.count (a / pageSize) 1, nextPhysAddr := a + pageSize, curr := 0 } := by
    have hlt : a < 0x100000 := by omega
    simp [vmNextPage, nextRegion, Frames.region, h.regions, h.next, hlt]
  refine ⟨{ f with count := Function.update f.count (a / pageSize) 1, nextPhysAddr := a + pageSize, curr := 0 }, ?_,
    ⟨h.avail, rfl, h.regions, fun k h1 h2 => ?_⟩⟩
  · simp only [h.avail, h.next] at hnext
    rw [Pml.Arch.allocPage]
    simp only [h.avail, h.next, hc, ↓reduceDIte, ↓reduceIte, hnext]
  · have hk : k ≠ a / pageSize := by
      simp only [pageSize] at h1 ⊢
      omega
    simp only
    rw [Function.update_of_ne hk]
    refine h.free k ?_ h2
    simp only [pageSize] at h1 ⊢
    omega

def KeepsBump (F : Frames → Frames) : Prop := ∀ f a, Bump f a → Bump (F f) a

private theorem keepsBump_if {c : Prop} [Decidable c] {F : Frames → Frames} (h : KeepsBump F) :
    KeepsBump fun f => if c then F f else f := by
  intro f a hb
  simp only
  split
  · exact h f a hb
  · exact hb

theorem KeepsBump.comp {F G : Frames → Frames} (hg : KeepsBump G) (hf : KeepsBump F) : KeepsBump fun f => G (F f) :=
  fun f a hb => hg _ a (hf f a hb)

theorem KeepsBump.foldl {step : Frames → Nat → Frames} (h : ∀ j, KeepsBump fun f => step f j) (l : List Nat) :
    KeepsBump fun f => l.foldl step f := by
  induction l with
  | nil => exact fun _ _ hb => hb
  | cons j l ih => exact ih.comp (h j)

private theorem keepsBump_refPage (e : Nat) : KeepsBump fun f => refPage f e := by
  intro f a hb
  have hcount : ∀ k, f.count k = 0 → (refPage f e).count k = 0 := by
    intro k hk
    rw [refPage_count, if_neg fun h => h.2.2 hk]
    exact hk
  have hrest : (refPage f e).memAvail = f.memAvail ∧ (refPage f e).nextPhysAddr = f.nextPhysAddr ∧
      (refPage f e).regions = f.regions := by
    unfold refPage
    split
    · exact ⟨rfl, rfl, rfl⟩
    · simp only
      split
      · exact ⟨rfl, rfl, rfl⟩
      · exact ⟨rfl, rfl, rfl⟩
  exact ⟨hrest.1.trans hb.avail, hrest.2.1.trans hb.next, hrest.2.2.trans hb.regions,
    fun k h1 h2 => hcount k (hb.free k h1 h2)⟩

private theorem keepsBump_refUser (m : Mem) (r : Nat) : KeepsBump fun f => refUser m f r := by
  have hpt : ∀ t, KeepsBump fun f => refPt m f t := fun t =>
    KeepsBump.foldl (fun _ => keepsBump_if (keepsBump_refPage _)) _
  have hpdt : ∀ t, KeepsBump fun f => refPdt m f t := fun t =>
    KeepsBump.foldl (fun _ => keepsBump_if ((hpt _).comp (keepsBump_refPage _))) _
  have hpdpt : ∀ t, KeepsBump fun f => refPdpt m f t := fun t =>
    KeepsBump.foldl (fun _ => keepsBump_if ((hpdt _).comp (keepsBump_refPage _))) _
  exact KeepsBump.foldl (fun _ => keepsBump_if ((hpdpt _).comp (keepsBump_refPage _))) _

theorem Bump.freePage {f : Frames} {a e : Nat} (h : Bump f a) (ha : a ≤ 0x10000)
    (he : 0x10000 ≤ alignDown e pageSize) : Bump (freePage f e) a := by
  unfold Pml.Arch.freePage
  split
  · exact h
  · simp only
    have hk : ∀ k, k < 16 → k ≠ alignDown e pageSize / pageSize := by
      intro k hk
      simp only [pageSize] at he ⊢
      omega
    split
    · rename_i hlt
      have := h.next
      omega
    · refine ⟨h.avail, h.next, h.regions, fun k h1 h2 => ?_⟩
      simp only
      rw [Function.update_of_ne (hk k h2)]
      exact h.free k h1 h2

theorem Bump.unshare {dup : Mem → Nat → Nat → Mem} {level : Nat} (hd : Dup dup level) (vm : Vm) {a t e f : Nat}
    {b : Nat} (h : Bump vm.frames a) (hab : a + pageSize = b) (ha : a < 0x10000 ∧ 0 < a) (had : pageSize ∣ a)
    (ht : pageSize ∣ t) (hta : t ≠ a)
    (he : ptEntry vm.mem t 0 = e) (hcow : hasFlag e pageFlagCow = true) (hf : alignDown e pageSize = f)
    (hfa : 0x10000 ≤ f) : ∃ m' frames, unshare dup vm t 0 = (⟨m', frames⟩, true) ∧ Bump frames b ∧
      ptEntry m' t 0 = copiedEntry a e ∧ (level < 4 → ptEntry m' a 0 = sharedEntry (ptEntry vm.mem f 0)) ∧
      ∀ g, pageSize ∣ g → g ≠ a → g ≠ t → ptEntry m' g 0 = ptEntry vm.mem g 0 := by
  obtain ⟨f', halloc, hb⟩ := h.allocPage ha.1 hab
  have hfd : pageSize ∣ f := hf ▸ pageSize_dvd_alignDown e
  have hap : b ≤ 0x10000 := by
    obtain ⟨c, rfl⟩ := had
    simp only [pageSize] at ha hab
    omega
  obtain ⟨hent, hm⟩ := retarget_of_dup hd (m := vm.mem) (i := 0) (by decide) ht hfd had (show a < 2 ^ 64 by omega)
    (Ne.symm hta) (show a ≠ f by omega)
  rw [he] at hent hm
  refine ⟨_, _, ?_, hb.freePage (e := e) hap (by omega), hm.entry.trans (by rw [he]),
    fun hl => hm.table hl 0 (by decide), ?_⟩
  · unfold Pml.Arch.unshare
    have ha0 : a ≠ 0 := by omega
    simp only [he, hcow, halloc, ha0, hf, hent, Bool.true_eq_false, ↓reduceIte]
  · intro g hg hga hgt
    exact hm.look g 0 hg (by decide) hga fun h => hgt h.1

/-- The memory after the fork, with the new PML4 table in frame 2. -/
def forkedTree (e : Nat) : Mem :=
  setEntry (copy (markUser (fill (chainTree e) 0x3000 pageSize 0) 0x10000) 0x2000 0x10000 pageSize) 0x2000
    (pml4tIndex threadLocalBaseVma) (0x3000 ||| pageFlagPresent ||| pageFlagRw ||| pageFlagUser)

theorem chainVm_bump {e : Nat} : Bump (chainVm e).frames 0x2000 := by
  refine ⟨rfl, rfl, rfl, fun k h1 h2 => ?_⟩
  simp only [pageSize, Nat.reduceDiv] at h1
  exact if_neg (show ¬(k < 2 ∨ 16 ≤ k) by omega)

theorem chainVm_fork {e : Nat} :
    ∃ frames, threadClone (chainVm e) 0x10000 = (⟨forkedTree e, frames⟩, 0x2000) ∧ Bump frames 0x4000 := by
  obtain ⟨f1, ha1, hb1⟩ := (chainVm_bump (e := e)).allocPage (by decide) (show _ = 0x3000 from rfl)
  obtain ⟨f2, ha2, hb2⟩ := hb1.allocPage (by decide) (show _ = 0x4000 from rfl)
  refine ⟨refUser (markUser (fill (chainTree e) 0x3000 pageSize 0) 0x10000) f2 0x10000, ?_,
    keepsBump_refUser _ _ _ _ hb2⟩
  unfold threadClone
  simp only [ha1, ha2, forkedTree, show (0x2000 : Nat) ≠ 0 by decide, show (0x3000 : Nat) ≠ 0 by decide, ↓reduceIte]
  rw [show (chainVm e).mem = chainTree e from rfl]

theorem chainVm_step {e : Nat} : ∃ frames, step ⟨chainVm e, [0x10000]⟩ (.fork 0x10000) =
    ⟨⟨forkedTree e, frames⟩, [0x2000, 0x10000]⟩ ∧ Bump frames 0x4000 := by
  obtain ⟨frames, hclone, hb⟩ := chainVm_fork (e := e)
  exact ⟨frames, by simp [step, hclone], hb⟩

section

variable {e : Nat} (he : e = 0x14005 ∨ e = 0x14007)
include he

/-- The entries of the user halves of both PML4 tables, and those of the tables below. -/
theorem forkedTree_entry :
    (∀ i < 256, ptEntry (forkedTree e) 0x2000 i = (if i = 0 then cowEntry 0x11007 else 0) ∧
      ptEntry (forkedTree e) 0x10000 i = if i = 0 then cowEntry 0x11007 else 0) ∧
    ∀ k, 1 ≤ k → k < 4 → ptEntry (forkedTree e) (0x1000 * (16 + k)) 0 = chainEntry e k := by
  have hm := markUser_spec (m := fill (chainTree e) 0x3000 pageSize 0) (t := 0x10000) (by decide)
  obtain ⟨hout, hent⟩ := copiedRoot_spec (markUser (fill (chainTree e) 0x3000 pageSize 0) 0x10000) (r := 0x10000)
    (n := 0x2000) (0x3000 ||| pageFlagPresent ||| pageFlagRw ||| pageFlagUser) (by decide)
  have hfill : ∀ k < 4, ∀ i < 512, ptEntry (fill (chainTree e) 0x3000 pageSize 0) (0x1000 * (16 + k)) i =
      if i = 0 then chainEntry e k else 0 := by
    intro k hk i hi
    rw [ptEntry_congr hi fun x h1 h2 => fill_outside (by simp only [pageSize] at h2 ⊢; omega)]
    exact (chainTree_chain he).entry k hk i hi
  have hmarked : ∀ i < 256, ptEntry (markUser (fill (chainTree e) 0x3000 pageSize 0) 0x10000) 0x10000 i =
      if i = 0 then cowEntry 0x11007 else 0 := by
    intro i hi
    have h0 := hfill 0 (by decide) i (by omega)
    rw [hm.entry i hi, show (0x10000 : Nat) = 0x1000 * (16 + 0) from rfl, h0]
    by_cases hi0 : i = 0
    · rw [if_pos hi0, if_pos hi0, show chainEntry e 0 = 0x11007 from rfl]
      decide
    · rw [if_neg hi0, if_neg hi0]
      decide
  refine ⟨fun i hi => ⟨(hent i hi).trans (hmarked i hi), ?_⟩, fun k h1 hk => ?_⟩
  · rw [← hmarked i hi]
    exact ptEntry_congr (by omega) fun x h1 h2 => hout x (by simp only [pageSize] at h2 ⊢; omega)
  · refine (ptEntry_congr (by decide) fun x h1 h2 => ?_).trans (hfill k hk 0 (by decide))
    simp only [pageSize] at h2
    exact (hout x (by simp only [pageSize]; omega)).trans (hm.outside x (by simp only [pageSize]; omega))

/-- A fault on the page copies the three tables and the page to the frames from address `a` on, and the page can be
written. -/
theorem Bump.fault {m : Mem} {frames : Frames} {r a : Nat} (hb : Bump frames a) (ha : 0 < a)
    (hroom : a + 0x4000 ≤ 0x10000)
    (had : pageSize ∣ a) (hr : pageSize ∣ r) (hra : r < a ∨ 0x10000 ≤ r) (hrt : r ≤ 0x10000)
    (e0 : ptEntry m r 0 = cowEntry 0x11007) (e1 : ptEntry m 0x11000 0 = 0x12007) (e2 : ptEntry m 0x12000 0 = 0x13007)
    (e3 : ptEntry m 0x13000 0 = e) : ∃ m' frames', intPageFault ⟨m, frames⟩ r 0x10 = (⟨m', frames'⟩, true) ∧
      Bump frames' (a + 0x4000) ∧ (∀ b, userStore m' r 0x10 b = some (setByte m' (a + 0x3010) b)) ∧
      ∀ g, pageSize ∣ g → g < a ∨ 0x10000 ≤ g → g ≠ r → ptEntry m' g 0 = ptEntry m g 0 := by
  have hidx : pml4tIndex 0x10 = 0 ∧ pdptIndex 0x10 = 0 ∧ pdtIndex 0x10 = 0 ∧ ptIndex 0x10 = 0 := by decide
  have hlast : hasFlag (sharedEntry e) pageFlagCow = true ∧ alignDown (sharedEntry e) pageSize = 0x14000 ∧
      hasFlag (sharedEntry e) pageFlagPresent = true ∧ Readable (sharedEntry e) := by
    unfold Readable
    rcases he with rfl | rfl <;> decide
  have hd1 : pageSize ∣ a + 0x1000 := Nat.dvd_add had (by decide)
  have hd2 : pageSize ∣ a + 0x2000 := Nat.dvd_add had (by decide)
  have hd3 : pageSize ∣ a + 0x3000 := Nat.dvd_add had (by decide)
  -- the page directory pointer table, the page directory, the page table and the page are copied
  obtain ⟨m1, f1, u1, b1, r1, n1, o1⟩ := hb.unshare (dup_copyTable (show 1 < 4 by decide)) ⟨m, frames⟩ (t := r)
    (f := 0x11000) (b := a + 0x1000) rfl (by omega) had hr (by omega) e0 (by decide) (by decide) (by decide)
  replace n1 : ptEntry m1 a 0 = sharedEntry 0x12007 := (n1 (by decide)).trans (by rw [e1])
  obtain ⟨m2, f2, u2, b2, r2, n2, o2⟩ := b1.unshare (dup_copyTable (show 2 < 4 by decide)) ⟨m1, f1⟩ (t := a)
    (f := 0x12000) (b := a + 0x2000) rfl (by omega) hd1 had (by omega) n1 (by decide) (by decide) (by decide)
  replace n2 : ptEntry m2 (a + 0x1000) 0 = sharedEntry 0x13007 :=
    (n2 (by decide)).trans (by rw [o1 _ (by decide) (by omega) (by omega), e2])
  obtain ⟨m3, f3, u3, b3, r3, n3, o3⟩ := b2.unshare (dup_copyTable (show 3 < 4 by decide)) ⟨m2, f2⟩ (t := a + 0x1000)
    (f := 0x13000) (b := a + 0x3000) rfl (by omega) hd2 hd1 (by omega) n2 (by decide) (by decide) (by decide)
  replace n3 : ptEntry m3 (a + 0x2000) 0 = sharedEntry e := (n3 (by decide)).trans (by
    rw [o2 _ (by decide) (by omega) (by omega), o1 _ (by decide) (by omega) (by omega), e3])
  obtain ⟨m4, f4, u4, b4, r4, -, o4⟩ := b3.unshare dup_copyPage ⟨m3, f3⟩ (t := a + 0x2000) (f := 0x14000)
    (b := a + 0x4000) rfl (by omega) hd3 hd2 (by omega) n3 hlast.1 hlast.2.1 (by decide)
  have hwrite : ∀ n x, pageSize ∣ n → n < 0x10000 → Readable x → alignDown (copiedEntry n x) pageSize = n ∧
      copiedEntry n x &&& (pageFlagPresent ||| pageFlagUser ||| pageFlagRw) =
        (pageFlagPresent ||| pageFlagUser ||| pageFlagRw) ∧
        hasFlag (copiedEntry n x) pageFlagSize = hasFlag x pageFlagSize := by
    intro n x hn hlt hx
    have hn64 : n < 2 ^ 64 := by omega
    obtain ⟨hp, hc⟩ := child_eq_some.1 (child_copiedEntry x hn64 hn hx.1)
    refine ⟨hc.symm, (and_eq_iff_writable _).2 ⟨⟨hp, ?_⟩, ?_⟩, copiedEntry_size x hn64 hn⟩
    · rw [copiedEntry_user x hn64 hn, hx.2]
    · rw [hasFlag_rw, testBit_copiedEntry hn64]
      simp
  obtain ⟨c1, w1, z1⟩ := hwrite a (cowEntry 0x11007) had (by omega) (by unfold Readable; decide)
  obtain ⟨c2, w2, z2⟩ := hwrite (a + 0x1000) (sharedEntry 0x12007) hd1 (by omega) (by unfold Readable; decide)
  obtain ⟨c3, w3, z3⟩ := hwrite (a + 0x2000) (sharedEntry 0x13007) hd2 (by omega) (by unfold Readable; decide)
  obtain ⟨c4, w4, -⟩ := hwrite (a + 0x3000) (sharedEntry e) hd3 (by omega) hlast.2.2.2
  have hfault : intPageFault ⟨m, frames⟩ r 0x10 = (⟨m4, f4⟩, true) := by
    unfold intPageFault
    simp only [hidx]
    rw [if_neg (by decide), if_neg (by rw [e0]; decide)]
    simp only [u1, r1, c1, Bool.true_eq_false, ↓reduceIte]
    rw [if_neg (by rw [n1]; decide)]
    simp only [u2, r2, c2, Bool.true_eq_false, ↓reduceIte]
    rw [if_neg (by rw [n2]; decide)]
    simp only [u3, r3, c3, Bool.true_eq_false, ↓reduceIte]
    rw [if_neg (by rw [n3, hlast.2.2.1]; decide), if_neg (by rw [n3, hlast.1]; decide), u4]
  have k1 : ptEntry m4 r 0 = copiedEntry a (cowEntry 0x11007) := by
    rw [o4 _ hr (by omega) (by omega), o3 _ hr (by omega) (by omega), o2 _ hr (by omega) (by omega), r1]
  have k2 : ptEntry m4 a 0 = copiedEntry (a + 0x1000) (sharedEntry 0x12007) := by
    rw [o4 _ had (by omega) (by omega), o3 _ had (by omega) (by omega), r2]
  have k3 : ptEntry m4 (a + 0x1000) 0 = copiedEntry (a + 0x2000) (sharedEntry 0x13007) := by
    rw [o4 _ hd1 (by omega) (by omega), r3]
  refine ⟨m4, f4, hfault, b4, fun b => ?_, fun g hg hga hgr => ?_⟩
  · have hsize : hasFlag (copiedEntry (a + 0x1000) (sharedEntry 0x12007)) pageFlagSize = false ∧
        hasFlag (copiedEntry (a + 0x2000) (sharedEntry 0x13007)) pageFlagSize = false := by
      rw [z2, z3]
      decide
    unfold userStore userAddr
    simp only [hidx, k1, c1, w1, k2, c2, w2, k3, c3, w3, r4, c4, w4, hsize, ne_eq, not_true_eq_false,
      Bool.false_eq_true, ↓reduceIte, Option.map_some]
    rw [page_or_offset 0x10 hd3, show a + 0x3000 + 0x10 % pageSize = a + 0x3010 by simp only [pageSize]]
  · rw [o4 _ hg (by omega) (by omega), o3 _ hg (by omega) (by omega), o2 _ hg (by omega) (by omega),
      o1 _ hg (by omega) (by omega)]

end

theorem forkedTree_walk {r : Nat} (hr : r = 0x2000 ∨ r = 0x10000) :
    walk (ptEntry (forkedTree 0x14007)) child r [0] = some 0x11000 ∧
      walk (ptEntry (forkedTree 0x14007)) child r [0, 0, 0] = some 0x13000 ∧
      walk (ptEntry (forkedTree 0x14007)) child r [0, 0, 0, 0] = some 0x14000 := by
  obtain ⟨hroot, htable⟩ := forkedTree_entry (e := 0x14007) (Or.inr rfl)
  have hroot : ptEntry (forkedTree 0x14007) r 0 = cowEntry 0x11007 := by
    rcases hr with rfl | rfl
    · exact (hroot 0 (by decide)).1
    · exact (hroot 0 (by decide)).2
  have hnext : ∀ j < 4, child (ptEntry (forkedTree 0x14007) (if j = 0 then r else 0x1000 * (16 + j)) 0) =
      some (if j + 1 = 0 then r else 0x1000 * (16 + (j + 1))) := by
    intro j hj
    by_cases h0 : j = 0
    · rw [if_pos h0, hroot, h0, if_neg (by decide)]
      decide
    · rw [if_neg h0, htable j (by omega) hj]
      exact (chainTree_chain (e := 0x14007) (Or.inr rfl)).next j hj
  have hwalk : ∀ n ≤ 4, _ := fun n hn => walk_zeros (m := forkedTree 0x14007) (n := n) (k := 0) fun j hj =>
    hnext j (by omega)
  exact ⟨hwalk 1 (by decide), hwalk 3 (by decide), hwalk 4 (by decide)⟩

/-- After a fork parent and child fault on the page and store, and each of them reads its own byte; before that the
child reads what the parent has. -/
theorem fork_isolation_small : UserTree (chainVm 0x14007) 0x10000 ∧
    (step ⟨chainVm 0x14007, [0x10000]⟩ (.fork 0x10000)).load 0x2000 0x10 =
      (⟨chainVm 0x14007, [0x10000]⟩ : Machine).load 0x10000 0x10 ∧
    ∃ s, s = run (run ⟨chainVm 0x14007, [0x10000]⟩ [.fork 0x10000])
      [.fault 0x2000 0x10, .store 0x2000 0x10 7, .fault 0x10000 0x10, .store 0x10000 0x10 9] ∧
      s.load 0x2000 0x10 = some 7 ∧ s.load 0x10000 0x10 = some 9 := by
  have htree : UserTree (chainVm 0x14007) 0x10000 := chainVm_tree (Or.inr rfl)
  obtain ⟨f1, hfork, b1⟩ := chainVm_step (e := 0x14007)
  obtain ⟨hroot, htable⟩ := forkedTree_entry (e := 0x14007) (Or.inr rfl)
  have hrun : run ⟨chainVm 0x14007, [0x10000]⟩ [.fork 0x10000] = ⟨⟨forkedTree 0x14007, f1⟩, [0x2000, 0x10000]⟩ := by
    rw [run, List.foldl_cons, hfork, List.foldl_nil]
  -- the fault of the child, and after its store that of the parent
  obtain ⟨m2, f2, h2, b2, w2, o2⟩ :=
    b1.fault (e := 0x14007) (Or.inr rfl) (r := 0x2000) (by decide) (by decide) (by decide)
    (by decide) (by decide) (by decide) (hroot 0 (by decide)).1 (htable 1 (by decide) (by decide))
    (htable 2 (by decide) (by decide)) (htable 3 (by decide) (by decide))
  have hstore : ∀ g i, 0x10000 ≤ g → i < 512 → ptEntry (setByte m2 (0x4000 + 0x3010) 7) g i = ptEntry m2 g i := by
    intro g i hg hi
    refine ptEntry_congr hi fun x h1 _ => ?_
    rw [setByte, if_neg (by omega)]
  have hkeep : ∀ g, pageSize ∣ g → 0x10000 ≤ g →
      ptEntry (setByte m2 (0x4000 + 0x3010) 7) g 0 = ptEntry (forkedTree 0x14007) g 0 := fun g hd hg =>
    (hstore g 0 hg (by decide)).trans (o2 g hd (Or.inr hg) (by omega))
  obtain ⟨m4, f4, h4, -, w4, -⟩ := b2.fault (e := 0x14007) (Or.inr rfl) (m := setByte m2 (0x4000 + 0x3010) 7)
    (r := 0x10000) (by decide) (by decide) (by decide) (by decide) (by decide) (by decide)
    ((hkeep _ (by decide) (by decide)).trans (hroot 0 (by decide)).2)
    ((hkeep _ (by decide) (by decide)).trans (htable 1 (by decide) (by decide)))
    ((hkeep _ (by decide) (by decide)).trans (htable 2 (by decide) (by decide)))
    ((hkeep _ (by decide) (by decide)).trans (htable 3 (by decide) (by decide)))
  have hiso := fork_isolation htree [.fork 0x10000]
  refine ⟨htree, ?_, _, rfl, ?_, ?_⟩
  · refine ((fork_isolation htree []).2 0x10000 0x2000 ?_ (by simp [run])).2 0x10
    rw [show run ⟨chainVm 0x14007, [0x10000]⟩ [] = ⟨chainVm 0x14007, [0x10000]⟩ from rfl, hfork]
    simp
  · rw [hiso.1 0x2000 (by rw [hrun]; simp) 0x10, hrun]
    simp [lastStored, stored, step, h2, w2, h4]
  · rw [hiso.1 0x10000 (by rw [hrun]; simp) 0x10, hrun]
    simp [lastStored, stored, step, h2, w2, h4, w4]

end Pml.Arch
