import Pml.Arch.Isolation
import Pml.Lib.Machine

/-!
# Read-only pages and copy-on-write

A fork and the page fault handler mark all entries of a table copy-on-write, also those of pages that were read-only
before, and the handler sets the write flag on every marked entry of the faulting page.  A page that is present and
read-only stays so as long as no fault on it finds a mark (`readOnly_kept`).  A fault on another page leaves a mark,
or the old entry, on the way to it.
-/

namespace Pml.Arch

open ByteMemory Radix

/-- The page of an address is present and not writable. -/
structure ReadOnly (m : Mem) (r v : Nat) : Prop where
  present : ∃ f, Reach m r (userPath v) f
  locked : ∃ e ∈ trail (ptEntry m) child r (userPath v), hasFlag e pageFlagRw = false

def Unmarked (m : Mem) (r v : Nat) : Prop := Private m r (userPath v)

theorem ReadOnly.userStore {vm : Vm} {roots : List Nat} (hs : Sharing vm roots) {r v : Nat} (hr : r ∈ roots)
    (hv : v < 2 ^ 47) (h : ReadOnly vm.mem r v) (b : UInt8) : userStore vm.mem r v b = none := by
  obtain ⟨e, he, hrw⟩ := h.locked
  unfold Pml.Arch.userStore
  rw [Option.map_eq_none_iff, Option.eq_none_iff_forall_ne_some]
  intro a ha
  obtain ⟨f, -, hall, -⟩ := (userAddr_eq_some hs hr (fun e he => ((and_eq_iff_writable e).1 he).1.1) hv).1 ha
  rw [((and_eq_iff_writable e).1 (hall e he)).2] at hrw
  exact absurd hrw (by decide)

theorem ReadOnly.congr {m m' : Mem} {r r' v : Nat} (h : ReadOnly m r v)
    (hw : walk (ptEntry m') child r' (userPath v) = walk (ptEntry m) child r (userPath v))
    (ht : trail (ptEntry m') child r' (userPath v) = trail (ptEntry m) child r (userPath v)) : ReadOnly m' r' v := by
  obtain ⟨f, hf⟩ := h.present
  exact ⟨⟨f, hf.path, hw.trans hf.walk⟩, by rw [ht]; exact h.locked⟩

/-- A step of the handler on another entry than the one of the page. -/
theorem ReadOnly.unshare {vm : Vm} {roots : List Nat} (hs : Sharing vm roots) {x y i t v : Nat} {q : List Nat}
    (hx : x ∈ roots) (hp : UserPath (q ++ [i])) (ht : walk (ptEntry vm.mem) child x q = some t)
    (hpriv : Private vm.mem x q) (hpres : hasFlag (ptEntry vm.mem t i) pageFlagPresent = true)
    {dup : Mem → Nat → Nat → Mem} (hd : Dup dup (q ++ [i]).length) (hy : y ∈ roots) (h : ReadOnly vm.mem y v)
    (hne : ¬(y = x ∧ userPath v = q ++ [i])) : ReadOnly (unshare dup vm t i).1.mem y v := by
  obtain ⟨f, hf⟩ := h.present
  have hchild := child_eq_some.2 ⟨hpres, rfl⟩
  rcases unshare_cases hs hx hp ht hpres hd with
    ⟨-, he⟩ | ⟨frames, -, he, -⟩ | ⟨m', frames, n, -, he, -, -, hn, hn64, hnd, -, hm, -⟩
  · rw [he]
    exact h
  · rw [he]
    exact h
  · rw [he]
    rcases retarget_walk hs hx hp ht hpriv hchild hn hn64 hnd hm hy hf.path with
      ⟨-, h1, h2⟩ | ⟨h1, h2, -⟩ | ⟨-, -, h1, j, rest, h2, h3⟩
    · exact h.congr h1 h2
    · exact absurd ⟨h1, h2⟩ hne
    · -- the page is below the copied table, whose entries are marked
      have hse : sharedEntry (ptEntry vm.mem (alignDown (ptEntry vm.mem t i) pageSize) j) = cowEntry _ :=
        if_pos (present_of_mem_trail hf.walk (by rw [h2]; simp))
      have hmem : cowEntry (ptEntry vm.mem (alignDown (ptEntry vm.mem t i) pageSize) j) ∈
          trail (ptEntry m') child y (userPath v) := by
        rw [h3, hse]
        simp
      exact ⟨⟨f, hf.path, h1.trans hf.walk⟩, _, hmem, cowEntry_rw (ptEntry_lt _ _ _)⟩

theorem ReadOnly.intPageFault {vm : Vm} {roots : List Nat} (hs : Sharing vm roots) {x y v w : Nat} (hx : x ∈ roots)
    (hy : y ∈ roots) (hw : w < 2 ^ 47) (h : ReadOnly vm.mem y v) (hne : ¬(y = x ∧ userPath w = userPath v)) :
    ReadOnly (intPageFault vm x w).1.mem y v := by
  refine intPageFault_rule (P := fun vm' => ReadOnly vm'.mem y v) hs hx hw ?_ h
  intro vm' dup q i rest t hs' hro hsplit ht hpriv hpres hd
  have hp := userPath_user hw
  rw [hsplit, show q ++ i :: rest = (q ++ [i]) ++ rest by simp] at hp
  refine hro.unshare hs' hx (hp.left (by simp)) ht hpriv hpres hd hy ?_
  rintro ⟨rfl, hv⟩
  -- both ways have four entries, so they are the same
  have hl : rest = [] := by
    have h1 := congrArg List.length hsplit
    have h2 := congrArg List.length hv
    simp only [userPath, List.length_append, List.length_cons, List.length_nil] at h1 h2
    exact List.eq_nil_of_length_eq_zero (by omega)
  subst hl
  exact hne ⟨rfl, hsplit.trans hv.symm⟩

theorem unshare_unmarked {dup : Mem → Nat → Nat → Mem} {vm : Vm} {t i : Nat}
    (h : hasFlag (ptEntry vm.mem t i) pageFlagCow = false) : unshare dup vm t i = (vm, true) := by
  unfold unshare
  rw [if_pos h]

theorem intPageFault_unmarked {vm : Vm} {r v : Nat} (h : Unmarked vm.mem r v) :
    intPageFault vm r v = (vm, false) := by
  unfold Unmarked Private userPath at h
  unfold intPageFault
  simp only
  by_cases hsign : v >>> 48 ≠ if pml4tIndex v &&& 0x100 ≠ 0 then 0xffff else 0
  · rw [if_pos hsign]
  rw [if_neg hsign]
  split
  · rfl
  rename_i hp1
  have c1 : child (ptEntry vm.mem r (pml4tIndex v)) = some _ :=
    child_eq_some.2 ⟨Bool.eq_true_of_not_eq_false hp1, rfl⟩
  simp only [trail_cons, c1, Option.elim_some, List.forall_mem_cons] at h
  obtain ⟨h1, h⟩ := h
  simp only [unshare_unmarked h1, Bool.true_eq_false, ↓reduceIte]
  split
  · rfl
  rename_i hp2
  have c2 := child_eq_some.2 ⟨Bool.eq_true_of_not_eq_false (not_or.1 hp2).2, rfl⟩
  rw [c2] at h
  simp only [Option.elim_some, List.forall_mem_cons] at h
  obtain ⟨h2, h⟩ := h
  simp only [unshare_unmarked h2, Bool.true_eq_false, ↓reduceIte]
  split
  · rfl
  rename_i hp3
  have c3 := child_eq_some.2 ⟨Bool.eq_true_of_not_eq_false (not_or.1 hp3).2, rfl⟩
  rw [c3] at h
  simp only [Option.elim_some, List.forall_mem_cons] at h
  obtain ⟨h3, h4, -⟩ := h
  simp only [unshare_unmarked h3, h4, Bool.true_eq_false, ↓reduceIte]
  split
  · rfl
  · rfl

theorem ReadOnly.threadClone {vm : Vm} {roots : List Nat} (hs : Sharing vm roots) {x y v : Nat} (hx : x ∈ roots)
    (hy : y ∈ roots) (h0 : (threadClone vm x).2 ≠ 0) (h : ReadOnly vm.mem y v) :
    ReadOnly (threadClone vm x).1.mem y v ∧ (y = x → ReadOnly (threadClone vm x).1.mem (threadClone vm x).2 v) := by
  obtain ⟨f, hf⟩ := h.present
  obtain ⟨hother, ⟨hwalk, e, rest, hlt, h1, h2⟩, hcw, hct⟩ := threadClone_walks hs hx h0 hf.path
  have hparent : y = x → ReadOnly (Pml.Arch.threadClone vm x).1.mem y v := by
    rintro rfl
    have hpres : hasFlag e pageFlagPresent = true := present_of_mem_trail hf.walk (by rw [h1]; simp)
    rw [markedEntry_of_present hpres] at h2
    exact ⟨⟨f, hf.path, hwalk.trans hf.walk⟩, cowEntry e, by rw [h2]; simp, cowEntry_rw hlt⟩
  refine ⟨?_, ?_⟩
  · by_cases hne : y = x
    · exact hparent hne
    · exact h.congr (hother y hy hne).1 (hother y hy hne).2
  · rintro rfl
    exact (hparent rfl).congr hcw hct

/-! ### Runs -/

/-- A fault on the page of `v` in one of the address spaces `r` and `n` finds no mark on the way. -/
def NoMark (r n : Nat) (v : UserAddr) (s : Machine) : Action → Prop
  | .fault x w => (x = r ∨ x = n) → userPath w = userPath v → Unmarked s.vm.mem x v
  | _ => True

private theorem step_readOnly {s : Machine} (hs : Sharing s.vm s.spaces) {y : Nat} {v : UserAddr} (hy : y ∈ s.spaces)
    (h : ReadOnly s.vm.mem y v) {a : Action} (ha : NoMark y y v s a) : ReadOnly (step s a).vm.mem y v := by
  cases a with
  | fork x =>
    simp only [step]
    by_cases hx : x ∈ s.spaces
    · by_cases h0 : (threadClone s.vm x).2 = 0
      · rcases threadClone_cases hs hx with ⟨frames, he, -⟩ | ⟨n, b, m2, m4, frames, he, -, hn0, -⟩
        · simpa only [hx, he, ↓reduceIte] using h
        · rw [he] at h0
          exact absurd h0 hn0
      · simpa only [hx, h0, ↓reduceIte] using (h.threadClone hs hx hy h0).1
    · simpa only [hx, ↓reduceIte] using h
  | fault x w =>
    simp only [step]
    by_cases hx : x ∈ s.spaces
    · by_cases hsame : y = x ∧ userPath w = userPath v
      · obtain ⟨rfl, hp⟩ := hsame
        have hun := ha (Or.inl rfl) hp
        have hstop : intPageFault s.vm y w = (s.vm, false) := intPageFault_unmarked (by
          unfold Unmarked at hun ⊢
          rwa [hp])
        simpa only [hx, hstop, ↓reduceIte] using h
      · simpa only [hx, ↓reduceIte] using h.intPageFault hs hx hy w.isLt hsame
    · simpa only [hx, ↓reduceIte] using h
  | store x w b =>
    simp only [step]
    by_cases hx : x ∈ s.spaces
    · cases hst : userStore s.vm.mem x w b with
      | none => simpa only [hx, ↓reduceIte] using h
      | some m =>
        simp only [hx, ↓reduceIte]
        unfold userStore at hst
        obtain ⟨a, haddr, rfl⟩ := Option.map_eq_some_iff.1 hst
        obtain ⟨f, hf, -, rfl⟩ :=
          (userAddr_eq_some hs hx (fun e he => ((and_eq_iff_writable e).1 he).1.1) w.isLt).1 haddr
        obtain ⟨h1, h2⟩ := setByte_walk hs hx hf rfl (Nat.mod_lt _ (by decide)) b y hy _ (userPath_user v.isLt)
        exact h.congr h1 h2
    · simpa only [hx, ↓reduceIte] using h

def stepSome (s : Machine) (a : Action) : Option Machine := some (step s a)

private theorem run_eq (as : List Action) (s : Machine) : Machine.run stepSome as s = some (run s as) := by
  induction as generalizing s with
  | nil => rfl
  | cons a as ih => exact ih (step s a)

/-- A page that is present and read-only at a fork stays so in both address spaces, and writes to it are refused, in
every run in which no fault on the page finds a mark. -/
theorem readOnly_kept {vm : Vm} {r0 : Nat} (h0 : UserTree vm r0) (before : List Action) {r n : Nat} {v : UserAddr}
    (hr : r ∈ (run ⟨vm, [r0]⟩ before).spaces) (hv : ReadOnly (run ⟨vm, [r0]⟩ before).vm.mem r v)
    (hn : n ∈ (step (run ⟨vm, [r0]⟩ before) (.fork r)).spaces) (hnew : n ∉ (run ⟨vm, [r0]⟩ before).spaces)
    {after : List Action}
    (hC : Machine.Meets stepSome (NoMark r n v) after (step (run ⟨vm, [r0]⟩ before) (.fork r))) {x : Nat}
    (hx : x = r ∨ x = n) :
    ReadOnly (run (step (run ⟨vm, [r0]⟩ before) (.fork r)) after).vm.mem x v ∧
    (∀ b, userStore (run (step (run ⟨vm, [r0]⟩ before) (.fork r)) after).vm.mem x v b = none) ∧
    (Unmarked (run (step (run ⟨vm, [r0]⟩ before) (.fork r)) after).vm.mem x v →
      (intPageFault (run (step (run ⟨vm, [r0]⟩ before) (.fork r)) after).vm x v).2 = false) := by
  have hs : Sharing (run ⟨vm, [r0]⟩ before).vm (run ⟨vm, [r0]⟩ before).spaces :=
    run_sharing (s := ⟨vm, [r0]⟩) h0.sharing before
  generalize run ⟨vm, [r0]⟩ before = s0 at *
  -- the fork has made the address space `n`
  have hfork : ReadOnly (step s0 (.fork r)).vm.mem r v ∧ ReadOnly (step s0 (.fork r)).vm.mem n v := by
    simp only [step, hr, ↓reduceIte] at hn ⊢
    by_cases hz : (threadClone s0.vm r).2 = 0
    · simp only [hz, ↓reduceIte] at hn
      exact absurd hn hnew
    · simp only [hz, ↓reduceIte] at hn ⊢
      obtain rfl : n = (threadClone s0.vm r).2 := (List.mem_cons.1 hn).resolve_right hnew
      obtain ⟨h1, h2⟩ := hv.threadClone hs hr hr hz
      exact ⟨h1, h2 rfl⟩
  have hr1 := mem_step_spaces hr (.fork r)
  have hs1 := step_sharing hs (.fork r)
  have hinv := Machine.Meets.invariant (P := fun s => Sharing s.vm s.spaces ∧ (r ∈ s.spaces ∧ n ∈ s.spaces) ∧
    ReadOnly s.vm.mem r v ∧ ReadOnly s.vm.mem n v) (by
      rintro s a s' ⟨hs, ⟨hrs, hns⟩, h1, h2⟩ ha hstep
      cases hstep
      refine ⟨step_sharing hs a, ⟨mem_step_spaces hrs a, mem_step_spaces hns a⟩, ?_, ?_⟩
      · refine step_readOnly hs hrs h1 ?_
        cases a with
        | fault x w => exact fun hx hp => ha (Or.inl (hx.elim id id)) hp
        | fork x => trivial
        | store x w b => trivial
      · refine step_readOnly hs hns h2 ?_
        cases a with
        | fault x w => exact fun hx hp => ha (Or.inr (hx.elim id id)) hp
        | fork x => trivial
        | store x w b => trivial) ⟨hs1, ⟨hr1, hn⟩, hfork⟩ hC (run_eq after _)
  obtain ⟨hs2, ⟨hr2, hn2⟩, h1, h2⟩ := hinv
  rcases hx with rfl | rfl
  · exact ⟨h1, fun b => h1.userStore hs2 hr2 v.isLt b, fun hun => by rw [intPageFault_unmarked hun]⟩
  · exact ⟨h2, fun b => h2.userStore hs2 hn2 v.isLt b, fun hun => by rw [intPageFault_unmarked hun]⟩

/-! ### A read-only page -/

def readOnlyTree : Mem := chainTree 0x14005

def readOnlyVm : Vm := chainVm 0x14005

private theorem readOnlyVm_tree : UserTree readOnlyVm 0x10000 := chainVm_tree (Or.inl rfl)

private theorem readOnlyVm_readOnly : ReadOnly readOnlyTree 0x10000 0x10 := by
  have hpath : userPath 0x10 = [0, 0, 0, 0] := by decide
  have e0 : ptEntry readOnlyTree 0x10000 0 = 0x11007 :=
    (chainTree_chain (Or.inl rfl)).entry 0 (by decide) 0 (by decide)
  have e1 : ptEntry readOnlyTree 0x11000 0 = 0x12007 :=
    (chainTree_chain (Or.inl rfl)).entry 1 (by decide) 0 (by decide)
  have e2 : ptEntry readOnlyTree 0x12000 0 = 0x13007 :=
    (chainTree_chain (Or.inl rfl)).entry 2 (by decide) 0 (by decide)
  have e3 : ptEntry readOnlyTree 0x13000 0 = 0x14005 :=
    (chainTree_chain (Or.inl rfl)).entry 3 (by decide) 0 (by decide)
  have c0 : child 0x11007 = some 0x11000 := by decide
  have c1 : child 0x12007 = some 0x12000 := by decide
  have c2 : child 0x13007 = some 0x13000 := by decide
  have c3 : child 0x14005 = some 0x14000 := by decide
  refine ⟨⟨0x14000, userPath_user (by decide), ?_⟩, 0x14005, ?_, by decide⟩
  · simp only [hpath, walk_cons, walk_nil, e0, c0, e1, c1, e2, c2, e3, c3, Option.bind_some]
  · simp only [hpath, trail_cons, e0, c0, e1, c1, e2, c2, e3, c3, Option.elim_some, List.mem_cons, true_or, or_true]

/-- The child of a fork stays without write access to a read-only page when both address spaces fault on the next
page, for which the handler copies the three tables below the PML4 table. -/
theorem readOnly_kept_small : ReadOnly readOnlyTree 0x10000 0x10 ∧
    ReadOnly (run (step (run ⟨readOnlyVm, [0x10000]⟩ []) (.fork 0x10000))
      [.fault 0x2000 0x1010, .fault 0x10000 0x1010]).vm.mem 0x2000 0x10 := by
  obtain ⟨frames, he, -⟩ := chainVm_fork (e := 0x14005)
  refine ⟨readOnlyVm_readOnly, ?_⟩
  have hmeets : Machine.Meets stepSome (NoMark 0x10000 0x2000 0x10) [.fault 0x2000 0x1010, .fault 0x10000 0x1010]
      (step (run ⟨readOnlyVm, [0x10000]⟩ []) (.fork 0x10000)) := by
    refine ⟨fun _ hp => ?_, fun _ _ => ⟨fun _ hp => ?_, fun _ _ => trivial⟩⟩
    · exact absurd hp (by decide)
    · exact absurd hp (by decide)
  refine (readOnly_kept readOnlyVm_tree [] (r := 0x10000) (n := 0x2000) (v := 0x10) ?_ readOnlyVm_readOnly ?_ ?_
    hmeets
    (Or.inr rfl)).1
  · simp [run]
  · simp [run, step, readOnlyVm, he]
  · simp [run]

/-- After a fork and a fault on the page, the child can write a page that was read-only. -/
theorem not_readOnly_kept : UserTree readOnlyVm 0x10000 ∧ ReadOnly readOnlyTree 0x10000 0x10 ∧
    0x2000 ∈ (run ⟨readOnlyVm, [0x10000]⟩ [.fork 0x10000]).spaces ∧
    (userStore (run ⟨readOnlyVm, [0x10000]⟩ [.fork 0x10000, .fault 0x2000 0x10]).vm.mem 0x2000 0x10 7).isSome =
    true := by
  obtain ⟨frames, he, hb⟩ := chainVm_fork (e := 0x14005)
  obtain ⟨hroot, htable⟩ := forkedTree_entry (e := 0x14005) (Or.inl rfl)
  obtain ⟨m, f, hfault, -, hw, -⟩ :=
    hb.fault (e := 0x14005) (Or.inl rfl) (r := 0x2000) (by decide) (by decide) (by decide)
    (by decide) (by decide) (by decide) (hroot 0 (by decide)).1 (htable 1 (by decide) (by decide))
    (htable 2 (by decide) (by decide)) (htable 3 (by decide) (by decide))
  refine ⟨readOnlyVm_tree, readOnlyVm_readOnly, ?_, ?_⟩
  · simp [run, step, readOnlyVm, he]
  · simp [run, step, readOnlyVm, he, hfault, hw]

end Pml.Arch
