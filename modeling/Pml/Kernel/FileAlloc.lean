import Pml.Kernel.FileRefs

/-!
# Allocation of open files (`alloc_fd`, `free_fd`, `free_procfd` and `free_altprocfd` of `kernel/fd.c`)

`alloc_fd` does not look at the entries below `fd_table_start`.  They are in use: the start only passes an entry that
is in use, and both functions that release an entry take the start back to it (`Files.Hinted`).  So the search finds
the first free entry of the whole table (`allocFd_first`), and it fails only if there is none.

A count is the number of pointers to the entry, and so does not wrap.
-/

namespace Pml.Kernel

open Machine

/-- What happens to the system table: an entry is allocated, or gets one more reference; `free_fd` releases an entry,
and `free_altprocfd`, or `free_procfd` for the current process, the entry of a descriptor. -/
inductive FilesInput
  | alloc
  | ref (i : Nat)
  | free (fd : Nat)
  | freeSlot (t : FdTable) (fd : Nat)

def filesStep (f : Files) : FilesInput → Option Files
  | .alloc => some (allocFd f).2
  | .ref i => some (f.ref i)
  | .free fd => some (freeFd f fd)
  | .freeSlot t fd => (freeAltprocfd f t fd).map Prod.fst

/-- References are added to entries in use, and such entries are released. -/
def OnUsed (f : Files) : FilesInput → Prop
  | .alloc => True
  | .ref i => 0 < f.count i
  | .free fd => 0 < f.count fd
  | .freeSlot t fd => ∀ i ∈ (t.table[fd]?).join, 0 < f.count i

instance (f : Files) : (inp : FilesInput) → Decidable (OnUsed f inp)
  | .alloc => isTrue trivial
  | .ref i => inferInstanceAs (Decidable (0 < f.count i))
  | .free fd => inferInstanceAs (Decidable (0 < f.count fd))
  | .freeSlot t fd => inferInstanceAs (Decidable (∀ i ∈ (t.table[fd]?).join, 0 < f.count i))

/-- `alloc_fd` takes the first entry that is not in use, and fails only if all are. -/
structure AllocsFirst (f : Files) : Prop where
  found : ∀ i, (allocFd f).1 = some i → i < systemFdTableSize ∧ f.count i = 0 ∧ (∀ j < i, 0 < f.count j) ∧
    ∀ j, (allocFd f).2.count j = if j = i then 1 else f.count j
  full : (allocFd f).1 = none ↔ ∀ i < systemFdTableSize, 0 < f.count i

def Files.Hinted (f : Files) : Prop := ∀ i < f.start, 0 < f.count i

private theorem firstUnused_spec (e : Nat → File) (k i : Nat) : i ≤ firstUnused e k i ∧ firstUnused e k i ≤ i + k ∧
    (∀ j, i ≤ j → j < firstUnused e k i → 0 < (e j).count) ∧
    (firstUnused e k i < i + k → (e (firstUnused e k i)).count = 0) := by
  induction k generalizing i with
  | zero => exact ⟨Nat.le_refl _, Nat.le_refl _, fun j h1 h2 => absurd h2 (by simp only [firstUnused]; omega),
      fun h => absurd h (Nat.lt_irrefl _)⟩
  | succ k ih =>
    unfold firstUnused
    by_cases hfree : (e i).count = 0
    · rw [if_pos hfree]
      exact ⟨Nat.le_refl _, by omega, fun j h1 h2 => absurd h2 (by omega), fun _ => hfree⟩
    · rw [if_neg hfree]
      obtain ⟨h1, h2, h3, h4⟩ := ih (i + 1)
      refine ⟨by omega, by omega, fun j hj1 hj2 => ?_, fun h => h4 (by omega)⟩
      by_cases he : j = i
      · rw [he]
        omega
      · exact h3 j (by omega) hj2

section

variable {f : Files}

private theorem allocFd_cases (h : f.Hinted) :
    (∃ i < systemFdTableSize, allocFd f = (some i, { f.ref i with start := i + 1 }) ∧ f.count i = 0 ∧
      ∀ j < i, 0 < f.count j) ∨
    ∃ s, allocFd f = (none, { f with start := s }) ∧ systemFdTableSize ≤ s ∧ ∀ j < s, 0 < f.count j := by
  obtain ⟨h1, h2, h3, h4⟩ := firstUnused_spec f.entry (systemFdTableSize - f.start) f.start
  have hused : ∀ j < firstUnused f.entry (systemFdTableSize - f.start) f.start, 0 < f.count j := by
    intro j hj
    by_cases hlt : j < f.start
    · exact h j hlt
    · exact h3 j (by omega) hj
  unfold allocFd
  dsimp only
  by_cases hlt : firstUnused f.entry (systemFdTableSize - f.start) f.start < systemFdTableSize
  · rw [if_pos hlt]
    exact Or.inl ⟨_, hlt, rfl, h4 (by omega), hused⟩
  · rw [if_neg hlt]
    exact Or.inr ⟨_, rfl, by omega, hused⟩

private theorem allocFd_first (h : f.Hinted) : AllocsFirst f ∧ (allocFd f).2.Hinted := by
  rcases allocFd_cases h with ⟨i, hi, he, hfree, hused⟩ | ⟨s, he, hs, hused⟩
  · have hset : ∀ j, (allocFd f).2.count j = if j = i then 1 else f.count j := by
      intro j
      rw [he]
      refine (count_ref f i j).trans ?_
      split
      · rename_i hj
        rw [hj, hfree]
      · rfl
    refine ⟨⟨fun k hk => ?_, ?_⟩, fun j hj => ?_⟩
    · rw [he] at hk
      obtain rfl := Option.some.inj hk
      exact ⟨hi, hfree, hused, hset⟩
    · rw [he]
      exact ⟨fun hn => (by cases hn), fun hall => absurd (hall i hi) (by omega)⟩
    · rw [he] at hj
      rw [hset]
      split
      · exact Nat.one_pos
      · exact hused j (by dsimp only at hj; omega)
  · refine ⟨⟨fun k hk => ?_, ?_⟩, ?_⟩
    · rw [he] at hk
      cases hk
    · rw [he]
      exact ⟨fun _ i hi => hused i (by omega), fun _ => rfl⟩
    · rw [he]
      exact hused

theorem Files.Hinted.ref (h : f.Hinted) (i : Nat) : (f.ref i).Hinted := by
  intro j hj
  rw [count_ref]
  exact Nat.lt_of_lt_of_le (h j hj) (Nat.le_add_right _ _)

/-- The start goes back to an entry whose last reference is released. -/
theorem Files.Hinted.freeFd (h : f.Hinted) {fd : Nat} (hfd : 0 < f.count fd) : (freeFd f fd).Hinted := by
  intro j hj
  have hcount := count_freeFd hfd j
  unfold Pml.Kernel.freeFd at hj
  dsimp only at hj
  have hdec : decCount (f.entry fd).count = f.count fd - 1 := if_neg (by unfold Files.count at hfd; omega)
  rw [hdec] at hj
  by_cases hlast : f.count fd - 1 = 0
  · rw [if_pos hlast] at hj
    dsimp only at hj
    have hne : j ≠ fd ∧ j < f.start := by
      split at hj
      · omega
      · omega
    rw [if_neg hne.1] at hcount
    have hpos := h j hne.2
    omega
  · rw [if_neg hlast] at hj
    have hpos := h j hj
    by_cases he : j = fd
    · rw [if_pos he] at hcount
      rw [he] at hcount ⊢
      omega
    · rw [if_neg he] at hcount
      omega

private theorem filesStep_hinted (h : f.Hinted) {inp : FilesInput} (hu : OnUsed f inp) {f' : Files}
    (hs : filesStep f inp = some f') : f'.Hinted := by
  cases inp with
  | alloc =>
    cases hs
    exact (allocFd_first h).2
  | ref i =>
    cases hs
    exact h.ref i
  | free fd =>
    cases hs
    exact h.freeFd hu
  | freeSlot t fd =>
    obtain ⟨r, hr, rfl⟩ := Option.map_eq_some_iff.1 hs
    unfold freeAltprocfd at hr
    split at hr
    · cases hr
    · cases hr
      exact h
    · rename_i i hi
      cases hr
      exact h.freeFd (hu i (Option.join_eq_some_iff.2 hi))

end

/-- After every run of allocations, added references and releases of entries in use, which starts with an empty table,
`alloc_fd` takes the first entry that is not in use, and it fails only if all are. -/
theorem allocFd_takes_first {is : List FilesInput} (hu : Meets filesStep OnUsed is noFiles) {f : Files}
    (hf : run filesStep is noFiles = some f) : AllocsFirst f := by
  have hstart : noFiles.Hinted := fun i hi => absurd hi (Nat.not_lt_zero i)
  exact (allocFd_first (hu.invariant (fun _ _ _ h hu hs => filesStep_hinted h hu hs) hstart hf)).1

/-- The first of two entries is shared, and released through a descriptor and by `free_fd`. -/
def sharedRun : List FilesInput := [.alloc, .alloc, .ref 0, .freeSlot ⟨[some 0], 1, 256⟩ 0, .free 0]

theorem allocFd_takes_first_shared : ∃ f, run filesStep sharedRun noFiles = some f ∧ AllocsFirst f := by
  have hmeets : Meets filesStep OnUsed sharedRun noFiles := by decide
  have hrun : (run filesStep sharedRun noFiles).isSome = true := by decide
  obtain ⟨f, hf⟩ := Option.isSome_iff_exists.1 hrun
  exact ⟨f, hf, allocFd_takes_first hmeets hf⟩

end Pml.Kernel
