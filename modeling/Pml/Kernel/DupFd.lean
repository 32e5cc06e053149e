import Pml.Kernel.FileTable

/-!
# Duplication of descriptors (`dupfd` and `F_DUPFD` of `kernel/fd.c`)

`F_DUPFD` has to return the first free descriptor from a minimum on.  `dupfd` finds this slot if it is inside the
table, but it returns 0 instead of the slot.  When it has to enlarge the table, it takes the slot of the minimum
itself, which may be in use, and a size that can be below the old one.  So the call is right if the new descriptor is
0, or if it has to fail (`sysFcntl_dups_iff`).
-/

namespace Pml.Kernel

def FdTable.slot (t : FdTable) (j : Nat) : Option Nat := (t.table[j]?).join

/-- The first free descriptor from a minimum on. -/
structure FdTable.FirstFree (t : FdTable) (fd2 : Int) (n : Nat) : Prop where
  least : fd2 ≤ n
  free : t.slot n = none
  first : ∀ j < n, fd2 ≤ j → t.slot j ≠ none

def FdTable.FullFrom (t : FdTable) (fd2 : Int) : Prop := fd2 < 0 ∨ ∀ j < t.maxSize, fd2 ≤ j → t.slot j ≠ none

/-- The slot `n` is the new descriptor of a file, and the other slots are kept. -/
structure Duplicated (file : Nat) (f : Files) (t : FdTable) (fd2 : Int) (n : Nat) (f' : Files) (t' : FdTable) :
    Prop where
  first : t.FirstFree fd2 n
  bound : n < t.maxSize
  slot : t'.slot n = some file
  other : ∀ j, j ≠ n → t'.slot j = t.slot j
  count : (f'.entry file).count = (f.entry file).count + 1

/-- What `fcntl (fd, F_DUPFD, fd2)` has to do: it returns the new descriptor, or it fails without a change. -/
def Dups (f : Files) (t : FdTable) (fd fd2 : Int) (mem : Bool) : Prop :=
  ∃ r f' t', sysFcntl f t fd (.dupfd fd2) mem = some (r, f', t') ∧
    (∀ n, r = .ok n → ∃ file, fileFd t fd = some file ∧ Duplicated file f t fd2 n f' t') ∧
    (t.FullFrom fd2 → (∃ e, r = .error e) ∧ f' = f ∧ t' = t)

/-- The new descriptor is 0; or there is no free slot in the table, and it is not enlarged. -/
def DupRight (t : FdTable) (fd2 : Int) (mem : Bool) : Prop :=
  (fd2 = 0 ∧ t.slot 0 = none) ∨
  ((fd2 < 0 ∨ ∀ j < t.size, fd2 ≤ j → t.slot j ≠ none) ∧ (t.maxSize ≤ t.size ∨ mem = false))

section

variable {f : Files} {t : FdTable} {fd fd2 : Int} {mem : Bool}

private theorem slot_eq_none_iff {j : Nat} (h : j < t.size) : t.slot j = none ↔ t.table[j]? = some none := by
  unfold FdTable.slot
  unfold FdTable.size at h
  rw [List.getElem?_eq_getElem h]
  simp

private theorem slot_put {i : Nat} (h : i < t.size) (file j : Nat) :
    (t.put i (some file)).slot j = if j = i then some file else t.slot j := by
  unfold FdTable.slot FdTable.put
  unfold FdTable.size at h
  dsimp only
  rw [List.getElem?_set]
  by_cases he : j = i
  · rw [if_pos he, if_pos he.symm, if_pos h]
    rfl
  · rw [if_neg he, if_neg (Ne.symm he)]

private theorem firstFree_search (hsize : 8 * t.size < 2 ^ 64) (h1 : -2 ^ 31 ≤ fd2) (h2 : fd2 < 2 ^ 31) :
    (t.firstFree (toSize fd2) < t.size ∧ 0 ≤ fd2 ∧ t.FirstFree fd2 (t.firstFree (toSize fd2))) ∨
    (t.size ≤ t.firstFree (toSize fd2) ∧ (fd2 < 0 ∨ ∀ j < t.size, fd2 ≤ j → t.slot j ≠ none)) := by
  have hle := le_firstFree t (toSize fd2)
  by_cases hneg : fd2 < 0
  · refine Or.inr ⟨?_, Or.inl hneg⟩
    unfold toSize at *
    omega
  · have hto : (toSize fd2 : Int) = fd2 := by
      unfold toSize
      omega
    have hocc : ∀ j < t.size, fd2 ≤ j → j < t.firstFree (toSize fd2) → t.slot j ≠ none := by
      intro j hj h3 h4 hn
      exact ne_none_of_lt_firstFree (by omega) h4 ((slot_eq_none_iff hj).1 hn)
    by_cases hlt : t.firstFree (toSize fd2) < t.size
    · refine Or.inl ⟨hlt, by omega, by omega, (slot_eq_none_iff hlt).2 (firstFree_free hlt), fun j hj h3 => ?_⟩
      exact hocc j (by omega) h3 hj
    · exact Or.inr ⟨by omega, Or.inr fun j hj h3 => hocc j hj h3 (by omega)⟩

private theorem sysFcntl_dupfd {file : Nat} (hf : fileFd t fd = some file) :
    sysFcntl f t fd (.dupfd fd2) mem = (dupSlot t fd2 mem).map fun r =>
      match r with
      | .error e => (.error e, f, t)
      | .ok (i, t') => (.ok 0, f.ref file, t'.put i (some file)) := by
  unfold sysFcntl dupfd
  rw [hf]
  dsimp only
  rcases dupSlot t fd2 mem with _ | e | ⟨i, t'⟩
  · rfl
  · rfl
  · rfl

private theorem Dups.of_error {e : Errno} (hs : sysFcntl f t fd (.dupfd fd2) mem = some (.error e, f, t)) :
    Dups f t fd fd2 mem :=
  ⟨_, _, _, hs, fun n hn => (by cases hn), fun _ => ⟨⟨e, rfl⟩, rfl, rfl⟩⟩

theorem Dups.zero {f' : Files} {t' : FdTable} (h : Dups f t fd fd2 mem)
    (hs : sysFcntl f t fd (.dupfd fd2) mem = some (.ok 0, f', t')) : fd2 = 0 ∧ t.slot 0 = none := by
  obtain ⟨r, f1, t1, he, hok, hfail⟩ := h
  obtain ⟨rfl, rfl, rfl⟩ : Except.ok 0 = r ∧ f' = f1 ∧ t' = t1 := by
    have hpair := Option.some.inj (hs.symm.trans he)
    exact ⟨congrArg Prod.fst hpair, congrArg (fun x => x.2.1) hpair, congrArg (fun x => x.2.2) hpair⟩
  obtain ⟨file, -, hdup⟩ := hok 0 rfl
  have hleast := hdup.first.least
  by_cases hneg : fd2 < 0
  · obtain ⟨⟨e, he⟩, -⟩ := hfail (Or.inl hneg)
    cases he
  · exact ⟨by omega, hdup.first.free⟩

private theorem dups_found_iff {file : Nat} (hf : fileFd t fd = some file) (hw : t.Wf) (h0 : 0 ≤ fd2)
    (hlt : t.firstFree (toSize fd2) < t.size) (hfirst : t.FirstFree fd2 (t.firstFree (toSize fd2))) :
    Dups f t fd fd2 mem ↔ DupRight t fd2 mem := by
  have hs : sysFcntl f t fd (.dupfd fd2) mem =
      some (.ok 0, f.ref file, t.put (t.firstFree (toSize fd2)) (some file)) := by
    rw [sysFcntl_dupfd hf, dupSlot, if_pos hlt]
    rfl
  constructor
  · exact fun h => Or.inl (h.zero hs)
  rintro (⟨rfl, hfree⟩ | ⟨hneg | hocc, -⟩)
  · have hi : t.firstFree (toSize 0) = 0 := by
      by_contra hne
      exact hfirst.first 0 (by omega) (Int.le_refl 0) hfree
    have hpos := hw.pos
    have hlimit := hw.limit
    rw [hi] at hs hlt hfirst
    refine ⟨_, _, _, hs, fun n hn => ?_, fun hfull => ?_⟩
    · obtain rfl := Except.ok.inj hn
      refine ⟨file, hf, hfirst, by omega, ?_, fun j hj => ?_, ?_⟩
      · rw [slot_put hlt, if_pos rfl]
      · rw [slot_put hlt, if_neg hj]
      · unfold Files.ref
        dsimp only
        rw [Function.update_self]
    · rcases hfull with hneg | hocc
      · omega
      · exact absurd hfree (hocc 0 (by omega) (Int.le_refl 0))
  · omega
  · exact absurd hfirst.free (hocc _ hlt hfirst.least)

private theorem dups_full_iff {file : Nat} (hf : fileFd t fd = some file) (hw : t.Wf)
    (hle : t.size ≤ t.firstFree (toSize fd2)) (hfull : fd2 < 0 ∨ ∀ j < t.size, fd2 ≤ j → t.slot j ≠ none) :
    Dups f t fd fd2 mem ↔ DupRight t fd2 mem := by
  have hpos := hw.pos
  -- a larger table has a free slot, but not the descriptor 0
  have hzero : ¬ (fd2 = 0 ∧ t.slot 0 = none) := by
    rintro ⟨rfl, hfree⟩
    rcases hfull with hneg | hocc
    · omega
    · exact hocc 0 hpos (Int.le_refl 0) hfree
  have hs : sysFcntl f t fd (.dupfd fd2) mem = _ := sysFcntl_dupfd hf
  rw [dupSlot, if_neg (by omega)] at hs
  by_cases hroom : t.size < t.maxSize
  · rw [if_pos hroom] at hs
    cases mem with
    | false => exact ⟨fun _ => Or.inr ⟨hfull, Or.inr rfl⟩, fun _ => Dups.of_error hs⟩
    | true =>
      rw [if_neg (by decide)] at hs
      refine ⟨fun h => ?_, fun h => ?_⟩
      · split at hs
        · exact absurd (h.zero hs) hzero
        · obtain ⟨r, f', t', he, -⟩ := h
          cases hs.symm.trans he
      · rcases h with h | ⟨-, h | h⟩
        · exact absurd h hzero
        · omega
        · cases h
  · rw [if_neg hroom] at hs
    exact ⟨fun _ => Or.inr ⟨hfull, Or.inl (by omega)⟩, fun _ => Dups.of_error hs⟩

end

/-- `fcntl (fd, F_DUPFD, fd2)` is right exactly if the new descriptor is 0, or if it fails because the table has no
free slot from `fd2` on and is not enlarged. -/
theorem sysFcntl_dups_iff (f : Files) {t : FdTable} (hw : t.Wf) (hsize : 8 * t.size < 2 ^ 64) {fd : Int}
    (hopen : fileFd t fd ≠ none) {fd2 : Int} (h1 : -2 ^ 31 ≤ fd2) (h2 : fd2 < 2 ^ 31) (mem : Bool) :
    Dups f t fd fd2 mem ↔ DupRight t fd2 mem := by
  obtain ⟨file, hf⟩ := Option.ne_none_iff_exists'.1 hopen
  rcases firstFree_search hsize h1 h2 with ⟨hlt, h0, hfirst⟩ | ⟨hle, hfull⟩
  · exact dups_found_iff hf hw h0 hlt hfirst
  · exact dups_full_iff hf hw hle hfull

def oneOpen : FdTable := initFds.put 1 (some 0)

theorem sysFcntl_dups_oneOpen : Dups (noFiles.ref 0) oneOpen 1 0 true :=
  (sysFcntl_dups_iff _ (initFds_wf.put 1 (some 0)) (by decide) (by decide) (by decide) (by decide) true).2
    (Or.inl ⟨rfl, by decide⟩)

/-- The copy of descriptor 1 from descriptor 1 on is descriptor 2, but 0 is returned. -/
theorem not_dups : fileFd oneOpen 1 ≠ none ∧ ¬ Dups (noFiles.ref 0) oneOpen 1 1 true := by
  have hopen : fileFd oneOpen 1 = some 0 := by decide
  refine ⟨by rw [hopen]; simp, fun h => ?_⟩
  have hs : (sysFcntl (noFiles.ref 0) oneOpen 1 (.dupfd 1) true).map Prod.fst = some (.ok 0) := by
    rw [sysFcntl_dupfd hopen]
    decide
  obtain ⟨⟨r, f', t'⟩, hs', rfl⟩ := Option.map_eq_some_iff.1 hs
  exact absurd (h.zero hs').1 (by decide)

end Pml.Kernel
