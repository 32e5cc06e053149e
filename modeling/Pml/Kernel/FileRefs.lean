import Mathlib.Data.List.Perm.Basic
import Pml.Kernel.MmapTable

/-!
# References to open files

The count of an open file is compared with the places that point to it: the descriptor slots of a process, its mapped
regions, and the places outside of the process, whose number is a parameter here (`Counted`).  Of the calls on
descriptors only `F_DUPFD` loses a reference, when it stores into an occupied slot (`fdStep_counted`,
`fdStep_needs`).  A region that `clear_mappings` removes with its file takes its reference with it: the code clears
the descriptor slot with the number that the region was mapped with instead (`clearMappings_counted`).
-/

namespace Pml.Kernel

open Arch ByteMemory Machine

/-- `system_fd_table[i].count` -/
def Files.count (f : Files) (i : Nat) : Nat := (f.entry i).count

def FdTable.refs (t : FdTable) (i : Nat) : Nat := t.table.count (some i)

def regionRefs (mmaps : List Region) (i : Nat) : Nat := mmaps.countP fun r => r.file = some i

def Counted (other : Nat → Nat) (f : Files) (t : FdTable) : Prop := ∀ i, f.count i = other i + t.refs i

def Files.Named (f : Files) : Prop := ∀ i, 0 < f.count i → (f.entry i).vnode ≠ none

/-! ### The operations on the system table -/

section

variable {f : Files} {t : FdTable} {i j : Nat}

private theorem entry_ref (f : Files) (i j : Nat) :
    (f.ref i).entry j = if j = i then { f.entry i with count := (f.entry i).count + 1 } else f.entry j :=
  Function.update_apply _ _ _ _

theorem count_ref (f : Files) (i j : Nat) : (f.ref i).count j = f.count j + if j = i then 1 else 0 := by
  unfold Files.count
  rw [entry_ref]
  split
  · rename_i he
    rw [he]
  · rfl

theorem Files.Named.ref (h : f.Named) (hi : 0 < f.count i) : (f.ref i).Named := by
  intro j hj
  rw [entry_ref]
  split
  · exact h i hi
  · rename_i hne
    rw [count_ref, if_neg hne] at hj
    exact h j hj

private theorem entry_freeFd (hi : 0 < f.count i) (j : Nat) : (freeFd f i).entry j =
    if j = i then (if f.count i = 1 then {} else { f.entry i with count := f.count i - 1 }) else f.entry j := by
  unfold Files.count at *
  have hdec : decCount (f.entry i).count = (f.entry i).count - 1 := if_neg (by omega)
  unfold freeFd
  simp only [hdec]
  by_cases hone : (f.entry i).count = 1
  · rw [if_pos (by omega), if_pos hone]
    exact Function.update_apply _ _ _ _
  · rw [if_neg (by omega), if_neg hone]
    exact Function.update_apply _ _ _ _

theorem count_freeFd (hi : 0 < f.count i) (j : Nat) :
    (freeFd f i).count j + (if j = i then 1 else 0) = f.count j := by
  rw [Files.count, entry_freeFd hi]
  by_cases he : j = i
  · subst he
    rw [if_pos rfl, if_pos rfl]
    split
    · rename_i hone
      rw [hone]
    · show f.count j - 1 + 1 = f.count j
      omega
  · rw [if_neg he, if_neg he]
    rfl

theorem Files.Named.freeFd (h : f.Named) (hi : 0 < f.count i) : (freeFd f i).Named := by
  intro j hj
  rw [Files.count] at hj
  rw [entry_freeFd hi] at hj ⊢
  by_cases he : j = i
  · rw [if_pos he] at hj ⊢
    split at hj
    · exact absurd hj (Nat.lt_irrefl 0)
    · rename_i hone
      rw [if_neg hone]
      exact h i hi
  · rw [if_neg he] at hj ⊢
    exact h j hj

private theorem allocFd_some {f' : Files} (h : allocFd f = (some i, f')) :
    f.count i = 0 ∧ f'.entry = (f.ref i).entry := by
  have hfree : ∀ k n, firstUnused f.entry k n < n + k → f.count (firstUnused f.entry k n) = 0 := by
    intro k
    induction k with
    | zero => exact fun n hn => absurd hn (Nat.lt_irrefl n)
    | succ k ih =>
      intro n hn
      unfold firstUnused at hn ⊢
      split
      · assumption
      · rename_i hc
        rw [if_neg hc] at hn
        exact ih (n + 1) (by omega)
  unfold allocFd at h
  simp only at h
  split at h
  · rename_i hlt
    obtain ⟨h1, rfl⟩ := Prod.mk.inj h
    obtain rfl := Option.some.inj h1
    refine ⟨hfree _ _ ?_, rfl⟩
    by_cases hs : f.start ≤ systemFdTableSize
    · omega
    · have hzero : systemFdTableSize - f.start = 0 := by omega
      rw [hzero] at hlt
      exact absurd hlt (by simp only [firstUnused]; omega)
  · cases h

private theorem allocFd_none {f' : Files} (h : allocFd f = (none, f')) : f'.entry = f.entry := by
  unfold allocFd at h
  simp only at h
  split at h
  · cases h
  · obtain ⟨-, rfl⟩ := Prod.mk.inj h
    rfl

private theorem entry_freeFd_ref {f' : Files} (h0 : f.count i = 0) (he : f'.entry = (f.ref i).entry) (j : Nat) :
    (freeFd f' i).entry j = if j = i then {} else f.entry j := by
  have hone : f'.count i = 1 := by
    rw [Files.count, he]
    exact (count_ref f i i).trans (by rw [h0, if_pos rfl])
  rw [entry_freeFd (by omega), if_pos hone, he, entry_ref]
  split
  · rfl
  · rfl

private theorem count_freeFd_ref {f' : Files} (h0 : f.count i = 0) (he : f'.entry = (f.ref i).entry) (j : Nat) :
    (freeFd f' i).count j = f.count j := by
  rw [Files.count, entry_freeFd_ref h0 he]
  split
  · rename_i hj
    rw [hj, h0]
  · rfl

private theorem named_freeFd_ref {f' : Files} (h : f.Named) (h0 : f.count i = 0) (he : f'.entry = (f.ref i).entry) :
    (freeFd f' i).Named := by
  intro j hj
  rw [count_freeFd_ref h0 he] at hj
  rw [entry_freeFd_ref h0 he, if_neg (by rintro rfl; omega)]
  exact h j hj

/-! ### The slots of a process -/

private theorem refs_put {fd : Nat} {old : Option Nat} (h : t.table[fd]? = some old) (file : Option Nat) (j : Nat) :
    (t.put fd file).refs j + (if old = some j then 1 else 0) = t.refs j + if file = some j then 1 else 0 := by
  obtain ⟨hlt, hold⟩ := List.getElem?_eq_some_iff.1 h
  have hset := List.count_set (a := file) (b := some j) hlt
  have hle : (if old = some j then 1 else 0) ≤ t.table.count (some j) := by
    split
    · rename_i he
      exact List.count_pos_iff.2 (he ▸ hold ▸ List.getElem_mem hlt)
    · exact Nat.zero_le _
  rw [hold] at hset
  simp only [beq_iff_eq] at hset
  unfold FdTable.refs FdTable.put
  simp only
  omega

private theorem refs_grow (t : FdTable) (n j : Nat) : (t.grow n).refs j = t.refs j := by
  unfold FdTable.refs FdTable.grow
  rw [List.count_append, List.count_replicate]
  rfl

theorem refs_pos {fd : Nat} (h : t.table[fd]? = some (some i)) : 0 < t.refs i :=
  List.count_pos_iff.2 (List.mem_of_getElem? h)

private theorem fileFd_slot {fd : Int} (h : fileFd t fd = some i) : t.table[fd.toNat]? = some (some i) := by
  unfold fileFd at h
  split at h
  · cases h
  · exact Option.join_eq_some_iff.1 h

private theorem allocProcfd_slot (hw : t.Wf) {mem : Bool} {res : Except Errno Nat} {t' : FdTable}
    (h : allocProcfd t mem = (res, t')) :
    (∀ j, t'.refs j = t.refs j) ∧ ∀ fd, res = .ok fd → t'.table[fd]? = some none := by
  rcases allocProcfd_cases hw mem with ⟨k, he, -, -, hfree⟩ | ⟨n, he, h1, -⟩ | ⟨e, he, -, -⟩
  · obtain ⟨rfl, rfl⟩ := Prod.mk.inj (he.symm.trans h)
    refine ⟨fun j => rfl, fun fd hfd => ?_⟩
    obtain rfl := Except.ok.inj hfd
    exact hfree
  · obtain ⟨rfl, rfl⟩ := Prod.mk.inj (he.symm.trans h)
    refine ⟨fun j => refs_grow t n j, fun fd hfd => ?_⟩
    obtain rfl := Except.ok.inj hfd
    exact grow_free (Nat.le_refl _) h1
  · obtain ⟨rfl, rfl⟩ := Prod.mk.inj (he.symm.trans h)
    exact ⟨fun j => rfl, fun fd hfd => by cases hfd⟩

end

/-! ### The calls on descriptors -/

section

variable {other : Nat → Nat} {f : Files} {t : FdTable}

theorem Counted.pos (h : Counted other f t) {fd i : Nat} (hs : t.table[fd]? = some (some i)) : 0 < f.count i := by
  have h1 := h i
  have h2 := refs_pos hs
  omega

private theorem Counted.ref_put (h : Counted other f t) {fd : Nat} (hs : t.table[fd]? = some none) (i : Nat) :
    Counted other (f.ref i) (t.put fd (some i)) := by
  intro j
  have h1 := h j
  have h2 := refs_put hs (some i) j
  rw [count_ref]
  simp only [reduceCtorEq, if_false, Option.some.injEq, eq_comm (a := i)] at h2
  omega

private theorem freeAltprocfd_counted (h : Counted other f t) {fd : Nat} {r : Files × FdTable}
    (hr : freeAltprocfd f t fd = some r) : Counted other r.1 r.2 ∧ (f.Named → r.1.Named) := by
  unfold freeAltprocfd at hr
  split at hr
  · cases hr
  · cases hr
    exact ⟨h, id⟩
  · rename_i i hs
    cases hr
    have hpos := h.pos hs
    refine ⟨fun j => ?_, fun hn => hn.freeFd hpos⟩
    have h1 := h j
    have h2 := refs_put hs none j
    have h3 := count_freeFd hpos j
    simp only [reduceCtorEq, if_false, Option.some.injEq, eq_comm (a := i)] at h2
    show (freeFd f i).count j = other j + (t.put fd none).refs j
    omega

/-- The slot from which `F_DUPFD` takes the descriptor is free, or it fails without a change. -/
def DupFits (t : FdTable) (fd2 : Int) (mem : Bool) : Prop :=
  t.firstFree (toSize fd2) < t.size ∨ t.maxSize ≤ t.size ∨ mem = false ∨
    (t.size ≤ toSize fd2 ∧ toSize fd2 < dupSize t fd2)

def FdSafe (t : FdTable) : FdInput → Prop
  | .fcntl fd (.dupfd fd2) mem => fileFd t fd ≠ none → DupFits t fd2 mem
  | _ => True

private theorem dupSlot_fits {fd2 : Int} {mem : Bool} (h : DupFits t fd2 mem) :
    (∃ e, dupSlot t fd2 mem = some (.error e)) ∨ ∃ i t', dupSlot t fd2 mem = some (.ok (i, t')) ∧
      t'.table[i]? = some none ∧ ∀ j, t'.refs j = t.refs j := by
  unfold dupSlot
  simp only
  by_cases hfree : t.firstFree (toSize fd2) < t.size
  · rw [if_pos hfree]
    exact Or.inr ⟨_, _, rfl, firstFree_free hfree, fun j => rfl⟩
  rw [if_neg hfree]
  by_cases hroom : t.size < t.maxSize
  · rw [if_pos hroom]
    by_cases hmem : mem = false
    · rw [if_pos hmem]
      exact Or.inl ⟨_, rfl⟩
    · rcases h with h | h | h | ⟨h1, h2⟩
      · exact absurd h hfree
      · omega
      · exact absurd h hmem
      · rw [if_neg hmem, if_pos ⟨by omega, h2⟩]
        exact Or.inr ⟨_, _, rfl, grow_free h1 h2, fun j => refs_grow t _ j⟩
  · rw [if_neg hroom]
    exact Or.inl ⟨_, rfl⟩

private theorem sysOpen_counted (hw : t.Wf) (h : Counted other f t) (hn : f.Named) (lookup : Except Errno Nat)
    (flags : Nat)
    (mem : Bool) : ∃ r, sysOpen f t lookup flags mem = some r ∧ Counted other r.2.1 r.2.2 ∧ r.2.1.Named := by
  unfold sysOpen
  rcases ha : allocFd f with ⟨sysfd, f1⟩
  cases sysfd with
  | none =>
    -- no file is free
    have he := allocFd_none ha
    refine ⟨_, rfl, fun j => ?_, fun j hj => ?_⟩
    · exact (congrArg File.count (congrFun he j)).trans (h j)
    · simp only [Files.count, he] at hj ⊢
      exact hn j hj
  | some sysfd =>
    obtain ⟨h0, he⟩ := allocFd_some ha
    have hcount : ∀ j, (freeFd f1 sysfd).count j = f.count j := count_freeFd_ref h0 he
    have hnamed : (freeFd f1 sysfd).Named := named_freeFd_ref hn h0 he
    rcases hp : allocProcfd t mem with ⟨res, t1⟩
    obtain ⟨hrefs, hslot⟩ := allocProcfd_slot hw hp
    cases res with
    | error e =>
      -- no slot is free, and the file is given back
      refine ⟨_, rfl, fun j => ?_, hnamed⟩
      show (freeFd f1 sysfd).count j = other j + t1.refs j
      rw [hcount, hrefs]
      exact h j
    | ok fd =>
      specialize hslot fd rfl
      cases lookup with
      | error e =>
        -- the lookup has failed, and both are given back
        have hfree : freeAltprocfd f1 t1 fd = some (f1, t1) := by rw [freeAltprocfd, hslot]
        refine ⟨(.error e, freeFd f1 sysfd, t1), by simp only [hfree, Option.map_some], fun j => ?_, hnamed⟩
        show (freeFd f1 sysfd).count j = other j + t1.refs j
        rw [hcount, hrefs]
        exact h j
      | ok vp =>
        refine ⟨_, rfl, ?_, ?_⟩
        · -- the slot counts for the file, which has one reference more
          intro j
          have h1 := h j
          have h2 := refs_put hslot (some sysfd) j
          have h3 : f1.count j = f.count j + if j = sysfd then 1 else 0 :=
            (congrArg File.count (congrFun he j)).trans (count_ref f sysfd j)
          have h4 : (fillFd f1 t1 fd sysfd vp flags).1.count j = f1.count j := by
            simp only [fillFd, Files.count, Function.update_apply]
            split
            · rename_i hj
              rw [hj]
            · rfl
          simp only [reduceCtorEq, if_false, Option.some.injEq, eq_comm (a := sysfd), hrefs] at h2
          show (fillFd f1 t1 fd sysfd vp flags).1.count j = other j + (t1.put fd (some sysfd)).refs j
          omega
        · intro j hj
          simp only [fillFd, Files.count, Function.update_apply] at hj ⊢
          split
          · simp
          · rename_i hne
            rw [if_neg hne, he, entry_ref, if_neg hne] at hj
            rw [he, entry_ref, if_neg hne]
            exact hn j hj

private theorem sysClose_counted (h : Counted other f t) (hn : f.Named) (fd : Int) :
    ∃ r, sysClose f t fd = some r ∧ Counted other r.2.1 r.2.2 ∧ r.2.1.Named := by
  unfold sysClose
  rcases hfd : fileFd t fd with _ | i
  · exact ⟨_, rfl, h, hn⟩
  · have hs := fileFd_slot hfd
    obtain ⟨r, hr⟩ : ∃ r, freeAltprocfd f t fd.toNat = some r := ⟨_, by rw [freeAltprocfd, hs]⟩
    obtain ⟨h1, h2⟩ := freeAltprocfd_counted h hr
    exact ⟨(.ok (), r), by simp only [hr, Option.map_some], h1, h2 hn⟩

private theorem sysDup_counted (hw : t.Wf) (h : Counted other f t) (hn : f.Named) (fd : Int) (mem : Bool) :
    Counted other (sysDup f t fd mem).2.1 (sysDup f t fd mem).2.2 ∧ (sysDup f t fd mem).2.1.Named := by
  unfold sysDup
  rcases hfd : fileFd t fd with _ | i
  · exact ⟨h, hn⟩
  · have hpos := h.pos (fileFd_slot hfd)
    rcases hp : allocProcfd t mem with ⟨res, t1⟩
    obtain ⟨hrefs, hslot⟩ := allocProcfd_slot hw hp
    have h1 : Counted other f t1 := fun j => (h j).trans (by rw [hrefs])
    cases res with
    | error e => exact ⟨h1, hn⟩
    | ok nfd => exact ⟨h1.ref_put (hslot nfd rfl) i, hn.ref hpos⟩

private theorem dupfd_counted (h : Counted other f t) (hn : f.Named) {fd fd2 : Int} {mem : Bool}
    (hC : fileFd t fd ≠ none → DupFits t fd2 mem) :
    ∃ r, dupfd f t fd fd2 mem = some r ∧ Counted other r.2.1 r.2.2 ∧ r.2.1.Named := by
  unfold dupfd
  rcases hfd : fileFd t fd with _ | i
  · exact ⟨_, rfl, h, hn⟩
  · have hpos := h.pos (fileFd_slot hfd)
    rcases dupSlot_fits (hC (by rw [hfd]; simp)) with ⟨e, hs⟩ | ⟨k, t1, hs, hfree, hrefs⟩
    · simp only [hs]
      exact ⟨_, rfl, h, hn⟩
    · have h1 : Counted other f t1 := fun j => (h j).trans (by rw [hrefs])
      simp only [hs]
      exact ⟨_, rfl, h1.ref_put hfree i, hn.ref hpos⟩

private theorem sysFcntl_counted (h : Counted other f t) (hn : f.Named) {fd : Int} {cmd : FcntlCmd} {mem : Bool}
    (hC : FdSafe t (.fcntl fd cmd mem)) :
    ∃ r, sysFcntl f t fd cmd mem = some r ∧ Counted other r.2.1 r.2.2 ∧ r.2.1.Named := by
  unfold sysFcntl
  rcases hfd : fileFd t fd with _ | i
  · exact ⟨_, rfl, h, hn⟩
  · cases cmd with
    | dupfd fd2 =>
      obtain ⟨r, hr, h1, h2⟩ := dupfd_counted h hn hC
      exact ⟨(r.1.map fun _ => 0, r.2), by simp only [hr, Option.map_some], h1, h2⟩
    | getfl => exact ⟨_, rfl, h, hn⟩
    | setfl arg =>
      refine ⟨_, rfl, fun j => ?_, fun j hj => ?_⟩
      · refine Eq.trans ?_ (h j)
        simp only [Files.count, Function.update_apply]
        split
        · rename_i he
          rw [he]
        · rfl
      · simp only [Files.count, Function.update_apply] at hj ⊢
        split
        · rename_i he
          rw [if_pos he] at hj
          exact hn i hj
        · rename_i he
          rw [if_neg he] at hj
          exact hn j hj
    | lock => exact ⟨_, rfl, h, hn⟩
    | other => exact ⟨_, rfl, h, hn⟩

private theorem fdStep_counted (hw : t.Wf) (h : Counted other f t) (hn : f.Named) {i : FdInput} (hC : FdSafe t i) :
    ∃ s', fdStep (f, t) i = some s' ∧ Counted other s'.1 s'.2 ∧ s'.1.Named := by
  cases i with
  | openFile lookup flags mem =>
    obtain ⟨r, hr, h1, h2⟩ := sysOpen_counted hw h hn lookup flags mem
    exact ⟨r.2, by simp only [fdStep, hr, Option.map_some], h1, h2⟩
  | close fd =>
    obtain ⟨r, hr, h1, h2⟩ := sysClose_counted h hn fd
    exact ⟨r.2, by simp only [fdStep, hr, Option.map_some], h1, h2⟩
  | dup fd mem => exact ⟨_, rfl, sysDup_counted hw h hn fd mem⟩
  | fcntl fd cmd mem =>
    obtain ⟨r, hr, h1, h2⟩ := sysFcntl_counted h hn hC
    exact ⟨r.2, by simp only [fdStep, hr, Option.map_some], h1, h2⟩

/-- If the references are still counted after a call, then it met its condition: `F_DUPFD` loses the reference of an
occupied slot. -/
private theorem fdStep_needs (h : Counted other f t) {i : FdInput} {s' : Files × FdTable}
    (hs : fdStep (f, t) i = some s') (h' : Counted other s'.1 s'.2) : FdSafe t i := by
  unfold FdSafe
  split
  swap
  · trivial
  rename_i fd fd2 mem
  intro hfd
  obtain ⟨i, hfd⟩ := Option.ne_none_iff_exists'.1 hfd
  unfold fdStep sysFcntl dupfd at hs
  simp only [hfd] at hs
  by_contra hno
  unfold DupFits at hno
  simp only [not_or, not_and_or] at hno
  obtain ⟨hfree, hroom, hmem, hlow⟩ := hno
  unfold dupSlot at hs
  simp only [if_neg hfree, if_pos (Nat.lt_of_not_le hroom), if_neg hmem] at hs
  by_cases hsize : t.size ≤ dupSize t fd2 ∧ toSize fd2 < dupSize t fd2
  · simp only [if_pos hsize, Option.map_some, Option.some.injEq] at hs
    obtain rfl := hs
    -- the slot `fd2` is occupied
    have hlt : toSize fd2 < t.size := by omega
    have hocc := ne_none_of_lt_firstFree (t := t) (Nat.le_refl (toSize fd2)) (by omega)
    obtain ⟨old, hold⟩ : ∃ old, t.table[toSize fd2]? = some old := ⟨_, List.getElem?_eq_getElem hlt⟩
    obtain ⟨g, rfl⟩ : ∃ g, old = some g := by
      cases old with
      | none => exact absurd hold hocc
      | some g => exact ⟨g, rfl⟩
    have hgrow : (t.grow (dupSize t fd2)).table[toSize fd2]? = some (some g) := by
      unfold FdTable.grow
      rw [List.getElem?_append_left hlt, hold]
    have h1 := h g
    have h2 := h' g
    have h3 := refs_put hgrow (some i) g
    rw [refs_grow, if_pos rfl] at h3
    simp only [count_ref, Option.some.injEq, eq_comm (a := g)] at h2 h3
    omega
  · simp only [if_neg hsize] at hs
    cases hs

end

/-! ### The calls on mappings -/

def InUser (mmaps : List Region) : Prop := ∀ r ∈ mmaps, r.stop < userMemTopVma

/-- The regions that the second loop of `clear_mappings` removes, for the end `e` of the area. -/
def removed (e : Nat) : List Region → List Region
  | [] => []
  | r :: rs => if r.stop ≤ e then r :: removed e rs else if r.base < e then removed e rs else []

/-- The regions that `clear_mappings` removes. -/
def unmapped (env : MmapEnv) (s : MmState) (ptr len : Nat) (sync : Bool) : List Region :=
  match if sync then syncMappings env s ptr len else none with
  | some _ => []
  | none => removed (add64 ptr len) (s.mmaps.drop (findRegionBefore s.mmaps ptr + 1).toNat)

def MmState.Counted (other : Nat → Nat) (s : MmState) : Prop :=
  Kernel.Counted (fun i => other i + regionRefs s.mmaps i) s.files s.fds

private theorem regionRefs_cons (r : Region) (l : List Region) (i : Nat) :
    regionRefs (r :: l) i = regionRefs l i + if r.file = some i then 1 else 0 := by
  unfold regionRefs
  rw [List.countP_cons]
  simp only [decide_eq_true_eq]

private theorem regionRefs_append (l l' : List Region) (i : Nat) :
    regionRefs (l ++ l') i = regionRefs l i + regionRefs l' i := List.countP_append

private theorem regionRefs_insertIdx {l : List Region} {ri : Nat} (h : ri ≤ l.length) (r : Region) (i : Nat) :
    regionRefs (l.insertIdx ri r) i = regionRefs l i + if r.file = some i then 1 else 0 :=
  ((List.perm_insertIdx r l h).countP_eq _).trans (regionRefs_cons r l i)

theorem regionRefs_eq_zero {l : List Region} (h : ∀ r ∈ l, r.file = none) (i : Nat) : regionRefs l i = 0 := by
  unfold regionRefs
  refine List.countP_eq_zero.2 fun r hr => ?_
  rw [h r hr]
  simp

theorem file_none_of_regionRefs {l : List Region} (h : ∀ i, regionRefs l i = 0) : ∀ r ∈ l, r.file = none := by
  intro r hr
  rcases hf : r.file with _ | i
  · rfl
  · have h1 := List.countP_eq_zero.1 (h i) r hr
    simp [hf] at h1

private theorem unmapPages_region (pml4t : Nat) (vm : Vm) (lo : Nat) {x : Nat} (hx : x < userMemTopVma) :
    (unmapPages pml4t vm (pages lo x)).2 = none := by
  refine unmapPages_user pml4t vm fun v hv => ?_
  obtain ⟨-, -, hlt⟩ := mem_pages.1 hv
  simp only [userMemTopVma] at hx
  omega

private theorem from_stop {r : Region} {e : Nat} (h1 : r.base < e) (h2 : e < r.stop) : (r.from e).stop = r.stop := by
  have h3 : r.stop < 2 ^ 64 := add64_lt _ _
  unfold Region.from Region.stop at *
  simp only
  unfold add64 sub64 at *
  omega

section

variable {other : Nat → Nat}

/-- What the second loop of `clear_mappings` does to the references: the removed regions lose theirs, and nothing is
released for them. -/
private theorem clearRest_counted {pml4t e : Nat} {vm : Vm} {files : Files} {fds : FdTable} {l : List Region}
    {c : Cleared} (hu : InUser l) (h : Counted (fun i => other i + regionRefs l i) files fds) (hw : fds.Wf)
    (hc : clearRest pml4t e vm files fds l = some c) : c.err = none ∧ InUser c.rest ∧ c.fds.Wf ∧
      Counted (fun i => other i + regionRefs (removed e l) i + regionRefs c.rest i) c.files c.fds := by
  induction l generalizing other vm files fds c with
  | nil =>
    obtain rfl := Option.some.inj hc
    exact ⟨rfl, hu, hw, h⟩
  | cons r l ih =>
    have hr := hu r List.mem_cons_self
    have hl : InUser l := fun r' hr' => hu r' (List.mem_cons_of_mem r hr')
    have hrest : Counted (fun i => (other i + if r.file = some i then 1 else 0) + regionRefs l i) files fds := by
      intro i
      have h1 := h i
      simp only [regionRefs_cons] at h1
      simp only
      omega
    unfold clearRest at hc
    unfold removed
    by_cases h1 : r.stop ≤ e
    · -- the whole region goes, and its file loses the reference
      have hok := unmapPages_region pml4t vm r.base hr
      rw [if_pos h1] at hc ⊢
      rcases hp : unmapPages pml4t vm (pages r.base r.stop) with ⟨vm', err⟩
      rw [hp] at hc hok
      obtain rfl : err = none := hok
      simp only at hc
      have hcons : ∀ {c : Cleared}, Counted (fun i => (other i + if r.file = some i then 1 else 0) +
          regionRefs (removed e l) i + regionRefs c.rest i) c.files c.fds →
          Counted (fun i => other i + regionRefs (r :: removed e l) i + regionRefs c.rest i) c.files c.fds := by
        intro c h2 i
        have h3 := h2 i
        simp only at h3
        simp only [regionRefs_cons]
        omega
      split at hc
      · obtain ⟨h2, h3, h4, h5⟩ := ih hl hrest hw hc
        exact ⟨h2, h3, h4, hcons h5⟩
      · split at hc
        · cases hc
        · rename_i files' fds' hfree
          unfold freeProcfd at hfree
          split at hfree
          · cases hfree
          · obtain ⟨h2, h3, h4, h5⟩ := ih hl (freeAltprocfd_counted hrest hfree).1 (freeAltprocfd_wf hw hfree) hc
            exact ⟨h2, h3, h4, hcons h5⟩
    · rw [if_neg h1] at hc ⊢
      by_cases h2 : r.base < e
      · -- only the front goes, and the rest keeps the reference
        have hok := unmapPages_region pml4t vm r.base (x := e) (by omega)
        rw [if_pos h2] at hc ⊢
        rcases hp : unmapPages pml4t vm (pages r.base e) with ⟨vm', err⟩
        rw [hp] at hc hok
        obtain rfl : err = none := hok
        obtain ⟨c', hc', rfl⟩ := Option.map_eq_some_iff.1 hc
        obtain ⟨h3, h4, h5, h6⟩ := ih hl hrest hw hc'
        refine ⟨h3, ?_, h5, fun i => ?_⟩
        · intro r' hr'
          rcases List.mem_cons.1 hr' with rfl | hr'
          · rw [from_stop h2 (Nat.lt_of_not_le h1)]
            exact hr
          · exact h4 r' hr'
        · have h7 := h6 i
          simp only at h7
          have hfile : (r.from e).file = r.file := rfl
          simp only [regionRefs_cons, hfile]
          omega
      · rw [if_neg h2] at hc ⊢
        obtain rfl := Option.some.inj hc
        exact ⟨rfl, hu, hw, h⟩

/-- The loop does not look at the descriptors if it removes no region with a file. -/
private theorem clearRest_spares (pml4t : Nat) (vm : Vm) (files : Files) (fds : FdTable) {e : Nat} {l : List Region}
    (h : ∀ r ∈ removed e l, r.file = none) :
    ∃ c, clearRest pml4t e vm files fds l = some c ∧ c.files = files ∧ c.fds = fds := by
  induction l generalizing vm with
  | nil => exact ⟨_, rfl, rfl, rfl⟩
  | cons r l ih =>
    unfold removed at h
    unfold clearRest
    by_cases h1 : r.stop ≤ e
    · rw [if_pos h1] at h ⊢
      have hfile := h r List.mem_cons_self
      rcases unmapPages pml4t vm (pages r.base r.stop) with ⟨vm', _ | err⟩
      · simp only [hfile]
        exact ih vm' fun r' hr' => h r' (List.mem_cons_of_mem r hr')
      · exact ⟨_, rfl, rfl, rfl⟩
    · rw [if_neg h1] at h ⊢
      by_cases h2 : r.base < e
      · rw [if_pos h2] at h ⊢
        rcases unmapPages pml4t vm (pages r.base e) with ⟨vm', _ | err⟩
        · obtain ⟨c, hc, h3, h4⟩ := ih vm' h
          exact ⟨{ c with rest := r.from e :: c.rest }, by simp only [hc, Option.map_some], h3, h4⟩
        · exact ⟨_, rfl, rfl, rfl⟩
      · rw [if_neg h2]
        exact ⟨_, rfl, rfl, rfl⟩

private theorem findRegionBefore_index (l : List Region) (ptr : Nat) :
    (findRegionBefore l ptr + 1).toNat ≤ l.length := by
  have h : (l.findIdx fun r => ptr ≤ r.base) ≤ l.length := List.findIdx_le_length
  unfold findRegionBefore
  omega

/-- Truncating the region before the area changes neither the files of the regions nor the regions from the area
on. -/
private theorem truncateBefore_refs {s : MmState} (hu : InUser s.mmaps) (ptr : Nat) :
    ∃ s1, truncateBefore s ptr = (s1, none) ∧
    s1.files = s.files ∧ s1.fds = s.fds ∧ InUser s1.mmaps ∧ (∀ i, regionRefs s1.mmaps i = regionRefs s.mmaps i) ∧
    s1.mmaps.drop (findRegionBefore s.mmaps ptr + 1).toNat =
      s.mmaps.drop (findRegionBefore s.mmaps ptr + 1).toNat := by
  unfold truncateBefore regionAt
  by_cases hneg : findRegionBefore s.mmaps ptr < 0
  · simp only [if_pos hneg]
    exact ⟨s, rfl, rfl, rfl, hu, fun i => rfl, rfl⟩
  have hlen := findRegionBefore_index s.mmaps ptr
  obtain ⟨k, hk⟩ : ∃ k : Nat, findRegionBefore s.mmaps ptr = k := ⟨_, (Int.toNat_of_nonneg (by omega)).symm⟩
  rw [hk] at hlen ⊢
  simp only [Int.toNat_natCast, show ¬(k : Int) < 0 by omega, if_false]
  have hlt : k < s.mmaps.length := by omega
  simp only [List.getElem?_eq_getElem hlt]
  have hbase : (s.mmaps[k]).base < ptr := by
    have hidx : k < s.mmaps.findIdx fun r => ptr ≤ r.base := by
      unfold findRegionBefore at hk
      omega
    have hnot := List.not_of_lt_findIdx hidx
    simpa using hnot
  have hr := hu _ (List.getElem_mem hlt)
  split
  swap
  · exact ⟨s, rfl, rfl, rfl, hu, fun i => rfl, rfl⟩
  rename_i hreach
  have hstop : Region.stop { s.mmaps[k] with len := sub64 ptr (s.mmaps[k]).base } = ptr := by
    have h64 : ptr < 2 ^ 64 := Nat.lt_trans hreach (add64_lt _ _)
    simp only [Region.stop, sub64_of_le (Nat.le_of_lt hbase) h64]
    rw [add64_of_lt (by omega)]
    omega
  rw [hstop, pages_self]
  refine ⟨_, rfl, rfl, rfl, ?_, fun i => ?_, ?_⟩
  · intro r hr'
    rcases List.mem_or_eq_of_mem_set hr' with hr' | rfl
    · exact hu r hr'
    · rw [hstop]
      omega
  · unfold regionRefs
    have hset := List.countP_set (p := fun r => decide (r.file = some i))
      (a := { s.mmaps[k] with len := sub64 ptr (s.mmaps[k]).base }) hlt
    have hle := List.boole_getElem_le_countP (p := fun r => decide (r.file = some i)) hlt
    simp only at hset hle ⊢
    omega
  · show (s.mmaps.set k _).drop ((k : Int) + 1).toNat = _
    rw [List.drop_set_of_lt (by omega)]

private theorem clearMappings_counted {env : MmapEnv} {s s' : MmState} {ptr len : Nat} {sync : Bool}
    {err : Option Errno} (hu : InUser s.mmaps) (h : s.Counted other) (hw : s.fds.Wf)
    (hc : clearMappings env s ptr len sync = some (s', err)) : InUser s'.mmaps ∧ s'.fds.Wf ∧
      s'.Counted fun i => other i + regionRefs (unmapped env s ptr len sync) i := by
  unfold clearMappings at hc
  unfold unmapped
  generalize (if sync then syncMappings env s ptr len else none) = early at hc ⊢
  rcases early with _ | e
  swap
  · obtain ⟨rfl, -⟩ := Prod.mk.inj (Option.some.inj hc)
    exact ⟨hu, hw, h⟩
  obtain ⟨s1, ht, hfiles, hfds, hu1, hrefs, hdrop⟩ := truncateBefore_refs hu ptr
  simp only [ht] at hc
  rw [hfiles, hfds] at hc
  rw [← hdrop]
  generalize (findRegionBefore s.mmaps ptr + 1).toNat = n at hc ⊢
  obtain ⟨c, hc', heq⟩ := Option.map_eq_some_iff.1 hc
  obtain ⟨rfl, -⟩ := Prod.mk.inj heq
  have hsplit : ∀ i, regionRefs s.mmaps i = regionRefs (s1.mmaps.take n) i + regionRefs (s1.mmaps.drop n) i := by
    intro i
    rw [← hrefs, ← regionRefs_append, List.take_append_drop]
  have hcount : Counted (fun i => (other i + regionRefs (s1.mmaps.take n) i) + regionRefs (s1.mmaps.drop n) i)
      s.files s.fds := by
    intro i
    have h1 := h i
    simp only [hsplit] at h1
    simp only
    omega
  have hdropUser : InUser (s1.mmaps.drop n) := fun r hr => hu1 r (List.mem_of_mem_drop hr)
  obtain ⟨-, h2, h3, h4⟩ := clearRest_counted hdropUser hcount hw hc'
  refine ⟨?_, h3, fun i => ?_⟩
  · intro r hr
    rcases List.mem_append.1 hr with hr | hr
    · exact hu1 r (List.mem_of_mem_take hr)
    · exact h2 r hr
  · have h5 := h4 i
    simp only [regionRefs_append] at h5 ⊢
    omega

private theorem clearMappings_spares {env : MmapEnv} {s : MmState} {ptr len : Nat} {sync : Bool} (hu : InUser s.mmaps)
    (h : ∀ r ∈ unmapped env s ptr len sync, r.file = none) :
    ∃ s' err, clearMappings env s ptr len sync = some (s', err) ∧ s'.files = s.files ∧ s'.fds = s.fds := by
  unfold unmapped at h
  unfold clearMappings
  generalize (if sync then syncMappings env s ptr len else none) = early at h ⊢
  rcases early with _ | e
  swap
  · exact ⟨s, some e, rfl, rfl, rfl⟩
  obtain ⟨s1, ht, hfiles, hfds, -, -, hdrop⟩ := truncateBefore_refs hu ptr
  simp only [ht]
  simp only [← hdrop] at h
  obtain ⟨c, hc, h1, h2⟩ := clearRest_spares s1.pml4t s1.vm s1.files s1.fds h
  rw [hc]
  exact ⟨_, _, rfl, h1.trans hfiles, h2.trans hfds⟩

private theorem mapRegion_counted {env : MmapEnv} {s s' : MmState} {base ri len prot : Nat} {file : Option Nat}
    {fd : Int} {offset flags : Nat} {res : Except Errno Nat} (hu : InUser s.mmaps) (h : s.Counted other)
    (hri : ri ≤ s.mmaps.length) (hm : mapRegion env s base ri len prot file fd offset flags = (s', res)) :
    InUser s'.mmaps ∧ s'.fds = s.fds ∧ s'.Counted other ∧
      ((∀ i, file = some i → 0 < s.files.count i) → s.files.Named → s'.files.Named) := by
  obtain ⟨hfds, ⟨hmaps, hfiles⟩ | ⟨htop, hmaps, hfiles⟩⟩ := mapRegion_cases hm
  · unfold MmState.Counted at *
    rw [hmaps, hfiles, hfds]
    exact ⟨hu, rfl, h, fun _ hn => hn⟩
  · unfold MmState.Counted at *
    rw [hmaps, hfiles, hfds]
    refine ⟨fun r hr => ?_, rfl, fun i => ?_, fun hpos hn => ?_⟩
    · rcases List.mem_cons.1 ((List.perm_insertIdx _ _ hri).mem_iff.1 hr) with rfl | hr
      · exact htop
      · exact hu r hr
    · have h1 := h i
      simp only [regionRefs_insertIdx hri] at h1 ⊢
      cases file with
      | none =>
        simp only [Option.elim_none, reduceCtorEq, if_false]
        exact h1
      | some k =>
        simp only [Option.elim_some, Option.some.injEq, count_ref, eq_comm (a := k)]
        omega
    · cases file with
      | none => exact hn
      | some k => exact hn.ref (hpos k rfl)

private theorem placeRegion_index (l : List Region) (base len : Nat) : (placeRegion l base len).2 ≤ l.length := by
  unfold placeRegion
  simp only
  split
  · exact Nat.zero_le _
  · rename_i hneg
    unfold findRegionBeforeEqual at hneg ⊢
    have hle : (l.findIdx fun r => base < r.base) ≤ l.length := List.findIdx_le_length
    generalize (l.findIdx fun r => base < r.base) = n at hneg hle ⊢
    obtain ⟨k, rfl⟩ : ∃ k, n = k + 1 := ⟨n - 1, by omega⟩
    have hk : (((k + 1 : Nat) : Int) - 1).toNat = k := by omega
    rw [hk]
    have hlen : (l.drop k).length = l.length - k := List.length_drop
    have hne : l.drop k ≠ [] := by
      intro he
      rw [he] at hlen
      simp only [List.length_nil] at hlen
      omega
    obtain ⟨a, r, b, hsplit, hgap, -⟩ := findGap_spec len hne k
    rw [hgap]
    rw [hsplit, List.length_append, List.length_cons] at hlen
    simp only
    omega

private theorem checkMmap_file {env : MmapEnv} {s : MmState} {len prot flags : Nat} {fd : Int} {offset i : Nat}
    (hc : checkMmap env s len prot flags fd offset = some (.ok (some i))) : fileFd s.fds fd = some i := by
  unfold checkMmap at hc
  simp only at hc
  generalize hk : (if len = 0 then Except.error Errno.EINVAL
    else if (flags &&& mapShared != 0) = (flags &&& mapPrivate != 0) then .error Errno.EINVAL
    else .ok none : Except Errno (Option Nat)) = kind at hc
  have hkind : kind ≠ .ok (some i) := by
    rw [← hk]
    split
    · simp
    · split
      · simp
      · simp
  split at hc
  · exact absurd (Option.some.inj hc) hkind
  · split at hc
    · simp at hc
    · rename_i file hfile
      split at hc
      · simp at hc
      · repeat' split at hc
        all_goals first
          | simp at hc
            done
          | skip
        cases kind with
        | error e => simp [Except.map] at hc
        | ok o =>
          simp only [Except.map, Option.some.injEq, Except.ok.injEq] at hc
          rw [hfile, hc]

private theorem checkMmap_some (env : MmapEnv) {s : MmState} (h : s.Counted other) (hn : s.files.Named)
    (len prot flags : Nat) (fd : Int) (offset : Nat) : ∃ r, checkMmap env s len prot flags fd offset = some r := by
  unfold checkMmap
  simp only
  split
  · exact ⟨_, rfl⟩
  · rcases hfd : fileFd s.fds fd with _ | i
    · exact ⟨_, rfl⟩
    · have hv := hn i (Counted.pos h (fileFd_slot hfd))
      obtain ⟨vp, hvp⟩ := Option.ne_none_iff_exists'.1 hv
      simp only [hvp]
      repeat' split
      all_goals exact ⟨_, rfl⟩

/-! ### The calls of a process -/

/-- The slots are in order, and the regions are in user memory. -/
structure MmState.Wf (s : MmState) : Prop where
  fds : s.fds.Wf
  user : InUser s.mmaps

/-- The calls of a process on its descriptors and its mappings. -/
inductive Call where
  | fd (i : FdInput)
  | mmap (env : MmapEnv) (addr len : Word) (prot flags : Nat) (fd : Int) (offset : Nat)
  | munmap (env : MmapEnv) (addr len : Word)

def callStep (s : MmState) : Call → Option MmState
  | .fd i => (fdStep (s.files, s.fds) i).map fun r => { s with files := r.1, fds := r.2 }
  | .mmap env addr len prot flags fd offset => (sysMmap env s addr len prot flags fd offset).map (·.1)
  | .munmap env addr len => (sysMunmap env s addr len).map (·.1)

def lost (s : MmState) : Call → List Region
  | .fd _ => []
  | .mmap env addr len prot flags fd offset =>
    match checkMmap env s len prot flags fd offset with
    | some (.ok _) =>
      if addr &&& (pageSize - 1) ≠ 0 then []
      else if flags &&& mapFixed ≠ 0 then unmapped env s addr (alignUp len pageSize) true
      else []
    | _ => []
  | .munmap env addr len =>
    if addr &&& (pageSize - 1) ≠ 0 ∨ len &&& (pageSize - 1) ≠ 0 then [] else unmapped env s addr len false

def CallSafe (s : MmState) : Call → Prop
  | .fd i => FdSafe s.fds i
  | c => ∀ r ∈ lost s c, r.file = none

private theorem sysMunmap_counted {env : MmapEnv} {s s' : MmState} {addr len : Word} {err : Option Errno} (hw : s.Wf)
    (h : s.Counted other) (hc : sysMunmap env s addr len = some (s', err)) :
    s'.Wf ∧ s'.Counted fun i => other i + regionRefs (lost s (.munmap env addr len)) i := by
  unfold sysMunmap at hc
  unfold lost
  split at hc
  · rename_i halign
    obtain ⟨rfl, -⟩ := Prod.mk.inj (Option.some.inj hc)
    simp only [if_pos halign]
    exact ⟨hw, h⟩
  · rename_i halign
    obtain ⟨h1, h2, h3⟩ := clearMappings_counted hw.user h hw.fds hc
    simp only [if_neg halign]
    exact ⟨⟨h2, h1⟩, h3⟩

private theorem sysMunmap_safe {env : MmapEnv} {s : MmState} {addr len : Word} (hw : s.Wf)
    (hsafe : CallSafe s (.munmap env addr len)) :
    ∃ s' err, sysMunmap env s addr len = some (s', err) ∧ s'.files = s.files ∧ s'.fds = s.fds := by
  unfold sysMunmap
  simp only [CallSafe, lost] at hsafe
  split
  · exact ⟨s, _, rfl, rfl, rfl⟩
  · rename_i halign
    rw [if_neg halign] at hsafe
    exact clearMappings_spares hw.user hsafe

private theorem sysMmap_counted {env : MmapEnv} {s s' : MmState} {addr len : Word} {prot flags : Nat} {fd : Int}
    {offset : Nat} {res : Except Errno Nat} (hw : s.Wf) (h : s.Counted other)
    (hc : sysMmap env s addr len prot flags fd offset = some (s', res)) :
    s'.Wf ∧ s'.Counted fun i => other i + regionRefs (lost s (.mmap env addr len prot flags fd offset)) i := by
  unfold sysMmap at hc
  rcases hcheck : checkMmap env s len prot flags fd offset with _ | e | file
  · rw [hcheck] at hc
    cases hc
  · rw [hcheck] at hc
    obtain ⟨rfl, -⟩ := Prod.mk.inj (Option.some.inj hc)
    simp only [lost, hcheck]
    exact ⟨hw, h⟩
  rw [hcheck] at hc
  simp only [lost, hcheck] at hc ⊢
  split at hc
  · rename_i halign
    obtain ⟨rfl, -⟩ := Prod.mk.inj (Option.some.inj hc)
    simp only [if_pos halign]
    exact ⟨hw, h⟩
  rename_i halign
  simp only [if_neg halign]
  split at hc
  · rename_i hfix
    simp only [if_pos hfix]
    rcases hclear : clearMappings env s addr (alignUp len pageSize) true with _ | ⟨s1, _ | err⟩
    · rw [hclear] at hc
      cases hc
    · rw [hclear] at hc
      obtain ⟨h1, h2, h3⟩ := clearMappings_counted hw.user h hw.fds hclear
      obtain ⟨h4, h5, h6, -⟩ := mapRegion_counted h1 h3 (findRegionBefore_index _ _) (Option.some.inj hc)
      exact ⟨⟨h5 ▸ h2, h4⟩, h6⟩
    · rw [hclear] at hc
      obtain ⟨h1, h2, h3⟩ := clearMappings_counted hw.user h hw.fds hclear
      obtain ⟨rfl, -⟩ := Prod.mk.inj (Option.some.inj hc)
      exact ⟨⟨h2, h1⟩, h3⟩
  · rename_i hfix
    simp only [if_neg hfix]
    obtain ⟨h4, h5, h6, -⟩ := mapRegion_counted hw.user h (placeRegion_index _ _ _) (Option.some.inj hc)
    exact ⟨⟨h5 ▸ hw.fds, h4⟩, h6⟩

private theorem sysMmap_safe {env : MmapEnv} {s : MmState} {addr len : Word} {prot flags : Nat} {fd : Int}
    {offset : Nat} (hw : s.Wf) (h : s.Counted other) (hn : s.files.Named)
    (hsafe : CallSafe s (.mmap env addr len prot flags fd offset)) :
    ∃ s' res, sysMmap env s addr len prot flags fd offset = some (s', res) ∧ s'.files.Named := by
  unfold sysMmap
  simp only [CallSafe, lost] at hsafe
  obtain ⟨r, hcheck⟩ := checkMmap_some env h hn len prot flags fd offset
  rw [hcheck] at hsafe ⊢
  cases r with
  | error e => exact ⟨s, _, rfl, hn⟩
  | ok file =>
    have hpos : ∀ i, file = some i → 0 < s.files.count i := by
      rintro i rfl
      exact Counted.pos h (fileFd_slot (checkMmap_file hcheck))
    simp only at hsafe ⊢
    split
    · exact ⟨s, _, rfl, hn⟩
    rename_i halign
    rw [if_neg halign] at hsafe
    split
    · rename_i hfix
      rw [if_pos hfix] at hsafe
      obtain ⟨s1, err, hclear, hfiles, -⟩ := clearMappings_spares hw.user hsafe
      rw [hclear]
      obtain ⟨h1, -, h3⟩ := clearMappings_counted hw.user h hw.fds hclear
      cases err with
      | some e => exact ⟨s1, _, rfl, hfiles ▸ hn⟩
      | none =>
        rcases hm : mapRegion env s1 (if (addr : Nat) ≠ 0 then (addr : Nat) else userMmapBaseVma)
          (findRegionBefore s1.mmaps (if (addr : Nat) ≠ 0 then (addr : Nat) else userMmapBaseVma) + 1).toNat
          (alignUp len pageSize) prot file fd offset flags with ⟨s2, res⟩
        obtain ⟨-, -, -, h7⟩ := mapRegion_counted h1 h3 (findRegionBefore_index _ _) hm
        exact ⟨s2, res, congrArg some hm, h7 (hfiles.symm ▸ hpos) (hfiles.symm ▸ hn)⟩
    · rcases hm : mapRegion env s
        (placeRegion s.mmaps (if (addr : Nat) ≠ 0 then (addr : Nat) else userMmapBaseVma) (alignUp len pageSize)).1
        (placeRegion s.mmaps (if (addr : Nat) ≠ 0 then (addr : Nat) else userMmapBaseVma) (alignUp len pageSize)).2
        (alignUp len pageSize) prot file fd offset flags with ⟨s2, res⟩
      obtain ⟨-, -, -, h7⟩ := mapRegion_counted hw.user h (placeRegion_index _ _ _) hm
      exact ⟨s2, res, rfl, h7 hpos hn⟩

theorem callStep_wf {s s' : MmState} {c : Call} (hw : s.Wf) (h : s.Counted other) (hs : callStep s c = some s') :
    s'.Wf := by
  cases c with
  | fd i =>
    obtain ⟨⟨f, t⟩, hr, rfl⟩ := Option.map_eq_some_iff.1 hs
    exact ⟨fdStep_wf hw.fds hr, hw.user⟩
  | mmap env addr len prot flags fd offset =>
    obtain ⟨⟨s1, res⟩, hr, rfl⟩ := Option.map_eq_some_iff.1 hs
    exact (sysMmap_counted hw h hr).1
  | munmap env addr len =>
    obtain ⟨⟨s1, err⟩, hr, rfl⟩ := Option.map_eq_some_iff.1 hs
    exact (sysMunmap_counted hw h hr).1

private theorem counted_of_lost {s s' : MmState} {c : Call} (hl : ∀ r ∈ lost s c, r.file = none)
    (h : s'.Counted fun i => other i + regionRefs (lost s c) i) : s'.Counted other := by
  intro i
  have h1 := h i
  simp only [regionRefs_eq_zero hl, Nat.add_zero] at h1
  exact h1

private theorem lost_of_counted {s s' : MmState} {c : Call}
    (h : s'.Counted fun i => other i + regionRefs (lost s c) i)
    (h' : s'.Counted other) : ∀ r ∈ lost s c, r.file = none := by
  refine file_none_of_regionRefs fun i => ?_
  have h1 := h i
  have h2 := h' i
  simp only at h1 h2
  omega

/-- A call that meets its condition has a result, and the references stay counted.  A call on the mappings leaves the
slots as they are. -/
theorem callStep_counted {s : MmState} {c : Call} (hw : s.Wf) (h : s.Counted other) (hn : s.files.Named)
    (hC : CallSafe s c) : ∃ s', callStep s c = some s' ∧ s'.Counted other ∧ s'.files.Named ∧
      ∀ env addr len, c = .munmap env addr len → s'.fds = s.fds := by
  cases c with
  | fd i =>
    obtain ⟨⟨f, t⟩, hr, h1, h2⟩ := fdStep_counted hw.fds h hn hC
    refine ⟨{ s with files := f, fds := t }, by simp only [callStep, hr, Option.map_some], h1, h2, ?_⟩
    intro env addr len he
    cases he
  | mmap env addr len prot flags fd offset =>
    obtain ⟨s', res, hr, h1⟩ := sysMmap_safe hw h hn hC
    refine ⟨s', by simp only [callStep, hr, Option.map_some], ?_, h1, ?_⟩
    · exact counted_of_lost hC (sysMmap_counted hw h hr).2
    · intro env addr len he
      cases he
  | munmap env addr len =>
    obtain ⟨s', err, hr, h1, h2⟩ := sysMunmap_safe hw hC
    refine ⟨s', by simp only [callStep, hr, Option.map_some], ?_, h1 ▸ hn, fun _ _ _ _ => h2⟩
    exact counted_of_lost hC (sysMunmap_counted hw h hr).2

theorem callStep_needs {s s' : MmState} {c : Call} (hw : s.Wf) (h : s.Counted other) (hs : callStep s c = some s')
    (h' : s'.Counted other) : CallSafe s c := by
  cases c with
  | fd i =>
    obtain ⟨⟨f, t⟩, hr, rfl⟩ := Option.map_eq_some_iff.1 hs
    exact fdStep_needs h hr h'
  | mmap env addr len prot flags fd offset =>
    obtain ⟨⟨s1, res⟩, hr, rfl⟩ := Option.map_eq_some_iff.1 hs
    exact lost_of_counted (sysMmap_counted hw h hr).2 h'
  | munmap env addr len =>
    obtain ⟨⟨s1, err⟩, hr, rfl⟩ := Option.map_eq_some_iff.1 hs
    exact lost_of_counted (sysMunmap_counted hw h hr).2 h'

end

end Pml.Kernel
