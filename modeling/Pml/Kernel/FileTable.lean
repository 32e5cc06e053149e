import Mathlib.Logic.Function.Basic
import Mathlib.Data.List.GetD
import Pml.Basic
import Pml.Lib.Machine

/-!
# File descriptors (`kernel/fd.c`, `sys_open`, `sys_close` and `sys_dup` of `drivers/fs/syscall.c`)

The system table holds the open files with their reference counts; the table of a process holds in each slot the
index of an open file.  Both tables are searched from an index on: `fd_table_start` goes back when a file is closed,
but `curr` of a process never does.  So a slot below `curr` that was closed is not found again, and `alloc_procfd`
finds a slot unless only such slots are left (`allocProcfd_meets_iff`).

A function is undefined (`none`) where the code accesses a slot outside the table.  The soft limit is 256, so an
`int` holds every index.
-/

namespace Pml.Kernel

open Machine

abbrev systemFdTableSize : Nat := 65536

def oAccmode : Nat := 3
def oNonblock : Nat := 1 <<< 7

/-- `struct fd`, without the path, which nothing sets, and the offset of reads and writes. -/
structure File where
  vnode : Option Nat := none
  flags : Nat := 0
  count : Nat := 0
  deriving DecidableEq

/-- `system_fd_table` and `fd_table_start` -/
structure Files where
  entry : Nat → File
  start : Nat

/-- `struct fd_table`: a slot holds the index of its file in `system_fd_table`. -/
structure FdTable where
  table : List (Option Nat)
  curr : Nat
  maxSize : Nat
  deriving DecidableEq

/-- `fds->size` -/
def FdTable.size (t : FdTable) : Nat := t.table.length

def FdTable.firstFree (t : FdTable) (i : Nat) : Nat := i + (t.table.drop i).findIdx Option.isNone

def FdTable.grow (t : FdTable) (newSize : Nat) : FdTable :=
  { t with table := t.table ++ List.replicate (newSize - t.size) none }

/-- `fds->table[fd] = file` -/
def FdTable.put (t : FdTable) (fd : Nat) (file : Option Nat) : FdTable := { t with table := t.table.set fd file }

/-- `alloc_procfd`, where `mem` tells whether `realloc` succeeds. -/
def allocProcfd (t : FdTable) (mem : Bool) : Except Errno Nat × FdTable :=
  let i := t.firstFree t.curr
  if i < t.size then (.ok i, { t with curr := i + 1 })
  else if t.size < t.maxSize then
    let newSize := if t.size * 2 < t.maxSize then t.size * 2 else t.maxSize
    if mem = false then (.error .ENOMEM, { t with curr := i })
    else if newSize ≤ i then (.error .EMFILE, { t.grow newSize with curr := i })
    else (.ok i, { t.grow newSize with curr := i + 1 })
  else (.error .EMFILE, { t with curr := i })

/-- The loop of `alloc_fd`, with the number of entries that remain. -/
def firstUnused (e : Nat → File) : Nat → Nat → Nat
  | 0, i => i
  | k + 1, i => if (e i).count = 0 then i else firstUnused e k (i + 1)

/-- `file->count++` -/
def Files.ref (f : Files) (i : Nat) : Files :=
  { f with entry := Function.update f.entry i { f.entry i with count := (f.entry i).count + 1 } }

def allocFd (f : Files) : Option Nat × Files :=
  let i := firstUnused f.entry (systemFdTableSize - f.start) f.start
  if i < systemFdTableSize then (some i, { f.ref i with start := i + 1 }) else (none, { f with start := i })

/-- `--count` of a `size_t` -/
def decCount (c : Nat) : Nat := if c = 0 then 2 ^ 64 - 1 else c - 1

def freeFd (f : Files) (fd : Nat) : Files :=
  let c := decCount (f.entry fd).count
  if c = 0 then ⟨Function.update f.entry fd {}, if fd < f.start then fd else f.start⟩
  else { f with entry := Function.update f.entry fd { f.entry fd with count := c } }

def freeAltprocfd (f : Files) (t : FdTable) (fd : Nat) : Option (Files × FdTable) :=
  match t.table[fd]? with
  | none => none
  | some none => some (f, t)
  | some (some sysfd) => some (freeFd f sysfd, t.put fd none)

def fillFd (f : Files) (t : FdTable) (fd sysfd vp flags : Nat) : Files × FdTable :=
  ({ f with entry := Function.update f.entry sysfd { f.entry sysfd with
      vnode := some vp, flags := flags &&& (oAccmode ||| oNonblock) } }, t.put fd (some sysfd))

def fileFd (t : FdTable) (fd : Int) : Option Nat := if fd < 0 then none else (t.table[fd.toNat]?).join

def next64P2 (x : Nat) : Nat :=
  let x := sub64 x 1
  let x := x ||| x >>> 1
  let x := x ||| x >>> 2
  let x := x ||| x >>> 4
  let x := x ||| x >>> 8
  let x := x ||| x >>> 16
  let x := x ||| x >>> 32
  add64 x 1

/-- A signed value as a `size_t`. -/
def toSize (x : Int) : Nat := (x % 2 ^ 64).toNat

def dupSize (t : FdTable) (fd2 : Int) : Nat :=
  if t.maxSize < next64P2 (toSize (fd2 + 1)) then t.maxSize else next64P2 (toSize (fd2 + 1))

/-- The slot that `dupfd` fills, and the table with that slot.  A new size below the old one makes `memset` write
behind the table. -/
def dupSlot (t : FdTable) (fd2 : Int) (mem : Bool) : Option (Except Errno (Nat × FdTable)) :=
  let i := t.firstFree (toSize fd2)
  if i < t.size then some (.ok (i, t))
  else if t.size < t.maxSize then
    if mem = false then some (.error .ENOMEM)
    else if t.size ≤ dupSize t fd2 ∧ toSize fd2 < dupSize t fd2 then
      some (.ok (toSize fd2, t.grow (dupSize t fd2)))
    else none
  else some (.error .EMFILE)

def dupfd (f : Files) (t : FdTable) (fd fd2 : Int) (mem : Bool) : Option (Except Errno Unit × Files × FdTable) :=
  match fileFd t fd with
  | none => some (.error .EBADF, f, t)
  | some file =>
    match dupSlot t fd2 mem with
    | none => none
    | some (.error e) => some (.error e, f, t)
    | some (.ok (i, t)) => some (.ok (), f.ref file, t.put i (some file))

/-- The commands of `sys_fcntl`. -/
inductive FcntlCmd
  | dupfd (fd2 : Int)
  | getfl
  | setfl (arg : Nat)
  | lock
  | other

def sysFcntl (f : Files) (t : FdTable) (fd : Int) (cmd : FcntlCmd) (mem : Bool) :
    Option (Except Errno Nat × Files × FdTable) :=
  match fileFd t fd with
  | none => some (.error .EBADF, f, t)
  | some file =>
    match cmd with
    | .dupfd fd2 => (dupfd f t fd fd2 mem).map fun r => (r.1.map fun _ => 0, r.2)
    | .getfl => some (.ok (f.entry file).flags, f, t)
    | .setfl arg => some (.ok 0, { f with entry := Function.update f.entry file { f.entry file with
        flags := ((f.entry file).flags &&& oAccmode) ||| (arg &&& not64 oAccmode) } }, t)
    | .lock => some (.error .ENOSYS, f, t)
    | .other => some (.error .EINVAL, f, t)

/-- `sys_open`, where `lookup` is the outcome of the search for the vnode and of the checks on it. -/
def sysOpen (f : Files) (t : FdTable) (lookup : Except Errno Nat) (flags : Nat) (mem : Bool) :
    Option (Except Errno Nat × Files × FdTable) :=
  match allocFd f with
  | (none, f) => some (.error .ENFILE, f, t)
  | (some sysfd, f) =>
    match allocProcfd t mem with
    | (.error e, t) => some (.error e, freeFd f sysfd, t)
    | (.ok fd, t) =>
      match lookup with
      | .error e => (freeAltprocfd f t fd).map fun r => (.error e, freeFd r.1 sysfd, r.2)
      | .ok vp => some (.ok fd, fillFd f t fd sysfd vp flags)

def sysClose (f : Files) (t : FdTable) (fd : Int) : Option (Except Errno Unit × Files × FdTable) :=
  match fileFd t fd with
  | none => some (.error .EBADF, f, t)
  | some _ => (freeAltprocfd f t fd.toNat).map fun r => (.ok (), r)

def sysDup (f : Files) (t : FdTable) (fd : Int) (mem : Bool) : Except Errno Nat × Files × FdTable :=
  match fileFd t fd with
  | none => (.error .EBADF, f, t)
  | some file =>
    match allocProcfd t mem with
    | (.error e, t) => (.error e, f, t)
    | (.ok nfd, t) => (.ok nfd, f.ref file, t.put nfd (some file))

/-- The system calls of one process on its descriptors. -/
inductive FdInput
  | openFile (lookup : Except Errno Nat) (flags : Nat) (mem : Bool)
  | close (fd : Int)
  | dup (fd : Int) (mem : Bool)
  | fcntl (fd : Int) (cmd : FcntlCmd) (mem : Bool)

def fdStep (s : Files × FdTable) : FdInput → Option (Files × FdTable)
  | .openFile lookup flags mem => (sysOpen s.1 s.2 lookup flags mem).map (·.2)
  | .close fd => (sysClose s.1 s.2 fd).map (·.2)
  | .dup fd mem => some (sysDup s.1 s.2 fd mem).2
  | .fcntl fd cmd mem => (sysFcntl s.1 s.2 fd cmd mem).map (·.2)

/-- The table that `fork_init` makes. -/
def initFds : FdTable := ⟨List.replicate 64 none, 0, 256⟩

/-! ### The search for a slot -/

section

variable {t : FdTable} {i : Nat}

theorem le_firstFree (t : FdTable) (i : Nat) : i ≤ t.firstFree i := Nat.le_add_right _ _

private theorem firstFree_le (h : i ≤ t.size) : t.firstFree i ≤ t.size := by
  have h1 : (t.table.drop i).findIdx Option.isNone ≤ (t.table.drop i).length := List.findIdx_le_length
  rw [List.length_drop] at h1
  unfold FdTable.firstFree FdTable.size at *
  omega

theorem firstFree_free (h : t.firstFree i < t.size) : t.table[t.firstFree i]? = some none := by
  unfold FdTable.firstFree FdTable.size at *
  have hlt : (t.table.drop i).findIdx Option.isNone < (t.table.drop i).length := by
    rw [List.length_drop]
    omega
  have hp := List.findIdx_getElem (w := hlt)
  rw [List.getElem_drop, Option.isNone_iff_eq_none] at hp
  rw [List.getElem?_eq_getElem h, hp]

theorem ne_none_of_lt_firstFree {j : Nat} (h1 : i ≤ j) (h2 : j < t.firstFree i) : t.table[j]? ≠ some none := by
  intro hj
  have hlt : j - i < (t.table.drop i).findIdx Option.isNone := by
    unfold FdTable.firstFree at h2
    omega
  obtain ⟨hlen, hval⟩ := List.getElem?_eq_some_iff.1 hj
  have hd : j - i < (t.table.drop i).length := by
    rw [List.length_drop]
    omega
  have hp := List.not_of_lt_findIdx hlt
  rw [List.getElem_drop] at hp
  simp [show i + (j - i) = j by omega, hval] at hp

@[simp] theorem size_put (t : FdTable) (fd : Nat) (file : Option Nat) : (t.put fd file).size = t.size := by
  simp [FdTable.put, FdTable.size]

@[simp] theorem put_curr (t : FdTable) (fd : Nat) (file : Option Nat) : (t.put fd file).curr = t.curr := rfl

@[simp] theorem put_maxSize (t : FdTable) (fd : Nat) (file : Option Nat) : (t.put fd file).maxSize = t.maxSize := rfl

private theorem size_grow {n : Nat} (h : t.size ≤ n) : (t.grow n).size = n := by
  unfold FdTable.grow FdTable.size at *
  simp
  omega

theorem grow_free {n j : Nat} (h1 : t.size ≤ j) (h2 : j < n) : (t.grow n).table[j]? = some none := by
  unfold FdTable.grow FdTable.size at *
  simp only
  rw [List.getElem?_append_right h1, List.getElem?_replicate, if_pos (by omega)]

end

/-! ### Runs -/

def FdTable.used (t : FdTable) : Nat := t.table.countP Option.isSome

/-- The table is not empty and within its soft limit, and the search starts inside it. -/
structure FdTable.Wf (t : FdTable) : Prop where
  pos : 0 < t.size
  limit : t.size ≤ t.maxSize
  curr : t.curr ≤ t.size

/-- What `alloc_procfd` does to the table: the new index is free, and the loop has passed occupied slots only. -/
theorem allocProcfd_cases {t : FdTable} (h : t.Wf) (mem : Bool) :
    (∃ i, allocProcfd t mem = (.ok i, { t with curr := i + 1 }) ∧ t.curr ≤ i ∧ i < t.size ∧
      t.table[i]? = some none) ∨
    (∃ n, allocProcfd t mem = (.ok t.size, { t.grow n with curr := t.size + 1 }) ∧ t.size < n ∧ n ≤ t.maxSize) ∨
    (∃ e, allocProcfd t mem = (.error e, { t with curr := t.size }) ∧
      (∀ i, t.curr ≤ i → i < t.size → t.table[i]? ≠ some none) ∧
      (e = .ENOMEM ∧ mem = false ∨ e = .EMFILE ∧ t.size = t.maxSize)) := by
  have hpos := h.pos
  have hlimit := h.limit
  have hle := firstFree_le h.curr
  have hocc : ∀ i, t.curr ≤ i → i < t.firstFree t.curr → t.table[i]? ≠ some none :=
    fun i h1 h2 => ne_none_of_lt_firstFree h1 h2
  unfold allocProcfd
  simp only
  by_cases hfree : t.firstFree t.curr < t.size
  · rw [if_pos hfree]
    exact Or.inl ⟨_, rfl, le_firstFree t _, hfree, firstFree_free hfree⟩
  · have hend : t.firstFree t.curr = t.size := by omega
    rw [hend] at hocc
    rw [if_neg hfree, hend]
    by_cases hroom : t.size < t.maxSize
    · rw [if_pos hroom]
      cases mem with
      | false =>
        rw [if_pos rfl]
        exact Or.inr (Or.inr ⟨_, rfl, hocc, Or.inl ⟨rfl, rfl⟩⟩)
      | true =>
        rw [if_neg (by decide)]
        have hn : t.size < (if t.size * 2 < t.maxSize then t.size * 2 else t.maxSize) ∧
            (if t.size * 2 < t.maxSize then t.size * 2 else t.maxSize) ≤ t.maxSize := by
          split
          · omega
          · omega
        rw [if_neg (by omega)]
        exact Or.inr (Or.inl ⟨_, rfl, hn.1, hn.2⟩)
    · rw [if_neg hroom]
      exact Or.inr (Or.inr ⟨_, rfl, hocc, Or.inr ⟨rfl, by omega⟩⟩)

theorem FdTable.Wf.put {t : FdTable} (h : t.Wf) (fd : Nat) (file : Option Nat) : (t.put fd file).Wf := by
  constructor
  · simpa using h.pos
  · simpa using h.limit
  · simpa using h.curr

theorem FdTable.Wf.grow {t : FdTable} (h : t.Wf) {n : Nat} (h1 : t.size ≤ n) (h2 : n ≤ t.maxSize) :
    (t.grow n).Wf := by
  have hsize := size_grow h1
  have hpos := h.pos
  have hcurr := h.curr
  constructor
  · omega
  · rw [hsize]
    exact h2
  · rw [hsize]
    exact Nat.le_trans hcurr h1

theorem FdTable.Wf.allocProcfd {t : FdTable} (h : t.Wf) (mem : Bool) : (allocProcfd t mem).2.Wf := by
  have hlimit := h.limit
  rcases allocProcfd_cases h mem with ⟨i, he, -, hlt, -⟩ | ⟨n, he, h1, h2⟩ | ⟨e, he, -, -⟩
  · rw [he]
    exact ⟨h.pos, h.limit, hlt⟩
  · have hsize := size_grow (Nat.le_of_lt h1)
    have hg := h.grow (Nat.le_of_lt h1) h2
    rw [he]
    refine ⟨hg.pos, hg.limit, ?_⟩
    show t.size + 1 ≤ (t.grow n).size
    omega
  · rw [he]
    exact ⟨h.pos, h.limit, Nat.le_refl _⟩

theorem freeAltprocfd_wf {f f' : Files} {t t' : FdTable} {fd : Nat} (h : t.Wf)
    (he : freeAltprocfd f t fd = some (f', t')) : t'.Wf := by
  unfold freeAltprocfd at he
  split at he
  · cases he
  · cases he
    exact h
  · cases he
    exact h.put _ _

private theorem dupSize_le (t : FdTable) (fd2 : Int) : dupSize t fd2 ≤ t.maxSize := by
  unfold dupSize
  split
  · exact Nat.le_refl _
  · omega

private theorem dupSlot_wf {t t' : FdTable} {fd2 : Int} {mem : Bool} {i : Nat} (h : t.Wf)
    (he : dupSlot t fd2 mem = some (.ok (i, t'))) : t'.Wf := by
  unfold dupSlot at he
  simp only at he
  split at he
  · cases he
    exact h
  · split at he
    · split at he
      · cases he
      · split at he
        · rename_i hsize
          cases he
          exact h.grow hsize.1 (dupSize_le t fd2)
        · cases he
    · cases he

private theorem dupfd_wf {f f' : Files} {t t' : FdTable} {fd fd2 : Int} {mem : Bool} {r : Except Errno Unit}
    (h : t.Wf) (he : dupfd f t fd fd2 mem = some (r, f', t')) : t'.Wf := by
  unfold dupfd at he
  split at he
  · cases he
    exact h
  · split at he
    · cases he
    · cases he
      exact h
    · rename_i hs
      cases he
      exact (dupSlot_wf h hs).put _ _

theorem fdStep_wf {s s' : Files × FdTable} {i : FdInput} (h : s.2.Wf) (hs : fdStep s i = some s') : s'.2.Wf := by
  have halloc := fun mem => h.allocProcfd mem
  cases i with
  | openFile lookup flags mem =>
    obtain ⟨⟨r, f', t'⟩, hr, rfl⟩ := Option.map_eq_some_iff.1 hs
    specialize halloc mem
    unfold sysOpen at hr
    split at hr
    · cases hr
      exact h
    · split at hr
      · rename_i hp
        cases hr
        rw [hp] at halloc
        exact halloc
      · rename_i hp
        rw [hp] at halloc
        split at hr
        · obtain ⟨⟨f2, t2⟩, hfree, he⟩ := Option.map_eq_some_iff.1 hr
          cases he
          exact freeAltprocfd_wf halloc hfree
        · cases hr
          exact halloc.put _ _
  | close fd =>
    obtain ⟨⟨r, f', t'⟩, hr, rfl⟩ := Option.map_eq_some_iff.1 hs
    unfold sysClose at hr
    split at hr
    · cases hr
      exact h
    · obtain ⟨⟨f2, t2⟩, hfree, he⟩ := Option.map_eq_some_iff.1 hr
      cases he
      exact freeAltprocfd_wf h hfree
  | dup fd mem =>
    cases hs
    specialize halloc mem
    unfold sysDup
    split
    · exact h
    · split
      · rename_i hp
        rw [hp] at halloc
        exact halloc
      · rename_i hp
        rw [hp] at halloc
        exact halloc.put _ _
  | fcntl fd cmd mem =>
    obtain ⟨⟨r, f', t'⟩, hr, rfl⟩ := Option.map_eq_some_iff.1 hs
    unfold sysFcntl at hr
    split at hr
    · cases hr
      exact h
    · split at hr
      · obtain ⟨⟨r2, f2, t2⟩, hdup, he⟩ := Option.map_eq_some_iff.1 hr
        cases he
        exact dupfd_wf h hdup
      all_goals
        cases hr
        exact h

/-- `alloc_procfd` finds an empty slot while fewer than `max_size` slots are in use, and fails with `EMFILE` only when
all of them are. -/
def AllocMeets (t : FdTable) : Prop :=
  (t.used < t.maxSize → ∃ fd t', allocProcfd t true = (.ok fd, t') ∧ t'.table[fd]? = some none ∧
    (t.table[fd]?).join = none) ∧
  ∀ mem, (allocProcfd t mem).1 = .error .EMFILE → t.used = t.maxSize

/-- If a slot below `curr` is free, then there is another one at or above `curr`, or the table can still grow. -/
def FdTable.Reserve (t : FdTable) : Prop :=
  (∃ i, i < t.curr ∧ t.table[i]? = some none) →
    (∃ i, t.curr ≤ i ∧ t.table[i]? = some none) ∨ t.size < t.maxSize

private theorem used_eq_size_iff (t : FdTable) : t.used = t.size ↔ ∀ i : Nat, t.table[i]? ≠ some none := by
  unfold FdTable.used FdTable.size
  rw [List.countP_eq_length]
  constructor
  · intro h i hi
    simpa using h none (List.mem_of_getElem? hi)
  · intro h x hx
    obtain ⟨i, hi⟩ := List.mem_iff_getElem?.1 hx
    cases x with
    | none => exact absurd hi (h i)
    | some x => rfl

private theorem used_le_size (t : FdTable) : t.used ≤ t.size := List.countP_le_length

private theorem lt_size_of_free {t : FdTable} {i : Nat} (h : t.table[i]? = some none) : i < t.size :=
  (List.getElem?_eq_some_iff.1 h).1

private theorem allocMeets_iff {t : FdTable} (h : t.Wf) : AllocMeets t ↔ t.Reserve := by
  have hlimit := h.limit
  have hle := used_le_size t
  constructor
  · rintro ⟨hok, -⟩ ⟨i, hi, hfree⟩
    by_cases hroom : t.size < t.maxSize
    · exact Or.inr hroom
    · have hne : t.used ≠ t.size := fun he => (used_eq_size_iff t).1 he i hfree
      obtain ⟨fd, t', he, -, -⟩ := hok (by omega)
      rcases allocProcfd_cases h true with ⟨j, -, hj, -, hjfree⟩ | ⟨n, -, h1, h2⟩ | ⟨e, he', -⟩
      · exact Or.inl ⟨j, hj, hjfree⟩
      · omega
      · rw [he'] at he
        cases he
  · intro hres
    -- if the allocation fails for the limit, then no slot at or above `curr` is free, and so none below it
    have hfull : ∀ mem, (allocProcfd t mem).1 = .error .EMFILE → t.used = t.maxSize := by
      intro mem hf
      rcases allocProcfd_cases h mem with ⟨j, he, -⟩ | ⟨n, he, -⟩ | ⟨e, he, hocc, ⟨rfl, -⟩ | ⟨rfl, hsize⟩⟩
      · rw [he] at hf
        cases hf
      · rw [he] at hf
        cases hf
      · rw [he] at hf
        cases hf
      · rw [← hsize, used_eq_size_iff]
        intro i hi
        have hup : ¬t.curr ≤ i := fun hc => hocc i hc (lt_size_of_free hi) hi
        rcases hres ⟨i, by omega, hi⟩ with ⟨j, hj, hjfree⟩ | hroom
        · exact hocc j hj (lt_size_of_free hjfree) hjfree
        · omega
    refine ⟨fun hused => ?_, hfull⟩
    rcases allocProcfd_cases h true with ⟨j, he, -, -, hjfree⟩ | ⟨n, he, h1, h2⟩ | ⟨e, he, hocc,
      ⟨-, hmem⟩ | ⟨rfl, hsize⟩⟩
    · exact ⟨j, _, he, hjfree, by rw [hjfree]; rfl⟩
    · refine ⟨t.size, _, he, grow_free (Nat.le_refl _) h1, ?_⟩
      rw [List.getElem?_eq_none (Nat.le_refl t.size)]
      rfl
    · cases hmem
    · have := hfull true (by rw [he])
      omega

/-- After every run of system calls on a table, `alloc_procfd` meets its contract exactly if a free slot below `curr`
is not the last one. -/
theorem allocProcfd_meets_iff {f : Files} {t : FdTable} {is : List FdInput} {s : Files × FdTable} (h : t.Wf)
    (hrun : run fdStep is (f, t) = some s) : AllocMeets s.2 ↔ s.2.Reserve := by
  have hwf : s.2.Wf := run_invariant (P := fun s => s.2.Wf) (fun _ _ _ => fdStep_wf) h hrun
  exact allocMeets_iff hwf

theorem initFds_wf : initFds.Wf := ⟨by decide, by decide, by decide⟩

def reopenRun : List FdInput := [.openFile (.ok 7) 0 true, .openFile (.ok 8) 0 true, .close 0]

def noFiles : Files := ⟨fun _ => {}, 0⟩

theorem allocProcfd_meets_reopen :
    ∃ s, run fdStep reopenRun (noFiles, initFds) = some s ∧ AllocMeets s.2 := by
  have hrun :
    ((run fdStep reopenRun (noFiles, initFds)).map fun s => decide (s.2.size < s.2.maxSize)) = some true := by
    decide
  obtain ⟨s, hs, hb⟩ := Option.map_eq_some_iff.1 hrun
  rw [decide_eq_true_iff] at hb
  exact ⟨s, hs, (allocProcfd_meets_iff initFds_wf hs).2 fun _ => Or.inr hb⟩

def churnRun : List FdInput := List.replicate 256 (.openFile (.ok 7) 0 true) ++ [.close 3]

/-- After the run, 255 of 256 slots are in use and no slot is found. -/
theorem not_allocProcfd_meets :
    ∃ s, run fdStep churnRun (noFiles, initFds) = some s ∧ ¬AllocMeets s.2 := by
  have hrun : ((run fdStep churnRun (noFiles, initFds)).map fun s =>
      decide (s.2.used < s.2.maxSize) && (allocProcfd s.2 true).1.toOption.isNone) = some true := by
    decide +kernel
  obtain ⟨s, hs, hb⟩ := Option.map_eq_some_iff.1 hrun
  rw [Bool.and_eq_true, decide_eq_true_iff] at hb
  refine ⟨s, hs, fun hmeets => ?_⟩
  obtain ⟨fd, t', he, -, -⟩ := hmeets.1 hb.1
  rw [he] at hb
  exact Bool.false_ne_true hb.2

end Pml.Kernel
