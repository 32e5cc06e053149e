import Pml.Lib.ByteMemory

/-!
# Reading directory entries (`drivers/fs/syscall.c`)

`sys_getdents` stores the entries that `vfs_readdir` gives one after the other in the caller's buffer.  After a record
is stored the cursor moves to the place of the next one, and only then is `d_reclen` read to count the record: what is
counted is what the buffer holds there, not the length of the record.  At the end of the directory the offset of the
file becomes 0, where the directory begins.

So calls store the next entries, count them and stay inside of the buffer, whatever the buffers hold before, exactly
if they store nothing: the directory has no entries, or no buffer has room for the first (`getdents_iff`).
-/

namespace Pml.Vfs

open ByteMemory

/-- `struct dirent` as `vfs_readdir` fills it: `d_ino`, `d_namlen`, `d_type` and the string `d_name`. -/
structure Dirent where
  ino : Nat
  namlen : Nat
  type : Nat
  name : List UInt8
  deriving DecidableEq

/-- The members have their widths, and the name is a string of the given length that fits in `d_name`. -/
structure Dirent.Wf (e : Dirent) : Prop where
  ino : e.ino < 2 ^ 64
  type : e.type < 256
  namlen : e.namlen = e.name.length
  length : e.name.length < 256
  nonNull : 0 ∉ e.name

/-- `vfs_readdir`: what it returns for an offset, and the entry. -/
abbrev Readdir := Int → Int × Dirent

namespace Dirent

variable (e : Dirent)

/-- The length of the record of an entry; `d_name` is at offset 13 of `struct dirent`. -/
def recLen : Nat := 13 + (e.namlen + 1 + 7) / 8 * 8

/-- The members of a record are stored; `strncpy` pads the name with zeros. -/
def store (m : Mem) (ptr : Nat) : Mem :=
  let m := writeLE m ptr 8 e.ino
  let m := writeLE m (ptr + 8) 2 e.recLen
  let m := writeLE m (ptr + 10) 2 e.namlen
  let m := writeLE m (ptr + 12) 1 e.type
  let m := paste m (ptr + 13) (fun x => e.name.getD x 0) 0 e.namlen
  setByte m (ptr + 13 + e.namlen) 0

end Dirent

/-- The loop of `sys_getdents` with the buffer at address 0: what it returns, the memory and the offset of the file.
With fuel `0` there is no result. -/
def getdentsLoop (readdir : Readdir) (len : Nat) : Nat → Mem → Nat → Nat → Int → Int → Option (Int × Mem × Int)
  | 0, _, _, _, _, _ => none
  | fuel + 1, m, ptr, written, prev, offset =>
    if written < len then
      let (next, e) := readdir offset
      if next = -1 then some (-1, m, prev)
      else if next = 0 then some (written, m, next)
      else if written + e.recLen > len then some (written, m, prev)
      else
        let m := e.store m ptr
        let ptr := ptr + readLE m (ptr + 8) 2
        getdentsLoop readdir len fuel m ptr (written + readLE m (ptr + 8) 2) next next
    else some (written, m, offset)

/-- `sys_getdents` on an open file with the offset. -/
def sysGetdents (readdir : Readdir) (fuel len : Nat) (m : Mem) (offset : Int) : Option (Int × Mem × Int) :=
  getdentsLoop readdir len fuel m 0 0 offset offset

/-! ### What the calls promise -/

/-- From the offset on `vfs_readdir` gives the entries, and then the end of the directory. -/
def Yields (readdir : Readdir) : Int → List Dirent → Prop
  | offset, [] => (readdir offset).1 = 0
  | offset, e :: es => ∃ next, readdir offset = (next, e) ∧ 0 < next ∧ Yields readdir next es

/-- The memory holds the record of an entry. -/
structure RecordAt (m : Mem) (ptr : Nat) (e : Dirent) : Prop where
  ino : readLE m ptr 8 = e.ino
  reclen : readLE m (ptr + 8) 2 = e.recLen
  namlen : readLE m (ptr + 10) 2 = e.namlen
  type : readLE m (ptr + 12) 1 = e.type
  name : ∀ i, (h : i < e.name.length) → m (ptr + 13 + i) = e.name[i]
  terminator : m (ptr + 13 + e.namlen) = 0

def RecordsAt (m : Mem) : Nat → List Dirent → Prop
  | _, [] => True
  | ptr, e :: es => RecordAt m ptr e ∧ RecordsAt m (ptr + e.recLen) es

def total (es : List Dirent) : Nat := (es.map Dirent.recLen).sum

/-- A call that stores the records of entries in a buffer of `len` bytes. -/
structure Packed (len : Nat) (m : Mem) (ret : Int) (m' : Mem) (es : List Dirent) : Prop where
  ret_eq : ret = total es
  ret_le : ret ≤ len
  records : RecordsAt m' 0 es
  outside : ∀ x, len ≤ x → m' x = m x

/-- Every call, each with the length and the contents of a buffer, stores the first entries that no call before it has
stored. -/
def Continues (readdir : Readdir) : List (Nat × Mem) → Int → List Dirent → Prop
  | [], _, _ => True
  | (len, m) :: calls, offset, es => ∃ fuel ret m' offset' k,
    sysGetdents readdir fuel len m offset = some (ret, m', offset') ∧ Packed len m ret m' (es.take k) ∧
      Continues readdir calls offset' (es.drop k)

/-! ### The records -/

variable {e : Dirent} {es : List Dirent} {m m' : Mem} {ptr x : Nat}

private theorem Dirent.recLen_bounds (h : e.Wf) :
    13 + e.namlen + 1 ≤ e.recLen ∧ 21 ≤ e.recLen ∧ e.recLen < 65536 := by
  have h1 := h.namlen
  have h2 := h.length
  unfold recLen
  omega

theorem Dirent.store_outside (h : e.Wf) (hx : x < ptr ∨ ptr + e.recLen ≤ x) : e.store m ptr x = m x := by
  obtain ⟨h1, -, -⟩ := recLen_bounds h
  unfold store
  rw [setByte_of_ne (by omega), paste_outside (by omega), writeLE_outside (by omega), writeLE_outside (by omega),
    writeLE_outside (by omega), writeLE_outside (by omega)]

private theorem Dirent.store_reclen (h : e.Wf) : readLE (e.store m ptr) (ptr + 8) 2 = e.recLen := by
  obtain ⟨-, -, h3⟩ := recLen_bounds h
  have hfield : readLE (e.store m ptr) (ptr + 8) 2 =
      readLE (writeLE (writeLE m ptr 8 e.ino) (ptr + 8) 2 e.recLen) (ptr + 8) 2 := by
    refine readLE_congr fun x hx hx' => ?_
    unfold store
    rw [setByte_of_ne (by omega), paste_outside (by omega), writeLE_outside (by omega), writeLE_outside (by omega)]
  rw [hfield, readLE_writeLE_self]
  exact Nat.mod_eq_of_lt h3

/-! ### The lengths -/

private theorem total_cons (e : Dirent) (es : List Dirent) : total (e :: es) = e.recLen + total es := by
  simp [total]

/-- The total of some first records is not one more than that of others. -/
private theorem total_take_ne (hwf : ∀ e ∈ es, e.Wf) (j k : Nat) : total (es.take k) ≠ total (es.take j) + 1 := by
  induction es generalizing j k with
  | nil => simp
  | cons e es ih =>
    have hlen := (Dirent.recLen_bounds (hwf e List.mem_cons_self)).2.1
    cases j with
    | zero =>
      cases k with
      | zero => simp
      | succ k =>
        rw [List.take_succ_cons, total_cons, List.take_zero]
        change _ ≠ 0 + 1
        omega
    | succ j =>
      cases k with
      | zero =>
        change 0 ≠ _
        omega
      | succ k =>
        have hrest := ih (fun e he => hwf e (List.mem_cons_of_mem _ he)) j k
        rw [List.take_succ_cons, List.take_succ_cons, total_cons, total_cons]
        omega

/-! ### What a buffer can hold before the call -/

/-- At the place of each `d_reclen` that is read after a record is stored, the length of that record, but for the
first record a length that is larger by `extra`. -/
def stale : Nat → List Dirent → Nat → Mem
  | _, [], _ => fun _ => 0
  | ptr, e :: es, extra => writeLE (stale (ptr + e.recLen) es 0) (ptr + e.recLen + 8) 2 (e.recLen + extra)

/-- With such a buffer the loop counts what it stores correctly, but one too much if the count was one too much. -/
private theorem getdentsLoop_stale {readdir : Readdir} {fuel len : Nat} {prev offset offset' ret : Int}
    (hfollows : Yields readdir offset es) (hwf : ∀ e ∈ es, e.Wf) (hm : ∀ x, ptr + 10 ≤ x → m x = stale ptr es 0 x)
    (hres : getdentsLoop readdir len fuel m ptr (ptr + 1) prev offset = some (ret, m', offset')) :
    ∃ j, ret = ptr + total (es.take j) + 1 := by
  induction fuel generalizing es ptr m prev offset with
  | zero => cases hres
  | succ fuel ih =>
    have hstop : ret = ((ptr + 1 : Nat) : Int) → ∃ j, ret = ptr + total (es.take j) + 1 := fun h =>
      ⟨0, by rw [h]; simp [total]⟩
    unfold getdentsLoop at hres
    by_cases hlt : ptr + 1 < len
    · rw [if_pos hlt] at hres
      cases es with
      | nil =>
        have hend : (readdir offset).1 = 0 := hfollows
        dsimp only at hres
        rw [hend, if_neg (by decide), if_pos rfl] at hres
        cases hres
        exact hstop rfl
      | cons e es =>
        obtain ⟨next, hread, hpos, hrest⟩ := hfollows
        have he : e.Wf := hwf e List.mem_cons_self
        obtain ⟨h1, h2, h3⟩ := Dirent.recLen_bounds he
        rw [hread] at hres
        dsimp only at hres
        rw [if_neg (by omega), if_neg (by omega)] at hres
        by_cases hfit : ptr + 1 + e.recLen > len
        · rw [if_pos hfit] at hres
          cases hres
          exact hstop rfl
        · have hcount : readLE (e.store m ptr) (ptr + e.recLen + 8) 2 = e.recLen := by
            have hold : readLE (e.store m ptr) (ptr + e.recLen + 8) 2 =
                readLE (stale ptr (e :: es) 0) (ptr + e.recLen + 8) 2 := by
              refine readLE_congr fun x hx _ => ?_
              rw [Dirent.store_outside he (Or.inr (by omega)), hm x (by omega)]
            rw [hold, stale, readLE_writeLE_self]
            exact Nat.mod_eq_of_lt h3
          rw [if_neg hfit, Dirent.store_reclen he, hcount,
            show ptr + 1 + e.recLen = ptr + e.recLen + 1 by omega] at hres
          have hm' : ∀ x, ptr + e.recLen + 10 ≤ x → e.store m ptr x = stale (ptr + e.recLen) es 0 x := by
            intro x hx
            rw [Dirent.store_outside he (Or.inr (by omega)), hm x (by omega), stale, writeLE_outside (by omega)]
          obtain ⟨j, hj⟩ := ih hrest (fun e he => hwf e (List.mem_cons_of_mem _ he)) hm' hres
          refine ⟨j + 1, ?_⟩
          rw [List.take_succ_cons, total_cons, hj]
          omega
    · rw [if_neg hlt] at hres
      cases hres
      exact hstop rfl

/-- If the first record fits, then there are contents of the buffer with which the count is one too much. -/
private theorem sysGetdents_stale {readdir : Readdir} {fuel len : Nat} {offset offset' ret : Int}
    (hfollows : Yields readdir offset (e :: es)) (hwf : ∀ x ∈ e :: es, x.Wf) (hfit : e.recLen ≤ len)
    (hres : sysGetdents readdir fuel len (stale 0 (e :: es) 1) offset = some (ret, m', offset')) :
    ∃ j, ret = total ((e :: es).take j) + 1 := by
  cases fuel with
  | zero => cases hres
  | succ fuel =>
    obtain ⟨next, hread, hpos, hrest⟩ := hfollows
    have he : e.Wf := hwf e List.mem_cons_self
    obtain ⟨h1, h2, h3⟩ := Dirent.recLen_bounds he
    have hlen : e.recLen + 1 < 65536 := by
      have hl := he.length
      have hn := he.namlen
      unfold Dirent.recLen
      omega
    unfold sysGetdents getdentsLoop at hres
    rw [if_pos (by omega), hread] at hres
    dsimp only at hres
    have hcount : readLE (e.store (stale 0 (e :: es) 1) 0) (e.recLen + 8) 2 = e.recLen + 1 := by
      have hold : readLE (e.store (stale 0 (e :: es) 1) 0) (e.recLen + 8) 2 =
          readLE (stale 0 (e :: es) 1) (0 + e.recLen + 8) 2 := by
        rw [Nat.zero_add]
        exact readLE_congr fun x hx _ => Dirent.store_outside he (Or.inr (by omega))
      rw [hold, stale, readLE_writeLE_self]
      exact Nat.mod_eq_of_lt hlen
    have hfirst : readLE (e.store (stale 0 (e :: es) 1) 0) (0 + 8) 2 = e.recLen := Dirent.store_reclen he
    rw [if_neg (by omega), if_neg (by omega), if_neg (by omega), hfirst, Nat.zero_add, Nat.zero_add, hcount] at hres
    have hm : ∀ x, e.recLen + 10 ≤ x → e.store (stale 0 (e :: es) 1) 0 x = stale e.recLen es 0 x := by
      intro x hx
      rw [Dirent.store_outside he (Or.inr (by omega)), stale, writeLE_outside (by omega), Nat.zero_add]
    obtain ⟨j, hj⟩ := getdentsLoop_stale hrest (fun e he => hwf e (List.mem_cons_of_mem _ he)) hm hres
    refine ⟨j + 1, ?_⟩
    rw [List.take_succ_cons, total_cons, hj]
    omega

/-! ### Sequences of calls -/

private theorem packed_nil (len : Nat) (m : Mem) : Packed len m 0 m [] :=
  ⟨rfl, Int.natCast_nonneg len, trivial, fun _ _ => rfl⟩

private theorem sysGetdents_end {readdir : Readdir} (hend : (readdir 0).1 = 0) (len : Nat) (m : Mem) :
    sysGetdents readdir 1 len m 0 = some (0, m, 0) := by
  unfold sysGetdents getdentsLoop
  by_cases hlt : 0 < len
  · rw [if_pos hlt]
    dsimp only
    rw [hend, if_neg (by decide), if_pos rfl]
    rfl
  · rw [if_neg hlt]
    rfl

private theorem sysGetdents_short {readdir : Readdir} (hfollows : Yields readdir 0 (e :: es)) {len : Nat}
    (hlen : len < e.recLen) (m : Mem) : sysGetdents readdir 1 len m 0 = some (0, m, 0) := by
  obtain ⟨next, hread, hpos, -⟩ := hfollows
  unfold sysGetdents getdentsLoop
  by_cases hlt : 0 < len
  · rw [if_pos hlt, hread]
    dsimp only
    rw [if_neg (by omega), if_neg (by omega), if_pos (by omega)]
    rfl
  · rw [if_neg hlt]
    rfl

private theorem continues_idle {readdir : Readdir} {calls : List (Nat × Mem)}
    (h : ∀ c ∈ calls, sysGetdents readdir 1 c.1 c.2 0 = some (0, c.2, 0)) : Continues readdir calls 0 es := by
  induction calls with
  | nil => trivial
  | cons c calls ih =>
    refine ⟨1, 0, c.2, 0, 0, h c List.mem_cons_self, packed_nil c.1 c.2, ?_⟩
    exact ih fun c' hc' => h c' (List.mem_cons_of_mem _ hc')

/-- The first call with room for a record fails if its buffer has unfortunate contents. -/
private theorem short_of_continues {readdir : Readdir} (hfollows : Yields readdir 0 (e :: es))
    (hwf : ∀ x ∈ e :: es, x.Wf)
    {lens : List Nat} (h : Continues readdir (lens.map fun len => (len, stale 0 (e :: es) 1)) 0 (e :: es)) :
    ∀ len ∈ lens, len < e.recLen := by
  induction lens with
  | nil => simp
  | cons len lens ih =>
    obtain ⟨fuel, ret, m', offset', k, hres, hpacked, hrest⟩ := h
    have hshort : len < e.recLen := by
      by_contra hfit
      obtain ⟨j, hj⟩ := sysGetdents_stale hfollows hwf (by omega) hres
      have hret := hpacked.ret_eq
      rw [hj] at hret
      exact total_take_ne hwf j k (by exact_mod_cast hret.symm)
    have hlen := (Dirent.recLen_bounds (hwf e List.mem_cons_self)).2.1
    have hcall : ret = 0 ∧ offset' = 0 := by
      cases fuel with
      | zero => cases hres
      | succ fuel =>
        obtain ⟨next, hread, hpos, -⟩ := hfollows
        unfold sysGetdents getdentsLoop at hres
        by_cases hlt : 0 < len
        · rw [if_pos hlt, hread] at hres
          dsimp only at hres
          rw [if_neg (by omega), if_neg (by omega), if_pos (by omega)] at hres
          cases hres
          exact ⟨rfl, rfl⟩
        · rw [if_neg hlt] at hres
          cases hres
          exact ⟨rfl, rfl⟩
    obtain ⟨rfl, rfl⟩ := hcall
    have hk : k = 0 := by
      cases k with
      | zero => rfl
      | succ k =>
        have hret := hpacked.ret_eq
        rw [List.take_succ_cons, total_cons] at hret
        omega
    subst hk
    intro len' hlen'
    rcases List.mem_cons.1 hlen' with rfl | hlen'
    · exact hshort
    · exact ih hrest len' hlen'

/-- Calls with buffers of the given lengths pack the next entries of a directory, whatever the buffers hold before,
exactly if the directory has no entries or no buffer has room for the first one. -/
theorem getdents_iff (readdir : Readdir) (es : List Dirent) (hfollows : Yields readdir 0 es) (hwf : ∀ e ∈ es, e.Wf)
    (lens : List Nat) : (∀ calls : List (Nat × Mem), calls.map Prod.fst = lens → Continues readdir calls 0 es) ↔
      ∀ e ∈ es.head?, ∀ len ∈ lens, len < e.recLen := by
  cases es with
  | nil =>
    refine iff_of_true (fun calls _ => continues_idle fun c _ => sysGetdents_end hfollows c.1 c.2) ?_
    simp
  | cons e es =>
    constructor
    · intro h e' he' len hlen
      obtain rfl : e = e' := by simpa using he'
      refine short_of_continues hfollows hwf (h _ ?_) len hlen
      rw [List.map_map]
      exact List.map_id lens
    · rintro h calls rfl
      refine continues_idle fun c hc => sysGetdents_short hfollows ?_ c.2
      exact h e rfl c.1 (List.mem_map.2 ⟨c, hc, rfl⟩)

def dots : List Dirent := [⟨2, 1, 4, [46]⟩, ⟨2, 2, 4, [46, 46]⟩]

def dotsDir : Readdir := fun offset =>
  if offset = 0 then (1, ⟨2, 1, 4, [46]⟩) else if offset = 1 then (2, ⟨2, 2, 4, [46, 46]⟩) else (0, ⟨0, 0, 0, []⟩)

private theorem dots_wf : ∀ e ∈ dots, e.Wf := by
  intro e he
  rcases List.mem_cons.1 he with rfl | he
  · exact ⟨by decide, by decide, rfl, by decide, by decide⟩
  · obtain rfl := List.mem_singleton.1 he
    exact ⟨by decide, by decide, rfl, by decide, by decide⟩

private theorem dots_yields : Yields dotsDir 0 dots := by
  refine ⟨1, rfl, by decide, 2, rfl, by decide, ?_⟩
  rfl

/-- Buffers of 20 bytes are too short for the first record, which has 21. -/
theorem getdents_short : Continues dotsDir [(20, fun _ => 0), (20, fun _ => 0)] 0 dots :=
  (getdents_iff dotsDir dots dots_yields dots_wf [20, 20]).2 (by decide) _ rfl

/-- A buffer of 64 bytes has room for both records.  With a buffer of zeros both are stored and the call returns 0;
with other contents the count is one too much. -/
theorem not_getdents : (∃ m, sysGetdents dotsDir 4 64 (fun _ => 0) 0 = some (0, m, 0) ∧ readLE m 8 2 = 21 ∧
    readLE m 29 2 = 21) ∧ total dots = 42 ∧ ¬ Continues dotsDir [(64, stale 0 dots 1)] 0 dots := by
  refine ⟨⟨_, rfl, rfl, rfl⟩, rfl, fun h => ?_⟩
  exact absurd (@short_of_continues _ _ _ dots_yields dots_wf [64] h 64 List.mem_cons_self) (by decide)

end Pml.Vfs
