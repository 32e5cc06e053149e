import Pml.Kernel.AnonArea
import Pml.Util.Memory

/-!
# Argument strings (`kernel/exec.c`)

`copy_string` copies a string of the old address space to the argument area of the new one.  It measures the string
page by page through physical addresses, maps or lengthens the area, and copies page by page.  The first page is
treated apart: it is left at the next multiple of the page size, which is the page itself if the string starts there.
So a string that fills its first page from the start is measured and copied with this page twice (`OldText.measure`).
And `mempcpy` (`Insns.mempcpy_rax`) returns an address behind the end of what it has copied, so that `arg_ptr` is too
far behind a string that is not empty (`copyBytes_ok`).
-/

namespace Pml.Kernel

open Arch ByteMemory Util

/-! ### The code -/

/-- The parts of `struct elf_exec` that `copy_string` uses. -/
structure ElfExec where
  pml4t : Nat
  oldPml4t : Nat
  argData : Nat
  argPtr : Nat
  argLen : Nat
  deriving DecidableEq

/-- `strnlen`, at a physical address -/
def strnlen (m : Mem) (p : Nat) : Nat → Nat
  | 0 => 0
  | len + 1 => if m p = 0 then 0 else strnlen m (p + 1) len + 1

def readBytes (m : Mem) (p n : Nat) : List UInt8 := (List.range n).map fun i => m (p + i)

/-- The loop over the pages after the first one; it does not end if no page has a zero byte. -/
def measurePages (m : Mem) (pml4t : Nat) : Nat → Nat → Nat → Option Nat
  | 0, _, _ => none
  | fuel + 1, s, len =>
    let slen := strnlen m (vmPhysAddr m pml4t s) pageSize
    if slen < pageSize then some (add64 len slen)
    else measurePages m pml4t fuel (add64 s pageSize) (add64 len slen)

/-- The values of `base_len` and `len`. -/
def measure (m : Mem) (pml4t str : Nat) : Option (Nat × Nat) :=
  let ptr := vmPhysAddr m pml4t str
  let rest := pageSize - (ptr &&& (pageSize - 1))
  let len := strnlen m ptr rest
  if len = rest then (measurePages m pml4t (2 ^ 52 + 1) (alignUp str pageSize) len).map fun total => (len, total)
  else some (len, len)

/-- The argument area is made if there is none; an error comes with the size that has been asked for. -/
def makeArea (env : MmapEnv) (s : MmState) (exec : ElfExec) (len : Nat) :
    Option (MmState × ElfExec × Option (Nat × Errno)) :=
  if exec.argData = 0 then
    let bytes := alignUp len pageSize
    match sysMmap env s 0 bytes (protRead ||| protWrite) (mapPrivate ||| mapAnonymous) (-1) 0 with
    | none => none
    | some (s, .error e) => some (s, exec, some (bytes, e))
    | some (s, .ok a) => some (s, { exec with argData := a, argPtr := a, argLen := bytes }, none)
  else some (s, exec, none)

/-- The argument area is lengthened if the string reaches its end. -/
def growArea (s : MmState) (exec : ElfExec) (len : Nat) : MmState × Option (Nat × Errno) :=
  if exec.argLen ≤ sub64 (add64 exec.argPtr len) exec.argData then
    let request := sub64 (add64 (add64 exec.argPtr len) 1) exec.argData
    let r := expandMmap s exec.pml4t exec.argData request
    (r.1, r.2.map fun e => (request, e))
  else (s, none)

/-- The part of `copy_string` that finds room for `len` bytes and a zero byte. -/
def reserve (env : MmapEnv) (s : MmState) (exec : ElfExec) (len : Nat) :
    Option (MmState × ElfExec × Option (Nat × Errno)) :=
  match makeArea env s exec len with
  | none => none
  | some (s, exec, some e) => some (s, exec, some e)
  | some (s, exec, none) => some ((growArea s exec len).1, exec, (growArea s exec len).2)

/-- What has been copied: the memory, `arg_ptr`, the addresses that have been stored to, and whether all of them are
mapped. -/
structure Copying where
  mem : Mem
  argPtr : Nat
  stores : List Nat
  ok : Bool

/-- Stores bytes at `arg_ptr`, which is set to `next`. -/
def Copying.store (x : Copying) (pml4t : Nat) (data : List UInt8) (next : Nat) : Copying :=
  if x.ok = false then x
  else
    let w := storeUser pml4t x.mem x.argPtr data
    ⟨w.1, next, x.stores ++ w.2.1, w.2.2⟩

/-- `mempcpy` to `arg_ptr` from the physical address of `s` in the old address space. -/
def Copying.copy (x : Copying) (exec : ElfExec) (s n : Nat) : Copying :=
  x.store exec.pml4t (readBytes x.mem (vmPhysAddr x.mem exec.oldPml4t s) n) (mempcpyEnd x.argPtr n)

/-- The loop that copies whole pages, with the values of `s` and `base_len`. -/
def copyPages (exec : ElfExec) (len : Nat) : Nat → Nat → Nat → Copying → Copying × Nat × Nat
  | 0, s, baseLen, x => (x, s, baseLen)
  | fuel + 1, s, baseLen, x =>
    if baseLen ≤ len - pageSize then
      copyPages exec len fuel (add64 s pageSize) (baseLen + pageSize) (x.copy exec s pageSize)
    else (x, s, baseLen)

/-- The part of `copy_string` that copies the string. -/
def copyBytes (exec : ElfExec) (str baseLen len : Nat) (m : Mem) : Copying :=
  let x := Copying.copy ⟨m, exec.argPtr, [], true⟩ exec str baseLen
  let s := alignUp str pageSize
  let r := if pageSize ≤ len then copyPages exec len (len / pageSize) s baseLen x else (x, s, baseLen)
  let y := r.1.copy exec r.2.1 (len - r.2.2)
  y.store exec.pml4t [0] (add64 y.argPtr 1)

/-- How a call of `copy_string` ends; the addresses are those that it has stored to. -/
inductive CopyResult
  | copied (addr : Nat) (stores : List Nat)
  | refused (request : Nat) (e : Errno)
  | fault
  deriving DecidableEq

def copyString (env : MmapEnv) (s : MmState) (exec : ElfExec) (str : Nat) : Option (MmState × ElfExec × CopyResult) :=
  match measure s.vm.mem exec.oldPml4t str with
  | none => none
  | some (baseLen, len) =>
    match reserve env s exec len with
    | none => none
    | some (s, exec, some (request, e)) => some (s, exec, .refused request e)
    | some (s, exec, none) =>
      let x := copyBytes exec str baseLen len s.vm.mem
      some ({ s with vm := { s.vm with mem := x.mem } }, { exec with argPtr := x.argPtr },
        if x.ok then .copied exec.argPtr x.stores else .fault)

/-! ### Pages of any size -/

private theorem pageAddr_page {v w : Nat} {fin : Nat × Nat} (hp : hasFlag fin.2 pageFlagPresent = true)
    (h : w / pageSize = v / pageSize) : pageAddr w fin = pageSize * (pageAddr v fin / pageSize) + w % pageSize := by
  obtain ⟨k, h12, h64, hspan⟩ : ∃ k, 12 ≤ k ∧ k < 64 ∧ spanOf fin.1 = 2 ^ k := by
    unfold spanOf
    split
    · exact ⟨30, by decide, by decide, by decide⟩
    · split
      · exact ⟨21, by decide, by decide, by decide⟩
      · exact ⟨12, by decide, by decide, by decide⟩
  have hval : ∀ u, pageAddr u fin = alignDown fin.2 (2 ^ k) ||| u % 2 ^ k := fun u => by
    rw [pageAddr, if_neg (by simp [hp]), hspan, Nat.and_two_pow_sub_one_eq_mod]
  have hlow : pageAddr w fin % pageSize = w % pageSize := by
    rw [hval, show pageSize = 2 ^ 12 from rfl]
    apply Nat.eq_of_testBit_eq
    intro i
    rw [Nat.testBit_mod_two_pow, Nat.testBit_or, testBit_alignDown h64, Nat.testBit_mod_two_pow,
      Nat.testBit_mod_two_pow]
    by_cases hi : i < 12
    · rw [decide_eq_true (show i < k by omega), Bool.not_true, Bool.and_false, Bool.and_false, Bool.false_or,
        Bool.true_and]
    · rw [decide_eq_false hi, Bool.false_and, Bool.false_and]
  have hhigh : pageAddr w fin / pageSize = pageAddr v fin / pageSize := by
    rw [hval, hval, show pageSize = 2 ^ 12 from rfl]
    rw [show pageSize = 2 ^ 12 from rfl] at h
    apply Nat.eq_of_testBit_eq
    intro i
    have hbit := congrArg (fun x => x.testBit i) h
    simp only [Nat.testBit_div_two_pow] at hbit
    rw [Nat.testBit_div_two_pow, Nat.testBit_div_two_pow, Nat.testBit_or, Nat.testBit_or, Nat.testBit_mod_two_pow,
      Nat.testBit_mod_two_pow, hbit]
  rw [← hhigh, ← hlow]
  exact (Nat.div_add_mod _ _).symm

private theorem vmPhysAddr_page {m : Mem} {r v w : Nat} (hv : leaf m r v ≠ none) (h : w / pageSize = v / pageSize) :
    vmPhysAddr m r w = pageSize * (vmPhysAddr m r v / pageSize) + w % pageSize := by
  obtain ⟨fin, hfin⟩ := Option.ne_none_iff_exists'.1 hv
  rw [vmPhysAddr_leaf, vmPhysAddr_leaf, leaf_congr h, hfin, Option.elim_some, Option.elim_some,
    pageAddr_page (leaf_some hfin).2.2 h]

/-! ### The string in the old address space -/

/-- The address shows the byte. -/
structure OldByte (vm : Vm) (ro : Nat) (w : Nat) (b : UInt8) : Prop where
  mapped : leaf vm.mem ro w ≠ none
  byte : vm.mem (vmPhysAddr vm.mem ro w) = b

/-- The string at `str` is `text`, and a zero byte after it. -/
structure OldText (vm : Vm) (ro : Nat) (str : Nat) (text : List UInt8) : Prop where
  bytes : ∀ i ≤ text.length, OldByte vm ro (str + i) (text.getD i 0)
  nonzero : 0 ∉ text
  top : str + text.length < 2 ^ 47

theorem OldText.phys {vm : Vm} {ro str : Nat} {text : List UInt8} (h : OldText vm ro str text) {i j : Nat}
    (hi : i ≤ text.length) (hj : (str + i) % pageSize + j < pageSize) :
    vmPhysAddr vm.mem ro (str + i + j) = vmPhysAddr vm.mem ro (str + i) + j := by
  have hpage : (str + i + j) / pageSize = (str + i) / pageSize := by
    simp only [pageSize] at *
    omega
  have hself := vmPhysAddr_page (h.bytes i hi).mapped (Eq.refl ((str + i) / pageSize))
  rw [vmPhysAddr_page (h.bytes i hi).mapped hpage]
  simp only [pageSize] at *
  omega

/-! ### Measuring -/

def Twice (str n : Nat) : Prop := pageSize ∣ str ∧ pageSize ≤ n

instance (str n : Nat) : Decidable (Twice str n) := inferInstanceAs (Decidable (_ ∧ _))

def copiedLen (str n : Nat) : Nat := if Twice str n then n + pageSize else n

private theorem strnlen_spec {m : Mem} {p k j : Nat} (hne : ∀ i < j, i < k → m (p + i) ≠ 0)
    (hz : j < k → m (p + j) = 0) :
    strnlen m p k = min j k := by
  induction k generalizing p j with
  | zero => exact (Nat.min_zero j).symm
  | succ k ih =>
    unfold strnlen
    cases j with
    | zero =>
      rw [if_pos (show m p = 0 from hz (Nat.zero_lt_succ k)), Nat.zero_min]
    | succ j =>
      rw [if_neg (show m p ≠ 0 from hne 0 (Nat.zero_lt_succ j) (Nat.zero_lt_succ k)), Nat.succ_min_succ,
        ih (fun i hi hik => ?_) fun hj => ?_]
      · rw [Nat.add_assoc, Nat.add_comm 1 i]
        exact hne (i + 1) (Nat.succ_lt_succ hi) (Nat.succ_lt_succ hik)
      · rw [Nat.add_assoc, Nat.add_comm 1 j]
        exact hz (Nat.succ_lt_succ hj)

section

variable {vm : Vm} {ro str : Nat} {text : List UInt8} (h : OldText vm ro str text)
include h

private theorem OldText.strnlen {i k : Nat} (hi : i ≤ text.length) (hk : (str + i) % pageSize + k ≤ pageSize) :
    strnlen vm.mem (vmPhysAddr vm.mem ro (str + i)) k = min (text.length - i) k := by
  refine strnlen_spec (fun j hj hjk => ?_) fun hlt => ?_
  · have hbyte := (h.bytes (i + j) (by omega)).byte
    rw [← Nat.add_assoc, h.phys hi (by omega), List.getD_eq_getElem _ _ (by omega)] at hbyte
    rw [hbyte]
    exact fun h0 => h.nonzero (h0 ▸ List.getElem_mem _)
  · have hbyte := (h.bytes (i + (text.length - i)) (by omega)).byte
    rw [← Nat.add_assoc, h.phys hi (by omega), List.getD_eq_default _ _ (by omega)] at hbyte
    exact hbyte

private theorem OldText.measurePages {fuel i len : Nat} (hi : i ≤ text.length) (hd : pageSize ∣ str + i)
    (hfuel : (text.length - i) / pageSize < fuel) (hlen : len + (text.length - i) < 2 ^ 64) :
    measurePages vm.mem ro fuel (str + i) len = some (len + (text.length - i)) := by
  induction fuel generalizing i len with
  | zero => exact absurd hfuel (Nat.not_lt_zero _)
  | succ fuel ih =>
    have htop := h.top
    have hmod : (str + i) % pageSize = 0 := Nat.mod_eq_zero_of_dvd hd
    unfold Kernel.measurePages
    rw [h.strnlen hi (by omega)]
    by_cases hshort : text.length - i < pageSize
    · rw [Nat.min_eq_left (by omega), if_pos hshort, add64_of_lt hlen]
    · rw [Nat.min_eq_right (by omega), if_neg (Nat.lt_irrefl _), add64_of_lt (by omega), add64_of_lt (by
        simp only [pageSize] at *
        omega), Nat.add_assoc, ih (by omega) (by rw [← Nat.add_assoc]; exact Nat.dvd_add hd (Nat.dvd_refl _)) ?_
        (by omega)]
      · rw [show len + pageSize + (text.length - (i + pageSize)) = len + (text.length - i) by omega]
      · simp only [pageSize] at *
        omega

theorem OldText.measure : measure vm.mem ro str =
    some (min text.length (pageSize - str % pageSize), copiedLen str text.length) := by
  have htop := h.top
  have hrest : vmPhysAddr vm.mem ro str &&& (pageSize - 1) = str % pageSize := by
    have hself := vmPhysAddr_page (h.bytes 0 (Nat.zero_le _)).mapped (Eq.refl ((str + 0) / pageSize))
    rw [Nat.add_zero] at hself
    rw [and_page, hself]
    simp only [pageSize]
    omega
  have hmod : str % pageSize < pageSize := Nat.mod_lt _ (by decide)
  have hfirst := @OldText.strnlen vm ro str text h 0 (pageSize - str % pageSize) (Nat.zero_le _) (by
    rw [Nat.add_zero]
    omega)
  rw [Nat.add_zero, Nat.sub_zero] at hfirst
  unfold Kernel.measure
  dsimp only
  rw [hrest, hfirst]
  by_cases hshort : text.length < pageSize - str % pageSize
  · rw [Nat.min_eq_left (by omega), if_neg (by omega), copiedLen, if_neg]
    rintro ⟨hd, hle⟩
    rw [Nat.mod_eq_zero_of_dvd hd] at hshort
    omega
  · rw [Nat.min_eq_right (by omega), if_pos rfl]
    obtain ⟨hd, h1, h2⟩ := alignUp_page_spec (x := str) (by simp only [pageSize]; omega)
    obtain ⟨fuel, hfuel⟩ : ∃ fuel, 2 ^ 52 + 1 = fuel ∧ 2 ^ 52 < fuel := ⟨_, rfl, Nat.lt_succ_self _⟩
    obtain ⟨i, hi⟩ := Nat.exists_eq_add_of_le h1
    rw [hi] at hd h2 ⊢
    by_cases htwice : Twice str text.length
    · have hi0 : i = 0 := by
        obtain ⟨hd', -⟩ := htwice
        simp only [pageSize] at *
        omega
      subst hi0
      have hmod0 : str % pageSize = 0 := Nat.mod_eq_zero_of_dvd htwice.1
      rw [hfuel.1, h.measurePages (Nat.zero_le _) hd (by simp only [pageSize]; omega)
        (by simp only [pageSize]; omega), hmod0, copiedLen, if_pos htwice, Option.map_some]
      simp only [Nat.sub_zero, Nat.add_comm]
    · have hieq : i = pageSize - str % pageSize := by
        unfold Twice at htwice
        simp only [pageSize] at *
        omega
      rw [hfuel.1, h.measurePages (by omega) hd (by simp only [pageSize]; omega) (by simp only [pageSize]; omega),
        copiedLen, if_neg htwice, Option.map_some, hieq, Nat.add_sub_of_le (by omega)]

end

/-! ### Copying -/

private theorem mempcpyEnd_bounds {p n : Nat} (h : p + 2 * n < 2 ^ 64) :
    p + n ≤ mempcpyEnd p n ∧ mempcpyEnd p n ≤ p + 2 * n ∧ (0 < n → p + n < mempcpyEnd p n) := by
  unfold mempcpyEnd
  rw [add64_of_lt (show p + n < 2 ^ 64 by omega)]
  split
  · rw [add64_of_lt (by omega)]
    omega
  · rw [add64_of_lt (by omega)]
    omega

private theorem mempcpyEnd_zero {p : Nat} (h : p < 2 ^ 64) : mempcpyEnd p 0 = p := by
  obtain ⟨h1, h2, -⟩ := @mempcpyEnd_bounds p 0 (by omega)
  omega

section

variable {x : Copying} {exec : ElfExec}

private theorem Copying.store_ok {r next : Nat} {data : List UInt8} (h : (x.store r data next).ok = true) :
    x.ok = true ∧ (x.store r data next).argPtr = next := by
  unfold Copying.store at h ⊢
  split at h
  · rename_i hx
    rw [hx] at h
    cases h
  · rename_i hx
    rw [if_neg hx]
    exact ⟨by simpa using hx, rfl⟩

/-- The loop takes `arg_ptr` on by at least as many bytes as it copies, and by at most twice as many. -/
private theorem copyPages_ok {fuel s baseLen len : Nat} (h : (copyPages exec len fuel s baseLen x).1.ok = true)
    (hlen : baseLen ≤ len) (hpage : pageSize ≤ len) (htop : x.argPtr + 2 * (len - baseLen) < 2 ^ 64) : x.ok = true ∧
      baseLen ≤ (copyPages exec len fuel s baseLen x).2.2 ∧ (copyPages exec len fuel s baseLen x).2.2 ≤ len ∧
      x.argPtr + ((copyPages exec len fuel s baseLen x).2.2 - baseLen) ≤
        (copyPages exec len fuel s baseLen x).1.argPtr ∧
      (copyPages exec len fuel s baseLen x).1.argPtr ≤
        x.argPtr + 2 * ((copyPages exec len fuel s baseLen x).2.2 - baseLen) := by
  induction fuel generalizing s baseLen x with
  | zero =>
    refine ⟨h, Nat.le_refl _, hlen, ?_, ?_⟩
    · simp only [copyPages]
      omega
    · simp only [copyPages]
      omega
  | succ fuel ih =>
    unfold copyPages at h ⊢
    by_cases hle : baseLen ≤ len - pageSize
    · rw [if_pos hle] at h ⊢
      obtain ⟨h1, h2, -⟩ := @mempcpyEnd_bounds x.argPtr pageSize (by omega)
      -- the page that is copied first
      have hstep : (x.copy exec s pageSize).ok = true → x.ok = true ∧
          (x.copy exec s pageSize).argPtr = mempcpyEnd x.argPtr pageSize := fun hx => Copying.store_ok hx
      have hptr : (x.copy exec s pageSize).argPtr ≤ x.argPtr + 2 * pageSize := by
        unfold Copying.copy Copying.store
        split
        · omega
        · exact h2
      obtain ⟨hok, h3, h4, h5, h6⟩ := ih h (by omega) (by omega)
      obtain ⟨hx, heq⟩ := hstep hok
      rw [heq] at h5 h6
      exact ⟨hx, by omega, h4, by omega, by omega⟩
    · rw [if_neg hle] at h ⊢
      exact ⟨h, Nat.le_refl _, hlen, by dsimp only; omega, by dsimp only; omega⟩

end

/-- If a string that is not empty is copied without a fault, `arg_ptr` is too far behind it. -/
theorem copyBytes_ok {exec : ElfExec} {str baseLen len : Nat} {m : Mem} (hpos : 0 < baseLen) (hlen : baseLen ≤ len)
    (htop : exec.argPtr + 2 * len + 1 < 2 ^ 64) (h : (copyBytes exec str baseLen len m).ok = true) :
    exec.argPtr + len + 1 < (copyBytes exec str baseLen len m).argPtr := by
  unfold copyBytes at h ⊢
  dsimp only at h ⊢
  generalize hfirst : Copying.copy ⟨m, exec.argPtr, [], true⟩ exec str baseLen = x at h ⊢
  obtain ⟨hy, hend⟩ := Copying.store_ok h
  rw [hend]
  obtain ⟨hr, hlast⟩ := Copying.store_ok hy
  have hlast' : ∀ z : Copying, ∀ s n, (z.copy exec s n).ok = true →
      (z.copy exec s n).argPtr = mempcpyEnd z.argPtr n := fun z s n hz => (Copying.store_ok hz).2
  rw [hlast' _ _ _ hy]
  -- where `arg_ptr` is before the last call of `mempcpy`
  have hmid : ∃ x' s' b', (if pageSize ≤ len then copyPages exec len (len / pageSize) (alignUp str pageSize) baseLen x
      else (x, alignUp str pageSize, baseLen)) = (x', s', b') ∧ b' ≤ len ∧ exec.argPtr + b' < x'.argPtr ∧
      x'.argPtr ≤ exec.argPtr + 2 * b' := by
    obtain ⟨-, h2, h3⟩ := @mempcpyEnd_bounds exec.argPtr baseLen (by omega)
    have h3 := h3 hpos
    by_cases hpage : pageSize ≤ len
    · rw [if_pos hpage] at hr ⊢
      have hptr : x.argPtr = mempcpyEnd exec.argPtr baseLen := by
        rw [← hfirst]
        unfold Copying.copy Copying.store
        rw [if_neg (by simp)]
      obtain ⟨-, h4, h5, h6, h7⟩ := copyPages_ok hr hlen hpage (by omega)
      generalize copyPages exec len (len / pageSize) (alignUp str pageSize) baseLen x = w at h4 h5 h6 h7
      exact ⟨w.1, w.2.1, w.2.2, rfl, h5, by omega, by omega⟩
    · rw [if_neg hpage] at hr ⊢
      have hptr : x.argPtr = mempcpyEnd exec.argPtr baseLen := by
        rw [← hfirst]
        unfold Copying.copy Copying.store
        rw [if_neg (by simp)]
      exact ⟨_, _, _, rfl, hlen, by omega, by omega⟩
  obtain ⟨x', s', b', heq, hb, h1, h2⟩ := hmid
  rw [heq]
  dsimp only
  obtain ⟨h3, h4, -⟩ := @mempcpyEnd_bounds x'.argPtr (len - b') (by omega)
  rw [add64_of_lt (by omega)]
  omega

theorem copyBytes_empty {exec : ElfExec} {str : Nat} {m : Mem} (hlt : exec.argPtr + 1 < 2 ^ 64) :
    copyBytes exec str 0 0 m = ⟨(storeUser exec.pml4t m exec.argPtr [0]).1, exec.argPtr + 1,
      (storeUser exec.pml4t m exec.argPtr [0]).2.1, (storeUser exec.pml4t m exec.argPtr [0]).2.2⟩ := by
  have hcopy : ∀ s, Copying.copy ⟨m, exec.argPtr, [], true⟩ exec s 0 = ⟨m, exec.argPtr, [], true⟩ := by
    intro s
    unfold Copying.copy Copying.store
    rw [if_neg (by simp), mempcpyEnd_zero (by dsimp only; omega)]
    rfl
  unfold copyBytes
  dsimp only
  rw [hcopy, if_neg (by decide), Nat.sub_self, hcopy]
  unfold Copying.store
  rw [if_neg (by simp)]
  dsimp only
  rw [add64_of_lt hlt, List.nil_append]

end Pml.Kernel
