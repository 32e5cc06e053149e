import Mathlib.Data.Nat.Bitwise
import Pml.Arch.PageFrames
import Pml.Lib.ByteMemory
import Pml.Lib.RadixWalk

/-!
# Page tables (`arch/x86_64/mm.c`, `include/pml/x86_64/memory.h`)

A page structure is a page of 512 little-endian words in physical memory.  An entry that is present leads to the page
frame whose address it holds; the low twelve bits are flags.  Physical memory is a map from addresses to bytes: every
page keeps what was last written to it.
-/

namespace Pml.Arch

open ByteMemory Radix

/-! ### Entries and flags -/

def pageFlagPresent : Nat := 1 <<< 0
def pageFlagRw : Nat := 1 <<< 1
def pageFlagUser : Nat := 1 <<< 2
def pageFlagSize : Nat := 1 <<< 7
def pageFlagCow : Nat := 1 <<< 9

def hasFlag (e flag : Nat) : Bool := e &&& flag != 0

def ptEntry (m : Mem) (t i : Nat) : Nat := readLE m (t + 8 * i) 8

def setEntry (m : Mem) (t i e : Nat) : Mem := writeLE m (t + 8 * i) 8 e

def child (e : Nat) : Option Nat := if hasFlag e pageFlagPresent then some (alignDown e pageSize) else none

/-- The entry of a copied table: `np[i] = cp[i] | PAGE_FLAG_COW; np[i] &= ~PAGE_FLAG_RW`. -/
def cowEntry (e : Nat) : Nat := (e ||| pageFlagCow) &&& not64 pageFlagRw

/-- The mark of `thread_clone`: `e &= ~PAGE_FLAG_RW; e |= PAGE_FLAG_COW`. -/
def markCow (e : Nat) : Nat := (e &&& not64 pageFlagRw) ||| pageFlagCow

/-- The entry for the copied page: `e = page | PAGE_FLAG_RW | (e & (PAGE_SIZE - 1)); e &= ~PAGE_FLAG_COW`. -/
def copiedEntry (page e : Nat) : Nat := (page ||| pageFlagRw ||| (e &&& (pageSize - 1))) &&& not64 pageFlagCow

private theorem hasFlag_eq (e k : Nat) : hasFlag e (1 <<< k) = e.testBit k := by
  unfold hasFlag
  rw [Nat.one_shiftLeft, Nat.and_two_pow]
  cases e.testBit k
  · simp
  · simp

theorem hasFlag_present (e : Nat) : hasFlag e pageFlagPresent = e.testBit 0 := hasFlag_eq e 0

theorem hasFlag_rw (e : Nat) : hasFlag e pageFlagRw = e.testBit 1 := hasFlag_eq e 1

theorem hasFlag_user (e : Nat) : hasFlag e pageFlagUser = e.testBit 2 := hasFlag_eq e 2

theorem hasFlag_size (e : Nat) : hasFlag e pageFlagSize = e.testBit 7 := hasFlag_eq e 7

private theorem hasFlag_cow (e : Nat) : hasFlag e pageFlagCow = e.testBit 9 := hasFlag_eq e 9

private theorem testBit_one_shiftLeft (k i : Nat) : (1 <<< k).testBit i = decide (k = i) := by
  rw [Nat.one_shiftLeft, Nat.testBit_two_pow]

private theorem rw_lt : pageFlagRw < 2 ^ 64 := by decide

private theorem cow_lt : pageFlagCow < 2 ^ 64 := by decide

private theorem testBit_of_lt {e i : Nat} (he : e < 2 ^ 64) (hi : 64 ≤ i) : e.testBit i = false :=
  Nat.testBit_lt_two_pow (Nat.lt_of_lt_of_le he (Nat.pow_le_pow_right (by decide) hi))

theorem testBit_cowEntry {e i : Nat} (he : e < 2 ^ 64) :
    (cowEntry e).testBit i = (decide (i = 9) || (e.testBit i && !decide (i = 1))) := by
  rw [cowEntry, pageFlagCow, Nat.testBit_and, Nat.testBit_or, testBit_not64 rw_lt, pageFlagRw, testBit_one_shiftLeft,
    testBit_one_shiftLeft]
  by_cases h9 : i = 9
  · subst h9; simp
  · by_cases h1 : i = 1
    · subst h1; simp
    · by_cases h64 : i < 64
      · simp [h9, h1, h64, Ne.symm h9, Ne.symm h1]
      · simp [h9, Ne.symm h9, testBit_of_lt he (Nat.le_of_not_lt h64)]

theorem markCow_eq {e : Nat} (he : e < 2 ^ 64) : markCow e = cowEntry e := by
  apply Nat.eq_of_testBit_eq
  intro i
  rw [testBit_cowEntry he, markCow, pageFlagCow, Nat.testBit_or, Nat.testBit_and, testBit_not64 rw_lt, pageFlagRw,
    testBit_one_shiftLeft, testBit_one_shiftLeft]
  by_cases h9 : i = 9
  · subst h9; simp
  · by_cases h64 : i < 64
    · simp [h9, h64, Ne.symm h9, eq_comm]
    · simp [h9, Ne.symm h9, testBit_of_lt he (Nat.le_of_not_lt h64)]

theorem testBit_copiedEntry {page e i : Nat} (hp : page < 2 ^ 64) :
    (copiedEntry page e).testBit i =
      (!decide (i = 9) && (page.testBit i || decide (i = 1) || (e.testBit i && decide (i < 12)))) := by
  have e4 : pageSize - 1 = 2 ^ 12 - 1 := rfl
  rw [copiedEntry, Nat.testBit_and, Nat.testBit_or, Nat.testBit_or, Nat.testBit_and, testBit_not64 cow_lt, e4,
    Nat.testBit_two_pow_sub_one, pageFlagRw, pageFlagCow, testBit_one_shiftLeft, testBit_one_shiftLeft]
  by_cases h9 : i = 9
  · subst h9; simp
  · by_cases h64 : i < 64
    · simp [h9, h64, Ne.symm h9, eq_comm]
    · simp [h9, testBit_of_lt hp (Nat.le_of_not_lt h64),
        show i ≠ 1 by omega, show ¬i < 12 by omega, Ne.symm h9, show ¬1 = i by omega]

theorem alignDown_eq_of_testBit {x y : Nat} (h : ∀ i, 12 ≤ i → i < 64 → x.testBit i = y.testBit i) :
    alignDown x pageSize = alignDown y pageSize := by
  apply Nat.eq_of_testBit_eq
  intro i
  have e : pageSize = 2 ^ 12 := rfl
  rw [e, testBit_alignDown (by decide), testBit_alignDown (by decide)]
  by_cases h1 : 12 ≤ i
  · by_cases h2 : i < 64
    · rw [h i h1 h2]
    · simp [h2]
  · simp [show i < 12 by omega]

theorem pageSize_dvd_alignDown (x : Nat) : pageSize ∣ alignDown x pageSize := by
  have e : pageSize = 2 ^ 12 := rfl
  rw [e, Nat.dvd_iff_mod_eq_zero]
  apply Nat.eq_of_testBit_eq
  intro i
  rw [Nat.testBit_mod_two_pow, testBit_alignDown (by decide)]
  by_cases h : i < 12 <;> simp [h]

theorem alignDown_of_dvd {x : Nat} (hx : x < 2 ^ 64) (h : pageSize ∣ x) : alignDown x pageSize = x := by
  obtain ⟨k, rfl⟩ := h
  apply Nat.eq_of_testBit_eq
  intro i
  have e : pageSize = 2 ^ 12 := rfl
  rw [e] at hx ⊢
  rw [testBit_alignDown (by decide), Nat.testBit_two_pow_mul]
  by_cases h1 : i < 12
  · simp [h1]
  · by_cases h2 : i < 64
    · simp [h1, h2]
    · have h3 := testBit_of_lt hx (show 64 ≤ i by omega)
      rw [Nat.testBit_two_pow_mul] at h3
      simp [h2, h3]

section

variable {e : Nat} (he : e < 2 ^ 64)
include he

theorem child_cowEntry : child (cowEntry e) = child e := by
  have h1 : hasFlag (cowEntry e) pageFlagPresent = hasFlag e pageFlagPresent := by
    rw [hasFlag_present, hasFlag_present, testBit_cowEntry he]; simp
  have h2 : alignDown (cowEntry e) pageSize = alignDown e pageSize := by
    refine alignDown_eq_of_testBit fun i h1 h2 => ?_
    rw [testBit_cowEntry he]
    simp [show i ≠ 9 by omega, show i ≠ 1 by omega]
  rw [child, child, h1, h2]

theorem cowEntry_cow : hasFlag (cowEntry e) pageFlagCow = true := by
  rw [hasFlag_cow, testBit_cowEntry he]; simp

theorem cowEntry_rw : hasFlag (cowEntry e) pageFlagRw = false := by
  rw [hasFlag_rw, testBit_cowEntry he]; simp

theorem cowEntry_user : hasFlag (cowEntry e) pageFlagUser = hasFlag e pageFlagUser := by
  rw [hasFlag_user, hasFlag_user, testBit_cowEntry he]; simp

theorem cowEntry_size : hasFlag (cowEntry e) pageFlagSize = hasFlag e pageFlagSize := by
  rw [hasFlag_size, hasFlag_size, testBit_cowEntry he]; simp

end

section

variable {page : Nat} (e : Nat) (hp : page < 2 ^ 64) (hdvd : pageSize ∣ page)
include hp hdvd

private theorem testBit_page {i : Nat} (hi : i < 12) : page.testBit i = false := by
  rw [← alignDown_of_dvd hp hdvd]
  have e4 : pageSize = 2 ^ 12 := rfl
  rw [e4, testBit_alignDown (by decide)]
  simp [hi]

theorem child_copiedEntry (hpres : hasFlag e pageFlagPresent = true) : child (copiedEntry page e) = some page := by
  rw [hasFlag_present] at hpres
  have h1 : hasFlag (copiedEntry page e) pageFlagPresent = true := by
    rw [hasFlag_present, testBit_copiedEntry hp, hpres]; simp
  have h2 : alignDown (copiedEntry page e) pageSize = alignDown page pageSize := by
    refine alignDown_eq_of_testBit fun i h1 h2 => ?_
    rw [testBit_copiedEntry hp]
    simp [show i ≠ 9 by omega, show i ≠ 1 by omega, show ¬i < 12 by omega]
  rw [child, if_pos h1, h2, alignDown_of_dvd hp hdvd]

theorem copiedEntry_user : hasFlag (copiedEntry page e) pageFlagUser = hasFlag e pageFlagUser := by
  rw [hasFlag_user, hasFlag_user, testBit_copiedEntry hp, testBit_page hp hdvd (by decide)]; simp

theorem copiedEntry_size : hasFlag (copiedEntry page e) pageFlagSize = hasFlag e pageFlagSize := by
  rw [hasFlag_size, hasFlag_size, testBit_copiedEntry hp, testBit_page hp hdvd (by decide)]; simp

end

theorem copiedEntry_cow {page : Nat} (e : Nat) (hp : page < 2 ^ 64) :
    hasFlag (copiedEntry page e) pageFlagCow = false := by
  rw [hasFlag_cow, testBit_copiedEntry hp]; simp

theorem copiedEntry_lt {page : Nat} (e : Nat) (hp : page < 2 ^ 64) : copiedEntry page e < 2 ^ 64 := by
  apply Nat.lt_pow_two_of_testBit
  intro i hi
  rw [testBit_copiedEntry hp, testBit_of_lt hp hi]
  simp [show i ≠ 1 by omega, show ¬i < 12 by omega]

theorem cowEntry_lt {e : Nat} (he : e < 2 ^ 64) : cowEntry e < 2 ^ 64 := by
  apply Nat.lt_pow_two_of_testBit
  intro i hi
  rw [testBit_cowEntry he, testBit_of_lt he hi]
  simp [show i ≠ 9 by omega]

/-! ### Reading and writing tables -/

section

variable {m m' : Mem} {t u i j e : Nat}

theorem ptEntry_lt (m : Mem) (t i : Nat) : ptEntry m t i < 2 ^ 64 := readLE_lt m (t + 8 * i) 8

theorem ptEntry_congr (hi : i < 512) (h : ∀ x, t ≤ x → x < t + pageSize → m' x = m x) :
    ptEntry m' t i = ptEntry m t i :=
  readLE_congr fun x h1 h2 => h x (by omega) (by simp only [pageSize]; omega)

theorem page_apart {t u : Nat} (ht : pageSize ∣ t) (hu : pageSize ∣ u) (hne : t ≠ u) :
    t + pageSize ≤ u ∨ u + pageSize ≤ t := by
  obtain ⟨a, rfl⟩ := ht
  obtain ⟨b, rfl⟩ := hu
  simp only [pageSize] at *
  omega

theorem page_div_inj {t u : Nat} (ht : pageSize ∣ t) (hu : pageSize ∣ u) (h : t / pageSize = u / pageSize) :
    t = u := by
  obtain ⟨a, rfl⟩ := ht
  obtain ⟨b, rfl⟩ := hu
  simp only [pageSize] at *
  omega

theorem ptEntry_setEntry_self (he : e < 2 ^ 64) : ptEntry (setEntry m t i e) t i = e := by
  rw [ptEntry, setEntry, readLE_writeLE_self]
  exact Nat.mod_eq_of_lt he

theorem ptEntry_setEntry_of_ne (ht : pageSize ∣ t) (hu : pageSize ∣ u) (hi : i < 512) (hj : j < 512)
    (hne : ¬(u = t ∧ j = i)) : ptEntry (setEntry m t i e) u j = ptEntry m u j := by
  refine readLE_writeLE_disjoint ?_
  by_cases h : u = t
  · subst h
    have hji : j ≠ i := fun h => hne ⟨rfl, h⟩
    omega
  · have hd := page_apart ht hu (Ne.symm h)
    simp only [pageSize] at hd
    omega

theorem setEntry_outside {x : Nat} (hi : i < 512) (h : x < t ∨ t + pageSize ≤ x) : setEntry m t i e x = m x :=
  writeLE_outside (by simp only [pageSize] at h; omega)

end

/-- The page table copy of the page fault handler: `np` is cleared and gets the present entries of `cp`, marked
copy-on-write. -/
def copyTable (m : Mem) (np cp : Nat) : Mem :=
  (List.range 512).foldl (fun m i =>
    if hasFlag (ptEntry m cp i) pageFlagPresent then setEntry m np i (cowEntry (ptEntry m cp i)) else m)
    (fill m np pageSize 0)

def sharedEntry (e : Nat) : Nat := if hasFlag e pageFlagPresent then cowEntry e else 0

theorem copyTable_spec {m : Mem} {np cp : Nat} (hn : pageSize ∣ np) (hc : pageSize ∣ cp) (hne : np ≠ cp) :
    (∀ x, x < np ∨ np + pageSize ≤ x → copyTable m np cp x = m x) ∧
      ∀ i, i < 512 → ptEntry (copyTable m np cp) np i = sharedEntry (ptEntry m cp i) := by
  have hap := page_apart hn hc hne
  -- after `k` rounds the first `k` entries are copied and the others are still zero
  have loop : ∀ k, k ≤ 512 → ∀ m', m' = (List.range k).foldl (fun m i =>
      if hasFlag (ptEntry m cp i) pageFlagPresent then setEntry m np i (cowEntry (ptEntry m cp i)) else m)
      (fill m np pageSize 0) →
      (∀ x, x < np ∨ np + pageSize ≤ x → m' x = m x) ∧
        ∀ i, i < 512 → ptEntry m' np i = if i < k then sharedEntry (ptEntry m cp i) else 0 := by
    intro k
    induction k with
    | zero =>
      rintro - m' rfl
      refine ⟨fun x hx => fill_outside hx, fun i hi => ?_⟩
      exact readLE_fill_zero (by omega) (by simp only [pageSize]; omega)
    | succ k ih =>
      rintro hk m' rfl
      rw [List.range_succ, List.foldl_append]
      generalize hmk : (List.range k).foldl _ _ = mk
      obtain ⟨h1, h2⟩ := ih (by omega) mk hmk.symm
      have hck : ptEntry mk cp k = ptEntry m cp k := ptEntry_congr (by omega) fun x _ _ => h1 x (by omega)
      simp only [List.foldl_cons, List.foldl_nil, hck]
      split
      · rename_i hp
        refine ⟨fun x hx => ?_, fun i hi => ?_⟩
        · rw [setEntry_outside (by omega) hx, h1 x hx]
        · by_cases hik : i = k
          · subst hik
            rw [ptEntry_setEntry_self (cowEntry_lt (ptEntry_lt _ _ _)), if_pos (by omega), sharedEntry, if_pos hp]
          · rw [ptEntry_setEntry_of_ne hn hn (by omega) hi (by omega), h2 i hi]
            have hlt : i < k + 1 ↔ i < k := by omega
            simp only [hlt]
      · rename_i hp
        refine ⟨h1, fun i hi => ?_⟩
        rw [h2 i hi]
        by_cases hik : i = k
        · subst hik
          rw [if_neg (by omega), if_pos (by omega), sharedEntry, if_neg hp]
        · have hlt : i < k + 1 ↔ i < k := by omega
          simp only [hlt]
  obtain ⟨h1, h2⟩ := loop 512 (Nat.le_refl _) _ rfl
  refine ⟨h1, fun i hi => ?_⟩
  rw [copyTable, h2 i hi, if_pos hi]

/-! ### References -/

def refPt (m : Mem) (f : Frames) (pt : Nat) : Frames :=
  (List.range 512).foldl (fun f i =>
    if hasFlag (ptEntry m pt i) pageFlagPresent then refPage f (ptEntry m pt i) else f) f

def refPdt (m : Mem) (f : Frames) (pdt : Nat) : Frames :=
  (List.range 512).foldl (fun f i =>
    let e := ptEntry m pdt i
    if hasFlag e pageFlagPresent ∧ hasFlag e pageFlagSize = false then
      refPt m (refPage f e) (alignDown e pageSize)
    else f) f

def refPdpt (m : Mem) (f : Frames) (pdpt : Nat) : Frames :=
  (List.range 512).foldl (fun f i =>
    let e := ptEntry m pdpt i
    if hasFlag e pageFlagPresent ∧ hasFlag e pageFlagSize = false then
      refPdt m (refPage f e) (alignDown e pageSize)
    else f) f

end Pml.Arch
