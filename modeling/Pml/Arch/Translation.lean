import Pml.Arch.Mapping
import Pml.Lib.LevelWalk

/-!
# The translations of an address space

`vm_phys_addr`, `vm_map_page` and `vm_unmap_page` follow the four indices of an address through the tables of both
halves of an address space, until an entry is not present or leads to a large page.  If the tables form a tree then
the three functions obey the laws of a map: a page that is mapped is translated to its frame, a page that is unmapped
is not translated, and no other translation changes (`translation_laws`).
-/

namespace Pml.Arch

open ByteMemory LevelWalk

/-! ### Translations as ways through the tables -/

def entryAt (m : Mem) (t : Nat) (i : Fin 512) : Nat := ptEntry m t i

/-- The table that an entry of a table of level `n` leads to. -/
def tableOf (n e : Nat) : Option Nat :=
  if hasFlag e pageFlagPresent = true ∧ n ≤ 2 ∧ (n = 0 ∨ hasFlag e pageFlagSize = false) then
    some (alignDown e pageSize)
  else none

def indexAt (v k : Nat) : Fin 512 := ⟨v / 2 ^ k % 512, Nat.mod_lt _ (by decide)⟩

def indices (v : Nat) : List (Fin 512) := [indexAt v 39, indexAt v 30, indexAt v 21, indexAt v 12]

def spanOf (n : Nat) : Nat := if n = 1 then hugePageSize else if n = 2 then largePageSize else pageSize

def pageAddr (v : Nat) (fin : Nat × Nat) : Nat :=
  if hasFlag fin.2 pageFlagPresent = false then 0
  else alignDown fin.2 (spanOf fin.1) ||| (v &&& (spanOf fin.1 - 1))

def leaf (m : Mem) (r v : Nat) : Option (Nat × Nat) :=
  if nonCanonical v then none
  else (final (entryAt m) tableOf 0 r (indices v)).filter fun fin => hasFlag fin.2 pageFlagPresent

theorem index_val (v : Nat) : (indexAt v 39 : Nat) = pml4tIndex v ∧ (indexAt v 30 : Nat) = pdptIndex v ∧
    (indexAt v 21 : Nat) = pdtIndex v ∧ (indexAt v 12 : Nat) = ptIndex v :=
  ⟨(index_eq v 39).symm, (index_eq v 30).symm, (index_eq v 21).symm, (index_eq v 12).symm⟩

theorem tableOf_some {n e : Nat} (hp : hasFlag e pageFlagPresent = true) (hn : n ≤ 2)
    (hs : n = 0 ∨ hasFlag e pageFlagSize = false) : tableOf n e = some (alignDown e pageSize) := if_pos ⟨hp, hn, hs⟩

theorem tableOf_absent {n e : Nat} (hp : hasFlag e pageFlagPresent = false) : tableOf n e = none :=
  if_neg fun h => by simp [hp] at h

theorem tableOf_size {n e : Nat} (hn : n ≠ 0) (hs : hasFlag e pageFlagSize = true) : tableOf n e = none :=
  if_neg fun h => by simp [hn, hs] at h

theorem tableOf_last (e : Nat) : tableOf 3 e = none := if_neg fun h => by simp at h

theorem vmPhysAddr_final (m : Mem) (r v : Nat) : vmPhysAddr m r v =
    if nonCanonical v then 0 else (final (entryAt m) tableOf 0 r (indices v)).elim 0 (pageAddr v) := by
  obtain ⟨i1, i2, i3, i4⟩ := index_val v
  have htrue : ∀ {e}, ¬hasFlag e pageFlagPresent = false → hasFlag e pageFlagPresent = true :=
    fun h => Bool.eq_true_of_not_eq_false h
  unfold vmPhysAddr
  split
  · rfl
  simp only [indices, final, entryAt, i1, i2, i3, i4]
  split
  · rename_i h1
    rw [tableOf_absent h1, Option.elim_none, Option.elim_some, pageAddr, if_pos h1]
  rename_i h1
  rw [tableOf_some (htrue h1) (by decide) (Or.inl rfl), Option.elim_some]
  split
  · rename_i h2
    rw [tableOf_absent h2, Option.elim_none, Option.elim_some, pageAddr, if_pos h2]
  rename_i h2
  split
  · rename_i z2
    rw [tableOf_size (by decide) z2, Option.elim_none, Option.elim_some, pageAddr, if_neg h2]
    rfl
  rename_i z2
  rw [tableOf_some (htrue h2) (by decide) (Or.inr (Bool.eq_false_of_not_eq_true z2)), Option.elim_some]
  split
  · rename_i h3
    rw [tableOf_absent h3, Option.elim_none, Option.elim_some, pageAddr, if_pos h3]
  rename_i h3
  split
  · rename_i z3
    rw [tableOf_size (by decide) z3, Option.elim_none, Option.elim_some, pageAddr, if_neg h3]
    rfl
  rename_i z3
  rw [tableOf_some (htrue h3) (by decide) (Or.inr (Bool.eq_false_of_not_eq_true z3)), Option.elim_some, tableOf_last,
    Option.elim_none, Option.elim_some, pageAddr]
  rfl

theorem vmPhysAddr_leaf (m : Mem) (r v : Nat) : vmPhysAddr m r v = (leaf m r v).elim 0 (pageAddr v) := by
  rw [vmPhysAddr_final, leaf]
  split
  · rfl
  cases final (entryAt m) tableOf 0 r (indices v) with
  | none => rfl
  | some fin =>
    rw [Option.elim_some, Option.filter_some]
    cases hp : hasFlag fin.2 pageFlagPresent with
    | false =>
      rw [pageAddr, if_pos hp]
      rfl
    | true => rfl

/-! ### Addresses with the same indices -/

theorem canonical_iff {v : Nat} : ¬nonCanonical v ↔ v / 2 ^ 48 = v / 2 ^ 47 % 2 * 65535 := by
  have h1 : pml4tIndex v = v / 2 ^ 39 % 512 := index_eq v 39
  have h2 : v / 2 ^ 39 % 512 / 2 ^ 8 % 2 = v / 2 ^ 47 % 2 := by omega
  unfold nonCanonical
  rw [Nat.shiftRight_eq_div_pow, h1, show (0x100 : Nat) = 2 ^ 8 from rfl, Nat.and_two_pow,
    Nat.testBit_eq_decide_div_mod_eq, h2]
  rcases Nat.mod_two_eq_zero_or_one (v / 2 ^ 47) with h | h
  · rw [h]
    simp
  · rw [h]
    simp

private theorem div_top {v w : Nat} (hv : ¬nonCanonical v) (hw : ¬nonCanonical w) :
    w / 2 ^ 39 = v / 2 ^ 39 ↔ v / 2 ^ 39 % 512 = w / 2 ^ 39 % 512 := by
  have top : ∀ {x}, ¬nonCanonical x → x / 2 ^ 39 / 512 = x / 2 ^ 39 % 512 / 256 * 65535 := by
    intro x hx
    rw [canonical_iff] at hx
    omega
  constructor
  · intro h
    rw [h]
  · intro h
    have h1 := top hv
    rw [h, ← top hw] at h1
    omega

private theorem div_next (v w k : Nat) :
    w / 2 ^ k = v / 2 ^ k ↔ w / 2 ^ (k + 9) = v / 2 ^ (k + 9) ∧ v / 2 ^ k % 512 = w / 2 ^ k % 512 := by
  have split : ∀ x, x / 2 ^ (k + 9) = x / 2 ^ k / 512 := fun x => by rw [Nat.pow_add, ← Nat.div_div_eq_div_mul]
  rw [split, split]
  generalize v / 2 ^ k = x
  generalize w / 2 ^ k = y
  omega

private theorem indices_take {v w n : Nat} (hv : ¬nonCanonical v) (hw : ¬nonCanonical w)
    (hn : n = 1 ∨ n = 2 ∨ n = 3) : (indices v).take (n + 1) <+: indices w ↔ w / spanOf n = v / spanOf n := by
  have h1 : spanOf 1 = 2 ^ 30 := rfl
  have h2 : spanOf 2 = 2 ^ 21 := rfl
  have h3 : spanOf 3 = 2 ^ 12 := rfl
  rcases hn with rfl | rfl | rfl
  · rw [h1, div_next v w 30, div_top hv hw]
    simp only [indices, List.take_succ_cons, List.take_zero, List.cons_prefix_cons, List.nil_prefix, and_true,
      indexAt, Fin.mk.injEq]
  · rw [h2, div_next v w 21, div_next v w 30, div_top hv hw]
    simp only [indices, List.take_succ_cons, List.take_zero, List.cons_prefix_cons, List.nil_prefix, and_true,
      indexAt, Fin.mk.injEq, and_assoc]
  · rw [h3, div_next v w 12, div_next v w 21, div_next v w 30, div_top hv hw]
    simp only [indices, List.take_succ_cons, List.take_zero, List.cons_prefix_cons, List.nil_prefix, and_true,
      indexAt, Fin.mk.injEq, and_assoc]

/-! ### Trees of tables -/

/-- The tables of the address space form a tree. -/
structure TableTree (m : Mem) (r : Nat) : Prop where
  aligned : pageSize ∣ r
  tree : Tree (entryAt m) tableOf 3 r

def IsTable (m : Mem) (r g : Nat) : Prop := ∃ p, p.length ≤ 3 ∧ walk (entryAt m) tableOf 0 r p = some g

/-- The next `k` calls of `alloc_page` fail or return page frames outside of `used`, and no frame twice. -/
def Supply (used : Nat → Prop) : Nat → Frames → Prop
  | 0, _ => True
  | k + 1, f => (allocPage f).2 = 0 ∧ Supply used k (allocPage f).1 ∨
    pageSize ∣ (allocPage f).2 ∧ (allocPage f).2 < 2 ^ 64 ∧ ¬used (allocPage f).2 ∧
      Supply (fun g => used g ∨ g = (allocPage f).2) k (allocPage f).1

theorem Supply.mono {used used' : Nat → Prop} {k : Nat} {f : Frames} (h : Supply used k f)
    (hsub : ∀ g, used' g → used g) : Supply used' k f := by
  induction k generalizing used used' f with
  | zero => exact trivial
  | succ k ih =>
    rcases h with ⟨h1, h2⟩ | ⟨h1, h2, h3, h4⟩
    · exact Or.inl ⟨h1, ih h2 hsub⟩
    · refine Or.inr ⟨h1, h2, fun hu => h3 (hsub _ hu), ih h4 fun g hg => hg.imp_left (hsub g)⟩

private theorem Supply.pred {used : Nat → Prop} {k : Nat} {f : Frames} (h : Supply used (k + 1) f) :
    Supply used k f := by
  induction k generalizing used f with
  | zero => exact trivial
  | succ k ih =>
    rcases h with ⟨h1, h2⟩ | ⟨h1, h2, h3, h4⟩
    · exact Or.inl ⟨h1, ih h2⟩
    · exact Or.inr ⟨h1, h2, h3, ih h4⟩

theorem Frames.Wf.supply {f : Frames} (hf : f.Wf) {used : Nat → Prop}
    (hused : ∀ g, used g → f.count (g / pageSize) ≠ 0) (k : Nat) : Supply used k f := by
  induction k generalizing used f with
  | zero => exact trivial
  | succ k ih =>
    obtain ⟨hwf, ⟨h0, hc⟩ | ⟨hd, hle, hz, hc⟩⟩ := allocPage_spec hf
    · exact Or.inl ⟨h0, ih hwf fun g hg => by rw [hc]; exact hused g hg⟩
    · refine Or.inr ⟨hd, ?_, fun hu => hused _ hu hz, ih hwf fun g hg => ?_⟩
      · simp only [pageSize] at hle
        omega
      · rw [hc]
        rcases hg with hg | rfl
        · by_cases he : g / pageSize = (allocPage f).2 / pageSize
          · rw [he, Function.update_self]
            decide
          · rw [Function.update_of_ne he]
            exact hused g hg
        · rw [Function.update_self]
          decide

theorem walk_aligned {m : Mem} {n t f : Nat} {p : List (Fin 512)} (hr : pageSize ∣ t)
    (h : walk (entryAt m) tableOf n t p = some f) : pageSize ∣ f := by
  induction p generalizing n t with
  | nil =>
    obtain rfl : t = f := Option.some.inj h
    exact hr
  | cons i p ih =>
    obtain ⟨u, hu, hrest⟩ := Option.bind_eq_some_iff.1 h
    unfold tableOf at hu
    split at hu
    · obtain rfl := Option.some.inj hu
      exact ih (pageSize_dvd_alignDown _) hrest
    · cases hu

section

variable {m m' : Mem} {r t : Nat} {i : Fin 512} {q : List (Fin 512)} (ht : TableTree m r)
  (hq : walk (entryAt m) tableOf 0 r q = some t) (hlen : q.length ≤ 3)
include ht hq

theorem TableTree.setEntry_changesAt (e : Nat) :
    ChangesAt (entryAt m) (entryAt (setEntry m t i e)) tableOf 3 r t i := by
  intro p f j _ hf hne
  refine ptEntry_setEntry_of_ne (walk_aligned ht.aligned hq) (walk_aligned ht.aligned hf) i.2 j.2 fun h => ?_
  exact hne ⟨h.1, Fin.ext h.2⟩

variable (hsame : ChangesAt (entryAt m) (entryAt m') tableOf 3 r t i)
include hlen hsame

private theorem TableTree.leaf_change {w : Nat} (hno : ¬q ++ [i] <+: indices w) : leaf m' r w = leaf m r w := by
  rw [leaf, leaf, (ht.tree.change hq hlen hsame (by simp [indices]) hno).2]

private theorem TableTree.leaf_at {w : Nat} (hw : ¬nonCanonical w) (hpre : q ++ [i] <+: indices w)
    (hend : tableOf q.length (ptEntry m' t i) = none) : leaf m' r w =
      if hasFlag (ptEntry m' t i) pageFlagPresent then some (q.length, ptEntry m' t i) else none := by
  obtain ⟨s, hs⟩ := hpre
  rw [List.append_assoc, List.singleton_append] at hs
  have hself := ht.tree.walk_self hq hlen hsame
  have hfin := final_of_none hself (by rw [Nat.zero_add]; exact hend) s
  rw [leaf, if_neg hw, ← hs, hfin, Option.filter_some, Nat.zero_add]
  rfl

private theorem TableTree.leaf_absent (hold : hasFlag (ptEntry m t i) pageFlagPresent = false)
    (hnew : hasFlag (ptEntry m' t i) pageFlagPresent = false) (w : Nat) : leaf m' r w = leaf m r w := by
  by_cases hw : nonCanonical w
  · rw [leaf, leaf, if_pos hw, if_pos hw]
  by_cases hpre : q ++ [i] <+: indices w
  · have hrefl : ChangesAt (entryAt m) (entryAt m) tableOf 3 r t i := fun _ _ _ _ _ _ => rfl
    rw [ht.leaf_at hq hlen hsame hw hpre (tableOf_absent hnew),
      ht.leaf_at hq hlen hrefl hw hpre (tableOf_absent hold), if_neg (by simp [hnew]), if_neg (by simp [hold])]
  · exact ht.leaf_change hq hlen hsame hpre

private theorem TableTree.leaf_empty {n : Nat} (hold : hasFlag (ptEntry m t i) pageFlagPresent = false)
    (hnew : tableOf q.length (ptEntry m' t i) = some n) (hempty : ∀ j : Fin 512, ptEntry m' n j = 0) (w : Nat) :
    leaf m' r w = leaf m r w := by
  by_cases hw : nonCanonical w
  · rw [leaf, leaf, if_pos hw, if_pos hw]
  by_cases hpre : q ++ [i] <+: indices w
  · have hrefl : ChangesAt (entryAt m) (entryAt m) tableOf 3 r t i := fun _ _ _ _ _ _ => rfl
    have habsent : hasFlag 0 pageFlagPresent = false := by decide
    rw [ht.leaf_at hq hlen hrefl hw hpre (tableOf_absent hold), hold]
    obtain ⟨s, hs⟩ := hpre
    have hself := ht.tree.walk_self hq hlen hsame
    have hnext : walk (entryAt m') tableOf 0 r (q ++ [i]) = some n := by
      rw [walk_snoc hself, Nat.zero_add]
      exact hnew
    rw [leaf, if_neg hw, ← hs]
    -- the tables end before the indices do
    have hle : q.length ≤ 2 := by
      by_contra h3
      unfold tableOf at hnew
      rw [if_neg fun h => by omega] at hnew
      cases hnew
    cases s with
    | nil =>
      have hl := congrArg List.length hs
      simp only [indices, List.length_append, List.length_cons, List.length_nil] at hl
      omega
    | cons j s =>
      have hj : tableOf (0 + (q ++ [i]).length) (entryAt m' n j) = none := by
        rw [entryAt, hempty j]
        exact tableOf_absent habsent
      rw [final_of_none hnext hj s, Option.filter_some, entryAt, hempty j, habsent]
      rfl
  · exact ht.leaf_change hq hlen hsame hpre

theorem TableTree.cut (hcut : tableOf q.length (ptEntry m' t i) = none) :
    TableTree m' r ∧ ∀ g, IsTable m' r g → IsTable m r g := by
  obtain ⟨h1, h2⟩ := ht.tree.cut hq hlen hsame hcut
  refine ⟨⟨ht.aligned, h1⟩, ?_⟩
  rintro g ⟨p, hp, hg⟩
  exact ⟨p, hp, h2 p g hp hg⟩

omit hlen in
theorem TableTree.keep (hlen : q.length ≤ 3) (hold : tableOf q.length (ptEntry m t i) = none) {g : Nat}
    (hg : IsTable m r g) : IsTable m' r g := by
  obtain ⟨p, hp, hw⟩ := hg
  exact ⟨p, hp, ht.tree.keep hq hlen hsame hold hp hw⟩

omit hlen in
theorem TableTree.isTable_next {n : Nat} (hlen : q.length ≤ 2) (hnew : tableOf q.length (ptEntry m' t i) = some n) :
    IsTable m' r n := by
  refine ⟨q ++ [i], by simp; omega, ?_⟩
  rw [walk_snoc (ht.tree.walk_self hq (by omega) hsame), Nat.zero_add]
  exact hnew

theorem TableTree.grow {n : Nat} (hnew : tableOf q.length (ptEntry m' t i) = some n) (hfresh : ¬IsTable m r n)
    (hempty : ∀ j : Fin 512, ptEntry m' n j = 0) :
    TableTree m' r ∧ ∀ g, IsTable m' r g → IsTable m r g ∨ g = n := by
  have h0 : ∀ j, tableOf (q.length + 1) (entryAt m' n j) = none := by
    intro j
    rw [entryAt, hempty j]
    exact tableOf_absent (by decide)
  obtain ⟨h1, h2⟩ := ht.tree.grow hq hlen hsame hnew (fun p hp hw => hfresh ⟨p, hp, hw⟩) h0
  refine ⟨⟨ht.aligned, h1⟩, ?_⟩
  rintro g ⟨p, hp, hg⟩
  rcases h2 p g hp hg with h3 | ⟨-, h3⟩
  · exact Or.inl ⟨p, hp, h3⟩
  · exact Or.inr h3

end

/-! ### `vm_map_page` -/

/-- Flags in the low twelve bits, without `PAGE_FLAG_PRESENT` and `PAGE_FLAG_SIZE`. -/
structure MapFlags (flags : Nat) : Prop where
  lt : flags < pageSize
  present : hasFlag flags pageFlagPresent = false
  size : hasFlag flags pageFlagSize = false

def newEntry (n flags : Nat) : Nat := n ||| (pageFlagPresent ||| pageFlagRw ||| pageFlagUser ||| flags)

theorem newEntry_spec {n flags : Nat} (hn : n < 2 ^ 64) (hd : pageSize ∣ n) (hf : flags < pageSize) :
    newEntry n flags < 2 ^ 64 ∧ hasFlag (newEntry n flags) pageFlagPresent = true ∧
      hasFlag (newEntry n flags) pageFlagSize = hasFlag flags pageFlagSize ∧
      alignDown (newEntry n flags) pageSize = n := by
  have e : pageSize = 2 ^ 12 := rfl
  have hx : pageFlagPresent ||| pageFlagRw ||| pageFlagUser ||| flags < pageSize := by
    rw [e] at hf ⊢
    exact Nat.or_lt_two_pow (by decide) hf
  have hn7 : n.testBit 7 = false := by
    rw [← alignDown_of_dvd hn hd, e, testBit_alignDown (by decide)]
    simp
  refine ⟨Nat.or_lt_two_pow hn (Nat.lt_of_lt_of_le hx (by decide)), ?_, ?_, alignDown_or_flags hn hd hx⟩
  · rw [newEntry, hasFlag_present, Nat.testBit_or, Nat.testBit_or,
      show (pageFlagPresent ||| pageFlagRw ||| pageFlagUser).testBit 0 = true by decide]
    simp
  · rw [newEntry, hasFlag_size, hasFlag_size, Nat.testBit_or, Nat.testBit_or, hn7,
      show (pageFlagPresent ||| pageFlagRw ||| pageFlagUser).testBit 7 =
        false by decide, Bool.false_or, Bool.false_or]

theorem newTable_entry {n flags : Nat} (hn : n < 2 ^ 64) (hd : pageSize ∣ n) (hf : MapFlags flags) :
    n ||| (pageFlagPresent ||| pageFlagRw ||| pageFlagUser ||| flags) < 2 ^ 64 ∧
      hasFlag (n ||| (pageFlagPresent ||| pageFlagRw ||| pageFlagUser ||| flags)) pageFlagPresent = true ∧
      hasFlag (n ||| (pageFlagPresent ||| pageFlagRw ||| pageFlagUser ||| flags)) pageFlagSize = false ∧
      alignDown (n ||| (pageFlagPresent ||| pageFlagRw ||| pageFlagUser ||| flags)) pageSize = n := by
  obtain ⟨h1, h2, h3, h4⟩ := newEntry_spec hn hd hf.lt
  exact ⟨h1, h2, h3.trans hf.size, h4⟩

/-- What one level of `vm_map_page` does at the table `t` after the indices `q`: the entry is there, no page is left
for a new table, or a new table without entries is added. -/
inductive TableMade (cur : Vm) (r t : Nat) (i : Fin 512) (q : List (Fin 512)) : Vm × Bool → Prop where
  | present (entry : hasFlag (ptEntry cur.mem t i) pageFlagPresent = true) : TableMade cur r t i q (cur, true)
  | failed {m : Mem} (absent : hasFlag (ptEntry cur.mem t i) pageFlagPresent = false)
      (none : (allocPage cur.frames).2 = 0) (same : ChangesAt (entryAt cur.mem) (entryAt m) tableOf 3 r t i)
      (entry : ptEntry m t i = 0) (mem : ∀ x, x < t ∨ t + pageSize ≤ x → m x = cur.mem x) :
      TableMade cur r t i q (⟨m, (allocPage cur.frames).1⟩, false)
  | made {m : Mem} (absent : hasFlag (ptEntry cur.mem t i) pageFlagPresent = false)
      (some : (allocPage cur.frames).2 ≠ 0) (fresh : ¬IsTable cur.mem r (allocPage cur.frames).2)
      (same : ChangesAt (entryAt cur.mem) (entryAt m) tableOf 3 r t i)
      (entry : hasFlag (ptEntry m t i) pageFlagPresent = true)
      (table : tableOf q.length (ptEntry m t i) = Option.some (allocPage cur.frames).2)
      (empty : ∀ j : Fin 512, ptEntry m (allocPage cur.frames).2 j = 0)
      (mem : ∀ x, (x < t ∨ t + pageSize ≤ x) →
        (x < (allocPage cur.frames).2 ∨ (allocPage cur.frames).2 + pageSize ≤ x) → m x = cur.mem x) :
      TableMade cur r t i q (⟨m, (allocPage cur.frames).1⟩, true)

/-- What one level of `vm_map_page` leaves at the table `t` after the indices `q`. -/
structure LevelMade (cur next : Vm) (r t k : Nat) (i : Fin 512) (q : List (Fin 512)) (ok : Bool) : Prop where
  tree : TableTree next.mem r
  same : ∀ w, leaf next.mem r w = leaf cur.mem r w
  supply : Supply (IsTable next.mem r) k next.frames
  table : walk (entryAt next.mem) tableOf 0 r q = some t
  present : ok = true → hasFlag (ptEntry next.mem t i) pageFlagPresent = true

section

variable {cur : Vm} {r t k flags : Nat} {i : Fin 512} {q : List (Fin 512)} (ht : TableTree cur.mem r)
  (hq : walk (entryAt cur.mem) tableOf 0 r q = some t) (hlen : q.length ≤ 2) (hf : MapFlags flags)
  (hsup : Supply (IsTable cur.mem r) (k + 1) cur.frames)
include ht hq hlen hf hsup

theorem makeTable_cases : TableMade cur r t i q (makeTable cur t i flags) := by
  have hi := i.2
  unfold makeTable
  by_cases hpres : hasFlag (ptEntry cur.mem t i) pageFlagPresent = true
  · rw [if_pos hpres]
    exact .present hpres
  rw [if_neg hpres]
  simp only
  have hold : hasFlag (ptEntry cur.mem t i) pageFlagPresent = false := Bool.eq_false_of_not_eq_true hpres
  by_cases h0 : (allocPage cur.frames).2 = 0
  · -- the entry that is not present becomes zero
    rw [if_pos h0, h0]
    exact .failed hold h0 (ht.setEntry_changesAt hq (i := i) 0) (ptEntry_setEntry_self (by decide)) fun x hx =>
      setEntry_outside hi hx
  obtain ⟨hd, hn, hfresh, -⟩ := hsup.resolve_left fun h => h0 h.1
  rw [if_neg h0]
  obtain ⟨n, hndef⟩ : ∃ n, (allocPage cur.frames).2 = n := ⟨_, rfl⟩
  rw [hndef] at hd hn hfresh
  have hta := walk_aligned ht.aligned hq
  have hne : t ≠ n := fun h => hfresh ⟨q, by omega, by rw [hq, h]⟩
  have hap := page_apart hta hd hne
  have hfill : ∀ x, x < n ∨ n + pageSize ≤ x →
      fill (setEntry cur.mem t i n) n pageSize 0 x = setEntry cur.mem t i n x := fun x hx => fill_outside hx
  have hent : ptEntry (fill (setEntry cur.mem t i n) n pageSize 0) t i = n := by
    rw [ptEntry_congr i.2 fun x h1 h2 => hfill x (by omega), ptEntry_setEntry_self hn]
  obtain ⟨he1, he2, he3, he4⟩ := newTable_entry hn hd hf
  rw [hndef, hent]
  generalize n ||| (pageFlagPresent ||| pageFlagRw ||| pageFlagUser ||| flags) = e at he1 he2 he3 he4 ⊢
  have hself : ptEntry (setEntry (fill (setEntry cur.mem t i n) n pageSize 0) t i e) t i = e :=
    ptEntry_setEntry_self he1
  refine .made hold h0 (hndef ▸ hfresh) ?_ (by rw [hself]; exact he2) ?_ ?_ ?_
  · intro p g j hp hg hgj
    have hga := walk_aligned ht.aligned hg
    have hgn : g ≠ n := fun h => hfresh ⟨p, hp, by rw [hg, h]⟩
    have hgj' : ¬(g = t ∧ (j : Nat) = i) := fun h => hgj ⟨h.1, Fin.ext h.2⟩
    have hap' := page_apart hga hd hgn
    show ptEntry _ g j = ptEntry _ g j
    rw [ptEntry_setEntry_of_ne hta hga i.2 j.2 hgj', ptEntry_congr j.2 fun x h1 h2 => hfill x (by omega),
      ptEntry_setEntry_of_ne hta hga i.2 j.2 hgj']
  · rw [hself, hndef, tableOf_some he2 hlen (Or.inr he3), he4]
  · intro j
    have hj := j.2
    rw [hndef, ptEntry_setEntry_of_ne hta hd i.2 j.2 fun h => hne h.1.symm]
    exact readLE_fill_zero (by omega) (by simp only [pageSize]; omega)
  · intro x hx hxn
    rw [hndef] at hxn
    rw [setEntry_outside hi hx, hfill x hxn, setEntry_outside hi hx]

theorem makeTable_made : LevelMade cur (makeTable cur t i flags).1 r t k i q (makeTable cur t i flags).2 := by
  have hmade := makeTable_cases (i := i) ht hq hlen hf hsup
  have h2 : q.length ≤ 3 := by omega
  generalize makeTable cur t i flags = s at hmade ⊢
  cases hmade with
  | present entry => exact ⟨ht, fun _ => rfl, hsup.pred, hq, fun _ => entry⟩
  | failed absent none same entry mem =>
    have hnext : Supply (IsTable cur.mem r) k (allocPage cur.frames).1 := by
      rcases hsup with ⟨-, h2⟩ | ⟨-, -, -, h4⟩
      · exact h2
      · exact h4.mono fun g hg => Or.inl hg
    have hnew := entry ▸ (by decide : hasFlag 0 pageFlagPresent = false)
    obtain ⟨h3, h4⟩ := ht.cut hq h2 same (tableOf_absent hnew)
    exact ⟨h3, ht.leaf_absent hq h2 same absent hnew, hnext.mono h4, ht.tree.walk_self hq h2 same,
      fun h => absurd h Bool.false_ne_true⟩
  | made absent some fresh same entry table empty mem =>
    obtain ⟨-, -, -, hnext⟩ := hsup.resolve_left fun h => some h.1
    obtain ⟨h3, h4⟩ := ht.grow hq h2 same table fresh empty
    exact ⟨h3, ht.leaf_empty hq h2 same absent table empty, hnext.mono h4, ht.tree.walk_self hq h2 same,
      fun _ => entry⟩

end

theorem LevelMade.next {cur next : Vm} {r t k : Nat} {i : Fin 512} {q : List (Fin 512)} {ok : Bool}
    (h : LevelMade cur next r t k i q ok) (hok : ok = true) (hlen : q.length ≤ 2)
    (hsize : q = [] ∨ hasFlag (ptEntry next.mem t i) pageFlagSize = false) :
    walk (entryAt next.mem) tableOf 0 r (q ++ [i]) = some (alignDown (ptEntry next.mem t i) pageSize) := by
  rw [walk_snoc h.table, Nat.zero_add]
  exact tableOf_some (h.present hok) hlen (hsize.imp_left fun h => by rw [h]; rfl)

/-- `vm_map_page` goes through three levels and stores the entry in the last table: what holds at the root and is kept
from level to level holds where it stops. -/
theorem vmMapPage_rule {vm : Vm} {r v physAddr flags : Nat} (hv : ¬nonCanonical v)
    {motive : List (Fin 512) → Nat → Vm → Prop} (root : motive [] r vm)
    (level : ∀ (q : List (Fin 512)) (i : Fin 512) (t : Nat) (cur : Vm), q ++ [i] <+: indices v → q.length ≤ 2 →
      motive q t cur → (makeTable cur t i flags).2 = true →
      (q = [] ∨ hasFlag (ptEntry (makeTable cur t i flags).1.mem t i) pageFlagSize = false) →
      motive (q ++ [i]) (alignDown (ptEntry (makeTable cur t i flags).1.mem t i) pageSize)
      (makeTable cur t i flags).1) :
    (∃ (q : List (Fin 512)) (i : Fin 512) (t : Nat) (cur : Vm), q ++ [i] <+: indices v ∧ q.length ≤ 2 ∧
      motive q t cur ∧
      vmMapPage vm r physAddr v flags = ((makeTable cur t i flags).1, false) ∧ ((makeTable cur t i flags).2 = false ∨
        q ≠ [] ∧ hasFlag (ptEntry (makeTable cur t i flags).1.mem t i) pageFlagSize = true)) ∨
    ∃ t cur, motive [indexAt v 39, indexAt v 30, indexAt v 21] t cur ∧ vmMapPage vm r physAddr v flags =
      ({ cur with mem := setEntry cur.mem t (ptIndex v) (alignDown physAddr pageSize ||| pageFlagPresent ||| flags) },
        true) := by
  obtain ⟨i1, i2, i3, -⟩ := index_val v
  have hfalse : ∀ {b : Bool}, ¬b = false → b = true := fun h => Bool.eq_true_of_not_eq_false h
  have p1 : ([] : List (Fin 512)) ++ [indexAt v 39] <+: indices v := ⟨_, rfl⟩
  have p2 : [indexAt v 39] ++ [indexAt v 30] <+: indices v := ⟨_, rfl⟩
  have p3 : [indexAt v 39, indexAt v 30] ++ [indexAt v 21] <+: indices v := ⟨_, rfl⟩
  have l1 := level [] (indexAt v 39) r vm p1 (by simp) root
  rw [i1] at l1
  unfold vmMapPage
  rw [if_neg hv]
  extract_lets s1 vm1 pdpt s2 vm2 pdt s3 vm3 pt m
  split
  · rename_i h1
    refine Or.inl ⟨_, _, r, vm, p1, by simp, root, ?_, Or.inl (by rw [i1]; exact h1)⟩
    rw [i1]
    exact Prod.ext rfl h1
  rename_i h1
  have m1 := l1 (hfalse h1) (Or.inl rfl)
  have l2 := level [indexAt v 39] (indexAt v 30) pdpt vm1 p2 (by simp) m1
  rw [i2] at l2
  split
  · rename_i h2
    refine Or.inl ⟨_, _, pdpt, vm1, p2, by simp, m1, ?_, Or.inl (by rw [i2]; exact h2)⟩
    rw [i2]
    exact Prod.ext rfl h2
  rename_i h2
  split
  · rename_i z2
    exact Or.inl ⟨_, _, pdpt, vm1, p2, by simp, m1, by rw [i2], Or.inr ⟨by simp, by rw [i2]; exact z2⟩⟩
  rename_i z2
  have m2 := l2 (hfalse h2) (Or.inr (Bool.eq_false_of_not_eq_true z2))
  have l3 := level [indexAt v 39, indexAt v 30] (indexAt v 21) pdt vm2 p3 (by simp) m2
  rw [i3] at l3
  split
  · rename_i h3
    refine Or.inl ⟨_, _, pdt, vm2, p3, by simp, m2, ?_, Or.inl (by rw [i3]; exact h3)⟩
    rw [i3]
    exact Prod.ext rfl h3
  rename_i h3
  split
  · rename_i z3
    exact Or.inl ⟨_, _, pdt, vm2, p3, by simp, m2, by rw [i3], Or.inr ⟨by simp, by rw [i3]; exact z3⟩⟩
  rename_i z3
  exact Or.inr ⟨pt, vm3, l3 (hfalse h3) (Or.inr (Bool.eq_false_of_not_eq_true z3)), rfl⟩

/-- What `vm_map_page` does to the translations: all of them stay, and if it succeeds those of one page change. -/
structure Mapped (m m' : Mem) (r physAddr v : Nat) (ok : Bool) : Prop where
  here : ok = true → ∀ w, w / pageSize = v / pageSize →
    vmPhysAddr m' r w = alignDown physAddr pageSize + w % pageSize
  other : ∀ w, (ok = true → w / pageSize ≠ v / pageSize) → vmPhysAddr m' r w = vmPhysAddr m r w

theorem nonCanonical_congr {v w : Nat} (h : w / pageSize = v / pageSize) : nonCanonical w ↔ nonCanonical v := by
  have h1 := @canonical_iff w
  have h2 := @canonical_iff v
  simp only [pageSize] at h
  have e1 : w / 2 ^ 48 = v / 2 ^ 48 := by omega
  have e2 : w / 2 ^ 47 % 2 = v / 2 ^ 47 % 2 := by omega
  rw [e1, e2] at h1
  exact not_iff_not.1 (h1.trans h2.symm)

theorem presentEntry {a flags : Nat} (ha : a < 2 ^ 64) (hd : pageSize ∣ a) (hf : flags < pageSize) :
    a ||| pageFlagPresent ||| flags < 2 ^ 64 ∧ hasFlag (a ||| pageFlagPresent ||| flags) pageFlagPresent = true ∧
      alignDown (a ||| pageFlagPresent ||| flags) pageSize = a := by
  have hx : pageFlagPresent ||| flags < pageSize := by
    have e : pageSize = 2 ^ 12 := rfl
    rw [e] at hf ⊢
    exact Nat.or_lt_two_pow (by decide) hf
  rw [Nat.or_assoc]
  refine ⟨Nat.or_lt_two_pow ha (Nat.lt_of_lt_of_le hx (by decide)), ?_, alignDown_or_flags ha hd hx⟩
  rw [hasFlag_present, Nat.testBit_or, Nat.testBit_or, show pageFlagPresent.testBit 0 = true by decide]
  simp

theorem pageEntry {physAddr flags : Nat} (hp : physAddr < 2 ^ 64) (hf : MapFlags flags) :
    alignDown physAddr pageSize ||| pageFlagPresent ||| flags < 2 ^ 64 ∧
      hasFlag (alignDown physAddr pageSize ||| pageFlagPresent ||| flags) pageFlagPresent = true ∧
      alignDown (alignDown physAddr pageSize ||| pageFlagPresent ||| flags) pageSize = alignDown physAddr pageSize :=
  presentEntry (Nat.lt_of_le_of_lt Nat.and_le_left hp) (pageSize_dvd_alignDown _) hf.lt

/-- What `vm_map_page` does to the mappings: all of them stay, and if it succeeds those of one page become `e`. -/
structure LeafPlaced (m m' : Mem) (r v e : Nat) (ok : Bool) : Prop where
  here : ok = true → ∀ w, w / pageSize = v / pageSize → leaf m' r w = some (3, e)
  other : ∀ w, (ok = true → w / pageSize ≠ v / pageSize) → leaf m' r w = leaf m r w

private theorem TableTree.mapEntry {m : Mem} {r t v e : Nat} (ht : TableTree m r)
    (hq : walk (entryAt m) tableOf 0 r [indexAt v 39, indexAt v 30, indexAt v 21] = some t) (hv : ¬nonCanonical v)
    (he : e < 2 ^ 64) (hp : hasFlag e pageFlagPresent = true) :
    LeafPlaced m (setEntry m t (ptIndex v) e) r v e true := by
  rw [← (index_val v).2.2.2]
  have hsame := ht.setEntry_changesAt hq (i := indexAt v 12) e
  have hpre : ∀ w, ¬nonCanonical w → ([indexAt v 39, indexAt v 30, indexAt v 21] ++ [indexAt v 12] <+: indices w ↔
      w / pageSize = v / pageSize) := fun w hw => indices_take hv hw (Or.inr (Or.inr rfl))
  refine ⟨fun _ w hwv => ?_, fun w hwv => ?_⟩
  · have hw : ¬nonCanonical w := mt (nonCanonical_congr hwv).1 hv
    have hself : ptEntry (setEntry m t (indexAt v 12) e) t (indexAt v 12) = e := ptEntry_setEntry_self he
    rw [ht.leaf_at hq (by simp) hsame hw ((hpre w hw).2 hwv) (tableOf_last _), hself, if_pos hp]
    rfl
  · by_cases hw : nonCanonical w
    · rw [leaf, leaf, if_pos hw, if_pos hw]
    · exact ht.leaf_change hq (by simp) hsame fun h => hwv rfl ((hpre w hw).1 h)

theorem vmMapPage_leaf {vm : Vm} {r v physAddr flags : Nat} (ht : TableTree vm.mem r)
    (hsup : Supply (IsTable vm.mem r) 3 vm.frames) (hv : ¬nonCanonical v) (hp : physAddr < 2 ^ 64)
    (hf : MapFlags flags) :
    LeafPlaced vm.mem (vmMapPage vm r physAddr v flags).1.mem r v
      (alignDown physAddr pageSize ||| pageFlagPresent ||| flags) (vmMapPage vm r physAddr v flags).2 := by
  have hrule := @vmMapPage_rule vm r v physAddr flags hv
    (fun q t cur => TableTree cur.mem r ∧ walk (entryAt cur.mem) tableOf 0 r q = some t ∧
      Supply (IsTable cur.mem r) (3 - q.length) cur.frames ∧ ∀ w, leaf cur.mem r w = leaf vm.mem r w)
    ⟨ht, rfl, hsup, fun _ => rfl⟩ ?_
  · obtain ⟨q, i, t, cur, -, hlen, ⟨h1, h2, h3, h4⟩, hres, -⟩ | ⟨t, cur, ⟨h1, h2, -, h4⟩, hres⟩ := hrule
    · rw [show 3 - q.length = 2 - q.length + 1 by omega] at h3
      have hmade := makeTable_made (i := i) h1 h2 hlen hf h3
      rw [hres]
      exact ⟨fun h => absurd h Bool.false_ne_true, fun w _ => (hmade.same w).trans (h4 w)⟩
    · obtain ⟨he1, he2, -⟩ := pageEntry hp hf
      have hplaced := h1.mapEntry h2 hv he1 he2
      rw [hres]
      exact ⟨hplaced.here, fun w hw => (hplaced.other w hw).trans (h4 w)⟩
  · rintro q i t cur - hlen ⟨h1, h2, h3, h4⟩ hok hsize
    rw [show 3 - q.length = 2 - q.length + 1 by omega] at h3
    have hmade := makeTable_made (i := i) h1 h2 hlen hf h3
    refine ⟨hmade.tree, hmade.next hok hlen hsize, ?_, fun w => (hmade.same w).trans (h4 w)⟩
    rw [List.length_append, List.length_singleton, show 3 - (q.length + 1) = 2 - q.length by omega]
    exact hmade.supply

theorem pageAddr_last {e v : Nat} (he : hasFlag e pageFlagPresent = true) :
    pageAddr v (3, e) = alignDown e pageSize + v % pageSize := by
  rw [pageAddr, if_neg (by simp [he])]
  exact page_or_offset v (pageSize_dvd_alignDown _)

private theorem vmMapPage_mapped {vm : Vm} {r v physAddr flags : Nat} (ht : TableTree vm.mem r)
    (hsup : Supply (IsTable vm.mem r) 3 vm.frames) (hv : ¬nonCanonical v) (hp : physAddr < 2 ^ 64)
    (hf : MapFlags flags) :
    Mapped vm.mem (vmMapPage vm r physAddr v flags).1.mem r physAddr v (vmMapPage vm r physAddr v flags).2 := by
  have hplaced := vmMapPage_leaf ht hsup hv hp hf
  obtain ⟨-, he2, he3⟩ := pageEntry hp hf
  refine ⟨fun hok w hw => ?_, fun w hw => ?_⟩
  · rw [vmPhysAddr_leaf, hplaced.here hok w hw, Option.elim_some, pageAddr_last he2, he3]
  · rw [vmPhysAddr_leaf, vmPhysAddr_leaf, hplaced.other w hw]

/-! ### `vm_unmap_page` -/

/-- The size of the page that contains `v`: that of its huge or large page, else that of a small page. -/
def pageSpan (m : Mem) (r v : Nat) : Nat :=
  match final (entryAt m) tableOf 0 r (indices v) with
  | some (n, e) => if hasFlag e pageFlagPresent then spanOf n else pageSize
  | none => pageSize

theorem indices_congr {v w : Nat} (h : w / pageSize = v / pageSize) : indices w = indices v := by
  simp only [pageSize] at h
  simp only [indices, indexAt, List.cons.injEq, Fin.mk.injEq, and_true]
  omega

/-- `vm_unmap_page` clears the last entry on the way of the address, unless it is not present anyway. -/
theorem vmUnmapPage_cases {m : Mem} {r v : Nat} (hv : ¬nonCanonical v) :
    ∃ (q : List (Fin 512)) (i : Fin 512) (s : List (Fin 512)) (t : Nat), indices v = q ++ i :: s ∧
    walk (entryAt m) tableOf 0 r q = some t ∧ tableOf q.length (ptEntry m t i) = none ∧
    (vmUnmapPage m r v = (setEntry m t i 0, true) ∨
      (hasFlag (ptEntry m t i) pageFlagPresent = false ∧ vmUnmapPage m r v = (m, true))) := by
  obtain ⟨i1, i2, i3, i4⟩ := index_val v
  have hfalse : ∀ {b : Bool}, ¬b = false → b = true := fun h => Bool.eq_true_of_not_eq_false h
  unfold vmUnmapPage
  rw [if_neg hv]
  extract_lets pml4e pdpt pdpe pdt pde
  split
  · rename_i h1
    refine ⟨[], indexAt v 39, _, r, rfl, rfl, ?_, Or.inr ⟨by rw [i1]; exact h1, rfl⟩⟩
    rw [i1]
    exact tableOf_absent h1
  rename_i h1
  have w1 : walk (entryAt m) tableOf 0 r [indexAt v 39] = some pdpt := by
    rw [walk, entryAt, i1, tableOf_some (hfalse h1) (by decide) (Or.inl rfl)]
    rfl
  split
  · rename_i h2
    refine ⟨[indexAt v 39], indexAt v 30, _, pdpt, rfl, w1, ?_, Or.inr ⟨by rw [i2]; exact h2, rfl⟩⟩
    rw [i2]
    exact tableOf_absent h2
  rename_i h2
  split
  · rename_i z2
    refine ⟨[indexAt v 39], indexAt v 30, _, pdpt, rfl, w1, ?_, Or.inl (by rw [i2])⟩
    rw [i2]
    exact tableOf_size (by simp) z2
  rename_i z2
  have w2 : walk (entryAt m) tableOf 0 r [indexAt v 39, indexAt v 30] = some pdt := by
    have h3 := walk_snoc w1 (indexAt v 30)
    rw [entryAt, i2] at h3
    exact h3.trans (tableOf_some (hfalse h2) (by simp) (Or.inr (Bool.eq_false_of_not_eq_true z2)))
  split
  · rename_i h3
    refine ⟨[indexAt v 39, indexAt v 30], indexAt v 21, _, pdt, rfl, w2, ?_, Or.inr ⟨by rw [i3]; exact h3, rfl⟩⟩
    rw [i3]
    exact tableOf_absent h3
  rename_i h3
  split
  · rename_i z3
    refine ⟨[indexAt v 39, indexAt v 30], indexAt v 21, _, pdt, rfl, w2, ?_, Or.inl (by rw [i3])⟩
    rw [i3]
    exact tableOf_size (by simp) z3
  rename_i z3
  have w3 :
    walk (entryAt m) tableOf 0 r [indexAt v 39, indexAt v 30, indexAt v 21] = some (alignDown pde pageSize) := by
    have h4 := walk_snoc w2 (indexAt v 21)
    rw [entryAt, i3] at h4
    exact h4.trans (tableOf_some (hfalse h3) (by simp) (Or.inr (Bool.eq_false_of_not_eq_true z3)))
  exact ⟨_, indexAt v 12, [], _, rfl, w3, tableOf_last _, Or.inl (by rw [i4])⟩

/-- `vm_unmap_page` ends the mappings of the page that contains the address, and of no other page. -/
theorem vmUnmapPage_leaf {m : Mem} {r v : Nat} (ht : TableTree m r) (hv : ¬nonCanonical v) (w : Nat) :
    leaf (vmUnmapPage m r v).1 r w = if w / pageSpan m r v = v / pageSpan m r v then none else leaf m r w := by
  obtain ⟨q, i, s, t, hsplit, hq, hend, hcase⟩ := vmUnmapPage_cases (m := m) (r := r) hv
  have hlen := congrArg List.length hsplit
  simp only [indices, List.length_append, List.length_cons, List.length_nil] at hlen
  have hfin : final (entryAt m) tableOf 0 r (indices v) = some (q.length, ptEntry m t i) := by
    have h1 := final_of_none hq (by rw [Nat.zero_add]; exact hend) s
    rw [hsplit, h1, Nat.zero_add]
    rfl
  have hsame := ht.setEntry_changesAt hq (i := i) 0
  have hzero : ptEntry (setEntry m t i 0) t i = 0 := ptEntry_setEntry_self (by decide)
  have habsent : hasFlag (ptEntry (setEntry m t i 0) t i) pageFlagPresent = false := by
    rw [hzero]
    decide
  cases hp : hasFlag (ptEntry m t i) pageFlagPresent with
  | false =>
    -- no mapping changes, and the page had none
    have hspan : pageSpan m r v = pageSize := by
      rw [pageSpan, hfin]
      simp [hp]
    have hkeep : leaf (vmUnmapPage m r v).1 r w = leaf m r w := by
      rcases hcase with h1 | ⟨-, h1⟩
      · rw [h1]
        exact ht.leaf_absent hq (by omega) hsame hp habsent w
      · rw [h1]
    rw [hkeep, hspan]
    split
    · rename_i hwv
      have hw : ¬nonCanonical w := mt (nonCanonical_congr hwv).1 hv
      rw [leaf, if_neg hw, indices_congr hwv, hfin, Option.filter_some, hp]
      rfl
    · rfl
  | true =>
    have h1 : vmUnmapPage m r v = (setEntry m t i 0, true) := hcase.resolve_right fun h => by simp [hp] at h
    have hspan : pageSpan m r v = spanOf q.length := by
      rw [pageSpan, hfin]
      simp [hp]
    have hpos : q.length ≠ 0 := by
      intro h0
      rw [h0, tableOf_some hp (by decide) (Or.inl rfl)] at hend
      cases hend
    have htake : (indices v).take (q.length + 1) = q ++ [i] := by
      rw [hsplit, show q ++ i :: s = (q ++ [i]) ++ s by simp, List.take_left' (by simp)]
    rw [h1, hspan]
    by_cases hw : nonCanonical w
    · rw [leaf, leaf, if_pos hw, if_pos hw, ite_self]
    have hpre := indices_take (n := q.length) hv hw (by omega)
    rw [htake] at hpre
    split
    · rename_i hwv
      rw [ht.leaf_at hq (by omega) hsame hw (hpre.2 hwv) (tableOf_absent habsent), habsent]
      rfl
    · rename_i hwv
      exact ht.leaf_change hq (by omega) hsame (mt hpre.1 hwv)

private theorem vmUnmapPage_unmapped {m : Mem} {r v : Nat} (ht : TableTree m r) (hv : ¬nonCanonical v) (w : Nat) :
    vmPhysAddr (vmUnmapPage m r v).1 r w =
      if w / pageSpan m r v = v / pageSpan m r v then 0 else vmPhysAddr m r w := by
  rw [vmPhysAddr_leaf, vmUnmapPage_leaf ht hv]
  split
  · rfl
  · rw [vmPhysAddr_leaf]

/-- The laws of mapping and translation: an address with a wrong sign extension is rejected; a page that is mapped is
translated to its frame; a page that is unmapped is not translated; and no other translation changes. -/
theorem translation_laws {vm : Vm} {r v physAddr flags : Nat} (ht : TableTree vm.mem r)
    (hsup : Supply (IsTable vm.mem r) 3 vm.frames) (hp : physAddr < 2 ^ 64) (hf : MapFlags flags) :
    (nonCanonical v → vmMapPage vm r physAddr v flags = (vm, false) ∧ vmUnmapPage vm.mem r v = (vm.mem, false) ∧
      vmPhysAddr vm.mem r v = 0) ∧
    (¬nonCanonical v →
      Mapped vm.mem (vmMapPage vm r physAddr v flags).1.mem r physAddr v (vmMapPage vm r physAddr v flags).2 ∧
      (vmUnmapPage vm.mem r v).2 = true ∧
      ∀ w, vmPhysAddr (vmUnmapPage vm.mem r v).1 r w =
        if w / pageSpan vm.mem r v = v / pageSpan vm.mem r v then 0 else vmPhysAddr vm.mem r w) := by
  refine ⟨fun hv => ⟨if_pos hv, if_pos hv, if_pos hv⟩, fun hv => ⟨vmMapPage_mapped ht hsup hv hp hf, ?_,
    vmUnmapPage_unmapped ht hv⟩⟩
  obtain ⟨q, i, s, t, -, -, -, h | ⟨-, h⟩⟩ := @vmUnmapPage_cases vm.mem r v hv
  · rw [h]
  · rw [h]

def emptyVm : Vm := { smallVm with mem := fun _ => 0 }

theorem emptyVm_walk {p : List (Fin 512)} {g : Nat}
    (h : walk (entryAt emptyVm.mem) tableOf 0 0x1000 p = some g) : p = [] ∧ g = 0x1000 := by
  cases p with
  | nil => exact ⟨rfl, (Option.some.inj h).symm⟩
  | cons i p =>
    have h0 : entryAt emptyVm.mem 0x1000 i = 0 := by simp [entryAt, ptEntry, emptyVm, readLE]
    rw [walk, h0, tableOf_absent (by decide)] at h
    cases h

/-- A page of the upper half is mapped in an empty address space, through three new tables. -/
theorem translation_laws_small : ∃ s, vmMapPage emptyVm 0x1000 0x5000 0xffff800000001000 6 = (s, true) ∧
    (∀ w, w / pageSize = 0xffff800000001000 / pageSize → vmPhysAddr s.mem 0x1000 w = 0x5000 + w % pageSize) ∧
    ∀ w, w / pageSize ≠ 0xffff800000001000 / pageSize →
    vmPhysAddr s.mem 0x1000 w = vmPhysAddr emptyVm.mem 0x1000 w := by
  have ht : TableTree emptyVm.mem 0x1000 :=
    ⟨by decide, fun p q f _ _ hp hq => (emptyVm_walk hp).1.trans (emptyVm_walk hq).1.symm⟩
  have hsup : Supply (IsTable emptyVm.mem 0x1000) 3 emptyVm.frames := by
    have hwf : emptyVm.frames.Wf := smallVm_tree.wf
    refine hwf.supply ?_ 3
    rintro g ⟨p, -, hp⟩
    rw [(emptyVm_walk hp).2]
    decide
  have hok : (vmMapPage emptyVm 0x1000 0x5000 0xffff800000001000 6).2 = true := by decide +kernel
  have hmapped := ((@translation_laws emptyVm 0x1000 0xffff800000001000 0x5000 6 ht hsup (by decide)
    ⟨by decide, by decide, by decide⟩).2 (by decide)).1
  exact ⟨_, Prod.ext rfl hok, hmapped.here hok, fun w hw => hmapped.other w fun _ => hw⟩

end Pml.Arch
