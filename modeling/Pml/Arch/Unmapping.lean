import Pml.Arch.Mapping

/-!
# What unmapping a page changes

In an address space whose user half is a tree of page tables without large pages, a translation is the walk of its
four indices (`vmPhysAddr_walk`), and `vm_unmap_page` ends the translation of one page and keeps all others
(`vmUnmapPage_spec`).
-/

namespace Pml.Arch

open ByteMemory Radix

/-- The tables of the user half are a tree, and there are no large pages. -/
structure PageTree (m : Mem) (r : Nat) : Prop where
  aligned : pageSize ∣ r
  root : ∀ p, p.length ≤ 3 → ¬Reach m r p r
  unique : ∀ p p' f, p.length ≤ 3 → p'.length ≤ 3 → Reach m r p f → Reach m r p' f → p = p'
  small : ∀ p f, Reach m r p f → 2 ≤ p.length → p.length ≤ 3 →
    ∀ e ∈ (trail (ptEntry m) child r p).getLast?, hasFlag e pageFlagSize = false

theorem UserTree.pageTree {vm : Vm} {r : Nat} (h : UserTree vm r) : PageTree vm.mem r :=
  ⟨h.aligned, fun p _ => h.root p, fun p p' f _ _ => h.unique p p' f, h.small⟩

theorem canonical_user {v : Nat} (hv : v < 2 ^ 47) : ¬nonCanonical v := by
  have h1 : pml4tIndex v = v / 2 ^ 39 % 512 := index_eq v 39
  have h2 : v >>> 48 = 0 := by
    rw [Nat.shiftRight_eq_div_pow]
    omega
  have h3 : pml4tIndex v &&& 0x100 = 0 := by
    rw [h1, show (0x100 : Nat) = 2 ^ 8 from rfl, Nat.and_two_pow, Nat.testBit_eq_decide_div_mod_eq]
    have h4 : v / 2 ^ 39 % 512 / 2 ^ 8 % 2 ≠ 1 := by omega
    rw [decide_eq_false h4, Bool.toNat_false, Nat.zero_mul]
  unfold nonCanonical
  simp [h2, h3]

def tablePath (v : Nat) : List Nat := [pml4tIndex v, pdptIndex v, pdtIndex v]

theorem userPath_table (v : Nat) : userPath v = tablePath v ++ [ptIndex v] := rfl

section

variable {m : Mem} {r : Nat} (ht : PageTree m r)
include ht

theorem PageTree.not_large {p : List Nat} {t i : Nat} (hp : UserPath (p ++ [i]))
    (hw : walk (ptEntry m) child r p = some t) (hpres : ¬hasFlag (ptEntry m t i) pageFlagPresent = false)
    (hlo : 1 ≤ p.length) (hhi : p.length ≤ 2) : hasFlag (ptEntry m t i) pageFlagSize = false := by
  have hlen : (p ++ [i]).length = p.length + 1 := by rw [List.length_append, List.length_singleton]
  refine ht.small (p ++ [i]) _ ⟨hp, walk_present hw hpres⟩ (by omega) (by omega) _ ?_
  rw [trail_append hw, trail_singleton]
  simp

/-- The entries that lead to the last table: one of them is not present, or all of them are and none is a large
page. -/
private theorem PageTree.levels {v : Nat} (hv : v < 2 ^ 47) {e1 e2 e3 : Nat} (h1 : ptEntry m r (pml4tIndex v) = e1)
    (h2 : ptEntry m (alignDown e1 pageSize) (pdptIndex v) = e2)
    (h3 : ptEntry m (alignDown e2 pageSize) (pdtIndex v) = e3) :
    (walk (ptEntry m) child r (tablePath v) = none ∧ (hasFlag e1 pageFlagPresent = false ∨
      (hasFlag e1 pageFlagPresent = true ∧ hasFlag e2 pageFlagPresent = false) ∨
      (hasFlag e1 pageFlagPresent = true ∧ hasFlag e2 pageFlagPresent = true ∧ hasFlag e2 pageFlagSize = false ∧
        hasFlag e3 pageFlagPresent = false))) ∨
    (walk (ptEntry m) child r (tablePath v) = some (alignDown e3 pageSize) ∧ hasFlag e1 pageFlagPresent = true ∧
      hasFlag e2 pageFlagPresent = true ∧ hasFlag e2 pageFlagSize = false ∧ hasFlag e3 pageFlagPresent = true ∧
      hasFlag e3 pageFlagSize = false) := by
  have hp := userPath_user hv
  have hp2 : UserPath ([pml4tIndex v] ++ [pdptIndex v]) := hp.left (p := [pml4tIndex v, pdptIndex v]) (by simp)
  have hp3 : UserPath ([pml4tIndex v, pdptIndex v] ++ [pdtIndex v]) :=
    hp.left (p := tablePath v) (by simp [tablePath])
  have hnone : ∀ e, hasFlag e pageFlagPresent = false → child e = none := fun e he => if_neg (by simp [he])
  have hsome : ∀ e, hasFlag e pageFlagPresent = true → child e = some (alignDown e pageSize) := fun e he => if_pos he
  have hneg : ∀ {e}, hasFlag e pageFlagPresent = true → ¬hasFlag e pageFlagPresent = false := fun he => by simp [he]
  rw [tablePath, walk_cons, h1]
  cases p1 : hasFlag e1 pageFlagPresent with
  | false => exact Or.inl ⟨by rw [hnone _ p1, Option.bind_none], Or.inl rfl⟩
  | true =>
    have w1 : walk (ptEntry m) child r [pml4tIndex v] = some (alignDown e1 pageSize) := by
      rw [walk_singleton, h1, hsome _ p1]
    rw [hsome _ p1, Option.bind_some, walk_cons, h2]
    cases p2 : hasFlag e2 pageFlagPresent with
    | false => exact Or.inl ⟨by rw [hnone _ p2, Option.bind_none], Or.inr (Or.inl ⟨rfl, rfl⟩)⟩
    | true =>
      have z2 : hasFlag e2 pageFlagSize = false := by
        rw [← h2] at p2 ⊢
        exact ht.not_large hp2 w1 (hneg p2) (by simp) (by simp)
      have w2 : walk (ptEntry m) child r [pml4tIndex v, pdptIndex v] = some (alignDown e2 pageSize) := by
        rw [show [pml4tIndex v, pdptIndex v] = [pml4tIndex v] ++ [pdptIndex v] from rfl, walk_append_of w1,
          walk_singleton, h2, hsome _ p2]
      rw [hsome _ p2, Option.bind_some, walk_singleton, h3]
      cases p3 : hasFlag e3 pageFlagPresent with
      | false => exact Or.inl ⟨hnone _ p3, Or.inr (Or.inr ⟨rfl, rfl, z2, rfl⟩)⟩
      | true =>
        have z3 : hasFlag e3 pageFlagSize = false := by
          rw [← h3] at p3 ⊢
          exact ht.not_large hp3 w2 (hneg p3) (by simp) (by simp)
        exact Or.inr ⟨hsome _ p3, rfl, rfl, z2, rfl, z3⟩

theorem vmPhysAddr_walk {v : Nat} (hv : v < 2 ^ 47) : vmPhysAddr m r v =
    (walk (ptEntry m) child r (userPath v)).elim 0 fun f => f + v % pageSize := by
  rw [userPath_table, walk_append]
  unfold vmPhysAddr
  rw [if_neg (canonical_user hv)]
  rcases ht.levels hv rfl rfl rfl with ⟨hw, h1 | ⟨h1, h2⟩ | ⟨h1, h2, z2, h3⟩⟩ | ⟨hw, h1, h2, z2, h3, z3⟩
  · simp only [hw, h1, ↓reduceIte, Option.bind_none, Option.elim_none]
  · simp only [hw, h1, h2, Bool.true_eq_false, ↓reduceIte, Option.bind_none, Option.elim_none]
  · simp only [hw, h1, h2, z2, h3, Bool.true_eq_false, Bool.false_eq_true, ↓reduceIte, Option.bind_none,
      Option.elim_none]
  · simp only [hw, h1, h2, z2, h3, z3, Bool.true_eq_false, Bool.false_eq_true, ↓reduceIte, Option.bind_some]
    rw [walk_singleton, child]
    split
    · rename_i h4
      simp [h4]
    · rename_i h4
      rw [if_pos (Bool.eq_true_of_not_eq_false h4), Option.elim_some]
      exact page_or_offset v (pageSize_dvd_alignDown _)

theorem vmUnmapPage_walk {v : Nat} (hv : v < 2 ^ 47) : vmUnmapPage m r v =
    ((walk (ptEntry m) child r (tablePath v)).elim m fun t => setEntry m t (ptIndex v) 0, true) := by
  unfold vmUnmapPage
  rw [if_neg (canonical_user hv)]
  rcases ht.levels hv rfl rfl rfl with ⟨hw, h1 | ⟨h1, h2⟩ | ⟨h1, h2, z2, h3⟩⟩ | ⟨hw, h1, h2, z2, h3, z3⟩
  · simp only [hw, h1, ↓reduceIte, Option.elim_none]
  · simp only [hw, h1, h2, Bool.true_eq_false, ↓reduceIte, Option.elim_none]
  · simp only [hw, h1, h2, z2, h3, Bool.true_eq_false, Bool.false_eq_true, ↓reduceIte, Option.elim_none]
  · simp only [hw, h1, h2, z2, h3, z3, Bool.true_eq_false, Bool.false_eq_true, ↓reduceIte, Option.elim_some]

theorem PageTree.visited_aligned {q rest : List Nat} {j g : Nat} (hp : UserPath (q ++ j :: rest))
    (hq : walk (ptEntry m) child r q = some g) : pageSize ∣ g := by
  rcases visited hp hq with ⟨-, rfl⟩ | h
  · exact ht.aligned
  · exact h.aligned

variable {v t : Nat} (hv : v < 2 ^ 47) (hw : walk (ptEntry m) child r (tablePath v) = some t)
include hv hw

omit ht in
private theorem reach_table : Reach m r (tablePath v) t := ⟨(userPath_user hv).left (by simp [tablePath]), hw⟩

private theorem clear_walk {p : List Nat} {f : Nat} (hp : UserPath p)
    (hf : walk (ptEntry (setEntry m t (ptIndex v) 0)) child r p = some f) :
    walk (ptEntry m) child r p = walk (ptEntry (setEntry m t (ptIndex v) 0)) child r p ∧
      trail (ptEntry m) child r p = trail (ptEntry (setEntry m t (ptIndex v) 0)) child r p := by
  have hi : ptIndex v < 512 := (userPath_user hv).lt _ (by simp [userPath])
  refine walk_trail_congr fun q j rest g hsplit hq => ?_
  rw [hsplit] at hp hf
  have hg : pageSize ∣ g := by
    rcases visited hp hq with ⟨-, rfl⟩ | h
    · exact ht.aligned
    · exact h.aligned
  refine (ptEntry_setEntry_of_ne (reach_table hv hw).aligned hg hi (hp.lt j (by simp)) ?_).symm
  rintro ⟨rfl, rfl⟩
  rw [walk_append_of hq, walk_cons, ptEntry_setEntry_self (by decide), child_zero, Option.bind_none] at hf
  exact absurd hf (by simp)

theorem PageTree.clear : PageTree (setEntry m t (ptIndex v) 0) r := by
  have hreach : ∀ p f, Reach (setEntry m t (ptIndex v) 0) r p f → Reach m r p f := fun p f h =>
    ⟨h.path, (clear_walk ht hv hw h.path h.walk).1.trans h.walk⟩
  refine ⟨ht.aligned, fun p hp h => ht.root p hp (hreach p r h), fun p p' f h1 h2 h h' => ?_, fun p f h hlo hhi => ?_⟩
  · exact ht.unique p p' f h1 h2 (hreach p f h) (hreach p' f h')
  · rw [← (clear_walk ht hv hw h.path h.walk).2]
    exact ht.small p f (hreach p f h) hlo hhi

private theorem clear_entry {q rest : List Nat} {j g : Nat} (hp : UserPath (q ++ j :: rest))
    (hq : walk (ptEntry m) child r q = some g) (hne : ¬(q = tablePath v ∧ j = ptIndex v)) :
    ptEntry (setEntry m t (ptIndex v) 0) g j = ptEntry m g j := by
  have hi : ptIndex v < 512 := (userPath_user hv).lt _ (by simp [userPath])
  have hreach := reach_table hv hw
  have hlen : q.length ≤ 3 := by
    have := hp.len
    simp only [List.length_append, List.length_cons] at this
    omega
  refine ptEntry_setEntry_of_ne hreach.aligned (ht.visited_aligned hp hq) hi (hp.lt j (by simp)) ?_
  rintro ⟨rfl, rfl⟩
  rcases visited hp hq with ⟨-, rfl⟩ | h
  · exact ht.root _ (by simp [tablePath]) hreach
  · exact hne ⟨ht.unique q _ g hlen (by simp [tablePath]) h hreach, rfl⟩

theorem clear_self : walk (ptEntry (setEntry m t (ptIndex v) 0)) child r (userPath v) = none := by
  have hp := userPath_user hv
  rw [userPath_table] at hp ⊢
  have hpre : walk (ptEntry (setEntry m t (ptIndex v) 0)) child r (tablePath v) = some t := by
    rw [← hw]
    refine (walk_trail_congr fun q j rest g hsplit hq => ?_).1
    have hp' : UserPath (q ++ j :: rest) := by
      rw [← hsplit]
      exact hp.left (by simp [tablePath])
    refine clear_entry ht hv hw hp' hq ?_
    rintro ⟨rfl, -⟩
    have hl := congrArg List.length hsplit
    simp at hl
  rw [walk_append_of hpre, walk_singleton, ptEntry_setEntry_self (by decide), child_zero]

theorem clear_other {w : Nat} (hw' : w < 2 ^ 47) (hne : userPath w ≠ userPath v) :
    walk (ptEntry (setEntry m t (ptIndex v) 0)) child r (userPath w) = walk (ptEntry m) child r (userPath w) := by
  refine (walk_trail_congr fun q j rest g hsplit hq => ?_).1
  have hp := userPath_user hw'
  rw [hsplit] at hp
  refine clear_entry ht hv hw hp hq ?_
  rintro ⟨rfl, rfl⟩
  have hrest : rest = [] := by
    have hl := hp.len
    simp only [tablePath, List.length_append, List.length_cons, List.length_nil] at hl
    exact List.eq_nil_of_length_eq_zero (by omega)
  rw [hsplit, hrest, ← userPath_table] at hne
  exact hne rfl

end

theorem vmUnmapPage_spec {m : Mem} {r v : Nat} (ht : PageTree m r) (hv : v < 2 ^ 47) :
    PageTree (vmUnmapPage m r v).1 r ∧ vmPhysAddr (vmUnmapPage m r v).1 r v = 0 ∧
      ∀ w, w < 2 ^ 47 → w / pageSize ≠ v / pageSize → vmPhysAddr (vmUnmapPage m r v).1 r w = vmPhysAddr m r w := by
  rw [vmUnmapPage_walk ht hv]
  cases hw : walk (ptEntry m) child r (tablePath v) with
  | none =>
    refine ⟨ht, ?_, fun _ _ _ => rfl⟩
    rw [Option.elim_none, vmPhysAddr_walk ht hv, userPath_table, walk_append, hw, Option.bind_none, Option.elim_none]
  | some t =>
    have ht' := ht.clear hv hw
    simp only [Option.elim_some]
    refine ⟨ht', ?_, fun w hw' hne => ?_⟩
    · rw [vmPhysAddr_walk ht' hv, clear_self ht hv hw, Option.elim_none]
    · rw [vmPhysAddr_walk ht' hw', vmPhysAddr_walk ht hw', clear_other ht hv hw hw']
      intro h
      rw [userPath_eq, userPath_eq] at h
      simp only [List.cons.injEq, and_true] at h
      simp only [pageSize] at hne
      omega

end Pml.Arch
