import Pml.Arch.Sharing

/-!
# Visits of the user half (`arch/x86_64/mm.c`)

`ref_pt`, `ref_pdt` and `ref_pdpt` add a reference to every frame below a table, and `free_pt`, `free_pdt` and
`free_pdpt` give one back.  Both visit the frames of the list `framesBelow`.  In the address spaces of `Sharing` that
list has each frame once that the address space reaches, and no others (`Sharing.hits_frames`).
-/

namespace Pml.Arch

open ByteMemory Radix

/-! ### Giving references back -/

def freePt (m : Mem) (f : Frames) (pt : Nat) : Frames :=
  (List.range 512).foldl (fun f i =>
    if hasFlag (ptEntry m pt i) pageFlagPresent then freePage f (ptEntry m pt i) else f) f

def freePdt (m : Mem) (f : Frames) (pdt : Nat) : Frames :=
  (List.range 512).foldl (fun f i =>
    let e := ptEntry m pdt i
    if hasFlag e pageFlagPresent ∧ hasFlag e pageFlagSize = false then
      freePage (freePt m f (alignDown e pageSize)) (alignDown e pageSize)
    else f) f

def freePdpt (m : Mem) (f : Frames) (pdpt : Nat) : Frames :=
  (List.range 512).foldl (fun f i =>
    let e := ptEntry m pdpt i
    if hasFlag e pageFlagPresent ∧ hasFlag e pageFlagSize = false then
      freePage (freePdt m f (alignDown e pageSize)) (alignDown e pageSize)
    else f) f

/-! ### The frames that a visit finds -/

/-- The number of entries that are visited at each level, where page tables have level 0: the user half of the PML4
table and all entries of the others. -/
def userWidth (k : Nat) : Nat := if k = 3 then 256 else 512

/-- The frame that a visit follows from an entry of level `k`: large pages are left out where the source tests for
them, in the directories and the directory pointer tables. -/
def userChild (k : Nat) (e : Nat) : Option Nat :=
  if (k = 1 ∨ k = 2) ∧ hasFlag e pageFlagSize = true then none else child e

def framesBelow (m : Mem) (n t : Nat) : List Nat := below userWidth (ptEntry m) userChild n t

def framesUnder (m : Mem) (k e : Nat) : List Nat := under userWidth (ptEntry m) userChild k e

def hits (k : Nat) (l : List Nat) : Nat := l.countP fun f => f / pageSize = k

def Changes (K : Nat → Prop) (φ : Nat → Nat → Nat) (F : Frames → Frames) (l : List Nat) : Prop :=
  ∀ f : Frames, f.Wf → (F f).Wf ∧ ∀ k, K k → (F f).count k = φ (f.count k) (hits k l)

def plus (c n : Nat) : Nat := if c = 0 then 0 else c + n

def minus (c n : Nat) : Nat := c - n

def Adds (F : Frames → Frames) (l : List Nat) : Prop := Changes (fun _ => True) plus F l

def Frees (F : Frames → Frames) (l : List Nat) : Prop := Changes (fun k => k ≠ 0) minus F l

section

variable {K : Nat → Prop} {φ : Nat → Nat → Nat} (h0 : ∀ c, φ c 0 = c) (hadd : ∀ c a b, φ (φ c a) b = φ c (a + b))

section

include h0

theorem Changes.id : Changes K φ (fun f => f) [] := fun f hf => ⟨hf, fun k _ => (h0 (f.count k)).symm⟩

theorem Changes.ite {c : Prop} [Decidable c] {F : Frames → Frames} {l : List Nat} (h : c → Changes K φ F l) :
    Changes K φ (fun f => if c then F f else f) (if c then l else []) := by
  by_cases hc : c
  · simpa only [hc, ↓reduceIte] using h hc
  · simpa only [hc, ↓reduceIte] using Changes.id h0

end

include hadd

theorem Changes.comp {F G : Frames → Frames} {l l' : List Nat} (hF : Changes K φ F l) (hG : Changes K φ G l') :
    Changes K φ (fun f => G (F f)) (l ++ l') := by
  intro f hf
  obtain ⟨h1, h2⟩ := hF f hf
  obtain ⟨h3, h4⟩ := hG (F f) h1
  refine ⟨h3, fun k hk => ?_⟩
  rw [h4 k hk, h2 k hk, hadd, hits, hits, hits, List.countP_append]

include h0 in
theorem Changes.foldl {step : Frames → Nat → Frames} {g : Nat → List Nat} (l : List Nat)
    (h : ∀ i ∈ l, Changes K φ (fun f => step f i) (g i)) : Changes K φ (fun f => l.foldl step f) (l.flatMap g) := by
  induction l with
  | nil => exact Changes.id h0
  | cons i l ih =>
    rw [List.flatMap_cons]
    exact Changes.comp hadd (h i List.mem_cons_self) (ih fun j hj => h j (List.mem_cons_of_mem i hj))

end

theorem Changes.perm {K : Nat → Prop} {φ : Nat → Nat → Nat} {F : Frames → Frames} {l l' : List Nat}
    (h : Changes K φ F l) (hl : l.Perm l') : Changes K φ F l' := by
  intro f hf
  refine ⟨(h f hf).1, fun k hk => ?_⟩
  rw [(h f hf).2 k hk, hits, hits, hl.countP_eq]

/-! ### References added and given back by the visits -/

theorem alignDown_div_pageSize {e : Nat} (he : e < 2 ^ 64) : alignDown e pageSize / pageSize = e / pageSize := by
  have e4 : pageSize = 2 ^ 12 := rfl
  rw [e4]
  apply Nat.eq_of_testBit_eq
  intro i
  rw [Nat.testBit_div_two_pow, Nat.testBit_div_two_pow, testBit_alignDown (by decide)]
  by_cases h : i + 12 < 64
  · simp [h]
  · have h0 : e.testBit (i + 12) = false :=
      Nat.testBit_lt_two_pow (Nat.lt_of_lt_of_le he (Nat.pow_le_pow_right (by decide) (by omega)))
    simp [h0]

private theorem plus_zero (c : Nat) : plus c 0 = c := by
  unfold plus
  split <;> omega

private theorem plus_plus (c a b : Nat) : plus (plus c a) b = plus c (a + b) := by
  unfold plus
  by_cases hc : c = 0
  · simp [hc]
  · rw [if_neg hc, if_neg (by omega), if_neg hc, Nat.add_assoc]

private theorem hits_singleton (k f : Nat) : hits k [f] = if f / pageSize = k then 1 else 0 := by
  simp [hits, List.countP_singleton]

private theorem adds_refPage {e : Nat} (he : e < 2 ^ 64) (hpres : hasFlag e pageFlagPresent = true) :
    Adds (fun f => refPage f e) [alignDown e pageSize] := by
  have h0 : e ≠ 0 := by
    rintro rfl
    exact absurd hpres (by decide)
  refine fun f hf => ⟨hf.refPage e, fun k _ => ?_⟩
  rw [refPage_count, hits_singleton, alignDown_div_pageSize he, plus]
  by_cases hk : k = e / pageSize
  · subst hk
    by_cases hc : f.count (e / pageSize) = 0
    · simp [hc]
    · simp [hc, h0]
  · rw [if_neg fun h => hk h.2.1, if_neg (Ne.symm hk)]
    split <;> omega

private theorem frees_freePage {a g : Nat} (ha : alignDown a pageSize = g) (hg : pageSize ∣ g) :
    Frees (fun f => freePage f a) [g] := by
  intro f hf
  by_cases h0 : a = 0
  · have hg0 : g = 0 := by
      rw [← ha, h0]
      decide
    have hid : freePage f a = f := if_pos h0
    simp only [hid]
    refine ⟨hf, fun k hk => ?_⟩
    rw [hits_singleton, hg0, Nat.zero_div, if_neg (Ne.symm hk), minus, Nat.sub_zero]
  · obtain ⟨h1, h2⟩ := freePage_spec hf h0 ha hg
    refine ⟨h1, fun k _ => ?_⟩
    rw [h2, hits_singleton, minus]
    by_cases hk : k = g / pageSize
    · rw [hk, Function.update_self, if_pos rfl]
    · rw [Function.update_of_ne hk, if_neg (Ne.symm hk), Nat.sub_zero]

theorem Changes.visit {K : Nat → Prop} {φ : Nat → Nat → Nat} (h0 : ∀ c, φ c 0 = c) {m : Mem} {k e : Nat} {c : Prop}
    [Decidable c] (hc : c ↔ hasFlag e pageFlagPresent = true ∧ ¬((k = 1 ∨ k = 2) ∧ hasFlag e pageFlagSize = true))
    {F : Frames → Frames} (hF : hasFlag e pageFlagPresent = true →
      Changes K φ F (alignDown e pageSize :: framesBelow m k (alignDown e pageSize))) :
    Changes K φ (fun f => if c then F f else f) (framesUnder m k e) := by
  have hl : framesUnder m k e =
      if c then alignDown e pageSize :: framesBelow m k (alignDown e pageSize) else [] := by
    rw [framesUnder, under, userChild, child]
    by_cases hp : hasFlag e pageFlagPresent = true
    · by_cases hs : (k = 1 ∨ k = 2) ∧ hasFlag e pageFlagSize = true
      · rw [if_pos hs, if_neg fun h => (hc.1 h).2 hs, Option.elim_none]
      · rw [if_neg hs, if_pos hp, if_pos (hc.2 ⟨hp, hs⟩), Option.elim_some, framesBelow]
    · rw [if_neg hp, ite_self, if_neg fun h => hp (hc.1 h).1, Option.elim_none]
  rw [hl]
  exact Changes.ite h0 fun h => hF (hc.1 h).1

section

variable (m : Mem) (t : Nat)

theorem table_iff (k e : Nat) (hk : k = 1 ∨ k = 2) :
    (hasFlag e pageFlagPresent = true ∧ hasFlag e pageFlagSize = false) ↔
      hasFlag e pageFlagPresent = true ∧ ¬((k = 1 ∨ k = 2) ∧ hasFlag e pageFlagSize = true) := by
  simp [hk]

theorem present_iff (k e : Nat) (hk : ¬(k = 1 ∨ k = 2)) : hasFlag e pageFlagPresent = true ↔
    hasFlag e pageFlagPresent = true ∧ ¬((k = 1 ∨ k = 2) ∧ hasFlag e pageFlagSize = true) := by
  simp [hk]

theorem framesBelow_table {k : Nat} (hk : k ≠ 3) : framesBelow m (k + 1) t =
    (List.range 512).flatMap fun i => framesUnder m k (ptEntry m t i) := by
  rw [framesBelow, below_succ, userWidth, if_neg hk]
  rfl

theorem framesBelow_root : framesBelow m 4 t =
    (List.range 256).flatMap fun i => framesUnder m 3 (ptEntry m t i) := by
  rw [framesBelow, below_succ, userWidth, if_pos rfl]
  rfl

private theorem Changes.pageTable {K : Nat → Prop} {φ : Nat → Nat → Nat} (h0 : ∀ c, φ c 0 = c)
    (hadd : ∀ c a b, φ (φ c a) b = φ c (a + b))
    {F : Frames → Nat → Frames} (hF : ∀ e, e < 2 ^ 64 → hasFlag e pageFlagPresent = true →
      Changes K φ (fun f => F f e) [alignDown e pageSize]) :
    Changes K φ (fun f => (List.range 512).foldl (fun f i =>
      if hasFlag (ptEntry m t i) pageFlagPresent then F f (ptEntry m t i) else f) f) (framesBelow m 1 t) := by
  rw [framesBelow_table m t (by decide)]
  refine Changes.foldl h0 hadd (List.range 512) fun i _ => ?_
  exact Changes.visit h0 (present_iff 0 _ (by decide)) fun hp => hF _ (ptEntry_lt m t i) hp

private theorem Changes.directory {K : Nat → Prop} {φ : Nat → Nat → Nat} (h0 : ∀ c, φ c 0 = c)
    (hadd : ∀ c a b, φ (φ c a) b = φ c (a + b))
    {k : Nat} (hk : k = 1 ∨ k = 2) {F : Frames → Nat → Frames} (hF : ∀ e, e < 2 ^ 64 →
      hasFlag e pageFlagPresent = true →
      Changes K φ (fun f => F f e) (alignDown e pageSize :: framesBelow m k (alignDown e pageSize))) :
    Changes K φ (fun f => (List.range 512).foldl (fun f i =>
      if hasFlag (ptEntry m t i) pageFlagPresent ∧ hasFlag (ptEntry m t i) pageFlagSize = false then
        F f (ptEntry m t i)
      else f) f) (framesBelow m (k + 1) t) := by
  rw [framesBelow_table m t (by omega)]
  refine Changes.foldl h0 hadd (List.range 512) fun i _ => ?_
  exact Changes.visit h0 (table_iff k _ hk) fun hp => hF _ (ptEntry_lt m t i) hp

private theorem adds_refPt : Adds (fun f => refPt m f t) (framesBelow m 1 t) :=
  Changes.pageTable m t plus_zero plus_plus fun _ he hp => adds_refPage he hp

private theorem adds_refTable {F : Frames → Frames} {e : Nat} {l : List Nat} (hF : Adds F l) (he : e < 2 ^ 64)
    (hp : hasFlag e pageFlagPresent = true) : Adds (fun f => F (refPage f e)) (alignDown e pageSize :: l) :=
  Changes.comp plus_plus (adds_refPage he hp) hF

private theorem adds_refPdt : Adds (fun f => refPdt m f t) (framesBelow m 2 t) :=
  Changes.directory m t plus_zero plus_plus (F := fun f e => refPt m (refPage f e) (alignDown e pageSize))
    (Or.inl rfl)
    fun e => adds_refTable (F := fun f => refPt m f (alignDown e pageSize)) (adds_refPt m _)

private theorem adds_refPdpt : Adds (fun f => refPdpt m f t) (framesBelow m 3 t) :=
  Changes.directory m t plus_zero plus_plus (F := fun f e => refPdt m (refPage f e) (alignDown e pageSize))
    (Or.inr rfl)
    fun e => adds_refTable (F := fun f => refPdt m f (alignDown e pageSize)) (adds_refPdt m _)

theorem adds_refUser : Adds (fun f => refUser m f t) (framesBelow m 4 t) := by
  rw [framesBelow_root]
  refine Changes.foldl plus_zero plus_plus (List.range 256) fun i _ => ?_
  refine Changes.visit plus_zero (present_iff 3 _ (by decide))
    (F := fun f => refPdpt m (refPage f (ptEntry m t i)) (alignDown (ptEntry m t i) pageSize)) fun hp => ?_
  exact adds_refTable (F := fun f => refPdpt m f (alignDown (ptEntry m t i) pageSize)) (adds_refPdpt m _)
    (ptEntry_lt m t i) hp

theorem minus_zero (c : Nat) : minus c 0 = c := rfl

theorem minus_minus (c a b : Nat) : minus (minus c a) b = minus c (a + b) := Nat.sub_sub c a b

theorem alignDown_page_lt (e : Nat) : alignDown e pageSize < 2 ^ 64 :=
  Nat.and_lt_two_pow e (by decide)

theorem frees_freeTable {F : Frames → Frames} {g : Nat} {l : List Nat} (hF : Frees F l) (hg : pageSize ∣ g)
    (hlt : g < 2 ^ 64) : Frees (fun f => freePage (F f) g) (g :: l) :=
  (Changes.comp minus_minus hF (frees_freePage (alignDown_of_dvd hlt hg) hg)).perm (List.perm_append_singleton g l)

private theorem frees_freePt : Frees (fun f => freePt m f t) (framesBelow m 1 t) :=
  Changes.pageTable m t minus_zero minus_minus fun e _ _ => frees_freePage rfl (pageSize_dvd_alignDown e)

private theorem frees_freePdt : Frees (fun f => freePdt m f t) (framesBelow m 2 t) :=
  Changes.directory m t minus_zero minus_minus
    (F := fun f e => freePage (freePt m f (alignDown e pageSize)) (alignDown e pageSize)) (Or.inl rfl)
    fun e _ _ => frees_freeTable (F := fun f => freePt m f (alignDown e pageSize)) (frees_freePt m _)
      (pageSize_dvd_alignDown e) (alignDown_page_lt e)

theorem frees_freePdpt : Frees (fun f => freePdpt m f t) (framesBelow m 3 t) :=
  Changes.directory m t minus_zero minus_minus
    (F := fun f e => freePage (freePdt m f (alignDown e pageSize)) (alignDown e pageSize)) (Or.inr rfl)
    fun e _ _ => frees_freeTable (F := fun f => freePdt m f (alignDown e pageSize)) (frees_freePdt m _)
      (pageSize_dvd_alignDown e) (alignDown_page_lt e)

end

/-! ### Each frame is found once -/

theorem users_singleton {m : Mem} {r f : Nat} {p : List Nat} (h : Reach m r p f) : users m [r] f = 1 := by
  have h1 := users_pos (List.mem_singleton.2 rfl) h
  have h2 : users m [r] f ≤ 1 := users_le_one (List.nodup_singleton r) fun _ hr _ => List.mem_singleton.1 hr
  omega

theorem users_eq_zero {m : Mem} {roots : List Nat} {f : Nat} (h : ∀ r ∈ roots, ∀ p, ¬Reach m r p f) :
    users m roots f = 0 := by
  rcases Nat.eq_zero_or_pos (users m roots f) with h0 | hpos
  · exact h0
  · obtain ⟨r, hr, p, hf⟩ := exists_of_users_pos hpos
    exact absurd hf (h r hr p)

theorem within_table {n : Nat} (hn : n ≤ 3) {p : List Nat} :
    Within userWidth n p ↔ p.length ≤ n ∧ ∀ i ∈ p, i < 512 := by
  induction p generalizing n with
  | nil => simp [within_nil]
  | cons i p ih =>
    cases n with
    | zero => simp [Within]
    | succ n =>
      have hw : userWidth n = 512 := if_neg (by omega)
      simp only [Within, hw, ih (show n ≤ 3 by omega), List.length_cons, List.mem_cons, forall_eq_or_imp,
        Nat.add_le_add_iff_right]
      exact and_left_comm

theorem userPath_iff {p : List Nat} : UserPath p ↔ p ≠ [] ∧ Within userWidth 4 p := by
  cases p with
  | nil => exact ⟨fun h => absurd rfl h.pos, fun h => absurd rfl h.1⟩
  | cons i p =>
    have hw : userWidth 3 = 256 := rfl
    simp only [Within, hw, within_table (Nat.le_refl 3)]
    constructor
    · intro h
      have hl := h.len
      simp only [List.length_cons] at hl
      exact ⟨by simp, h.user i rfl, by omega, fun j hj => h.lt j (List.mem_cons_of_mem i hj)⟩
    · rintro ⟨-, h1, h2, h3⟩
      refine ⟨by simp, by simp only [List.length_cons]; omega, fun j hj => ?_, fun j hj => ?_⟩
      · rcases List.mem_cons.1 hj with rfl | hj
        · omega
        · exact h3 j hj
      · rw [List.head?_cons, Option.mem_some_iff] at hj
        omega

section

variable {vm : Vm} {roots : List Nat} (hs : Sharing vm roots) {r : Nat} (hr : r ∈ roots)
include hs hr

theorem Sharing.agree : Agree userWidth (ptEntry vm.mem) userChild child 4 r := by
  intro p u i hp hw
  have hpath : UserPath (p ++ [i]) := userPath_iff.2 ⟨by simp, hp⟩
  have hlen := hpath.len
  rw [List.length_append, List.length_singleton] at hlen
  unfold userChild
  split
  · rename_i hk
    cases hc : child (ptEntry vm.mem u i) with
    | none => rfl
    | some g =>
      have hreach : Reach vm.mem r (p ++ [i]) g := ⟨hpath, by rw [walk_append_of hw, walk_singleton, hc]⟩
      have hsz := hs.small r hr _ g hreach (by simp; omega) (by simp; omega) (ptEntry vm.mem u i)
        (by rw [trail_append hw, trail_singleton]; simp)
      rw [hk.2] at hsz
      exact absurd hsz (by decide)
  · rfl

theorem Sharing.mem_frames {f : Nat} : f ∈ framesBelow vm.mem 4 r ↔ ∃ p, Reach vm.mem r p f := by
  rw [framesBelow, mem_below (hs.agree hr)]
  constructor
  · rintro ⟨p, hne, hp, hw⟩
    exact ⟨p, userPath_iff.2 ⟨hne, hp⟩, hw⟩
  · rintro ⟨p, hp, hw⟩
    exact ⟨p, (userPath_iff.1 hp).1, (userPath_iff.1 hp).2, hw⟩

private theorem Sharing.nodup_frames : (framesBelow vm.mem 4 r).Nodup := by
  refine nodup_below (hs.agree hr) fun p q f hp hq hwp hwq h1 h2 => ?_
  exact hs.unique r hr r hr p q f ⟨userPath_iff.2 ⟨hp, hwp⟩, h1⟩ ⟨userPath_iff.2 ⟨hq, hwq⟩, h2⟩

theorem Sharing.hits_frames {f : Nat} (hf : pageSize ∣ f) :
    hits (f / pageSize) (framesBelow vm.mem 4 r) = users vm.mem [r] f := by
  classical
  have hcount : hits (f / pageSize) (framesBelow vm.mem 4 r) = (framesBelow vm.mem 4 r).count f := by
    refine List.countP_congr fun g hg => ?_
    obtain ⟨p, hp⟩ := (hs.mem_frames hr).1 hg
    simp only [decide_eq_true_eq, beq_iff_eq]
    exact ⟨page_div_inj hp.aligned hf, fun h => by rw [h]⟩
  rw [hcount, (hs.nodup_frames hr).count]
  by_cases h : ∃ p, Reach vm.mem r p f
  · rw [if_pos ((hs.mem_frames hr).2 h), users, List.countP_cons_of_pos (by simpa using h), List.countP_nil]
  · rw [if_neg fun hm => h ((hs.mem_frames hr).1 hm), users, List.countP_cons_of_neg (by simpa using h),
      List.countP_nil]

end

end Pml.Arch
