import Pml.Arch.HeldFrames
import Pml.Kernel.MmapTable

/-!
# The loops over pages

The loops of `sys_mmap` and `expand_mmap` map pages on new frames, map them again with other flags, and release them.
Each loop keeps the pages that are mapped on frames of their own (`mapPages_added`, `remapPages_added`,
`releasePages_added`).
-/

namespace Pml.Kernel

open Arch ByteMemory

/-! ### Rounding -/

theorem alignUp_page_spec {x : Nat} (hx : x ≤ 2 ^ 64 - pageSize) :
    pageSize ∣ alignUp x pageSize ∧ x ≤ alignUp x pageSize ∧ alignUp x pageSize < x + pageSize := by
  rcases Nat.eq_zero_or_pos x with rfl | hpos
  · decide
  · simp only [pageSize] at hx
    have hlt : x < 2 ^ 64 := by omega
    have h1 : alignUp x (2 ^ 12) ≠ 0 := Nat.ne_of_gt (alignUp_page_pos (by omega) (by simp only [pageSize]; omega))
    exact ⟨dvd_alignUp (k := 12) hpos hlt (by decide), (alignUp_eq_zero_or_le hpos hlt (by decide)).resolve_left h1,
      alignUp_lt (k := 12) hpos hlt⟩

theorem lt_alignUp_page {x v : Nat} (hx : x ≤ 2 ^ 64 - pageSize) (hv : pageSize ∣ v) :
    v < alignUp x pageSize ↔ v < x := by
  obtain ⟨h1, h2, h3⟩ := alignUp_page_spec hx
  constructor
  · intro h
    obtain ⟨k, hk⟩ := Nat.dvd_sub h1 hv
    simp only [pageSize] at *
    omega
  · exact fun h => Nat.lt_of_lt_of_le h h2

/-! ### Pages -/

def PagesApart (vs : List Nat) : Prop := vs.Pairwise fun v w => v / pageSize ≠ w / pageSize

theorem pages_aligned {lo hi : Nat} (hd : pageSize ∣ lo) : ∀ v ∈ pages lo hi, pageSize ∣ v := by
  intro v hv
  obtain ⟨i, rfl, -⟩ := mem_pages.1 hv
  exact Nat.dvd_add hd (Nat.dvd_mul_right _ _)

theorem mem_pages_aligned {lo hi v : Nat} (hd : pageSize ∣ lo) :
    v ∈ pages lo hi ↔ pageSize ∣ v ∧ lo ≤ v ∧ v < hi := by
  constructor
  · intro hv
    obtain ⟨i, rfl, hlt⟩ := mem_pages.1 hv
    exact ⟨Nat.dvd_add hd (Nat.dvd_mul_right _ _), Nat.le_add_right _ _, hlt⟩
  · rintro ⟨hv, hle, hlt⟩
    obtain ⟨k, hk⟩ := Nat.dvd_sub hv hd
    exact mem_pages.2 ⟨k, by omega, hlt⟩

private theorem pages_increasing (lo hi : Nat) : (pages lo hi).Pairwise (· < ·) :=
  List.pairwise_lt_range' pageSize (by decide)

theorem pages_apart {lo hi : Nat} (hd : pageSize ∣ lo) : PagesApart (pages lo hi) := by
  have hal := @pages_aligned lo hi hd
  refine (pages_increasing lo hi).imp_of_mem fun {v w} hv hw hlt he => ?_
  exact Nat.ne_of_lt hlt (page_div_inj (hal v hv) (hal w hw) he)

theorem pages_split {lo mid hi : Nat} (h1 : pageSize ∣ lo) (h2 : pageSize ∣ mid) (h3 : lo ≤ mid) (h4 : mid ≤ hi) :
    pages lo hi = pages lo mid ++ pages mid hi := by
  obtain ⟨k, hk⟩ := Nat.dvd_sub h2 h1
  have hmid : mid = lo + pageSize * k := by omega
  have hcount : (if lo < mid then (mid - lo - 1) / pageSize + 1 else 0) = k := by
    simp only [pageSize] at hk ⊢
    split <;> omega
  have hall : (if lo < hi then (hi - lo - 1) / pageSize + 1 else 0) =
      k + if mid < hi then (hi - mid - 1) / pageSize + 1 else 0 := by
    simp only [pageSize] at hk ⊢
    split <;> split <;> omega
  unfold pages
  rw [hcount, hall, ← List.range'_append, ← hmid]

theorem pages_before {lo hi v : Nat} (hd : pageSize ∣ lo) {xs rest : List Nat} (h : pages lo hi = xs ++ v :: rest) :
    pages lo v = xs := by
  have hv : v ∈ pages lo hi := h ▸ List.mem_append_right xs List.mem_cons_self
  obtain ⟨hvd, hle, hlt⟩ := (mem_pages_aligned hd).1 hv
  have hinc := pages_increasing lo hi
  rw [h, List.pairwise_append] at hinc
  obtain ⟨-, h1, h2⟩ := hinc
  have h3 := (List.pairwise_cons.1 h1).1
  have hsplit := pages_split hd hvd hle hlt.le
  have hfst : ∀ x ∈ pages lo v, x < v := fun x hx => ((mem_pages_aligned hd).1 hx).2.2
  have hsnd : ∀ x ∈ pages v hi, v ≤ x := fun x hx => ((mem_pages_aligned hvd).1 hx).2.1
  rw [h] at hsplit
  have hfilter := congrArg (List.filter fun x => decide (x < v)) hsplit
  rw [List.filter_append, List.filter_append, List.filter_cons_of_neg (by simp)] at hfilter
  rw [List.filter_eq_self.2 fun x hx => by simpa using h2 x hx v List.mem_cons_self,
    List.filter_eq_nil_iff.2 fun x hx => by simpa using (h3 x hx).le,
    List.filter_eq_self.2 fun x hx => by simpa using hfst x hx,
    List.filter_eq_nil_iff.2 fun x hx => by simpa using hsnd x hx, List.append_nil, List.append_nil] at hfilter
  exact hfilter.symm

section

variable {r flags : Nat} {zero : Bool} {vm : Vm} {xs ys : List Nat} {v : Nat}

private theorem mapPages_cons (r flags : Nat) (zero : Bool) (vm : Vm) (x : Nat) : ∃ vm',
    (∀ xs, mapPages r flags zero vm (x :: xs) = (vm', some x)) ∨
      ∀ xs, mapPages r flags zero vm (x :: xs) = mapPages r flags zero vm' xs := by
  simp only [mapPages]
  by_cases h0 : (allocPage vm.frames).2 = 0
  · exact ⟨_, Or.inl fun _ => if_pos h0⟩
  · simp only [if_neg h0]
    generalize vmMapPage _ r (allocPage vm.frames).2 x flags = s
    by_cases hs : s.2 = false
    · exact ⟨_, Or.inl fun _ => if_pos hs⟩
    · exact ⟨s.1, Or.inr fun _ => if_neg hs⟩

theorem mapPages_append (vm : Vm) (xs ys : List Nat) : mapPages r flags zero vm (xs ++ ys) =
    if (mapPages r flags zero vm xs).2 = none then mapPages r flags zero (mapPages r flags zero vm xs).1 ys
    else mapPages r flags zero vm xs := by
  induction xs generalizing vm with
  | nil => rfl
  | cons x xs ih =>
    obtain ⟨vm', h | h⟩ := mapPages_cons r flags zero vm x
    · rw [List.cons_append, h, h, if_neg (by simp)]
    · rw [List.cons_append, h, h]
      exact ih vm'

theorem mapPages_mem (h : (mapPages r flags zero vm xs).2 = some v) : v ∈ xs := by
  induction xs generalizing vm with
  | nil => cases h
  | cons x xs ih =>
    obtain ⟨vm', h' | h'⟩ := mapPages_cons r flags zero vm x
    · rw [h'] at h
      obtain rfl := Option.some.inj h
      exact List.mem_cons_self
    · rw [h'] at h
      exact List.mem_cons_of_mem x (ih h)

theorem mapPages_left (h : (mapPages r flags zero vm (xs ++ ys)).2 = none) :
    (mapPages r flags zero vm xs).2 = none := by
  by_contra hno
  rw [mapPages_append, if_neg hno] at h
  exact hno h

private theorem mapPages_left_iff (hnd : (xs ++ ys).Nodup) (h : (mapPages r flags zero vm (xs ++ ys)).2 = some v) :
    (mapPages r flags zero vm xs).2 = none ↔ v ∉ xs := by
  rw [mapPages_append] at h
  constructor
  · intro hno hx
    rw [if_pos hno] at h
    exact (List.disjoint_of_nodup_append hnd) hx (mapPages_mem h)
  · intro hx
    by_contra hno
    rw [if_neg hno] at h
    exact hx (mapPages_mem h)

theorem mapPages_before_iff {lo hi : Nat} (hd : pageSize ∣ lo) (hs : pageSize ∣ hi) {rest : List Nat}
    (hsplit : pages lo hi = xs ++ v :: rest) (hres : (mapPages r flags zero vm (pages lo hi)).2 = some v) {w : Nat}
    (hw : w ∈ pages lo hi) : (mapPages r flags zero vm (pages lo (w + pageSize))).2 = none ↔ w ∈ xs := by
  have hv : v ∈ pages lo hi := hsplit ▸ List.mem_append_right xs List.mem_cons_self
  obtain ⟨hvd, hvle, hvlt⟩ := (mem_pages_aligned hd).1 hv
  obtain ⟨hwd, hwle, hwlt⟩ := (mem_pages_aligned hd).1 hw
  have hnext : pageSize ∣ w + pageSize := Nat.dvd_add hwd (Nat.dvd_refl _)
  have hle : w + pageSize ≤ hi := by
    simp only [pageSize] at *
    omega
  have hnd : (pages lo hi).Nodup := (pages_increasing lo hi).imp fun h => Nat.ne_of_lt h
  rw [pages_split hd hnext (by omega) hle] at hres hnd
  rw [mapPages_left_iff hnd hres, ← pages_before hd hsplit, mem_pages_aligned hd, mem_pages_aligned hd]
  simp only [pageSize] at *
  omega

end

section

variable {r flags : Nat} {ℓ : Nat → Option (Nat × Nat)} {c : Nat → Nat} (hf : MapFlags flags)
include hf

/-- The pages that a loop has mapped, whether it comes to its end or not. -/
theorem mapPages_added (zero : Bool) {vm : Vm} {vs : List Nat} {ps : List (Nat × Nat)} (h : Added vm r ps ℓ c)
    (hvs : PagesApart vs) (hnew : ∀ v ∈ vs, ∀ p ∈ ps, v / pageSize ≠ p.1 / pageSize) :
    ∃ qs, Added (mapPages r flags zero vm vs).1 r (qs ++ ps) ℓ c ∧
      ((mapPages r flags zero vm vs).2 = none ∧ qs.map Prod.fst = vs ∨
        ∃ v rest, vs = qs.map Prod.fst ++ v :: rest ∧ (mapPages r flags zero vm vs).2 = some v) := by
  induction vs generalizing vm ps with
  | nil => exact ⟨[], h, Or.inl ⟨rfl, rfl⟩⟩
  | cons v vs ih =>
    obtain ⟨hapart, hvs⟩ := List.pairwise_cons.1 hvs
    unfold mapPages
    by_cases h0 : (allocPage vm.frames).2 = 0
    · simp only [h0, ↓reduceIte]
      exact ⟨[], ⟨h.holds.noFrame h0, h.maps⟩, Or.inr ⟨v, vs, rfl, rfl⟩⟩
    simp only [h0, ↓reduceIte]
    have hm : ∀ x, x < (allocPage vm.frames).2 ∨ (allocPage vm.frames).2 + pageSize ≤ x →
        (if zero = true then fill vm.mem (allocPage vm.frames).2 pageSize 0 else vm.mem) x = vm.mem x := by
      intro x hx
      split
      · exact fill_outside hx
      · rfl
    obtain ⟨hfail, hok⟩ := h.map (v := v) h0 hm hf rfl
    generalize vmMapPage _ r (allocPage vm.frames).2 v flags = s at hfail hok
    by_cases hs : s.2 = false
    · simp only [hs]
      exact ⟨[], hfail hs, Or.inr ⟨v, vs, rfl, rfl⟩⟩
    · simp only [hs]
      have hadd := hok (Bool.eq_true_of_not_eq_false hs) (hnew v List.mem_cons_self)
      obtain ⟨qs, h1, h2⟩ := ih hadd hvs fun w hw p hp => by
        rcases List.mem_cons.1 hp with rfl | hp
        · exact Ne.symm (hapart w hw)
        · exact hnew w (List.mem_cons_of_mem v hw) p hp
      refine ⟨(v, (allocPage vm.frames).2) :: qs, h1.perm List.perm_middle, ?_⟩
      rcases h2 with ⟨h3, h4⟩ | ⟨w, rest, h3, h4⟩
      · exact Or.inl ⟨h3, by rw [List.map_cons, h4]⟩
      · exact Or.inr ⟨w, rest, by rw [List.map_cons, List.cons_append, ← h3], h4⟩

theorem remapPages_added {vm : Vm} {vs : List Nat} {ps : List (Nat × Nat)} (h : Added vm r ps ℓ c)
    (hal : ∀ v ∈ vs, pageSize ∣ v) (hmem : ∀ v ∈ vs, v ∈ ps.map Prod.fst) :
    (remapPages r flags vm vs).2 = true ∧ Added (remapPages r flags vm vs).1 r ps ℓ c := by
  induction vs generalizing vm with
  | nil => exact ⟨rfl, h⟩
  | cons v vs ih =>
    obtain ⟨h1, h2⟩ := h.remap (hal v List.mem_cons_self) (hmem v List.mem_cons_self) hf rfl
    have hrest := ih h2 (fun w hw => hal w (List.mem_cons_of_mem v hw)) fun w hw => hmem w (List.mem_cons_of_mem v hw)
    unfold remapPages
    simp only [h1, Bool.true_eq_false, ↓reduceIte]
    exact hrest

end

theorem releasePages_added {vm : Vm} {r : Nat} {ps : List (Nat × Nat)} {ℓ : Nat → Option (Nat × Nat)} {c : Nat → Nat}
    (h : Added vm r ps ℓ c) (hal : ∀ v ∈ ps.map Prod.fst, pageSize ∣ v) :
    ∃ ℓ', Added (releasePages r vm (ps.map Prod.fst)) r [] ℓ' c ∧
      ∀ w, (∀ v ∈ ps.map Prod.fst, w / pageSize ≠ v / pageSize) ∧ ℓ' w = ℓ w ∨
        (∃ v ∈ ps.map Prod.fst, w / pageSize = v / pageSize) ∧ ℓ' w = none := by
  induction ps generalizing vm ℓ with
  | nil => exact ⟨ℓ, h, fun w => Or.inl ⟨by simp, rfl⟩⟩
  | cons p ps ih =>
    have h1 := h.release (hal p.1 List.mem_cons_self)
    obtain ⟨ℓ', h2, h3⟩ := ih h1 fun v hv => hal v (List.mem_cons_of_mem p.1 hv)
    refine ⟨ℓ', h2, fun w => ?_⟩
    rcases h3 w with ⟨h4, h5⟩ | ⟨⟨v, hv, h4⟩, h5⟩
    · by_cases hw : w / pageSize = p.1 / pageSize
      · rw [if_pos hw] at h5
        exact Or.inr ⟨⟨p.1, List.mem_cons_self, hw⟩, h5⟩
      · rw [if_neg hw] at h5
        refine Or.inl ⟨fun v hv => ?_, h5⟩
        rcases List.mem_cons.1 hv with rfl | hv
        · exact hw
        · exact h4 v hv
    · exact Or.inr ⟨⟨v, List.mem_cons_of_mem p.1 hv, h4⟩, h5⟩

theorem storeByte_added {vm : Vm} {r a : Nat} {ps : List (Nat × Nat)} {ℓ : Nat → Option (Nat × Nat)} {c : Nat → Nat}
    {p : Nat × Nat} (h : Added vm r ps ℓ c) (hp : p ∈ ps) (ha : a / pageSize = p.1 / pageSize) (b : UInt8) :
    vmPhysAddr vm.mem r a = p.2 + a % pageSize ∧ leaf vm.mem r a ≠ none ∧
      Added { vm with mem := setByte vm.mem (vmPhysAddr vm.mem r a) b } r ps ℓ c ∧
      ∀ w, leaf (setByte vm.mem (vmPhysAddr vm.mem r a) b) r w = leaf vm.mem r w := by
  obtain ⟨e, he, hframe⟩ := h.maps.here p hp
  have hat : MappedAt vm.mem r a p.2 := ⟨e, (leaf_congr ha).trans he, hframe⟩
  have hnot := (h.holds.frame p.2 (List.mem_map_of_mem hp)).2.2.2
  have ho : a % pageSize < pageSize := Nat.mod_lt _ (by decide)
  obtain ⟨h1, h2⟩ := h.holds.store (m := setByte vm.mem (vmPhysAddr vm.mem r a) b) fun g hg o hlt => by
    have hap := page_apart hat.aligned (hg.aligned h.holds.space.tree) fun he => hnot (he ▸ hg)
    refine setByte_of_ne ?_
    rw [hat.phys]
    omega
  refine ⟨hat.phys, fun hnone => ?_, ⟨h1, h.maps.congr h2⟩, h2⟩
  rw [leaf_congr ha, he] at hnone
  cases hnone

theorem storeData_added {vm : Vm} {r base : Nat} {ps : List (Nat × Nat)} {ℓ : Nat → Option (Nat × Nat)}
    {c : Nat → Nat} (h : Added vm r ps ℓ c) {data : List UInt8}
    (hin : ∀ o < data.length, ∃ p ∈ ps, (base + o) / pageSize = p.1 / pageSize) :
    Added { vm with mem := storeData r base vm.mem data } r ps ℓ c := by
  have hall : ∀ xs : List (UInt8 × Nat), (∀ x ∈ xs, x.2 < data.length) → ∀ m, Added { vm with mem := m } r ps ℓ c →
      Added { vm with mem := xs.foldl (fun m x => setByte m (vmPhysAddr m r (base + x.2)) x.1) m } r ps ℓ c := by
    intro xs hxs
    induction xs with
    | nil => exact fun m hm => hm
    | cons x xs ih =>
      intro m hm
      obtain ⟨p, hp, hpage⟩ := hin x.2 (hxs x List.mem_cons_self)
      exact ih (fun y hy => hxs y (List.mem_cons_of_mem x hy)) _ (storeByte_added hm hp hpage x.1).2.2.1
  exact hall _ (fun x hx => by
    obtain ⟨i, hi, rfl⟩ := List.mem_iff_getElem.1 hx
    simpa using hi) _ h

end Pml.Kernel
