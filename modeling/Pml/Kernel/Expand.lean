import Pml.Kernel.MmapAtomic
import Pml.Arch.UserTables

/-!
# When `expand_mmap` is atomic

`expand_mmap` maps pages behind a region through the page table that it is given.  If memory runs out then it releases
pages from the base of the region on, and through the page table of the current thread.  `expand_law_iff` says for
which calls this is right.
-/

namespace Pml.Kernel

open Arch ByteMemory LevelWalk

/-- All translations are as they were, and the only frames with another count are those of new page tables. -/
structure Restored (s s' : MmState) (r : Nat) : Prop where
  mmaps : s'.mmaps = s.mmaps
  phys : ∀ w, vmPhysAddr s'.vm.mem r w = vmPhysAddr s.vm.mem r w
  current : ∀ w, vmPhysAddr s'.vm.mem s.pml4t w = vmPhysAddr s.vm.mem s.pml4t w
  counts : ∀ i, s'.vm.frames.count i = s.vm.frames.count i ∨
    s.vm.frames.count i = 0 ∧ IsTable s'.vm.mem r (pageSize * i)

def Between (g : Region) (len w : Nat) : Prop := g.stop ≤ w ∧ pageSize * (w / pageSize) < g.base + len

/-- Each page in between was free and is now on a frame `f` of its own. -/
structure AddedBetween (s s' : MmState) (r : Nat) (g : Region) (len : Nat) (f : Nat → Nat) : Prop where
  page : ∀ w, Between g len w → vmPhysAddr s.vm.mem r w = 0 ∧
    vmPhysAddr s'.vm.mem r w = pageSize * f (w / pageSize) + w % pageSize ∧
    s.vm.frames.count (f (w / pageSize)) = 0 ∧ s'.vm.frames.count (f (w / pageSize)) = 1
  distinct : ∀ v w, Between g len v → Between g len w → f (v / pageSize) = f (w / pageSize) →
    v / pageSize = w / pageSize
  counts : ∀ i, s'.vm.frames.count i = s.vm.frames.count i ∨
    (s.vm.frames.count i = 0 ∧ IsTable s'.vm.mem r (pageSize * i)) ∨ ∃ w, Between g len w ∧ i = f (w / pageSize)

/-- The region `g` with the index `i` has its new length, and exactly the pages in between have been added. -/
structure Expanded (s s' : MmState) (r i : Nat) (g : Region) (len : Nat) : Prop where
  mmaps : s'.mmaps = s.mmaps.set i { g with len := alignUp len pageSize }
  added : ∃ f, AddedBetween s s' r g len f
  other : ∀ w, ¬Between g len w → vmPhysAddr s'.vm.mem r w = vmPhysAddr s.vm.mem r w
  current : r ≠ s.pml4t → ∀ w, vmPhysAddr s'.vm.mem s.pml4t w = vmPhysAddr s.vm.mem s.pml4t w

/-- What a call of `expand_mmap` is for. -/
def ExpandLaw (s : MmState) (r addr len : Nat) : Prop :=
  match expandMmap s r addr len with
  | (s', some _) => Restored s s' r
  | (s', none) => ∃ g, regionAt s.mmaps (findRegionBeforeEqual s.mmaps addr) = some g ∧
    Expanded s s' r (findRegionBeforeEqual s.mmaps addr).toNat g len

def Enough (s : MmState) (r : Nat) (vs : List Nat) : Prop :=
  (mapPages r (pageFlagUser ||| pageFlagRw) false s.vm vs).2 = none

def NoPage (m : Mem) (q v : Nat) : Prop := ∀ w, w / pageSize = v / pageSize → vmPhysAddr m q w = 0

/-- The new end is an address; the pages are free; and if memory runs out then the call is for the page table of the
current thread or has mapped no page, and no page from the base of the region on was mapped there. -/
structure ExpandFine (s : MmState) (r : Nat) (g : Region) (len : Nat) : Prop where
  fits : g.base + len ≤ 2 ^ 64 - pageSize
  free : Enough s r (pages g.stop (g.base + alignUp len pageSize)) →
    ∀ v ∈ pages g.stop (g.base + alignUp len pageSize), NoPage s.vm.mem r v
  root : ¬Enough s r (pages g.stop (g.base + alignUp len pageSize)) → r = s.pml4t ∨ ¬Enough s r [g.stop]
  undo : ¬Enough s r (pages g.stop (g.base + alignUp len pageSize)) →
    ∀ v ∈ pages g.base (g.base + alignUp len pageSize), v < g.stop ∨ Enough s r (pages g.stop (v + pageSize)) →
      NoPage s.vm.mem s.pml4t v

private theorem noPage_iff {m : Mem} {q v : Nat} : NoPage m q v ↔ leaf m q v = none := by
  constructor
  · intro h
    by_contra hne
    obtain ⟨fin, hfin⟩ := Option.ne_none_iff_exists'.1 hne
    obtain ⟨w, hw, hodd⟩ : ∃ w, w / pageSize = v / pageSize ∧ w % 2 = 1 := by
      refine ⟨pageSize * (v / pageSize) + 1, ?_, ?_⟩ <;> simp only [pageSize] <;> omega
    have hphys := h w hw
    rw [vmPhysAddr_leaf, leaf_congr hw, hfin, Option.elim_some, pageAddr, (leaf_some hfin).2.2,
      if_neg (by decide)] at hphys
    have hlow : w &&& (spanOf fin.1 - 1) = 0 := (Nat.or_eq_zero_iff.1 hphys).2
    have hspan : (spanOf fin.1 - 1).testBit 0 = true := by
      unfold spanOf
      split
      · decide
      · split <;> decide
    have hbit : (w &&& (spanOf fin.1 - 1)).testBit 0 = false := by rw [hlow, Nat.zero_testBit]
    rw [Nat.testBit_and, hspan, Nat.testBit_zero, hodd] at hbit
    cases hbit
  · intro h w hw
    rw [vmPhysAddr_leaf, leaf_congr hw, h]
    rfl

private theorem pageSpan_congr {m : Mem} {q v u w : Nat} (h : w / pageSize = u / pageSize) :
    w / pageSpan m q v = u / pageSpan m q v := by
  have hspan : ∃ k, pageSpan m q v = pageSize * k := by
    have h1 : ∀ n, ∃ k, spanOf n = pageSize * k := fun n => by
      unfold spanOf
      split
      · exact ⟨2 ^ 18, by decide⟩
      · split
        · exact ⟨2 ^ 9, by decide⟩
        · exact ⟨1, by decide⟩
    unfold pageSpan
    split
    · split
      · exact h1 _
      · exact ⟨1, by decide⟩
    · exact ⟨1, by decide⟩
  obtain ⟨k, hk⟩ := hspan
  rw [hk, ← Nat.div_div_eq_div_mul, ← Nat.div_div_eq_div_mul, h]

/-! ### Releasing pages -/

private theorem releasePages_none {vm : Vm} {q : Nat} {vs : List Nat} (h : Space vm q)
    (hvs : ∀ v ∈ vs, v < 2 ^ 47 ∧ leaf vm.mem q v = none) :
    (releasePages q vm vs).frames = vm.frames ∧ (∀ w, leaf (releasePages q vm vs).mem q w = leaf vm.mem q w) ∧
      Extends vm (releasePages q vm vs) q ∧ UserWrites vm (releasePages q vm vs) q := by
  induction vs generalizing vm with
  | nil => exact ⟨rfl, fun _ => rfl, .refl h, .refl vm q⟩
  | cons v vs ih =>
    obtain ⟨hlt, hnone⟩ := hvs v List.mem_cons_self
    have hphys : vmPhysAddr vm.mem q v = 0 := noPage_iff.2 hnone v rfl
    have hspan : pageSpan vm.mem q v = pageSize := by
      rw [leaf, if_neg (canonical_user hlt)] at hnone
      rw [pageSpan]
      rcases hfin : final (entryAt vm.mem) tableOf 0 q (indices v) with _ | ⟨n, e⟩
      · rfl
      · rw [hfin, Option.filter_eq_none_iff] at hnone
        exact if_neg (hnone _ rfl)
    have hleaf : ∀ w, leaf (vmUnmapPage vm.mem q v).1 q w = leaf vm.mem q w := fun w => by
      rw [vmUnmapPage_leaf h.tree (canonical_user hlt), hspan]
      split
      · rename_i hw
        rw [leaf_congr hw, hnone]
      · rfl
    have hext := vmUnmapPage_extends (v := v) h
    have huser := vmUnmapPage_writes h hlt
    obtain ⟨h1, h2, h3, h4⟩ := ih hext.space fun w hw => by
      obtain ⟨h1, h2⟩ := hvs w (List.mem_cons_of_mem v hw)
      exact ⟨h1, (hleaf w).trans h2⟩
    have hstep : releasePages q vm (v :: vs) = releasePages q ⟨(vmUnmapPage vm.mem q v).1, vm.frames⟩ vs := by
      rw [releasePages, List.foldl_cons, hphys, show freePage vm.frames 0 = vm.frames from if_pos rfl]
      rfl
    rw [hstep]
    exact ⟨h1, fun w => (h2 w).trans (hleaf w), hext.trans h3, huser.trans h4⟩

private theorem releasePages_leaf {vm : Vm} {q : Nat} {vs : List Nat} (h : TableTree vm.mem q)
    (hvs : ∀ v ∈ vs, v < 2 ^ 47) {w : Nat}
    (hw : leaf vm.mem q w = none ∨ ∃ v ∈ vs, w / pageSize = v / pageSize) :
    leaf (releasePages q vm vs).mem q w = none := by
  induction vs generalizing vm with
  | nil => exact hw.resolve_right fun ⟨_, h1, _⟩ => absurd h1 List.not_mem_nil
  | cons v vs ih =>
    have hlt := hvs v List.mem_cons_self
    have hleaf := vmUnmapPage_leaf h (canonical_user hlt)
    refine @ih ⟨(vmUnmapPage vm.mem q v).1, freePage vm.frames (vmPhysAddr vm.mem q v)⟩ (vmUnmapPage_tree h)
      (fun u hu => hvs u (List.mem_cons_of_mem v hu)) ?_
    rcases hw with hw | ⟨u, hu, hw⟩
    · left
      rw [hleaf]
      split
      · rfl
      · exact hw
    · rcases List.mem_cons.1 hu with rfl | hu
      · left
        rw [hleaf, if_pos (pageSpan_congr hw)]
      · exact Or.inr ⟨u, hu, hw⟩

/-! ### Mapping pages -/

private theorem extends_free {vm vm' : Vm} {r a : Nat} (h : Extends vm vm' r) (h0 : a ≠ 0) (hd : pageSize ∣ a)
    (ha : a < 2 ^ 64) (ht : ¬IsTable vm'.mem r a) (hz : vm.frames.count (a / pageSize) = 0) :
    Extends vm ⟨vm'.mem, freePage vm'.frames a⟩ r := by
  obtain ⟨h1, h2⟩ := h.space.freePage h0 hd ha ht
  refine ⟨h1, h.tables, h.fresh, fun i => ?_, h.mem⟩
  rw [h2]
  by_cases hi : i = a / pageSize
  · subst hi
    rw [hz]
    exact Nat.zero_le _
  · rw [Function.update_of_ne hi]
    exact h.le i

theorem mapPages_writes {r flags : Nat} (hf : MapFlags flags) {vm : Vm} {vs : List Nat} (h : Space vm r)
    (hvs : ∀ v ∈ vs, v < 2 ^ 47 ∨ nonCanonical v) :
    Extends vm (mapPages r flags false vm vs).1 r ∧ UserWrites vm (mapPages r flags false vm vs).1 r := by
  induction vs generalizing vm with
  | nil => exact ⟨.refl h, .refl vm r⟩
  | cons v vs ih =>
    have halloc := h.alloc_extends
    have huser : UserWrites vm ⟨vm.mem, (allocPage vm.frames).1⟩ r := ⟨fun _ _ _ h => h, fun _ _ _ _ _ => rfl⟩
    unfold mapPages
    by_cases h0 : (allocPage vm.frames).2 = 0
    · simp only [h0, ↓reduceIte]
      exact ⟨halloc, huser⟩
    simp only [h0, Bool.false_eq_true, ↓reduceIte]
    obtain ⟨-, hd, hlt, hz, hc⟩ := h.allocPage.resolve_left fun h1 => h0 h1.1
    have hone : (allocPage vm.frames).1.count ((allocPage vm.frames).2 / pageSize) ≠ 0 := by
      rw [hc, Function.update_self]
      decide
    have hno : ¬IsTable vm.mem r (allocPage vm.frames).2 := fun ht => h.counted _ ht hz
    generalize allocPage vm.frames = a at h0 hd hlt hz hc hone hno halloc huser ⊢
    obtain ⟨hext, hwrites⟩ : Extends ⟨vm.mem, a.1⟩ (vmMapPage ⟨vm.mem, a.1⟩ r a.2 v flags).1 r ∧
        UserWrites ⟨vm.mem, a.1⟩ (vmMapPage ⟨vm.mem, a.1⟩ r a.2 v flags).1 r := by
      rcases hvs v List.mem_cons_self with hv | hv
      · exact ⟨(vmMapPage_extends halloc.space hlt hf).1, vmMapPage_writes halloc.space hv hf⟩
      · rw [show vmMapPage ⟨vm.mem, a.1⟩ r a.2 v flags = (⟨vm.mem, a.1⟩, false) from if_pos hv]
        exact ⟨.refl halloc.space, .refl _ r⟩
    generalize vmMapPage ⟨vm.mem, a.1⟩ r a.2 v flags = s at hext hwrites ⊢
    by_cases hs : s.2 = false
    · simp only [hs, ↓reduceIte]
      refine ⟨extends_free (halloc.trans hext) h0 hd hlt (fun ht => ?_) hz, ?_⟩
      · exact (hext.fresh _ ht).elim hno hone
      · have hall := huser.trans hwrites
        exact ⟨hall.keep, hall.mem⟩
    · simp only [hs]
      obtain ⟨h1, h2⟩ := ih hext.space fun w hw => hvs w (List.mem_cons_of_mem v hw)
      exact ⟨(halloc.trans hext).trans h1, (huser.trans hwrites).trans h2⟩

/-! ### The pages of the region -/

theorem expandFlags : MapFlags (pageFlagUser ||| pageFlagRw) := ⟨by decide, by decide, by decide⟩

section

variable {s : MmState} {r addr len : Nat} {g : Region} (hg : g.Wf)
include hg

theorem stop_le_top : pageSize ∣ g.stop ∧ g.base ≤ g.stop ∧ g.stop ≤ 2 ^ 47 := by
  rw [hg.stop]
  exact ⟨Nat.dvd_add hg.base hg.len, Nat.le_add_right _ _, hg.top⟩

private theorem not_fits (hlen : len < 2 ^ 64) (h : ¬g.base + len ≤ 2 ^ 64 - pageSize) :
    add64 g.base (alignUp len pageSize) ≤ g.base := by
  obtain ⟨hd, hpos, htop⟩ := stop_le_top hg
  have hzero : len ≠ 0 := by
    rintro rfl
    simp only [pageSize] at *
    omega
  have hL : alignUp len pageSize = 0 ∨ len ≤ alignUp len pageSize :=
    alignUp_eq_zero_or_le (k := 12) (by omega) hlen (by decide)
  have hdl := dvd_alignUp_page hzero hlen
  have hlt : alignUp len pageSize < 2 ^ 64 := Nat.mod_lt _ (by decide)
  have hb := hg.base
  unfold add64
  generalize alignUp len pageSize = size at *
  simp only [pageSize] at *
  omega

private theorem between_iff (hfits : g.base + len ≤ 2 ^ 64 - pageSize) {w : Nat} :
    Between g len w ↔ pageSize * (w / pageSize) ∈ pages g.stop (g.base + alignUp len pageSize) := by
  obtain ⟨hd, -, -⟩ := stop_le_top hg
  obtain ⟨h1, h2, h3⟩ := alignUp_page_spec (x := len) (by omega)
  have hb := hg.base
  rw [mem_pages_aligned hd, Between]
  generalize alignUp len pageSize = size at *
  simp only [pageSize] at *
  omega

end

section

variable {s : MmState} {r len : Nat} {g : Region} (hg : g.Wf) (hr : Space s.vm r)
include hg hr

/-- The loop maps pages of the user space, up to the page where it stops. -/
theorem loop_writes (hi : Nat) :
    Extends s.vm (mapPages r (pageFlagUser ||| pageFlagRw) false s.vm (pages g.stop hi)).1 r ∧
      UserWrites s.vm (mapPages r (pageFlagUser ||| pageFlagRw) false s.vm (pages g.stop hi)).1 r ∧
      ∀ v, (mapPages r (pageFlagUser ||| pageFlagRw) false s.vm (pages g.stop hi)).2 = some v → v ≤ 2 ^ 47 := by
  obtain ⟨hd, -, htop⟩ := stop_le_top hg
  have hlow : ∀ hi ≤ 2 ^ 47 + pageSize, ∀ v ∈ pages g.stop hi, v < 2 ^ 47 ∨ nonCanonical v ∧ v = 2 ^ 47 := by
    intro hi hle v hv
    obtain ⟨hvd, -, hlt⟩ := (mem_pages_aligned hd).1 hv
    rcases Nat.lt_or_ge v (2 ^ 47) with h | h
    · exact Or.inl h
    · have heq : v = 2 ^ 47 := by
        simp only [pageSize] at *
        omega
      subst heq
      exact Or.inr ⟨by decide, rfl⟩
  rcases Nat.le_or_ge hi (2 ^ 47 + pageSize) with hle | hge
  · obtain ⟨h1, h2⟩ := mapPages_writes expandFlags hr fun v hv => (hlow hi hle v hv).imp_right And.left
    refine ⟨h1, h2, fun v hv => ?_⟩
    rcases hlow hi hle v (mapPages_mem hv) with h | h <;> omega
  · -- the loop does not pass the first page that is not canonical
    obtain ⟨h1, h2⟩ := mapPages_writes expandFlags hr fun v hv => (hlow _ (Nat.le_refl _) v hv).imp_right And.left
    have hin : 2 ^ 47 ∈ pages g.stop (2 ^ 47 + pageSize) :=
      (mem_pages_aligned hd).2 ⟨by decide, htop, by decide⟩
    have hstop :
      (mapPages r (pageFlagUser ||| pageFlagRw) false s.vm (pages g.stop (2 ^ 47 + pageSize))).2 ≠ none := by
      intro hnone
      obtain ⟨qs, hadd, hcase⟩ :=
        mapPages_added expandFlags false (Added.start hr) (@pages_apart g.stop _ hd) (by simp)
      rcases hcase with ⟨-, hqs⟩ | ⟨v, rest, -, hv⟩
      · rw [← hqs] at hin
        obtain ⟨p, hp, he⟩ := List.mem_map.1 hin
        obtain ⟨e, hleaf, -⟩ := hadd.maps.here p (by simpa using hp)
        rw [he] at hleaf
        exact (leaf_some hleaf).1 (by decide)
      · rw [hnone] at hv
        cases hv
    rw [pages_split hd (show pageSize ∣ 2 ^ 47 + pageSize by decide) (by omega) hge, mapPages_append, if_neg hstop]
    refine ⟨h1, h2, fun v hv => ?_⟩
    rcases hlow _ (Nat.le_refl _) v (mapPages_mem hv) with h | h <;> omega

end

/-- When all pages have been mapped, the call has done what it is for if the pages were free. -/
private theorem expanded_iff {s s' : MmState} {r i len : Nat} {g : Region} (hg : g.Wf)
    (hfits : g.base + len ≤ 2 ^ 64 - pageSize)
    {qs : List (Nat × Nat)} (hadd : Added s'.vm r qs (leaf s.vm.mem r) s.vm.frames.count)
    (hqs : qs.map Prod.fst = pages g.stop (g.base + alignUp len pageSize))
    (hcur : r ≠ s.pml4t → ∀ w, leaf s'.vm.mem s.pml4t w = leaf s.vm.mem s.pml4t w)
    (hmaps : s'.mmaps = s.mmaps.set i { g with len := alignUp len pageSize }) :
    Expanded s s' r i g len ↔ ∀ v ∈ pages g.stop (g.base + alignUp len pageSize), NoPage s.vm.mem r v := by
  have hb := fun w => between_iff hg hfits (w := w)
  obtain ⟨hd, -, -⟩ := stop_le_top hg
  rw [← hqs] at hb ⊢
  have hal : ∀ v ∈ qs.map Prod.fst, pageSize ∣ v := fun v hv => pages_aligned hd v (hqs ▸ hv)
  have hpage : ∀ {v w}, v ∈ qs.map Prod.fst → w / pageSize = v / pageSize → pageSize * (w / pageSize) = v := by
    intro v w hv hw
    rw [hw, Nat.mul_div_cancel' (hal v hv)]
  constructor
  · intro h v hv w hw
    obtain ⟨f, hf⟩ := h.added
    exact (hf.page w ((hb w).2 (hpage hv hw ▸ hv))).1
  · intro h
    have hex : ∀ n, ∃ a, ∀ p ∈ qs, p.1 / pageSize = n → a = p.2 / pageSize := fun n => by
      by_cases hn : ∃ p ∈ qs, p.1 / pageSize = n
      · obtain ⟨p, hp, hpn⟩ := hn
        exact ⟨p.2 / pageSize, fun q hq hqn => by rw [hadd.maps.unique hp hq (hpn.trans hqn.symm)]⟩
      · exact ⟨0, fun p hp hpn => absurd ⟨p, hp, hpn⟩ hn⟩
    choose f hf using hex
    have hmem : ∀ w, Between g len w ↔ ∃ p ∈ qs, p.1 / pageSize = w / pageSize := by
      intro w
      rw [hb]
      constructor
      · intro hw
        obtain ⟨p, hp, he⟩ := List.mem_map.1 hw
        exact ⟨p, hp, by rw [he, page_mul_div]⟩
      · rintro ⟨p, hp, he⟩
        rw [hpage (List.mem_map_of_mem hp) he.symm]
        exact List.mem_map_of_mem hp
    have hframe := fun (p : Nat × Nat) (hp : p ∈ qs) => hadd.holds.frame p.2 (List.mem_map_of_mem hp)
    have hone := fun (p : Nat × Nat) (hp : p ∈ qs) => hadd.holds.one p.2 (List.mem_map_of_mem hp)
    refine ⟨hmaps, ⟨f, fun w hw => ?_, fun v w hv hw he => ?_, fun i => ?_⟩, fun w hw => ?_, fun hne w => ?_⟩
    · obtain ⟨p, hp, he⟩ := (hmem w).1 hw
      obtain ⟨e, hleaf, hae⟩ := hadd.maps.here p hp
      have hat : MappedAt s'.vm.mem r w p.2 := ⟨e, (leaf_congr he.symm).trans hleaf, hae⟩
      rw [hf _ p hp he, Nat.mul_div_cancel' (hframe p hp).2.1]
      exact ⟨h p.1 (List.mem_map_of_mem hp) w he.symm, hat.phys, (hone p hp).2, (hone p hp).1⟩
    · obtain ⟨p, hp, hpv⟩ := (hmem v).1 hv
      obtain ⟨q, hq, hqw⟩ := (hmem w).1 hw
      rw [hf _ p hp hpv, hf _ q hq hqw] at he
      have hpq := page_div_inj (hframe p hp).2.1 (hframe q hq).2.1 he
      rw [← hpv, ← hqw, List.inj_on_of_nodup_map hadd.holds.nodup hp hq hpq]
    · rcases hadd.holds.counts i with h1 | h1 | h1
      · exact Or.inl h1
      · exact Or.inr (Or.inl h1)
      · obtain ⟨p, hp, he⟩ := List.mem_map.1 h1
        refine Or.inr (Or.inr ⟨p.1, (hmem p.1).2 ⟨p, hp, rfl⟩, ?_⟩)
        rw [hf _ p hp rfl, he, page_mul_div]
    · rw [vmPhysAddr_leaf, vmPhysAddr_leaf, hadd.maps.other w fun p hp he => hw ((hmem w).2 ⟨p, hp, he.symm⟩)]
    · rw [vmPhysAddr_leaf, vmPhysAddr_leaf, hcur hne w]

/-! ### Undoing -/

section

variable {s s' : MmState} {vm : Vm} {r : Nat} {ws : List Nat} {qs : List (Nat × Nat)}
  (hadd : Added vm r qs (leaf s.vm.mem r) s.vm.frames.count) (hmaps : s'.mmaps = s.mmaps)
  (hlow : ∀ u ∈ ws ++ qs.map Prod.fst, pageSize ∣ u ∧ u < 2 ^ 47)
  (hvm : s'.vm = releasePages s.pml4t vm (ws ++ qs.map Prod.fst))
include hadd hmaps hlow hvm

/-- In the address space of the current thread, the pages must not have been mapped. -/
private theorem restored_same (hroot : r = s.pml4t) (hnew : ∀ u ∈ ws, ∀ p ∈ qs, u / pageSize ≠ p.1 / pageSize) :
    Restored s s' r ↔ ∀ u ∈ ws ++ qs.map Prod.fst, NoPage s.vm.mem r u := by
  rw [← hroot] at hvm
  constructor
  · intro h u hu w hw
    rw [← h.phys w, vmPhysAddr_leaf, hvm,
      releasePages_leaf hadd.holds.space.tree (fun x hx => (hlow x hx).2) (Or.inr ⟨u, hu, hw⟩)]
    rfl
  · intro h
    have hws : ∀ u ∈ ws, u < 2 ^ 47 ∧ leaf vm.mem r u = none := fun u hu => by
      have hin := List.mem_append_left (qs.map Prod.fst) hu
      exact ⟨(hlow u hin).2, (hadd.maps.other u (hnew u hu)).trans (noPage_iff.1 (h u hin))⟩
    obtain ⟨h1, h2, h3, -⟩ := releasePages_none hadd.holds.space hws
    have hadd2 : Added (releasePages r vm ws) r qs (leaf s.vm.mem r) s.vm.frames.count :=
      ⟨hadd.holds.extend h3 fun i => Or.inl (by rw [h1]), hadd.maps.congr h2⟩
    obtain ⟨ℓ', h4, h5⟩ := releasePages_added hadd2 fun u hu => (hlow u (List.mem_append_right ws hu)).1
    have hrel : releasePages r (releasePages r vm ws) (qs.map Prod.fst) = s'.vm := by
      rw [hvm, releasePages, releasePages, releasePages, List.foldl_append]
    rw [hrel] at h4
    have hphys : ∀ w, vmPhysAddr s'.vm.mem r w = vmPhysAddr s.vm.mem r w := fun w => by
      rw [vmPhysAddr_leaf, h4.maps.other w (by simp)]
      rcases h5 w with ⟨-, h6⟩ | ⟨⟨u, hu, h6⟩, h7⟩
      · rw [h6, vmPhysAddr_leaf]
      · rw [h7, h u (List.mem_append_right ws hu) w h6]
        rfl
    refine ⟨hmaps, hphys, fun w => hroot ▸ hphys w, fun i => ?_⟩
    rcases h4.holds.counts i with h6 | h6 | h6
    · exact Or.inl h6
    · exact Or.inr h6
    · simp at h6

/-- In another address space, no page must have been mapped by the call. -/
private theorem restored_other (hq : Space s.vm s.pml4t) (hapart : Apart s.vm.mem r s.pml4t)
    (hext : Extends s.vm vm r) (hw : UserWrites s.vm vm r) :
    Restored s s' r ↔ qs = [] ∧ ∀ u ∈ ws ++ qs.map Prod.fst, NoPage s.vm.mem s.pml4t u := by
  obtain ⟨hq1, -, hleaf, hapart1⟩ := hq.other hapart hext hw
  have hnone : (∀ u ∈ ws ++ qs.map Prod.fst, NoPage s.vm.mem s.pml4t u) → s'.vm.frames = vm.frames ∧
      (∀ w, leaf s'.vm.mem s.pml4t w = leaf s.vm.mem s.pml4t w) ∧ (∀ w, leaf s'.vm.mem r w = leaf vm.mem r w) ∧
      ∀ g, IsTable s'.vm.mem r g ↔ IsTable vm.mem r g := by
    intro h
    obtain ⟨h1, h2, h3, h4⟩ :=
      releasePages_none hq1 fun u hu => ⟨(hlow u hu).2, (hleaf u).trans (noPage_iff.1 (h u hu))⟩
    rw [← hvm] at h1 h2 h3 h4
    obtain ⟨-, h5, h6, -⟩ := hext.space.other ⟨hapart1.right, hapart1.left⟩ h3 h4
    exact ⟨h1, fun w => (h2 w).trans (hleaf w), h6, h5⟩
  constructor
  · intro h
    have hno : ∀ u ∈ ws ++ qs.map Prod.fst, NoPage s.vm.mem s.pml4t u := by
      intro u hu w hw'
      rw [← h.current w, vmPhysAddr_leaf, hvm,
        releasePages_leaf hq1.tree (fun x hx => (hlow x hx).2) (Or.inr ⟨u, hu, hw'⟩)]
      rfl
    refine ⟨?_, hno⟩
    -- a frame of a new page would still have its reference
    by_contra hne
    obtain ⟨p, hp⟩ := List.exists_mem_of_ne_nil qs hne
    have hmem : p.2 ∈ qs.map Prod.snd := List.mem_map_of_mem hp
    obtain ⟨-, hd, -, ht⟩ := hadd.holds.frame p.2 hmem
    obtain ⟨h1, h2⟩ := hadd.holds.one p.2 hmem
    obtain ⟨h3, -, -, h4⟩ := hnone hno
    rcases h.counts (p.2 / pageSize) with h5 | ⟨-, h5⟩
    · rw [h3, h2, h1] at h5
      cases h5
    · rw [Nat.mul_div_cancel' hd, h4] at h5
      exact ht h5
  · rintro ⟨rfl, hno⟩
    obtain ⟨h1, h2, h3, h4⟩ := hnone hno
    refine ⟨hmaps, fun w => ?_, fun w => ?_, fun i => ?_⟩
    · rw [vmPhysAddr_leaf, vmPhysAddr_leaf, h3, hadd.maps.other w (by simp)]
    · rw [vmPhysAddr_leaf, vmPhysAddr_leaf, h2]
    · rw [h1, h4]
      rcases hadd.holds.counts i with h5 | h5 | h5
      · exact Or.inl h5
      · exact Or.inr h5
      · simp at h5

end

/-! ### The call -/

section

variable {s : MmState} {r i len : Nat} {g : Region} (hg : g.Wf) (hq : Space s.vm s.pml4t) (hr : Space s.vm r)
  (hapart : r ≠ s.pml4t → Apart s.vm.mem r s.pml4t)
include hg hq hr hapart

def RegionLaw (s : MmState) (r i : Nat) (g : Region) (len : Nat) : MmState × Option Errno → Prop
  | (s', some _) => Restored s s' r
  | (s', none) => Expanded s s' r i g len

omit hg hq hr hapart in
theorem expandRegion_ok {size : Nat} {vm : Vm}
    (h : mapPages r (pageFlagUser ||| pageFlagRw) false s.vm (pages g.stop (add64 g.base size)) = (vm, none)) :
    ∃ s', expandRegion s r i g size = (s', none) ∧ s'.vm = vm ∧ s'.mmaps = s.mmaps.set i { g with len := size } := by
  unfold expandRegion
  rw [h]
  exact ⟨_, rfl, rfl, rfl⟩

omit hg hq hr hapart in
theorem expandRegion_failed {size v : Nat} {vm : Vm}
    (h : mapPages r (pageFlagUser ||| pageFlagRw) false s.vm (pages g.stop (add64 g.base size)) = (vm, some v)) :
    ∃ s', expandRegion s r i g size = (s', some .ENOMEM) ∧ s'.vm = releasePages s.pml4t vm (pages g.base v) ∧
      s'.mmaps = s.mmaps := by
  unfold expandRegion
  rw [h]
  exact ⟨_, rfl, rfl, rfl⟩

private theorem expandRegion_iff (hlen : len < 2 ^ 64) :
    RegionLaw s r i g len (expandRegion s r i g (alignUp len pageSize)) ↔ ExpandFine s r g len := by
  obtain ⟨hd, hbase, htop⟩ := stop_le_top hg
  by_cases hfits : g.base + len ≤ 2 ^ 64 - pageSize
  swap
  · -- the new end wraps, so no page is mapped
    refine iff_of_false (fun h => ?_) fun h => hfits h.fits
    have hno := not_fits hg hlen hfits
    have hnil : pages g.stop (add64 g.base (alignUp len pageSize)) = [] := by
      rw [pages, if_neg (by omega)]
      rfl
    obtain ⟨s', hcall, hvm, -⟩ := @expandRegion_ok s r i g (alignUp len pageSize) s.vm (by rw [hnil, mapPages])
    rw [hcall] at h
    obtain ⟨f, hf⟩ := Expanded.added h
    have hbetween : Between g len g.stop := by
      refine ⟨Nat.le_refl _, ?_⟩
      rw [Nat.mul_div_cancel' hd]
      simp only [pageSize] at *
      omega
    obtain ⟨h1, h2, h3, -⟩ := hf.page _ hbetween
    rw [hvm, h1] at h2
    have hf0 : f (g.stop / pageSize) = 0 := by
      simp only [pageSize] at h2 ⊢
      omega
    rw [hf0] at h3
    exact hr.reserved h3
  obtain ⟨hdl, -, hlt⟩ := alignUp_page_spec (x := len) (by omega)
  have hadd64 : add64 g.base (alignUp len pageSize) = g.base + alignUp len pageSize := by
    refine add64_of_lt ?_
    simp only [pageSize] at *
    omega
  have hdh : pageSize ∣ g.base + alignUp len pageSize := Nat.dvd_add hg.base hdl
  have hsuf : ∀ vs, Enough s r vs ↔ (mapPages r (pageFlagUser ||| pageFlagRw) false s.vm vs).2 = none :=
    fun _ => Iff.rfl
  obtain ⟨hext, hwrites, hle⟩ := loop_writes hg hr (g.base + alignUp len pageSize)
  obtain ⟨qs, hadd, hcase⟩ := mapPages_added expandFlags false (Added.start hr)
    (@pages_apart g.stop (g.base + alignUp len pageSize) hd) (by simp)
  rw [List.append_nil] at hadd
  obtain ⟨⟨vm, failed⟩, hrun⟩ : ∃ x, mapPages r (pageFlagUser ||| pageFlagRw) false s.vm
    (pages g.stop (g.base + alignUp len pageSize)) = x := ⟨_, rfl⟩
  have hall := hsuf (pages g.stop (g.base + alignUp len pageSize))
  rw [hrun] at hext hwrites hle hadd hcase hall
  rw [← hadd64] at hrun
  rcases hcase with ⟨rfl, hqs⟩ | ⟨v, rest, hsplit, rfl⟩
  · -- all pages have been mapped
    have hcur : r ≠ s.pml4t → ∀ w, leaf vm.mem s.pml4t w = leaf s.vm.mem s.pml4t w := fun hne =>
      (hq.other (hapart hne) hext hwrites).2.2.1
    obtain ⟨s', hcall, hvm, hmaps⟩ := @expandRegion_ok s r i g _ _ hrun
    rw [← hvm] at hadd hcur
    rw [hcall]
    refine (expanded_iff hg hfits hadd hqs hcur hmaps).trans ?_
    exact ⟨fun h => ⟨hfits, fun _ => h, fun h1 => absurd (hall.2 rfl) h1, fun h1 => absurd (hall.2 rfl) h1⟩,
      fun h => h.free (hall.2 rfl)⟩
  · -- the loop has stopped at the page `v`
    obtain ⟨s', hcall, hvm, hmaps⟩ := @expandRegion_failed s r i g _ v vm hrun
    rw [hcall]
    have hno : ¬Enough s r (pages g.stop (g.base + alignUp len pageSize)) := fun h => Option.some_ne_none v (hall.1 h)
    have hres := congrArg Prod.snd hrun
    rw [hadd64] at hres
    have hv : v ∈ pages g.stop (g.base + alignUp len pageSize) := mapPages_mem hres
    obtain ⟨hvd, hsv, hvh⟩ := (mem_pages_aligned hd).1 hv
    have hv47 := hle v rfl
    have hpre := pages_before hd hsplit
    have hus : pages g.base v = pages g.base g.stop ++ qs.map Prod.fst := by
      rw [← hpre]
      exact pages_split hg.base hd hbase hsv
    rw [hus] at hvm
    have hlow : ∀ u ∈ pages g.base g.stop ++ qs.map Prod.fst, pageSize ∣ u ∧ u < 2 ^ 47 := fun u hu => by
      rw [← hus, mem_pages_aligned hg.base] at hu
      exact ⟨hu.1, by omega⟩
    have hundo :
      (∀ u ∈ pages g.base (g.base + alignUp len pageSize), u < g.stop ∨ Enough s r (pages g.stop (u + pageSize)) →
        NoPage s.vm.mem s.pml4t u) ↔ ∀ u ∈ pages g.base g.stop ++ qs.map Prod.fst, NoPage s.vm.mem s.pml4t u := by
      have hin : ∀ u, u ∈ pages g.base g.stop ++ qs.map Prod.fst ↔ u ∈ pages g.base (g.base + alignUp len pageSize) ∧
          (u < g.stop ∨ Enough s r (pages g.stop (u + pageSize))) := by
        intro u
        rw [← hus, mem_pages_aligned hg.base, mem_pages_aligned hg.base]
        by_cases hu : u < g.stop
        · simp only [hu, true_or, and_true]
          exact ⟨fun h => ⟨h.1, h.2.1, by omega⟩, fun h => ⟨h.1, h.2.1, by omega⟩⟩
        · by_cases hpg : u ∈ pages g.stop (g.base + alignUp len pageSize)
          · have hiff := mapPages_before_iff hd hdh hsplit hres hpg
            rw [← hpre, mem_pages_aligned hd] at hiff
            rw [mem_pages_aligned hd] at hpg
            simp only [hu, false_or]
            rw [hsuf, hiff]
            exact ⟨fun h => ⟨⟨h.1, h.2.1, hpg.2.2⟩, hpg.1, hpg.2.1, h.2.2⟩, fun h => ⟨h.1.1, h.1.2.1, h.2.2.2⟩⟩
          · rw [mem_pages_aligned hd] at hpg
            exact iff_of_false (fun h => hpg ⟨h.1, by omega, by omega⟩) fun h => hpg ⟨h.1.1, by omega, h.1.2.2⟩
      refine ⟨fun h u hu => ?_, fun h u h1 h2 => h u ((hin u).2 ⟨h1, h2⟩)⟩
      obtain ⟨h1, h2⟩ := (hin u).1 hu
      exact h u h1 h2
    have hfirst : ¬Enough s r [g.stop] ↔ qs = [] := by
      have hstop : g.stop ∈ pages g.stop (g.base + alignUp len pageSize) :=
        (mem_pages_aligned hd).2 ⟨hd, Nat.le_refl _, by omega⟩
      have hiff := mapPages_before_iff hd hdh hsplit hres hstop
      have hone : pages g.stop (g.stop + pageSize) = [g.stop] := by
        rw [pages, if_pos (by simp only [pageSize]; omega), Nat.add_sub_cancel_left]
        rfl
      rw [hone, ← hpre, mem_pages_aligned hd] at hiff
      rw [hsuf, hiff, ← List.map_eq_nil_iff (f := Prod.fst), ← hpre, List.eq_nil_iff_forall_not_mem]
      constructor
      · intro h u hu
        obtain ⟨-, h1, h2⟩ := (mem_pages_aligned hd).1 hu
        exact h ⟨hd, Nat.le_refl _, by omega⟩
      · exact fun h h1 => h g.stop ((mem_pages_aligned hd).2 h1)
    have hfine : ExpandFine s r g len ↔ (r = s.pml4t ∨ qs = []) ∧
        ∀ u ∈ pages g.base g.stop ++ qs.map Prod.fst, NoPage s.vm.mem s.pml4t u := by
      rw [← hundo, ← hfirst]
      exact ⟨fun h => ⟨h.root hno, h.undo hno⟩, fun h => ⟨hfits, fun h1 => absurd h1 hno, fun _ => h.1, fun _ => h.2⟩⟩
    rw [hfine]
    by_cases hroot : r = s.pml4t
    · refine (restored_same hadd hmaps hlow hvm hroot fun u hu p hp he => ?_).trans ?_
      · obtain ⟨hud, -, hlt⟩ := (mem_pages_aligned hg.base).1 hu
        have hp1 : p.1 ∈ pages g.stop v := hpre ▸ List.mem_map_of_mem hp
        obtain ⟨hpd, hge, -⟩ := (mem_pages_aligned hd).1 hp1
        have heq := page_div_inj hud hpd he
        omega
      · rw [hroot]
        simp
    · rw [or_iff_right hroot]
      exact restored_other hadd hmaps hlow hvm hq (hapart hroot) hext hwrites

end

/-- A call of `expand_mmap` does what it is for if and only if the new end is an address, the pages are free, and
there is nothing to undo in the wrong place. -/
theorem expand_law_iff {s : MmState} {r : Nat} {addr len : Word} (h : MmapsWf s.mmaps) (hq : Space s.vm s.pml4t)
    (hr : Space s.vm r) (hapart : r ≠ s.pml4t → Apart s.vm.mem r s.pml4t) : ExpandLaw s r addr len ↔
      ∀ g, regionAt s.mmaps (findRegionBeforeEqual s.mmaps addr) = some g → ExpandFine s r g len := by
  unfold ExpandLaw
  rcases hat : regionAt s.mmaps (findRegionBeforeEqual s.mmaps addr) with _ | g
  · have hcall : expandMmap s r addr len = (s, some .ENOMEM) := by
      unfold expandMmap
      simp only [hat]
    rw [hcall]
    exact iff_of_true ⟨rfl, fun _ => rfl, fun _ => rfl, fun _ => Or.inl rfl⟩ fun g hg => by cases hg
  · have hg : g.Wf := by
      unfold regionAt at hat
      split at hat
      · cases hat
      · exact h.region g (List.mem_of_getElem? hat)
    have hcall : expandMmap s r addr len =
        expandRegion s r (findRegionBeforeEqual s.mmaps addr).toNat g (alignUp len pageSize) := by
      unfold expandMmap
      simp only [hat]
    have hiff := expandRegion_iff (i := (findRegionBeforeEqual s.mmaps addr).toNat) hg hq hr hapart len.isLt
    simp only [Option.some.injEq, forall_eq']
    rw [← hiff, hcall]
    generalize expandRegion s r (findRegionBeforeEqual s.mmaps addr).toNat g (alignUp len pageSize) = x
    rcases x with ⟨s', _ | e⟩
    · exact ⟨fun ⟨_, h1, h2⟩ => h1 ▸ h2, fun h1 => ⟨g, rfl, h1⟩⟩
    · exact Iff.rfl

def expandable : Region := ⟨0x10000, 0x1000, protRead ||| protWrite, none, -1, 0, mapPrivate ||| mapAnonymous⟩

private theorem expandable_wf : MmapsWf [expandable] := by
  refine ⟨fun g hg => ?_, by simp⟩
  obtain rfl := List.mem_singleton.1 hg
  exact ⟨by decide, by decide, by decide, by decide⟩

/-- A region that has not been filled grows by a page. -/
theorem expand_law_small : (expandMmap { readerMm with mmaps := [expandable] } 0x1000 0x10000 0x2000).2 = none ∧
    ExpandLaw { readerMm with mmaps := [expandable] } 0x1000 ((0x10000 : Word) : Nat) ((0x2000 : Word) : Nat) := by
  refine ⟨by decide +kernel, (expand_law_iff expandable_wf emptyVm_space emptyVm_space fun h => absurd rfl h).2
    fun g hg => ?_⟩
  have hno : ∀ v, NoPage emptyVm.mem 0x1000 v := fun v => noPage_iff.2 (emptyVm_leaf v)
  have hat : regionAt [expandable] (findRegionBeforeEqual [expandable] 0x10000) = some expandable := by decide
  obtain rfl := Option.some.inj (hat.symm.trans hg)
  exact ⟨by decide, fun _ v _ => hno v, fun _ => Or.inl rfl, fun _ v _ _ => hno v⟩

def mappedVm : Vm := (mapPages 0x1000 (pageFlagUser ||| pageFlagRw) true emptyVm [0x10000]).1

def fullMm : MmState :=
  { readerMm with
    vm := { mappedVm with frames := { mappedVm.frames with memAvail := false } }, mmaps := [expandable] }

private theorem fullMm_space : Space fullMm.vm 0x1000 := by
  obtain ⟨qs, hadd, -⟩ := @mapPages_added _ _ _ _ expandFlags true _ [0x10000] _ (Added.start emptyVm_space)
    (by simp [PagesApart]) (by simp)
  have h := hadd.holds.space
  exact ⟨h.tree, ⟨h.wf.aligned, h.wf.next, h.wf.bases, h.wf.ends⟩, h.counted, h.reserved⟩

/-- When there is no memory to expand the region, its page is lost. -/
theorem not_expand_law : MmapsWf fullMm.mmaps ∧ Space fullMm.vm fullMm.pml4t ∧
    ¬ExpandLaw fullMm fullMm.pml4t 0x10000 0x2000 := by
  refine ⟨expandable_wf, fullMm_space, fun h => ?_⟩
  have hfail : (expandMmap fullMm fullMm.pml4t 0x10000 0x2000).2 = some .ENOMEM := by decide +kernel
  have hlost : vmPhysAddr (expandMmap fullMm fullMm.pml4t 0x10000 0x2000).1.vm.mem fullMm.pml4t 0x10000 ≠
      vmPhysAddr fullMm.vm.mem fullMm.pml4t 0x10000 := by decide +kernel
  unfold ExpandLaw at h
  generalize expandMmap fullMm fullMm.pml4t 0x10000 0x2000 = x at h hfail hlost
  obtain ⟨s', e⟩ := x
  obtain rfl := hfail
  exact hlost (h.phys 0x10000)

end Pml.Kernel
