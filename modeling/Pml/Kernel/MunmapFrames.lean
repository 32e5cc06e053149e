import Mathlib.Data.Set.Card
import Mathlib.Order.Interval.Set.Infinite
import Pml.Kernel.Munmap

/-!
# The frames of removed pages

`clear_mappings` looks for the frame of a page after it has ended the page's translation, so that it finds none: the
frames of the removed pages keep their references (`munmap_releases_iff`).
-/

namespace Pml.Kernel

open Arch

/-- The calls that remove pages: `munmap`, and `mmap` with `MAP_FIXED` before it maps its own pages. -/
inductive Remover where
  | munmap
  | mmapFixed

def removeRange (env : MmapEnv) (s : MmState) (addr len : Nat) : Remover → Option (MmState × Option Errno)
  | .munmap => sysMunmap env s addr len
  | .mmapFixed => clearMappings env s addr len true

def removedPages (s s' : MmState) : Set Nat := {v | pageSize ∣ v ∧ Covered s.mmaps v ∧ ¬Covered s'.mmaps v}

def MmState.LiesIn (s : MmState) (v i : Nat) : Prop :=
  vmPhysAddr s.vm.mem s.pml4t v ≠ 0 ∧ vmPhysAddr s.vm.mem s.pml4t v / pageSize = i

def ReleasesFrames (s s' : MmState) : Prop :=
  ∀ i, s'.vm.frames.count i + {v ∈ removedPages s s' | s.LiesIn v i}.ncard = s.vm.frames.count i

/-- The page belongs to a region that loses it: one that starts before the range loses all that follows, the others
lose what is before the end `e`. -/
def Lost (t : List Region) (addr e v : Nat) : Prop :=
  ∃ r ∈ t, r.Covers v ∧ addr ≤ v ∧ (r.base < addr ∨ v < e)

/-! ### The pages that are removed -/

private theorem clip_covers_iff {r : Region} (hr : r.Wf) {addr e v : Nat} (he : pageSize ∣ e) :
    (∃ r', clip addr e r = some r' ∧ r'.Covers v) ↔ r.Covers v ∧ ¬(addr ≤ v ∧ (r.base < addr ∨ v < e)) := by
  have htop := hr.top
  simp only [userMemTopVma] at htop
  rw [clip, hr.stop]
  by_cases hb : r.base < addr
  · have hcov : (r.upTo addr).Covers v ↔ r.Covers v ∧ v < addr := by
      unfold Region.upTo Region.Covers
      rw [hr.stop]
      split
      · rename_i hin
        have hs : sub64 addr r.base = addr - r.base := sub64_of_le (Nat.le_of_lt hb) (by omega)
        simp only [hs]
        omega
      · omega
    rw [if_pos hb]
    constructor
    · rintro ⟨r', h, hv⟩
      obtain rfl := Option.some.inj h
      obtain ⟨h1, h2⟩ := hcov.1 hv
      exact ⟨h1, by omega⟩
    · rintro ⟨h1, h2⟩
      exact ⟨_, rfl, hcov.2 ⟨h1, by omega⟩⟩
  rw [if_neg hb]
  by_cases h1 : r.base + r.len ≤ e
  · rw [if_pos h1]
    constructor
    · rintro ⟨r', h, -⟩
      exact absurd h (by simp)
    · rintro ⟨⟨h2, h3⟩, h4⟩
      omega
  rw [if_neg h1]
  by_cases h2 : r.base < e
  · obtain ⟨-, hbase, hend⟩ := hr.from he h2 (by omega)
    rw [if_pos h2]
    constructor
    · rintro ⟨r', h, hv⟩
      obtain rfl := Option.some.inj h
      have hv1 := hv.1
      have hv2 := hv.2
      exact ⟨⟨by omega, by omega⟩, by omega⟩
    · rintro ⟨⟨h3, h4⟩, h5⟩
      exact ⟨_, rfl, by omega, by omega⟩
  · rw [if_neg h2]
    constructor
    · rintro ⟨r', h, hv⟩
      obtain rfl := Option.some.inj h
      have hv1 := hv.1
      exact ⟨hv, by omega⟩
    · exact fun h => ⟨r, rfl, h.1⟩

section

variable {s s' : MmState} {addr len : Nat} (hwf : MmapsWf s.mmaps)
include hwf

private theorem mem_removedPages (ha : pageSize ∣ addr) (hl : pageSize ∣ len)
    (hmaps : s'.mmaps = s.mmaps.filterMap (clip addr (add64 addr len))) {v : Nat} :
    v ∈ removedPages s s' ↔ pageSize ∣ v ∧ Lost s.mmaps addr (add64 addr len) v := by
  have hcov : Covered s'.mmaps v ↔
      ∃ r ∈ s.mmaps, r.Covers v ∧ ¬(addr ≤ v ∧ (r.base < addr ∨ v < add64 addr len)) := by
    rw [hmaps, covered_filterMap]
    exact exists_congr fun r => and_congr_right fun hr => clip_covers_iff (hwf.region r hr) (dvd_add64 ha hl)
  unfold Lost
  refine and_congr_right fun _ => ?_
  rw [hcov]
  constructor
  · rintro ⟨⟨r, hr, hv⟩, hno⟩
    refine ⟨r, hr, hv, ?_⟩
    by_contra h
    exact hno ⟨r, hr, hv, h⟩
  · rintro ⟨r, hr, hv, h⟩
    refine ⟨⟨r, hr, hv⟩, ?_⟩
    rintro ⟨r2, hr2, hv2, h2⟩
    obtain rfl := hwf.covers_unique hr hr2 hv hv2
    exact h2 h

private theorem removedPages_finite : (removedPages s s').Finite := by
  refine (Set.finite_lt_nat (2 ^ 47)).subset ?_
  rintro v ⟨-, ⟨r, hr, hv⟩, -⟩
  exact (hwf.region r hr).lt hv

private theorem releasesFrames_iff (hframes : s'.vm.frames = s.vm.frames) :
    ReleasesFrames s s' ↔ ∀ v ∈ removedPages s s', vmPhysAddr s.vm.mem s.pml4t v = 0 := by
  constructor
  · intro h v hv
    by_contra hne
    have h1 := h (vmPhysAddr s.vm.mem s.pml4t v / pageSize)
    rw [hframes] at h1
    have hcard := (Set.ncard_eq_zero ((removedPages_finite hwf).subset (Set.sep_subset _ _))).1 (Nat.add_eq_left.1 h1)
    exact Set.notMem_empty v (hcard ▸ ⟨hv, hne, rfl⟩)
  · intro h i
    have hempty : {v ∈ removedPages s s' | s.LiesIn v i} = ∅ := by
      refine Set.eq_empty_of_forall_notMem ?_
      rintro v ⟨hv, hin⟩
      exact hin.1 (h v hv)
    rw [hempty, Set.ncard_empty, hframes, Nat.add_zero]

end

/-! ### The frames -/

private theorem unmapPages_frames {pml4t : Nat} {vm : Vm} {vs : List Nat} (ht : PageTree vm.mem pml4t)
    (hvs : ∀ v ∈ vs, v < 2 ^ 47) : (unmapPages pml4t vm vs).1.frames = vm.frames := by
  induction vs generalizing vm with
  | nil => rfl
  | cons v vs ih =>
    have hv := hvs v (by simp)
    obtain ⟨ht', hself, -⟩ := vmUnmapPage_spec ht hv
    have hok := vmUnmapPage_user vm.mem pml4t hv
    simp only [unmapPages, hok, hself, Bool.true_eq_false, ↓reduceIte]
    exact ih ht' fun w hw => hvs w (List.mem_cons_of_mem v hw)

private theorem removeRange_frames {env : MmapEnv} {s s' : MmState} {addr len : Nat} {how : Remover}
    (hwf : MmapsWf s.mmaps)
    (ht : PageTree s.vm.mem s.pml4t) (hla : addr < 2 ^ 64) (ha : pageSize ∣ addr) (hl : pageSize ∣ len)
    (hc : removeRange env s addr len how = some (s', none)) : s'.vm.frames = s.vm.frames ∧
      s'.mmaps = s.mmaps.filterMap (clip addr (add64 addr len)) := by
  have hclear : ∃ sync, clearMappings env s addr len sync = some (s', none) := by
    cases how with
    | munmap =>
      refine ⟨false, ?_⟩
      simp only [removeRange, sysMunmap] at hc
      rwa [if_neg (by simp only [and_page, Nat.mod_eq_zero_of_dvd ha, Nat.mod_eq_zero_of_dvd hl]; simp)] at hc
    | mmapFixed => exact ⟨true, hc⟩
  obtain ⟨sync, hc⟩ := hclear
  obtain ⟨habs, -⟩ | ⟨-, hmaps, hvm, -⟩ := clearMappings_table hwf hla hc
  · exact absurd rfl habs
  refine ⟨?_, hmaps⟩
  rw [hvm]
  refine unmapPages_frames ht fun v hv => ?_
  obtain ⟨r, hr, hv⟩ := List.mem_flatMap.1 hv
  exact (hwf.region r hr).lt (mem_cut (hwf.region r hr) hv).2.1

/-- The removal of a range releases the frames of the removed pages if and only if none of these pages has a frame. -/
theorem munmap_releases_iff {env : MmapEnv} {s s' : MmState} {addr len : Nat} {how : Remover} (hwf : MmapsWf s.mmaps)
    (ht : PageTree s.vm.mem s.pml4t) (hla : addr < 2 ^ 64) (ha : pageSize ∣ addr) (hl : pageSize ∣ len)
    (hc : removeRange env s addr len how = some (s', none)) : ReleasesFrames s s' ↔
      ∀ v, pageSize ∣ v → Lost s.mmaps addr (add64 addr len) v → vmPhysAddr s.vm.mem s.pml4t v = 0 := by
  obtain ⟨hframes, hmaps⟩ := removeRange_frames hwf ht hla ha hl hc
  rw [releasesFrames_iff hwf hframes]
  constructor
  · exact fun h v hd hv => h v ((mem_removedPages hwf ha hl hmaps).2 ⟨hd, hv⟩)
  · intro h v hv
    obtain ⟨hd, hv⟩ := (mem_removedPages hwf ha hl hmaps).1 hv
    exact h v hd hv

def unmappedPage : MmState := { emptyMm with mmaps := [anonRegion 0x1000 0x1000] }

theorem munmap_releases_small : ∃ s', removeRange anonEnv unmappedPage 0x1000 0x1000 .munmap = some (s', none) ∧
    (ReleasesFrames unmappedPage s' ↔ ∀ v, pageSize ∣ v → Lost unmappedPage.mmaps 0x1000 (add64 0x1000 0x1000) v →
      vmPhysAddr unmappedPage.vm.mem unmappedPage.pml4t v = 0) := by
  have hret : (removeRange anonEnv unmappedPage 0x1000 0x1000 .munmap).map (·.2) = some none := by decide
  obtain ⟨⟨s', err⟩, hs, rfl⟩ := Option.map_eq_some_iff.1 hret
  exact ⟨s', hs, munmap_releases_iff (MmapsWf.singleton ⟨by decide, by decide, by decide, by decide⟩)
    smallVm_tree.pageTree (by decide) (by decide) (by decide) hs⟩

/-- The frame of the only page of a region is not released. -/
theorem not_munmap_releases : (MmapsWf onePage.mmaps ∧ PageTree onePage.vm.mem onePage.pml4t) ∧
    ∃ s', removeRange anonEnv onePage 0 0x1000 .munmap = some (s', none) ∧ ¬ReleasesFrames onePage s' := by
  have hwf : MmapsWf onePage.mmaps := MmapsWf.singleton ⟨by decide, by decide, by decide, by decide⟩
  have ht : PageTree onePage.vm.mem onePage.pml4t := smallVm_tree.pageTree
  have hret : (removeRange anonEnv onePage 0 0x1000 .munmap).map (·.2) = some none := by decide
  obtain ⟨⟨s', err⟩, hs, rfl⟩ := Option.map_eq_some_iff.1 hret
  obtain ⟨hframes, hmaps⟩ := removeRange_frames hwf ht (by decide) (by decide) (by decide) hs
  refine ⟨⟨hwf, ht⟩, s', hs, fun h => ?_⟩
  have hmem : 0 ∈ removedPages onePage s' :=
    (mem_removedPages hwf (by decide) (by decide) hmaps).2
      ⟨by decide, anonRegion 0 0x1000, by decide, ⟨by decide, by decide⟩, by decide, Or.inr (by decide)⟩
  have hphys := (releasesFrames_iff hwf hframes).1 h 0 hmem
  exact absurd hphys (by decide)

end Pml.Kernel
