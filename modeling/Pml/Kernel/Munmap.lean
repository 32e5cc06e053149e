import Pml.Kernel.MmapTable

/-!
# What `munmap` removes

`sys_munmap` removes exactly the pages of its range, in the table of mappings and in the page tables, if no region
starts before the range and reaches into it: of such a region the code keeps the part before the range only and unmaps
nothing (`munmap_exact_iff`).
-/

namespace Pml.Kernel

open Arch ByteMemory Radix

def Region.Covers (r : Region) (v : Nat) : Prop := r.base ≤ v ∧ v < r.base + r.len

def Covered (t : List Region) (v : Nat) : Prop := ∃ r ∈ t, r.Covers v

def Region.fileOffset (r : Region) (v : Nat) : Nat := add64 r.offset (v - r.base)

/-- The pages from `lo` to `hi` are removed, and nothing else changes. -/
structure Removes (s s' : MmState) (lo hi : Nat) : Prop where
  covered : ∀ v, pageSize ∣ v → (Covered s'.mmaps v ↔ Covered s.mmaps v ∧ ¬(lo ≤ v ∧ v < hi))
  region : ∀ v, pageSize ∣ v → ∀ r' ∈ s'.mmaps, r'.Covers v →
    ∃ r ∈ s.mmaps, r.Covers v ∧ r'.prot = r.prot ∧ r'.file = r.file ∧ r'.fileOffset v = r.fileOffset v
  translation : ∀ v, pageSize ∣ v → Covered s'.mmaps v →
    vmPhysAddr s'.vm.mem s'.pml4t v = vmPhysAddr s.vm.mem s.pml4t v
  unmapped : ∀ v, pageSize ∣ v → Covered s.mmaps v → lo ≤ v → v < hi → vmPhysAddr s'.vm.mem s'.pml4t v = 0

/-! ### Page tables -/

private theorem page_ne {v w : Nat} (hv : pageSize ∣ v) (hw : pageSize ∣ w) (hne : w ≠ v) :
    w / pageSize ≠ v / pageSize :=
  fun h => hne (page_div_inj hw hv h)

/-- The loops over pages end the translations of their pages and keep all others. -/
private theorem unmapPages_spec {pml4t : Nat} {vm : Vm} {vs : List Nat} (ht : PageTree vm.mem pml4t)
    (hvs : ∀ v ∈ vs, pageSize ∣ v ∧ v < 2 ^ 47) {w : Nat} (hd : pageSize ∣ w) (hw : w < 2 ^ 47) :
    vmPhysAddr (unmapPages pml4t vm vs).1.mem pml4t w = if w ∈ vs then 0 else vmPhysAddr vm.mem pml4t w := by
  induction vs generalizing vm with
  | nil => simp [unmapPages]
  | cons v vs ih =>
    obtain ⟨hvd, hv⟩ := hvs v (by simp)
    obtain ⟨ht', hself, hother⟩ := vmUnmapPage_spec ht hv
    have hok := vmUnmapPage_user vm.mem pml4t hv
    simp only [unmapPages, hok, Bool.true_eq_false, ↓reduceIte]
    have hrest : ∀ x ∈ vs, pageSize ∣ x ∧ x < 2 ^ 47 := fun x hx => hvs x (List.mem_cons_of_mem v hx)
    have hsub : ∀ frames, vmPhysAddr (unmapPages pml4t ⟨(vmUnmapPage vm.mem pml4t v).1, frames⟩ vs).1.mem pml4t w =
        if w ∈ vs then 0 else vmPhysAddr (vmUnmapPage vm.mem pml4t v).1 pml4t w := fun _ => ih ht' hrest
    rw [hsub]
    by_cases hmem : w ∈ vs
    · rw [if_pos hmem, if_pos (List.mem_cons_of_mem v hmem)]
    · rw [if_neg hmem]
      by_cases hwv : w = v
      · subst hwv
        rw [if_pos List.mem_cons_self]
        exact hself
      · rw [if_neg (by simp [hwv, hmem])]
        exact hother w hw (page_ne hvd hd hwv)

/-! ### One region -/

private theorem add64_shift {o b e v : Nat} (h1 : b ≤ e) (h2 : e ≤ v) :
    add64 (add64 o (e - b)) (v - e) = add64 o (v - b) := by
  unfold add64
  rw [Nat.mod_add_mod]
  congr 1
  omega

private theorem Region.upTo_same (r : Region) (ptr : Nat) : (r.upTo ptr).prot = r.prot ∧ (r.upTo ptr).file = r.file ∧
    (r.upTo ptr).offset = r.offset ∧ (r.upTo ptr).base = r.base := by
  unfold Region.upTo
  obtain ⟨n, hn⟩ : ∃ n, sub64 ptr r.base = n := ⟨_, rfl⟩
  rw [hn]
  split
  · exact ⟨rfl, rfl, rfl, rfl⟩
  · exact ⟨rfl, rfl, rfl, rfl⟩

private theorem Region.fileOffset_congr {r r' : Region} (ho : r'.offset = r.offset) (hb : r'.base = r.base)
    (v : Nat) :
    r'.fileOffset v = r.fileOffset v := by
  rw [Region.fileOffset, Region.fileOffset, ho, hb]

private theorem Region.fileOffset_from (r : Region) (e v : Nat) :
    (r.from e).fileOffset v = add64 (add64 r.offset (sub64 e r.base)) (v - e) := rfl

section

variable {r : Region} (hr : r.Wf) {ptr e : Nat}
include hr

theorem mem_cut {v : Nat} (h : v ∈ cut ptr e r) : pageSize ∣ v ∧ r.Covers v ∧ ptr ≤ v ∧ v < e := by
  unfold cut at h
  rw [hr.stop] at h
  have hpage : ∀ x, v ∈ pages r.base x → pageSize ∣ v ∧ r.base ≤ v ∧ v < x := by
    intro x hx
    obtain ⟨i, rfl, hlt⟩ := mem_pages.1 hx
    exact ⟨Nat.dvd_add hr.base (Nat.dvd_mul_right _ _), Nat.le_add_right _ _, hlt⟩
  split at h
  · exact absurd h List.not_mem_nil
  · split at h
    · obtain ⟨h1, h2, h3⟩ := hpage _ h
      exact ⟨h1, ⟨h2, h3⟩, by omega, by omega⟩
    · split at h
      · obtain ⟨h1, h2, h3⟩ := hpage _ h
        exact ⟨h1, ⟨h2, by omega⟩, by omega, h3⟩
      · exact absurd h List.not_mem_nil

private theorem mem_cut_of {v : Nat} (hv : pageSize ∣ v) (hc : r.Covers v) (hb : ptr ≤ r.base) (he : v < e) :
    v ∈ cut ptr e r := by
  have hpage : ∀ x, v < x → v ∈ pages r.base x := by
    intro x hx
    obtain ⟨k, hk⟩ := Nat.dvd_sub hv hr.base
    exact mem_pages.2 ⟨k, by have := hc.1; omega, hx⟩
  unfold cut
  rw [hr.stop, if_neg (by omega)]
  split
  · exact hpage _ hc.2
  · rw [if_pos (by have := hc.1; omega)]
    exact hpage _ he

private theorem clip_same {r' : Region} (hc : clip ptr e r = some r') : r'.prot = r.prot ∧ r'.file = r.file ∧
    ∀ v, r'.Covers v → r'.fileOffset v = r.fileOffset v := by
  have htop := hr.top
  simp only [userMemTopVma] at htop
  unfold clip at hc
  rw [hr.stop] at hc
  split at hc
  · obtain rfl := Option.some.inj hc
    obtain ⟨h1, h2, h3, h4⟩ := r.upTo_same ptr
    exact ⟨h1, h2, fun v _ => Region.fileOffset_congr h3 h4 v⟩
  · split at hc
    · exact absurd hc (by simp)
    · split at hc
      · obtain rfl := Option.some.inj hc
        refine ⟨rfl, rfl, fun v hv => ?_⟩
        have hv1 : e ≤ v := hv.1
        have hs : sub64 e r.base = e - r.base := sub64_of_le (by omega) (by omega)
        rw [Region.fileOffset_from, hs]
        exact add64_shift (by omega) hv1
      · obtain rfl := Option.some.inj hc
        exact ⟨rfl, rfl, fun _ _ => rfl⟩

/-- A region that does not reach into the range from below loses the pages of the range. -/
private theorem clip_covers {len v : Nat} (hns : ¬(r.base < ptr ∧ ptr < r.base + r.len))
    (hwrap : ptr + len < 2 ^ 64 ∨ r.base < ptr) (hp : pageSize ∣ ptr) (hl : pageSize ∣ len) :
    (∃ r', clip ptr (add64 ptr len) r = some r' ∧ r'.Covers v) ↔ r.Covers v ∧ ¬(ptr ≤ v ∧ v < ptr + len) := by
  have hpos := hr.pos
  by_cases hb : r.base < ptr
  · have hclip : clip ptr (add64 ptr len) r = some r := by
      rw [clip, if_pos hb, Region.upTo, if_neg (by rw [hr.stop]; omega)]
    rw [hclip]
    constructor
    · rintro ⟨r', h, hv⟩
      obtain rfl := Option.some.inj h
      have hv2 := hv.2
      exact ⟨hv, by omega⟩
    · exact fun h => ⟨r, rfl, h.1⟩
  · have he : add64 ptr len = ptr + len := add64_of_lt (hwrap.resolve_right hb)
    rw [he, clip, if_neg hb, hr.stop]
    by_cases h1 : r.base + r.len ≤ ptr + len
    · rw [if_pos h1]
      constructor
      · rintro ⟨r', h, -⟩
        exact absurd h (by simp)
      · rintro ⟨⟨h2, h3⟩, h4⟩
        omega
    · rw [if_neg h1]
      by_cases h2 : r.base < ptr + len
      · obtain ⟨-, hbase, hend⟩ := hr.from (Nat.dvd_add hp hl) h2 (by omega)
        rw [if_pos h2]
        constructor
        · rintro ⟨r', h, hv⟩
          obtain rfl := Option.some.inj h
          have hv1 := hv.1
          have hv2 := hv.2
          exact ⟨⟨by omega, by omega⟩, by omega⟩
        · rintro ⟨⟨h3, h4⟩, h5⟩
          exact ⟨_, rfl, by omega, by omega⟩
      · rw [if_neg h2]
        constructor
        · rintro ⟨r', h, hv⟩
          obtain rfl := Option.some.inj h
          have hv1 := hv.1
          exact ⟨hv, by omega⟩
        · exact fun h => ⟨r, rfl, h.1⟩

end

theorem covered_filterMap {t : List Region} {f : Region → Option Region} {v : Nat} :
    Covered (t.filterMap f) v ↔ ∃ r ∈ t, ∃ r', f r = some r' ∧ r'.Covers v := by
  constructor
  · rintro ⟨r', hr', hv⟩
    obtain ⟨r, hr, hf⟩ := List.mem_filterMap.1 hr'
    exact ⟨r, hr, r', hf, hv⟩
  · rintro ⟨r, hr, r', hf, hv⟩
    exact ⟨r', List.mem_filterMap.2 ⟨r, hr, hf⟩, hv⟩

theorem MmapsWf.covers_unique {t : List Region} (h : MmapsWf t) {a b : Region} (ha : a ∈ t) (hb : b ∈ t) {v : Nat}
    (hva : a.Covers v) (hvb : b.Covers v) : a = b := by
  have hsym : ∀ x ∈ t, ∀ y ∈ t, x = y ∨ x.base + x.len ≤ y.base ∨ y.base + y.len ≤ x.base := by
    intro x hx y hy
    apply List.Pairwise.forall_of_forall_of_flip
      (R := fun x y => x = y ∨ x.base + x.len ≤ y.base ∨ y.base + y.len ≤ x.base)
      (fun _ _ => .inl rfl) (h.order.imp fun hxy => .inr (.inl hxy)) (h.order.imp fun hxy => .inr (.inr hxy)) hx hy
  obtain ⟨h1, h2⟩ := hva
  obtain ⟨h3, h4⟩ := hvb
  rcases hsym a ha b hb with h5 | h5 | h5
  · exact h5
  · omega
  · omega

/-! ### The call -/

/-- No region reaches into the range from below, and the range does not wrap unless all regions are below it. -/
def Removable (t : List Region) (addr len : Nat) : Prop :=
  (∀ r ∈ t, ¬(r.base < addr ∧ addr < r.base + r.len)) ∧ (addr + len < 2 ^ 64 ∨ ∀ r ∈ t, r.base < addr)

theorem Region.Wf.lt {r : Region} (h : r.Wf) {v : Nat} (hv : r.Covers v) : v < 2 ^ 47 := by
  have h1 := h.top
  have h2 := hv.2
  simp only [userMemTopVma] at h1
  omega

section

variable {s s' : MmState} {addr len : Nat} (hwf : MmapsWf s.mmaps) (ha : pageSize ∣ addr) (hl : pageSize ∣ len)
  (hmaps : s'.mmaps = s.mmaps.filterMap (clip addr (add64 addr len)))
include hwf ha hl hmaps

private theorem covers_before {r' : Region} (hr' : r' ∈ s'.mmaps) {v : Nat} (hv : r'.Covers v) :
    ∃ r ∈ s.mmaps, clip addr (add64 addr len) r = some r' ∧ r.Covers v := by
  rw [hmaps] at hr'
  obtain ⟨r, hr, hc⟩ := List.mem_filterMap.1 hr'
  obtain ⟨-, h1, h2⟩ := clip_wf (hwf.region r hr) ha (dvd_add64 ha hl) hc
  obtain ⟨h3, h4⟩ := hv
  exact ⟨r, hr, hc, by omega, by omega⟩

variable (ht : PageTree s.vm.mem s.pml4t)
  (hvm : s'.vm = (unmapPages s.pml4t s.vm (s.mmaps.flatMap (cut addr (add64 addr len)))).1)
  (hroot : s'.pml4t = s.pml4t)
include ht hvm hroot

omit hmaps ha hl in
private theorem translation_after {v : Nat} (hd : pageSize ∣ v) (hv : v < 2 ^ 47) : vmPhysAddr s'.vm.mem s'.pml4t v =
    if v ∈ s.mmaps.flatMap (cut addr (add64 addr len)) then 0 else vmPhysAddr s.vm.mem s.pml4t v := by
  rw [hvm, hroot]
  refine unmapPages_spec ht (fun w hw => ?_) hd hv
  obtain ⟨r, hr, hw⟩ := List.mem_flatMap.1 hw
  obtain ⟨h1, h2, -⟩ := mem_cut (hwf.region r hr) hw
  exact ⟨h1, (hwf.region r hr).lt h2⟩

private theorem removes_of_removable (h : Removable s.mmaps addr len) : Removes s s' addr (addr + len) := by
  obtain ⟨hns, hwrap⟩ := h
  have hlow : ∀ r ∈ s.mmaps, addr + len < 2 ^ 64 ∨ r.base < addr := fun r hr => hwrap.imp_right fun h => h r hr
  have hcov : ∀ v, Covered s'.mmaps v ↔ Covered s.mmaps v ∧ ¬(addr ≤ v ∧ v < addr + len) := by
    intro v
    rw [hmaps, covered_filterMap]
    constructor
    · rintro ⟨r, hr, hv⟩
      obtain ⟨h1, h2⟩ := (clip_covers (hwf.region r hr) (hns r hr) (hlow r hr) ha hl).1 hv
      exact ⟨⟨r, hr, h1⟩, h2⟩
    · rintro ⟨⟨r, hr, hv⟩, hout⟩
      exact ⟨r, hr, (clip_covers (hwf.region r hr) (hns r hr) (hlow r hr) ha hl).2 ⟨hv, hout⟩⟩
  refine ⟨fun v _ => hcov v, fun v _ r' hr' hv => ?_, fun v hd hv => ?_, fun v hd hv h1 h2 => ?_⟩
  · obtain ⟨r, hr, hc, hv'⟩ := covers_before hwf ha hl hmaps hr' hv
    obtain ⟨h1, h2, h3⟩ := clip_same (hwf.region r hr) hc
    exact ⟨r, hr, hv', h1, h2, h3 v hv⟩
  · obtain ⟨⟨r, hr, hv⟩, hout⟩ := (hcov v).1 hv
    rw [translation_after hwf ht hvm hroot hd ((hwf.region r hr).lt hv), if_neg]
    intro hmem
    obtain ⟨r2, hr2, hw⟩ := List.mem_flatMap.1 hmem
    obtain ⟨-, -, h1, h2⟩ := mem_cut (hwf.region r2 hr2) hw
    have h3 : add64 addr len ≤ addr + len := Nat.mod_le _ _
    exact hout ⟨h1, by omega⟩
  · obtain ⟨r, hr, hv⟩ := hv
    have hbase : addr ≤ r.base := by
      have h3 := hns r hr
      have h4 := hv.2
      omega
    have he : add64 addr len = addr + len := add64_of_lt ((hlow r hr).resolve_right (by omega))
    rw [translation_after hwf ht hvm hroot hd ((hwf.region r hr).lt hv), if_pos]
    exact List.mem_flatMap.2 ⟨r, hr, mem_cut_of (hwf.region r hr) hd hv hbase (by omega)⟩

/-- The part of a region behind `addr` is lost, and the page at `addr` stays mapped. -/
private theorem not_removes_of_straddle
    (hmap : ∀ v, pageSize ∣ v → Covered s.mmaps v → vmPhysAddr s.vm.mem s.pml4t v ≠ 0)
    {r : Region} (hr : r ∈ s.mmaps) (h1 : r.base < addr) (h2 : addr < r.base + r.len) :
    ¬Removes s s' addr (addr + len) := by
  intro h
  have hcov : r.Covers addr := ⟨Nat.le_of_lt h1, h2⟩
  have hlost : ¬Covered s'.mmaps addr := by
    rintro ⟨r', hr', hv⟩
    obtain ⟨r2, hr2, hc, hv2⟩ := covers_before hwf ha hl hmaps hr' hv
    obtain rfl := hwf.covers_unique hr hr2 hcov hv2
    rw [clip, if_pos h1] at hc
    obtain rfl := Option.some.inj hc
    have h3 := ((hwf.region r hr).upTo ha h1).2.2.2
    have h4 := hv.2
    omega
  have hin : addr ≤ addr ∧ addr < addr + len := by
    by_contra hout
    exact hlost ((h.covered addr ha).2 ⟨⟨r, hr, hcov⟩, hout⟩)
  have hzero := h.unmapped addr ha ⟨r, hr, hcov⟩ hin.1 hin.2
  rw [translation_after hwf ht hvm hroot ha ((hwf.region r hr).lt hcov), if_neg] at hzero
  · exact hmap addr ha ⟨r, hr, hcov⟩ hzero
  · intro hmem
    obtain ⟨r2, hr2, hw⟩ := List.mem_flatMap.1 hmem
    obtain rfl := hwf.covers_unique hr hr2 hcov (mem_cut (hwf.region r2 hr2) hw).2.1
    rw [cut, if_pos h1] at hw
    exact absurd hw List.not_mem_nil

omit ht hvm hroot ha hl in
private theorem not_removes_of_wrap (hla : addr < 2 ^ 64) (hll : len < 2 ^ 64) (hwrap : 2 ^ 64 ≤ addr + len)
    {r : Region} (hr : r ∈ s.mmaps) (h1 : addr ≤ r.base) : ¬Removes s s' addr (addr + len) := by
  intro h
  have hwfr := hwf.region r hr
  have hpos := hwfr.pos
  have hcov : r.Covers r.base := ⟨Nat.le_refl _, by omega⟩
  have he : add64 addr len < addr := by
    unfold add64
    omega
  have hclip : clip addr (add64 addr len) r = some r := by
    rw [clip, if_neg (by omega), hwfr.stop, if_neg (by omega), if_neg (by omega)]
  have hmem : r ∈ s'.mmaps := by
    rw [hmaps]
    exact List.mem_filterMap.2 ⟨r, hr, hclip⟩
  have hlt := hwfr.lt hcov
  exact ((h.covered r.base hwfr.base).1 ⟨r, hmem, hcov⟩).2 ⟨h1, by omega⟩

end

/-- On a well-formed table whose pages are mapped, a successful `munmap` removes exactly its range if and only if no
region reaches into the range from below and the range does not wrap before a region. -/
theorem munmap_exact_iff {env : MmapEnv} {s s' : MmState} {addr len : Nat} (hwf : MmapsWf s.mmaps)
    (ht : PageTree s.vm.mem s.pml4t)
    (hmap : ∀ v, pageSize ∣ v → Covered s.mmaps v → vmPhysAddr s.vm.mem s.pml4t v ≠ 0)
    (hla : addr < 2 ^ 64) (hll : len < 2 ^ 64) (ha : pageSize ∣ addr) (hl : pageSize ∣ len)
    (hc : sysMunmap env s addr len = some (s', none)) :
    Removes s s' addr (addr + len) ↔ Removable s.mmaps addr len := by
  unfold sysMunmap at hc
  rw [if_neg (by simp only [and_page, Nat.mod_eq_zero_of_dvd ha, Nat.mod_eq_zero_of_dvd hl]; simp)] at hc
  obtain ⟨habs, -⟩ | ⟨-, hmaps, hvm, hroot⟩ := clearMappings_table hwf hla hc
  · exact absurd rfl habs
  constructor
  · intro h
    refine ⟨fun r hr hs => not_removes_of_straddle hwf ha hl hmaps ht hvm hroot hmap hr hs.1 hs.2 h, ?_⟩
    by_contra hno
    obtain ⟨hwrap, r, hr, hle⟩ : 2 ^ 64 ≤ addr + len ∧ ∃ r ∈ s.mmaps, addr ≤ r.base := by
      rw [not_or] at hno
      exact ⟨by omega, by simpa using hno.2⟩
    exact not_removes_of_wrap hwf hmaps hla hll hwrap hr hle h
  · exact removes_of_removable hwf ha hl hmaps ht hvm hroot

def anonRegion (base len : Nat) : Region := ⟨base, len, protRead, none, -1, 0, mapPrivate ||| mapAnonymous⟩

def onePage : MmState := { emptyMm with mmaps := [anonRegion 0 0x1000] }

theorem MmapsWf.singleton {r : Region} (h : r.Wf) : MmapsWf [r] :=
  ⟨by simpa using h, List.pairwise_singleton _ _⟩

/-- The only region is unmapped. -/
theorem munmap_exact_onePage : ∃ s', sysMunmap anonEnv onePage 0 0x1000 = some (s', none) ∧
    Removes onePage s' 0 0x1000 := by
  have hret : (sysMunmap anonEnv onePage 0 0x1000).map (·.2) = some none := by decide
  obtain ⟨⟨s', err⟩, hs, rfl⟩ := Option.map_eq_some_iff.1 hret
  refine ⟨s', hs, (munmap_exact_iff (MmapsWf.singleton ?_) smallVm_tree.pageTree ?_ (by decide) (by decide)
    (by decide) (by decide) hs).2 ⟨fun r _ h => absurd h.1 (Nat.not_lt_zero _), Or.inl (by decide)⟩⟩
  · exact ⟨by decide, by decide, by decide, by decide⟩
  · rintro v hv ⟨r, hr, hc⟩
    obtain rfl := List.mem_singleton.1 hr
    have hlt : v < 0 + 0x1000 := hc.2
    obtain ⟨k, rfl⟩ := hv
    simp only [pageSize] at hlt
    obtain rfl : k = 0 := by omega
    decide

def twoTree : Mem := setEntry smallTree 0x4000 1 0x6007

private theorem twoTree_walk {p : List Nat} (hp : UserPath p) (hlen : p.length ≤ 3) :
    walk (ptEntry twoTree) child 0x1000 p = walk (ptEntry smallTree) child 0x1000 p ∧
      trail (ptEntry twoTree) child 0x1000 p = trail (ptEntry smallTree) child 0x1000 p := by
  refine walk_trail_congr fun q i rest f hsplit hq => ?_
  rw [hsplit] at hp hlen
  simp only [List.length_append, List.length_cons] at hlen
  have hlt : ∀ j ∈ q, j < 512 := fun j hj => hp.lt j (List.mem_append_left _ hj)
  obtain ⟨-, hf, -⟩ := smallTree_chain.walk (k := 0) (by omega) hlt hq
  refine ptEntry_setEntry_of_ne (by decide) (hf ▸ Nat.dvd_mul_right _ _) (by decide) (hp.lt i (by simp)) ?_
  rintro ⟨h4, -⟩
  simp only [pageSize] at hf
  omega

private theorem twoTree_pageTree : PageTree twoTree 0x1000 := by
  have hreach : ∀ p f, p.length ≤ 3 → Reach twoTree 0x1000 p f → Reach smallTree 0x1000 p f := fun p f hlen h =>
    ⟨h.path, (twoTree_walk h.path hlen).1.symm.trans h.walk⟩
  have ht := smallVm_tree.pageTree
  refine ⟨ht.aligned, fun p hp h => ht.root p hp (hreach p _ hp h), fun p p' f h1 h2 h h' => ?_,
    fun p f h hlo hhi => ?_⟩
  · exact ht.unique p p' f h1 h2 (hreach p f h1 h) (hreach p' f h2 h')
  · rw [(twoTree_walk h.path hhi).2]
    exact ht.small p f (hreach p f hhi h) hlo hhi

def twoPages : MmState := { emptyMm with vm := { smallVm with mem := twoTree }, mmaps := [anonRegion 0 0x2000] }

/-- Unmapping the second page of a region leaves the page mapped. -/
theorem not_munmap_exact : (MmapsWf twoPages.mmaps ∧ PageTree twoPages.vm.mem twoPages.pml4t ∧
      ∀ v, pageSize ∣ v → Covered twoPages.mmaps v → vmPhysAddr twoPages.vm.mem twoPages.pml4t v ≠ 0) ∧
    ∃ s', sysMunmap anonEnv twoPages 0x1000 0x1000 = some (s', none) ∧ ¬Removes twoPages s' 0x1000 0x2000 := by
  refine ⟨⟨MmapsWf.singleton ⟨by decide, by decide, by decide, by decide⟩, twoTree_pageTree, ?_⟩, ?_⟩
  · rintro v hv ⟨r, hr, hc⟩
    obtain rfl := List.mem_singleton.1 hr
    have hlt : v < 0 + 0x2000 := hc.2
    obtain ⟨k, rfl⟩ := hv
    simp only [pageSize] at hlt
    obtain rfl | rfl : k = 0 ∨ k = 1 := by omega
    · decide
    · decide
  · have hret : ((sysMunmap anonEnv twoPages 0x1000 0x1000).map fun x =>
        (x.2, vmPhysAddr x.1.vm.mem x.1.pml4t 0x1000)) = some (none, 0x6000) := by
      decide
    obtain ⟨⟨s', err⟩, hs, hx⟩ := Option.map_eq_some_iff.1 hret
    obtain ⟨rfl, hphys⟩ := Prod.mk.inj hx
    refine ⟨s', hs, fun h => ?_⟩
    have hcov : Covered twoPages.mmaps 0x1000 := ⟨anonRegion 0 0x2000, by decide, by decide, by decide⟩
    have hzero := h.unmapped 0x1000 (by decide) hcov (by decide) (by decide)
    rw [hphys] at hzero
    exact absurd hzero (by decide)

end Pml.Kernel
