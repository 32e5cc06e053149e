import Pml.Kernel.ElfImage
import Pml.Kernel.Expand

/-!
# Anonymous areas (`kernel/mman.c`)

`sys_mmap` with an anonymous mapping makes an area of new pages (`sysMmap_area`), and `expand_mmap` lengthens it and
keeps the pages that it has (`expandMmap_area`).
-/

namespace Pml.Kernel

open Arch ByteMemory LevelWalk

/-! ### The table of regions -/

private theorem regionAt_insert {t : List Region} {ri : Nat} {g : Region} (hri : ri ≤ t.length)
    (hbefore : ∀ a ∈ t.take ri, a.base ≤ g.base) (hafter : ∀ b ∈ t.drop ri, g.base < b.base) :
    regionAt (t.insertIdx ri g) (findRegionBeforeEqual (t.insertIdx ri g) g.base) = some g := by
  have hlen : (t.take ri).length = ri := by
    rw [List.length_take]
    omega
  have hskip : (t.take ri).findIdx (fun r => g.base < r.base) = ri := by
    refine (List.findIdx_eq_length_of_false fun a ha => ?_).trans hlen
    exact decide_eq_false (Nat.not_lt.2 (hbefore a ha))
  have hidx : (t.insertIdx ri g).findIdx (fun r => g.base < r.base) = ri + 1 := by
    rw [insertIdx_eq hri, List.findIdx_append, hskip, hlen, if_neg (Nat.lt_irrefl ri), List.findIdx_cons,
      decide_eq_false (Nat.lt_irrefl g.base), cond_false]
    cases hdrop : t.drop ri with
    | nil => exact Nat.add_comm 1 ri
    | cons b l =>
      rw [List.findIdx_cons, decide_eq_true (hafter b (hdrop ▸ List.mem_cons_self)), cond_true]
      exact Nat.add_comm 1 ri
  have hri' : (((ri + 1 : Nat) : Int) - 1).toNat = ri := by omega
  unfold findRegionBeforeEqual regionAt
  rw [hidx, if_neg (by omega), hri', insertIdx_eq hri, List.getElem?_append_right (by omega), hlen, Nat.sub_self]
  rfl

private theorem regionAt_set {t : List Region} {x n : Nat} {g : Region}
    (h : regionAt t (findRegionBeforeEqual t x) = some g) :
    regionAt (t.set (findRegionBeforeEqual t x).toNat { g with len := n })
      (findRegionBeforeEqual (t.set (findRegionBeforeEqual t x).toNat { g with len := n }) x) =
        some { g with len := n } := by
  obtain ⟨i, hi⟩ : ∃ i, findRegionBeforeEqual t x = i := ⟨_, rfl⟩
  rw [hi] at h ⊢
  unfold regionAt at h
  split at h
  · cases h
  rename_i hneg
  obtain ⟨hlt, hget⟩ := List.getElem?_eq_some_iff.1 h
  have hbases : (t.set i.toNat { g with len := n }).map Region.base = t.map Region.base := by
    rw [List.map_set]
    refine List.ext_getElem (by simp) fun j h1 h2 => ?_
    rw [List.getElem_set]
    split
    · rename_i hj
      subst hj
      simp [hget]
    · rfl
  have hsame : findRegionBeforeEqual (t.set i.toNat { g with len := n }) x = i := by
    refine Eq.trans ?_ hi
    have hfind := fun l : List Region => List.findIdx_map l Region.base fun b => decide (x < b)
    have hidx := (hfind (t.set i.toNat { g with len := n })).symm.trans ((congrArg _ hbases).trans (hfind t))
    exact congrArg (fun k : Nat => (k : Int) - 1) hidx
  rw [hsame, regionAt, if_neg hneg, List.getElem?_set_self hlt]

private theorem MmapsWf.none_before {t : List Region} (h : MmapsWf t) {x : Nat} :
    (t.findIdx fun r => x < r.base) = 0 ↔ ∀ r ∈ t, x < r.base := by
  cases t with
  | nil => exact iff_of_true rfl (by simp)
  | cons y t =>
    rw [List.findIdx_cons]
    by_cases hy : x < y.base
    · rw [decide_eq_true hy, cond_true]
      refine iff_of_true rfl fun r hr => ?_
      rcases List.mem_cons.1 hr with rfl | hr
      · exact hy
      · have hle := (List.pairwise_cons.1 h.order).1 r hr
        omega
    · rw [decide_eq_false hy, cond_false]
      exact iff_of_false (Nat.succ_ne_zero _) fun hall => hy (hall y List.mem_cons_self)

/-- A region that is not at a fixed address is put in order by its base, if it is mapped. -/
structure Ordered (t : List Region) (base ri : Nat) : Prop where
  index : ri ≤ t.length
  before : ∀ a ∈ t.take ri, a.base ≤ base
  after : ∀ b ∈ t.drop ri, base < b.base

private theorem placeRegion_order {t : List Region} (h : MmapsWf t) {hint len : Nat} (hd : pageSize ∣ hint)
    (hpos : 0 < hint) (htop : hint ≤ userMemTopVma) (hlen : 0 < len) (hmax : len ≤ 2 ^ 63)
    (hend : add64 (placeRegion t hint len).1 len < userMemTopVma) : 0 < (placeRegion t hint len).1 ∧
      pageSize ∣ (placeRegion t hint len).1 ∧ (placeRegion t hint len).1 + len < 2 ^ 64 ∧
      Ordered t (placeRegion t hint len).1 (placeRegion t hint len).2 := by
  by_cases hall : ∀ r ∈ t, hint < r.base
  · have hidx := h.none_before.2 hall
    have hplace : placeRegion t hint len = (hint, 0) := by
      unfold placeRegion findRegionBeforeEqual
      rw [hidx]
      rfl
    rw [hplace]
    simp only [userMemTopVma] at htop
    refine ⟨hpos, hd, by omega, Nat.zero_le _, by simp, fun b hb => ?_⟩
    rw [List.drop_zero] at hb
    exact hall b hb
  · have hp : Placeable t hint len := by
      unfold Placeable
      rw [if_neg hall]
      intro r hr _
      have hw := h.region r (List.mem_of_getLast? hr)
      have hr' := hw.top
      rw [hw.stop]
      simp only [userMemTopVma] at hr'
      omega
    have hfits := placeRegion_fits h hd hp hend
    refine ⟨?_, hfits.aligned, hfits.wrap, hfits.index, fun a ha => ?_, fun b hb => ?_⟩
    · -- the base is the end of a region
      obtain ⟨a, ha⟩ : ∃ a, a ∈ t.take (placeRegion t hint len).2 := by
        refine List.exists_mem_of_ne_nil _ fun hnil => ?_
        rcases List.take_eq_nil_iff.1 hnil with h0 | h0
        · unfold placeRegion at h0
          dsimp only at h0
          split at h0
          · rename_i hneg
            unfold findRegionBeforeEqual at hneg
            exact hall (h.none_before.1 (by omega))
          · exact Nat.succ_ne_zero _ h0
        · exact hall (by simp [h0])
      have hpos' := (h.region a (List.mem_of_mem_take ha)).pos
      have hle := hfits.before a ha
      omega
    · have hle := hfits.before a ha
      omega
    · have hle := hfits.after b hb
      omega

/-! ### A new area -/

private theorem alignUp_of_dvd {x : Nat} (hd : pageSize ∣ x) (hx : x ≤ 2 ^ 64 - pageSize) :
    alignUp x pageSize = x := by
  obtain ⟨⟨k, hk⟩, h1, h2⟩ := alignUp_page_spec hx
  obtain ⟨j, rfl⟩ := hd
  rw [hk] at h1 h2 ⊢
  simp only [pageSize] at *
  omega

/-- The region of an area that can be found by its base, with the pages `ps` that have been mapped for it. -/
structure Area (t : List Region) (base len : Nat) (ps : List (Nat × Nat)) : Prop where
  pos : 0 < base
  region : ∃ g : Region, g.Wf ∧ g.base = base ∧ g.len = len ∧ regionAt t (findRegionBeforeEqual t base) = some g
  pages : ∀ v, v ∈ ps.map Prod.fst ↔ v ∈ pages base (base + len)

section

variable {env : MmapEnv} {s : MmState} {bytes : Nat} {ℓ : Nat → Option (Nat × Nat)} {c : Nat → Nat}

/-- The call for a new area makes it, or fails for lack of memory or of addresses. -/
theorem sysMmap_area (h : MmapsWf s.mmaps) (hadd : Added s.vm s.pml4t [] ℓ c) (hd : pageSize ∣ bytes)
    (hpos : 0 < bytes) (hmax : bytes ≤ 2 ^ 63) :
    (∃ s' e, sysMmap env s 0 bytes (protRead ||| protWrite) (mapPrivate ||| mapAnonymous) (-1) 0 = some
      (s', .error e) ∧
        (e = .ENOMEM ∨ userMemTopVma ≤ add64 (mmapBase s 0 bytes) bytes)) ∨
      ∃ s' a ps, sysMmap env s 0 bytes (protRead ||| protWrite) (mapPrivate ||| mapAnonymous) (-1) 0 = some
      (s', .ok a) ∧
        s'.pml4t = s.pml4t ∧ Area s'.mmaps a bytes ps ∧ Added s'.vm s.pml4t ps ℓ c := by
  have hcheck :
    checkMmap env s bytes (protRead ||| protWrite) (mapPrivate ||| mapAnonymous) (-1) 0 = some (.ok none) := by
    unfold checkMmap
    rw [if_pos (by decide), if_neg (by omega), if_neg (by decide)]
  have hround : alignUp bytes pageSize = bytes := alignUp_of_dvd hd (by simp only [pageSize]; omega)
  unfold sysMmap
  rw [hcheck]
  dsimp only
  rw [hround, if_neg (by decide), if_neg (by decide), if_neg (by decide)]
  rw [show mmapBase s 0 bytes = (placeRegion s.mmaps userMmapBaseVma bytes).1 from rfl]
  have horder := @placeRegion_order s.mmaps h userMmapBaseVma bytes (by decide) (by decide) (by decide) hpos hmax
  generalize placeRegion s.mmaps userMmapBaseVma bytes = p at horder ⊢
  unfold mapRegion
  dsimp only
  by_cases htop : userMemTopVma ≤ add64 p.1 bytes
  · rw [if_pos htop]
    exact Or.inl ⟨s, .EINVAL, rfl, Or.inr htop⟩
  obtain ⟨hbase, hdb, hwrap, hord⟩ := horder (Nat.lt_of_not_le htop)
  rw [if_neg htop]
  rw [add64_of_lt hwrap] at htop ⊢
  have hmem : ∀ v ∈ pages p.1 (p.1 + bytes), pageSize ∣ v := fun v hv => ((mem_pages_aligned hdb).1 hv).1
  obtain ⟨qs, hmapped, hcase⟩ := mapPages_added mapFlags_rw true hadd (@pages_apart p.1 (p.1 + bytes) hdb) (by simp)
  rw [List.append_nil] at hmapped
  obtain ⟨⟨⟨m, f⟩, failed⟩, hrun⟩ : ∃ x, mapPages s.pml4t pageFlagRw true s.vm (pages p.1 (p.1 + bytes)) = x :=
    ⟨_, rfl⟩
  rw [hrun] at hmapped hcase ⊢
  dsimp only at hmapped hcase ⊢
  rcases hcase with ⟨rfl, hqs⟩ | ⟨v, rest, -, rfl⟩
  swap
  · exact Or.inl ⟨_, .ENOMEM, rfl, Or.inl rfl⟩
  have hflags := mmapFlags (protRead ||| protWrite)
  generalize ((if protRead ||| protWrite ≠ 0 then pageFlagUser else 0) |||
    if (protRead ||| protWrite) &&& protWrite ≠ 0 then pageFlagRw else 0) = pflags at hflags ⊢
  have hstore : storeData s.pml4t p.1 m [] = m := rfl
  simp only [Option.isSome_none, Bool.false_eq_true, ↓reduceIte, hstore]
  obtain ⟨hremap, hadd'⟩ := remapPages_added hflags hmapped hmem fun v hv => hqs ▸ hv
  generalize remapPages s.pml4t pflags ⟨m, f⟩ (pages p.1 (p.1 + bytes)) = x at hremap hadd' ⊢
  simp only [hremap, Bool.true_eq_false, false_or]
  by_cases hk : env.mem = false
  · rw [if_pos hk]
    exact Or.inl ⟨_, .ENOMEM, rfl, Or.inl rfl⟩
  rw [if_neg hk]
  refine Or.inr ⟨_, p.1, qs, rfl, rfl,
    ⟨hbase, ⟨⟨p.1, bytes, protRead ||| protWrite, none, -1, 0, mapPrivate ||| mapAnonymous⟩,
    ⟨hdb, hd, hpos, Nat.le_of_not_le htop⟩, rfl, rfl, ?_⟩, fun v => by rw [hqs]⟩, hadd'⟩
  exact regionAt_insert hord.index hord.before hord.after

private theorem mapped_in_user {m : Mem} {r lo hi : Nat} {qs : List (Nat × Nat)} (hd : pageSize ∣ lo)
    (hlo : lo ≤ 2 ^ 47) (h : ∀ p ∈ qs, ∃ a, MappedAt m r p.1 a) (hqs : qs.map Prod.fst = pages lo hi) :
    hi ≤ 2 ^ 47 := by
  by_contra hgt
  have hin : 2 ^ 47 ∈ pages lo hi := (mem_pages_aligned hd).2 ⟨by decide, hlo, Nat.lt_of_not_le hgt⟩
  obtain ⟨p, hp, heq⟩ := List.mem_map.1 (hqs ▸ hin)
  obtain ⟨a, e, hleaf, -⟩ := h p hp
  rw [heq] at hleaf
  exact (leaf_some hleaf).1 (by decide)

private theorem expandRegion_root (r i : Nat) (g : Region) (size : Nat) :
    (expandRegion s r i g size).1.pml4t = s.pml4t := by
  unfold expandRegion
  split <;> rfl

/-- The call that lengthens an area keeps the pages that it has, or fails for lack of memory. -/
theorem expandMmap_area {a len request : Nat} {ps : List (Nat × Nat)} (h : Area s.mmaps a len ps)
    (hadd : Added s.vm s.pml4t ps ℓ c) (hlen : len ≤ alignUp request pageSize) (hmax : request ≤ 2 ^ 63) :
    (∃ s', expandMmap s s.pml4t a request = (s', some .ENOMEM)) ∨
      ∃ s' ps', expandMmap s s.pml4t a request = (s', none) ∧ s'.pml4t = s.pml4t ∧
        Area s'.mmaps a (alignUp request pageSize) ps' ∧ Added s'.vm s.pml4t ps' ℓ c ∧
        FramesKept s.vm s'.vm s.pml4t ∧ ∀ p ∈ ps, p ∈ ps' := by
  obtain ⟨g, hg, rfl, rfl, hfind⟩ := h.region
  obtain ⟨hds, -, htop⟩ := stop_le_top hg
  obtain ⟨hdr, -, hround⟩ := alignUp_page_spec (x := request) (by simp only [pageSize]; omega)
  have hbase := hg.base
  have hstop := hg.stop
  have hend : add64 g.base (alignUp request pageSize) = g.base + alignUp request pageSize := by
    refine add64_of_lt ?_
    simp only [pageSize] at *
    omega
  unfold expandMmap
  dsimp only
  rw [hfind]
  dsimp only
  generalize alignUp request pageSize = size at *
  obtain ⟨hext, -, -⟩ := loop_writes (s := s) hg hadd.holds.space (add64 g.base size)
  rw [hend] at hext
  have hnew : ∀ v ∈ pages g.stop (g.base + size), ∀ p ∈ ps, v / pageSize ≠ p.1 / pageSize := by
    intro v hv p hp heq
    obtain ⟨h1, h2, -⟩ := (mem_pages_aligned hds).1 hv
    obtain ⟨h3, -, h4⟩ := (mem_pages_aligned hbase).1 ((h.pages p.1).1 (List.mem_map_of_mem hp))
    rw [page_div_inj h1 h3 heq] at h2
    omega
  obtain ⟨qs, hmapped, hcase⟩ := mapPages_added expandFlags false hadd
    (@pages_apart g.stop (g.base + size) hds) hnew
  obtain ⟨⟨vm, failed⟩, hrun⟩ : ∃ x, mapPages s.pml4t (pageFlagUser ||| pageFlagRw) false s.vm
    (pages g.stop (g.base + size)) = x := ⟨_, rfl⟩
  rw [hrun] at hmapped hcase hext
  rw [← hend] at hrun
  rcases hcase with ⟨hnone, hqs⟩ | ⟨v, rest, -, hsome⟩
  swap
  · obtain rfl : failed = some v := hsome
    obtain ⟨s', hcall, -⟩ :=
      @expandRegion_failed s s.pml4t (findRegionBeforeEqual s.mmaps g.base).toNat g size v vm hrun
    exact Or.inl ⟨s', hcall⟩
  obtain rfl : failed = none := hnone
  obtain ⟨s', hcall, rfl, hmaps⟩ :=
    @expandRegion_ok s s.pml4t (findRegionBeforeEqual s.mmaps g.base).toNat g size vm hrun
  have hroot := expandRegion_root (s := s) s.pml4t (findRegionBeforeEqual s.mmaps g.base).toNat g size
  rw [hcall] at hroot
  have huser := mapped_in_user hds htop (fun p hp => ⟨p.2, hmapped.maps.here p (List.mem_append_left ps hp)⟩) hqs
  refine Or.inr ⟨s', qs ++ ps, hcall, hroot, ⟨h.pos, ⟨{ g with len := size }, ⟨hbase, hdr,
    Nat.lt_of_lt_of_le hg.pos hlen, huser⟩, rfl, rfl, hmaps ▸ regionAt_set hfind⟩, fun v => ?_⟩, hmapped,
    .of_extends hext, fun p hp => List.mem_append_right qs hp⟩
  · rw [List.map_append, List.mem_append, h.pages v, hqs, mem_pages_aligned hds, mem_pages_aligned hbase,
      mem_pages_aligned hbase]
    omega

end

end Pml.Kernel
