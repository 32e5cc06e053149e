import Pml.Arch.AddressSpace

/-!
# Pages on frames of their own

A loop that allocates frames and maps them holds these frames apart from the tables (`Holds`) and the pages on them
apart from all other mappings (`Maps`).  So the pages can be mapped again with other flags, and they can be unmapped
and their frames released, without a trace other than the tables that have been added.
-/

namespace Pml.Arch

open ByteMemory LevelWalk

def MappedAt (m : Mem) (r v a : Nat) : Prop := ∃ e, leaf m r v = some (3, e) ∧ alignDown e pageSize = a

/-! ### Small pages -/

theorem leaf_congr {m : Mem} {r v w : Nat} (h : w / pageSize = v / pageSize) : leaf m r w = leaf m r v := by
  rw [leaf, leaf, indices_congr h]
  by_cases hv : nonCanonical v
  · rw [if_pos hv, if_pos ((nonCanonical_congr h).2 hv)]
  · rw [if_neg hv, if_neg (mt (nonCanonical_congr h).1 hv)]

theorem leaf_some {m : Mem} {r v : Nat} {fin : Nat × Nat} (h : leaf m r v = some fin) : ¬nonCanonical v ∧
    final (entryAt m) tableOf 0 r (indices v) = some fin ∧ hasFlag fin.2 pageFlagPresent = true := by
  unfold leaf at h
  split at h
  · cases h
  · rename_i hv
    obtain ⟨h1, h2⟩ := Option.filter_eq_some_iff.1 h
    exact ⟨hv, h1, h2⟩

section

variable {m : Mem} {r v a : Nat} (h : MappedAt m r v a)
include h

theorem MappedAt.aligned : pageSize ∣ a := by
  obtain ⟨e, -, rfl⟩ := h
  exact pageSize_dvd_alignDown e

theorem MappedAt.lt : a < 2 ^ 64 := by
  obtain ⟨e, he, rfl⟩ := h
  obtain ⟨q, i, s, t, -, -, rfl, -⟩ := final_eq_some (leaf_some he).2.1
  exact Nat.lt_of_le_of_lt Nat.and_le_left (ptEntry_lt m t i)

theorem MappedAt.phys : vmPhysAddr m r v = a + v % pageSize := by
  obtain ⟨e, he, rfl⟩ := h
  rw [vmPhysAddr_leaf, he, Option.elim_some, pageAddr_last (leaf_some he).2.2]

theorem MappedAt.unmap (ht : TableTree m r) (w : Nat) : leaf (vmUnmapPage m r v).1 r w =
    if w / pageSize = v / pageSize then none else leaf m r w := by
  obtain ⟨e, he, rfl⟩ := h
  obtain ⟨hv, hfin, hp⟩ := leaf_some he
  have hspan : pageSpan m r v = pageSize := by
    rw [pageSpan, hfin]
    simp [hp, spanOf]
  rw [vmUnmapPage_leaf ht hv, hspan]

private theorem MappedAt.map_again {vm : Vm} (hm : vm.mem = m) (physAddr flags : Nat) :
    (vmMapPage vm r physAddr v flags).2 = true := by
  subst hm
  obtain ⟨e, he, -⟩ := h
  obtain ⟨hv, hfin, -⟩ := leaf_some he
  obtain ⟨p, j, s, t, hsplit, hwalk, -, hlen, -⟩ := final_eq_some hfin
  -- every entry on the way to the last table leads to a table
  have hnext : ∀ (q : List (Fin 512)) (i : Fin 512) (u : Nat), q ++ [i] <+: indices v → q.length ≤ 2 →
      walk (entryAt vm.mem) tableOf 0 r q = some u → ∃ n, tableOf q.length (ptEntry vm.mem u i) = some n := by
    intro q i u hpre hq hu
    have hp : q ++ [i] <+: p := by
      refine List.prefix_of_prefix_length_le hpre ⟨j :: s, hsplit.symm⟩ ?_
      rw [List.length_append, List.length_singleton]
      omega
    obtain ⟨rest, rfl⟩ := hp
    obtain ⟨n, hn, -⟩ := walk_left hwalk
    rw [walk_snoc hu, Nat.zero_add] at hn
    exact ⟨n, hn⟩
  have hentry : ∀ {n e f}, tableOf n e = some f → hasFlag e pageFlagPresent = true ∧
      (n = 0 ∨ hasFlag e pageFlagSize = false) ∧ f = alignDown e pageSize := by
    intro n e f hf
    unfold tableOf at hf
    split at hf
    · rename_i hc
      exact ⟨hc.1, hc.2.2, (Option.some.inj hf).symm⟩
    · cases hf
  have hmake : ∀ (q : List (Fin 512)) (i : Fin 512) (u : Nat), q ++ [i] <+: indices v → q.length ≤ 2 →
      walk (entryAt vm.mem) tableOf 0 r q = some u → makeTable vm u i flags = (vm, true) := by
    intro q i u hpre hq hu
    obtain ⟨n, hn⟩ := hnext q i u hpre hq hu
    exact if_pos (hentry hn).1
  have hrule := @vmMapPage_rule vm r v physAddr flags hv
    (fun q u cur => cur = vm ∧ walk (entryAt vm.mem) tableOf 0 r q = some u) ⟨rfl, rfl⟩ ?_
  · obtain ⟨q, i, u, cur, hpre, hq, ⟨rfl, hu⟩, -, hbad⟩ | ⟨u, cur, -, hres⟩ := hrule
    · obtain ⟨n, hn⟩ := hnext q i u hpre hq hu
      rw [hmake q i u hpre hq hu] at hbad
      rcases hbad with hbad | ⟨hne, hbad⟩
      · cases hbad
      · rcases (hentry hn).2.1 with h0 | h0
        · exact absurd (List.eq_nil_of_length_eq_zero h0) hne
        · rw [h0] at hbad
          cases hbad
    · rw [hres]
  · rintro q i u cur hpre hq ⟨rfl, hu⟩ - -
    obtain ⟨n, hn⟩ := hnext q i u hpre hq hu
    rw [hmake q i u hpre hq hu]
    refine ⟨rfl, ?_⟩
    rw [walk_snoc hu, Nat.zero_add]
    exact hn.trans (congrArg some (hentry hn).2.2)

end

/-! ### Frames that are held -/

/-- The frames `fs` are held with one reference each, and apart from new tables the counts are `c` else. -/
structure Holds (vm : Vm) (r : Nat) (fs : List Nat) (c : Nat → Nat) : Prop where
  space : Space vm r
  nodup : fs.Nodup
  frame : ∀ a ∈ fs, a ≠ 0 ∧ pageSize ∣ a ∧ a < 2 ^ 64 ∧ ¬IsTable vm.mem r a
  one : ∀ a ∈ fs, vm.frames.count (a / pageSize) = 1 ∧ c (a / pageSize) = 0
  counts : ∀ i, vm.frames.count i = c i ∨ (c i = 0 ∧ IsTable vm.mem r (pageSize * i)) ∨ pageSize * i ∈ fs

theorem Holds.start {vm : Vm} {r : Nat} (h : Space vm r) : Holds vm r [] vm.frames.count :=
  ⟨h, List.nodup_nil, by simp, by simp, fun _ => Or.inl rfl⟩

section

variable {vm vm' : Vm} {r a : Nat} {fs : List Nat} {c : Nat → Nat} (h : Holds vm r fs c)
include h

theorem Holds.noFrame (h0 : (allocPage vm.frames).2 = 0) : Holds ⟨vm.mem, (allocPage vm.frames).1⟩ r fs c := by
  obtain ⟨-, hc⟩ := h.space.allocPage.resolve_right fun h1 => h1.1 h0
  refine ⟨h.space.alloc_extends.space, h.nodup, h.frame, fun a ha => ?_, fun i => ?_⟩
  · rw [hc]
    exact h.one a ha
  · rw [hc]
    exact h.counts i

theorem Holds.alloc (h0 : (allocPage vm.frames).2 ≠ 0) :
    Holds ⟨vm.mem, (allocPage vm.frames).1⟩ r ((allocPage vm.frames).2 :: fs) c := by
  obtain ⟨-, hd, hlt, hz, hc⟩ := h.space.allocPage.resolve_left fun h1 => h0 h1.1
  have hspace := h.space.alloc_extends.space
  generalize (allocPage vm.frames).2 = n at h0 hd hlt hz hc ⊢
  have hnew : n ∉ fs := fun hn => by
    have h1 := (h.one n hn).1
    omega
  have hcn : c (n / pageSize) = 0 := by
    have hback : pageSize * (n / pageSize) = n := Nat.mul_div_cancel' hd
    rcases h.counts (n / pageSize) with h1 | ⟨h1, -⟩ | h1
    · rw [← h1, hz]
    · exact h1
    · exact absurd (hback ▸ h1) hnew
  refine ⟨hspace, List.nodup_cons.2 ⟨hnew, h.nodup⟩, ?_, ?_, fun i => ?_⟩
  · intro a ha
    rcases List.mem_cons.1 ha with rfl | ha
    · exact ⟨h0, hd, hlt, fun ht => h.space.counted _ ht hz⟩
    · exact h.frame a ha
  · intro a ha
    rw [hc]
    rcases List.mem_cons.1 ha with rfl | ha
    · exact ⟨Function.update_self .., hcn⟩
    · have hne : a / pageSize ≠ n / pageSize := fun he =>
        hnew (page_div_inj (h.frame a ha).2.1 hd he ▸ ha)
      rw [Function.update_of_ne hne]
      exact h.one a ha
  · by_cases hi : i = n / pageSize
    · subst hi
      rw [Nat.mul_div_cancel' hd]
      exact Or.inr (Or.inr List.mem_cons_self)
    · rw [hc, Function.update_of_ne hi]
      exact (h.counts i).imp_right (Or.imp_right (List.mem_cons_of_mem n))

theorem Holds.extend (h1 : Extends vm vm' r) (h2 : TablesOnly vm vm' r) : Holds vm' r fs c := by
  refine ⟨h1.space, h.nodup, fun a ha => ?_, fun a ha => ?_, fun i => ?_⟩
  · obtain ⟨h3, h4, h5, h6⟩ := h.frame a ha
    refine ⟨h3, h4, h5, fun ht => ?_⟩
    rcases h1.fresh a ht with h7 | h7
    · exact h6 h7
    · have h8 := (h.one a ha).1
      omega
  · obtain ⟨h3, h4⟩ := h.one a ha
    rcases h2 (a / pageSize) with h5 | ⟨h5, -⟩
    · exact ⟨h5.trans h3, h4⟩
    · omega
  · rcases h2 i with h3 | ⟨h3, h4⟩
    · rw [h3]
      exact (h.counts i).imp_right (Or.imp_left (And.imp_right (h1.tables _)))
    · rcases h.counts i with h5 | ⟨h5, h6⟩ | h5
      · exact Or.inr (Or.inl ⟨h5 ▸ h3, h4⟩)
      · exact Or.inr (Or.inl ⟨h5, h1.tables _ h6⟩)
      · exact Or.inr (Or.inr h5)

omit a in
theorem Holds.store {m : Mem} (hm : ∀ g, IsTable vm.mem r g → ∀ o < pageSize, m (g + o) = vm.mem (g + o)) :
    Holds ⟨m, vm.frames⟩ r fs c ∧ ∀ w, leaf m r w = leaf vm.mem r w := by
  obtain ⟨h1, h2, h3⟩ := tables_congr h.space.tree hm
  refine ⟨⟨⟨h1, h.space.wf, fun g hg => h.space.counted g ((h2 g).1 hg), h.space.reserved⟩, h.nodup, fun a ha => ?_,
    h.one, fun i => ?_⟩, h3⟩
  · obtain ⟨h4, h5, h6, h7⟩ := h.frame a ha
    exact ⟨h4, h5, h6, fun ht => h7 ((h2 a).1 ht)⟩
  · exact (h.counts i).imp_right (Or.imp_left (And.imp_right (h2 _).2))

end

theorem Holds.free {vm : Vm} {r a : Nat} {fs : List Nat} {c : Nat → Nat} (h : Holds vm r (a :: fs) c) :
    Holds ⟨vm.mem, freePage vm.frames a⟩ r fs c := by
  obtain ⟨h0, hd, hlt, ht⟩ := h.frame a List.mem_cons_self
  obtain ⟨h1, h2⟩ := h.one a List.mem_cons_self
  obtain ⟨hspace, hc⟩ := h.space.freePage h0 hd hlt ht
  obtain ⟨hnew, hnodup⟩ := List.nodup_cons.1 h.nodup
  refine ⟨hspace, hnodup, fun b hb => h.frame b (List.mem_cons_of_mem a hb), fun b hb => ?_, fun i => ?_⟩
  · have hb' := List.mem_cons_of_mem a hb
    have hne : b / pageSize ≠ a / pageSize := fun he => hnew (page_div_inj (h.frame b hb').2.1 hd he ▸ hb)
    rw [hc, Function.update_of_ne hne]
    exact h.one b hb'
  · by_cases hi : i = a / pageSize
    · subst hi
      rw [hc, Function.update_self, h1, h2]
      exact Or.inl rfl
    · rw [hc, Function.update_of_ne hi]
      refine (h.counts i).imp_right (Or.imp_right fun hmem => (List.mem_cons.1 hmem).resolve_left fun he => hi ?_)
      rw [← he, page_mul_div]

theorem Holds.perm {vm : Vm} {r : Nat} {fs fs' : List Nat} {c : Nat → Nat} (h : Holds vm r fs c) (hp : fs.Perm fs') :
    Holds vm r fs' c :=
  ⟨h.space, hp.nodup_iff.1 h.nodup, fun a ha => h.frame a (hp.mem_iff.2 ha), fun a ha => h.one a (hp.mem_iff.2 ha),
    fun i => (h.counts i).imp_right (Or.imp_right hp.mem_iff.1)⟩

/-! ### Pages that are mapped -/

/-- The pages of `ps`, each with its frame, are mapped, and all other mappings are `ℓ`. -/
structure Maps (m : Mem) (r : Nat) (ps : List (Nat × Nat)) (ℓ : Nat → Option (Nat × Nat)) : Prop where
  here : ∀ p ∈ ps, MappedAt m r p.1 p.2
  other : ∀ w, (∀ p ∈ ps, w / pageSize ≠ p.1 / pageSize) → leaf m r w = ℓ w
  apart : ps.Pairwise fun p q => p.1 / pageSize ≠ q.1 / pageSize

theorem Maps.start (m : Mem) (r : Nat) : Maps m r [] (leaf m r) := ⟨by simp, fun _ _ => rfl, List.Pairwise.nil⟩

section

variable {m m' : Mem} {r v a e : Nat} {ps ps' : List (Nat × Nat)} {ℓ : Nat → Option (Nat × Nat)} (h : Maps m r ps ℓ)
include h

theorem Maps.congr (hm : ∀ w, leaf m' r w = leaf m r w) : Maps m' r ps ℓ := by
  refine ⟨fun p hp => ?_, fun w hw => (hm w).trans (h.other w hw), h.apart⟩
  obtain ⟨e, he, ha⟩ := h.here p hp
  exact ⟨e, (hm p.1).trans he, ha⟩

theorem Maps.perm (hp : ps.Perm ps') : Maps m r ps' ℓ :=
  ⟨fun p hm => h.here p (hp.mem_iff.2 hm), fun w hw => h.other w fun p hm => hw p (hp.mem_iff.1 hm),
    (hp.pairwise_iff fun hxy => Ne.symm hxy).1 h.apart⟩

theorem Maps.unique {p q : Nat × Nat} (hp : p ∈ ps) (hq : q ∈ ps) (hpq : p.1 / pageSize = q.1 / pageSize) :
    p = q := by
  have hall : ∀ x ∈ ps, ∀ y ∈ ps, x.1 / pageSize = y.1 / pageSize → x = y := by
    intro x hx y hy
    apply List.Pairwise.forall_of_forall_of_flip (R := fun x y => x.1 / pageSize = y.1 / pageSize → x = y)
      (fun _ _ _ => rfl) (h.apart.imp fun hxy he => absurd he hxy)
      (h.apart.imp fun hxy he => absurd he.symm hxy) hx hy
  exact hall p hp q hq hpq

theorem Maps.place (hl : LeafPlaced m m' r v e true) (he : alignDown e pageSize = a)
    (hnew : ∀ p ∈ ps, v / pageSize ≠ p.1 / pageSize) : Maps m' r ((v, a) :: ps) ℓ := by
  refine ⟨fun p hp => ?_, fun w hw => ?_, List.pairwise_cons.2 ⟨fun p hp => hnew p hp, h.apart⟩⟩
  · rcases List.mem_cons.1 hp with rfl | hp
    · exact ⟨e, hl.here rfl v rfl, he⟩
    · obtain ⟨e', he', ha'⟩ := h.here p hp
      exact ⟨e', (hl.other p.1 fun _ => Ne.symm (hnew p hp)).trans he', ha'⟩
  · rw [hl.other w fun _ => hw (v, a) List.mem_cons_self]
    exact h.other w fun p hp => hw p (List.mem_cons_of_mem _ hp)

theorem Maps.again (hl : LeafPlaced m m' r v e true) (he : alignDown e pageSize = a) (hmem : (v, a) ∈ ps) :
    Maps m' r ps ℓ := by
  refine ⟨fun p hp => ?_, fun w hw => ?_, h.apart⟩
  · by_cases hpv : p.1 / pageSize = v / pageSize
    · obtain rfl : p = (v, a) := h.unique hp hmem hpv
      exact ⟨e, hl.here rfl v rfl, he⟩
    · obtain ⟨e', he', ha'⟩ := h.here p hp
      exact ⟨e', (hl.other p.1 fun _ => hpv).trans he', ha'⟩
  · rw [hl.other w fun _ => hw (v, a) hmem]
    exact h.other w hw

end

theorem Maps.unmap {m : Mem} {r v a : Nat} {ps : List (Nat × Nat)} {ℓ : Nat → Option (Nat × Nat)}
    (h : Maps m r ((v, a) :: ps) ℓ) (ht : TableTree m r) :
    Maps (vmUnmapPage m r v).1 r ps fun w => if w / pageSize = v / pageSize then none else ℓ w := by
  have hleaf := (h.here (v, a) List.mem_cons_self).unmap ht
  obtain ⟨hnew, hapart⟩ := List.pairwise_cons.1 h.apart
  refine ⟨fun p hp => ?_, fun w hw => ?_, hapart⟩
  · obtain ⟨e, he, ha⟩ := h.here p (List.mem_cons_of_mem _ hp)
    refine ⟨e, ?_, ha⟩
    rw [hleaf, if_neg (Ne.symm (hnew p hp)), he]
  · rw [hleaf]
    split
    · rfl
    · rename_i hwv
      refine h.other w fun p hp => ?_
      rcases List.mem_cons.1 hp with rfl | hp
      · exact hwv
      · exact hw p hp

/-- The pages of `ps` are mapped on frames that are held for them. -/
structure Added (vm : Vm) (r : Nat) (ps : List (Nat × Nat)) (ℓ : Nat → Option (Nat × Nat)) (c : Nat → Nat) :
    Prop where
  holds : Holds vm r (ps.map Prod.snd) c
  maps : Maps vm.mem r ps ℓ

theorem Added.start {vm : Vm} {r : Nat} (h : Space vm r) : Added vm r [] (leaf vm.mem r) vm.frames.count :=
  ⟨.start h, .start vm.mem r⟩

theorem Added.perm {vm : Vm} {r : Nat} {ps ps' : List (Nat × Nat)} {ℓ : Nat → Option (Nat × Nat)} {c : Nat → Nat}
    (h : Added vm r ps ℓ c) (hp : ps.Perm ps') : Added vm r ps' ℓ c :=
  ⟨h.holds.perm (hp.map _), h.maps.perm hp⟩

/-! ### The steps of the loops -/

section

variable {vm : Vm} {r v : Nat} {ps : List (Nat × Nat)} {ℓ : Nat → Option (Nat × Nat)} {c : Nat → Nat}

/-- A frame is allocated, its bytes change, and it is mapped or released. -/
theorem Added.map {m : Mem} {flags : Nat} (h : Added vm r ps ℓ c) (h0 : (allocPage vm.frames).2 ≠ 0)
    (hm : ∀ x, x < (allocPage vm.frames).2 ∨ (allocPage vm.frames).2 + pageSize ≤ x → m x = vm.mem x)
    (hf : MapFlags flags) {s : Vm × Bool}
    (hs : vmMapPage ⟨m, (allocPage vm.frames).1⟩ r (allocPage vm.frames).2 v flags = s) :
    (s.2 = false → Added { s.1 with frames := freePage s.1.frames (allocPage vm.frames).2 } r ps ℓ c) ∧
      (s.2 = true → (∀ p ∈ ps, v / pageSize ≠ p.1 / pageSize) →
        Added s.1 r ((v, (allocPage vm.frames).2) :: ps) ℓ c) := by
  have halloc := h.holds.alloc h0
  obtain ⟨-, hd, hlt, ht⟩ := halloc.frame _ List.mem_cons_self
  obtain ⟨hstore, hleaf⟩ := halloc.store (m := m) fun g hg o ho => by
    have hap := page_apart hd (hg.aligned h.holds.space.tree) fun he => ht (he ▸ hg)
    exact hm _ (by omega)
  obtain ⟨hext, htab⟩ := vmMapPage_extends (v := v) hstore.space hlt hf
  have hholds := hstore.extend hext htab
  have hmaps : Maps m r ps ℓ := h.maps.congr hleaf
  rw [hs] at hholds
  have hplaced : s.2 = true ∨ (∀ w, leaf s.1.mem r w = leaf m r w) := by
    cases hok : s.2 with
    | true => exact Or.inl rfl
    | false =>
      refine Or.inr fun w => ?_
      by_cases hv : nonCanonical v
      · have hsame : s = (⟨m, (allocPage vm.frames).1⟩, false) := hs.symm.trans (if_pos hv)
        rw [hsame]
      · have hl := vmMapPage_leaf hstore.space.tree (hstore.space.wf.supply hstore.space.counted 3) hv hlt hf
        rw [hs] at hl
        exact hl.other w fun h1 => absurd (hok.symm.trans h1) Bool.false_ne_true
  refine ⟨fun hok => ⟨hholds.free, hmaps.congr (hplaced.resolve_left (by simp [hok]))⟩, fun hok hnew => ⟨hholds, ?_⟩⟩
  have hv : ¬nonCanonical v := by
    intro hv
    have hsame : s = (⟨m, (allocPage vm.frames).1⟩, false) := hs.symm.trans (if_pos hv)
    rw [hsame] at hok
    cases hok
  have hl := vmMapPage_leaf hstore.space.tree (hstore.space.wf.supply hstore.space.counted 3) hv hlt hf
  rw [hs, hok] at hl
  refine hmaps.place hl ?_ hnew
  rw [(pageEntry hlt hf).2.2, alignDown_of_dvd hlt hd]

theorem Added.release {a : Nat} (h : Added vm r ((v, a) :: ps) ℓ c) (hv : pageSize ∣ v) :
    Added ⟨(vmUnmapPage vm.mem r v).1, freePage vm.frames (vmPhysAddr vm.mem r v)⟩ r ps
      (fun w => if w / pageSize = v / pageSize then none else ℓ w) c := by
  have hphys : vmPhysAddr vm.mem r v = a := by
    rw [(h.maps.here (v, a) List.mem_cons_self).phys, Nat.mod_eq_zero_of_dvd hv, Nat.add_zero]
  rw [hphys]
  have hfree : Holds ⟨vm.mem, freePage vm.frames a⟩ r (ps.map Prod.snd) c := Holds.free h.holds
  exact ⟨hfree.extend (vmUnmapPage_extends hfree.space) fun _ => Or.inl rfl, h.maps.unmap h.holds.space.tree⟩

theorem Added.remap {flags : Nat} (h : Added vm r ps ℓ c) (hv : pageSize ∣ v) (hmem : v ∈ ps.map Prod.fst)
    (hf : MapFlags flags) {s : Vm × Bool} (hs : vmMapPage vm r (vmPhysAddr vm.mem r v) v flags = s) :
    s.2 = true ∧ Added s.1 r ps ℓ c := by
  obtain ⟨⟨v', a⟩, hva, rfl⟩ := List.mem_map.1 hmem
  have hat := h.maps.here _ hva
  have hspace := h.holds.space
  obtain ⟨e, he, -⟩ := id hat
  rw [hat.phys, Nat.mod_eq_zero_of_dvd hv, Nat.add_zero] at hs
  have hok := hat.map_again rfl a flags
  have hl := vmMapPage_leaf hspace.tree (hspace.wf.supply hspace.counted 3) (leaf_some he).1 hat.lt hf
  obtain ⟨hext, htab⟩ := vmMapPage_extends (v := v') hspace hat.lt hf
  rw [hs] at hok hl hext htab
  rw [hok] at hl
  refine ⟨hok, h.holds.extend hext htab, h.maps.again hl ?_ hva⟩
  rw [(pageEntry hat.lt hf).2.2, alignDown_of_dvd hat.lt hat.aligned]

end

end Pml.Arch
