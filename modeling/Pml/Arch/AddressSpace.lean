import Pml.Arch.Translation

/-!
# Address spaces on counted frames

An address space whose tables form a tree of counted frames (`Space`) stays one while `vm_map_page` and
`vm_unmap_page` work on it: tables are only added, on frames that were free, and no byte outside of the tables changes
(`Extends`, `TablesOnly`).
-/

namespace Pml.Arch

open ByteMemory LevelWalk

/-- The tables form a tree on counted frames, and frame 0 is reserved. -/
structure Space (vm : Vm) (r : Nat) : Prop where
  tree : TableTree vm.mem r
  wf : vm.frames.Wf
  counted : ∀ g, IsTable vm.mem r g → vm.frames.count (g / pageSize) ≠ 0
  reserved : vm.frames.count 0 ≠ 0

/-- Tables are added on free frames, references are added, and memory changes in the tables only. -/
structure Extends (vm vm' : Vm) (r : Nat) : Prop where
  space : Space vm' r
  tables : ∀ g, IsTable vm.mem r g → IsTable vm'.mem r g
  fresh : ∀ g, IsTable vm'.mem r g → IsTable vm.mem r g ∨ vm.frames.count (g / pageSize) = 0
  le : ∀ i, vm.frames.count i ≤ vm'.frames.count i
  mem : ∀ g, pageSize ∣ g → ¬IsTable vm'.mem r g → ∀ o < pageSize, vm'.mem (g + o) = vm.mem (g + o)

def TablesOnly (vm vm' : Vm) (r : Nat) : Prop :=
  ∀ i, vm'.frames.count i = vm.frames.count i ∨ vm.frames.count i = 0 ∧ IsTable vm'.mem r (pageSize * i)

theorem page_mul_div (i : Nat) : pageSize * i / pageSize = i := Nat.mul_div_cancel_left i (by decide)

section

variable {vm vm' vm'' : Vm} {r : Nat}

theorem Extends.refl (h : Space vm r) : Extends vm vm r :=
  ⟨h, fun _ hg => hg, fun _ hg => Or.inl hg, fun _ => Nat.le_refl _, fun _ _ _ _ _ => rfl⟩

theorem Extends.trans (h1 : Extends vm vm' r) (h2 : Extends vm' vm'' r) : Extends vm vm'' r := by
  refine ⟨h2.space, fun g hg => h2.tables g (h1.tables g hg), fun g hg => ?_, fun i => (h1.le i).trans (h2.le i),
    fun g hd hg o ho => ?_⟩
  · rcases h2.fresh g hg with h3 | h3
    · exact h1.fresh g h3
    · have hle := h1.le (g / pageSize)
      exact Or.inr (by omega)
  · rw [h2.mem g hd hg o ho, h1.mem g hd (fun h => hg (h2.tables g h)) o ho]

theorem TablesOnly.refl (vm : Vm) (r : Nat) : TablesOnly vm vm r := fun _ => Or.inl rfl

theorem TablesOnly.trans (h1 : TablesOnly vm vm' r) (h2 : TablesOnly vm' vm'' r) (h3 : Extends vm' vm'' r) :
    TablesOnly vm vm'' r := by
  intro i
  rcases h1 i with h4 | ⟨h4, h5⟩
  · rcases h2 i with h6 | ⟨h6, h7⟩
    · exact Or.inl (h6.trans h4)
    · exact Or.inr ⟨by omega, h7⟩
  · exact Or.inr ⟨h4, h3.tables _ h5⟩

/-! ### Frames -/

theorem IsTable.aligned {m : Mem} {g : Nat} (ht : TableTree m r) (hg : IsTable m r g) : pageSize ∣ g := by
  obtain ⟨p, -, hp⟩ := hg
  exact walk_aligned ht.aligned hp

theorem Space.allocPage (h : Space vm r) :
    ((allocPage vm.frames).2 = 0 ∧ (allocPage vm.frames).1.count = vm.frames.count) ∨
      ((allocPage vm.frames).2 ≠ 0 ∧ pageSize ∣ (allocPage vm.frames).2 ∧ (allocPage vm.frames).2 < 2 ^ 64 ∧
        vm.frames.count ((allocPage vm.frames).2 / pageSize) = 0 ∧
        (allocPage vm.frames).1.count = Function.update vm.frames.count ((allocPage vm.frames).2 / pageSize) 1) := by
  obtain ⟨-, h1 | ⟨hd, hle, hz, hc⟩⟩ := allocPage_spec h.wf
  · exact Or.inl h1
  · refine Or.inr ⟨fun h0 => ?_, hd, ?_, hz, hc⟩
    · rw [h0, Nat.zero_div] at hz
      exact h.reserved hz
    · simp only [pageSize] at hle
      omega

theorem Space.alloc_extends (h : Space vm r) : Extends vm ⟨vm.mem, (Arch.allocPage vm.frames).1⟩ r := by
  have hle := allocPage_le h.wf
  refine ⟨⟨h.tree, (allocPage_spec h.wf).1, fun g hg => ?_, ?_⟩, fun _ hg => hg, fun _ hg => Or.inl hg, hle,
    fun _ _ _ _ _ => rfl⟩
  · have h1 := hle (g / pageSize)
    have h2 := h.counted g hg
    show (Arch.allocPage vm.frames).1.count (g / pageSize) ≠ 0
    omega
  · have h1 := hle 0
    have h2 := h.reserved
    show (Arch.allocPage vm.frames).1.count 0 ≠ 0
    omega

theorem Space.freePage (h : Space vm r) {a : Nat} (h0 : a ≠ 0) (hd : pageSize ∣ a) (ha : a < 2 ^ 64)
    (ht : ¬IsTable vm.mem r a) : Space ⟨vm.mem, freePage vm.frames a⟩ r ∧
      (freePage vm.frames a).count =
        Function.update vm.frames.count (a / pageSize) (vm.frames.count (a / pageSize) - 1) := by
  obtain ⟨hwf, hc⟩ := freePage_spec h.wf h0 (alignDown_of_dvd ha hd) hd
  refine ⟨⟨h.tree, hwf, fun g hg => ?_, ?_⟩, hc⟩
  · have hga : g / pageSize ≠ a / pageSize := fun he => ht (page_div_inj (hg.aligned h.tree) hd he ▸ hg)
    rw [hc, Function.update_of_ne hga]
    exact h.counted g hg
  · have hne : 0 ≠ a / pageSize := fun he => h0 (page_div_inj hd (Nat.dvd_zero _) (by rw [← he, Nat.zero_div]))
    rw [hc, Function.update_of_ne hne]
    exact h.reserved

/-! ### Tables -/

theorem walks_congr {m m' : Mem} (h : ∀ g, IsTable m r g → ∀ o < pageSize, m' (g + o) = m (g + o))
    {p : List (Fin 512)} (hp : p.length ≤ 4) : walk (entryAt m') tableOf 0 r p = walk (entryAt m) tableOf 0 r p ∧
      final (entryAt m') tableOf 0 r p = final (entryAt m) tableOf 0 r p := by
  refine walk_congr fun q i s f hsplit hf => ?_
  have hlen := congrArg List.length hsplit
  simp only [List.length_append, List.length_cons] at hlen
  refine ptEntry_congr i.2 fun x h1 h2 => ?_
  have h3 := h f ⟨q, by omega, hf⟩ (x - f) (by omega)
  rwa [show f + (x - f) = x by omega] at h3

theorem tables_congr {m m' : Mem} (ht : TableTree m r)
    (h : ∀ g, IsTable m r g → ∀ o < pageSize, m' (g + o) = m (g + o)) :
    TableTree m' r ∧ (∀ g, IsTable m' r g ↔ IsTable m r g) ∧ ∀ w, leaf m' r w = leaf m r w := by
  refine ⟨⟨ht.aligned, fun p q f h1 h2 h3 h4 => ?_⟩, fun g => ?_, fun w => ?_⟩
  · rw [(walks_congr h (by omega)).1] at h3
    rw [(walks_congr h (by omega)).1] at h4
    exact ht.tree p q f h1 h2 h3 h4
  · exact exists_congr fun p => and_congr_right fun hp => by rw [(walks_congr h (by omega)).1]
  · rw [leaf, leaf, (walks_congr (p := indices w) h (by simp [indices])).2]

private theorem Space.write_entry {m : Mem} {t : Nat} {i : Fin 512} {q : List (Fin 512)} {f : Frames} (h : Space vm r)
    (hq : walk (entryAt vm.mem) tableOf 0 r q = some t) (hlen : q.length ≤ 3)
    (hsame : ChangesAt (entryAt vm.mem) (entryAt m) tableOf 3 r t i)
    (hold : tableOf q.length (ptEntry vm.mem t i) = none) (hnew : tableOf q.length (ptEntry m t i) = none)
    (hmem : ∀ x, x < t ∨ t + pageSize ≤ x → m x = vm.mem x) (hf : f.Wf) (hc : f.count = vm.frames.count) :
    Extends vm ⟨m, f⟩ r := by
  obtain ⟨h1, h2⟩ := h.tree.cut hq hlen hsame hnew
  have hkeep : ∀ g, IsTable vm.mem r g → IsTable m r g := fun g hg => h.tree.keep hq hsame hlen hold hg
  refine ⟨⟨h1, hf, fun g hg => ?_, ?_⟩, hkeep, fun g hg => Or.inl (h2 g hg),
    fun i => by rw [hc], fun g hd hg o ho => ?_⟩
  · rw [hc]
    exact h.counted g (h2 g hg)
  · rw [hc]
    exact h.reserved
  · have htab : IsTable vm.mem r t := ⟨q, hlen, hq⟩
    have hne : t ≠ g := fun he => hg (he ▸ hkeep t htab)
    have hap := page_apart (htab.aligned h.tree) hd hne
    exact hmem _ (by omega)

theorem makeTable_extends {t flags : Nat} {i : Fin 512} {q : List (Fin 512)} (h : Space vm r)
    (hq : walk (entryAt vm.mem) tableOf 0 r q = some t) (hlen : q.length ≤ 2) (hf : MapFlags flags) :
    Extends vm (makeTable vm t i flags).1 r ∧ TablesOnly vm (makeTable vm t i flags).1 r := by
  have hmade := makeTable_cases (k := 0) (i := i) h.tree hq hlen hf (h.wf.supply h.counted 1)
  have halloc := h.allocPage
  have hwf := (allocPage_spec h.wf).1
  generalize makeTable vm t i flags = s at hmade ⊢
  cases hmade with
  | present entry => exact ⟨.refl h, .refl vm r⟩
  | failed absent none same entry mem =>
    obtain ⟨-, hc⟩ := halloc.resolve_right fun h => h.1 none
    have hnew := entry ▸ (by decide : hasFlag 0 pageFlagPresent = false)
    exact ⟨h.write_entry hq (by omega) same (tableOf_absent absent) (tableOf_absent hnew) mem hwf hc,
      fun i => Or.inl (by rw [hc])⟩
  | made absent some fresh same entry table empty mem =>
    rename_i m
    obtain ⟨-, hd, -, hz, hc⟩ := halloc.resolve_left fun h => some h.1
    have hext := h.alloc_extends
    obtain ⟨n, hn⟩ : ∃ n, (allocPage vm.frames).2 = n := ⟨_, rfl⟩
    rw [hn] at some fresh table empty mem hd hz hc
    obtain ⟨h1, h2⟩ := h.tree.grow hq (by omega) same table fresh empty
    have hkeep : ∀ g, IsTable vm.mem r g → IsTable m r g := fun g hg =>
      h.tree.keep hq same (by omega) (tableOf_absent absent) hg
    have htable : IsTable m r n := h.tree.isTable_next hq same hlen table
    have hcn : (allocPage vm.frames).1.count (n / pageSize) ≠ 0 := by
      rw [hc, Function.update_self]
      decide
    refine ⟨⟨⟨h1, hwf, fun g hg => ?_, hext.space.reserved⟩, hkeep, fun g hg => ?_, hext.le, fun g hdg hg o ho => ?_⟩,
      fun j => ?_⟩
    · rcases h2 g hg with h3 | rfl
      · exact hext.space.counted g h3
      · exact hcn
    · rcases h2 g hg with h3 | rfl
      · exact Or.inl h3
      · exact Or.inr hz
    · have htab : IsTable vm.mem r t := ⟨q, by omega, hq⟩
      have hap1 := page_apart (htab.aligned h.tree) hdg fun he => hg (he ▸ hkeep t htab)
      have hap2 := page_apart hd hdg fun he => hg (he ▸ htable)
      exact mem _ (by omega) (by omega)
    · by_cases hj : j = n / pageSize
      · subst hj
        exact Or.inr ⟨hz, by rw [Nat.mul_div_cancel' hd]; exact htable⟩
      · exact Or.inl (by rw [hc, Function.update_of_ne hj])

theorem vmMapPage_extends {v physAddr flags : Nat} (h : Space vm r) (hp : physAddr < 2 ^ 64) (hf : MapFlags flags) :
    Extends vm (vmMapPage vm r physAddr v flags).1 r ∧ TablesOnly vm (vmMapPage vm r physAddr v flags).1 r := by
  by_cases hv : nonCanonical v
  · have hsame : vmMapPage vm r physAddr v flags = (vm, false) := if_pos hv
    rw [hsame]
    exact ⟨.refl h, .refl vm r⟩
  have hrule := @vmMapPage_rule vm r v physAddr flags hv
    (fun q t cur => Extends vm cur r ∧ TablesOnly vm cur r ∧ walk (entryAt cur.mem) tableOf 0 r q = some t)
    ⟨.refl h, .refl vm r, rfl⟩ ?_
  · obtain ⟨q, i, t, cur, -, hlen, ⟨h1, h2, h3⟩, hres, -⟩ | ⟨t, cur, ⟨h1, h2, h3⟩, hres⟩ := hrule
    · obtain ⟨h4, h5⟩ := makeTable_extends (i := i) h1.space h3 hlen hf
      rw [hres]
      exact ⟨h1.trans h4, h2.trans h5 h4⟩
    · obtain ⟨he, -, -⟩ := pageEntry hp hf
      have hsame := h1.space.tree.setEntry_changesAt h3 (i := indexAt v 12)
        (alignDown physAddr pageSize ||| pageFlagPresent ||| flags)
      rw [hres, ← (index_val v).2.2.2]
      have h4 := h1.space.write_entry h3 (by simp) hsame (tableOf_last _) (tableOf_last _)
        (fun x hx => setEntry_outside (indexAt v 12).2 hx) h1.space.wf rfl
      exact ⟨h1.trans h4, h2.trans (fun _ => Or.inl rfl) h4⟩
  · rintro q i t cur - hlen ⟨h1, h2, h3⟩ hok hsize
    obtain ⟨h4, h5⟩ := makeTable_extends (i := i) h1.space h3 hlen hf
    have hmade := makeTable_made (k := 0) (i := i) h1.space.tree h3 hlen hf (h1.space.wf.supply h1.space.counted 1)
    exact ⟨h1.trans h4, h2.trans h5 h4, hmade.next hok hlen hsize⟩

theorem vmUnmapPage_isTable {m : Mem} {v g : Nat} (ht : TableTree m r) (hg : IsTable (vmUnmapPage m r v).1 r g) :
    IsTable m r g := by
  by_cases hv : nonCanonical v
  · have hsame : vmUnmapPage m r v = (m, false) := if_pos hv
    rwa [hsame] at hg
  obtain ⟨q, i, s, t, hsplit, hq, hend, hcase⟩ := @vmUnmapPage_cases m r v hv
  have hlen := congrArg List.length hsplit
  simp only [indices, List.length_append, List.length_cons, List.length_nil] at hlen
  rcases hcase with h1 | ⟨-, h1⟩
  · have hzero : ptEntry (setEntry m t i 0) t i = 0 := ptEntry_setEntry_self (by decide)
    rw [h1] at hg
    refine (ht.cut hq (by omega) (ht.setEntry_changesAt hq 0) ?_).2 g hg
    rw [hzero]
    exact tableOf_absent (by decide)
  · rwa [h1] at hg

theorem vmUnmapPage_tree {m : Mem} {v : Nat} (ht : TableTree m r) : TableTree (vmUnmapPage m r v).1 r := by
  by_cases hv : nonCanonical v
  · have hsame : vmUnmapPage m r v = (m, false) := if_pos hv
    rwa [hsame]
  obtain ⟨q, i, s, t, hsplit, hq, hend, hcase⟩ := @vmUnmapPage_cases m r v hv
  have hlen := congrArg List.length hsplit
  simp only [indices, List.length_append, List.length_cons, List.length_nil] at hlen
  rcases hcase with h1 | ⟨-, h1⟩
  · have hzero : ptEntry (setEntry m t i 0) t i = 0 := ptEntry_setEntry_self (by decide)
    rw [h1]
    refine (ht.cut hq (by omega) (ht.setEntry_changesAt hq 0) ?_).1
    rw [hzero]
    exact tableOf_absent (by decide)
  · rwa [h1]

theorem vmUnmapPage_extends {v : Nat} (h : Space vm r) : Extends vm ⟨(vmUnmapPage vm.mem r v).1, vm.frames⟩ r := by
  by_cases hv : nonCanonical v
  · have hsame : vmUnmapPage vm.mem r v = (vm.mem, false) := if_pos hv
    rw [hsame]
    exact .refl h
  obtain ⟨q, i, s, t, hsplit, hq, hend, hcase⟩ := @vmUnmapPage_cases vm.mem r v hv
  have hlen := congrArg List.length hsplit
  simp only [indices, List.length_append, List.length_cons, List.length_nil] at hlen
  rcases hcase with h1 | ⟨-, h1⟩
  · have hzero : ptEntry (setEntry vm.mem t i 0) t i = 0 := ptEntry_setEntry_self (by decide)
    have hnew : tableOf q.length (ptEntry (setEntry vm.mem t i 0) t i) = none := by
      rw [hzero]
      exact tableOf_absent (by decide)
    rw [h1]
    exact h.write_entry hq (by omega) (h.tree.setEntry_changesAt hq 0) hend hnew
      (fun x hx => setEntry_outside i.2 hx) h.wf rfl
  · rw [h1]
    exact .refl h

end

theorem emptyVm_space : Space emptyVm 0x1000 := by
  have htable : ∀ {p g}, walk (entryAt emptyVm.mem) tableOf 0 0x1000 p = some g → p = [] ∧ g = 0x1000 := emptyVm_walk
  refine ⟨⟨by decide, fun p q f _ _ hp hq => (htable hp).1.trans (htable hq).1.symm⟩, smallVm_tree.wf, ?_, by decide⟩
  rintro g ⟨p, -, hp⟩
  rw [(htable hp).2]
  decide

theorem emptyVm_leaf (v : Nat) : leaf emptyVm.mem 0x1000 v = none := by
  unfold leaf
  split
  · rfl
  · have h0 : entryAt emptyVm.mem 0x1000 (indexAt v 39) = 0 := by simp [entryAt, ptEntry, emptyVm, readLE]
    rw [indices, final, h0, tableOf_absent (by decide), Option.elim_none]
    rfl

end Pml.Arch
