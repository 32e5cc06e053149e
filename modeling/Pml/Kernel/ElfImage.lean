import Mathlib.Data.List.Pairwise
import Pml.Kernel.ElfLoad

/-!
# The image of an ELF file (`kernel/exec.c`)

A segment is loaded on new pages, which show the bytes of the file and zeros else, and no other page changes.  So in
the end each page shows what the last segment on it has put there, with the protection of this segment
(`elfLoadPhdrs_image`).  What the segments before it had put on the page is gone.
-/

namespace Pml.Kernel

open Arch ByteMemory

/-! ### Frames in use -/

/-- The frames in use that are no tables keep their bytes, and they are still in use and no tables. -/
def FramesKept (vm vm' : Vm) (r : Nat) : Prop :=
  ∀ g, pageSize ∣ g → vm.frames.count (g / pageSize) ≠ 0 → ¬ IsTable vm.mem r g →
    vm'.frames.count (g / pageSize) ≠ 0 ∧ ¬ IsTable vm'.mem r g ∧ ∀ o < pageSize, vm'.mem (g + o) = vm.mem (g + o)

section

variable {vm vm' vm'' : Vm} {r : Nat}

theorem FramesKept.refl (vm : Vm) (r : Nat) : FramesKept vm vm r := fun _ _ hc ht => ⟨hc, ht, fun _ _ => rfl⟩

theorem FramesKept.trans (h : FramesKept vm vm' r) (h' : FramesKept vm' vm'' r) : FramesKept vm vm'' r := by
  intro g hd hc ht
  obtain ⟨h1, h2, h3⟩ := h g hd hc ht
  obtain ⟨h4, h5, h6⟩ := h' g hd h1 h2
  exact ⟨h4, h5, fun o ho => (h6 o ho).trans (h3 o ho)⟩

theorem FramesKept.of_extends (h : Extends vm vm' r) : FramesKept vm vm' r := by
  intro g hd hc ht
  have hle := h.le (g / pageSize)
  have hnot : ¬ IsTable vm'.mem r g := fun hg => (h.fresh g hg).elim ht hc
  exact ⟨by omega, hnot, h.mem g hd hnot⟩

private theorem FramesKept.of_alloc {m : Mem} (h : Space vm r) (h0 : (allocPage vm.frames).2 ≠ 0)
    (hm : ∀ x, x < (allocPage vm.frames).2 ∨ (allocPage vm.frames).2 + pageSize ≤ x → m x = vm.mem x) :
    FramesKept vm ⟨m, (allocPage vm.frames).1⟩ r := by
  obtain ⟨-, hd, hlt, hz, hc⟩ := h.allocPage.resolve_left fun h1 => h0 h1.1
  have hsame : ∀ g, pageSize ∣ g → vm.frames.count (g / pageSize) ≠ 0 → ∀ o < pageSize,
    m (g + o) = vm.mem (g + o) := by
    intro g hg hused o ho
    have hap := page_apart hd hg fun he => hused (he ▸ hz)
    exact hm _ (by omega)
  obtain ⟨-, htables, -⟩ := tables_congr h.tree fun g hg o ho => hsame g (hg.aligned h.tree) (h.counted g hg) o ho
  intro g hg hused ht
  refine ⟨?_, fun h1 => ht ((htables g).1 h1), hsame g hg hused⟩
  dsimp only
  rw [hc]
  by_cases he : g / pageSize = (allocPage vm.frames).2 / pageSize
  · rw [he, Function.update_self]
    decide
  · rwa [Function.update_of_ne he]

end

/-! ### The loops -/

section

variable {r flags : Nat} {ℓ : Nat → Option (Nat × Nat)} {c : Nat → Nat} (hf : MapFlags flags)
include hf

private theorem mapPage_zeroed {vm : Vm} {ps : List (Nat × Nat)} {v : Nat} (h : Added vm r ps ℓ c)
    (h0 : (allocPage vm.frames).2 ≠ 0) {s : Vm × Bool}
    (hs : vmMapPage ⟨fill vm.mem (allocPage vm.frames).2 pageSize 0, (allocPage vm.frames).1⟩ r
      (allocPage vm.frames).2 v
      flags = s) :
    FramesKept vm s.1 r ∧ ∀ o < pageSize, s.1.mem ((allocPage vm.frames).2 + o) = 0 := by
  have halloc := h.holds.alloc h0
  obtain ⟨-, hd, hlt, ht⟩ := halloc.frame _ List.mem_cons_self
  have hfill : ∀ x, x < (allocPage vm.frames).2 ∨ (allocPage vm.frames).2 + pageSize ≤ x →
      fill vm.mem (allocPage vm.frames).2 pageSize 0 x = vm.mem x := fun x hx => fill_outside hx
  have hkept := FramesKept.of_alloc h.holds.space h0 hfill
  obtain ⟨hstore, -⟩ := halloc.store (m := fill vm.mem (allocPage vm.frames).2 pageSize 0) fun g hg o ho => by
    have hap := page_apart hd (hg.aligned h.holds.space.tree) fun he => ht (he ▸ hg)
    exact hfill _ (by omega)
  obtain ⟨hext, -⟩ := vmMapPage_extends (v := v) hstore.space hlt hf
  rw [hs] at hext
  refine ⟨hkept.trans (.of_extends hext), fun o ho => ?_⟩
  obtain ⟨-, -, -, hnot⟩ := hstore.frame _ List.mem_cons_self
  have hone := (hstore.one _ List.mem_cons_self).1
  obtain ⟨-, -, hsame⟩ := FramesKept.of_extends hext _ hd (by rw [hone]; decide) hnot
  rw [hsame o ho]
  exact if_pos ⟨Nat.le_add_right _ _, Nat.add_lt_add_left ho _⟩

private theorem mapPages_zeroed {vm : Vm} {vs : List Nat} {ps : List (Nat × Nat)} (h : Added vm r ps ℓ c)
    (hvs : PagesApart vs) (hnew : ∀ v ∈ vs, ∀ p ∈ ps, v / pageSize ≠ p.1 / pageSize)
    (hok : (mapPages r flags true vm vs).2 = none) :
    ∃ qs, Added (mapPages r flags true vm vs).1 r (qs ++ ps) ℓ c ∧ qs.map Prod.fst = vs ∧
      FramesKept vm (mapPages r flags true vm vs).1 r ∧
      ∀ q ∈ qs, ∀ o < pageSize, (mapPages r flags true vm vs).1.mem (q.2 + o) = 0 := by
  induction vs generalizing vm ps with
  | nil => exact ⟨[], h, rfl, .refl vm r, fun q hq => by cases hq⟩
  | cons v vs ih =>
    obtain ⟨hapart, hvs⟩ := List.pairwise_cons.1 hvs
    unfold mapPages at hok ⊢
    by_cases h0 : (allocPage vm.frames).2 = 0
    · simp only [h0, ↓reduceIte] at hok
      cases hok
    simp only [h0, ↓reduceIte] at hok ⊢
    obtain ⟨-, hadded⟩ := h.map (v := v) h0 (m := fill vm.mem (allocPage vm.frames).2 pageSize 0)
      (fun x hx => fill_outside hx) hf rfl
    have hzero := mapPage_zeroed hf (v := v) h h0 rfl
    generalize vmMapPage _ r (allocPage vm.frames).2 v flags = s at hadded hzero hok ⊢
    by_cases hs : s.2 = false
    · simp only [hs, ↓reduceIte] at hok
      cases hok
    simp only [hs] at hok ⊢
    obtain ⟨hkept, hz⟩ := hzero
    have hadd := hadded (Bool.eq_true_of_not_eq_false hs) (hnew v List.mem_cons_self)
    obtain ⟨-, hd, -, hnot⟩ := hadd.holds.frame _ List.mem_cons_self
    have hone := (hadd.holds.one _ List.mem_cons_self).1
    obtain ⟨qs, h1, h2, h3, h4⟩ := ih hadd hvs (fun w hw p hp => by
      rcases List.mem_cons.1 hp with rfl | hp
      · exact Ne.symm (hapart w hw)
      · exact hnew w (List.mem_cons_of_mem v hw) p hp) hok
    refine ⟨(v, (allocPage vm.frames).2) :: qs, h1.perm List.perm_middle, by rw [List.map_cons, h2], hkept.trans h3,
      fun q hq o ho => ?_⟩
    rcases List.mem_cons.1 hq with rfl | hq
    · obtain ⟨-, -, hsame⟩ := h3 _ hd (by rw [hone]; decide) hnot
      exact (hsame o ho).trans (hz o ho)
    · exact h4 q hq o ho

private theorem protectPages_entries {vm : Vm} {vs : List Nat} {ps : List (Nat × Nat)} (h : Added vm r ps ℓ c)
    (hal : ∀ v ∈ vs, pageSize ∣ v) (hmem : ∀ v ∈ vs, v ∈ ps.map Prod.fst) (hvs : PagesApart vs) :
    (protectPages r flags vm vs).2 = none ∧ Added (protectPages r flags vm vs).1 r ps ℓ c ∧
      FramesKept vm (protectPages r flags vm vs).1 r ∧
      (∀ w, (∀ v ∈ vs, w / pageSize ≠ v / pageSize) → leaf (protectPages r flags vm vs).1.mem r w = leaf vm.mem r w) ∧
      ∀ p ∈ ps, p.1 ∈ vs →
        leaf (protectPages r flags vm vs).1.mem r p.1 = some
        (3, alignDown p.2 pageSize ||| pageFlagPresent ||| flags) := by
  induction vs generalizing vm with
  | nil => exact ⟨rfl, h, .refl vm r, fun _ _ => rfl, fun p _ hp => by cases hp⟩
  | cons v vs ih =>
    obtain ⟨hapart, hrest⟩ := List.pairwise_cons.1 hvs
    obtain ⟨⟨v', a⟩, hva, rfl⟩ := List.mem_map.1 (hmem v List.mem_cons_self)
    dsimp only at hal hapart ⊢
    have hv := hal v' List.mem_cons_self
    obtain ⟨hok, hadd⟩ := h.remap hv (hmem v' List.mem_cons_self) hf rfl
    have hat := h.maps.here _ hva
    have hphys : vmPhysAddr vm.mem r v' = a := by
      rw [hat.phys, Nat.mod_eq_zero_of_dvd hv, Nat.add_zero]
    have hspace := h.holds.space
    obtain ⟨hext, -⟩ := vmMapPage_extends (v := v') hspace hat.lt hf
    obtain ⟨e, he, -⟩ := id hat
    have hplaced := vmMapPage_leaf hspace.tree (hspace.wf.supply hspace.counted 3) (leaf_some he).1 hat.lt hf
    rw [hphys] at hok hadd
    rw [hok] at hplaced
    unfold protectPages
    simp only [hphys, hok, Bool.true_eq_false, ↓reduceIte]
    generalize vmMapPage vm r a v' flags = s at hok hadd hext hplaced
    obtain ⟨h1, h2, h3, h4, h5⟩ := ih hadd (fun w hw => hal w (List.mem_cons_of_mem v' hw)) (fun w hw =>
      hmem w (List.mem_cons_of_mem v' hw)) hrest
    refine ⟨h1, h2, (FramesKept.of_extends hext).trans h3, fun w hw => ?_, fun p hp hpv => ?_⟩
    · rw [h4 w fun u hu => hw u (List.mem_cons_of_mem v' hu)]
      exact hplaced.other w fun _ => hw v' List.mem_cons_self
    · rcases List.mem_cons.1 hpv with heq | hpv
      · obtain rfl : p = (v', a) := h.maps.unique hp hva (by rw [heq])
        rw [h4 v' fun u hu => hapart u hu]
        exact hplaced.here rfl v' rfl
      · exact h5 p hp hpv

end

/-! ### What a page shows -/

/-- The address is in a page on a frame in use, which has this byte there and this permission to write. -/
def Shows (vm : Vm) (r w : Nat) (b : UInt8) (writable : Bool) : Prop :=
  ∃ e, leaf vm.mem r w = some (3, e) ∧ vm.frames.count (alignDown e pageSize / pageSize) ≠ 0 ∧
    ¬ IsTable vm.mem r (alignDown e pageSize) ∧ vm.mem (alignDown e pageSize + w % pageSize) = b ∧
    hasFlag e pageFlagRw = writable

theorem Shows.kept {vm vm' : Vm} {r w : Nat} {b : UInt8} {writable : Bool} (h : Shows vm r w b writable)
    (hk : FramesKept vm vm' r) (hleaf : leaf vm'.mem r w = leaf vm.mem r w) : Shows vm' r w b writable := by
  obtain ⟨e, h1, h2, h3, h4, h5⟩ := h
  obtain ⟨h6, h7, h8⟩ := hk _ (pageSize_dvd_alignDown e) h2 h3
  exact ⟨e, hleaf.trans h1, h6, h7, (h8 _ (Nat.mod_lt _ (by decide))).trans h4, h5⟩

def ElfPhdr.On (ph : ElfPhdr) (w : Nat) : Prop := ph.pagesStart ≤ w ∧ w < ph.pagesStop

instance (ph : ElfPhdr) (w : Nat) : Decidable (ph.On w) := inferInstanceAs (Decidable (_ ∧ _))

def ElfPhdr.byte (ph : ElfPhdr) (content : Nat → UInt8) (w : Nat) : UInt8 :=
  if ph.vaddr ≤ w ∧ w < ph.vaddr + ph.filesz then content (ph.offset + (w - ph.vaddr)) else 0

/-- `PF_W` is set. -/
def ElfPhdr.writable (ph : ElfPhdr) : Bool := ph.flags &&& pfW != 0

/-- The segment is in user memory, and its part of the file is not longer than the segment. -/
structure ElfPhdr.Ok (ph : ElfPhdr) : Prop where
  inUser : ph.vaddr + ph.memsz ≤ userMemoryLimit
  filesz_le : ph.filesz ≤ ph.memsz

def ElfFile.Reads (file : ElfFile) (content : Nat → UInt8) : Prop :=
  ∀ f, file.read = some f → ∀ len offset k, k < (f len offset).1.length →
    (f len offset).1.getD k 0 = content (offset + k)

private theorem vfsRead_getD {file : ElfFile} {content : Nat → UInt8} (h : file.Reads content) (len offset : Nat)
    {k : Nat}
    (hk : k < (vfsRead file len offset).1.length) : (vfsRead file len offset).1.getD k 0 = content (offset + k) := by
  unfold vfsRead at hk ⊢
  split at hk
  · cases hk
  rename_i hcan
  rw [if_neg hcan]
  split at hk
  · cases hk
  rename_i hdir
  rw [if_neg hdir]
  split at hk
  · cases hk
  rename_i hlen
  rw [if_neg hlen]
  split at hk
  · rename_i f hf
    exact h f hf len offset k hk
  · cases hk

/-! ### One segment -/

/-- What a segment on the pages `ps` leaves, with the data from the address `base` on. -/
structure SegmentShown (vm vm' : Vm) (r : Nat) (ps : List Nat) (base : Nat) (data : List UInt8) (writable : Bool) :
    Prop where
  space : Space vm' r
  kept : FramesKept vm vm' r
  other : ∀ w, (∀ v ∈ ps, w / pageSize ≠ v / pageSize) → leaf vm'.mem r w = leaf vm.mem r w
  shows : ∀ v ∈ ps, ∀ w, w / pageSize = v / pageSize →
    Shows vm' r w (if base ≤ w ∧ w < base + data.length then data.getD (w - base) 0 else 0) writable

section

variable {r flags base : Nat} {file : ElfFile} {vm : Vm} {lo : Nat} {ps : List Nat} {filesz offset : Nat}

theorem Stored.kept {vm' : Vm} {qs : List (Nat × Nat)} {ℓ : Nat → Option (Nat × Nat)} {c : Nat → Nat}
    {data : List UInt8} (h : Stored r qs ℓ c vm'.frames vm'.mem base data) (hadd : Added vm' r qs ℓ c)
    (hk : FramesKept vm vm' r) (hc : c = vm.frames.count) :
    FramesKept vm { vm' with mem := (storeUser r vm'.mem base data).1 } r := by
  intro g hd hused ht
  obtain ⟨h1, h2, h3⟩ := hk g hd hused ht
  have hsame : ∀ g', IsTable vm'.mem r g' → ∀ o < pageSize,
    (storeUser r vm'.mem base data).1 (g' + o) = vm'.mem (g' + o) := by
    intro g' hg' o ho
    refine h.outside _ fun p hp => ?_
    obtain ⟨-, hpd, -, hpt⟩ := hadd.holds.frame p.2 (List.mem_map_of_mem hp)
    have hap := page_apart hpd (hg'.aligned hadd.holds.space.tree) fun he => hpt (he ▸ hg')
    omega
  obtain ⟨-, htables, -⟩ := tables_congr hadd.holds.space.tree hsame
  refine ⟨h1, fun hg => h2 ((htables g).1 hg), fun o ho => (h.outside _ fun p hp => ?_).trans (h3 o ho)⟩
  obtain ⟨-, hpd, -, -⟩ := hadd.holds.frame p.2 (List.mem_map_of_mem hp)
  have hfree := (hadd.holds.one p.2 (List.mem_map_of_mem hp)).2
  have hap := page_apart hpd hd fun he => hused (by rw [← hc, ← he]; exact hfree)
  omega

private theorem mmapPages_shown (hspace : Space vm r) (hf : MapFlags flags) (hapart : PagesApart ps)
    (hal : ∀ v ∈ ps, pageSize ∣ v)
    (hlt : base + filesz < 2 ^ 64 - 1) (hcover : ∀ k < filesz, ∃ v ∈ ps, (base + k) / pageSize = v / pageSize)
    (hok : (mmapPages r file vm lo ps flags base filesz offset).status = .ok) :
    (readSegment file filesz offset).1.length = filesz ∧
      SegmentShown vm (mmapPages r file vm lo ps flags base filesz offset).vm r ps base
      (readSegment file filesz offset).1
        (hasFlag (pageFlagPresent ||| flags) pageFlagRw) := by
  have hnone : (mapPages r pageFlagRw true vm ps).2 = none := by
    cases hres : (mapPages r pageFlagRw true vm ps).2 with
    | none => rfl
    | some ptr =>
      obtain ⟨vm', heq⟩ := @mmapPages_unmapped r file vm lo ps flags base filesz offset ptr hres
      rw [heq] at hok
      cases hok
  have hstored := @mmapPages_stored r file vm lo ps flags base filesz offset hnone
  obtain ⟨qs, hadd, hqs, hkept, hzero⟩ :=
    mapPages_zeroed mapFlags_rw (.start hspace) hapart (fun _ _ p hp => by cases hp) hnone
  rw [List.append_nil] at hadd
  generalize mmapPages r file vm lo ps flags base filesz offset = res at hok hstored ⊢
  generalize readSegment file filesz offset = data at hstored ⊢
  generalize (mapPages r pageFlagRw true vm ps).1 = vm1 at hstored hadd hkept hzero
  cases hstored with
  | fault stored => cases hok
  | short stored fails vm' => cases hok
  | unprotected ptr stored protect vm' => cases hok
  | ok stored reads protect =>
  have length : data.1.length = filesz := by
    unfold readResult at reads
    split at reads
    · omega
    · exact reads
  refine ⟨length, ?_⟩
  have hpage : ∀ v ∈ ps, ∃ q ∈ qs, q.1 = v := fun v hv => List.mem_map.1 (hqs ▸ hv)
  have hst := storeUser_added hadd (show base + data.1.length < 2 ^ 64 by omega) fun k hk => by
    obtain ⟨v, hv, heq⟩ := hcover k (length ▸ hk)
    obtain ⟨q, hq, rfl⟩ := hpage v hv
    exact ⟨q, hq, heq⟩
  have hkept' := hst.kept hadd hkept rfl
  obtain ⟨hprot, hadd', hkept'', hother, hentry⟩ :=
    protectPages_entries hf hst.added hal (fun v hv => hqs ▸ hv) hapart
  refine ⟨hadd'.holds.space, hkept'.trans hkept'', fun w hw => ?_, fun v hv w hw => ?_⟩
  · rw [hother w hw]
    exact (hst.leaf w).trans (hadd.maps.other w fun p hp => hw p.1 (hqs ▸ List.mem_map_of_mem hp))
  · obtain ⟨q, hq, rfl⟩ := hpage v hv
    obtain ⟨-, hqd, hqlt, -⟩ := hadd'.holds.frame q.2 (List.mem_map_of_mem hq)
    obtain ⟨-, -, -, hqt⟩ := hst.added.holds.frame q.2 (List.mem_map_of_mem hq)
    have hone := (hst.added.holds.one q.2 (List.mem_map_of_mem hq)).1
    obtain ⟨h1, h2, h3⟩ := hkept'' q.2 hqd (by rw [hone]; decide) hqt
    obtain ⟨-, -, hdown⟩ := pageEntry hqlt hf
    rw [alignDown_of_dvd hqlt hqd] at hdown
    have hleaf := hentry q hq hv
    rw [alignDown_of_dvd hqlt hqd] at hleaf
    refine ⟨q.2 ||| pageFlagPresent ||| flags,
      (leaf_congr hw).trans hleaf, by rw [hdown]; exact h1, by rw [hdown]; exact h2, ?_, ?_⟩
    · rw [hdown, h3 _ (Nat.mod_lt _ (by decide))]
      dsimp only
      rw [hst.shows q hq w hw, hzero q hq _ (Nat.mod_lt _ (by decide))]
    · have hbit : q.2.testBit 1 = false := by
        rw [← alignDown_of_dvd hqlt hqd, show pageSize = 2 ^ 12 from rfl, testBit_alignDown (by decide)]
        simp
      rw [hasFlag_rw, hasFlag_rw, Nat.or_assoc, Nat.testBit_or, hbit, Bool.false_or]

end

section

variable {r : Nat} {file : ElfFile} {content : Nat → UInt8} {s : ElfState} {ph : ElfPhdr}

private theorem ElfPhdr.mapFlags (ph : ElfPhdr) : MapFlags ph.pageFlags := by
  unfold ElfPhdr.pageFlags
  split
  · exact ⟨by decide, by decide, by decide⟩
  · exact ⟨by decide, by decide, by decide⟩

private theorem ElfPhdr.pageFlags_rw (ph : ElfPhdr) :
    hasFlag (pageFlagPresent ||| ph.pageFlags) pageFlagRw = ph.writable := by
  unfold ElfPhdr.pageFlags ElfPhdr.prot ElfPhdr.writable
  by_cases hw : ph.flags &&& pfW = 0
  · simp only [hw, ne_eq, not_true_eq_false, ↓reduceIte]
    split <;> split <;> decide
  · simp only [hw, ne_eq, not_false_eq_true, ↓reduceIte]
    rw [bne_iff_ne.2 hw]
    split <;> split <;> decide

private theorem ElfPhdr.on_iff (h : ph.Ok) {w : Nat} : ph.On w ↔ ∃ v ∈ ph.pages, w / pageSize = v / pageSize := by
  constructor
  · intro hon
    refine ⟨_, ElfPhdr.page_mem h.inUser hon.1 hon.2, ?_⟩
    exact (Nat.mul_div_cancel _ (by decide)).symm
  · rintro ⟨v, hv, heq⟩
    obtain ⟨hd, h1, h2⟩ := (ElfPhdr.mem_pages h.inUser).1 hv
    obtain ⟨k, rfl⟩ := hd
    unfold ElfPhdr.On ElfPhdr.pagesStart ElfPhdr.pagesStop at *
    simp only [pageSize] at *
    omega

private theorem ElfPhdr.alignUp_stop (h : ph.Ok) : alignUp (add64 ph.vaddr ph.memsz) pageSize = ph.pagesStop := by
  have hin : ph.vaddr + ph.memsz ≤ 0x7fffffffffff := h.inUser
  rw [add64_of_lt (by omega)]
  obtain ⟨⟨k, hk⟩, h1, h2⟩ := @alignUp_page_spec (ph.vaddr + ph.memsz) (by simp only [pageSize]; omega)
  rw [hk] at h1 h2 ⊢
  unfold ElfPhdr.pagesStop
  simp only [pageSize] at *
  omega

/-- What a segment leaves, in terms of its addresses. -/
structure Loaded (content : Nat → UInt8) (vm vm' : Vm) (r : Nat) (ph : ElfPhdr) : Prop where
  space : Space vm' r
  kept : FramesKept vm vm' r
  other : ∀ w, ¬ ph.On w → leaf vm'.mem r w = leaf vm.mem r w
  shows : ∀ w, ph.On w → Shows vm' r w (ph.byte content w) ph.writable

private theorem loadSegment_of_le (h : ¬ add64 ph.vaddr ph.memsz > userMemoryLimit) : loadSegment r file s ph =
    endSegment s ph (mmapPages r file s.vm (alignDown ph.vaddr pageSize) ph.pages ph.pageFlags ph.vaddr ph.filesz
      ph.offset) := by
  rw [loadSegment, if_neg h, elfMmap_eq]

private theorem endSegment_ok {m : ElfMapped} (h : (endSegment s ph m).2 = .ok) : m.status = .ok ∧
    (endSegment s ph m).1.base = raiseBase s.base (alignUp (add64 ph.vaddr ph.memsz) pageSize) :=
  ⟨h, if_pos h⟩

private theorem endSegment_vm (m : ElfMapped) : (endSegment s ph m).1.vm = m.vm := rfl

private theorem loadSegment_loaded (hph : ph.Ok) (hspace : Space s.vm r) (hreads : file.Reads content)
    (hok : (loadSegment r file s ph).2 = .ok) : Loaded content s.vm (loadSegment r file s ph).1.vm r ph ∧
      (loadSegment r file s ph).1.base = raiseBase s.base ph.pagesStop := by
  have hin : ph.vaddr + ph.memsz ≤ 0x7fffffffffff := hph.inUser
  have hle := hph.filesz_le
  have hle' : ¬ add64 ph.vaddr ph.memsz > userMemoryLimit := by
    rw [add64_of_lt (by omega)]
    exact Nat.not_lt.2 hph.inUser
  rw [loadSegment_of_le hle'] at hok ⊢
  rw [endSegment_vm]
  obtain ⟨hstatus, hbase⟩ := endSegment_ok hok
  obtain ⟨hlen, hspc, hkept, hother, hshows⟩ := mmapPages_shown hspace ph.mapFlags ph.pages_apart
    (fun v hv => ((ElfPhdr.mem_pages hph.inUser).1 hv).1) (by omega) (fun k hk => by
      have hstop : ph.vaddr + ph.memsz ≤ ph.pagesStop := by
        unfold ElfPhdr.pagesStop
        simp only [pageSize]
        omega
      have hstart : ph.pagesStart ≤ ph.vaddr := Nat.div_mul_le_self _ _
      exact (ElfPhdr.on_iff hph).1 ⟨by omega, by omega⟩) hstatus
  refine ⟨⟨hspc, hkept, fun w hw => hother w fun v hv heq => hw ((ElfPhdr.on_iff hph).2 ⟨v, hv, heq⟩),
    fun w hw => ?_⟩, ?_⟩
  · obtain ⟨v, hv, heq⟩ := (ElfPhdr.on_iff hph).1 hw
    have hshow := hshows v hv w heq
    rw [ElfPhdr.pageFlags_rw, hlen] at hshow
    have hbyte : ph.byte content w = if ph.vaddr ≤ w ∧ w < ph.vaddr + ph.filesz then
        (readSegment file ph.filesz ph.offset).1.getD (w - ph.vaddr) 0 else 0 := by
      unfold ElfPhdr.byte
      split
      · rw [readSegment_fst] at hlen ⊢
        exact (vfsRead_getD hreads _ _ (by omega)).symm
      · rfl
    rw [hbyte]
    exact hshow
  · rw [← ElfPhdr.alignUp_stop hph]
    exact hbase

end

/-! ### All segments -/

def lastOn (phs : List ElfPhdr) (w : Nat) : Option ElfPhdr := (phs.filter fun ph => decide (ph.On w)).getLast?

private theorem lastOn_snoc (phs : List ElfPhdr) (ph : ElfPhdr) (w : Nat) :
    lastOn (phs ++ [ph]) w = if ph.On w then some ph else lastOn phs w := by
  unfold lastOn
  rw [List.filter_append]
  by_cases h : ph.On w
  · rw [if_pos h, List.filter_cons_of_pos (by simpa using h), List.filter_nil, List.getLast?_append]
    rfl
  · rw [if_neg h, List.filter_cons_of_neg (by simpa using h), List.filter_nil, List.append_nil]

/-- Every page shows what the last of the segments has put there. -/
structure Image (content : Nat → UInt8) (vm : Vm) (r : Nat) (phs : List ElfPhdr) : Prop where
  space : Space vm r
  shows : ∀ w ph, lastOn phs w = some ph → Shows vm r w (ph.byte content w) ph.writable

theorem Image.snoc {content : Nat → UInt8} {vm vm' : Vm} {r : Nat} {phs : List ElfPhdr} {ph : ElfPhdr}
    (h : Image content vm r phs) (hl : Loaded content vm vm' r ph) : Image content vm' r (phs ++ [ph]) := by
  refine ⟨hl.space, fun w p hp => ?_⟩
  rw [lastOn_snoc] at hp
  by_cases hon : ph.On w
  · rw [if_pos hon] at hp
    obtain rfl := Option.some.inj hp
    exact hl.shows w hon
  · rw [if_neg hon] at hp
    exact (h.shows w p hp).kept hl.kept (hl.other w hon)

private theorem loadPhdrs_image {r : Nat} {file : ElfFile} {ehdr : ElfEhdr} {content : Nat → UInt8}
    (hreads : file.Reads content) {is : List Nat} {phs : List ElfPhdr} {s : ElfState} (h : Image content s.vm r phs)
    (hall : ∀ ph ∈ (is.filterMap (phdrAt file ehdr)).filter fun ph => ph.type = ptLoad, ph.Ok)
    (hok : (loadPhdrs r file ehdr is s).2 = .ok) :
    Image content (loadPhdrs r file ehdr is s).1.vm r
        (phs ++ (is.filterMap (phdrAt file ehdr)).filter fun ph => ph.type = ptLoad) ∧
      (loadPhdrs r file ehdr is s).1.base =
        ((is.filterMap (phdrAt file ehdr)).filter fun ph => ph.type = ptLoad).foldl
          (fun b ph => raiseBase b ph.pagesStop) s.base := by
  induction is generalizing s phs with
  | nil => exact ⟨by rw [List.filterMap_nil, List.filter_nil, List.append_nil]; exact h, rfl⟩
  | cons i is ih =>
    unfold loadPhdrs at hok ⊢
    cases hph : phdrAt file ehdr i with
    | none =>
      rw [hph] at hok
      cases hok
    | some ph =>
      rw [hph] at hok
      rw [List.filterMap_cons_some hph] at hall ⊢
      dsimp only at hok ⊢
      by_cases hload : ph.type = ptLoad
      case neg =>
        rw [if_neg hload] at hok ⊢
        rw [List.filter_cons_of_neg (by simpa using hload)] at hall ⊢
        exact ih h hall hok
      rw [if_pos hload] at hok ⊢
      rw [List.filter_cons_of_pos (by simpa using hload)] at hall ⊢
      by_cases hseg : (loadSegment r file s ph).2 = .ok
      case neg =>
        rw [if_neg hseg] at hok
        exact absurd hok hseg
      rw [if_pos hseg] at hok ⊢
      obtain ⟨hloaded, hbase⟩ := loadSegment_loaded (hall ph List.mem_cons_self) h.space hreads hseg
      obtain ⟨h1, h2⟩ := ih (h.snoc hloaded) (fun p hp => hall p (List.mem_cons_of_mem ph hp)) hok
      rw [List.append_assoc, List.singleton_append] at h1
      rw [hbase] at h2
      exact ⟨h1, h2⟩

private theorem elfLoadPhdrs_image {r : Nat} {file : ElfFile} {ehdr : ElfEhdr} {content : Nat → UInt8}
    (hreads : file.Reads content) {s : ElfState} (hspace : Space s.vm r) (hall : ∀ ph ∈ ehdr.loads file, ph.Ok)
    (hok : (elfLoadPhdrs r file ehdr s).2 = .ok) :
    Image content (elfLoadPhdrs r file ehdr s).1.vm r (ehdr.loads file) ∧
      (elfLoadPhdrs r file ehdr s).1.base = (ehdr.loads file).foldl (fun b ph => raiseBase b ph.pagesStop) s.base :=
  @loadPhdrs_image r file ehdr content hreads (List.range ehdr.phnum) [] s ⟨hspace, fun _ _ h => by cases h⟩ hall hok

/-! ### What the program sees -/

def userByte (m : Mem) (r w : Nat) : Option UInt8 := (leaf m r w).map fun fin => m (pageAddr w fin)

def pageWritable (m : Mem) (r w : Nat) : Bool := (leaf m r w).elim false fun fin => hasFlag fin.2 pageFlagRw

def ElfPhdr.Has (ph : ElfPhdr) (w : Nat) : Prop := ph.vaddr ≤ w ∧ w < ph.vaddr + ph.memsz

/-- The bytes of the segments are apart from each other, and no segment wraps or leaves user memory. -/
structure ElfPhdrs (phs : List ElfPhdr) : Prop where
  ok : ∀ ph ∈ phs, ph.Ok
  apart : phs.Pairwise fun p q => ∀ w, p.Has w → ¬ q.Has w

/-- The image is that of the file: its bytes, zeros after them, a page that may be written when a segment on it may,
and the break after the last page. -/
structure Faithful (content : Nat → UInt8) (m : Mem) (r : Nat) (phs : List ElfPhdr) (base : Nat) : Prop where
  file : ∀ ph ∈ phs, ∀ k < ph.filesz, userByte m r (ph.vaddr + k) = some (content (ph.offset + k))
  zero : ∀ ph ∈ phs, ∀ k < ph.memsz, ph.filesz ≤ k → userByte m r (ph.vaddr + k) = some 0
  writable : ∀ w, (∃ ph ∈ phs, ph.On w) →
    (pageWritable m r w = true ↔ ∃ ph ∈ phs, ph.On w ∧ ph.writable = true)
  base : base = (phs.map ElfPhdr.pagesStop).foldr max 0

/-- On every page the last segment may be written if one of them may, and the file has only zeros there for the
others. -/
def LastServes (content : Nat → UInt8) (phs : List ElfPhdr) : Prop :=
  ∀ w last, lastOn phs w = some last → ∀ ph ∈ phs, ph.On w →
    (ph.writable = true → last.writable = true) ∧
      (ph ≠ last → ph.vaddr ≤ w → w < ph.vaddr + ph.filesz → content (ph.offset + (w - ph.vaddr)) = 0)

theorem Shows.userByte {vm : Vm} {r w : Nat} {b : UInt8} {writable : Bool} (h : Shows vm r w b writable) :
    userByte vm.mem r w = some b ∧ pageWritable vm.mem r w = writable := by
  obtain ⟨e, hleaf, -, -, hbyte, hw⟩ := h
  unfold Kernel.userByte pageWritable
  rw [hleaf, Option.map_some, pageAddr_last (leaf_some hleaf).2.2, hbyte]
  exact ⟨rfl, hw⟩

private theorem lastOn_some {phs : List ElfPhdr} {ph : ElfPhdr} {w : Nat} (hph : ph ∈ phs) (hon : ph.On w) :
    ∃ last, lastOn phs w = some last ∧ last ∈ phs ∧ last.On w := by
  have hmem : ph ∈ phs.filter fun ph => decide (ph.On w) := List.mem_filter.2 ⟨hph, decide_eq_true hon⟩
  refine ⟨_, List.getLast?_eq_some_getLast (List.ne_nil_of_mem hmem), ?_⟩
  have hlast := List.mem_filter.1 (List.getLast_mem (List.ne_nil_of_mem hmem))
  exact ⟨hlast.1, of_decide_eq_true hlast.2⟩

private theorem foldl_raiseBase (phs : List ElfPhdr) (b : Nat) :
    phs.foldl (fun b ph => raiseBase b ph.pagesStop) b = max b ((phs.map ElfPhdr.pagesStop).foldr max 0) := by
  induction phs generalizing b with
  | nil => exact (Nat.max_zero b).symm
  | cons ph phs ih =>
    have hraise : raiseBase b ph.pagesStop = max b ph.pagesStop := by
      unfold raiseBase
      split <;> omega
    rw [List.foldl_cons, ih, hraise, List.map_cons, List.foldr_cons, Nat.max_assoc]

section

variable {content : Nat → UInt8} {phs : List ElfPhdr}

private theorem ElfPhdr.Has.on {ph : ElfPhdr} {w : Nat} (h : ph.Has w) : ph.On w := by
  unfold ElfPhdr.Has at h
  unfold ElfPhdr.On ElfPhdr.pagesStart ElfPhdr.pagesStop
  simp only [pageSize]
  omega

theorem ElfPhdrs.disjoint (h : ElfPhdrs phs) {p q : ElfPhdr} (hp : p ∈ phs) (hq : q ∈ phs) (hne : p ≠ q) {w : Nat}
    (hw : p.Has w) : ¬ q.Has w := by
  have hsymm : Std.Symm fun p q : ElfPhdr => ∀ w, p.Has w → ¬ q.Has w := ⟨fun _ _ h w h1 h2 => h w h2 h1⟩
  exact h.apart.forall hp hq hne w hw

private theorem ElfPhdrs.byte_last (h : ElfPhdrs phs) {ph last : ElfPhdr} (hph : ph ∈ phs) (hlast : last ∈ phs)
    {w : Nat} (hw : ph.Has w) : last.byte content w = if last = ph then ph.byte content w else 0 := by
  by_cases he : last = ph
  · rw [if_pos he, he]
  · have hnot := h.disjoint hph hlast (Ne.symm he) hw
    have hle := (h.ok last hlast).filesz_le
    rw [if_neg he, ElfPhdr.byte, if_neg]
    unfold ElfPhdr.Has at hnot
    omega

/-- The image is the one of the file when on every page the last segment serves for all of them. -/
private theorem Image.faithful_iff {vm : Vm} {r : Nat} (h : Image content vm r phs) (hphs : ElfPhdrs phs) :
    Faithful content vm.mem r phs ((phs.map ElfPhdr.pagesStop).foldr max 0) ↔ LastServes content phs := by
  constructor
  · intro hf w last hl ph hph hon
    obtain ⟨hbyte, hwrite⟩ := (h.shows w last hl).userByte
    refine ⟨fun hw => ?_, fun hne h1 h2 => ?_⟩
    · rw [← hwrite, hf.writable w ⟨ph, hph, hon⟩]
      exact ⟨ph, hph, hon, hw⟩
    · have hle := (hphs.ok ph hph).filesz_le
      obtain ⟨last', hl', hmem, -⟩ := lastOn_some hph hon
      obtain rfl : last' = last := Option.some.inj (hl'.symm.trans hl)
      have hshown : last'.byte content w = _ := hphs.byte_last hph hmem ⟨h1, by omega⟩
      have hfile := hf.file ph hph (w - ph.vaddr) (by omega)
      rw [Nat.add_sub_cancel' h1, hbyte, hshown, if_neg (Ne.symm hne)] at hfile
      exact (Option.some.inj hfile).symm
  · intro hserves
    have hat :
      ∀ ph ∈ phs, ∀ k < ph.memsz, userByte vm.mem r (ph.vaddr + k) = some (ph.byte content (ph.vaddr + k)) := by
      intro ph hph k hk
      have hhas : ph.Has (ph.vaddr + k) := ⟨by omega, by omega⟩
      obtain ⟨last, hl, hmem, -⟩ := lastOn_some hph hhas.on
      rw [(h.shows _ last hl).userByte.1, hphs.byte_last hph hmem hhas]
      by_cases he : last = ph
      · rw [if_pos he]
      · rw [if_neg he, ElfPhdr.byte]
        split
        · rename_i hin
          rw [((hserves _ last hl ph hph hhas.on).2 (Ne.symm he) hin.1 hin.2)]
        · rfl
    refine ⟨fun ph hph k hk => ?_, fun ph hph k hk hle => ?_, fun w hw => ?_, rfl⟩
    · have hle := (hphs.ok ph hph).filesz_le
      rw [hat ph hph k (by omega), ElfPhdr.byte, if_pos (by omega), Nat.add_sub_cancel_left]
    · rw [hat ph hph k hk, ElfPhdr.byte, if_neg (by omega)]
    · obtain ⟨ph, hph, hon⟩ := hw
      obtain ⟨last, hl, hmem, hlon⟩ := lastOn_some hph hon
      rw [(h.shows w last hl).userByte.2]
      exact ⟨fun hlw => ⟨last, hmem, hlon, hlw⟩, fun ⟨p, hp, hpon, hpw⟩ => (hserves w last hl p hp hpon).1 hpw⟩

end

/-- `elf_load_file` starts with no break.  A successful `elf_load_phdrs` leaves the image of the file exactly when on
every page the last segment serves for all of them: a later segment on the page of an earlier one maps a new page with
its own permission. -/
theorem elf_image_faithful_iff {r : Nat} {file : ElfFile} {ehdr : ElfEhdr} {content : Nat → UInt8} {s : ElfState}
    (hreads : file.Reads content) (hspace : Space s.vm r) (hbase : s.base = 0) (hphs : ElfPhdrs (ehdr.loads file))
    (hok : (elfLoadPhdrs r file ehdr s).2 = .ok) :
    Faithful content (elfLoadPhdrs r file ehdr s).1.vm.mem r (ehdr.loads file) (elfLoadPhdrs r file ehdr s).1.base ↔
      LastServes content (ehdr.loads file) := by
  obtain ⟨himage, hend⟩ := elfLoadPhdrs_image hreads hspace hphs.ok hok
  rw [hend, foldl_raiseBase, hbase, Nat.zero_max]
  exact himage.faithful_iff hphs

def contentOf (bytes : List UInt8) (i : Nat) : UInt8 := bytes.getD i 0

private theorem fileOf_reads (bytes : List UInt8) : (fileOf bytes).Reads (contentOf bytes) := by
  intro f hf len offset k hk
  cases hf
  dsimp only at hk ⊢
  have hlen := List.length_take_le len (bytes.drop offset)
  rw [List.getD_eq_getElem?_getD, contentOf, List.getD_eq_getElem?_getD, List.getElem?_take_of_lt (by omega),
    List.getElem?_drop]

/-- One segment on its own page. -/
theorem elf_image_faithful_small : Faithful (contentOf (phdrBytes 5 0 0x400000 1 0x1000))
    (elfLoadPhdrs 0x1000 (fileOf (phdrBytes 5 0 0x400000 1 0x1000)) ⟨0, 56, 1⟩ ⟨emptyVm, 0, []⟩).1.vm.mem 0x1000
    (ElfEhdr.loads ⟨0, 56, 1⟩ (fileOf (phdrBytes 5 0 0x400000 1 0x1000)))
    (elfLoadPhdrs 0x1000 (fileOf (phdrBytes 5 0 0x400000 1 0x1000)) ⟨0, 56, 1⟩ ⟨emptyVm, 0, []⟩).1.base := by
  have hloads :
    ElfEhdr.loads ⟨0, 56, 1⟩ (fileOf (phdrBytes 5 0 0x400000 1 0x1000)) = [⟨1, 5, 0, 0x400000, 1, 0x1000⟩] := by
    decide
  refine (elf_image_faithful_iff (fileOf_reads _) emptyVm_space rfl ?_ (by decide +kernel)).2 ?_
  · rw [hloads]
    refine ⟨fun ph hph => ?_, List.pairwise_singleton _ _⟩
    obtain rfl := List.mem_singleton.1 hph
    exact ⟨by decide, by decide⟩
  · rw [hloads]
    intro w last hl ph hph hon
    obtain rfl := List.mem_singleton.1 hph
    obtain ⟨last', hl', hmem, -⟩ := lastOn_some (List.mem_singleton_self _) hon
    obtain rfl := List.mem_singleton.1 hmem
    obtain rfl := Option.some.inj (hl'.symm.trans hl)
    exact ⟨id, fun hne => absurd rfl hne⟩

def sharedFile : List UInt8 := phdrBytes 6 112 0x400000 1 1 ++ phdrBytes 4 0 0x400800 0 1 ++ [7]

theorem not_elf_image_faithful : ¬ ∀ (r : Nat) (file : ElfFile) (ehdr : ElfEhdr) (content : Nat → UInt8)
    (s : ElfState),
    file.Reads content → Space s.vm r → s.base = 0 → ElfPhdrs (ehdr.loads file) →
    (elfLoadPhdrs r file ehdr s).2 = .ok →
    Faithful content (elfLoadPhdrs r file ehdr s).1.vm.mem r (ehdr.loads file)
    (elfLoadPhdrs r file ehdr s).1.base := by
  intro hall
  have hloads : ElfEhdr.loads ⟨0, 56, 2⟩ (fileOf sharedFile) =
      [⟨1, 6, 112, 0x400000, 1, 1⟩, ⟨1, 4, 0, 0x400800, 0, 1⟩] := by
    decide
  have hphs : ElfPhdrs (ElfEhdr.loads ⟨0, 56, 2⟩ (fileOf sharedFile)) := by
    rw [hloads]
    refine ⟨fun ph hph => ?_, List.pairwise_pair.2 fun w hw hw' => ?_⟩
    · rcases List.mem_pair.1 hph with rfl | rfl
      · exact ⟨by decide, by decide⟩
      · exact ⟨by decide, by decide⟩
    · have h1 : w < 0x400000 + 1 := hw.2
      have h2 : 0x400800 ≤ w := hw'.1
      omega
  have hfaithful :=
    hall 0x1000 (fileOf sharedFile) ⟨0, 56, 2⟩ (contentOf sharedFile) ⟨emptyVm, 0, []⟩ (fileOf_reads _)
    emptyVm_space rfl hphs (by decide +kernel)
  have hbyte := hfaithful.file ⟨1, 6, 112, 0x400000, 1, 1⟩ (by rw [hloads]; exact List.mem_cons_self) 0 (by decide)
  exact absurd hbyte (by decide +kernel)

end Pml.Kernel
