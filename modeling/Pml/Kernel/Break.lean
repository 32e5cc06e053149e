import Mathlib.Data.Set.Card
import Pml.Kernel.MapLoops

/-!
# The program break (`arch/x86_64/mm.c`)

`sys_brk` moves the end of the data segment: pages up to the new break are mapped on new frames, pages behind it are
unmapped.  The loop that shrinks the segment works on the page of its argument in every round, and a loop that grows
it stops at the first page without memory.  `brk_law_iff` says for which calls the data segment is what the new break
says.
-/

namespace Pml.Kernel

open Arch ByteMemory LevelWalk

structure Brk where
  base : Nat
  curr : Nat
  max : Nat
  deriving DecidableEq, Repr

/-- The current process: its address space and its break. -/
structure BrkState where
  vm : Vm
  pml4t : Nat
  brk : Brk

/-- The loop of `sys_brk` that shrinks the segment to `addr`. -/
def shrinkPages (pml4t addr : Nat) : Vm → List Nat → Vm
  | vm, [] => vm
  | vm, _ :: vs =>
    let physAddr := vmPhysAddr vm.mem pml4t addr
    let frames := if physAddr ≠ 0 then freePage vm.frames physAddr else vm.frames
    shrinkPages pml4t addr ⟨(vmUnmapPage vm.mem pml4t addr).1, frames⟩ vs

/-- The loop of `sys_brk` that grows the segment; the second component is false if there is no memory. -/
def growPages (pml4t : Nat) : Vm → List Nat → Vm × Bool
  | vm, [] => (vm, true)
  | vm, v :: vs =>
    let a := allocPage vm.frames
    if a.2 = 0 then (⟨vm.mem, a.1⟩, false)
    else
      let r := vmMapPage ⟨vm.mem, a.1⟩ pml4t a.2 v (pageFlagRw ||| pageFlagUser)
      if r.2 = false then (r.1, false) else growPages pml4t r.1 vs

def sysBrk (s : BrkState) (addr : Nat) : BrkState × Option Errno :=
  if addr < s.brk.base then (s, some .ENOMEM)
  else if add64 s.brk.base s.brk.max < addr then (s, some .ENOMEM)
  else if addr < s.brk.curr then
    let vm := shrinkPages s.pml4t addr s.vm (pages (alignUp addr pageSize) s.brk.curr)
    ({ s with vm := vm, brk := { s.brk with curr := alignUp addr pageSize } }, none)
  else
    let g := growPages s.pml4t s.vm (pages s.brk.curr (alignUp addr pageSize))
    if g.2 = false then ({ s with vm := g.1 }, some .ENOMEM)
    else ({ s with vm := g.1, brk := { s.brk with curr := alignUp addr pageSize } }, none)

/-! ### What a call has to do -/

def Brk.limit (b : Brk) : Nat := alignUp (b.base + b.max) pageSize

def Brk.Page (b : Brk) (v : Nat) : Prop := pageSize ∣ v ∧ b.base ≤ v ∧ v < b.limit

/-- The pages of the data segment up to the break are mapped on counted frames, and no page behind the break is. -/
structure BrkWf (s : BrkState) : Prop where
  space : Space s.vm s.pml4t
  base_aligned : pageSize ∣ s.brk.base
  curr_aligned : pageSize ∣ s.brk.curr
  base_le : s.brk.base ≤ s.brk.curr
  curr_le : s.brk.curr ≤ s.brk.limit
  bound : s.brk.base + s.brk.max ≤ 2 ^ 64 - pageSize
  mapped : ∀ v, pageSize ∣ v → s.brk.base ≤ v → v < s.brk.curr → ∃ a, MappedAt s.vm.mem s.pml4t v a ∧ a ≠ 0 ∧
    s.vm.frames.count (a / pageSize) ≠ 0 ∧ ¬IsTable s.vm.mem s.pml4t a
  unmapped : ∀ v, s.brk.Page v → s.brk.curr ≤ v → vmPhysAddr s.vm.mem s.pml4t v = 0

def BrkState.phys (s : BrkState) (v : Nat) : Nat := vmPhysAddr s.vm.mem s.pml4t v

/-- After a successful call: exactly the pages below the break are mapped, those that stay keep their frames and
bytes, every frame loses one reference for each removed page in it, and new pages read as zero. -/
structure BrkMoved (s s' : BrkState) (addr : Nat) : Prop where
  brk : s'.brk = { s.brk with curr := alignUp addr pageSize }
  mapped : ∀ v, s.brk.Page v → (s'.phys v ≠ 0 ↔ v < alignUp addr pageSize)
  kept : ∀ v, s.brk.Page v → v < s.brk.curr → v < alignUp addr pageSize →
    s'.phys v = s.phys v ∧ ∀ o < pageSize, s'.vm.mem (s.phys v + o) = s.vm.mem (s.phys v + o)
  released : ∀ i, s.vm.frames.count i ≠ 0 → s'.vm.frames.count i +
    {v | s.brk.Page v ∧ alignUp addr pageSize ≤ v ∧ v < s.brk.curr ∧ s.phys v / pageSize = i}.ncard =
    s.vm.frames.count i
  zero : ∀ v, s.brk.Page v → s.brk.curr ≤ v → v < alignUp addr pageSize → ∀ o < pageSize,
    s'.vm.mem (s'.phys v + o) = 0

/-- After a failed call nothing has changed. -/
structure BrkKept (s s' : BrkState) : Prop where
  brk : s'.brk = s.brk
  phys : ∀ v, s.brk.Page v → s'.phys v = s.phys v
  counts : s'.vm.frames.count = s.vm.frames.count

/-- What `sys_brk` is for. -/
def BrkLaw (s : BrkState) (addr : Nat) : Prop :=
  match sysBrk s addr with
  | (s', none) => BrkMoved s s' addr
  | (s', some _) => BrkKept s s'

/-- There is memory for every page and its tables, and the frames of the pages contain only zeros. -/
def Served (pml4t : Nat) : Vm → List Nat → Prop
  | _, [] => True
  | vm, v :: vs =>
    let a := allocPage vm.frames
    let r := vmMapPage ⟨vm.mem, a.1⟩ pml4t a.2 v (pageFlagRw ||| pageFlagUser)
    a.2 ≠ 0 ∧ (∀ o < pageSize, vm.mem (a.2 + o) = 0) ∧ r.2 = true ∧ Served pml4t r.1 vs

/-- An address in the segment shrinks it by no page or is the address of its last page, or it grows it onto frames of
zeros, or there is no memory for the first page. -/
def BrkFine (s : BrkState) (addr : Nat) : Prop :=
  s.brk.base ≤ addr → addr ≤ s.brk.base + s.brk.max →
    if addr < s.brk.curr then s.brk.curr ≤ alignUp addr pageSize ∨ s.brk.curr = addr + pageSize
    else (allocPage s.vm.frames).2 = 0 ∨ Served s.pml4t s.vm (pages s.brk.curr (alignUp addr pageSize))

/-! ### Growing -/

private theorem brkFlags : MapFlags (pageFlagRw ||| pageFlagUser) := ⟨by decide, by decide, by decide⟩

section

variable {r : Nat}

private theorem growPages_mapPages {vm : Vm} {vs : List Nat} (hok : (growPages r vm vs).2 = true) :
    mapPages r (pageFlagRw ||| pageFlagUser) false vm vs = ((growPages r vm vs).1, none) := by
  induction vs generalizing vm with
  | nil => rfl
  | cons v vs ih =>
    unfold growPages at hok ⊢
    unfold mapPages
    by_cases h0 : (allocPage vm.frames).2 = 0
    · simp only [h0, ↓reduceIte, Bool.false_eq_true] at hok
    · simp only [h0, ↓reduceIte, Bool.false_eq_true] at hok ⊢
      by_cases hs : (vmMapPage ⟨vm.mem, (allocPage vm.frames).1⟩ r (allocPage vm.frames).2 v
          (pageFlagRw ||| pageFlagUser)).2 = false
      · simp only [hs, ↓reduceIte, Bool.false_eq_true] at hok
      · simp only [hs] at hok ⊢
        exact ih hok

private theorem growPages_extends {vm : Vm} {vs : List Nat} (h : Space vm r) :
    Extends vm (growPages r vm vs).1 r := by
  induction vs generalizing vm with
  | nil => exact .refl h
  | cons v vs ih =>
    have halloc := h.alloc_extends
    unfold growPages
    by_cases h0 : (allocPage vm.frames).2 = 0
    · simp only [h0, ↓reduceIte]
      exact halloc
    simp only [h0, ↓reduceIte]
    obtain ⟨-, -, hlt, -⟩ := h.allocPage.resolve_left fun h1 => h0 h1.1
    have hmap := halloc.trans (vmMapPage_extends (v := v) halloc.space hlt brkFlags).1
    split
    · exact hmap
    · exact hmap.trans (ih hmap.space)

private theorem growPages_counts {vm : Vm} {v : Nat} {vs : List Nat} (h : Space vm r)
    (h0 : (allocPage vm.frames).2 ≠ 0) : (growPages r vm (v :: vs)).1.frames.count ≠ vm.frames.count := by
  obtain ⟨-, -, hlt, hz, hc⟩ := h.allocPage.resolve_left fun h1 => h0 h1.1
  have halloc := h.alloc_extends
  have hmap := (vmMapPage_extends (v := v) halloc.space hlt brkFlags).1
  have hle : (allocPage vm.frames).1.count ((allocPage vm.frames).2 / pageSize) ≤
      (growPages r vm (v :: vs)).1.frames.count ((allocPage vm.frames).2 / pageSize) := by
    unfold growPages
    simp only [h0, ↓reduceIte]
    split
    · exact hmap.le _
    · exact (hmap.trans (growPages_extends hmap.space)).le _
  intro he
  rw [he, hz, hc, Function.update_self] at hle
  omega

private theorem growPages_added {vm : Vm} {vs : List Nat} {ps : List (Nat × Nat)} {ℓ : Nat → Option (Nat × Nat)}
    {c : Nat → Nat}
    (h : Added vm r ps ℓ c) (hvs : PagesApart vs) (hnew : ∀ v ∈ vs, ∀ p ∈ ps, v / pageSize ≠ p.1 / pageSize)
    (hok : (growPages r vm vs).2 = true) :
    ∃ qs, qs.map Prod.fst = vs ∧ Added (growPages r vm vs).1 r (qs ++ ps) ℓ c := by
  obtain ⟨qs, h1, ⟨-, h2⟩ | ⟨v, rest, -, h2⟩⟩ := mapPages_added brkFlags false h hvs hnew
  · rw [growPages_mapPages hok] at h1
    exact ⟨qs, h2, h1⟩
  · rw [growPages_mapPages hok] at h2
    cases h2

private theorem served_iff {vm : Vm} {vs : List Nat} (h : Space vm r) (hvs : PagesApart vs)
    (hal : ∀ v ∈ vs, pageSize ∣ v) :
    Served r vm vs ↔ (growPages r vm vs).2 = true ∧ ∀ v ∈ vs, ∀ o < pageSize,
      (growPages r vm vs).1.mem (vmPhysAddr (growPages r vm vs).1.mem r v + o) = 0 := by
  induction vs generalizing vm with
  | nil => exact ⟨fun _ => ⟨rfl, by simp⟩, fun _ => trivial⟩
  | cons v vs ih =>
    obtain ⟨hapart, hvs⟩ := List.pairwise_cons.1 hvs
    by_cases h0 : (allocPage vm.frames).2 = 0
    · unfold Served growPages
      simp [h0]
    have hadd := (Added.start h).map (v := v) h0 (fun _ _ => rfl) brkFlags rfl
    obtain ⟨hs, hsdef⟩ : ∃ s, vmMapPage ⟨vm.mem, (allocPage vm.frames).1⟩ r (allocPage vm.frames).2 v
      (pageFlagRw ||| pageFlagUser) = s := ⟨_, rfl⟩
    have hserved : Served r vm (v :: vs) ↔ (∀ o < pageSize, vm.mem ((allocPage vm.frames).2 + o) = 0) ∧ hs.2 = true ∧
        Served r hs.1 vs := by
      rw [← hsdef]
      exact ⟨fun hx => hx.2, fun hx => ⟨h0, hx⟩⟩
    have hgrow : growPages r vm (v :: vs) = if hs.2 = false then (hs.1, false) else growPages r hs.1 vs := by
      rw [← hsdef, growPages]
      simp only [h0, ↓reduceIte]
    rw [hsdef] at hadd
    rw [hserved, hgrow]
    by_cases hfail : hs.2 = false
    · simp [hfail]
    have hok := Bool.eq_true_of_not_eq_false hfail
    have hone := hadd.2 hok (by simp)
    rw [if_neg hfail, ih hone.holds.space hvs fun w hw => hal w (List.mem_cons_of_mem v hw)]
    simp only [hok, true_and, List.forall_mem_cons]
    -- the rest of the loop keeps the page and its bytes
    have hpage : (growPages r hs.1 vs).2 = true → ∀ o < pageSize, (growPages r hs.1 vs).1.mem
        (vmPhysAddr (growPages r hs.1 vs).1.mem r v + o) = vm.mem ((allocPage vm.frames).2 + o) := by
      intro hrest o ho
      obtain ⟨qs, -, hall⟩ := growPages_added hone hvs (fun w hw p hp => by
        obtain rfl := List.mem_singleton.1 hp
        exact Ne.symm (hapart w hw)) hrest
      have hat := hall.maps.here (v, (allocPage vm.frames).2) (by simp)
      have htab := (hall.holds.frame (allocPage vm.frames).2 (by simp)).2.2.2
      obtain ⟨-, -, hlt, -⟩ := h.allocPage.resolve_left fun h1 => h0 h1.1
      have hext := (vmMapPage_extends (v := v) h.alloc_extends.space hlt brkFlags).1
      rw [hsdef] at hext
      rw [hat.phys, Nat.mod_eq_zero_of_dvd (hal v List.mem_cons_self), Nat.add_zero]
      exact (h.alloc_extends.trans (hext.trans (growPages_extends hone.holds.space))).mem _ hat.aligned htab o ho
    constructor
    · rintro ⟨h1, h2, h3⟩
      exact ⟨h2, fun o ho => (hpage h2 o ho).trans (h1 o ho), h3⟩
    · rintro ⟨h1, h2, h3⟩
      exact ⟨fun o ho => (hpage h1 o ho).symm.trans (h2 o ho), h1, h3⟩

end

private theorem BrkState.phys_leaf (s : BrkState) (v : Nat) :
    s.phys v = (leaf s.vm.mem s.pml4t v).elim 0 (pageAddr v) := vmPhysAddr_leaf s.vm.mem s.pml4t v

private theorem BrkState.phys_page {s : BrkState} {v a : Nat} (ha : MappedAt s.vm.mem s.pml4t v a)
    (hv : pageSize ∣ v) :
    s.phys v = a := by
  rw [BrkState.phys, ha.phys, Nat.mod_eq_zero_of_dvd hv, Nat.add_zero]

section

variable {s : BrkState} {addr : Nat} (h : BrkWf s) (hlo : s.brk.base ≤ addr) (hhi : addr ≤ s.brk.base + s.brk.max)
include h hlo hhi

omit hlo hhi in
theorem BrkWf.add64 : add64 s.brk.base s.brk.max = s.brk.base + s.brk.max := by
  have hbound := h.bound
  refine add64_of_lt ?_
  simp only [pageSize] at hbound
  omega

omit hlo hhi in
private theorem BrkWf.phys_ne {v : Nat} (hv : s.brk.Page v) (hc : v < s.brk.curr) : s.phys v ≠ 0 := by
  obtain ⟨a, ha, h0, -⟩ := h.mapped v hv.1 hv.2.1 hc
  rw [BrkState.phys_page ha hv.1]
  exact h0

omit hlo in
theorem BrkWf.target : pageSize ∣ alignUp addr pageSize ∧ addr ≤ alignUp addr pageSize ∧
    (∀ v, pageSize ∣ v → (v < alignUp addr pageSize ↔ v < addr)) ∧ alignUp addr pageSize ≤ s.brk.limit := by
  have hbound := h.bound
  have hx : addr ≤ 2 ^ 64 - pageSize := by omega
  obtain ⟨h1, h2, -⟩ := alignUp_page_spec hx
  obtain ⟨h3, h4, -⟩ := alignUp_page_spec hbound
  refine ⟨h1, h2, fun v hv => lt_alignUp_page hx hv, ?_⟩
  by_contra hgt
  have h5 := (lt_alignUp_page hx h3).1 (Nat.lt_of_not_le hgt)
  omega

omit hlo in
private theorem grow_moved {s' : BrkState} (hge : s.brk.curr ≤ addr)
    (hs : Served s.pml4t s.vm (pages s.brk.curr (alignUp addr pageSize)))
    (hvm : (growPages s.pml4t s.vm (pages s.brk.curr (alignUp addr pageSize))).1 = s'.vm)
    (hroot : s.pml4t = s'.pml4t) (hbrk : s'.brk = { s.brk with curr := alignUp addr pageSize }) :
    BrkMoved s s' addr := by
  obtain ⟨-, hle, hlt, -⟩ := h.target hhi
  have hmem : ∀ v, v ∈ pages s.brk.curr (alignUp addr pageSize) ↔
      pageSize ∣ v ∧ s.brk.curr ≤ v ∧ v < alignUp addr pageSize := fun v => mem_pages_aligned h.curr_aligned
  have hapart := @pages_apart s.brk.curr (alignUp addr pageSize) h.curr_aligned
  have hext := @growPages_extends s.pml4t s.vm (pages s.brk.curr (alignUp addr pageSize)) h.space
  obtain ⟨hok, hzero⟩ := (served_iff h.space hapart fun v hv => ((hmem v).1 hv).1).1 hs
  obtain ⟨qs, hqs, hadd⟩ := growPages_added (Added.start h.space) hapart (by simp) hok
  rw [List.append_nil] at hadd
  rw [hvm] at hext hzero hadd
  have hold : ∀ v, pageSize ∣ v → ¬(s.brk.curr ≤ v ∧ v < alignUp addr pageSize) → s'.phys v = s.phys v := by
    intro v hv hout
    rw [BrkState.phys_leaf, BrkState.phys_leaf, ← hroot, hadd.maps.other v]
    intro p hp he
    obtain ⟨h1, h2⟩ := (hmem p.1).1 (hqs ▸ List.mem_map_of_mem hp)
    exact hout (page_div_inj hv h1 he ▸ h2)
  have hphys : ∀ v, s'.phys v = vmPhysAddr s'.vm.mem s.pml4t v := fun v => by rw [hroot, BrkState.phys]
  refine ⟨hbrk, fun v hv => ?_, fun v hv hc ht => ⟨hold v hv.1 (by omega), fun o ho => ?_⟩, fun i hi => ?_,
    fun v hv hc ht o ho => ?_⟩
  · by_cases hc : s.brk.curr ≤ v
    · by_cases ht : v < alignUp addr pageSize
      · have hv' : v ∈ qs.map Prod.fst := hqs ▸ (hmem v).2 ⟨hv.1, hc, ht⟩
        obtain ⟨p, hp, rfl⟩ := List.mem_map.1 hv'
        have hne := (hadd.holds.frame p.2 (List.mem_map_of_mem hp)).1
        have haddr := (hadd.maps.here p hp).phys
        refine iff_of_true ?_ ht
        rw [hphys]
        omega
      · refine iff_of_false ?_ ht
        rw [not_not, hold v hv.1 (by omega)]
        exact h.unmapped v hv hc
    · refine iff_of_true ?_ (by omega)
      rw [hold v hv.1 (by omega)]
      exact h.phys_ne hv (by omega)
  · obtain ⟨a, ha, -, hcount, htab⟩ := h.mapped v hv.1 hv.2.1 hc
    rw [BrkState.phys_page ha hv.1]
    refine hext.mem a ha.aligned (fun hg => ?_) o ho
    rcases hext.fresh a hg with h1 | h1
    · exact htab h1
    · exact hcount h1
  · have hempty : {v | s.brk.Page v ∧ alignUp addr pageSize ≤ v ∧ v < s.brk.curr ∧ s.phys v / pageSize = i} = ∅ :=
      Set.eq_empty_of_forall_notMem fun v hv => by
        obtain ⟨-, h1, h2, -⟩ := hv
        omega
    rw [hempty, Set.ncard_empty, Nat.add_zero]
    rcases hadd.holds.counts i with h1 | ⟨h1, -⟩ | h1
    · exact h1
    · exact absurd h1 hi
    · have h2 := (hadd.holds.one _ h1).2
      rw [page_mul_div] at h2
      exact absurd h2 hi
  · rw [hphys]
    exact hzero v ((hmem v).2 ⟨hv.1, hc, ht⟩) o ho

omit hlo in
private theorem grow_wf {s' : BrkState} (hge : s.brk.curr ≤ addr)
    (hok : (growPages s.pml4t s.vm (pages s.brk.curr (alignUp addr pageSize))).2 = true)
    (hvm : (growPages s.pml4t s.vm (pages s.brk.curr (alignUp addr pageSize))).1 = s'.vm)
    (hroot : s.pml4t = s'.pml4t) (hbrk : s'.brk = { s.brk with curr := alignUp addr pageSize }) : BrkWf s' := by
  obtain ⟨htd, hle, -, hlimit⟩ := h.target hhi
  have hmem : ∀ v, v ∈ pages s.brk.curr (alignUp addr pageSize) ↔
      pageSize ∣ v ∧ s.brk.curr ≤ v ∧ v < alignUp addr pageSize := fun v => mem_pages_aligned h.curr_aligned
  have hbase := h.base_le
  have hmapped := h.mapped
  have hext := @growPages_extends s.pml4t s.vm (pages s.brk.curr (alignUp addr pageSize)) h.space
  obtain ⟨qs, hqs, hadd⟩ := growPages_added (Added.start h.space) (pages_apart h.curr_aligned) (by simp) hok
  rw [List.append_nil, hvm, hroot] at hadd
  rw [hvm, hroot] at hext
  rw [hroot] at hmapped
  have hold : ∀ v, pageSize ∣ v → ¬(s.brk.curr ≤ v ∧ v < alignUp addr pageSize) →
      leaf s'.vm.mem s'.pml4t v = leaf s.vm.mem s'.pml4t v := by
    intro v hv hout
    refine hadd.maps.other v fun p hp he => ?_
    obtain ⟨h1, h2⟩ := (hmem p.1).1 (hqs ▸ List.mem_map_of_mem hp)
    exact hout (page_div_inj hv h1 he ▸ h2)
  have hcurr : s'.brk.curr = alignUp addr pageSize := by rw [hbrk]
  have hbase' : s'.brk.base = s.brk.base := by rw [hbrk]
  have hmax : s'.brk.max = s.brk.max := by rw [hbrk]
  have hlim : s'.brk.limit = s.brk.limit := by rw [Brk.limit, Brk.limit, hbase', hmax]
  refine ⟨hext.space, ?_, ?_, ?_, ?_, ?_, fun v hv h1 h2 => ?_, fun v hv h1 => ?_⟩
  · rw [hbase']
    exact h.base_aligned
  · rw [hcurr]
    exact htd
  · rw [hbase', hcurr]
    omega
  · rw [hcurr, hlim]
    exact hlimit
  · rw [hbase', hmax]
    exact h.bound
  · rw [hbase'] at h1
    rw [hcurr] at h2
    by_cases hc : s.brk.curr ≤ v
    · have hv' : v ∈ qs.map Prod.fst := hqs ▸ (hmem v).2 ⟨hv, hc, h2⟩
      obtain ⟨p, hp, rfl⟩ := List.mem_map.1 hv'
      obtain ⟨h3, -, -, h4⟩ := hadd.holds.frame p.2 (List.mem_map_of_mem hp)
      have h5 := (hadd.holds.one p.2 (List.mem_map_of_mem hp)).1
      exact ⟨p.2, hadd.maps.here p hp, h3, by omega, h4⟩
    · obtain ⟨a, ⟨e, he, ha⟩, h0, hcount, htab⟩ := hmapped v hv h1 (by omega)
      have hmono := hext.le (a / pageSize)
      refine ⟨a, ⟨e, (hold v hv (by omega)).trans he, ha⟩, h0, by omega, fun hg => ?_⟩
      rcases hext.fresh a hg with h3 | h3
      · exact htab h3
      · exact hcount h3
  · have hv' : s.brk.Page v := by
      unfold Brk.Page at hv ⊢
      rwa [hlim, hbase'] at hv
    rw [hcurr] at h1
    rw [vmPhysAddr_leaf, hold v hv'.1 (by omega), ← hroot, ← vmPhysAddr_leaf]
    exact h.unmapped v hv' (by omega)

/-- A call that grows the segment does so if and only if there is memory for all its pages, on frames of zeros, or
none for the first one. -/
private theorem grow_law (hge : s.brk.curr ≤ addr) : BrkLaw s addr ↔ (allocPage s.vm.frames).2 = 0 ∨
    Served s.pml4t s.vm (pages s.brk.curr (alignUp addr pageSize)) := by
  have hbound := h.bound
  have hapart := @pages_apart s.brk.curr (alignUp addr pageSize) h.curr_aligned
  have hal := @pages_aligned s.brk.curr (alignUp addr pageSize) h.curr_aligned
  have hadd := h.add64
  have hserved := served_iff h.space hapart hal
  have hmoved := @grow_moved s addr h hhi
  obtain ⟨g, hg⟩ : ∃ g, growPages s.pml4t s.vm (pages s.brk.curr (alignUp addr pageSize)) = g := ⟨_, rfl⟩
  rw [hg] at hserved
  have hcall : sysBrk s addr = if g.2 = false then ({ s with vm := g.1 }, some .ENOMEM)
      else ({ s with vm := g.1, brk := { s.brk with curr := alignUp addr pageSize } }, none) := by
    unfold sysBrk
    rw [if_neg (by omega), if_neg (by omega), if_neg (by omega), hg]
  by_cases hok : g.2 = false
  · -- the call fails: only at the first page this leaves no trace
    have hno : ¬Served s.pml4t s.vm (pages s.brk.curr (alignUp addr pageSize)) := fun hs => by
      have h1 := (hserved.1 hs).1
      simp [hok] at h1
    rw [BrkLaw, hcall, if_pos hok, or_iff_left hno]
    cases hvs : pages s.brk.curr (alignUp addr pageSize) with
    | nil =>
      rw [hvs] at hg
      rw [← hg] at hok
      cases hok
    | cons v vs =>
      rw [hvs] at hg
      constructor
      · intro hk
        by_contra h0
        have hcounts := @growPages_counts s.pml4t s.vm v vs h.space h0
        rw [hg] at hcounts
        exact hcounts hk.counts
      · intro h0
        have hres : g = (⟨s.vm.mem, (allocPage s.vm.frames).1⟩, false) := by
          rw [← hg, growPages]
          simp only [h0, ↓reduceIte]
        rw [hres]
        exact ⟨rfl, fun _ _ => rfl, (h.space.allocPage.resolve_right fun h1 => h1.1 h0).2⟩
  · obtain ⟨s', hs'⟩ :
      ∃ s', ({ s with vm := g.1, brk := { s.brk with curr := alignUp addr pageSize } } : BrkState) = s' :=
      ⟨_, rfl⟩
    have hvm : g.1 = s'.vm := by rw [← hs']
    have hroot : s.pml4t = s'.pml4t := by rw [← hs']
    have hbrk : s'.brk = { s.brk with curr := alignUp addr pageSize } := by rw [← hs']
    rw [BrkLaw, hcall, if_neg hok, hs']
    have hmoved' := fun hs => @hmoved s' hge hs (by rw [hg, hvm]) hroot hbrk
    constructor
    · intro hm
      refine Or.inr (hserved.2 ⟨Bool.eq_true_of_not_eq_false hok, fun v hv o ho => ?_⟩)
      obtain ⟨h1, h2, h3⟩ := (mem_pages_aligned h.curr_aligned).1 hv
      have hlimit := (h.target hhi).2.2.2
      have hbase := h.base_le
      have hzero := hm.zero v ⟨h1, by omega, by omega⟩ h2 h3 o ho
      rwa [BrkState.phys, ← hvm, ← hroot] at hzero
    · rintro (h0 | hs)
      · -- without memory there is no page to add
        cases hvs : pages s.brk.curr (alignUp addr pageSize) with
        | nil =>
          rw [hvs] at hmoved'
          exact hmoved' trivial
        | cons v vs =>
          rw [hvs, growPages] at hg
          simp only [h0, ↓reduceIte] at hg
          rw [← hg] at hok
          simp at hok
      · exact hmoved' hs

end

/-! ### Shrinking -/

section

variable {r addr : Nat}

/-- Once the page of the argument is not mapped, the loop changes no mapping. -/
private theorem shrinkPages_unmapped {vm : Vm} {vs : List Nat} (h : Space vm r) (hno : leaf vm.mem r addr = none)
    (w : Nat) :
    leaf (shrinkPages r addr vm vs).mem r w = leaf vm.mem r w := by
  have hphys : vmPhysAddr vm.mem r addr = 0 := by
    rw [vmPhysAddr_leaf, hno]
    rfl
  induction vs generalizing vm with
  | nil => rfl
  | cons v vs ih =>
    have hunmap : ∀ w, leaf (vmUnmapPage vm.mem r addr).1 r w = leaf vm.mem r w := by
      intro w
      by_cases hv : nonCanonical addr
      · have hsame : vmUnmapPage vm.mem r addr = (vm.mem, false) := if_pos hv
        rw [hsame]
      · rw [vmUnmapPage_leaf h.tree hv]
        split
        · rename_i hw
          have hspan : pageSpan vm.mem r addr = pageSize := by
            unfold leaf at hno
            rw [if_neg hv, Option.filter_eq_none_iff] at hno
            unfold pageSpan
            split
            · rename_i n e hfin
              rw [if_neg (hno _ hfin)]
            · rfl
          rw [hspan] at hw
          rw [leaf_congr hw, hno]
        · rfl
    have hext := vmUnmapPage_extends (v := addr) h
    have hno' : leaf (vmUnmapPage vm.mem r addr).1 r addr = none := (hunmap addr).trans hno
    unfold shrinkPages
    simp only [hphys, ne_eq, not_true_eq_false, ↓reduceIte]
    have hrest :=
      @ih ⟨(vmUnmapPage vm.mem r addr).1, vm.frames⟩ hext.space hno' ((vmPhysAddr_leaf ..).trans (by rw [hno']; rfl))
    exact hrest.trans (hunmap w)

/-- One round of the loop unmaps the page of the argument and releases its frame. -/
private theorem shrinkPages_round {vm : Vm} {a : Nat} (h : Space vm r) (hat : MappedAt vm.mem r addr a) (h0 : a ≠ 0)
    (ht : ¬IsTable vm.mem r a) (v : Nat) (vs : List Nat) : ∃ vm' : Vm,
      shrinkPages r addr vm (v :: vs) = shrinkPages r addr vm' vs ∧ Space vm' r ∧
      (∀ g, pageSize ∣ g → ¬IsTable vm.mem r g → ∀ o < pageSize, vm'.mem (g + o) = vm.mem (g + o)) ∧
      (∀ w, leaf vm'.mem r w = if w / pageSize = addr / pageSize then none else leaf vm.mem r w) ∧
      vm'.frames.count = Function.update vm.frames.count (a / pageSize) (vm.frames.count (a / pageSize) - 1) := by
  have hphys := hat.phys
  have hne : vmPhysAddr vm.mem r addr ≠ 0 := by omega
  have hdown : alignDown (vmPhysAddr vm.mem r addr) pageSize = a := by
    rw [hphys, ← page_or_offset addr hat.aligned]
    refine alignDown_or_flags hat.lt hat.aligned ?_
    rw [and_page]
    exact Nat.mod_lt _ (by decide)
  obtain ⟨hwf, hc⟩ := freePage_spec h.wf hne hdown hat.aligned
  obtain ⟨hspace, hc'⟩ := h.freePage h0 hat.aligned hat.lt ht
  have hspace' : Space ⟨vm.mem, freePage vm.frames (vmPhysAddr vm.mem r addr)⟩ r :=
    ⟨h.tree, hwf, fun g hg => by
      rw [hc, ← hc']
      exact hspace.counted g hg, by
      rw [hc, ← hc']
      exact hspace.reserved⟩
  have hext := vmUnmapPage_extends (v := addr) hspace'
  refine ⟨⟨(vmUnmapPage vm.mem r addr).1, freePage vm.frames (vmPhysAddr vm.mem r addr)⟩, ?_, hext.space,
    fun g hd hg => hext.mem g hd fun hg' => hg (vmUnmapPage_isTable h.tree hg'), hat.unmap h.tree, hc⟩
  rw [shrinkPages]
  simp only [ne_eq, hne, not_false_eq_true, ↓reduceIte]

end

section

variable {s : BrkState} {addr : Nat} (h : BrkWf s) (hlo : s.brk.base ≤ addr) (hhi : addr ≤ s.brk.base + s.brk.max)
  (hlt : addr < s.brk.curr)
include h hlo hhi hlt

omit hhi in
private theorem BrkWf.argument : ∃ v a, pageSize ∣ v ∧ v ≤ addr ∧ v / pageSize = addr / pageSize ∧ s.brk.base ≤ v ∧
    MappedAt s.vm.mem s.pml4t v a ∧ MappedAt s.vm.mem s.pml4t addr a ∧ a ≠ 0 ∧
    s.vm.frames.count (a / pageSize) ≠ 0 ∧ ¬IsTable s.vm.mem s.pml4t a := by
  have hbase : s.brk.base ≤ pageSize * (addr / pageSize) := by
    obtain ⟨k, hk⟩ := h.base_aligned
    rw [hk] at hlo ⊢
    exact Nat.mul_le_mul_left _ ((Nat.le_div_iff_mul_le (by decide)).2 (by rw [Nat.mul_comm]; exact hlo))
  have hle : pageSize * (addr / pageSize) ≤ addr := Nat.mul_div_le addr pageSize
  obtain ⟨a, ⟨e, he, ha⟩, h0, hc, ht⟩ := h.mapped _ (Nat.dvd_mul_right _ _) hbase (by omega)
  have hpage := page_mul_div (addr / pageSize)
  exact ⟨_, a, Nat.dvd_mul_right _ _, hle, hpage, hbase, ⟨e, he, ha⟩, ⟨e, (leaf_congr hpage).symm.trans he, ha⟩, h0,
    hc, ht⟩

omit hlo in
private theorem shrink_none {s' : BrkState} (hnone : s.brk.curr ≤ alignUp addr pageSize) (hvm : s'.vm = s.vm)
    (hroot : s'.pml4t = s.pml4t) (hbrk : s'.brk = { s.brk with curr := alignUp addr pageSize }) :
    BrkMoved s s' addr := by
  obtain ⟨-, -, hlt', -⟩ := h.target hhi
  have hcurr : alignUp addr pageSize = s.brk.curr := by
    by_contra hne
    have h1 := (hlt' s.brk.curr h.curr_aligned).1 (by omega)
    omega
  have hphys : ∀ v, s'.phys v = s.phys v := fun v => by rw [BrkState.phys, BrkState.phys, hvm, hroot]
  refine ⟨hbrk, fun v hv => ?_, fun v _ _ _ => ⟨hphys v, fun o _ => by rw [hvm]⟩, fun i hi => ?_,
    fun v hv h1 h2 => by omega⟩
  · rw [hphys]
    by_cases hc : v < s.brk.curr
    · exact iff_of_true (h.phys_ne hv hc) (by omega)
    · refine iff_of_false ?_ (by omega)
      rw [not_not]
      exact h.unmapped v hv (Nat.le_of_not_lt hc)
  · have hempty : {v | s.brk.Page v ∧ alignUp addr pageSize ≤ v ∧ v < s.brk.curr ∧ s.phys v / pageSize = i} = ∅ :=
      Set.eq_empty_of_forall_notMem fun v hv => by
        obtain ⟨-, h1, h2, -⟩ := hv
        omega
    rw [hempty, Set.ncard_empty, hvm, Nat.add_zero]

private theorem shrink_one {s' : BrkState} (hone : s.brk.curr = addr + pageSize)
    (hvm : s'.vm = shrinkPages s.pml4t addr s.vm [addr]) (hroot : s'.pml4t = s.pml4t)
    (hbrk : s'.brk = { s.brk with curr := alignUp addr pageSize }) : BrkMoved s s' addr := by
  have hd : pageSize ∣ addr := by
    have hcd := h.curr_aligned
    rw [hone] at hcd
    exact (Nat.dvd_add_left (Nat.dvd_refl _)).1 hcd
  have hup : alignUp addr pageSize = addr := by
    obtain ⟨-, h1, h2, -⟩ := h.target hhi
    by_contra hne
    have h3 := (h2 addr hd).1 (by omega)
    omega
  obtain ⟨a, hat, h0, hcount, ht⟩ := h.mapped addr hd hlo hlt
  have haddr := BrkState.phys_page hat hd
  obtain ⟨vm', hround, -, hmem, hleaf, hc⟩ := shrinkPages_round h.space hat h0 ht addr []
  rw [hround, shrinkPages] at hvm
  have hphys : ∀ v, pageSize ∣ v → s'.phys v = if v = addr then 0 else s.phys v := by
    intro v hv
    rw [BrkState.phys_leaf, hroot, hvm, hleaf]
    by_cases hva : v = addr
    · rw [if_pos hva, if_pos (by rw [hva])]
      rfl
    · rw [if_neg hva, if_neg fun he => hva (page_div_inj hv hd he), BrkState.phys_leaf]
  rw [hup] at hbrk
  refine ⟨by rw [hup]; exact hbrk, fun v hv => ?_, fun v hv h1 h2 => ⟨?_, fun o ho => ?_⟩, fun i hi => ?_,
    fun v hv h1 h2 => by omega⟩
  · -- only the page at `addr` has no translation any more
    rw [hphys v hv.1, hup]
    by_cases hva : v = addr
    · rw [if_pos hva]
      exact iff_of_false (by simp) (by omega)
    rw [if_neg hva]
    by_cases hc' : v < s.brk.curr
    · refine iff_of_true (h.phys_ne hv hc') ?_
      obtain ⟨k, hk⟩ := Nat.dvd_sub h.curr_aligned hv.1
      simp only [pageSize] at hk hone
      omega
    · refine iff_of_false ?_ (by omega)
      rw [not_not]
      exact h.unmapped v hv (Nat.le_of_not_lt hc')
  · -- the other pages keep their frames and their bytes
    rw [hphys v hv.1, if_neg (by omega)]
  · obtain ⟨b, hb, -, -, hbt⟩ := h.mapped v hv.1 hv.2.1 h1
    rw [BrkState.phys_page hb hv.1, hvm]
    exact hmem b hb.aligned hbt o ho
  · -- the frame of the page loses one reference
    rw [hvm, hc, hup]
    by_cases hia : i = a / pageSize
    · have hset : {v | s.brk.Page v ∧ addr ≤ v ∧ v < s.brk.curr ∧ s.phys v / pageSize = i} = {addr} := by
        ext v
        constructor
        · rintro ⟨hv, h1, h2, -⟩
          obtain ⟨k, hk⟩ := Nat.dvd_sub hv.1 hd
          simp only [pageSize] at hk hone
          exact Set.mem_singleton_iff.2 (by omega)
        · rintro rfl
          exact ⟨⟨hd, hlo, Nat.lt_of_lt_of_le hlt h.curr_le⟩, Nat.le_refl _, hlt, by rw [haddr, hia]⟩
      rw [hset, Set.ncard_singleton, hia, Function.update_self]
      omega
    · have hempty : {v | s.brk.Page v ∧ addr ≤ v ∧ v < s.brk.curr ∧ s.phys v / pageSize = i} = ∅ :=
        Set.eq_empty_of_forall_notMem fun v hv => by
          obtain ⟨hv, h1, h2, h3⟩ := hv
          have hva : v = addr := by
            obtain ⟨k, hk⟩ := Nat.dvd_sub hv.1 hd
            simp only [pageSize] at hk hone
            omega
          rw [hva, haddr] at h3
          exact hia h3.symm
      rw [hempty, Set.ncard_empty, Function.update_of_ne hia, Nat.add_zero]

/-- A call that shrinks the segment does so if and only if there is no page to remove or only the one of the
argument. -/
private theorem shrink_law : BrkLaw s addr ↔ s.brk.curr ≤ alignUp addr pageSize ∨ s.brk.curr = addr + pageSize := by
  have hadd := h.add64
  obtain ⟨htd, hle, hlt', -⟩ := h.target hhi
  obtain ⟨s', hs'⟩ : ∃ s', ({ s with
      vm := shrinkPages s.pml4t addr s.vm (pages (alignUp addr pageSize) s.brk.curr)
      brk := { s.brk with curr := alignUp addr pageSize } } : BrkState) = s' := ⟨_, rfl⟩
  have hvm : s'.vm = shrinkPages s.pml4t addr s.vm (pages (alignUp addr pageSize) s.brk.curr) := by rw [← hs']
  have hroot : s'.pml4t = s.pml4t := by rw [← hs']
  have hbrk : s'.brk = { s.brk with curr := alignUp addr pageSize } := by rw [← hs']
  have hlaw : BrkLaw s addr ↔ BrkMoved s s' addr := by
    rw [← hs']
    unfold BrkLaw sysBrk
    rw [if_neg (by omega), if_neg (by omega), if_pos hlt]
  rw [hlaw]
  by_cases hnone : s.brk.curr ≤ alignUp addr pageSize
  · have hnil : pages (alignUp addr pageSize) s.brk.curr = [] := by
      unfold pages
      rw [if_neg (by omega)]
      rfl
    rw [hnil] at hvm
    exact iff_of_true (shrink_none h hhi hlt hnone hvm hroot hbrk) (Or.inl hnone)
  rw [or_iff_right hnone]
  obtain ⟨vs, hvs, hrest⟩ : ∃ vs, pages (alignUp addr pageSize) s.brk.curr = alignUp addr pageSize :: vs ∧
      (s.brk.curr ≤ alignUp addr pageSize + pageSize → vs = []) := by
    refine ⟨_, by rw [pages, if_pos (by omega), List.range'_succ], fun hone => ?_⟩
    rw [Nat.div_eq_of_lt (by omega)]
    rfl
  constructor
  · intro hm
    obtain ⟨v0, a, hv0, hle0, hpage, hbase, -, hat, h0, hcount, ht⟩ := h.argument hlo hlt
    obtain ⟨vm', hround, hspace, -, hleaf, hc⟩ := shrinkPages_round h.space hat h0 ht (alignUp addr pageSize) vs
    have hfinal : ∀ w, leaf s'.vm.mem s'.pml4t w =
        if w / pageSize = addr / pageSize then none else leaf s.vm.mem s.pml4t w := by
      intro w
      rw [hvm, hroot, hvs, hround, shrinkPages_unmapped hspace (by rw [hleaf, if_pos rfl]), hleaf]
    have hlimit := h.curr_le
    -- the page of the argument is not mapped any more, so that it has to be the first one to remove
    have hphys0 : s'.phys v0 = 0 := by
      rw [BrkState.phys_leaf, hfinal, if_pos hpage]
      rfl
    have h1 : ¬v0 < alignUp addr pageSize := fun h2 => (hm.mapped v0 ⟨hv0, hbase, by omega⟩).2 h2 hphys0
    have h2 := (hlt' v0 hv0).not.1 h1
    obtain rfl : v0 = addr := by omega
    by_contra hmore
    -- and the page behind it is still mapped, so that it has to be the last one
    obtain ⟨k, hk⟩ := Nat.dvd_sub h.curr_aligned hv0
    have hnext : v0 + pageSize < s.brk.curr := by
      simp only [pageSize] at hk hmore ⊢
      omega
    have hd : pageSize ∣ v0 + pageSize := Nat.dvd_add hv0 (Nat.dvd_refl _)
    have hne : ¬(v0 + pageSize) / pageSize = v0 / pageSize := fun he => by
      have h4 := page_div_inj hd hv0 he
      simp only [pageSize] at h4
      omega
    have hpage' : s.brk.Page (v0 + pageSize) := ⟨hd, by omega, by omega⟩
    have hphys : s'.phys (v0 + pageSize) = s.phys (v0 + pageSize) := by
      rw [BrkState.phys_leaf, hfinal, if_neg hne, BrkState.phys_leaf]
    have h4 := (hm.mapped _ hpage').1 (by rw [hphys]; exact h.phys_ne hpage' hnext)
    have h5 := (hlt' _ hd).1 h4
    omega
  · intro hone
    have hd : pageSize ∣ addr := by
      have hcd := h.curr_aligned
      rw [hone] at hcd
      exact (Nat.dvd_add_left (Nat.dvd_refl _)).1 hcd
    have hup : alignUp addr pageSize = addr := by
      by_contra hne
      have h3 := (hlt' addr hd).1 (by omega)
      omega
    refine shrink_one h hlo hhi hlt hone ?_ hroot hbrk
    rw [hvm, hvs, hrest (by rw [hup, hone]), hup]

end

/-- A call of `sys_brk` does what it is for if and only if it shrinks the segment by no page or by the page of its
argument, or grows it onto frames of zeros, or finds no memory for the first page. -/
theorem brk_law_iff {s : BrkState} {addr : Nat} (h : BrkWf s) : BrkLaw s addr ↔ BrkFine s addr := by
  have hadd := h.add64
  unfold BrkFine
  by_cases hlo : s.brk.base ≤ addr
  · by_cases hhi : addr ≤ s.brk.base + s.brk.max
    · simp only [hlo, hhi, forall_const]
      split
      · rename_i hlt
        exact shrink_law h hlo hhi hlt
      · rename_i hge
        exact grow_law h hlo hhi (Nat.le_of_not_lt hge)
    · refine iff_of_true ?_ fun _ h1 => absurd h1 hhi
      unfold BrkLaw sysBrk
      rw [if_neg (by omega), if_pos (by omega)]
      exact ⟨rfl, fun _ _ => rfl, rfl⟩
  · refine iff_of_true ?_ fun h1 => absurd h1 hlo
    unfold BrkLaw sysBrk
    rw [if_pos (by omega)]
    exact ⟨rfl, fun _ _ => rfl, rfl⟩

def emptyBrk : BrkState := ⟨emptyVm, 0x1000, ⟨0x10000, 0x10000, 0x3000⟩⟩

private theorem emptyBrk_wf : BrkWf emptyBrk := by
  refine ⟨emptyVm_space, by decide, by decide, by decide, by decide, by decide, fun v _ h1 h2 => ?_, fun v _ _ => ?_⟩
  · simp only [emptyBrk] at h1 h2
    omega
  · exact (vmPhysAddr_leaf ..).trans
      (by rw [show leaf emptyBrk.vm.mem emptyBrk.pml4t v = none from emptyVm_leaf v]; rfl)

/-- The data segment grows by one page. -/
theorem brk_law_small : (sysBrk emptyBrk 0x11000).2 = none ∧ BrkLaw emptyBrk 0x11000 := by
  refine ⟨by decide +kernel, (brk_law_iff emptyBrk_wf).2 fun _ _ => ?_⟩
  rw [if_neg (by decide), show pages emptyBrk.brk.curr (alignUp 0x11000 pageSize) = [0x10000] by decide]
  exact Or.inr ⟨by decide +kernel, fun _ _ => rfl, by decide +kernel, trivial⟩

def twoPagesBrk : BrkState := (sysBrk emptyBrk 0x12000).1

/-- When the data segment loses two pages, only the first of them is unmapped. -/
theorem not_brk_law : BrkWf twoPagesBrk ∧ ¬BrkLaw twoPagesBrk 0x10000 := by
  have hok :
    (growPages emptyBrk.pml4t emptyBrk.vm (pages emptyBrk.brk.curr (alignUp 0x12000 pageSize))).2 = true := by
    decide +kernel
  have hcall : sysBrk emptyBrk 0x12000 = ({ emptyBrk with
      vm := (growPages emptyBrk.pml4t emptyBrk.vm (pages emptyBrk.brk.curr (alignUp 0x12000 pageSize))).1
      brk := { emptyBrk.brk with curr := alignUp 0x12000 pageSize } }, none) := by
    unfold sysBrk
    rw [if_neg (by decide), if_neg (by decide), if_neg (by decide), if_neg (by rw [hok]; decide)]
  have hbrk : twoPagesBrk.brk = { emptyBrk.brk with curr := alignUp 0x12000 pageSize } := by rw [twoPagesBrk, hcall]
  have hwf : BrkWf twoPagesBrk :=
    grow_wf emptyBrk_wf (by decide) (by decide) hok (by rw [twoPagesBrk, hcall]) (by rw [twoPagesBrk, hcall]) hbrk
  refine ⟨hwf, ?_⟩
  rw [shrink_law hwf (by rw [hbrk]; decide) (by rw [hbrk]; decide) (by rw [hbrk]; decide), hbrk]
  decide

end Pml.Kernel
