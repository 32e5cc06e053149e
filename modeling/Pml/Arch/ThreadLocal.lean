import Pml.Arch.FrameRuns
import Pml.Arch.HeldFrames
import Pml.Arch.Visits

/-!
# Thread-local memory (`arch/x86_64/thread.c`)

`thread_clone` gives the new thread a page directory pointer table of its own, below which it maps copies of the three
stacks of the parent, a page for signals and the signal trampoline.  The tables that `vm_map_page` adds for them and
the pages form a tree (`LocalTree`) of frames that were free before, with one reference each (`Building`).
-/

namespace Pml.Arch

open ByteMemory Radix

abbrev processStackTopVma : Nat := 0xfffffd8000000000

abbrev interruptStackTopVma : Nat := 0xfffffd7fe0000000

abbrev syscallStackTopVma : Nat := 0xfffffd7fd0000000

abbrev siginfoVma : Nat := 0xfffffd7fb0000000

abbrev signalTrampolineVma : Nat := 0xfffffd7fb0001000

abbrev kernelStackSize : Nat := 0x100000

/-- The members of `struct thread` that `thread_clone` and `thread_free` read; the PML4 table is given by its physical
address. -/
structure Thread where
  tid : Nat
  pml4t : Nat
  stackBase : Nat
  stackSize : Nat

/-- The addresses of the first loop of `thread_clone` over the pages of a stack. -/
def stackPages (t : Thread) : List Nat :=
  (List.range ((t.stackSize + (pageSize - 1)) / pageSize)).map fun i => t.stackBase + pageSize * i

def kernelPages (top : Nat) : List Nat :=
  (List.range (kernelStackSize / pageSize)).map fun i => top - pageSize - pageSize * i

def copyStackPage (parent pml4t : Nat) (vm : Vm) (addr : Nat) : Vm × Bool :=
  let a := allocPage vm.frames
  if a.2 = 0 then (⟨vm.mem, a.1⟩, false)
  else
    let m := copy vm.mem a.2 (vmPhysAddr vm.mem parent addr) pageSize
    let s := vmMapPage ⟨m, a.1⟩ pml4t a.2 addr (pageFlagRw ||| pageFlagUser)
    if s.2 = false then ({ s.1 with frames := freePage s.1.frames a.2 }, false) else s

def copyStacks (parent pml4t : Nat) (vm : Vm) : List Nat → Vm × Bool
  | [] => (vm, true)
  | addr :: addrs =>
    let s := copyStackPage parent pml4t vm addr
    if s.2 = false then s else copyStacks parent pml4t s.1 addrs

/-- `thread_alloc_tl_kernel_data`, where the signal trampoline is at physical address `st`. -/
def threadAllocTlKernelData (st pml4t : Nat) (vm : Vm) : Vm × Bool :=
  let a := allocPage vm.frames
  if a.2 = 0 then (⟨vm.mem, a.1⟩, false)
  else
    let s := vmMapPage ⟨vm.mem, a.1⟩ pml4t a.2 siginfoVma (pageFlagUser ||| pageFlagRw)
    if s.2 = false then s
    else
      let s := vmMapPage s.1 pml4t st signalTrampolineVma pageFlagUser
      ({ s.1 with frames := refPage s.1.frames st }, true)

def markedMem (cow : Bool) (parent tlp : Nat) (m : Mem) : Mem :=
  let m := fill m tlp pageSize 0
  if cow then markUser m parent else m

/-- The references to the user half and the copy of the PML4 table in `thread_clone`, with the thread-local table. -/
def clonePml4t (cow : Bool) (parent pml4t tlp : Nat) (vm : Vm) : Vm :=
  let m := markedMem cow parent tlp vm.mem
  let f := refUser m vm.frames parent
  let m := copy m pml4t parent pageSize
  ⟨setEntry m pml4t (pml4tIndex threadLocalBaseVma) (tlp ||| pageFlagPresent ||| pageFlagRw ||| pageFlagUser), f⟩

def clonedPages (t : Thread) : List Nat :=
  stackPages t ++ kernelPages interruptStackTopVma ++ kernelPages syscallStackTopVma

/-- The pages of `thread_clone` for the clone of a thread. -/
def clonePages (st : Nat) (t : Thread) (pml4t : Nat) (vm : Vm) : Vm × Bool :=
  let s := copyStacks t.pml4t pml4t vm (clonedPages t)
  if s.2 = false then s else threadAllocTlKernelData st pml4t s.1

/-! ### The tree of the thread-local tables -/

def localPath (v : Nat) : List Nat := [pdptIndex v, pdtIndex v, ptIndex v]

def InTree (m : Mem) (tlp g : Nat) : Prop := ∃ p, Within userWidth 3 p ∧ walk (ptEntry m) child tlp p = some g

/-- The thread-local tables of the address space `r` form a tree without large pages.  `K` lists the entries in use by
the indices that lead through them. -/
structure LocalTree (m : Mem) (r tlp : Nat) (K : List (List Nat)) : Prop where
  rootAligned : pageSize ∣ r
  aligned : pageSize ∣ tlp
  root : child (ptEntry m r 506) = some tlp
  oneWay : OneWay userWidth (ptEntry m) child 3 tlp
  agree : Agree userWidth (ptEntry m) userChild child 3 tlp
  outside : ¬InTree m tlp r
  keys : ∀ p, p ≠ [] → Within userWidth 3 p → ((walk (ptEntry m) child tlp p).isSome ↔ p ∈ K)

section

variable {m m' : Mem} {r tlp : Nat} {K : List (List Nat)}

private theorem within_snoc {p : List Nat} {j : Nat} (h : Within userWidth 3 (p ++ [j])) :
    p.length ≤ 2 ∧ j < 512 := by
  obtain ⟨h1, h2⟩ := (within_table (Nat.le_refl 3)).1 h
  rw [List.length_append, List.length_singleton] at h1
  exact ⟨by omega, h2 j (by simp)⟩

theorem LocalTree.mem_frames (h : LocalTree m r tlp K) {g : Nat} :
    g ∈ framesBelow m 3 tlp ↔ InTree m tlp g ∧ g ≠ tlp := by
  rw [framesBelow, mem_below h.agree]
  constructor
  · rintro ⟨p, hne, hp, hw⟩
    exact ⟨⟨p, hp, hw⟩, fun he => hne (h.oneWay p [] tlp hp (within_nil 3) (he ▸ hw) rfl)⟩
  · rintro ⟨⟨p, hp, hw⟩, hne⟩
    refine ⟨p, ?_, hp, hw⟩
    rintro rfl
    exact hne (Option.some.inj hw).symm

theorem LocalTree.nodup (h : LocalTree m r tlp K) : (framesBelow m 3 tlp).Nodup :=
  nodup_below h.agree fun p q f _ _ hp hq => h.oneWay p q f hp hq

private theorem LocalTree.inTree_aligned (h : LocalTree m r tlp K) {g : Nat} (hg : InTree m tlp g) :
    pageSize ∣ g := by
  obtain ⟨p, -, hw⟩ := hg
  rcases List.eq_nil_or_concat p with rfl | ⟨q, i, rfl⟩
  · obtain rfl := Option.some.inj hw
    exact h.aligned
  · rw [List.concat_eq_append] at hw
    obtain ⟨u, -, hu⟩ := walk_left hw
    rw [walk_singleton] at hu
    obtain ⟨-, rfl⟩ := child_eq_some.1 hu
    exact pageSize_dvd_alignDown _

private theorem userChild_none {k e : Nat} (h : child e = none) : userChild k e = none := by
  unfold userChild
  rw [h]
  exact ite_self _

private theorem userChild_small {k e : Nat} (h : (k = 1 ∨ k = 2) → hasFlag e pageFlagSize = false) :
    userChild k e = child e := by
  unfold userChild
  refine if_neg fun hk => ?_
  rw [h hk.1] at hk
  exact absurd hk.2 (by decide)

/-- What keeps the entries of the tables, or changes entries that lead nowhere, keeps the tree. -/
theorem LocalTree.congr (h : LocalTree m r tlp K)
    (hm : ∀ g j, j < 512 → g = r ∨ InTree m tlp g → ptEntry m' g j = ptEntry m g j ∨
      child (ptEntry m' g j) = none ∧ child (ptEntry m g j) = none) :
    LocalTree m' r tlp K ∧ (framesBelow m' 3 tlp).Perm (framesBelow m 3 tlp) ∧
      ∀ p, Within userWidth 3 p → walk (ptEntry m') child tlp p = walk (ptEntry m) child tlp p := by
  have hchild : ∀ g j, j < 512 → g = r ∨ InTree m tlp g → child (ptEntry m' g j) = child (ptEntry m g j) := by
    intro g j hj hg
    rcases hm g j hj hg with he | ⟨h1, h2⟩
    · rw [he]
    · rw [h1, h2]
  have hwalk : ∀ p, Within userWidth 3 p → walk (ptEntry m') child tlp p = walk (ptEntry m) child tlp p := by
    intro p hp
    refine walk_child_congr fun q i s u hsplit hw => ?_
    have hq : Within userWidth 3 (q ++ [i]) := by
      refine within_append (q := s) ?_
      rwa [List.append_assoc, List.singleton_append, ← hsplit]
    exact hchild u i (within_snoc hq).2 (Or.inr ⟨q, within_append hq, hw⟩)
  have htree : LocalTree m' r tlp K := by
    refine ⟨h.rootAligned, h.aligned, ?_, fun p q f hp hq hwp hwq => ?_, fun p u i hp hw => ?_, ?_,
      fun p hne hp => ?_⟩
    · rw [hchild r 506 (by decide) (Or.inl rfl)]
      exact h.root
    · rw [hwalk p hp] at hwp
      rw [hwalk q hq] at hwq
      exact h.oneWay p q f hp hq hwp hwq
    · rw [hwalk p (within_append hp)] at hw
      rcases hm u i (within_snoc hp).2 (Or.inr ⟨p, within_append hp, hw⟩) with he | ⟨h1, -⟩
      · rw [he]
        exact h.agree p u i hp hw
      · rw [h1, userChild_none h1]
    · rintro ⟨p, hp, hw⟩
      exact h.outside ⟨p, hp, (hwalk p hp).symm.trans hw⟩
    · rw [hwalk p hp]
      exact h.keys p hne hp
  refine ⟨htree, ?_, hwalk⟩
  rw [List.perm_ext_iff_of_nodup htree.nodup h.nodup]
  intro g
  rw [htree.mem_frames, h.mem_frames]
  refine and_congr_left fun _ => exists_congr fun p => and_congr_right fun hp => ?_
  rw [hwalk p hp]

/-- The entry `i` of the table `u` at the indices `q` gets the frame `n`. -/
structure NewEntry (m m' : Mem) (r tlp : Nat) (q : List Nat) (u i n : Nat) : Prop where
  reach : walk (ptEntry m) child tlp q = some u
  within : Within userWidth 3 (q ++ [i])
  same : ∀ g j, j < 512 → g = r ∨ InTree m tlp g → ¬(g = u ∧ j = i) → ptEntry m' g j = ptEntry m g j
  old : child (ptEntry m u i) = none
  new : child (ptEntry m' u i) = some n
  small : q.length ≤ 1 → hasFlag (ptEntry m' u i) pageFlagSize = false
  fresh : ¬InTree m tlp n ∧ n ≠ r
  empty : q.length ≤ 1 → ∀ j < 512, child (ptEntry m' n j) = none

theorem LocalTree.insert {q : List Nat} {u i n : Nat} (h : LocalTree m r tlp K) (hn : NewEntry m m' r tlp q u i n) :
    LocalTree m' r tlp ((q ++ [i]) :: K) ∧ (framesBelow m' 3 tlp).Perm (n :: framesBelow m 3 tlp) ∧
      ∀ p, Within userWidth 3 p → walk (ptEntry m') child tlp p =
        if p = q ++ [i] then some n else walk (ptEntry m) child tlp p := by
  have hins : Inserted userWidth (ptEntry m) (ptEntry m') child 3 tlp q u i n := by
    refine ⟨hn.reach, hn.within, fun p g j hp hg hne => ?_, hn.old, hn.new, fun p hp hw => hn.fresh.1 ⟨p, hp, hw⟩,
      fun j hj => ?_⟩
    · exact hn.same g j (within_snoc hp).2 (Or.inr ⟨p, within_append hp, hg⟩) hne
    · obtain ⟨h1, h2⟩ := within_snoc hj
      rw [List.length_append, List.length_singleton] at h1
      exact hn.empty (by omega) j h2
  have hwalk : ∀ p, Within userWidth 3 p → walk (ptEntry m') child tlp p =
      if p = q ++ [i] then some n else walk (ptEntry m) child tlp p := fun p hp => hins.walk_eq h.oneWay hp
  have hone := hins.oneWay h.oneWay
  have hagree : Agree userWidth (ptEntry m') userChild child 3 tlp := by
    intro p v j hp hw
    obtain ⟨hlen, hj⟩ := within_snoc hp
    rw [hwalk p (within_append hp)] at hw
    split at hw
    · rename_i he
      obtain rfl := Option.some.inj hw
      rw [he, List.length_append, List.length_singleton] at hlen
      have h0 := hn.empty (by omega) j hj
      rw [h0, userChild_none h0]
    · by_cases hvj : v = u ∧ j = i
      · obtain ⟨rfl, rfl⟩ := hvj
        obtain rfl := h.oneWay p q v (within_append hp) (within_append hn.within) hw hn.reach
        exact userChild_small fun hk => hn.small (by omega)
      · rw [hn.same v j hj (Or.inr ⟨p, within_append hp, hw⟩) hvj]
        exact h.agree p v j hp hw
  have hru : ¬(r = u ∧ 506 = i) := fun he => h.outside (he.1 ▸ ⟨q, within_append hn.within, hn.reach⟩)
  refine ⟨⟨h.rootAligned, h.aligned, ?_, hone, hagree, ?_, fun p hne hp => ?_⟩, hins.below h.oneWay h.agree hagree,
    hwalk⟩
  · rw [hn.same r 506 (by decide) (Or.inl rfl) hru]
    exact h.root
  · rintro ⟨p, hp, hw⟩
    rw [hwalk p hp] at hw
    split at hw
    · exact hn.fresh.2 (Option.some.inj hw)
    · exact h.outside ⟨p, hp, hw⟩
  · rw [hwalk p hp, List.mem_cons]
    split
    · rename_i he
      exact ⟨fun _ => Or.inl he, fun _ => rfl⟩
    · rename_i hne'
      rw [h.keys p hne hp]
      exact ⟨Or.inr, fun hk => hk.resolve_left hne'⟩

end

/-! ### Further calls of `alloc_page` -/

/-- The next `n` calls of `alloc_page` find a frame. -/
def Delivers (f : Frames) (n : Nat) : Prop := ∀ j < n, (allocPage (allocs j f)).2 ≠ 0

def SameSearch (f g : Frames) : Prop := ∃ c : Nat → Nat, g = { f with count := c } ∧ ∀ i, c i = 0 ↔ f.count i = 0

/-- `n` calls of `alloc_page` have found frames, and references have been added besides. -/
def Served (f0 : Frames) (n : Nat) (f : Frames) : Prop := Delivers f0 n ∧ SameSearch (allocs n f0) f

theorem allocs_succ (n : Nat) (f : Frames) : allocs (n + 1) f = (allocPage (allocs n f)).1 := by
  induction n generalizing f with
  | zero => rfl
  | succ n ih =>
    rw [allocs, ih]
    rfl

theorem Delivers.mono {f : Frames} {m n : Nat} (h : Delivers f n) (hle : m ≤ n) : Delivers f m :=
  fun j hj => h j (by omega)

theorem SameSearch.refl (f : Frames) : SameSearch f f := ⟨f.count, rfl, fun _ => Iff.rfl⟩

private theorem vmNextPage_withCount (f : Frames) (c : Nat → Nat) :
    vmNextPage { f with count := c } = { vmNextPage f with count := c } := by
  have hregion : ∀ k curr, nextRegion { f with count := c } k curr = nextRegion f k curr := by
    intro k
    induction k with
    | zero => exact fun _ => rfl
    | succ k ih =>
      intro curr
      unfold nextRegion
      rw [ih]
      rfl
  unfold vmNextPage
  dsimp only
  rw [hregion]
  split
  · rfl
  · by_cases h : f.nextPhysAddr < (f.region (f.regions.length - 1)).base + (f.region (f.regions.length - 1)).len
    · rw [if_pos h]
      exact if_pos h
    · rw [if_neg h]
      exact if_neg h

theorem SameSearch.allocPage {f g : Frames} (h : SameSearch f g) :
    (allocPage g).2 = (allocPage f).2 ∧ SameSearch (allocPage f).1 (allocPage g).1 := by
  induction hr : f.room using Nat.strong_induction_on generalizing f g with
  | _ n ih =>
    obtain ⟨c, rfl, hc⟩ := h
    rw [Arch.allocPage.eq_def f, Arch.allocPage.eq_def { f with count := c }]
    dsimp only
    by_cases havail : f.memAvail = true
    · rw [dif_pos havail, dif_pos havail]
      by_cases h0 : f.count (f.nextPhysAddr / pageSize) = 0
      · rw [if_pos h0, if_pos ((hc _).2 h0)]
        refine ⟨rfl, Function.update c (f.nextPhysAddr / pageSize) 1, ?_, fun i => ?_⟩
        · rw [vmNextPage_withCount f (Function.update c _ 1), vmNextPage_withCount f (Function.update f.count _ 1)]
        · rw [vmNextPage_withCount]
          dsimp only
          by_cases hi : i = f.nextPhysAddr / pageSize
          · rw [hi, Function.update_self, Function.update_self]
          · rw [Function.update_of_ne hi, Function.update_of_ne hi]
            exact hc i
      · rw [if_neg h0, if_neg (mt (hc _).1 h0), vmNextPage_withCount]
        have hlt := vmNextPage_room havail
        refine ih _ (by omega) ⟨c, rfl, fun i => ?_⟩ rfl
        rw [vmNextPage_count]
        exact hc i
    · rw [dif_neg havail, dif_neg havail]
      exact ⟨rfl, c, rfl, hc⟩

theorem SameSearch.refPage {f g : Frames} (h : SameSearch f g) (addr : Nat) : SameSearch f (refPage g addr) := by
  obtain ⟨c, rfl, hc⟩ := h
  unfold Arch.refPage
  split
  · exact ⟨c, rfl, hc⟩
  · dsimp only
    split
    · exact ⟨c, rfl, hc⟩
    · rename_i h0
      refine ⟨_, rfl, fun i => ?_⟩
      by_cases hi : i = addr / pageSize
      · rw [hi, Function.update_self, ← hc]
        omega
      · rw [Function.update_of_ne hi]
        exact hc i

theorem Served.start (f : Frames) : Served f 0 f := ⟨fun _ hj => absurd hj (Nat.not_lt_zero _), .refl f⟩

section

variable {f0 f : Frames} {n : Nat} (h : Served f0 n f)
include h

theorem Served.alloc (h0 : (allocPage f).2 ≠ 0) : Served f0 (n + 1) (allocPage f).1 := by
  obtain ⟨hd, hs⟩ := h
  obtain ⟨h1, h2⟩ := hs.allocPage
  refine ⟨fun j hj => ?_, ?_⟩
  · rcases Nat.lt_succ_iff_lt_or_eq.1 hj with hlt | rfl
    · exact hd j hlt
    · rwa [← h1]
  · rw [allocs_succ]
    exact h2

theorem Served.fail (h0 : (allocPage f).2 = 0) : ¬Delivers f0 (n + 1) := fun hd =>
  hd n (Nat.lt_succ_self n) (h.2.allocPage.1 ▸ h0)

end

/-! ### Frames for the tree -/

def addPath (K : List (List Nat)) (p : List Nat) : List (List Nat) := if p ∈ K then K else p :: K

def addTables (K : List (List Nat)) (v : Nat) : List (List Nat) :=
  addPath (addPath K [pdptIndex v]) [pdptIndex v, pdtIndex v]

def addPage (K : List (List Nat)) (v : Nat) : List (List Nat) := localPath v :: addTables K v

private theorem length_le_addPath (K : List (List Nat)) (p : List Nat) : K.length ≤ (addPath K p).length := by
  unfold addPath
  split
  · exact Nat.le_refl _
  · exact Nat.le_succ _

private theorem mem_addPath {K : List (List Nat)} {p q : List Nat} : p ∈ addPath K q ↔ p = q ∨ p ∈ K := by
  unfold addPath
  split
  · rename_i hq
    exact ⟨Or.inr, fun hp => hp.elim (fun he => he ▸ hq) id⟩
  · exact List.mem_cons

private theorem not_mem_addTables {K : List (List Nat)} {v w : Nat} (h : localPath w ∉ K) :
    localPath w ∉ addTables K v := by
  unfold addTables
  rw [mem_addPath, mem_addPath]
  simpa [localPath] using h

/-- The frames of the tree and the frames `E` were free in `c` and have one reference; all other counts are `c`. -/
structure Building (c : Nat → Nat) (vm : Vm) (r tlp : Nat) (K : List (List Nat)) (E : List Nat) : Prop where
  tree : LocalTree vm.mem r tlp K
  wf : vm.frames.Wf
  fresh : ∀ g ∈ E ++ framesBelow vm.mem 3 tlp, pageSize ∣ g ∧ g < 2 ^ 64 ∧ c (g / pageSize) = 0
  nodup : (E ++ framesBelow vm.mem 3 tlp).Nodup
  counts : ∀ i, vm.frames.count i = c i + hits i (E ++ framesBelow vm.mem 3 tlp)

/-- The frames of the two tables and frame 0 are in use. -/
structure InUse (c : Nat → Nat) (r tlp : Nat) : Prop where
  zero : c 0 ≠ 0
  root : c (r / pageSize) ≠ 0
  table : c (tlp / pageSize) ≠ 0

private theorem hits_perm {i : Nat} {l l' : List Nat} (h : l.Perm l') : hits i l = hits i l' := h.countP_eq _

private theorem hits_cons (i g : Nat) (l : List Nat) : hits i (g :: l) = hits i l + if g / pageSize = i then 1
    else 0 := by
  simp [hits, List.countP_cons]

private theorem hits_pos {g : Nat} {l : List Nat} (h : g ∈ l) : 0 < hits (g / pageSize) l :=
  List.countP_pos_iff.2 ⟨g, h, by simp⟩

section

variable {c : Nat → Nat} {vm : Vm} {m : Mem} {r tlp : Nat} {K : List (List Nat)} {E : List Nat}

theorem Building.store (h : Building c vm r tlp K E)
    (hm : ∀ g j, j < 512 → g = r ∨ InTree vm.mem tlp g → ptEntry m g j = ptEntry vm.mem g j ∨
      child (ptEntry m g j) = none ∧ child (ptEntry vm.mem g j) = none) : Building c ⟨m, vm.frames⟩ r tlp K E := by
  obtain ⟨htree, hperm, -⟩ := h.tree.congr hm
  have hall := (List.perm_append_left_iff E).2 hperm
  refine ⟨htree, h.wf, fun g hg => h.fresh g (hall.mem_iff.1 hg), hall.nodup_iff.2 h.nodup, fun i => ?_⟩
  rw [hits_perm hall]
  exact h.counts i

theorem Building.noFrame (h : Building c vm r tlp K E) (h0 : (allocPage vm.frames).2 = 0) (hz : c 0 ≠ 0) :
    Building c ⟨vm.mem, (allocPage vm.frames).1⟩ r tlp K E := by
  obtain ⟨hwf, ⟨-, hc⟩ | ⟨-, -, hfree, -⟩⟩ := allocPage_spec h.wf
  · refine ⟨h.tree, hwf, h.fresh, h.nodup, fun i => ?_⟩
    dsimp only
    rw [hc]
    exact h.counts i
  · rw [h0, Nat.zero_div, h.counts] at hfree
    omega

theorem Building.alloc (h : Building c vm r tlp K E) (h0 : (allocPage vm.frames).2 ≠ 0) :
    Building c ⟨vm.mem, (allocPage vm.frames).1⟩ r tlp K ((allocPage vm.frames).2 :: E) := by
  obtain ⟨hwf, ⟨h1, -⟩ | ⟨hd, hle, hfree, hc⟩⟩ := allocPage_spec h.wf
  · exact absurd h1 h0
  have hlt : (allocPage vm.frames).2 < 2 ^ 64 := by
    simp only [pageSize] at hle
    omega
  have hsum := h.counts ((allocPage vm.frames).2 / pageSize)
  rw [hfree] at hsum
  refine ⟨h.tree, hwf, fun g hg => ?_, ?_, fun i => ?_⟩
  · rw [List.cons_append, List.mem_cons] at hg
    rcases hg with rfl | hg
    · exact ⟨hd, hlt, by omega⟩
    · exact h.fresh g hg
  · rw [List.cons_append, List.nodup_cons]
    refine ⟨fun hmem => ?_, h.nodup⟩
    have hpos : 0 < hits _ (E ++ framesBelow vm.mem 3 tlp) := hits_pos hmem
    omega
  · rw [List.cons_append, hits_cons]
    dsimp only
    rw [hc]
    by_cases hi : i = (allocPage vm.frames).2 / pageSize
    · rw [hi, Function.update_self, if_pos rfl]
      omega
    · rw [Function.update_of_ne hi, if_neg (Ne.symm hi), h.counts i, Nat.add_zero]

theorem Building.free {n : Nat} (h : Building c vm r tlp K (n :: E)) (hz : c 0 ≠ 0) :
    Building c ⟨vm.mem, freePage vm.frames n⟩ r tlp K E := by
  obtain ⟨hd, hlt, hc⟩ := h.fresh n (List.mem_append_left _ List.mem_cons_self)
  have h0 : n ≠ 0 := by
    rintro rfl
    exact hz hc
  obtain ⟨hwf, hcount⟩ := freePage_spec h.wf h0 (alignDown_of_dvd hlt hd) hd
  have hnodup := h.nodup
  rw [List.cons_append, List.nodup_cons] at hnodup
  refine ⟨h.tree, hwf, fun g hg => h.fresh g ?_, hnodup.2, fun i => ?_⟩
  · rw [List.cons_append]
    exact List.mem_cons_of_mem n hg
  · have hsum := h.counts i
    rw [List.cons_append, hits_cons] at hsum
    dsimp only
    rw [hcount]
    by_cases hi : i = n / pageSize
    · rw [hi] at hsum ⊢
      rw [if_pos rfl] at hsum
      rw [Function.update_self]
      omega
    · rw [if_neg (Ne.symm hi)] at hsum
      rw [Function.update_of_ne hi]
      exact hsum

theorem Building.enter {q : List Nat} {u i n : Nat} (h : Building c vm r tlp K (n :: E))
    (hn : NewEntry vm.mem m r tlp q u i n) : Building c ⟨m, vm.frames⟩ r tlp ((q ++ [i]) :: K) E := by
  obtain ⟨htree, hperm, -⟩ := h.tree.insert hn
  have hall : (E ++ framesBelow m 3 tlp).Perm (n :: E ++ framesBelow vm.mem 3 tlp) :=
    ((List.perm_append_left_iff E).2 hperm).trans List.perm_middle
  refine ⟨htree, h.wf, fun g hg => h.fresh g (hall.mem_iff.1 hg), hall.nodup_iff.2 h.nodup, fun j => ?_⟩
  rw [hits_perm hall]
  exact h.counts j

theorem Building.held {n : Nat} (h : Building c vm r tlp K (n :: E)) (hu : InUse c r tlp) :
    ¬InTree vm.mem tlp n ∧ n ≠ r := by
  obtain ⟨-, -, hc⟩ := h.fresh n (List.mem_append_left _ List.mem_cons_self)
  have hnodup := h.nodup
  rw [List.cons_append, List.nodup_cons] at hnodup
  refine ⟨fun hin => ?_, ?_⟩
  · by_cases he : n = tlp
    · rw [he] at hc
      exact hu.table hc
    · exact hnodup.1 (List.mem_append_right E (h.tree.mem_frames.2 ⟨hin, he⟩))
  · rintro rfl
    exact hu.root hc

/-! ### Tables for an address -/

section

variable {q : List Nat} {u i flags : Nat} (h : Building c vm r tlp K E) (hu : InUse c r tlp)
  (hq : walk (ptEntry vm.mem) child tlp q = some u) (hw : Within userWidth 3 (q ++ [i])) (hlen : q.length ≤ 1)
include h hq hw

private theorem Building.table_aligned : pageSize ∣ u := h.tree.inTree_aligned ⟨q, within_append hw, hq⟩

private theorem Building.path_iff : q ++ [i] ∈ K ↔ hasFlag (ptEntry vm.mem u i) pageFlagPresent = true := by
  rw [← h.tree.keys _ (by simp) hw, walk_append_of hq, walk_singleton]
  unfold child
  split
  · rename_i hp
    exact ⟨fun _ => hp, fun _ => rfl⟩
  · rename_i hp
    exact ⟨fun hs => by simp at hs, fun hp' => absurd hp' hp⟩

include hu

private theorem Building.newTable (hf : MapFlags flags) (habs : hasFlag (ptEntry vm.mem u i) pageFlagPresent = false)
    (h0 : (allocPage vm.frames).2 ≠ 0) : (makeTable vm u i flags).2 = true ∧
      NewEntry vm.mem (makeTable vm u i flags).1.mem r tlp q u i (allocPage vm.frames).2 ∧
      (makeTable vm u i flags).1.frames = (allocPage vm.frames).1 := by
  obtain ⟨-, hi⟩ := within_snoc hw
  have hin : InTree vm.mem tlp u := ⟨q, within_append hw, hq⟩
  have hua := h.table_aligned hq hw
  have halloc := h.alloc h0
  obtain ⟨hd, hlt, -⟩ := halloc.fresh _ (List.mem_append_left _ List.mem_cons_self)
  have hfresh := halloc.held hu
  unfold Arch.makeTable
  rw [if_neg (by rw [habs]; decide)]
  dsimp only at hfresh ⊢
  rw [if_neg h0]
  generalize (allocPage vm.frames).2 = n at hd hlt hfresh ⊢
  have hne : u ≠ n := fun he => hfresh.1 (he ▸ hin)
  have hap := page_apart hua hd hne
  have hfill : ∀ x, x < n ∨ n + pageSize ≤ x →
      fill (setEntry vm.mem u i n) n pageSize 0 x = setEntry vm.mem u i n x := fun x hx => fill_outside hx
  have hent : ptEntry (fill (setEntry vm.mem u i n) n pageSize 0) u i = n := by
    rw [ptEntry_congr hi fun x h1 h2 => hfill x (by omega), ptEntry_setEntry_self hlt]
  obtain ⟨he1, he2, he3, he4⟩ := newTable_entry hlt hd hf
  rw [hent]
  generalize n ||| (pageFlagPresent ||| pageFlagRw ||| pageFlagUser ||| flags) = e at he1 he2 he3 he4 ⊢
  have hself : ptEntry (setEntry (fill (setEntry vm.mem u i n) n pageSize 0) u i e) u i = e :=
    ptEntry_setEntry_self he1
  refine ⟨rfl, ⟨hq, hw, fun g j hj hg hgj => ?_, ?_, ?_, fun _ => by rw [hself]; exact he3, hfresh, fun _ j hj => ?_⟩,
    rfl⟩
  · have hga : pageSize ∣ g := by
      rcases hg with rfl | hg
      · exact h.tree.rootAligned
      · exact h.tree.inTree_aligned hg
    have hgn : g ≠ n := by
      rintro rfl
      exact hg.elim (fun he => hfresh.2 he) fun hg => hfresh.1 hg
    have hap' := page_apart hga hd hgn
    rw [ptEntry_setEntry_of_ne hua hga hi hj hgj, ptEntry_congr hj fun x h1 h2 => hfill x (by omega),
      ptEntry_setEntry_of_ne hua hga hi hj hgj]
  · rw [child, if_neg (by rw [habs]; decide)]
  · rw [hself, child, if_pos he2, he4]
  · rw [ptEntry_setEntry_of_ne hua hd hi hj fun he => hne he.1.symm]
    have hzero : ptEntry (fill (setEntry vm.mem u i n) n pageSize 0) n j = 0 :=
      readLE_fill_zero (by omega) (by simp only [pageSize]; omega)
    rw [hzero]
    exact child_zero

include hlen in
theorem Building.makeTable (hf : MapFlags flags) :
    ((makeTable vm u i flags).2 = false ∧ Building c (makeTable vm u i flags).1 r tlp K E ∧ q ++ [i] ∉ K ∧
      (allocPage vm.frames).2 = 0) ∨
    ((makeTable vm u i flags).2 = true ∧ Building c (makeTable vm u i flags).1 r tlp (addPath K (q ++ [i])) E ∧
      walk (ptEntry (makeTable vm u i flags).1.mem) child tlp (q ++ [i]) =
        some (alignDown (ptEntry (makeTable vm u i flags).1.mem u i) pageSize) ∧
      hasFlag (ptEntry (makeTable vm u i flags).1.mem u i) pageFlagSize = false ∧
      ∀ f0 n, Served f0 (K.length + n) vm.frames →
        Served f0 ((addPath K (q ++ [i])).length + n) (makeTable vm u i flags).1.frames) := by
  obtain ⟨-, hi⟩ := within_snoc hw
  have hpath := h.path_iff hq hw
  by_cases hpres : hasFlag (ptEntry vm.mem u i) pageFlagPresent = true
  · have hsame : Arch.makeTable vm u i flags = (vm, true) := if_pos hpres
    have hadd : addPath K (q ++ [i]) = K := if_pos (hpath.2 hpres)
    have hchild : child (ptEntry vm.mem u i) = some (alignDown (ptEntry vm.mem u i) pageSize) := if_pos hpres
    rw [hsame, hadd]
    refine Or.inr ⟨rfl, h, ?_, ?_, fun _ _ hs => hs⟩
    · rw [walk_append_of hq, walk_singleton, hchild]
    · have hagree := h.tree.agree q u i hw hq
      rw [hchild] at hagree
      unfold userChild at hagree
      split at hagree
      · cases hagree
      · rename_i hsize
        by_contra hne
        exact hsize ⟨by omega, Bool.eq_true_of_not_eq_false hne⟩
  · have habs : hasFlag (ptEntry vm.mem u i) pageFlagPresent = false := Bool.eq_false_of_not_eq_true hpres
    have hnot : q ++ [i] ∉ K := fun hk => hpres (hpath.1 hk)
    by_cases h0 : (allocPage vm.frames).2 = 0
    · refine Or.inl ⟨?_, ?_, hnot, h0⟩
      · unfold Arch.makeTable
        rw [if_neg hpres]
        dsimp only
        rw [if_pos h0]
      · have hbuild := (h.noFrame h0 hu.zero).store (m := setEntry vm.mem u i 0) fun g j hj hg => ?_
        · unfold Arch.makeTable
          rw [if_neg hpres]
          dsimp only
          rw [if_pos h0, h0]
          exact hbuild
        · have hua := h.table_aligned hq hw
          have hga : pageSize ∣ g := by
            rcases hg with rfl | hg
            · exact h.tree.rootAligned
            · exact h.tree.inTree_aligned hg
          by_cases hgj : g = u ∧ j = i
          · obtain ⟨rfl, rfl⟩ := hgj
            refine Or.inr ⟨?_, ?_⟩
            · rw [ptEntry_setEntry_self (by decide)]
              exact child_zero
            · rw [child, if_neg hpres]
          · exact Or.inl (ptEntry_setEntry_of_ne hua hga hi hj hgj)
    · obtain ⟨hok, hnew, hframes⟩ := h.newTable hu hq hw hf habs h0
      have hadd : addPath K (q ++ [i]) = (q ++ [i]) :: K := if_neg hnot
      have hbuild := (h.alloc h0).enter hnew
      rw [hadd, hframes]
      refine Or.inr ⟨hok, ?_, ?_, hnew.small hlen, fun f0 n hs => ?_⟩
      · rwa [← hframes] at hbuild
      · obtain ⟨-, -, hwalk⟩ := h.tree.insert hnew
        rw [hwalk _ hw, if_pos rfl]
        obtain ⟨-, he⟩ := child_eq_some.1 hnew.new
        rw [he]
      · rw [List.length_cons, show K.length + 1 + n = K.length + n + 1 by omega]
        exact hs.alloc h0

end

section

variable {v physAddr flags : Nat} (h : Building c vm r tlp K E) (hu : InUse c r tlp) (hv : ¬nonCanonical v)
  (hi : pml4tIndex v = 506) (hf : MapFlags flags)
include h hu hv hi hf

/-- `vm_map_page` adds the tables for a thread-local address and stores the entry, or it finds no frame for a
table. -/
private theorem Building.mapTables :
    ((vmMapPage vm r physAddr v flags).2 = false ∧ (∃ K', Building c (vmMapPage vm r physAddr v flags).1 r tlp K' E) ∧
      K.length < (addTables K v).length ∧ ∀ f0 n, Served f0 (K.length + n) vm.frames →
      ¬Delivers f0 ((addTables K v).length + n)) ∨
    ∃ t cur, vmMapPage vm r physAddr v flags =
        ({ cur with
          mem := setEntry cur.mem t (ptIndex v) (alignDown physAddr pageSize ||| pageFlagPresent ||| flags) }, true) ∧
      walk (ptEntry cur.mem) child tlp [pdptIndex v, pdtIndex v] = some t ∧ Building c cur r tlp (addTables K v) E ∧
      ∀ f0 n, Served f0 (K.length + n) vm.frames → Served f0 ((addTables K v).length + n) cur.frames := by
  have hlt1 : pdptIndex v < 512 := Nat.and_lt_two_pow (n := 9) _ (by decide)
  have hlt2 : pdtIndex v < 512 := Nat.and_lt_two_pow (n := 9) _ (by decide)
  have hroot := child_eq_some.1 h.tree.root
  have hfirst : Arch.makeTable vm r 506 flags = (vm, true) := if_pos hroot.1
  have hw1 : Within userWidth 3 ([] ++ [pdptIndex v]) :=
    (within_table (Nat.le_refl 3)).2 ⟨by simp, by simpa using hlt1⟩
  have hw2 : Within userWidth 3 ([pdptIndex v] ++ [pdtIndex v]) :=
    (within_table (Nat.le_refl 3)).2 ⟨by simp, by simpa using ⟨hlt1, hlt2⟩⟩
  unfold vmMapPage
  rw [if_neg hv, hi, hfirst]
  dsimp only
  simp only [Bool.true_eq_false, ↓reduceIte, ← hroot.2]
  rcases h.makeTable hu rfl hw1 (by simp) hf with ⟨hok, hbuild, hnot, h0⟩ | ⟨hok, hbuild, hwalk, hsize, hserved⟩
  · -- no frame for the page directory
    rw [if_pos hok]
    have hadd : addPath K [pdptIndex v] = [pdptIndex v] :: K := if_neg hnot
    have hle := length_le_addPath ([pdptIndex v] :: K) [pdptIndex v, pdtIndex v]
    rw [List.length_cons, ← hadd, ← addTables] at hle
    exact Or.inl ⟨hok, ⟨K, hbuild⟩, hle, fun f0 n hs hd => hs.fail h0 (hd.mono (by omega))⟩
  rw [if_neg (by rw [hok]; decide), if_neg (by rw [hsize]; decide)]
  rw [List.nil_append] at hbuild hwalk hserved
  generalize Arch.makeTable vm tlp (pdptIndex v) flags = s at hok hbuild hwalk hsize hserved ⊢
  rcases hbuild.makeTable hu hwalk hw2 (by simp) hf with ⟨hok', hbuild', hnot, h0⟩ |
    ⟨hok', hbuild', hwalk', hsize', hserved'⟩
  · -- no frame for the page table
    rw [if_pos hok']
    have hadd : addTables K v = ([pdptIndex v] ++ [pdtIndex v]) :: addPath K [pdptIndex v] := if_neg hnot
    have hle := length_le_addPath K [pdptIndex v]
    have hlen := congrArg List.length hadd
    rw [List.length_cons] at hlen
    exact Or.inl ⟨hok', ⟨_, hbuild'⟩, by omega, fun f0 n hs hd => (hserved f0 n hs).fail h0 (hd.mono (by omega))⟩
  rw [if_neg (by rw [hok']; decide), if_neg (by rw [hsize']; decide)]
  exact Or.inr ⟨_, _, rfl, hwalk', hbuild', fun f0 n hs => hserved' f0 n (hserved f0 n hs)⟩

end

/-! ### Pages -/

private theorem stackFlags : MapFlags (pageFlagRw ||| pageFlagUser) := ⟨by decide, by decide, by decide⟩

private theorem signalFlags : MapFlags (pageFlagUser ||| pageFlagRw) := ⟨by decide, by decide, by decide⟩

private theorem trampolineFlags : MapFlags pageFlagUser := ⟨by decide, by decide, by decide⟩

/-- A thread-local address. -/
structure LocalAddr (v : Nat) : Prop where
  canonical : ¬nonCanonical v
  index : pml4tIndex v = 506

private theorem within_localPath (v : Nat) : Within userWidth 3 (localPath v) := by
  have hlt1 : pdptIndex v < 512 := Nat.and_lt_two_pow (n := 9) _ (by decide)
  have hlt2 : pdtIndex v < 512 := Nat.and_lt_two_pow (n := 9) _ (by decide)
  have hlt3 : ptIndex v < 512 := Nat.and_lt_two_pow (n := 9) _ (by decide)
  exact (within_table (Nat.le_refl 3)).2 ⟨by simp [localPath], by simpa [localPath] using ⟨hlt1, hlt2, hlt3⟩⟩

private theorem LocalTree.storePage {t v physAddr flags : Nat} (h : LocalTree m r tlp K) (hnew : localPath v ∉ K)
    (ht : walk (ptEntry m) child tlp [pdptIndex v, pdtIndex v] = some t) (hp : physAddr < 2 ^ 64)
    (hf : MapFlags flags)
    (hfresh : ¬InTree m tlp (alignDown physAddr pageSize) ∧ alignDown physAddr pageSize ≠ r) :
    NewEntry m (setEntry m t (ptIndex v) (alignDown physAddr pageSize ||| pageFlagPresent ||| flags)) r tlp
      [pdptIndex v, pdtIndex v] t (ptIndex v) (alignDown physAddr pageSize) := by
  obtain ⟨he1, he2, he3⟩ := pageEntry hp hf
  have hw : Within userWidth 3 ([pdptIndex v, pdtIndex v] ++ [ptIndex v]) := within_localPath v
  obtain ⟨-, hi⟩ := within_snoc hw
  have hta := h.inTree_aligned ⟨_, within_append hw, ht⟩
  refine ⟨ht, hw, fun g j hj hg hgj => ?_, ?_, ?_, fun hlen => absurd hlen (by simp), hfresh,
    fun hlen => absurd hlen (by simp)⟩
  · have hga : pageSize ∣ g := by
      rcases hg with rfl | hg
      · exact h.rootAligned
      · exact h.inTree_aligned hg
    exact ptEntry_setEntry_of_ne hta hga hi hj hgj
  · have hkey := h.keys (localPath v) (by simp [localPath]) (within_localPath v)
    have hnone : walk (ptEntry m) child tlp ([pdptIndex v, pdtIndex v] ++ [ptIndex v]) = none := by
      rw [← Option.not_isSome_iff_eq_none]
      exact fun hs => hnew (hkey.1 hs)
    rwa [walk_append_of ht, walk_singleton] at hnone
  · rw [ptEntry_setEntry_self he1, child, if_pos he2, he3]

/-- A page on a held frame is mapped, or no frame is found for a table. -/
private theorem Building.mapPage {v n flags : Nat} (h : Building c vm r tlp K (n :: E)) (hu : InUse c r tlp)
    (hv : LocalAddr v) (hnew : localPath v ∉ K) (hf : MapFlags flags) :
    ((vmMapPage vm r n v flags).2 = false ∧ (∃ K', Building c (vmMapPage vm r n v flags).1 r tlp K' (n :: E)) ∧
      ∀ f0 k, Served f0 (K.length + (k + 1)) vm.frames → ¬Delivers f0 ((addPage K v).length + k)) ∨
    ((vmMapPage vm r n v flags).2 = true ∧ Building c (vmMapPage vm r n v flags).1 r tlp (addPage K v) E ∧
      ∀ f0 k, Served f0 (K.length + (k + 1)) vm.frames →
        Served f0 ((addPage K v).length + k) (vmMapPage vm r n v flags).1.frames) := by
  have hcount : ∀ k, (addPage K v).length + k = (addTables K v).length + (k + 1) := fun k => by
    rw [addPage, List.length_cons]
    omega
  rcases h.mapTables hu hv.canonical hv.index hf with ⟨hok, hbuild, -, hfail⟩ |
    ⟨t, cur, he, ht, hbuild, hserved⟩
  · refine Or.inl ⟨hok, hbuild, fun f0 k hs => ?_⟩
    rw [hcount]
    exact hfail f0 (k + 1) hs
  · obtain ⟨hd, hlt, -⟩ := hbuild.fresh n (List.mem_append_left _ List.mem_cons_self)
    have hdown := alignDown_of_dvd hlt hd
    have hentry := hbuild.tree.storePage (not_mem_addTables hnew) ht hlt hf (by rw [hdown]; exact hbuild.held hu)
    rw [hdown] at hentry
    rw [hdown] at he
    rw [he]
    refine Or.inr ⟨rfl, hbuild.enter hentry, fun f0 k hs => ?_⟩
    rw [hcount]
    exact hserved f0 (k + 1) hs

private theorem Building.copyStackPage {v : Nat} (parent : Nat) (h : Building c vm r tlp K E) (hu : InUse c r tlp)
    (hv : LocalAddr v) (hnew : localPath v ∉ K) :
    ((copyStackPage parent r vm v).2 = false ∧ (∃ K', Building c (copyStackPage parent r vm v).1 r tlp K' E) ∧
      ∀ f0 k, Served f0 (K.length + k) vm.frames → ¬Delivers f0 ((addPage K v).length + k)) ∨
    ((copyStackPage parent r vm v).2 = true ∧ Building c (copyStackPage parent r vm v).1 r tlp (addPage K v) E ∧
      ∀ f0 k, Served f0 (K.length + k) vm.frames →
        Served f0 ((addPage K v).length + k) (copyStackPage parent r vm v).1.frames) := by
  unfold Arch.copyStackPage
  dsimp only
  by_cases h0 : (allocPage vm.frames).2 = 0
  · rw [if_pos h0]
    refine Or.inl ⟨rfl, ⟨K, h.noFrame h0 hu.zero⟩, fun f0 k hs hd => hs.fail h0 (hd.mono ?_)⟩
    have hle1 := length_le_addPath K [pdptIndex v]
    have hle2 := length_le_addPath (addPath K [pdptIndex v]) [pdptIndex v, pdtIndex v]
    rw [addPage, List.length_cons, addTables]
    omega
  rw [if_neg h0]
  have halloc := h.alloc h0
  have hheld := halloc.held hu
  obtain ⟨hd, -⟩ := halloc.fresh _ (List.mem_append_left _ List.mem_cons_self)
  have hstore := halloc.store
    (m := copy vm.mem (allocPage vm.frames).2 (vmPhysAddr vm.mem parent v) pageSize) fun g j hj hg => ?_
  · have hserve :
      ∀ f0 k, Served f0 (K.length + k) vm.frames → Served f0 (K.length + (k + 1)) (allocPage vm.frames).1 :=
      fun f0 k hs => hs.alloc h0
    rcases hstore.mapPage hu hv hnew stackFlags with ⟨hok, ⟨K', hbuild⟩, hfail⟩ | ⟨hok, hbuild, hserved⟩
    · rw [if_pos hok]
      exact Or.inl ⟨rfl, ⟨K', hbuild.free hu.zero⟩, fun f0 k hs => hfail f0 k (hserve f0 k hs)⟩
    · rw [if_neg (by rw [hok]; decide)]
      exact Or.inr ⟨hok, hbuild, fun f0 k hs => hserved f0 k (hserve f0 k hs)⟩
  · dsimp only at hg hheld ⊢
    have hga : pageSize ∣ g := by
      rcases hg with rfl | hg
      · exact h.tree.rootAligned
      · exact h.tree.inTree_aligned hg
    have hne : g ≠ (allocPage vm.frames).2 := by
      rintro rfl
      exact hg.elim (fun he => hheld.2 he) fun hg => hheld.1 hg
    have hap := page_apart hga hd hne
    exact Or.inl (ptEntry_congr hj fun x h1 h2 => copy_outside (by omega))

/-! ### All pages -/

def addPages (K : List (List Nat)) (addrs : List Nat) : List (List Nat) := addrs.foldl addPage K

private theorem length_le_addPage (K : List (List Nat)) (v : Nat) : K.length ≤ (addPage K v).length := by
  have hle1 := length_le_addPath K [pdptIndex v]
  have hle2 := length_le_addPath (addPath K [pdptIndex v]) [pdptIndex v, pdtIndex v]
  rw [addPage, List.length_cons, addTables]
  omega

private theorem length_le_addPages (K : List (List Nat)) (addrs : List Nat) :
    K.length ≤ (addPages K addrs).length := by
  induction addrs generalizing K with
  | nil => exact Nat.le_refl _
  | cons v addrs ih => exact (length_le_addPage K v).trans (ih (addPage K v))

private theorem not_mem_addPage {K : List (List Nat)} {v w : Nat} (h : localPath w ∉ K)
    (hne : localPath w ≠ localPath v) :
    localPath w ∉ addPage K v := by
  rw [addPage, List.mem_cons, not_or]
  exact ⟨hne, not_mem_addTables h⟩

private theorem not_mem_addPages {K : List (List Nat)} {w : Nat} {addrs : List Nat} (h : localPath w ∉ K)
    (hne : ∀ v ∈ addrs, localPath w ≠ localPath v) : localPath w ∉ addPages K addrs := by
  induction addrs generalizing K with
  | nil => exact h
  | cons v addrs ih =>
    exact ih (not_mem_addPage h (hne v List.mem_cons_self)) fun v' hv' => hne v' (List.mem_cons_of_mem v hv')

private theorem Building.copyStacks {addrs : List Nat} (parent : Nat) (h : Building c vm r tlp K E)
    (hu : InUse c r tlp)
    (hv : ∀ v ∈ addrs, LocalAddr v) (hnodup : (addrs.map localPath).Nodup) (hnew : ∀ v ∈ addrs, localPath v ∉ K) :
    ((copyStacks parent r vm addrs).2 = false ∧ (∃ K', Building c (copyStacks parent r vm addrs).1 r tlp K' E) ∧
      ∀ f0 k, Served f0 (K.length + k) vm.frames → ¬Delivers f0 ((addPages K addrs).length + k)) ∨
    ((copyStacks parent r vm addrs).2 = true ∧ Building c (copyStacks parent r vm addrs).1 r tlp
      (addPages K addrs) E ∧ ∀ f0 k, Served f0 (K.length + k) vm.frames →
        Served f0 ((addPages K addrs).length + k) (copyStacks parent r vm addrs).1.frames) := by
  induction addrs generalizing vm K with
  | nil => exact Or.inr ⟨rfl, h, fun _ _ hs => hs⟩
  | cons v addrs ih =>
    rw [List.map_cons, List.nodup_cons] at hnodup
    unfold Arch.copyStacks
    dsimp only
    rcases h.copyStackPage parent hu (hv v List.mem_cons_self) (hnew v List.mem_cons_self) with
      ⟨hok, hbuild, hfail⟩ | ⟨hok, hbuild, hserved⟩
    · rw [if_pos hok]
      refine Or.inl ⟨hok, hbuild, fun f0 k hs hd => hfail f0 k hs (hd.mono ?_)⟩
      exact Nat.add_le_add_right (length_le_addPages (addPage K v) addrs) k
    · rw [if_neg (by rw [hok]; decide)]
      have hnew' : ∀ w ∈ addrs, localPath w ∉ addPage K v := by
        intro w hw
        refine not_mem_addPage (hnew w (List.mem_cons_of_mem v hw)) fun he => hnodup.1 ?_
        rw [← he]
        exact List.mem_map_of_mem hw
      rcases ih hbuild (fun w hw => hv w (List.mem_cons_of_mem v hw)) hnodup.2 hnew' with
        ⟨hok', hbuild', hfail⟩ | ⟨hok', hbuild', hserved'⟩
      · exact Or.inl ⟨hok', hbuild', fun f0 k hs => hfail f0 k (hserved f0 k hs)⟩
      · exact Or.inr ⟨hok', hbuild', fun f0 k hs => hserved' f0 k (hserved f0 k hs)⟩

/-- The frame of the signal trampoline is in use and is none of the two tables. -/
structure TrampolineFrame (c : Nat → Nat) (r tlp st : Nat) : Prop where
  lt : st < 2 ^ 64
  frame : st / pageSize ≠ 0
  counted : c (st / pageSize) ≠ 0
  root : alignDown st pageSize ≠ r
  table : alignDown st pageSize ≠ tlp

/-- The thread-local memory is complete: each frame of its tree has a reference for it. -/
structure Built (c : Nat → Nat) (vm : Vm) (r tlp : Nat) : Prop where
  tree : ∃ K, LocalTree vm.mem r tlp K
  wf : vm.frames.Wf
  frames : ∀ g ∈ framesBelow vm.mem 3 tlp, g / pageSize ≠ 0
  counts : ∀ i, vm.frames.count i = c i + hits i (framesBelow vm.mem 3 tlp)

private theorem localPath_signal : localPath signalTrampolineVma ≠ localPath siginfoVma := by decide

private theorem tables_signal (K : List (List Nat)) :
    addTables (addPage K siginfoVma) signalTrampolineVma = addPage K siginfoVma := by
  have h1 : pdptIndex signalTrampolineVma = pdptIndex siginfoVma := by decide
  have h2 : pdtIndex signalTrampolineVma = pdtIndex siginfoVma := by decide
  have hmem1 : [pdptIndex siginfoVma] ∈ addPage K siginfoVma := by
    unfold addPage addTables
    rw [List.mem_cons, mem_addPath, mem_addPath]
    exact Or.inr (Or.inr (Or.inl rfl))
  have hmem2 : [pdptIndex siginfoVma, pdtIndex siginfoVma] ∈ addPage K siginfoVma := by
    unfold addPage addTables
    rw [List.mem_cons, mem_addPath]
    exact Or.inr (Or.inl rfl)
  rw [addTables, h1, h2, addPath, addPath, if_pos hmem1, if_pos hmem2]

private theorem localAddr_siginfo : LocalAddr siginfoVma := ⟨by decide, by decide⟩

private theorem localAddr_trampoline : LocalAddr signalTrampolineVma := ⟨by decide, by decide⟩

theorem Building.trampoline {st : Nat} (h : Building c vm r tlp (addPage K siginfoVma) []) (hu : InUse c r tlp)
    (hst : TrampolineFrame c r tlp st) (hnew : localPath signalTrampolineVma ∉ K) :
    let s := vmMapPage vm r st signalTrampolineVma pageFlagUser
    Built c { s.1 with frames := refPage s.1.frames st } r tlp := by
  have hnew' := not_mem_addPage hnew localPath_signal
  dsimp only
  rcases h.mapTables hu localAddr_trampoline.canonical localAddr_trampoline.index trampolineFlags with
    ⟨-, -, hlt, -⟩ | ⟨t, cur, he, ht, hbuild, -⟩
  · rw [tables_signal] at hlt
    exact absurd hlt (Nat.lt_irrefl _)
  rw [tables_signal] at hbuild
  rw [he]
  have hdiv := alignDown_div_pageSize hst.lt
  have hfresh : ¬InTree cur.mem tlp (alignDown st pageSize) ∧ alignDown st pageSize ≠ r := by
    refine ⟨fun hin => ?_, hst.root⟩
    obtain ⟨-, -, hc⟩ := hbuild.fresh _ (List.mem_append_right [] (hbuild.tree.mem_frames.2 ⟨hin, hst.table⟩))
    rw [hdiv] at hc
    exact hst.counted hc
  obtain ⟨htree, hperm, -⟩ := hbuild.tree.insert (hbuild.tree.storePage hnew' ht hst.lt trampolineFlags hfresh)
  have hnz : st ≠ 0 := by
    rintro rfl
    exact hst.frame rfl
  refine ⟨⟨_, htree⟩, hbuild.wf.refPage st, fun g hg => ?_, fun i => ?_⟩
  · rcases List.mem_cons.1 (hperm.mem_iff.1 hg) with rfl | hg
    · rw [hdiv]
      exact hst.frame
    · intro h0
      obtain ⟨-, -, hc⟩ := hbuild.fresh g (List.mem_append_right [] hg)
      rw [h0] at hc
      exact hu.zero hc
  · have hsum := hbuild.counts i
    rw [List.nil_append] at hsum
    dsimp only
    rw [refPage_count, hits_perm hperm, hits_cons, hdiv, hsum]
    by_cases hi : i = st / pageSize
    · have hc := hst.counted
      rw [← hi] at hc
      rw [if_pos ⟨hnz, hi, by omega⟩, if_pos hi.symm]
      omega
    · rw [if_neg fun hx => hi hx.2.1, if_neg (Ne.symm hi)]
      omega

private theorem Building.tlKernelData {st : Nat} (h : Building c vm r tlp K []) (hu : InUse c r tlp)
    (hst : TrampolineFrame c r tlp st) (hnew : localPath siginfoVma ∉ K) (hnew' : localPath signalTrampolineVma ∉ K) :
    ((threadAllocTlKernelData st r vm).2 = false ∧
      (∃ K' E', Building c (threadAllocTlKernelData st r vm).1 r tlp K' E') ∧
      ∀ f0 k, Served f0 (K.length + k) vm.frames → ¬Delivers f0 ((addPage K siginfoVma).length + k)) ∨
    ((threadAllocTlKernelData st r vm).2 = true ∧ Built c (threadAllocTlKernelData st r vm).1 r tlp ∧
      ∀ f0 k, Served f0 (K.length + k) vm.frames → Delivers f0 ((addPage K siginfoVma).length + k)) := by
  unfold threadAllocTlKernelData
  dsimp only
  by_cases h0 : (allocPage vm.frames).2 = 0
  · rw [if_pos h0]
    refine Or.inl ⟨rfl, ⟨K, [], h.noFrame h0 hu.zero⟩, fun f0 k hs hd => hs.fail h0 (hd.mono ?_)⟩
    have hle1 := length_le_addPath K [pdptIndex siginfoVma]
    have hle2 := length_le_addPath (addPath K [pdptIndex siginfoVma]) [pdptIndex siginfoVma, pdtIndex siginfoVma]
    rw [addPage, List.length_cons, addTables]
    omega
  rw [if_neg h0]
  have hserve : ∀ f0 k, Served f0 (K.length + k) vm.frames → Served f0 (K.length + (k + 1)) (allocPage vm.frames).1 :=
    fun f0 k hs => hs.alloc h0
  rcases (h.alloc h0).mapPage hu localAddr_siginfo hnew signalFlags with ⟨hok, ⟨K', hbuild⟩, hfail⟩ |
    ⟨hok, hbuild, hserved⟩
  · rw [if_pos hok]
    exact Or.inl ⟨hok, ⟨K', _, hbuild⟩, fun f0 k hs => hfail f0 k (hserve f0 k hs)⟩
  · rw [if_neg (by rw [hok]; decide)]
    exact Or.inr ⟨rfl, hbuild.trampoline hu hst hnew', fun f0 k hs => (hserved f0 k (hserve f0 k hs)).1⟩

/-! ### The addresses -/

/-- `sched_init` sets the stack of the first thread, and `thread_clone` copies these members. -/
structure Thread.StackPlaced (t : Thread) : Prop where
  base : t.stackBase = processStackTopVma - kernelStackSize
  size : t.stackSize = kernelStackSize

private theorem localAddr_iff {v : Nat} : LocalAddr v ↔ v / 2 ^ 39 = 0xffff * 512 + 506 := by
  have hidx : pml4tIndex v = v / 2 ^ 39 % 512 := (index_val v).1.symm
  constructor
  · rintro ⟨h1, h2⟩
    have h3 := canonical_iff.1 h1
    omega
  · intro h
    refine ⟨canonical_iff.2 ?_, ?_⟩ <;> omega

private theorem localPath_inj {v w : Nat} (hv : LocalAddr v) (hw : LocalAddr w) (hdv : pageSize ∣ v)
    (hdw : pageSize ∣ w) (h : localPath v = localPath w) : v = w := by
  obtain ⟨-, v1, v2, v3⟩ := index_val v
  obtain ⟨-, w1, w2, w3⟩ := index_val w
  unfold localPath at h
  rw [← v1, ← v2, ← v3, ← w1, ← w2, ← w3] at h
  simp only [List.cons.injEq, and_true, indexAt] at h
  have hv' := localAddr_iff.1 hv
  have hw' := localAddr_iff.1 hw
  obtain ⟨a, rfl⟩ := hdv
  obtain ⟨b, rfl⟩ := hdw
  simp only [pageSize] at *
  omega

private theorem mem_kernelPages {top v : Nat} :
    v ∈ kernelPages top ↔ ∃ i < 256, v = top - pageSize - pageSize * i := by
  have hn : kernelStackSize / pageSize = 256 := by decide
  unfold kernelPages
  simp only [hn, List.mem_map, List.mem_range, eq_comm]

private theorem nodup_kernelPages {top : Nat} (ht : 2 ^ 21 ≤ top) : (kernelPages top).Nodup := by
  have hn : kernelStackSize / pageSize = 256 := by decide
  unfold kernelPages
  rw [hn]
  refine List.nodup_range.map_on fun i hi j hj h => ?_
  simp only [List.mem_range, pageSize] at hi hj h
  omega

private theorem Thread.StackPlaced.mem_stackPages {t : Thread} (ht : t.StackPlaced) {v : Nat} :
    v ∈ stackPages t ↔ ∃ i < 256, v = processStackTopVma - kernelStackSize + pageSize * i := by
  have hn : (kernelStackSize + (pageSize - 1)) / pageSize = 256 := by decide
  unfold stackPages
  rw [ht.base, ht.size, hn]
  simp only [List.mem_map, List.mem_range, eq_comm]

private theorem nodup_stackPages (t : Thread) : (stackPages t).Nodup := by
  unfold stackPages
  refine List.nodup_range.map_on fun i _ j _ h => ?_
  simp only [pageSize] at h
  omega

/-- The pages of the stacks lie apart, and away from the two pages for signals. -/
theorem Thread.StackPlaced.clonedPages {t : Thread} (ht : t.StackPlaced) :
    (∀ v ∈ clonedPages t, LocalAddr v ∧ pageSize ∣ v ∧ v ≠ siginfoVma ∧ v ≠ signalTrampolineVma) ∧
      (clonedPages t).Nodup := by
  have hk : ∀ v, v ∈ Arch.clonedPages t → (∃ i < 256, v = processStackTopVma - kernelStackSize + pageSize * i) ∨
      (∃ i < 256, v = interruptStackTopVma - pageSize - pageSize * i) ∨
      ∃ i < 256, v = syscallStackTopVma - pageSize - pageSize * i := by
    intro v hv
    unfold Arch.clonedPages at hv
    rw [List.mem_append, List.mem_append, ht.mem_stackPages, mem_kernelPages, mem_kernelPages] at hv
    exact or_assoc.1 hv
  constructor
  · intro v hv
    rw [localAddr_iff]
    simp only [pageSize, processStackTopVma, kernelStackSize, interruptStackTopVma, syscallStackTopVma, siginfoVma,
      signalTrampolineVma] at hk ⊢
    rcases hk v hv with ⟨i, hi, rfl⟩ | ⟨i, hi, rfl⟩ | ⟨i, hi, rfl⟩ <;> omega
  · unfold Arch.clonedPages
    rw [List.nodup_append, List.nodup_append]
    refine ⟨⟨nodup_stackPages t, nodup_kernelPages (by decide), fun v hv w hw => ?_⟩, nodup_kernelPages (by decide),
      fun v hv w hw => ?_⟩
    · rw [ht.mem_stackPages] at hv
      rw [mem_kernelPages] at hw
      simp only [pageSize, processStackTopVma, kernelStackSize, interruptStackTopVma] at hv hw
      omega
    · rw [List.mem_append, ht.mem_stackPages, mem_kernelPages] at hv
      rw [mem_kernelPages] at hw
      simp only [pageSize, processStackTopVma, kernelStackSize, interruptStackTopVma, syscallStackTopVma] at hv hw
      omega

/-- The number of frames that `thread_clone` allocates: two tables, and a frame for each table below them and for each
page. -/
def pagesNeeded (t : Thread) : Nat := (addPage (addPages [] (clonedPages t)) siginfoVma).length + 2

theorem pagesNeeded_le (t : Thread) : pagesNeeded t ≤ 3 * ((clonedPages t).length + 1) + 2 := by
  have hpath : ∀ (K : List (List Nat)) p, (addPath K p).length ≤ K.length + 1 := by
    intro K p
    unfold addPath
    split
    · exact Nat.le_succ _
    · exact Nat.le_refl _
  have hpage : ∀ (K : List (List Nat)) v, (addPage K v).length ≤ K.length + 3 := by
    intro K v
    have hle1 := hpath K [pdptIndex v]
    have hle2 := hpath (addPath K [pdptIndex v]) [pdptIndex v, pdtIndex v]
    rw [addPage, List.length_cons, addTables]
    omega
  have hpages : ∀ (vs : List Nat) (K : List (List Nat)), (addPages K vs).length ≤ K.length + 3 * vs.length := by
    intro vs
    induction vs with
    | nil => exact fun K => Nat.le_refl _
    | cons v vs ih =>
      intro K
      have hle1 := hpage K v
      have hle2 := ih (addPage K v)
      rw [addPages, List.foldl_cons, ← addPages, List.length_cons]
      omega
  have hle1 := hpages (clonedPages t) []
  have hle2 := hpage (addPages [] (clonedPages t)) siginfoVma
  rw [List.length_nil] at hle1
  unfold pagesNeeded
  omega

/-- All pages are mapped below a thread-local table without entries, or a frame is missing. -/
theorem Building.clonePages {t : Thread} {st : Nat} (h : Building c vm r tlp [] []) (hu : InUse c r tlp)
    (hst : TrampolineFrame c r tlp st) (ht : t.StackPlaced) :
    ((clonePages st t r vm).2 = false ∧ (∃ K E, Building c (clonePages st t r vm).1 r tlp K E) ∧
      ∀ f0, Served f0 2 vm.frames → ¬Delivers f0 (pagesNeeded t)) ∨
    ((clonePages st t r vm).2 = true ∧ Built c (clonePages st t r vm).1 r tlp ∧
      ∀ f0, Served f0 2 vm.frames → Delivers f0 (pagesNeeded t)) := by
  obtain ⟨hpages, hnodup⟩ := ht.clonedPages
  have hpaths : ((clonedPages t).map localPath).Nodup := by
    refine hnodup.map_on fun v hv w hw he => ?_
    exact localPath_inj (hpages v hv).1 (hpages w hw).1 (hpages v hv).2.1 (hpages w hw).2.1 he
  unfold Arch.clonePages
  dsimp only
  rcases h.copyStacks t.pml4t hu (fun v hv => (hpages v hv).1) hpaths (fun v _ => List.not_mem_nil) with
    ⟨hok, ⟨K', hbuild⟩, hfail⟩ | ⟨hok, hbuild, hserved⟩
  · rw [if_pos hok]
    refine Or.inl ⟨hok, ⟨K', [], hbuild⟩, fun f0 hf hd => hfail f0 2 (by rwa [List.length_nil]) (hd.mono ?_)⟩
    exact Nat.add_le_add_right (length_le_addPage _ siginfoVma) 2
  · rw [if_neg (by rw [hok]; decide)]
    have hsig : localPath siginfoVma ∉ addPages [] (clonedPages t) := by
      refine not_mem_addPages List.not_mem_nil fun v hv he => (hpages v hv).2.2.1 ?_
      exact (localPath_inj localAddr_siginfo (hpages v hv).1 (by decide) (hpages v hv).2.1 he).symm
    have htra : localPath signalTrampolineVma ∉ addPages [] (clonedPages t) := by
      refine not_mem_addPages List.not_mem_nil fun v hv he => (hpages v hv).2.2.2 ?_
      exact (localPath_inj localAddr_trampoline (hpages v hv).1 (by decide) (hpages v hv).2.1 he).symm
    rcases hbuild.tlKernelData hu hst hsig htra with ⟨hok', hbuild', hfail⟩ | ⟨hok', hbuilt, hdeliver⟩
    · exact Or.inl ⟨hok', hbuild', fun f0 hf => hfail f0 2 (hserved f0 2 (by rwa [List.length_nil]))⟩
    · exact Or.inr ⟨hok', hbuilt, fun f0 hf => hdeliver f0 2 (hserved f0 2 (by rwa [List.length_nil]))⟩

/-! ### The start -/

theorem SameSearch.trans {f g k : Frames} (h1 : SameSearch f g) (h2 : SameSearch g k) : SameSearch f k := by
  obtain ⟨c, rfl, hc⟩ := h1
  obtain ⟨d, rfl, hd⟩ := h2
  exact ⟨d, rfl, fun i => (hd i).trans (hc i)⟩

private theorem sameSearch_foldl {step : Frames → Nat → Frames} (l : List Nat) (h : ∀ f i, SameSearch f (step f i))
    (f : Frames) :
    SameSearch f (l.foldl step f) := by
  induction l generalizing f with
  | nil => exact .refl f
  | cons i l ih => exact (h f i).trans (ih (step f i))

private theorem sameSearch_ite {p : Prop} [Decidable p] {f g : Frames} (h : SameSearch f g) :
    SameSearch f (if p then g else f) := by
  split
  · exact h
  · exact .refl f

theorem sameSearch_refUser (m : Mem) (f : Frames) (pml4t : Nat) : SameSearch f (refUser m f pml4t) := by
  have hpt : ∀ f pt, SameSearch f (refPt m f pt) := fun f pt =>
    sameSearch_foldl _ (fun f i => sameSearch_ite ((SameSearch.refl f).refPage _)) f
  have hpdt : ∀ f pdt, SameSearch f (refPdt m f pdt) := fun f pdt =>
    sameSearch_foldl _ (fun f i => sameSearch_ite (((SameSearch.refl f).refPage _).trans (hpt _ _))) f
  have hpdpt : ∀ f pdpt, SameSearch f (refPdpt m f pdpt) := fun f pdpt =>
    sameSearch_foldl _ (fun f i => sameSearch_ite (((SameSearch.refl f).refPage _).trans (hpdt _ _))) f
  exact sameSearch_foldl _ (fun f i => sameSearch_ite (((SameSearch.refl f).refPage _).trans (hpdpt _ _))) f

theorem markedMem_spec (cow : Bool) {parent tlp : Nat} (m : Mem) (hp : pageSize ∣ parent) (ht : pageSize ∣ tlp)
    (hne : parent ≠ tlp) :
    (∀ i < 256, child (ptEntry (markedMem cow parent tlp m) parent i) = child (ptEntry m parent i)) ∧
      ∀ j < 512, ptEntry (markedMem cow parent tlp m) tlp j = 0 := by
  have hap := page_apart hp ht hne
  have hfill : ∀ i < 512, ptEntry (fill m tlp pageSize 0) parent i = ptEntry m parent i := fun i hi =>
    ptEntry_congr hi fun x h1 h2 => fill_outside (by omega)
  have hzero : ∀ j < 512, ptEntry (fill m tlp pageSize 0) tlp j = 0 := fun j hj =>
    readLE_fill_zero (by omega) (by simp only [pageSize]; omega)
  unfold markedMem
  cases cow with
  | false =>
    rw [if_neg (by decide)]
    exact ⟨fun i hi => by rw [hfill i (by omega)], hzero⟩
  | true =>
    rw [if_pos rfl]
    have hm := @markUser_spec (fill m tlp pageSize 0) parent hp
    refine ⟨fun i hi => ?_, fun j hj => ?_⟩
    · rw [hm.entry i hi, child_markedEntry (ptEntry_lt _ _ _), hfill i (by omega)]
    · rw [ptEntry_congr hj fun x h1 h2 => hm.outside x (by omega), hzero j hj]

theorem clonePml4t_frames (cow : Bool) (parent r tlp : Nat) (vm : Vm) : (clonePml4t cow parent r tlp vm).frames =
    refUser (markedMem cow parent tlp vm.mem) vm.frames parent := by
  unfold clonePml4t
  dsimp only

theorem building_start (cow : Bool) {parent : Nat} (hwf : vm.frames.Wf) (hp : pageSize ∣ parent) (hr : pageSize ∣ r)
    (ht : pageSize ∣ tlp) (hlt : tlp < 2 ^ 64) (hpt : parent ≠ tlp) (hrt : r ≠ tlp) :
    Building (clonePml4t cow parent r tlp vm).frames.count (clonePml4t cow parent r tlp vm) r tlp [] [] := by
  obtain ⟨-, hzero⟩ := markedMem_spec cow vm.mem hp ht hpt
  have hframes := clonePml4t_frames cow parent r tlp vm
  have hmem :
    (clonePml4t cow parent r tlp vm).mem = setEntry (copy (markedMem cow parent tlp vm.mem) r parent pageSize) r
      506 (tlp ||| pageFlagPresent ||| pageFlagRw ||| pageFlagUser) := by
    have hidx : pml4tIndex threadLocalBaseVma = 506 := by decide
    unfold clonePml4t
    rw [hidx]
  have hap := page_apart hr ht hrt
  have hempty : ∀ j < 512, child (ptEntry (clonePml4t cow parent r tlp vm).mem tlp j) = none := by
    intro j hj
    rw [hmem, ptEntry_setEntry_of_ne hr ht (by decide) hj fun he => hrt he.1.symm,
      ptEntry_congr hj fun x h1 h2 => copy_outside (by omega), hzero j hj]
    exact child_zero
  have hroot : child (ptEntry (clonePml4t cow parent r tlp vm).mem r 506) = some tlp := by
    obtain ⟨h1, h2, -, h3⟩ := newTable_entry hlt ht (⟨by decide, by decide, by decide⟩ : MapFlags 0)
    have he : tlp ||| pageFlagPresent ||| pageFlagRw ||| pageFlagUser =
        tlp ||| (pageFlagPresent ||| pageFlagRw ||| pageFlagUser ||| 0) := by
      rw [Nat.or_zero, Nat.or_assoc, Nat.or_assoc, Nat.or_assoc]
    rw [hmem, ptEntry_setEntry_self (he ▸ h1), he, child, if_pos h2, h3]
  -- no walk leads further than to the table itself
  have hwalk :
    ∀ p g, Within userWidth 3 p → walk (ptEntry (clonePml4t cow parent r tlp vm).mem) child tlp p = some g →
      p = [] ∧ g = tlp := by
    intro p g hpw hw
    cases p with
    | nil => exact ⟨rfl, (Option.some.inj hw).symm⟩
    | cons j p =>
      obtain ⟨-, hlt⟩ := (within_table (Nat.le_refl 3)).1 hpw
      rw [walk_cons, hempty j (hlt j List.mem_cons_self)] at hw
      cases hw
  have htree : LocalTree (clonePml4t cow parent r tlp vm).mem r tlp [] := by
    refine ⟨hr, ht, hroot, fun p q f hpw hqw hfp hfq => ?_, fun p u j hpw hw => ?_, ?_, fun p hne hpw => ?_⟩
    · rw [(hwalk p f hpw hfp).1, (hwalk q f hqw hfq).1]
    · obtain ⟨rfl, rfl⟩ := hwalk p u (within_append hpw) hw
      have h0 := hempty j (within_snoc hpw).2
      rw [h0, userChild_none h0]
    · rintro ⟨p, hpw, hw⟩
      exact hrt (hwalk p r hpw hw).2
    · refine ⟨fun hs => ?_, fun hmem => absurd hmem List.not_mem_nil⟩
      obtain ⟨g, hg⟩ := Option.isSome_iff_exists.1 hs
      exact absurd (hwalk p g hpw hg).1 hne
  have hnone : framesBelow (clonePml4t cow parent r tlp vm).mem 3 tlp = [] := by
    rw [List.eq_nil_iff_forall_not_mem]
    intro g hg
    obtain ⟨⟨p, hpw, hw⟩, hne⟩ := htree.mem_frames.1 hg
    exact hne (hwalk p g hpw hw).2
  refine ⟨htree, ?_, fun g hg => ?_, ?_, fun i => ?_⟩
  · rw [hframes]
    exact (adds_refUser _ parent vm.frames hwf).1
  · rw [hnone] at hg
    exact absurd hg List.not_mem_nil
  · rw [hnone]
    exact List.nodup_nil
  · rw [hnone]
    rfl

/-! ### The end -/

private theorem foldl_count {step : Frames → Nat → Frames} {k : Nat} (l : List Nat)
    (h : ∀ i ∈ l, ∀ f, (step f i).count k = f.count k) (f : Frames) : (l.foldl step f).count k = f.count k := by
  induction l generalizing f with
  | nil => rfl
  | cons i l ih => exact (ih (fun j hj => h j (List.mem_cons_of_mem i hj)) _).trans (h i List.mem_cons_self f)

private theorem freePage_other {f : Frames} {a k : Nat} (h : alignDown a pageSize / pageSize ≠ k) :
    (freePage f a).count k = f.count k := by
  unfold freePage
  split
  · rfl
  · dsimp only
    split
    · exact Function.update_of_ne (Ne.symm h) _ _
    · exact Function.update_of_ne (Ne.symm h) _ _

private theorem framesUnder_some {m : Mem} {k e g : Nat} (h : userChild k e = some g) :
    framesUnder m k e = g :: framesBelow m k g := by
  unfold framesUnder under
  rw [h]
  rfl

private theorem mem_framesBelow {m : Mem} {k t i g : Nat} (hk : k ≠ 3) (hi : i < 512)
    (h : g ∈ framesUnder m k (ptEntry m t i)) :
    g ∈ framesBelow m (k + 1) t := by
  rw [framesBelow_table m t hk]
  exact List.mem_flatMap.2 ⟨i, List.mem_range.2 hi, h⟩

/-- `free_pdpt` leaves the count of a frame alone that it does not find. -/
private theorem freePdpt_other {m : Mem} {f : Frames} {t k : Nat} (h : ∀ g ∈ framesBelow m 3 t, g / pageSize ≠ k) :
    (freePdpt m f t).count k = f.count k := by
  have halign : ∀ e, alignDown (alignDown e pageSize) pageSize = alignDown e pageSize := fun e =>
    alignDown_of_dvd (alignDown_page_lt e) (pageSize_dvd_alignDown e)
  have hchild : ∀ {n e : Nat}, hasFlag e pageFlagPresent = true →
      ((n = 1 ∨ n = 2) → hasFlag e pageFlagSize = false) → userChild n e = some (alignDown e pageSize) := by
    intro n e hp hs
    rw [userChild_small hs, child, if_pos hp]
  have hpt : ∀ (f : Frames) (t : Nat), (∀ g ∈ framesBelow m 1 t, g / pageSize ≠ k) →
    (freePt m f t).count k = f.count k := by
    intro f t ht
    unfold freePt
    refine foldl_count _ (fun i hi f => ?_) f
    split
    · rename_i hp
      refine freePage_other (ht _ (mem_framesBelow (by decide) (List.mem_range.1 hi) ?_))
      rw [framesUnder_some (hchild hp (by omega))]
      exact List.mem_cons_self
    · rfl
  have hpdt : ∀ (f : Frames) (t : Nat), (∀ g ∈ framesBelow m 2 t, g / pageSize ≠ k) →
      (freePdt m f t).count k = f.count k := by
    intro f t ht
    unfold freePdt
    refine foldl_count _ (fun i hi f => ?_) f
    dsimp only
    split
    · rename_i hp
      have hunder := framesUnder_some (m := m) (hchild (n := 1) hp.1 fun _ => hp.2)
      have hmem : ∀ g ∈ framesUnder m 1 (ptEntry m t i), g / pageSize ≠ k := fun g hg =>
        ht g (mem_framesBelow (by decide) (List.mem_range.1 hi) hg)
      rw [hunder] at hmem
      rw [freePage_other (by rw [halign]; exact hmem _ List.mem_cons_self)]
      exact hpt f _ fun g hg => hmem g (List.mem_cons_of_mem _ hg)
    · rfl
  unfold freePdpt
  refine foldl_count _ (fun i hi f => ?_) f
  dsimp only
  split
  · rename_i hp
    have hunder := framesUnder_some (m := m) (hchild (n := 2) hp.1 fun _ => hp.2)
    have hmem : ∀ g ∈ framesUnder m 2 (ptEntry m t i), g / pageSize ≠ k := fun g hg =>
      h g (mem_framesBelow (by decide) (List.mem_range.1 hi) hg)
    rw [hunder] at hmem
    rw [freePage_other (by rw [halign]; exact hmem _ List.mem_cons_self)]
    exact hpdt f _ fun g hg => hmem g (List.mem_cons_of_mem _ hg)
  · rfl

theorem Built.freePdpt (h : Built c vm r tlp) : (freePdpt vm.mem vm.frames tlp).Wf ∧
    (freePdpt vm.mem vm.frames tlp).count = c := by
  obtain ⟨hwf, hcount⟩ := frees_freePdpt vm.mem tlp vm.frames h.wf
  refine ⟨hwf, funext fun k => ?_⟩
  by_cases hk : k = 0
  · subst hk
    have hzero : hits 0 (framesBelow vm.mem 3 tlp) = 0 := by
      refine List.countP_eq_zero.2 fun g hg => ?_
      simpa using h.frames g hg
    rw [freePdpt_other h.frames, h.counts, hzero, Nat.add_zero]
  · rw [hcount k hk, h.counts, minus, Nat.add_sub_cancel]

theorem Building.freePdpt_table (h : Building c vm r tlp K E) (hu : InUse c r tlp) :
    (freePdpt vm.mem vm.frames tlp).Wf ∧ (freePdpt vm.mem vm.frames tlp).count (tlp / pageSize) ≠ 0 := by
  obtain ⟨hwf, -⟩ := frees_freePdpt vm.mem tlp vm.frames h.wf
  refine ⟨hwf, ?_⟩
  rw [freePdpt_other fun g hg he => ?_, h.counts]
  · have hne := hu.table
    omega
  · obtain ⟨hin, hne⟩ := h.tree.mem_frames.1 hg
    exact hne (page_div_inj (h.tree.inTree_aligned hin) h.tree.aligned he)

end

/-! ### The two tables -/

/-- The allocator after `thread_clone` has taken the frames of the two tables. -/
structure NewTables (f g : Frames) (r tlp : Nat) : Prop where
  wf : g.Wf
  root : r ≠ 0 ∧ pageSize ∣ r ∧ r < 2 ^ 64 ∧ f.count (r / pageSize) = 0
  table : tlp ≠ 0 ∧ pageSize ∣ tlp ∧ tlp < 2 ^ 64 ∧ f.count (tlp / pageSize) = 0
  ne : r / pageSize ≠ tlp / pageSize
  count : g.count = Function.update (Function.update f.count (r / pageSize) 1) (tlp / pageSize) 1
  served : Served f 2 g

def UserFree (m : Mem) (pml4t : Nat) : Prop := ∀ i < 256, child (ptEntry m pml4t i) = none

def UserCounted (m : Mem) (f : Frames) (pml4t : Nat) : Prop :=
  ∀ i < 256, ∀ g, child (ptEntry m pml4t i) = some g → f.count (g / pageSize) ≠ 0

theorem allocPage_table {f : Frames} (hf : f.Wf) (h0 : (allocPage f).2 ≠ 0) : (allocPage f).1.Wf ∧
    pageSize ∣ (allocPage f).2 ∧ (allocPage f).2 < 2 ^ 64 ∧ f.count ((allocPage f).2 / pageSize) = 0 ∧
      (allocPage f).1.count = Function.update f.count ((allocPage f).2 / pageSize) 1 := by
  obtain ⟨hwf, ⟨h1, -⟩ | ⟨hd, hle, hz, hc⟩⟩ := allocPage_spec hf
  · exact absurd h1 h0
  · refine ⟨hwf, hd, ?_, hz, hc⟩
    simp only [pageSize] at hle
    omega

theorem allocPage_none {f : Frames} (hf : f.Wf) (hz : f.count 0 ≠ 0) (h0 : (allocPage f).2 = 0) :
    (allocPage f).1.Wf ∧ (allocPage f).1.count = f.count := by
  obtain ⟨hwf, ⟨-, hc⟩ | ⟨-, -, hfree, -⟩⟩ := allocPage_spec hf
  · exact ⟨hwf, hc⟩
  · rw [h0, Nat.zero_div] at hfree
    exact absurd hfree hz

theorem freePage_allocated {f g : Frames} (hf : f.Wf) (h0 : (allocPage f).2 ≠ 0) (hg : g.Wf)
    (hc : g.count = (allocPage f).1.count) : (freePage g (allocPage f).2).count = f.count := by
  obtain ⟨-, hd, hlt, hz, hca⟩ := allocPage_table hf h0
  rw [(freePage_spec hg h0 (alignDown_of_dvd hlt hd) hd).2, hc, hca, Function.update_self, Function.update_idem]
  rw [Function.update_eq_self_iff]
  exact hz.symm

theorem newTables {f : Frames} (hf : f.Wf) (ha : (allocPage f).2 ≠ 0) (hb : (allocPage (allocPage f).1).2 ≠ 0) :
    NewTables f (allocPage (allocPage f).1).1 (allocPage f).2 (allocPage (allocPage f).1).2 := by
  obtain ⟨hwfa, hda, hlta, hza, hca⟩ := allocPage_table hf ha
  obtain ⟨hwfb, hdb, hltb, hzb, hcb⟩ := allocPage_table hwfa hb
  have hne : (allocPage f).2 / pageSize ≠ (allocPage (allocPage f).1).2 / pageSize := by
    intro he
    rw [hca, ← he, Function.update_self] at hzb
    exact absurd hzb (by decide)
  rw [hca, Function.update_of_ne (Ne.symm hne)] at hzb
  exact ⟨hwfb, ⟨ha, hda, hlta, hza⟩, ⟨hb, hdb, hltb, hzb⟩,
    hne, by rw [hcb, hca], ((Served.start f).alloc ha).alloc hb⟩

private theorem refUser_zero (m : Mem) (f : Frames) (pml4t i : Nat) :
    (refUser m f pml4t).count i = 0 ↔ f.count i = 0 := by
  obtain ⟨c, he, hc⟩ := sameSearch_refUser m f pml4t
  rw [he]
  exact hc i

private theorem refUser_free {m : Mem} {pml4t : Nat} (h : UserFree m pml4t) (f : Frames) : refUser m f pml4t = f := by
  have hloop : ∀ l : List Nat, (∀ i ∈ l, i < 256) → l.foldl (fun f i =>
      let e := ptEntry m pml4t i
      if hasFlag e pageFlagPresent then refPdpt m (refPage f e) (alignDown e pageSize) else f) f = f := by
    intro l
    induction l with
    | nil => exact fun _ => rfl
    | cons i l ih =>
      intro hl
      have habs : ¬hasFlag (ptEntry m pml4t i) pageFlagPresent = true := fun hp => by
        have h0 := h i (hl i List.mem_cons_self)
        rw [child, if_pos hp] at h0
        cases h0
      rw [List.foldl_cons]
      dsimp only
      rw [if_neg habs]
      exact ih fun j hj => hl j (List.mem_cons_of_mem i hj)
  exact hloop (List.range 256) fun i hi => List.mem_range.1 hi

private theorem refUser_more {m : Mem} {f : Frames} {pml4t i g : Nat} (hf : f.Wf) (hi : i < 256)
    (hg : child (ptEntry m pml4t i) = some g) (hc : f.count (g / pageSize) ≠ 0) :
    f.count (g / pageSize) < (refUser m f pml4t).count (g / pageSize) := by
  have hchild : userChild 3 (ptEntry m pml4t i) = some g := by
    rw [userChild_small (by omega), hg]
  have hmem : g ∈ framesBelow m 4 pml4t := by
    rw [framesBelow_root]
    refine List.mem_flatMap.2 ⟨i, List.mem_range.2 hi, ?_⟩
    rw [framesUnder_some hchild]
    exact List.mem_cons_self
  have hpos := hits_pos hmem
  rw [(adds_refUser m pml4t f hf).2 _ trivial, plus, if_neg hc]
  omega

section

variable {f g k : Frames} {m : Mem} {r tlp parent : Nat} (h : NewTables f g r tlp)
include h

private theorem NewTables.count_of {i : Nat} (hi : f.count i ≠ 0) : g.count i = f.count i := by
  have h1 : i ≠ tlp / pageSize := fun he => hi (he ▸ h.table.2.2.2)
  have h2 : i ≠ r / pageSize := fun he => hi (he ▸ h.root.2.2.2)
  rw [h.count, Function.update_of_ne h1, Function.update_of_ne h2]

theorem NewTables.inUse (h0 : f.count 0 ≠ 0) : InUse (refUser m g parent).count r tlp := by
  refine ⟨?_, ?_, ?_⟩ <;> rw [ne_eq, refUser_zero]
  · rwa [h.count_of h0]
  · rw [h.count, Function.update_of_ne h.ne, Function.update_self]
    decide
  · rw [h.count, Function.update_self]
    decide

theorem NewTables.trampoline {st : Nat} (hlt : st < 2 ^ 64) (hnz : st / pageSize ≠ 0)
    (hc : f.count (st / pageSize) ≠ 0) : TrampolineFrame (refUser m g parent).count r tlp st := by
  have hdiv := alignDown_div_pageSize hlt
  refine ⟨hlt, hnz, ?_, fun he => ?_, fun he => ?_⟩
  · rw [ne_eq, refUser_zero, h.count_of hc]
    exact hc
  · rw [← hdiv, he] at hc
    exact hc h.root.2.2.2
  · rw [← hdiv, he] at hc
    exact hc h.table.2.2.2

/-- When the two tables have been given back, only the references to the user half are left. -/
theorem NewTables.restored_iff (hk : k.Wf) (hc : k.count = (refUser m g parent).count) (hu : UserCounted m f parent) :
    (freePage (freePage k tlp) r).count = f.count ↔ UserFree m parent := by
  obtain ⟨hr0, hrd, hrlt, hrz⟩ := h.root
  obtain ⟨ht0, htd, htlt, htz⟩ := h.table
  obtain ⟨hwf, hcount⟩ := freePage_spec hk ht0 (alignDown_of_dvd htlt htd) htd
  obtain ⟨-, hcount'⟩ := freePage_spec hwf hr0 (alignDown_of_dvd hrlt hrd) hrd
  rw [hcount', hcount]
  constructor
  · intro hall i hi
    by_contra hne
    obtain ⟨a, ha⟩ := Option.ne_none_iff_exists'.1 hne
    have hca := hu i hi a ha
    have hga := h.count_of hca
    have h1 : a / pageSize ≠ r / pageSize := fun he => hca (he ▸ hrz)
    have h2 : a / pageSize ≠ tlp / pageSize := fun he => hca (he ▸ htz)
    have hsame := congrFun hall (a / pageSize)
    have hmore := refUser_more h.wf hi ha (by rwa [hga])
    rw [Function.update_of_ne h1, Function.update_of_ne h2, hc] at hsame
    omega
  · intro hfree
    rw [refUser_free hfree, h.count] at hc
    rw [hc]
    funext i
    by_cases hir : i = r / pageSize
    · rw [hir, Function.update_self, Function.update_of_ne h.ne, Function.update_of_ne h.ne,
        Function.update_self, hrz]
    · rw [Function.update_of_ne hir]
      by_cases hit : i = tlp / pageSize
      · rw [hit, Function.update_self, Function.update_self, htz]
      · rw [Function.update_of_ne hit, Function.update_of_ne hit, Function.update_of_ne hir]

end

end Pml.Arch
