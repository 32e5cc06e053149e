import Pml.Arch.Unmapping
import Pml.Kernel.Mman

/-!
# The table of mappings

A table is well formed if its regions are page-aligned, not empty, below the top of user memory, and in order without
overlaps.  On such a table `clear_mappings` clips each region on its own (`clearMappings_table`).  The calls keep the
table well formed unless a size wraps, `sys_mmap` puts a region on others, or `expand_mmap` is used against its
documentation (`mmaps_wf`).
-/

namespace Pml.Kernel

open Arch ByteMemory Machine

/-- A region of whole pages in user memory. -/
structure Region.Wf (r : Region) : Prop where
  base : pageSize ∣ r.base
  len : pageSize ∣ r.len
  pos : 0 < r.len
  top : r.base + r.len ≤ userMemTopVma

/-- The regions are in order and do not overlap. -/
structure MmapsWf (t : List Region) : Prop where
  region : ∀ r ∈ t, r.Wf
  order : t.Pairwise fun a b => a.base + a.len ≤ b.base

theorem Region.Wf.stop {r : Region} (h : r.Wf) : r.stop = r.base + r.len := by
  have h1 := h.top
  exact add64_of_lt (by simp only [userMemTopVma] at h1; omega)

theorem MmapsWf.nil : MmapsWf [] := ⟨by simp, List.Pairwise.nil⟩

section

variable {t : List Region} (h : MmapsWf t)
include h

theorem MmapsWf.sublist {t' : List Region} (hs : t'.Sublist t) : MmapsWf t' :=
  ⟨fun r hr => h.region r (hs.subset hr), h.order.sublist hs⟩

theorem MmapsWf.before {l l' : List Region} (ht : t = l ++ l') {a b : Region} (ha : a ∈ l) (hb : b ∈ l') :
    a.base + a.len ≤ b.base := by
  have ho := h.order
  rw [ht, List.pairwise_append] at ho
  exact ho.2.2 a ha b hb

theorem MmapsWf.split (x : Nat) : (∀ r ∈ t.take (t.findIdx fun r => x ≤ r.base), r.base < x) ∧
    ∀ r ∈ t.drop (t.findIdx fun r => x ≤ r.base), x ≤ r.base := by
  induction t with
  | nil => simp
  | cons a t ih =>
    have ht := h.sublist (List.sublist_cons_self a t)
    have ha := (List.pairwise_cons.1 h.order).1
    rw [List.findIdx_cons]
    by_cases hx : x ≤ a.base
    · simp only [hx, decide_true, cond_true, List.take_zero, List.drop_zero]
      refine ⟨by simp, fun r hr => ?_⟩
      rcases List.mem_cons.1 hr with rfl | hr
      · exact hx
      · have := ha r hr
        omega
    · simp only [hx, decide_false, cond_false, List.take_succ_cons, List.drop_succ_cons]
      refine ⟨fun r hr => ?_, (ih ht).2⟩
      rcases List.mem_cons.1 hr with rfl | hr
      · omega
      · exact (ih ht).1 r hr

end

/-! ### Clearing -/

def Region.upTo (r : Region) (ptr : Nat) : Region := if ptr < r.stop then { r with len := sub64 ptr r.base } else r

/-- What `clear_mappings` leaves of a region for the range from `ptr` to `e`. -/
def clip (ptr e : Nat) (r : Region) : Option Region :=
  if r.base < ptr then some (r.upTo ptr)
  else if r.stop ≤ e then none
  else if r.base < e then some (r.from e)
  else some r

/-- The pages of a region that `clear_mappings` unmaps. -/
def cut (ptr e : Nat) (r : Region) : List Nat :=
  if r.base < ptr then []
  else if r.stop ≤ e then pages r.base r.stop
  else if r.base < e then pages r.base e
  else []

theorem Region.Wf.upTo {r : Region} (h : r.Wf) {ptr : Nat} (hd : pageSize ∣ ptr) (hp : r.base < ptr) :
    (r.upTo ptr).Wf ∧ (r.upTo ptr).base = r.base ∧ (r.upTo ptr).base + (r.upTo ptr).len ≤ r.base + r.len ∧
      (r.upTo ptr).base + (r.upTo ptr).len ≤ ptr := by
  have htop := h.top
  unfold Region.upTo
  rw [h.stop]
  split
  · have hs : sub64 ptr r.base = ptr - r.base :=
      sub64_of_le (Nat.le_of_lt hp) (by simp only [userMemTopVma] at htop; omega)
    rw [hs]
    refine ⟨⟨h.base, Nat.dvd_sub hd h.base, ?_, ?_⟩, rfl, ?_, ?_⟩
    all_goals
      simp only
      omega
  · exact ⟨h, rfl, Nat.le_refl _, by omega⟩

theorem Region.Wf.from {r : Region} (h : r.Wf) {e : Nat} (hd : pageSize ∣ e) (h1 : r.base < e)
    (h2 : e < r.base + r.len) :
    (r.from e).Wf ∧ (r.from e).base = e ∧ (r.from e).base + (r.from e).len = r.base + r.len := by
  have htop := h.top
  simp only [userMemTopVma] at htop
  have hs : sub64 e r.base = e - r.base := sub64_of_le (Nat.le_of_lt h1) (by omega)
  have hl : sub64 r.len (e - r.base) = r.len - (e - r.base) := sub64_of_le (by omega) (by omega)
  unfold Region.from
  simp only [hs, hl]
  refine ⟨⟨hd, Nat.dvd_sub h.len (Nat.dvd_sub hd h.base), ?_, ?_⟩, trivial, ?_⟩
  · simp only
    omega
  · simp only [userMemTopVma]
    omega
  · omega

theorem clip_wf {r r' : Region} (h : r.Wf) {ptr e : Nat} (hp : pageSize ∣ ptr) (he : pageSize ∣ e)
    (hc : clip ptr e r = some r') : r'.Wf ∧ r.base ≤ r'.base ∧ r'.base + r'.len ≤ r.base + r.len := by
  unfold clip at hc
  rw [h.stop] at hc
  split at hc
  · rename_i hlt
    obtain rfl := Option.some.inj hc
    obtain ⟨h1, h2, h3, -⟩ := h.upTo hp hlt
    exact ⟨h1, by omega, h3⟩
  · split at hc
    · exact absurd hc (by simp)
    · split at hc
      · obtain rfl := Option.some.inj hc
        obtain ⟨h1, h2, h3⟩ := h.from he (by omega) (by omega)
        exact ⟨h1, by omega, by omega⟩
      · obtain rfl := Option.some.inj hc
        exact ⟨h, Nat.le_refl _, Nat.le_refl _⟩

theorem MmapsWf.clip {t : List Region} (h : MmapsWf t) {ptr e : Nat} (hp : pageSize ∣ ptr) (he : pageSize ∣ e) :
    MmapsWf (t.filterMap (clip ptr e)) := by
  refine ⟨fun r' hr' => ?_, ?_⟩
  · obtain ⟨r, hr, hc⟩ := List.mem_filterMap.1 hr'
    exact (clip_wf (h.region r hr) hp he hc).1
  · refine List.pairwise_filterMap.2 (h.order.imp_of_mem fun {a b} ha hb hab a' ha' b' hb' => ?_)
    have h1 := (clip_wf (h.region a ha) hp he ha').2.2
    have h2 := (clip_wf (h.region b hb) hp he hb').2.1
    omega

/-! ### The loops of `clear_mappings` -/

theorem mem_pages {lo hi v : Nat} : v ∈ pages lo hi ↔ ∃ i, v = lo + pageSize * i ∧ v < hi := by
  unfold pages
  rw [List.mem_range']
  by_cases hlt : lo < hi
  · rw [if_pos hlt]
    simp only [Nat.lt_succ_iff, Nat.le_div_iff_mul_le (show 0 < pageSize by decide)]
    simp only [pageSize]
    constructor
    · rintro ⟨i, hi', rfl⟩
      exact ⟨i, rfl, by omega⟩
    · rintro ⟨i, rfl, hi'⟩
      exact ⟨i, by omega, rfl⟩
  · rw [if_neg hlt]
    constructor
    · rintro ⟨i, hi', -⟩
      exact absurd hi' (Nat.not_lt_zero i)
    · rintro ⟨i, rfl, hi'⟩
      exact absurd hi' (by omega)

theorem pages_self (x : Nat) : pages x x = [] := by
  unfold pages
  rw [if_neg (Nat.lt_irrefl x)]
  rfl

theorem vmUnmapPage_user (m : Mem) (pml4t : Nat) {v : Nat} (hv : v < 2 ^ 47) : (vmUnmapPage m pml4t v).2 = true := by
  unfold vmUnmapPage
  rw [if_neg (canonical_user hv)]
  simp only
  repeat' split
  all_goals rfl

theorem unmapPages_user (pml4t : Nat) (vm : Vm) {vs : List Nat} (h : ∀ v ∈ vs, v < 2 ^ 47) :
    (unmapPages pml4t vm vs).2 = none := by
  induction vs generalizing vm with
  | nil => rfl
  | cons v vs ih =>
    have hok := vmUnmapPage_user vm.mem pml4t (h v (by simp))
    simp only [unmapPages, hok, Bool.true_eq_false, ↓reduceIte]
    exact ih _ fun w hw => h w (List.mem_cons_of_mem v hw)

private theorem unmapPages_append (pml4t : Nat) (vm : Vm) {vs ws : List Nat} (h : ∀ v ∈ vs, v < 2 ^ 47) :
    (unmapPages pml4t vm (vs ++ ws)) = unmapPages pml4t (unmapPages pml4t vm vs).1 ws := by
  induction vs generalizing vm with
  | nil => rfl
  | cons v vs ih =>
    have hok := vmUnmapPage_user vm.mem pml4t (h v (by simp))
    simp only [List.cons_append, unmapPages, hok, Bool.true_eq_false, ↓reduceIte]
    exact ih _ fun w hw => h w (List.mem_cons_of_mem v hw)

section

variable {s : MmState} (h : MmapsWf s.mmaps) {ptr : Nat}
include h

private theorem truncateBefore_eq (hp : ptr < 2 ^ 64) : truncateBefore s ptr =
    ({ s with mmaps := (s.mmaps.take (s.mmaps.findIdx fun r => ptr ≤ r.base)).map (·.upTo ptr) ++
        s.mmaps.drop (s.mmaps.findIdx fun r => ptr ≤ r.base) }, none) := by
  have hsplit := (h.split ptr).1
  unfold truncateBefore findRegionBefore regionAt
  generalize hn : s.mmaps.findIdx (fun r => ptr ≤ r.base) = n at hsplit
  cases n with
  | zero => simp
  | succ k =>
    have hlt : k < s.mmaps.length := by
      have : (s.mmaps.findIdx fun r => ptr ≤ r.base) ≤ s.mmaps.length := List.findIdx_le_length
      omega
    have hk : ((k + 1 : Nat) : Int) - 1 = k := by omega
    have hneg : ¬(k : Int) < 0 := by omega
    simp only [hk, hneg, ↓reduceIte, Int.toNat_natCast, List.getElem?_eq_getElem hlt]
    have htake : s.mmaps.take (k + 1) = s.mmaps.take k ++ [s.mmaps[k]] := List.take_succ_eq_append_getElem hlt
    have hbase : (s.mmaps[k]).base < ptr := by
      refine hsplit _ ?_
      rw [htake]
      exact List.mem_append_right _ (List.mem_singleton.2 rfl)
    -- the regions before it end below its base
    have hfirst : (s.mmaps.take k).map (·.upTo ptr) = s.mmaps.take k := by
      refine (List.map_congr_left fun r hr => ?_).trans (List.map_id _)
      have hr' := h.region r (List.mem_of_mem_take hr)
      have hdrop : s.mmaps[k] ∈ s.mmaps.drop k := by
        rw [List.drop_eq_getElem_cons hlt]
        exact List.mem_cons_self
      have hend := h.before (List.take_append_drop k s.mmaps).symm hr hdrop
      rw [Region.upTo, if_neg (by rw [hr'.stop]; omega), id]
    rw [htake, List.map_append, hfirst, List.map_singleton]
    have hlast : s.mmaps.set k ((s.mmaps[k]).upTo ptr) =
        s.mmaps.take k ++ [(s.mmaps[k]).upTo ptr] ++ s.mmaps.drop (k + 1) := by
      rw [List.set_eq_take_append_cons_drop, if_pos hlt, List.append_assoc, List.singleton_append]
    rw [← hlast]
    by_cases hreach : ptr < (s.mmaps[k]).stop
    · have hup : (s.mmaps[k]).upTo ptr = { s.mmaps[k] with len := sub64 ptr (s.mmaps[k]).base } := if_pos hreach
      have hstop : Region.stop { s.mmaps[k] with len := sub64 ptr (s.mmaps[k]).base } = ptr := by
        simp only [Region.stop, sub64_of_le (Nat.le_of_lt hbase) hp]
        rw [add64_of_lt (by omega)]
        omega
      rw [if_pos hreach, hup, hstop, pages_self]
      rfl
    · have hup : (s.mmaps[k]).upTo ptr = s.mmaps[k] := if_neg hreach
      rw [if_neg hreach, hup, List.set_getElem_self]

omit h in
/-- What the second loop of `clear_mappings` does: it unmaps the pages of the range and clips the regions. -/
private theorem clearRest_eq {pml4t e : Nat} {vm : Vm} {files : Files} {fds : FdTable} {l : List Region} {c : Cleared}
    (hl : MmapsWf l) (hptr : ∀ r ∈ l, ptr ≤ r.base) (hc : clearRest pml4t e vm files fds l = some c) :
    c.err = none ∧ c.rest = l.filterMap (clip ptr e) ∧ c.vm = (unmapPages pml4t vm (l.flatMap (cut ptr e))).1 := by
  induction l generalizing vm files fds c with
  | nil =>
    obtain rfl := Option.some.inj hc
    exact ⟨rfl, rfl, rfl⟩
  | cons r l ih =>
    have hr := hl.region r (by simp)
    have htop := hr.top
    have hl' := hl.sublist (List.sublist_cons_self r l)
    have hptr' : ∀ r' ∈ l, ptr ≤ r'.base := fun r' hr' => hptr r' (List.mem_cons_of_mem r hr')
    have hge : ¬r.base < ptr := by
      have := hptr r (by simp)
      omega
    have huser : ∀ x, x ≤ r.stop → ∀ v ∈ pages r.base x, v < 2 ^ 47 := by
      intro x hx v hv
      obtain ⟨-, -, hlt⟩ := mem_pages.1 hv
      rw [hr.stop] at hx
      simp only [userMemTopVma] at htop
      omega
    unfold clearRest at hc
    by_cases h1 : r.stop ≤ e
    · have hclip : clip ptr e r = none := by rw [clip, if_neg hge, if_pos h1]
      have hcut : cut ptr e r = pages r.base r.stop := by rw [cut, if_neg hge, if_pos h1]
      have hok := unmapPages_user pml4t vm (huser r.stop (Nat.le_refl _))
      rw [if_pos h1] at hc
      rw [List.filterMap_cons_none hclip, List.flatMap_cons, hcut,
        unmapPages_append pml4t vm (huser r.stop (Nat.le_refl _))]
      rcases hu : unmapPages pml4t vm (pages r.base r.stop) with ⟨vm', err⟩
      rw [hu] at hc hok
      simp only at hok
      subst hok
      simp only at hc
      split at hc
      · exact ih hl' hptr' hc
      · split at hc
        · exact absurd hc (by simp)
        · exact ih hl' hptr' hc
    · rw [if_neg h1] at hc
      by_cases h2 : r.base < e
      · have hclip : clip ptr e r = some (r.from e) := by rw [clip, if_neg hge, if_neg h1, if_pos h2]
        have hcut : cut ptr e r = pages r.base e := by rw [cut, if_neg hge, if_neg h1, if_pos h2]
        have hu' := huser e (Nat.le_of_not_le h1)
        have hok := unmapPages_user pml4t vm hu'
        rw [if_pos h2] at hc
        rw [List.filterMap_cons_some hclip, List.flatMap_cons, hcut, unmapPages_append pml4t vm hu']
        rcases hu : unmapPages pml4t vm (pages r.base e) with ⟨vm', err⟩
        rw [hu] at hc hok
        simp only at hok
        subst hok
        obtain ⟨c', hc', rfl⟩ := Option.map_eq_some_iff.1 hc
        obtain ⟨h3, h4, h5⟩ := ih hl' hptr' hc'
        exact ⟨h3, by rw [← h4], h5⟩
      · -- the regions that follow are behind the range
        have hrest : ∀ r' ∈ r :: l, clip ptr e r' = some r' ∧ cut ptr e r' = [] := by
          intro r' hr'
          have hr2 := hl.region r' hr'
          have hbase : e ≤ r'.base := by
            rcases List.mem_cons.1 hr' with rfl | hr'
            · omega
            · have := (List.pairwise_cons.1 hl.order).1 r' hr'
              omega
          have hlt : ¬r'.base < ptr := by
            have := hptr r' hr'
            omega
          have hpos := hr2.pos
          have h3 : ¬r'.stop ≤ e := by
            rw [hr2.stop]
            omega
          exact ⟨by rw [clip, if_neg hlt, if_neg h3, if_neg (by omega)],
            by rw [cut, if_neg hlt, if_neg h3, if_neg (by omega)]⟩
        rw [if_neg h2] at hc
        obtain rfl := Option.some.inj hc
        have hid : (r :: l).filterMap (clip ptr e) = r :: l := by
          rw [List.filterMap_congr fun r' hr' => (hrest r' hr').1, List.filterMap_some]
        have hnil : (r :: l).flatMap (cut ptr e) = [] := List.flatMap_eq_nil_iff.2 fun r' hr' => (hrest r' hr').2
        rw [hid, hnil]
        exact ⟨rfl, rfl, rfl⟩

/-- `clear_mappings` clips every region and unmaps the pages that this removes, or fails before it starts. -/
theorem clearMappings_table (hp : ptr < 2 ^ 64) {env : MmapEnv} {len : Nat} {sync : Bool} {s' : MmState}
    {err : Option Errno} (hc : clearMappings env s ptr len sync = some (s', err)) : (err ≠ none ∧ s' = s) ∨
      (err = none ∧ s'.mmaps = s.mmaps.filterMap (clip ptr (add64 ptr len)) ∧
        s'.vm = (unmapPages s.pml4t s.vm (s.mmaps.flatMap (cut ptr (add64 ptr len)))).1 ∧ s'.pml4t = s.pml4t) := by
  unfold clearMappings at hc
  split at hc
  · obtain ⟨rfl, rfl⟩ := Prod.mk.inj (Option.some.inj hc)
    exact Or.inl ⟨by simp, rfl⟩
  obtain ⟨hbefore, hafter⟩ := h.split ptr
  have hn : (findRegionBefore s.mmaps ptr + 1).toNat = s.mmaps.findIdx fun r => ptr ≤ r.base := by
    unfold findRegionBefore
    omega
  have hle : (s.mmaps.findIdx fun r => ptr ≤ r.base) ≤ s.mmaps.length := List.findIdx_le_length
  simp only [truncateBefore_eq h hp, hn] at hc
  generalize s.mmaps.findIdx (fun r => ptr ≤ r.base) = n at hbefore hafter hc hle
  have hlen : ((s.mmaps.take n).map (·.upTo ptr)).length = n := by
    rw [List.length_map, List.length_take]
    omega
  rw [List.take_left' hlen, List.drop_left' hlen] at hc
  obtain ⟨c, hc', heq⟩ := Option.map_eq_some_iff.1 hc
  obtain ⟨rfl, rfl⟩ := Prod.mk.inj heq
  obtain ⟨h1, h2, h3⟩ := clearRest_eq (h.sublist (List.drop_sublist n _)) hafter hc'
  -- the regions before the range are truncated, and none of their pages is unmapped
  have hclip : (s.mmaps.take n).filterMap (clip ptr (add64 ptr len)) = (s.mmaps.take n).map (·.upTo ptr) := by
    rw [← List.filterMap_eq_map]
    exact List.filterMap_congr fun r hr => if_pos (hbefore r hr)
  have hcut : (s.mmaps.take n).flatMap (cut ptr (add64 ptr len)) = [] :=
    List.flatMap_eq_nil_iff.2 fun r hr => if_pos (hbefore r hr)
  refine Or.inr ⟨h1, ?_, ?_, rfl⟩
  · conv_rhs => rw [← List.take_append_drop n s.mmaps, List.filterMap_append, hclip]
    rw [← h2]
  · conv_rhs => rw [← List.take_append_drop n s.mmaps, List.flatMap_append, hcut, List.nil_append]
    exact h3

end

/-! ### Placing a region -/

theorem insertIdx_eq {t : List Region} {ri : Nat} (h : ri ≤ t.length) (r : Region) :
    t.insertIdx ri r = t.take ri ++ r :: t.drop ri := by
  induction ri generalizing t with
  | zero => rfl
  | succ ri ih =>
    cases t with
    | nil => exact absurd h (by simp)
    | cons a t =>
      rw [List.insertIdx_succ_cons, ih (by simpa using h), List.take_succ_cons, List.drop_succ_cons, List.cons_append]

/-- A new region fits between the regions before and from an index on. -/
structure RegionFits (t : List Region) (base ri len : Nat) : Prop where
  index : ri ≤ t.length
  aligned : pageSize ∣ base
  wrap : base + len < 2 ^ 64
  before : ∀ a ∈ t.take ri, a.base + a.len ≤ base
  after : ∀ b ∈ t.drop ri, base + len ≤ b.base

theorem MmapsWf.insert {t : List Region} (h : MmapsWf t) {ri : Nat} {r : Region} (hr : r.Wf)
    (hf : RegionFits t r.base ri r.len) : MmapsWf (t.insertIdx ri r) := by
  rw [insertIdx_eq hf.index]
  refine ⟨fun a ha => ?_, ?_⟩
  · rcases List.mem_append.1 ha with ha | ha
    · exact h.region a (List.mem_of_mem_take ha)
    · rcases List.mem_cons.1 ha with rfl | ha
      · exact hr
      · exact h.region a (List.mem_of_mem_drop ha)
  · refine List.pairwise_append.2 ⟨h.order.sublist (List.take_sublist ri t), List.pairwise_cons.2 ⟨hf.after, ?_⟩, ?_⟩
    · exact h.order.sublist (List.drop_sublist ri t)
    · intro a ha b hb
      rcases List.mem_cons.1 hb with rfl | hb
      · exact hf.before a ha
      · exact h.before (List.take_append_drop ri t).symm ha hb

theorem findGap_spec (len : Nat) {l : List Region} (hne : l ≠ []) (ri : Nat) :
    ∃ a r b, l = a ++ r :: b ∧ findGap len l ri = (r.stop, ri + a.length) ∧
      ∀ next ∈ b.head?, len ≤ sub64 next.base r.stop := by
  induction l generalizing ri with
  | nil => exact absurd rfl hne
  | cons r l ih =>
    cases l with
    | nil => exact ⟨[], r, [], rfl, rfl, by simp⟩
    | cons next l =>
      unfold findGap
      by_cases hgap : len ≤ sub64 next.base r.stop
      · rw [if_pos hgap]
        refine ⟨[], r, next :: l, rfl, rfl, fun x hx => ?_⟩
        obtain rfl := Option.some.inj hx
        exact hgap
      · rw [if_neg hgap]
        obtain ⟨a, r', b, h1, h2, h3⟩ := ih (by simp) (ri + 1)
        refine ⟨r :: a, r', b, by rw [h1]; rfl, ?_, h3⟩
        rw [h2, List.length_cons, Nat.add_right_comm, Nat.add_assoc]

def NoWrap (base len : Nat) : Prop := add64 base len < userMemTopVma → base + len < 2 ^ 64

def RangeFree (t : List Region) (base len : Nat) : Prop :=
  base + len < userMemTopVma → ∀ r ∈ t, r.base + r.len ≤ base ∨ base + len ≤ r.base

/-- Where the code does not use the first gap behind a region below the requested address, the range is free.  The end
of the range does not wrap. -/
def Placeable (t : List Region) (hint len : Nat) : Prop :=
  if ∀ r ∈ t, hint < r.base then NoWrap hint len ∧ RangeFree t hint len else ∀ r ∈ t.getLast?, NoWrap r.stop len

theorem placeRegion_fits {t : List Region} (h : MmapsWf t) {hint len : Nat} (hd : pageSize ∣ hint)
    (hp : Placeable t hint len) (hend : add64 (placeRegion t hint len).1 len < userMemTopVma) :
    RegionFits t (placeRegion t hint len).1 (placeRegion t hint len).2 len := by
  unfold Placeable at hp
  unfold placeRegion findRegionBeforeEqual at *
  by_cases hall : ∀ r ∈ t, hint < r.base
  · -- the region goes to the start of the table
    rw [if_pos hall] at hp
    have hidx : t.findIdx (fun r => hint < r.base) = 0 := by
      cases t with
      | nil => rfl
      | cons r t => simp [List.findIdx_cons, hall r (by simp)]
    simp only [hidx, Int.natCast_zero, Int.zero_sub, show (-1 : Int) < 0 by decide, ↓reduceIte] at hend ⊢
    have hwrap := hp.1 hend
    rw [add64_of_lt hwrap] at hend
    refine ⟨Nat.zero_le _, hd, hwrap, by simp, fun b hb => ?_⟩
    rw [List.drop_zero] at hb
    have h1 := hall b hb
    have h2 := hp.2 hend b hb
    omega
  · rw [if_neg hall] at hp
    obtain ⟨n, hidx⟩ : ∃ n, t.findIdx (fun r => hint < r.base) = n + 1 := by
      refine Nat.exists_eq_succ_of_ne_zero fun h0 => hall fun r hr => ?_
      cases t with
      | nil => simp at hr
      | cons x t =>
        have hx : hint < x.base := by
          by_contra hx
          simp [List.findIdx_cons, hx] at h0
        rcases List.mem_cons.1 hr with rfl | hr
        · exact hx
        · have := (List.pairwise_cons.1 h.order).1 r hr
          omega
    have hle : (t.findIdx fun r => hint < r.base) ≤ t.length := List.findIdx_le_length
    rw [hidx] at hle
    have hneg : ¬((n + 1 : Nat) : Int) - 1 < 0 := by omega
    have hn : (((n + 1 : Nat) : Int) - 1).toNat = n := by omega
    have hne : t.drop n ≠ [] := by
      rw [Ne, List.drop_eq_nil_iff]
      omega
    obtain ⟨a, r, b, hab, hgap, hnext⟩ := findGap_spec len hne n
    simp only [hidx, hneg, hn, hgap, ↓reduceIte] at hend ⊢
    obtain ⟨f, hfn, hsplit⟩ : ∃ f, f.length = n ∧ t = f ++ a ++ [r] ++ b := by
      refine ⟨t.take n, by rw [List.length_take]; omega, ?_⟩
      conv_lhs => rw [← List.take_append_drop n t, hab]
      simp
    have hlen : (f ++ a ++ [r]).length = n + a.length + 1 := by
      rw [List.length_append, List.length_append, hfn, List.length_singleton]
    have hr : r.Wf := h.region r (by rw [hsplit]; simp)
    have htop := hr.top
    simp only [userMemTopVma] at htop hend
    rw [hr.stop] at hend ⊢
    -- the gap is large enough, or the region is the last one
    have hafter : ∀ x ∈ b, r.base + r.len + len ≤ x.base := by
      intro x hx
      cases b with
      | nil => simp at hx
      | cons y b =>
        have hy : y.Wf := h.region y (by rw [hsplit]; simp)
        have h1 := hnext y rfl
        have h2 := h.before hsplit (a := r) (b := y) (by simp) (by simp)
        have htop' := hy.top
        simp only [userMemTopVma] at htop'
        rw [hr.stop, sub64_of_le h2 (by omega)] at h1
        rcases List.mem_cons.1 hx with rfl | hx
        · omega
        · have h3 := h.before (show t = f ++ a ++ [r] ++ [y] ++ b by rw [hsplit]; simp) (show y ∈ _ by simp) hx
          omega
    have hwrap : r.base + r.len + len < 2 ^ 64 := by
      cases b with
      | nil =>
        have h1 := hp r (by rw [hsplit]; simp)
        rw [hr.stop] at h1
        exact h1 hend
      | cons y b =>
        have hy : y.Wf := h.region y (by rw [hsplit]; simp)
        have htop' := hy.top
        have h1 := hafter y (by simp)
        simp only [userMemTopVma] at htop'
        omega
    refine ⟨?_, Nat.dvd_add hr.base hr.len, hwrap, ?_, ?_⟩
    · rw [hsplit, List.length_append, hlen]
      omega
    · intro x hx
      rw [hsplit, ← hlen, List.take_left' rfl] at hx
      rcases List.mem_append.1 hx with hx | hx
      · have h1 := h.before (show t = f ++ a ++ r :: b by rw [hsplit]; simp) hx List.mem_cons_self
        omega
      · rw [List.mem_singleton.1 hx]
    · intro x hx
      rw [hsplit, ← hlen, List.drop_left' rfl] at hx
      exact hafter x hx

private theorem fits_of_free {t : List Region} (h : MmapsWf t) {base len : Nat} (hd : pageSize ∣ base)
    (hw : base + len < 2 ^ 64) (hfree : ∀ r ∈ t, r.base + r.len ≤ base ∨ base + len ≤ r.base) (hlen : 0 < len) :
    RegionFits t base (findRegionBefore t base + 1).toNat len := by
  have hn : (findRegionBefore t base + 1).toNat = t.findIdx fun r => base ≤ r.base := by
    unfold findRegionBefore
    omega
  obtain ⟨h1, h2⟩ := h.split base
  rw [hn]
  refine ⟨List.findIdx_le_length, hd, hw, fun r hr => ?_, fun r hr => ?_⟩
  · have h3 := h1 r hr
    have h4 := hfree r (List.mem_of_mem_take hr)
    omega
  · have h3 := h2 r hr
    have h4 := hfree r (List.mem_of_mem_drop hr)
    have h5 := (h.region r (List.mem_of_mem_drop hr)).pos
    omega

private theorem clip_apart {r r' : Region} (h : r.Wf) {ptr e : Nat} (hp : pageSize ∣ ptr) (he : pageSize ∣ e)
    (hc : clip ptr e r = some r') : r'.base + r'.len ≤ ptr ∨ e ≤ r'.base := by
  unfold clip at hc
  rw [h.stop] at hc
  split at hc
  · rename_i hlt
    obtain rfl := Option.some.inj hc
    exact Or.inl (h.upTo hp hlt).2.2.2
  · split at hc
    · exact absurd hc (by simp)
    · split at hc
      · obtain rfl := Option.some.inj hc
        have h1 := (h.from he (by omega) (by omega)).2.1
        omega
      · obtain rfl := Option.some.inj hc
        omega

section

variable {env : MmapEnv} {s : MmState} {base ri len prot : Nat} {file : Option Nat} {fd : Int} {offset flags : Nat}

/-- `sys_mmap` fails after the choice of the address, or inserts the region. -/
theorem mapRegion_cases {s' : MmState} {res : Except Errno Nat}
    (h : mapRegion env s base ri len prot file fd offset flags = (s', res)) : s'.fds = s.fds ∧
      ((s'.mmaps = s.mmaps ∧ s'.files = s.files) ∨ (add64 base len < userMemTopVma ∧
        s'.mmaps = s.mmaps.insertIdx ri ⟨base, len, prot, file, fd, offset, flags⟩ ∧
        s'.files = file.elim s.files s.files.ref)) := by
  unfold mapRegion at h
  simp only at h
  generalize (if prot ≠ 0 then pageFlagUser else 0) ||| (if prot &&& protWrite ≠ 0 then pageFlagRw else 0) =
    pflags at h
  split at h
  · cases h
    exact ⟨rfl, Or.inl ⟨rfl, rfl⟩⟩
  rename_i htop
  split at h
  · cases h
    exact ⟨rfl, Or.inl ⟨rfl, rfl⟩⟩
  split at h
  · cases h
    exact ⟨rfl, Or.inl ⟨rfl, rfl⟩⟩
  split at h
  · cases h
    exact ⟨rfl, Or.inl ⟨rfl, rfl⟩⟩
  · cases h
    refine ⟨rfl, Or.inr ⟨by omega, rfl, ?_⟩⟩
    cases file with
    | none => rfl
    | some i => rfl

private theorem mapRegion_wf (h : MmapsWf s.mmaps) (hd : pageSize ∣ len) (hlen : 0 < len)
    (hf : add64 base len < userMemTopVma → RegionFits s.mmaps base ri len) :
    MmapsWf (mapRegion env s base ri len prot file fd offset flags).1.mmaps := by
  rcases hr : mapRegion env s base ri len prot file fd offset flags with ⟨s', res⟩
  obtain ⟨-, ⟨h1, -⟩ | ⟨htop, h1, -⟩⟩ := mapRegion_cases hr
  · simp only [h1]
    exact h
  · have hfit := hf htop
    rw [add64_of_lt hfit.wrap] at htop
    simp only [h1]
    exact h.insert ⟨hfit.aligned, hd, hlen, Nat.le_of_lt htop⟩ hfit

end

/-! ### Runs -/

abbrev Word : Type := Fin (2 ^ 64)

instance neZero_words : NeZero (2 ^ 64) := ⟨by decide⟩

/-- The calls on the table of mappings. -/
inductive MmInput where
  | mmap (env : MmapEnv) (addr len : Word) (prot flags : Nat) (fd : Int) (offset : Nat)
  | munmap (env : MmapEnv) (addr len : Word)
  | expand (pml4t : Nat) (addr len : Word)

def mmStep (s : MmState) : MmInput → Option MmState
  | .mmap env addr len prot flags fd offset => (sysMmap env s addr len prot flags fd offset).map (·.1)
  | .munmap env addr len => (sysMunmap env s addr len).map (·.1)
  | .expand pml4t addr len => some (expandMmap s pml4t addr len).1

/-- `ALIGN_UP` of the length does not wrap, and the new region does not wrap and is not put on other regions: at a
fixed address this can happen for a null address, where the code clears the wrong range. -/
def MmapSafe (t : List Region) (addr len flags : Nat) : Prop :=
  len ≤ 2 ^ 64 - pageSize ∧
    if flags &&& mapFixed ≠ 0 then
      NoWrap (if addr ≠ 0 then addr else userMmapBaseVma) (alignUp len pageSize) ∧
        (addr = 0 → RangeFree t userMmapBaseVma (alignUp len pageSize))
    else Placeable t (if addr ≠ 0 then addr else userMmapBaseVma) (alignUp len pageSize)

def ExpandSafe (t : List Region) (addr len : Nat) : Prop :=
  ∀ a r b, t = a ++ r :: b → r.base ≤ addr → (∀ x ∈ b, addr < x.base) →
    0 < alignUp len pageSize ∧ r.base + alignUp len pageSize ≤ userMemTopVma ∧
      ∀ x ∈ b, r.base + alignUp len pageSize ≤ x.base

/-- The condition on a call, in the state before it. -/
def MmSafe (s : MmState) : MmInput → Prop
  | .mmap env addr len prot flags fd offset =>
    ∀ file, checkMmap env s len prot flags fd offset = some (.ok file) → MmapSafe s.mmaps addr len flags
  | .munmap _ _ _ => True
  | .expand _ addr len => ExpandSafe s.mmaps addr len

theorem and_page (x : Nat) : x &&& (pageSize - 1) = x % pageSize := Nat.and_two_pow_sub_one_eq_mod x 12

theorem dvd_add64 {a b : Nat} (ha : pageSize ∣ a) (hb : pageSize ∣ b) : pageSize ∣ add64 a b := by
  unfold add64
  exact (Nat.dvd_mod_iff (by decide)).2 (Nat.dvd_add ha hb)

theorem dvd_alignUp_page {len : Nat} (h0 : len ≠ 0) (hl : len < 2 ^ 64) : pageSize ∣ alignUp len pageSize :=
  dvd_alignUp (k := 12) (by omega) hl (by decide)

theorem alignUp_page_zero : alignUp 0 pageSize = 0 := by decide

theorem alignUp_page_pos {len : Nat} (h0 : len ≠ 0) (hl : len ≤ 2 ^ 64 - pageSize) : 0 < alignUp len pageSize := by
  simp only [pageSize] at hl
  have h1 := alignUp_two_pow (x := len) (k := 12) (by omega) (by omega)
  have e : pageSize = 2 ^ 12 := rfl
  rw [e, h1]
  omega

theorem checkMmap_len {env : MmapEnv} {s : MmState} {len prot flags : Nat} {fd : Int} {offset : Nat}
    {file : Option Nat} (h : checkMmap env s len prot flags fd offset = some (.ok file)) : len ≠ 0 := by
  rintro rfl
  unfold checkMmap at h
  simp only [↓reduceIte] at h
  split at h
  · simp at h
  · split at h
    · simp at h
    · split at h
      · simp at h
      · repeat' split at h
        all_goals simp at h

private theorem expandRegion_cases (s : MmState) (pml4t ri : Nat) (r : Region) (len : Nat) :
    (expandRegion s pml4t ri r len).1.mmaps = s.mmaps ∨
      (expandRegion s pml4t ri r len).1.mmaps = s.mmaps.set ri { r with len := len } := by
  unfold expandRegion
  split
  · exact Or.inl rfl
  · exact Or.inr rfl

private theorem expandMmap_wf {s : MmState} (h : MmapsWf s.mmaps) {pml4t addr len : Nat} (hl : len < 2 ^ 64)
    (hsafe : ExpandSafe s.mmaps addr len) : MmapsWf (expandMmap s pml4t addr len).1.mmaps := by
  unfold expandMmap findRegionBeforeEqual regionAt
  have hle : (s.mmaps.findIdx fun r => addr < r.base) ≤ s.mmaps.length := List.findIdx_le_length
  have hafter : ∀ r ∈ s.mmaps.drop (s.mmaps.findIdx fun r => addr < r.base), addr < r.base := (h.split (addr + 1)).2
  have hbefore : ∀ r ∈ s.mmaps.take (s.mmaps.findIdx fun r => addr < r.base), r.base < addr + 1 :=
    (h.split (addr + 1)).1
  generalize s.mmaps.findIdx (fun r => addr < r.base) = n at hle hafter hbefore
  cases n with
  | zero => exact h
  | succ k =>
    have hlt : k < s.mmaps.length := by omega
    have hk : ((k + 1 : Nat) : Int) - 1 = k := by omega
    have hneg : ¬(k : Int) < 0 := by omega
    simp only [hk, hneg, ↓reduceIte, Int.toNat_natCast, List.getElem?_eq_getElem hlt]
    have hsplit : s.mmaps = s.mmaps.take k ++ s.mmaps[k] :: s.mmaps.drop (k + 1) := by
      conv_lhs => rw [← List.take_append_drop k s.mmaps, List.drop_eq_getElem_cons hlt]
    have hbase : (s.mmaps[k]).base ≤ addr := by
      refine Nat.lt_succ_iff.1 (hbefore _ ?_)
      rw [List.take_succ_eq_append_getElem hlt]
      exact List.mem_append_right _ (List.mem_singleton.2 rfl)
    obtain ⟨hpos, htop, hnext⟩ := hsafe _ _ _ hsplit hbase hafter
    have hd : pageSize ∣ alignUp len pageSize := by
      refine dvd_alignUp_page ?_ hl
      rintro rfl
      rw [alignUp_page_zero] at hpos
      exact absurd hpos (Nat.lt_irrefl 0)
    generalize alignUp len pageSize = size at *
    rcases expandRegion_cases s pml4t k s.mmaps[k] size with h1 | h1
    · rw [h1]
      exact h
    have hr := h.region _ (List.getElem_mem hlt)
    rw [h1, List.set_eq_take_append_cons_drop, if_pos hlt]
    have ho := h.order
    rw [hsplit, List.pairwise_append, List.pairwise_cons] at ho
    refine ⟨fun r hr' => ?_, List.pairwise_append.2 ⟨ho.1, List.pairwise_cons.2 ⟨hnext, ho.2.1.2⟩, ?_⟩⟩
    · rcases List.mem_append.1 hr' with hr' | hr'
      · exact h.region r (List.mem_of_mem_take hr')
      · rcases List.mem_cons.1 hr' with rfl | hr'
        · exact ⟨hr.base, hd, hpos, htop⟩
        · exact h.region r (List.mem_of_mem_drop hr')
    · intro a ha b hb
      rcases List.mem_cons.1 hb with rfl | hb
      · exact ho.2.2 a ha s.mmaps[k] List.mem_cons_self
      · exact ho.2.2 a ha b (List.mem_cons_of_mem _ hb)

private theorem clearMappings_wf {env : MmapEnv} {s s' : MmState} {ptr len : Nat} {sync : Bool} {err : Option Errno}
    (h : MmapsWf s.mmaps) (hp : ptr < 2 ^ 64) (hd : pageSize ∣ ptr) (hdl : pageSize ∣ len)
    (hc : clearMappings env s ptr len sync = some (s', err)) : MmapsWf s'.mmaps := by
  rcases clearMappings_table h hp hc with ⟨-, rfl⟩ | ⟨-, ht, -⟩
  · exact h
  · rw [ht]
    exact h.clip hd (dvd_add64 hd hdl)

private theorem sysMunmap_wf {env : MmapEnv} {s s' : MmState} {addr len : Nat} {err : Option Errno}
    (h : MmapsWf s.mmaps)
    (ha : addr < 2 ^ 64) (hc : sysMunmap env s addr len = some (s', err)) : MmapsWf s'.mmaps := by
  unfold sysMunmap at hc
  rw [and_page, and_page] at hc
  split at hc
  · cases hc
    exact h
  · rename_i halign
    exact clearMappings_wf h ha (Nat.dvd_of_mod_eq_zero (by omega)) (Nat.dvd_of_mod_eq_zero (by omega)) hc

private theorem sysMmap_wf {env : MmapEnv} {s s' : MmState} {addr len prot flags : Nat} {fd : Int} {offset : Nat}
    {res : Except Errno Nat} (h : MmapsWf s.mmaps) (ha : addr < 2 ^ 64)
    (hsafe : ∀ file, checkMmap env s len prot flags fd offset = some (.ok file) → MmapSafe s.mmaps addr len flags)
    (hc : sysMmap env s addr len prot flags fd offset = some (s', res)) : MmapsWf s'.mmaps := by
  unfold sysMmap at hc
  split at hc
  · exact absurd hc (by simp)
  · cases hc
    exact h
  rename_i file hcheck
  obtain ⟨hlen, hplace⟩ := hsafe file hcheck
  have h0 := checkMmap_len hcheck
  have hdl : pageSize ∣ alignUp len pageSize := dvd_alignUp_page h0 (by simp only [pageSize] at hlen; omega)
  have hpos := alignUp_page_pos h0 hlen
  simp only [and_page] at hc
  generalize alignUp len pageSize = size at *
  split at hc
  · cases hc
    exact h
  rename_i halign
  have hda : pageSize ∣ addr := Nat.dvd_of_mod_eq_zero (by omega)
  have hdb : pageSize ∣ if addr ≠ 0 then addr else userMmapBaseVma := by
    split
    · exact hda
    · decide
  generalize hbase : (if addr ≠ 0 then addr else userMmapBaseVma) = base at *
  split at hc
  · rename_i hfix
    rw [if_pos hfix] at hplace
    split at hc
    · exact absurd hc (by simp)
    · rename_i s1 err hclear
      cases hc
      exact clearMappings_wf h ha hda hdl hclear
    · rename_i s1 hclear
      have hwf1 := clearMappings_wf h ha hda hdl hclear
      obtain rfl := congrArg Prod.fst (Option.some.inj hc)
      refine mapRegion_wf hwf1 hdl hpos fun hend => ?_
      have hwrap := hplace.1 hend
      refine fits_of_free hwf1 hdb hwrap (fun r' hr' => ?_) hpos
      obtain ⟨-, ht, -⟩ := (clearMappings_table h ha hclear).resolve_left fun h => h.1 rfl
      rw [ht] at hr'
      obtain ⟨r, hr, hclip⟩ := List.mem_filterMap.1 hr'
      by_cases hnull : addr = 0
      · -- the range at the default address was free before
        rw [if_neg (by simpa using hnull)] at hbase
        subst hbase
        rw [add64_of_lt hwrap] at hend
        have h1 := hplace.2 hnull hend r hr
        have h2 := clip_wf (h.region r hr) hda (dvd_add64 hda hdl) hclip
        omega
      · rw [if_pos hnull] at hbase
        subst hbase
        have h1 := clip_apart (h.region r hr) hda (dvd_add64 hda hdl) hclip
        rw [add64_of_lt hwrap] at h1
        exact h1
  · rename_i hfix
    rw [if_neg hfix] at hplace
    obtain rfl := congrArg Prod.fst (Option.some.inj hc)
    exact mapRegion_wf h hdl hpos fun hend => placeRegion_fits h hdb hplace hend

private theorem mmStep_wf {s s' : MmState} {i : MmInput} (h : MmapsWf s.mmaps) (hsafe : MmSafe s i)
    (hstep : mmStep s i = some s') : MmapsWf s'.mmaps := by
  cases i with
  | mmap env addr len prot flags fd offset =>
    obtain ⟨⟨s1, res⟩, hc, rfl⟩ := Option.map_eq_some_iff.1 hstep
    exact sysMmap_wf h addr.isLt hsafe hc
  | munmap env addr len =>
    obtain ⟨⟨s1, err⟩, hc, rfl⟩ := Option.map_eq_some_iff.1 hstep
    exact sysMunmap_wf h addr.isLt hc
  | expand pml4t addr len =>
    obtain rfl := Option.some.inj hstep
    exact expandMmap_wf h len.isLt hsafe

/-- From an empty table on, calls that meet their condition keep the table well formed. -/
theorem mmaps_wf {is : List MmInput} {s s' : MmState} (h0 : s.mmaps = []) (hm : Meets mmStep MmSafe is s)
    (hrun : Machine.run mmStep is s = some s') : MmapsWf s'.mmaps := by
  refine Meets.invariant (P := fun s => MmapsWf s.mmaps) (fun s i s' h hC hs => mmStep_wf h hC hs) ?_ hm hrun
  rw [h0]
  exact MmapsWf.nil

def emptyMm : MmState := ⟨smallVm, noFiles, initFds, [], 0x1000⟩

def anonEnv : MmapEnv := ⟨fun _ => true, fun _ => 0, fun _ _ _ _ => none, .ok [], true⟩

def anonymous (len : Word) : MmInput := .mmap anonEnv 0 len protRead (mapPrivate ||| mapAnonymous) (-1) 0

private theorem run_anonymous (len : Word) (hlen : (len : Nat) ≠ 0) : Machine.run mmStep [anonymous len] emptyMm =
    some (mapRegion anonEnv emptyMm userMmapBaseVma 0 (alignUp len pageSize) protRead none (-1) 0
      (mapPrivate ||| mapAnonymous)).1 := by
  have hcheck : checkMmap anonEnv emptyMm len protRead (mapPrivate ||| mapAnonymous) (-1) 0 = some (.ok none) := by
    unfold checkMmap
    rw [if_pos (by decide), if_neg hlen, if_neg (by decide)]
  have hfix : ¬(mapPrivate ||| mapAnonymous) &&& mapFixed ≠ 0 := by decide
  have hplace : ∀ size, placeRegion [] userMmapBaseVma size = (userMmapBaseVma, 0) := fun _ => rfl
  have hcall : sysMmap anonEnv emptyMm ((0 : Word) : Nat) len protRead (mapPrivate ||| mapAnonymous) (-1) 0 =
      some (mapRegion anonEnv emptyMm userMmapBaseVma 0 (alignUp len pageSize) protRead none (-1) 0
        (mapPrivate ||| mapAnonymous)) := by
    unfold sysMmap
    rw [hcheck]
    simp only [hfix, Fin.val_zero, Nat.zero_and, ne_eq, not_true_eq_false, ↓reduceIte, emptyMm, hplace]
  rw [Machine.run, anonymous, mmStep, hcall]
  rfl

/-- Two pages are mapped one behind the other, and the first one is unmapped. -/
theorem mmaps_wf_twoPages : ∃ s', Machine.run mmStep
    [anonymous 0x1000, anonymous 0x1000, .munmap anonEnv 0x400000000000 0x1000] emptyMm = some s' ∧
    MmapsWf s'.mmaps := by
  have hsafe : MmSafe emptyMm (anonymous 0x1000) := by
    intro file _
    refine ⟨by decide, ?_⟩
    rw [if_neg (by decide), Placeable, if_pos (by simp [emptyMm])]
    exact ⟨fun _ => by decide, fun _ r hr => by simp [emptyMm] at hr⟩
  have hfirst : (mmStep emptyMm (anonymous 0x1000)).map (·.mmaps) =
      some [⟨userMmapBaseVma, 0x1000, protRead, none, -1, 0, mapPrivate ||| mapAnonymous⟩] := by
    decide +kernel
  have hmeets :
    Meets mmStep MmSafe [anonymous 0x1000, anonymous 0x1000, .munmap anonEnv 0x400000000000 0x1000] emptyMm := by
    refine ⟨hsafe, fun s1 h1 => ⟨fun file _ => ⟨by decide, ?_⟩, fun _ _ => ⟨trivial, fun _ _ => trivial⟩⟩⟩
    rw [h1, Option.map_some] at hfirst
    rw [if_neg (by decide), Placeable, Option.some.inj hfirst, if_neg (by decide)]
    exact fun r hr => by
      cases hr
      exact fun _ => by decide
  have hsome : (Machine.run mmStep [anonymous 0x1000, anonymous 0x1000, .munmap anonEnv 0x400000000000 0x1000]
      emptyMm).isSome = true := by
    decide +kernel
  obtain ⟨s', hrun⟩ := Option.isSome_iff_exists.1 hsome
  exact ⟨s', hrun, mmaps_wf rfl hmeets hrun⟩

/-- A length that wraps to zero makes an empty region. -/
theorem not_mmaps_wf : emptyMm.mmaps = [] ∧
    ∃ s', Machine.run mmStep [anonymous 0xffffffffffffffff] emptyMm = some s' ∧ ¬MmapsWf s'.mmaps := by
  have hzero : alignUp (0xffffffffffffffff : Word) pageSize = 0 := by decide
  have hrun := run_anonymous 0xffffffffffffffff (by decide)
  rw [hzero] at hrun
  refine ⟨rfl, _, hrun, fun h => ?_⟩
  have hmem : (⟨userMmapBaseVma, 0, protRead, none, -1, 0, mapPrivate ||| mapAnonymous⟩ : Region) ∈
      (mapRegion anonEnv emptyMm userMmapBaseVma 0 0 protRead none (-1) 0 (mapPrivate ||| mapAnonymous)).1.mmaps := by
    decide
  exact absurd (h.region _ hmem).pos (by decide)

end Pml.Kernel
