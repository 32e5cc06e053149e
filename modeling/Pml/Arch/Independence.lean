import Pml.Arch.Translation
import Pml.Arch.Unmapping

/-!
# Mapping in one address space and translations of another

After forks the address spaces share page tables, and `vm_map_page` and `vm_unmap_page` write the last table of the
walk in place.  They write one entry of a table on the way of the address, and new tables.  So the translations of
another address space stay if it reaches no table of the walk; if it reaches one then it goes through the same entry,
and they stay only if the write does not change what the entry leads to (`mapping_independent_iff`).
-/

namespace Pml.Arch

open ByteMemory Radix

/-! ### New tables -/

def OneEntry (f : Frames) (m m' : Mem) (t i : Nat) : Prop :=
  ∀ g j, pageSize ∣ g → f.count (g / pageSize) ≠ 0 → j < 512 → ¬(g = t ∧ j = i) → ptEntry m' g j = ptEntry m g j

section

variable {vm : Vm} {t i flags : Nat} (hwf : vm.frames.Wf) (ht : pageSize ∣ t)
  (hused : vm.frames.count (t / pageSize) ≠ 0) (hi : i < 512) (hf : flags < pageSize)
  (habsent : child (ptEntry vm.mem t i) = none)

private theorem setEntry_oneEntry {f : Frames} {m : Mem} {t i : Nat} (ht : pageSize ∣ t) (hi : i < 512) (e : Nat) :
    OneEntry f m (setEntry m t i e) t i := fun _ _ hg _ hj hne => ptEntry_setEntry_of_ne ht hg hi hj hne

include habsent

private theorem makeTable_full (h0 : (allocPage vm.frames).2 = 0) :
    makeTable vm t i flags = (⟨setEntry vm.mem t i 0, (allocPage vm.frames).1⟩, false) := by
  have hpres : ¬hasFlag (ptEntry vm.mem t i) pageFlagPresent = true := fun h => by simp [child, h] at habsent
  unfold makeTable
  rw [if_neg hpres]
  simp only [h0, ↓reduceIte]

include hwf ht hused hi hf

/-- A new table has no entries, and no other entry of a page in use changes. -/
private theorem makeTable_new {n : Nat} (hn : (allocPage vm.frames).2 = n) (h0 : n ≠ 0) :
    ∃ m, makeTable vm t i flags = (⟨m, (allocPage vm.frames).1⟩, true) ∧ OneEntry vm.frames vm.mem m t i ∧
      ptEntry m t i = newEntry n flags ∧ (∀ j, j < 512 → ptEntry m n j = 0) ∧ pageSize ∣ n ∧ n < 2 ^ 64 ∧ n ≠ t ∧
      (allocPage vm.frames).1.Wf ∧ (allocPage vm.frames).1.count = Function.update vm.frames.count (n / pageSize) 1 ∧
      vm.frames.count (n / pageSize) = 0 := by
  have hpres : ¬hasFlag (ptEntry vm.mem t i) pageFlagPresent = true := fun h => by simp [child, h] at habsent
  obtain ⟨hwf', halloc⟩ := allocPage_spec hwf
  obtain ⟨hd, hle, hz, hc⟩ := halloc.resolve_left fun h => h0 (hn ▸ h.1)
  rw [hn] at hd hle hz hc
  have hn64 : n < 2 ^ 64 := by
    simp only [pageSize] at hle
    omega
  have hne : n ≠ t := fun h => hused (h ▸ hz)
  have hap := page_apart ht hd (Ne.symm hne)
  have hfill : ∀ x, x < n ∨ n + pageSize ≤ x →
      fill (setEntry vm.mem t i n) n pageSize 0 x = setEntry vm.mem t i n x := fun x hx => fill_outside hx
  have hent : ptEntry (fill (setEntry vm.mem t i n) n pageSize 0) t i = n := by
    rw [ptEntry_congr hi fun x h1 h2 => hfill x (by omega), ptEntry_setEntry_self hn64]
  refine ⟨setEntry (fill (setEntry vm.mem t i n) n pageSize 0) t i (newEntry n flags), ?_,
    fun g j hg hgu hj hgj => ?_,
    ptEntry_setEntry_self (newEntry_spec hn64 hd hf).1, fun j hj => ?_, hd, hn64, hne, hwf', hc, hz⟩
  · unfold makeTable
    rw [if_neg hpres]
    simp only [hn, if_neg h0, hent]
    rfl
  · have hgn : g ≠ n := fun h => hgu (h ▸ hz)
    have hap' := page_apart hg hd hgn
    rw [ptEntry_setEntry_of_ne ht hg hi hj hgj, ptEntry_congr hj fun x h1 h2 => hfill x (by omega),
      ptEntry_setEntry_of_ne ht hg hi hj hgj]
  · rw [ptEntry_setEntry_of_ne ht hd hi hj fun h => hne h.1]
    exact readLE_fill_zero (by omega) (by simp only [pageSize]; omega)

end

/-! ### `vm_map_page` level by level -/

/-- `vm_map_page` from the table `t` of level `n` on, with the indices that are left. -/
def mapFrom (physAddr flags : Nat) : Nat → List Nat → Nat → Vm → Vm × Bool
  | _, [], _, vm => (vm, true)
  | n, i :: rest, t, vm =>
    if rest = [] then
      ({ vm with mem := setEntry vm.mem t i (alignDown physAddr pageSize ||| pageFlagPresent ||| flags) }, true)
    else
      let s := makeTable vm t i flags
      if s.2 = false then s
      else if n ≠ 0 ∧ hasFlag (ptEntry s.1.mem t i) pageFlagSize then (s.1, false)
      else mapFrom physAddr flags (n + 1) rest (alignDown (ptEntry s.1.mem t i) pageSize) s.1

private theorem vmMapPage_mapFrom (vm : Vm) (r physAddr flags : Nat) {v : Nat} (hv : v < 2 ^ 47) :
    vmMapPage vm r physAddr v flags = mapFrom physAddr flags 0 (userPath v) r vm := by
  unfold vmMapPage
  rw [if_neg (canonical_user hv)]
  have hne : ∀ (i : Nat) (s : List Nat), (i :: s = []) = False := fun i s => by simp
  simp only [userPath, mapFrom, hne, ↓reduceIte, Nat.zero_add, Nat.reduceAdd, ne_eq, not_true_eq_false, false_and,
    one_ne_zero, not_false_eq_true, true_and, OfNat.ofNat_ne_zero]

/-- There are frames for `k` missing tables.  With `PAGE_FLAG_SIZE` the first of them ends the walk. -/
def Room (flags : Nat) : Nat → Frames → Prop
  | 0, _ => True
  | k + 1, f => (allocPage f).2 ≠ 0 ∧ (hasFlag flags pageFlagSize = false → Room flags k (allocPage f).1)

def pageEntryOf (physAddr flags : Nat) : Nat := alignDown physAddr pageSize ||| pageFlagPresent ||| flags

private theorem pageEntryOf_spec (physAddr : Nat) {flags : Nat} (hf : flags < pageSize) :
    pageEntryOf physAddr flags < 2 ^ 64 ∧ hasFlag (pageEntryOf physAddr flags) pageFlagPresent = true ∧
      alignDown (pageEntryOf physAddr flags) pageSize = alignDown physAddr pageSize :=
  presentEntry (alignDown_page_lt physAddr) (pageSize_dvd_alignDown _) hf

section

variable {vm : Vm} {t i n flags : Nat} {rest : List Nat} (physAddr : Nat) (hwf : vm.frames.Wf) (ht : pageSize ∣ t)
  (hused : vm.frames.count (t / pageSize) ≠ 0) (hlt : ∀ j ∈ i :: rest, j < 512) (hf : flags < pageSize)
  (habsent : child (ptEntry vm.mem t i) = none)
include hwf ht hused hlt hf habsent

private theorem mapFrom_keeps : OneEntry vm.frames vm.mem (mapFrom physAddr flags n (i :: rest) t vm).1.mem t i := by
  induction rest generalizing vm t i n with
  | nil => exact setEntry_oneEntry ht (hlt i (by simp)) _
  | cons k rest ih =>
    have hi : i < 512 := hlt i (by simp)
    rw [mapFrom, if_neg (by simp)]
    by_cases h0 : (allocPage vm.frames).2 = 0
    · simp only [makeTable_full habsent h0, ↓reduceIte]
      exact setEntry_oneEntry ht hi 0
    obtain ⟨m, hs, hone, hent, hzero, hd, hn64, -, hwf', hc, hz⟩ := makeTable_new hwf ht hused hi hf habsent rfl h0
    simp only [hs, Bool.true_eq_false, ↓reduceIte, hent, (newEntry_spec hn64 hd hf).2.2.2]
    split
    · exact hone
    intro g j hg hgu hj hgj
    have hgn : g ≠ (allocPage vm.frames).2 := fun h => hgu (h ▸ hz)
    have hu : (allocPage vm.frames).1.count (g / pageSize) ≠ 0 := by
      have := allocPage_le hwf (g / pageSize)
      omega
    have hself : (allocPage vm.frames).1.count ((allocPage vm.frames).2 / pageSize) ≠ 0 := by
      rw [hc, Function.update_self]
      decide
    rw [ih (show (Vm.mk m (allocPage vm.frames).1).frames.Wf from hwf') hd hself
      (fun j hj => hlt j (List.mem_cons_of_mem _ hj))
      (by rw [hzero k (hlt k (by simp)), child_zero]) g j hg hu hj fun h => hgn h.1]
    exact hone g j hg hgu hj hgj

/-- The way of the indices through the new tables ends in the new entry. -/
private theorem mapFrom_final (hn : n + rest.length = 3) (hroom : Room flags rest.length vm.frames)
    (hsize : n ≠ 0 ∨ hasFlag flags pageFlagSize = false) : ∃ fin, hasFlag fin.2 pageFlagPresent = true ∧
      LevelWalk.final (ptEntry (mapFrom physAddr flags n (i :: rest) t vm).1.mem) tableOf n t (i :: rest) = some fin ∧
      (hasFlag flags pageFlagSize = false → fin = (3, pageEntryOf physAddr flags)) := by
  induction rest generalizing vm t i n with
  | nil =>
    obtain rfl : n = 3 := hn
    obtain ⟨he, hp, -⟩ := pageEntryOf_spec physAddr hf
    refine ⟨(3, pageEntryOf physAddr flags), hp, ?_, fun _ => rfl⟩
    have hent : ptEntry (setEntry vm.mem t i (pageEntryOf physAddr flags)) t i = pageEntryOf physAddr flags :=
      ptEntry_setEntry_self he
    show LevelWalk.final (ptEntry (setEntry vm.mem t i (pageEntryOf physAddr flags))) tableOf 3 t [i] = _
    rw [LevelWalk.final, hent, tableOf_last, Option.elim_none]
  | cons k rest ih =>
    have hi : i < 512 := hlt i (by simp)
    have hkeep := mapFrom_keeps (n := n) physAddr hwf ht hused hlt hf habsent
    obtain ⟨h0, hmore⟩ := hroom
    obtain ⟨m, hs, hone, hent, hzero, hd, hn64, hne, hwf', hc, hz⟩ := makeTable_new hwf ht hused hi hf habsent rfl h0
    obtain ⟨-, hp, hsz, had⟩ := newEntry_spec hn64 hd hf
    rw [mapFrom, if_neg (by simp)]
    simp only [hs, Bool.true_eq_false, ↓reduceIte, hent, had, hsz]
    cases hbig : hasFlag flags pageFlagSize with
    | true =>
      have hn0 : n ≠ 0 := hsize.resolve_right (by simp [hbig])
      rw [if_pos ⟨hn0, rfl⟩]
      refine ⟨(n, newEntry (allocPage vm.frames).2 flags), hp, ?_, fun h => absurd h (by simp)⟩
      rw [LevelWalk.final, hent, tableOf_size hn0 (by rw [hsz, hbig]), Option.elim_none]
    | false =>
      have hself : (allocPage vm.frames).1.count ((allocPage vm.frames).2 / pageSize) ≠ 0 := by
        rw [hc, Function.update_self]
        decide
      have hlt' : ∀ j ∈ k :: rest, j < 512 := fun j hj => hlt j (List.mem_cons_of_mem _ hj)
      have hchild : child (ptEntry m (allocPage vm.frames).2 k) = none := by
        rw [hzero k (hlt' k (by simp)), child_zero]
      rw [if_neg (by simp)]
      obtain ⟨fin, h1, h2, h3⟩ :=
        ih (n := n + 1) (show (Vm.mk m (allocPage vm.frames).1).frames.Wf from hwf') hd hself hlt' hchild
        (by simp only [List.length_cons] at hn; omega) (hmore hbig) (Or.inl (by omega))
      have htop : ptEntry (mapFrom physAddr flags (n + 1) (k :: rest) (allocPage vm.frames).2
          ⟨m, (allocPage vm.frames).1⟩).1.mem t i = newEntry (allocPage vm.frames).2 flags := by
        have hu : (allocPage vm.frames).1.count (t / pageSize) ≠ 0 := by
          have := allocPage_le hwf (t / pageSize)
          omega
        rw [mapFrom_keeps physAddr (show (Vm.mk m (allocPage vm.frames).1).frames.Wf from hwf') hd hself hlt' hf
          hchild t i ht hu hi
          fun h => hne h.1.symm, hent]
      refine ⟨fin, h1, ?_, fun _ => h3 hbig⟩
      rw [LevelWalk.final, htop, tableOf_some hp (by simp only [List.length_cons] at hn; omega)
        (Or.inr (by rw [hsz, hbig])), had, Option.elim_some]
      exact h2

private theorem mapFrom_dead (hn : n + rest.length = 3) (hn0 : n ≠ 0) (hroom : ¬Room flags rest.length vm.frames)
    (w : Nat) {rest' : List Nat} (hlen : rest'.length = rest.length) (hlt' : ∀ j ∈ rest', j < 512) :
    (LevelWalk.final (ptEntry (mapFrom physAddr flags n (i :: rest) t vm).1.mem) tableOf n t (i :: rest')).elim 0
      (pageAddr w) = 0 := by
  have hzero : hasFlag 0 pageFlagPresent = false := by decide
  -- a table whose entry is zero ends the way
  have hend : ∀ (m : Mem) (n t j : Nat) (s : List Nat), ptEntry m t j = 0 →
      (LevelWalk.final (ptEntry m) tableOf n t (j :: s)).elim 0 (pageAddr w) = 0 := by
    intro m n t j s hj
    rw [LevelWalk.final, hj, tableOf_absent hzero, Option.elim_none, Option.elim_some, pageAddr, if_pos hzero]
  induction rest generalizing vm t i n rest' with
  | nil => exact absurd trivial hroom
  | cons k rest ih =>
    have hi : i < 512 := hlt i (by simp)
    rw [mapFrom, if_neg (by simp)]
    by_cases h0 : (allocPage vm.frames).2 = 0
    · simp only [makeTable_full habsent h0, ↓reduceIte]
      exact hend _ _ _ _ _ (ptEntry_setEntry_self (by decide))
    have hmore : hasFlag flags pageFlagSize = false ∧ ¬Room flags rest.length (allocPage vm.frames).1 := by
      by_contra h
      exact hroom ⟨h0, fun hs => by_contra fun hr => h ⟨hs, hr⟩⟩
    obtain ⟨m, hs, hone, hent, hz0, hd, hn64, hne, hwf', hc, hz⟩ := makeTable_new hwf ht hused hi hf habsent rfl h0
    obtain ⟨-, hp, hsz, had⟩ := newEntry_spec hn64 hd hf
    have hself : (allocPage vm.frames).1.count ((allocPage vm.frames).2 / pageSize) ≠ 0 := by
      rw [hc, Function.update_self]
      decide
    have hltk : ∀ j ∈ k :: rest, j < 512 := fun j hj => hlt j (List.mem_cons_of_mem _ hj)
    have hchild : child (ptEntry m (allocPage vm.frames).2 k) = none := by rw [hz0 k (hltk k (by simp)), child_zero]
    have hkeep := mapFrom_keeps (n := n + 1) physAddr (show (Vm.mk m (allocPage vm.frames).1).frames.Wf from hwf') hd
      hself hltk hf hchild
    have htop : ptEntry (mapFrom physAddr flags (n + 1) (k :: rest) (allocPage vm.frames).2
        ⟨m, (allocPage vm.frames).1⟩).1.mem t i = newEntry (allocPage vm.frames).2 flags := by
      have hu : (allocPage vm.frames).1.count (t / pageSize) ≠ 0 := by
        have := allocPage_le hwf (t / pageSize)
        omega
      rw [hkeep t i ht hu hi fun h => hne h.1.symm, hent]
    simp only [hs, Bool.true_eq_false, ↓reduceIte, hent, had, hsz, hmore.1, Bool.false_eq_true, and_false]
    obtain ⟨j, rest', rfl⟩ := List.exists_cons_of_length_pos (l := rest') (by rw [hlen]; simp)
    rw [LevelWalk.final, htop, tableOf_some hp (by simp only [List.length_cons] at hn; omega)
      (Or.inr (by rw [hsz, hmore.1])), had, Option.elim_some]
    by_cases hj : j = k
    · subst hj
      exact ih (n := n + 1) (show (Vm.mk m (allocPage vm.frames).1).frames.Wf from hwf') hd hself hltk hchild
        (by simp only [List.length_cons] at hn; omega) (by omega) hmore.2 (by simpa using hlen)
        fun x hx => hlt' x (List.mem_cons_of_mem _ hx)
    · refine hend _ _ _ _ _ ?_
      rw [hkeep _ j hd hself (hlt' j (by simp)) fun h => hj h.2, hz0 j (hlt' j (by simp))]

end

/-! ### The tables of an address space -/

private theorem pageAddr_odd {w : Nat} (hw : w.testBit 0 = true) {fin : Nat × Nat}
    (hp : hasFlag fin.2 pageFlagPresent = true) :
    pageAddr w fin ≠ 0 := by
  intro h
  have hspan : (spanOf fin.1 - 1).testBit 0 = true := by
    unfold spanOf
    split
    · decide
    split
    · decide
    · decide
  have h0 := congrArg (fun x => x.testBit 0) h
  simp only [pageAddr, if_neg (show ¬hasFlag fin.2 pageFlagPresent = false by simp [hp]), Nat.testBit_or,
    Nat.testBit_and, hw, hspan, Bool.and_self, Bool.or_true, Nat.zero_testBit, Bool.true_eq_false] at h0

private theorem exists_odd (v : UserAddr) : ∃ w : UserAddr, userPath w = userPath v ∧ (w : Nat).testBit 0 = true := by
  have hv := v.isLt
  refine ⟨⟨v / pageSize * pageSize + 1, by simp only [pageSize]; omega⟩, ?_, ?_⟩
  · rw [userPath_eq, userPath_eq]
    simp only [pageSize, List.cons.injEq, and_true]
    omega
  · simp only [Nat.testBit_zero, pageSize, decide_eq_true_eq]
    omega

section

variable {vm : Vm} {roots : List Nat} (hs : Sharing vm roots) {r : Nat} (hr : r ∈ roots)
include hs hr

theorem Sharing.pageTree : PageTree vm.mem r :=
  ⟨(hs.root r hr).1, fun p _ => hs.apart r hr r hr p, fun p p' f _ _ => hs.unique r hr r hr p p' f, hs.small r hr⟩

private theorem Sharing.visited_used {q s : List Nat} {i g : Nat} (hp : UserPath (q ++ i :: s))
    (hq : walk (ptEntry vm.mem) child r q = some g) : pageSize ∣ g ∧ vm.frames.count (g / pageSize) ≠ 0 := by
  refine ⟨hs.visited_aligned hr hp hq, ?_⟩
  rcases visited hp hq with ⟨-, rfl⟩ | h
  · exact (hs.root _ hr).2
  · have h1 := users_pos hr h
    have h2 := hs.counted g
    omega

private theorem Sharing.visited_same {r' : Nat} (hr' : r' ∈ roots) {q q' s s' : List Nat} {i i' g : Nat}
    (hp : UserPath (q ++ i :: s)) (hp' : UserPath (q' ++ i' :: s')) (hq : walk (ptEntry vm.mem) child r q = some g)
    (hq' : walk (ptEntry vm.mem) child r' q' = some g) : q = q' ∧ (q = [] → r = r') := by
  rcases visited hp hq with ⟨rfl, rfl⟩ | h
  · rcases visited hp' hq' with ⟨rfl, rfl⟩ | h'
    · exact ⟨rfl, fun _ => rfl⟩
    · exact absurd h' (hs.apart _ hr' _ hr _)
  · rcases visited hp' hq' with ⟨rfl, rfl⟩ | h'
    · exact absurd h (hs.apart _ hr _ hr' _)
    · exact ⟨hs.unique _ hr _ hr' _ _ _ h h', fun h0 => absurd h0 h.path.pos⟩

private theorem Sharing.size_absent {q s : List Nat} {i t : Nat} (hp : UserPath (q ++ i :: s)) (hs0 : s ≠ [])
    (hq : walk (ptEntry vm.mem) child r q = some t) (hq0 : q ≠ []) {u : Nat}
    (hc : child (ptEntry vm.mem t i) = some u) : hasFlag (ptEntry vm.mem t i) pageFlagSize = false := by
  have hlen := hp.len
  have h1 := List.length_pos_of_ne_nil hs0
  have h2 := List.length_pos_of_ne_nil hq0
  simp only [List.length_append, List.length_cons] at hlen
  have hp' : UserPath (q ++ [i]) := by
    rw [show q ++ i :: s = (q ++ [i]) ++ s by simp] at hp
    exact hp.left (by simp)
  exact (hs.pageTree hr).not_large hp' hq (by simp [(child_eq_some.1 hc).1]) (by omega) (by omega)

/-- A walk through the tables of the user half does not end at a large page. -/
private theorem Sharing.levelWalk {q s : List Nat} {i t : Nat} (hp : UserPath (q ++ i :: s))
    (hq : walk (ptEntry vm.mem) child r q = some t) : LevelWalk.walk (ptEntry vm.mem) tableOf 0 r q = some t := by
  induction q using List.reverseRecOn generalizing i s t with
  | nil => exact hq
  | append_singleton q j ih =>
    obtain ⟨u, hu, hj⟩ := walk_left hq
    rw [walk_singleton] at hj
    rw [List.append_assoc, List.singleton_append] at hp
    have hlen := hp.len
    simp only [List.length_append, List.length_cons] at hlen
    rw [LevelWalk.walk_snoc (ih hp hu), Nat.zero_add]
    obtain ⟨hpres, rfl⟩ := child_eq_some.1 hj
    refine tableOf_some hpres (by omega) ?_
    by_cases hq0 : q = []
    · exact Or.inl (by rw [hq0]; rfl)
    · exact Or.inr (hs.size_absent hr hp (by simp) hu hq0 hj)

section

variable {m : Mem} {t i : Nat} (hone : OneEntry vm.frames vm.mem m t i)
include hone

private theorem Sharing.other_entry {w : Nat} (hw : w < 2 ^ 47)
    (hno : ∀ q s, userPath w = q ++ i :: s → walk (ptEntry vm.mem) child r q ≠ some t) :
    vmPhysAddr m r w = vmPhysAddr vm.mem r w := by
  have hp := userPath_user hw
  refine vmPhysAddr_congr fun q j s g hsplit hq => ?_
  have hpath := hp
  rw [hsplit] at hpath
  obtain ⟨hg, hu⟩ := hs.visited_used hr hpath hq
  refine hone g j hg hu (hpath.lt j (by simp)) ?_
  rintro ⟨rfl, rfl⟩
  exact hno q s hsplit hq

private theorem Sharing.at_entry {q s : List Nat} {w : Nat} (hw : w < 2 ^ 47) (hsplit : userPath w = q ++ i :: s)
    (hq : walk (ptEntry vm.mem) child r q = some t) : vmPhysAddr m r w =
      (LevelWalk.final (ptEntry m) tableOf q.length t (i :: s)).elim 0 (pageAddr w) := by
  have hp := userPath_user hw
  rw [hsplit] at hp
  have hwalk : LevelWalk.walk (ptEntry m) tableOf 0 r q = some t := by
    rw [← hs.levelWalk hr hp hq]
    refine (LevelWalk.walk_congr fun q' j s' g hsplit' hq' => ?_).1
    have hpath : UserPath (q' ++ j :: (s' ++ i :: s)) := by
      rw [hsplit', List.append_assoc, List.cons_append] at hp
      exact hp
    have hrw : walk (ptEntry vm.mem) child r q' = some g := by
      obtain ⟨g', hg', -⟩ := walk_left (hsplit' ▸ hq)
      have h1 := hs.levelWalk hr hpath hg'
      rw [h1] at hq'
      rw [hg', hq']
    obtain ⟨hg, hu⟩ := hs.visited_used hr hpath hrw
    refine hone g j hg hu (hpath.lt j (by simp)) ?_
    rintro ⟨rfl, rfl⟩
    have hlen := congrArg List.length ((hs.visited_same hr hr hpath hp hrw hq).1.trans hsplit')
    simp only [List.length_append, List.length_cons] at hlen
    omega
  have hfinal : LevelWalk.final (entryAt m) tableOf 0 r (indices w) =
      LevelWalk.final (ptEntry m) tableOf 0 r (userPath w) := by
    obtain ⟨i1, i2, i3, i4⟩ := index_val w
    simp only [indices, userPath, LevelWalk.final, entryAt, i1, i2, i3, i4]
  rw [vmPhysAddr_final, if_neg (canonical_user hw), hfinal, hsplit, LevelWalk.final_append hwalk, Nat.zero_add]

end

private theorem Sharing.unmapped_below {q s : List Nat} {i t w : Nat} (hw : w < 2 ^ 47)
    (hsplit : userPath w = q ++ i :: s)
    (hq : walk (ptEntry vm.mem) child r q = some t) (hc : child (ptEntry vm.mem t i) = none) :
    vmPhysAddr vm.mem r w = 0 := by
  rw [vmPhysAddr_walk (hs.pageTree hr) hw, hsplit, walk_append_of hq, walk_cons, hc, Option.bind_none,
    Option.elim_none]

/-- Every way through the entry `t[i]` goes there by the indices `q`. -/
private theorem Sharing.way_entry {q s q' s' : List Nat} {i t v w : Nat} (hv : v < 2 ^ 47) (hw : w < 2 ^ 47)
    (hsplit : userPath v = q ++ i :: s) (hq : walk (ptEntry vm.mem) child r q = some t)
    (hsplit' : userPath w = q' ++ i :: s') (hq' : walk (ptEntry vm.mem) child r q' = some t) :
    q' = q ∧ s'.length = s.length ∧ ∀ j ∈ s', j < 512 := by
  have hp := userPath_user hv
  have hp' := userPath_user hw
  have hlen := congrArg List.length hsplit
  have hlen' := congrArg List.length hsplit'
  rw [hsplit] at hp
  rw [hsplit'] at hp'
  obtain rfl := (hs.visited_same hr hr hp' hp hq' hq).1
  simp only [userPath, List.length_append, List.length_cons, List.length_nil] at hlen hlen'
  exact ⟨rfl, by omega, fun j hj => hp'.lt j (by simp [hj])⟩

end

/-! ### What a call changes in an address space that shares the tables -/

/-- `vm_map_page` changes translations when it goes on from the table `t` with the indices that are left: there are
frames for the missing tables, or the page that is mapped there is another one. -/
def Places (vm : Vm) (physAddr flags : Nat) : List Nat → Nat → Prop
  | [], _ => False
  | i :: rest, t =>
    match child (ptEntry vm.mem t i) with
    | none => Room flags rest.length vm.frames
    | some u => if rest = [] then u ≠ alignDown physAddr pageSize else Places vm physAddr flags rest u

section

variable {vm : Vm} {roots : List Nat} (hs : Sharing vm roots) {r : Nat} (hr : r ∈ roots) (physAddr : Nat)
    {flags : Nat}
  (hf : flags < pageSize) {v : UserAddr}
include hs hr hf

private theorem mapFrom_absent_iff {q rest : List Nat} {i t : Nat} (hsplit : userPath v = q ++ i :: rest)
    (hq0 : q ≠ []) (hq : walk (ptEntry vm.mem) child r q = some t) (hc : child (ptEntry vm.mem t i) = none) :
    (∀ w : UserAddr, vmPhysAddr (mapFrom physAddr flags q.length (i :: rest) t vm).1.mem r w =
      vmPhysAddr vm.mem r w) ↔ ¬Room flags rest.length vm.frames := by
  have hp := userPath_user v.isLt
  have hlen := congrArg List.length hsplit
  rw [hsplit] at hp
  simp only [userPath, List.length_append, List.length_cons, List.length_nil] at hlen
  obtain ⟨ht, hu⟩ := hs.visited_used hr hp hq
  have hlt : ∀ j ∈ i :: rest, j < 512 := fun j hj => hp.lt j (List.mem_append_right q hj)
  have hn0 : q.length ≠ 0 := fun h => hq0 (List.eq_nil_of_length_eq_zero h)
  have hone := mapFrom_keeps (n := q.length) physAddr hs.wf ht hu hlt hf hc
  by_cases hroom : Room flags rest.length vm.frames
  · refine iff_of_false (fun h => ?_) fun h => h hroom
    obtain ⟨w, hpath, hodd⟩ := exists_odd v
    obtain ⟨fin, h1, h2, -⟩ := mapFrom_final physAddr hs.wf ht hu hlt hf hc (by omega) hroom (Or.inl hn0)
    have hw := h w
    rw [hs.at_entry hr hone w.isLt (hpath.trans hsplit) hq, h2,
      hs.unmapped_below hr w.isLt (hpath.trans hsplit) hq hc] at hw
    exact pageAddr_odd hodd h1 hw
  · refine iff_of_true (fun w => ?_) hroom
    by_cases hway : ∃ q' s, userPath w = q' ++ i :: s ∧ walk (ptEntry vm.mem) child r q' = some t
    · obtain ⟨q', s, hw, hq'⟩ := hway
      obtain ⟨rfl, hl, hlts⟩ := hs.way_entry hr v.isLt w.isLt hsplit hq hw hq'
      rw [hs.at_entry hr hone w.isLt hw hq, hs.unmapped_below hr w.isLt hw hq hc]
      exact mapFrom_dead physAddr hs.wf ht hu hlt hf hc (by omega) hn0 hroom w hl hlts
    · exact hs.other_entry hr hone w.isLt fun q' s hw hq' => hway ⟨q', s, hw, hq'⟩

private theorem mapFrom_page_iff {q : List Nat} {i t u : Nat} (hsplit : userPath v = q ++ [i])
    (hq : walk (ptEntry vm.mem) child r q = some t) (hc : child (ptEntry vm.mem t i) = some u) :
    (∀ w : UserAddr, vmPhysAddr (mapFrom physAddr flags q.length [i] t vm).1.mem r w = vmPhysAddr vm.mem r w) ↔
      ¬u ≠ alignDown physAddr pageSize := by
  have hp := userPath_user v.isLt
  have hlen : q.length = 3 := by
    have h := congrArg List.length hsplit
    simp only [userPath, List.length_append, List.length_cons, List.length_nil] at h
    omega
  rw [hsplit] at hp
  have hi : i < 512 := hp.lt i (by simp)
  obtain ⟨ht, hu⟩ := hs.visited_used hr hp hq
  obtain ⟨he, hpres, had⟩ := pageEntryOf_spec physAddr hf
  show (∀ w : UserAddr, vmPhysAddr (setEntry vm.mem t i (pageEntryOf physAddr flags)) r w = _) ↔ _
  have hone : OneEntry vm.frames vm.mem (setEntry vm.mem t i (pageEntryOf physAddr flags)) t i :=
    setEntry_oneEntry ht hi _
  -- the two translations of an address of the page
  have hnew : ∀ w : UserAddr, userPath w = userPath v →
      vmPhysAddr (setEntry vm.mem t i (pageEntryOf physAddr flags)) r w =
        alignDown physAddr pageSize + (w : Nat) % pageSize ∧ vmPhysAddr vm.mem r w = u + (w : Nat) % pageSize := by
    intro w hw
    refine ⟨?_, ?_⟩
    · rw [hs.at_entry hr hone w.isLt (hw.trans hsplit) hq, LevelWalk.final, ptEntry_setEntry_self he, hlen,
        tableOf_last, Option.elim_none, Option.elim_some, pageAddr, if_neg (by simp [hpres])]
      show alignDown (pageEntryOf physAddr flags) pageSize ||| ((w : Nat) &&& (pageSize - 1)) = _
      rw [had]
      exact page_or_offset w (pageSize_dvd_alignDown _)
    · rw [vmPhysAddr_walk (hs.pageTree hr) w.isLt, hw, hsplit, walk_append_of hq, walk_singleton, hc,
        Option.elim_some]
  rw [not_not]
  refine ⟨fun h => ?_, fun h w => ?_⟩
  · obtain ⟨h1, h2⟩ := hnew v rfl
    have h3 := h v
    omega
  · by_cases hway : ∃ q' s, userPath w = q' ++ i :: s ∧ walk (ptEntry vm.mem) child r q' = some t
    · obtain ⟨q', s, hw, hq'⟩ := hway
      obtain ⟨rfl, hl, -⟩ := hs.way_entry hr v.isLt w.isLt hsplit hq hw hq'
      obtain rfl : s = [] := List.eq_nil_of_length_eq_zero (by simpa using hl)
      obtain ⟨h1, h2⟩ := hnew w (hw.trans hsplit.symm)
      rw [h1, h2, h]
    · exact hs.other_entry hr hone w.isLt fun q' s hw hq' => hway ⟨q', s, hw, hq'⟩

variable (flags) in
omit hf in
private theorem mapFrom_next {q rest : List Nat} {i t u : Nat} (hrest : rest ≠ [])
    (hsplit : userPath v = q ++ i :: rest)
    (hq : walk (ptEntry vm.mem) child r q = some t) (hc : child (ptEntry vm.mem t i) = some u) :
    mapFrom physAddr flags q.length (i :: rest) t vm = mapFrom physAddr flags (q ++ [i]).length rest u vm ∧
      walk (ptEntry vm.mem) child r (q ++ [i]) = some u := by
  have hp := userPath_user v.isLt
  rw [hsplit] at hp
  obtain ⟨hpres, hu⟩ := child_eq_some.1 hc
  have hmake : makeTable vm t i flags = (vm, true) := if_pos hpres
  have hsize : ¬(q.length ≠ 0 ∧ hasFlag (ptEntry vm.mem t i) pageFlagSize = true) := by
    rintro ⟨hn, hbig⟩
    have hq0 : q ≠ [] := fun h => hn (by rw [h]; rfl)
    rw [hs.size_absent hr hp hrest hq hq0 hc] at hbig
    exact absurd hbig (by simp)
  refine ⟨?_, by rw [walk_append_of hq, walk_singleton, hc]⟩
  rw [mapFrom, if_neg hrest]
  simp only [hmake, Bool.true_eq_false, ↓reduceIte, if_neg hsize, hu, List.length_append, List.length_singleton]

private theorem mapFrom_changes_iff {q rest : List Nat} {i t : Nat} (hsplit : userPath v = q ++ i :: rest)
    (hq0 : q ≠ []) (hq : walk (ptEntry vm.mem) child r q = some t) :
    (∀ w : UserAddr, vmPhysAddr (mapFrom physAddr flags q.length (i :: rest) t vm).1.mem r w =
      vmPhysAddr vm.mem r w) ↔ ¬Places vm physAddr flags (i :: rest) t := by
  induction rest generalizing q i t with
  | nil =>
    rw [Places]
    cases hc : child (ptEntry vm.mem t i) with
    | none => exact mapFrom_absent_iff hs hr physAddr hf hsplit hq0 hq hc
    | some u =>
      simp only [↓reduceIte]
      exact mapFrom_page_iff hs hr physAddr hf hsplit hq hc
  | cons k rest ih =>
    rw [Places]
    cases hc : child (ptEntry vm.mem t i) with
    | none => exact mapFrom_absent_iff hs hr physAddr hf hsplit hq0 hq hc
    | some u =>
      simp only [reduceCtorEq, ↓reduceIte]
      obtain ⟨h1, h2⟩ := mapFrom_next hs hr physAddr flags (by simp) hsplit hq hc
      rw [h1]
      exact ih (by simpa using hsplit) (by simp) h2

end

/-! ### Two address spaces -/

def SharesWalk (m : Mem) (r r' v : Nat) : Prop := ∃ q t, q <+: tablePath v ∧ Reach m r q t ∧ Reach m r' q t

/-- There is a page for `vm_unmap_page` to unmap. -/
def Unmaps (m : Mem) (r v : Nat) : Prop := walk (ptEntry m) child r (userPath v) ≠ none

private theorem unmap_changes_iff {m : Mem} {r : Nat} (ht : PageTree m r) (v : UserAddr) :
    (∀ w : UserAddr, vmPhysAddr (vmUnmapPage m r v).1 r w = vmPhysAddr m r w) ↔ ¬Unmaps m r v := by
  rw [vmUnmapPage_walk ht v.isLt, Unmaps, not_not]
  cases hw : walk (ptEntry m) child r (tablePath v) with
  | none => exact iff_of_true (fun _ => rfl) (by rw [userPath_table, walk_append, hw, Option.bind_none])
  | some t =>
    rw [Option.elim_some]
    have hself := clear_self ht v.isLt hw
    refine ⟨fun h => ?_, fun hnone w => ?_⟩
    · obtain ⟨w, hpath, hodd⟩ := exists_odd v
      cases hf : walk (ptEntry m) child r (userPath v) with
      | none => rfl
      | some f =>
        have h1 := h w
        rw [vmPhysAddr_walk (ht.clear v.isLt hw) w.isLt, vmPhysAddr_walk ht w.isLt, hpath, hself, hf] at h1
        simp only [Option.elim_none, Option.elim_some, pageSize] at h1
        simp only [Nat.testBit_zero, decide_eq_true_eq] at hodd
        omega
    · rw [vmPhysAddr_walk (ht.clear v.isLt hw) w.isLt, vmPhysAddr_walk ht w.isLt]
      by_cases hpath : userPath w = userPath v
      · rw [hpath, hself, hnone]
      · rw [clear_other ht v.isLt hw w.isLt hpath]

section

variable {vm : Vm} {roots : List Nat} (hs : Sharing vm roots) {r : Nat} (hr : r ∈ roots) (physAddr : Nat)
    {flags : Nat}
  (hf : flags < pageSize) {v : UserAddr}
include hs hr

variable (flags) in
private theorem vmMapPage_from {q rest : List Nat} {i t : Nat} (hsplit : userPath v = q ++ i :: rest)
    (hq : walk (ptEntry vm.mem) child r q = some t) :
    vmMapPage vm r physAddr v flags = mapFrom physAddr flags q.length (i :: rest) t vm ∧
      (Places vm physAddr flags (userPath v) r ↔ Places vm physAddr flags (i :: rest) t) := by
  induction q using List.reverseRecOn generalizing i rest t with
  | nil =>
    obtain rfl : r = t := Option.some.inj hq
    rw [List.nil_append] at hsplit
    rw [vmMapPage_mapFrom vm r physAddr flags v.isLt, hsplit]
    exact ⟨rfl, Iff.rfl⟩
  | append_singleton q j ih =>
    obtain ⟨u, hu, hj⟩ := walk_left hq
    rw [walk_singleton] at hj
    rw [List.append_assoc, List.singleton_append] at hsplit
    obtain ⟨h1, h2⟩ := ih hsplit hu
    rw [(mapFrom_next hs hr physAddr flags (by simp) hsplit hu hj).1] at h1
    refine ⟨h1, h2.trans ?_⟩
    conv_lhs => rw [Places, hj]
    simp

include hf

/-- `vm_map_page` changes one entry on the way of the address; the other changes are in new tables. -/
private theorem mapFrom_one {q rest : List Nat} {i t : Nat} (hsplit : userPath v = q ++ i :: rest)
    (hq : walk (ptEntry vm.mem) child r q = some t) : ∃ q' i' s' t', userPath v = q' ++ i' :: s' ∧
      walk (ptEntry vm.mem) child r q' = some t' ∧
      OneEntry vm.frames vm.mem (mapFrom physAddr flags q.length (i :: rest) t vm).1.mem t' i' := by
  have hp := userPath_user v.isLt
  have hpath := hp
  rw [hsplit] at hpath
  obtain ⟨ht, hu⟩ := hs.visited_used hr hpath hq
  have hlt : ∀ j ∈ i :: rest, j < 512 := fun j hj => hpath.lt j (List.mem_append_right q hj)
  induction rest generalizing q i t with
  | nil => exact ⟨q, i, [], t, hsplit, hq, setEntry_oneEntry ht (hlt i (by simp)) _⟩
  | cons k rest ih =>
    cases hc : child (ptEntry vm.mem t i) with
    | none => exact ⟨q, i, k :: rest, t, hsplit, hq, mapFrom_keeps physAddr hs.wf ht hu hlt hf hc⟩
    | some u =>
      obtain ⟨h1, h2⟩ := mapFrom_next hs hr physAddr flags (by simp) hsplit hq hc
      have hpath' : UserPath ((q ++ [i]) ++ k :: rest) := by simpa using hpath
      obtain ⟨ht', hu'⟩ := hs.visited_used hr hpath' h2
      rw [h1]
      exact ih (by simpa using hsplit) h2 hpath' ht' hu' fun j hj => hlt j (List.mem_cons_of_mem _ hj)

omit hf

variable {r' : Nat} (hr' : r' ∈ roots)
include hr'

/-- A table on the way of the address that another address space reaches is shared. -/
private theorem Sharing.other_space {m : Mem} {q s : List Nat} {i t : Nat} (hne : r' ≠ r)
    (hno : ¬SharesWalk vm.mem r r' v)
    (hsplit : userPath v = q ++ i :: s) (hq : walk (ptEntry vm.mem) child r q = some t)
    (hone : OneEntry vm.frames vm.mem m t i) (w : UserAddr) : vmPhysAddr m r' w = vmPhysAddr vm.mem r' w := by
  refine hs.other_entry hr' hone w.isLt fun q' s' hw hq' => hno ?_
  have hp := userPath_user v.isLt
  have hp' := userPath_user w.isLt
  have hlen := congrArg List.length hsplit
  rw [hsplit] at hp
  rw [hw] at hp'
  obtain ⟨rfl, h0⟩ := hs.visited_same hr' hr hp' hp hq' hq
  have hq0 : q' ≠ [] := fun h => hne (h0 h)
  have hpre : q' <+: tablePath v := by
    refine List.prefix_of_prefix_length_le ⟨_, hsplit.symm⟩ ⟨_, (userPath_table v).symm⟩ ?_
    simp only [userPath, tablePath, List.length_append, List.length_cons, List.length_nil] at hlen ⊢
    omega
  exact ⟨q', t, hpre, ⟨hp.left hq0, hq⟩, ⟨hp.left hq0, hq'⟩⟩

private theorem unmap_other_iff (hne : r' ≠ r) :
    (∀ w : UserAddr, vmPhysAddr (vmUnmapPage vm.mem r v).1 r' w = vmPhysAddr vm.mem r' w) ↔
      ¬(SharesWalk vm.mem r r' v ∧ Unmaps vm.mem r v) := by
  by_cases hsh : SharesWalk vm.mem r r' v
  · obtain ⟨q, t, ⟨s, hsplit⟩, ⟨-, hq⟩, ⟨-, hq'⟩⟩ := id hsh
    have htable : walk (ptEntry vm.mem) child r (tablePath v) = walk (ptEntry vm.mem) child r' (tablePath v) := by
      rw [← hsplit, walk_append_of hq, walk_append_of hq']
    have hpage : Unmaps vm.mem r v ↔ Unmaps vm.mem r' v := by
      rw [Unmaps, Unmaps, userPath_table, walk_append, walk_append, htable]
    have hcall : vmUnmapPage vm.mem r v = vmUnmapPage vm.mem r' v := by
      rw [vmUnmapPage_walk (hs.pageTree hr) v.isLt, vmUnmapPage_walk (hs.pageTree hr') v.isLt, htable]
    rw [hcall, unmap_changes_iff (hs.pageTree hr') v, hpage, and_iff_right hsh]
  · refine iff_of_true ?_ fun h => hsh h.1
    rw [vmUnmapPage_walk (hs.pageTree hr) v.isLt]
    cases hw : walk (ptEntry vm.mem) child r (tablePath v) with
    | none => exact fun _ => rfl
    | some t =>
      have hp := userPath_user v.isLt
      obtain ⟨ht, -⟩ := hs.visited_used hr (userPath_table v ▸ hp) hw
      exact hs.other_space hr hr' hne hsh (userPath_table v) hw
        (setEntry_oneEntry ht (hp.lt _ (by simp [userPath])) 0)

include hf

private theorem map_other_iff (hne : r' ≠ r) :
    (∀ w : UserAddr, vmPhysAddr (vmMapPage vm r physAddr v flags).1.mem r' w = vmPhysAddr vm.mem r' w) ↔
      ¬(SharesWalk vm.mem r r' v ∧ Places vm physAddr flags (userPath v) r) := by
  by_cases hsh : SharesWalk vm.mem r r' v
  · obtain ⟨q, t, ⟨s, hsplit⟩, hreach, hreach'⟩ := id hsh
    obtain ⟨i, rest, hrest⟩ : ∃ i rest, userPath v = q ++ i :: rest := by
      rw [userPath_table, ← hsplit]
      cases s with
      | nil => exact ⟨ptIndex v, [], by simp⟩
      | cons i s => exact ⟨i, s ++ [ptIndex v], by simp⟩
    obtain ⟨h1, h2⟩ := vmMapPage_from hs hr physAddr flags hrest hreach.walk
    rw [h1, h2, mapFrom_changes_iff hs hr' physAddr hf hrest hreach.path.pos hreach'.walk, and_iff_right hsh]
  · refine iff_of_true ?_ fun h => hsh h.1
    rw [vmMapPage_mapFrom vm r physAddr flags v.isLt]
    obtain ⟨q', i', s', t', h1, h2, h3⟩ := mapFrom_one hs hr physAddr hf (v := v) (q := []) rfl rfl
    exact hs.other_space hr hr' hne hsh h1 h2 h3

end

abbrev PageFlags : Type := Fin pageSize

/-- After any run of forks, faults and stores: unmapping or mapping a page in one address space changes no translation
of another one, unless both go through a same table on the way of the page and the call changes what the page is
mapped to. -/
theorem mapping_independent_iff {vm : Vm} {r0 : Nat} (h0 : UserTree vm r0) (as : List Action) {r r' : Nat}
    (hr : r ∈ (run ⟨vm, [r0]⟩ as).spaces) (hr' : r' ∈ (run ⟨vm, [r0]⟩ as).spaces) (hne : r' ≠ r) (v : UserAddr) :
    ((∀ w : UserAddr, vmPhysAddr (vmUnmapPage (run ⟨vm, [r0]⟩ as).vm.mem r v).1 r' w =
        vmPhysAddr (run ⟨vm, [r0]⟩ as).vm.mem r' w) ↔
      ¬(SharesWalk (run ⟨vm, [r0]⟩ as).vm.mem r r' v ∧ Unmaps (run ⟨vm, [r0]⟩ as).vm.mem r v)) ∧
    ∀ physAddr (flags : PageFlags), (∀ w : UserAddr,
        vmPhysAddr (vmMapPage (run ⟨vm, [r0]⟩ as).vm r physAddr v flags).1.mem r' w =
          vmPhysAddr (run ⟨vm, [r0]⟩ as).vm.mem r' w) ↔
      ¬(SharesWalk (run ⟨vm, [r0]⟩ as).vm.mem r r' v ∧
        Places (run ⟨vm, [r0]⟩ as).vm physAddr flags (userPath v) r) := by
  have hs : Sharing (run ⟨vm, [r0]⟩ as).vm (run ⟨vm, [r0]⟩ as).spaces := run_sharing (s := ⟨vm, [r0]⟩) h0.sharing as
  exact ⟨unmap_other_iff hs hr hr' hne, fun physAddr flags => map_other_iff hs hr physAddr flags.isLt hr' hne⟩

/-! ### After a small fork -/

/-- After the fork the parent maps a page through three new tables and the child keeps all its translations; when the
parent unmaps the page that both have, the translations of the child change. -/
theorem mapping_independent_small : UserTree (chainVm 0x14007) 0x10000 ∧
    ∃ s, s = run ⟨chainVm 0x14007, [0x10000]⟩ [.fork 0x10000] ∧
      vmPhysAddr (vmMapPage s.vm 0x10000 0x9000 0x8000000000 7).1.mem 0x10000 0x8000000010 = 0x9010 ∧
      (∀ w : UserAddr, vmPhysAddr (vmMapPage s.vm 0x10000 0x9000 0x8000000000 7).1.mem 0x2000 w =
        vmPhysAddr s.vm.mem 0x2000 w) ∧
      ¬∀ w : UserAddr, vmPhysAddr (vmUnmapPage s.vm.mem 0x10000 0x10).1 0x2000 w = vmPhysAddr s.vm.mem 0x2000 w := by
  have htree : UserTree (chainVm 0x14007) 0x10000 := chainVm_tree (Or.inr rfl)
  obtain ⟨frames, hrun, hb⟩ := chainVm_step (e := 0x14007)
  replace hrun : run ⟨chainVm 0x14007, [0x10000]⟩ [.fork 0x10000] = _ := hrun
  have hs : Sharing ⟨forkedTree 0x14007, frames⟩ [0x2000, 0x10000] := by
    have h := run_sharing (s := ⟨chainVm 0x14007, [0x10000]⟩) htree.sharing [.fork 0x10000]
    rwa [hrun] at h
  have hr : 0x10000 ∈ [0x2000, 0x10000] := by simp
  obtain ⟨hroot, -⟩ := forkedTree_entry (e := 0x14007) (Or.inr rfl)
  have habsent : child (ptEntry (forkedTree 0x14007) 0x10000 1) = none := by
    rw [(hroot 1 (by decide)).2, if_neg (by decide), child_zero]
  have hmap := fun v => @mapping_independent_iff _ _ htree [.fork 0x10000] 0x10000 0x2000
    (by rw [hrun]; simp) (by rw [hrun]; simp) (by decide) v
  rw [hrun] at hmap
  refine ⟨htree, _, hrun.symm, ?_, ?_, ?_⟩
  · obtain ⟨f2, h2, b2⟩ := hb.allocPage (by decide) (show _ = 0x5000 from rfl)
    obtain ⟨f3, h3, b3⟩ := b2.allocPage (by decide) (show _ = 0x6000 from rfl)
    obtain ⟨f4, h4, -⟩ := b3.allocPage (by decide) (show _ = 0x7000 from rfl)
    have hroom : Room 7 3 frames := by
      unfold Room Room Room Room
      simp [h2, h3, h4]
    have hu := (hs.root _ hr).2
    obtain ⟨fin, -, hfin, he⟩ := @mapFrom_final ⟨forkedTree 0x14007, frames⟩ 0x10000 1 0 7 [0, 0, 0] 0x9000 hs.wf
      (by decide) hu (by decide) (by decide) habsent (by decide) hroom (Or.inr (by decide))
    obtain rfl := he (by decide)
    have hone := @mapFrom_keeps ⟨forkedTree 0x14007, frames⟩ 0x10000 1 0 7 [0, 0, 0] 0x9000 hs.wf (by decide) hu
      (by decide) (by decide) habsent
    rw [vmMapPage_mapFrom _ _ _ _ (by decide), show userPath 0x8000000000 = [1, 0, 0, 0] by decide,
      hs.at_entry hr hone (q := []) (s := [0, 0, 0]) (w := 0x8000000010) (by decide) (by decide) rfl,
      List.length_nil, hfin]
    decide
  · refine ((hmap 0x8000000000).2 0x9000 7).2 ?_
    -- the entry of the PML4 table is not present, so the walk arrives at no table
    rintro ⟨⟨q, t, hq, hreach, -⟩, -⟩
    obtain ⟨i, q, rfl⟩ := List.exists_cons_of_ne_nil hreach.path.pos
    have hi : i = 1 := by
      obtain ⟨s, hs⟩ := hq
      have h1 := congrArg List.head? hs
      rw [show tablePath ((0x8000000000 : UserAddr) : Nat) = [1, 0, 0] by decide] at h1
      simpa using h1
    subst hi
    have hw := hreach.walk
    rw [walk_cons, habsent] at hw
    simp at hw
  · intro h
    obtain ⟨p1, t1, -⟩ := forkedTree_walk (r := 0x2000) (Or.inl rfl)
    obtain ⟨p2, t2, u2⟩ := forkedTree_walk (r := 0x10000) (Or.inr rfl)
    have hpath : UserPath [0] := ⟨by simp, by simp, by simp, by simp⟩
    refine ((hmap 0x10).1.1 h) ⟨⟨[0], 0x11000, ⟨[0, 0], by decide⟩, ⟨hpath, p2⟩, ⟨hpath, p1⟩⟩, ?_⟩
    show walk (ptEntry (forkedTree 0x14007)) child 0x10000 (userPath 0x10) ≠ none
    rw [show userPath 0x10 = [0, 0, 0, 0] by decide, u2]
    simp

/-- After a fork the parent unmaps the one page, and the child loses it. -/
theorem not_mapping_independent : UserTree (chainVm 0x14007) 0x10000 ∧
    (run ⟨chainVm 0x14007, [0x10000]⟩ [.fork 0x10000]).spaces = [0x2000, 0x10000] ∧
    vmPhysAddr (run ⟨chainVm 0x14007, [0x10000]⟩ [.fork 0x10000]).vm.mem 0x2000 0x10 = 0x14010 ∧
    vmPhysAddr (vmUnmapPage (run ⟨chainVm 0x14007, [0x10000]⟩ [.fork 0x10000]).vm.mem 0x10000 0x10).1 0x2000 0x10 =
      0 := by
  have htree : UserTree (chainVm 0x14007) 0x10000 := chainVm_tree (Or.inr rfl)
  obtain ⟨frames, hrun, -⟩ := chainVm_step (e := 0x14007)
  replace hrun : run ⟨chainVm 0x14007, [0x10000]⟩ [.fork 0x10000] = _ := hrun
  have hs := run_sharing (s := ⟨chainVm 0x14007, [0x10000]⟩) htree.sharing [.fork 0x10000]
  rw [hrun] at hs ⊢
  obtain ⟨-, t1, u1⟩ := forkedTree_walk (r := 0x2000) (Or.inl rfl)
  obtain ⟨-, t2, -⟩ := forkedTree_walk (r := 0x10000) (Or.inr rfl)
  rw [show [0, 0, 0] = tablePath 0x10 by decide] at t1 t2
  have hc : PageTree (forkedTree 0x14007) 0x2000 := hs.pageTree (by simp)
  have hp : PageTree (forkedTree 0x14007) 0x10000 := hs.pageTree (by simp)
  refine ⟨htree, rfl, ?_, ?_⟩
  · rw [vmPhysAddr_walk hc (by decide), show userPath 0x10 = [0, 0, 0, 0] by decide, u1]
    rfl
  · rw [vmUnmapPage_walk hp (by decide), t2, Option.elim_some,
      vmPhysAddr_walk (hc.clear (by decide) t1) (by decide), clear_self hc (by decide) t1, Option.elim_none]

end Pml.Arch
