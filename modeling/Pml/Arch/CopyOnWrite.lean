import Pml.Arch.Sharing

/-!
# Copy-on-write

The accesses of a user program, in terms of the walks through the page tables: a page fault changes no value that an
address space reads (`intPageFault_unchanged`), and a store changes one byte of one address space
(`userStore_spec`).
-/

namespace Pml.Arch

open ByteMemory Radix

/-! ### User addresses -/

def userPath (v : Nat) : List Nat := [pml4tIndex v, pdptIndex v, pdtIndex v, ptIndex v]

theorem index_eq (v k : Nat) : v >>> k &&& 0x1ff = v / 2 ^ k % 512 := by
  rw [Nat.shiftRight_eq_div_pow]
  exact Nat.and_two_pow_sub_one_eq_mod _ 9

theorem userPath_eq (v : Nat) :
    userPath v = [v / 2 ^ 39 % 512, v / 2 ^ 30 % 512, v / 2 ^ 21 % 512, v / 2 ^ 12 % 512] := by
  unfold userPath pml4tIndex pdptIndex pdtIndex ptIndex
  rw [index_eq, index_eq, index_eq, index_eq]

theorem userPath_user {v : Nat} (hv : v < 2 ^ 47) : UserPath (userPath v) := by
  rw [userPath_eq]
  refine ⟨by simp, by simp, ?_, ?_⟩
  · intro i hi
    simp only [List.mem_cons, List.not_mem_nil, or_false] at hi
    omega
  · intro i hi
    simp only [List.head?_cons, Option.mem_def, Option.some.injEq] at hi
    omega

private theorem userPath_inj {v w : Nat} (hv : v < 2 ^ 47) (hw : w < 2 ^ 47) (hp : userPath v = userPath w)
    (ho : v % pageSize = w % pageSize) : v = w := by
  rw [userPath_eq, userPath_eq] at hp
  simp only [List.cons.injEq, and_true] at hp
  obtain ⟨h1, h2, h3, h4⟩ := hp
  simp only [pageSize] at ho
  omega

theorem page_or_offset {f : Nat} (v : Nat) (hf : pageSize ∣ f) :
    f ||| (v &&& (pageSize - 1)) = f + v % pageSize := by
  obtain ⟨a, rfl⟩ := hf
  have e : pageSize - 1 = 2 ^ 12 - 1 := rfl
  have e' : pageSize = 2 ^ 12 := rfl
  rw [e, Nat.and_two_pow_sub_one_eq_mod, e']
  exact (Nat.two_pow_add_eq_or_of_lt (Nat.mod_lt _ (Nat.two_pow_pos 12)) a).symm

/-- The walk of an access that needs the flags `need` in every entry. -/
def flagWalk (m : Mem) (need : Nat) : Nat → List Nat → Option Nat
  | t, [] => some t
  | t, i :: is =>
    if ptEntry m t i &&& need = need then flagWalk m need (alignDown (ptEntry m t i) pageSize) is else none

private theorem flagWalk_eq_some {m : Mem} {need t f : Nat} {p : List Nat}
    (hneed : ∀ e, e &&& need = need → hasFlag e pageFlagPresent = true) :
    flagWalk m need t p = some f ↔
      walk (ptEntry m) child t p = some f ∧ ∀ e ∈ trail (ptEntry m) child t p, e &&& need = need := by
  induction p generalizing t with
  | nil => simp [flagWalk]
  | cons i is ih =>
    simp only [flagWalk, walk_cons, trail_cons]
    by_cases h : ptEntry m t i &&& need = need
    · have hc : child (ptEntry m t i) = some (alignDown (ptEntry m t i) pageSize) := child_eq_some.2 ⟨hneed _ h, rfl⟩
      rw [if_pos h, ih, hc]
      simp [h]
    · rw [if_neg h]
      constructor
      · intro h'
        exact absurd h' (by simp)
      · rintro ⟨-, hall⟩
        exact absurd (hall _ List.mem_cons_self) h

section

variable {vm : Vm} {roots : List Nat} {r need : Nat} (hs : Sharing vm roots) (hr : r ∈ roots)
  (hneed : ∀ e, e &&& need = need → hasFlag e pageFlagPresent = true)
include hs hr hneed

theorem Sharing.not_large {p : List Nat} {i t : Nat} (h0 : p ≠ []) (hlen : p.length ≤ 2) (hp : UserPath (p ++ [i]))
    (ht : walk (ptEntry vm.mem) child r p = some t) (he : ptEntry vm.mem t i &&& need = need) :
    hasFlag (ptEntry vm.mem t i) pageFlagSize = false := by
  have hreach : Reach vm.mem r (p ++ [i]) (alignDown (ptEntry vm.mem t i) pageSize) :=
    ⟨hp, by rw [walk_append_of ht, walk_singleton, child_eq_some.2 ⟨hneed _ he, rfl⟩]⟩
  have hpos := List.length_pos_iff.2 h0
  refine hs.small r hr _ _ hreach (by simp; omega) (by simp; omega) _ ?_
  rw [trail_append ht, trail_singleton]
  simp

private theorem userAddr_eq_flagWalk {v : Nat} (hv : v < 2 ^ 47) : userAddr vm.mem need r v =
    (flagWalk vm.mem need r (userPath v)).map fun f => f ||| (v &&& (pageSize - 1)) := by
  have hp := userPath_user hv
  unfold userPath at hp ⊢
  unfold userAddr
  generalize pml4tIndex v = i1 at hp ⊢
  generalize pdptIndex v = i2 at hp ⊢
  generalize pdtIndex v = i3 at hp ⊢
  generalize ptIndex v = i4 at hp ⊢
  by_cases h1 : ptEntry vm.mem r i1 &&& need = need
  swap
  · simp [flagWalk, h1]
  have w1 : walk (ptEntry vm.mem) child r [i1] = some (alignDown (ptEntry vm.mem r i1) pageSize) := by
    rw [walk_singleton, child_eq_some.2 ⟨hneed _ h1, rfl⟩]
  simp only [flagWalk, h1, ne_eq, not_true_eq_false, ↓reduceIte]
  generalize alignDown (ptEntry vm.mem r i1) pageSize = t1 at w1 ⊢
  by_cases h2 : ptEntry vm.mem t1 i2 &&& need = need
  swap
  · simp [h2]
  have hs2 := hs.not_large hr hneed (by simp) (by simp) (show UserPath ([i1] ++ [i2]) from hp.left (by simp)) w1 h2
  have w2 : walk (ptEntry vm.mem) child r [i1, i2] = some (alignDown (ptEntry vm.mem t1 i2) pageSize) := by
    rw [show [i1, i2] = [i1] ++ [i2] from rfl, walk_append_of w1, walk_singleton,
      child_eq_some.2 ⟨hneed _ h2, rfl⟩]
  simp only [h2, hs2, not_true_eq_false, Bool.false_eq_true, ↓reduceIte]
  generalize alignDown (ptEntry vm.mem t1 i2) pageSize = t2 at w2 ⊢
  by_cases h3 : ptEntry vm.mem t2 i3 &&& need = need
  swap
  · simp [h3]
  have hs3 :=
    hs.not_large hr hneed (by simp) (by simp) (show UserPath ([i1, i2] ++ [i3]) from hp.left (by simp)) w2 h3
  simp only [h3, hs3, not_true_eq_false, Bool.false_eq_true, ↓reduceIte]
  by_cases h4 : ptEntry vm.mem (alignDown (ptEntry vm.mem t2 i3) pageSize) i4 &&& need = need
  · simp [h4]
  · simp [h4]

theorem userAddr_eq_some {v a : Nat} (hv : v < 2 ^ 47) :
    userAddr vm.mem need r v = some a ↔ ∃ f, Reach vm.mem r (userPath v) f ∧
      (∀ e ∈ trail (ptEntry vm.mem) child r (userPath v), e &&& need = need) ∧ a = f + v % pageSize := by
  have hp := userPath_user hv
  rw [userAddr_eq_flagWalk hs hr hneed hv, Option.map_eq_some_iff]
  constructor
  · rintro ⟨f, hf, rfl⟩
    obtain ⟨h1, h2⟩ := (flagWalk_eq_some hneed).1 hf
    have hreach : Reach vm.mem r (userPath v) f := ⟨hp, h1⟩
    exact ⟨f, hreach, h2, page_or_offset v hreach.aligned⟩
  · rintro ⟨f, hreach, h2, rfl⟩
    exact ⟨f, (flagWalk_eq_some hneed).2 ⟨hreach.walk, h2⟩, page_or_offset v hreach.aligned⟩

end

/-! ### Loads -/

def Readable (e : Nat) : Prop := hasFlag e pageFlagPresent = true ∧ hasFlag e pageFlagUser = true

private theorem and_or_eq_iff (e a b : Nat) : e &&& (a ||| b) = a ||| b ↔ e &&& a = a ∧ e &&& b = b := by
  constructor
  · intro h
    have hbit : ∀ i, (a.testBit i || b.testBit i) = true → e.testBit i = true := by
      intro i hi
      have hi' := congrArg (Nat.testBit · i) h
      simp only [Nat.testBit_and, Nat.testBit_or, hi, Bool.and_true] at hi'
      exact hi'
    constructor
    · apply Nat.eq_of_testBit_eq
      intro i
      rw [Nat.testBit_and]
      cases ha : a.testBit i with
      | false => simp
      | true => rw [hbit i (by simp [ha])]; rfl
    · apply Nat.eq_of_testBit_eq
      intro i
      rw [Nat.testBit_and]
      cases hb : b.testBit i with
      | false => simp
      | true => rw [hbit i (by simp [hb])]; rfl
  · rintro ⟨ha, hb⟩
    rw [Nat.and_or_distrib_left, ha, hb]

private theorem and_shiftLeft_eq_iff (e k : Nat) : e &&& 1 <<< k = 1 <<< k ↔ e.testBit k = true := by
  rw [Nat.one_shiftLeft, Nat.and_two_pow]
  have h0 := Nat.two_pow_pos k
  cases e.testBit k with
  | true => simp
  | false => simp; omega

private theorem and_eq_iff_readable (e : Nat) :
    e &&& (pageFlagPresent ||| pageFlagUser) = (pageFlagPresent ||| pageFlagUser) ↔ Readable e := by
  rw [and_or_eq_iff, Readable, hasFlag_present, hasFlag_user]
  exact and_congr (and_shiftLeft_eq_iff e 0) (and_shiftLeft_eq_iff e 2)

/-- Two address spaces read the same byte if their walks arrive at pages with the same contents. -/
theorem userLoad_congr {vm vm' : Vm} {roots roots' : List Nat} {r r' v : Nat} (hs : Sharing vm roots)
    (hs' : Sharing vm' roots') (hr : r ∈ roots) (hr' : r' ∈ roots') (hv : v < 2 ^ 47)
    (hreach : (∃ f, Reach vm.mem r (userPath v) f) ↔ ∃ f, Reach vm'.mem r' (userPath v) f)
    (hsame : ∀ f f', Reach vm.mem r (userPath v) f → Reach vm'.mem r' (userPath v) f' →
      ((∀ e ∈ trail (ptEntry vm'.mem) child r' (userPath v), Readable e) ↔
        ∀ e ∈ trail (ptEntry vm.mem) child r (userPath v), Readable e) ∧
      vm'.mem (f' + v % pageSize) = vm.mem (f + v % pageSize)) :
    userLoad vm'.mem r' v = userLoad vm.mem r v := by
  have hneed : ∀ e, e &&& (pageFlagPresent ||| pageFlagUser) = (pageFlagPresent ||| pageFlagUser) →
      hasFlag e pageFlagPresent = true := fun e he => ((and_eq_iff_readable e).1 he).1
  ext b
  unfold userLoad
  rw [Option.map_eq_some_iff, Option.map_eq_some_iff]
  simp only [userAddr_eq_some hs hr hneed hv, userAddr_eq_some hs' hr' hneed hv, and_eq_iff_readable]
  constructor
  · rintro ⟨-, ⟨f', h1, h2, rfl⟩, rfl⟩
    obtain ⟨f, h3⟩ := hreach.2 ⟨f', h1⟩
    obtain ⟨h4, h5⟩ := hsame f f' h3 h1
    exact ⟨_, ⟨f, h3, h4.1 h2, rfl⟩, h5.symm⟩
  · rintro ⟨-, ⟨f, h1, h2, rfl⟩, rfl⟩
    obtain ⟨f', h3⟩ := hreach.1 ⟨f, h1⟩
    obtain ⟨h4, h5⟩ := hsame f f' h1 h3
    exact ⟨_, ⟨f', h3, h4.2 h2, rfl⟩, h5⟩

/-! ### Page faults -/

/-- Nothing that an address space can read has changed. -/
structure Unchanged (vm vm' : Vm) (roots : List Nat) : Prop where
  sharing : Sharing vm' roots
  load : ∀ r ∈ roots, ∀ v, v < 2 ^ 47 → userLoad vm'.mem r v = userLoad vm.mem r v

theorem Unchanged.trans {vm vm' vm'' : Vm} {roots : List Nat} (h : Unchanged vm vm' roots)
    (h' : Unchanged vm' vm'' roots) : Unchanged vm vm'' roots :=
  ⟨h'.sharing, fun r hr v hv => (h'.load r hr v hv).trans (h.load r hr v hv)⟩

theorem Sharing.frames {vm : Vm} {roots : List Nat} (hs : Sharing vm roots) {frames : Frames} (hwf : frames.Wf)
    (hle : ∀ i, vm.frames.count i ≤ frames.count i) : Sharing ⟨vm.mem, frames⟩ roots := by
  refine ⟨hwf, hs.nodup, fun r hr => ⟨(hs.root r hr).1, ?_⟩, hs.apart, hs.unique, fun f => ?_, hs.owner, hs.cow,
    hs.small⟩
  · have h := (hs.root r hr).2
    have h' := hle (r / pageSize)
    simp only
    omega
  · exact Nat.le_trans (hs.counted f) (hle _)

/-- What the handler needs from the copy of a page structure or page at a level. -/
structure Dup (dup : Mem → Nat → Nat → Mem) (level : Nat) : Prop where
  outside : ∀ m np cp x, pageSize ∣ np → pageSize ∣ cp → np ≠ cp → x < np ∨ np + pageSize ≤ x → dup m np cp x = m x
  table : level < 4 → ∀ m np cp j, pageSize ∣ np → pageSize ∣ cp → np ≠ cp → j < 512 →
    ptEntry (dup m np cp) np j = sharedEntry (ptEntry m cp j)
  page : level = 4 → ∀ m np cp o, o < pageSize → dup m np cp (np + o) = m (cp + o)

theorem dup_copyTable {level : Nat} (h : level < 4) : Dup copyTable level where
  outside m np cp x hn hc hne hx := (copyTable_spec hn hc hne).1 x hx
  table _ m np cp j hn hc hne hj := (copyTable_spec hn hc hne).2 j hj
  page h' := by omega

theorem dup_copyPage : Dup copyPage 4 where
  outside _ _ _ _ _ _ _ hx := copy_outside hx
  table h := absurd h (by decide)
  page _ _ _ _ _ ho := copy_inside ho

theorem retarget_of_dup {dup : Mem → Nat → Nat → Mem} {level : Nat} (hd : Dup dup level) {m : Mem} {t i f n : Nat}
    (hi : i < 512) (ht : pageSize ∣ t) (hf : pageSize ∣ f) (hn : pageSize ∣ n) (hn64 : n < 2 ^ 64) (hnt : n ≠ t)
    (hnf : n ≠ f) :
    ptEntry (dup m n f) t i = ptEntry m t i ∧
      Retarget m (setEntry (dup m n f) t i (copiedEntry n (ptEntry m t i))) t i f n level := by
  have hout : ∀ g, pageSize ∣ g → g ≠ n → ∀ x, g ≤ x → x < g + pageSize → dup m n f x = m x := by
    intro g hg hgn x h1 h2
    have hap := page_apart hg hn hgn
    exact hd.outside m n f x hn hf hnf (by omega)
  have hsame : ptEntry (dup m n f) t i = ptEntry m t i := ptEntry_congr hi (hout t ht hnt.symm)
  refine ⟨hsame, ?_, ?_, ?_, ?_, ?_⟩
  · rw [ptEntry_setEntry_self (copiedEntry_lt _ hn64)]
  · intro g j hg hj hgn hne
    rw [ptEntry_setEntry_of_ne ht hg hi hj hne, ptEntry_congr hj (hout g hg hgn)]
  · intro g x hg hgn hgt h1 h2
    have hap := page_apart hg ht hgt
    rw [setEntry_outside hi (by omega), hout g hg hgn x h1 h2]
  · intro hl j hj
    rw [ptEntry_setEntry_of_ne ht hn hi hj (fun h => hnt h.1), hd.table hl m n f j hn hf hnf hj]
  · intro hl o ho
    have hap := page_apart hn ht hnt
    rw [setEntry_outside hi (by omega), hd.page hl m n f o ho]

section

variable {vm : Vm} {roots : List Nat} {m' : Mem} {r i t f n : Nat} {q : List Nat} (hs : Sharing vm roots)
  (hr : r ∈ roots) (hp : UserPath (q ++ [i])) (ht : walk (ptEntry vm.mem) child r q = some t)
  (hpriv : Private vm.mem r q) (hchild : child (ptEntry vm.mem t i) = some f)
  (hn : vm.frames.count (n / pageSize) = 0) (hn64 : n < 2 ^ 64) (hdvd : pageSize ∣ n)
  (hm : Retarget vm.mem m' t i f n (q ++ [i]).length)
include hs hr hp ht hpriv hchild hn hn64 hdvd hm

private theorem retarget_load {vm' : Vm} (hvm : vm'.mem = m') (hs' : Sharing vm' roots) {r' v : Nat}
    (hr' : r' ∈ roots) (hv : v < 2 ^ 47) : userLoad vm'.mem r' v = userLoad vm.mem r' v := by
  subst hvm
  have hold : Reach vm.mem r (q ++ [i]) f := ⟨hp, by rw [walk_append_of ht, walk_singleton, hchild]⟩
  have hreach : ∀ g, Reach vm'.mem r' (userPath v) g ↔ _ := fun g =>
    retarget_reach hs hr hp ht hpriv hchild hn hn64 hdvd hm hr'
  have hlen : (userPath v).length = 4 := rfl
  refine userLoad_congr hs hs' hr' hr' hv ?_ ?_
  · constructor
    · rintro ⟨g, hg⟩
      by_cases hc : r' = r ∧ userPath v = q ++ [i]
      · exact ⟨n, (hreach n).2 (Or.inl ⟨hc.1, hc.2, rfl⟩)⟩
      · exact ⟨g, (hreach g).2 (Or.inr ⟨hc, hg⟩)⟩
    · rintro ⟨g, hg⟩
      rcases (hreach g).1 hg with ⟨rfl, hq, -⟩ | ⟨-, hg'⟩
      · exact ⟨f, hq ▸ hold⟩
      · exact ⟨g, hg'⟩
  · intro g g' hg hg'
    constructor
    · refine retarget_flags hs hr hp ht hpriv hchild hn hn64 hdvd hm hr' hg.path hg.walk ?_ ?_
      · rw [Readable, Readable, copiedEntry_user _ hn64 hdvd, (child_eq_some.1 hchild).1,
          (child_eq_some.1 (child_copiedEntry _ hn64 hdvd (child_eq_some.1 hchild).1)).1]
      · intro e he
        rw [Readable, Readable, cowEntry_user he, hasFlag_present, hasFlag_present, testBit_cowEntry he]
        simp
    · have ho : v % pageSize < pageSize := Nat.mod_lt _ (by decide)
      rcases (hreach g').1 hg' with ⟨rfl, hq, rfl⟩ | ⟨hne, hg''⟩
      · rw [hq] at hg
        obtain rfl : g = f := Option.some.inj (hg.walk.symm.trans hold.walk)
        exact hm.page (by rw [← hq, hlen]) _ ho
      · obtain rfl : g = g' := Option.some.inj (hg.walk.symm.trans hg''.walk)
        refine hm.data g _ hg.aligned ?_ ?_ (by omega) (by omega)
        · rintro rfl
          exact (hs.fresh hn).2 r' hr' _ hg
        · -- a page is not a table
          rintro rfl
          rcases visited hp ht with ⟨rfl, rfl⟩ | h
          · exact hs.apart r' hr' _ hr _ hg
          · have hq := hs.unique r' hr' r hr _ _ _ hg h
            have hl := hp.len
            rw [List.length_append, ← hq, hlen] at hl
            simp at hl

end

section

variable {vm : Vm} {roots : List Nat} {r i t : Nat} {q : List Nat} (hs : Sharing vm roots)
  (hr : r ∈ roots) (hp : UserPath (q ++ [i])) (ht : walk (ptEntry vm.mem) child r q = some t)
  (hpriv : Private vm.mem r q) (hpres : hasFlag (ptEntry vm.mem t i) pageFlagPresent = true)
include hs hr hp ht hpriv hpres

omit hpriv in
/-- The outcomes of one step of the handler: the entry is not marked, there is no memory, or the entry leads to a copy
of its frame afterwards. -/
theorem unshare_cases {dup : Mem → Nat → Nat → Mem} (hd : Dup dup (q ++ [i]).length) :
    (hasFlag (ptEntry vm.mem t i) pageFlagCow = false ∧ unshare dup vm t i = (vm, true)) ∨
    (∃ frames : Frames, hasFlag (ptEntry vm.mem t i) pageFlagCow = true ∧
      unshare dup vm t i = (⟨vm.mem, frames⟩, false) ∧ frames.Wf ∧ (∀ k, vm.frames.count k ≤ frames.count k) ∧
      ∀ k, k ≠ 0 → frames.count k = vm.frames.count k) ∨
    (∃ m' frames n, hasFlag (ptEntry vm.mem t i) pageFlagCow = true ∧ unshare dup vm t i = (⟨m', frames⟩, true) ∧
      frames.Wf ∧ n ≠ 0 ∧ vm.frames.count (n / pageSize) = 0 ∧ n < 2 ^ 64 ∧ pageSize ∣ n ∧
      alignDown (ptEntry vm.mem t i) pageSize ≠ n ∧
      Retarget vm.mem m' t i (alignDown (ptEntry vm.mem t i) pageSize) n (q ++ [i]).length ∧
      frames.count = Function.update (Function.update vm.frames.count (n / pageSize) 1)
        (alignDown (ptEntry vm.mem t i) pageSize / pageSize)
        (vm.frames.count (alignDown (ptEntry vm.mem t i) pageSize / pageSize) - 1)) := by
  have hi : i < 512 := hp.lt i (by simp)
  have hreach : Reach vm.mem r (q ++ [i]) (alignDown (ptEntry vm.mem t i) pageSize) :=
    ⟨hp, by rw [walk_append_of ht, walk_singleton, child_eq_some.2 ⟨hpres, rfl⟩]⟩
  have htd : pageSize ∣ t := hs.visited_aligned hr hp ht
  obtain ⟨hwf, halloc⟩ := allocPage_spec hs.wf
  unfold unshare
  by_cases hcow : hasFlag (ptEntry vm.mem t i) pageFlagCow = false
  · simp only [hcow, ↓reduceIte]
    exact Or.inl ⟨trivial, trivial⟩
  · have hcow' := Bool.eq_true_of_not_eq_false hcow
    by_cases h0 : (allocPage vm.frames).2 = 0
    · simp only [hcow', h0, Bool.true_eq_false, ↓reduceIte]
      refine Or.inr (Or.inl ⟨_, trivial, rfl, hwf, allocPage_le hs.wf, fun k hk => ?_⟩)
      rcases halloc with ⟨-, hc⟩ | ⟨-, -, -, hc⟩
      · rw [hc]
      · rw [hc, h0, Nat.zero_div, Function.update_of_ne hk]
    · obtain ⟨hnd, hnle, hn, hc⟩ := halloc.resolve_left fun h => h0 h.1
      simp only [hcow', h0, Bool.true_eq_false, ↓reduceIte]
      generalize allocPage vm.frames = a at *
      generalize hf : alignDown (ptEntry vm.mem t i) pageSize = f at *
      have hn64 : a.2 < 2 ^ 64 := by
        simp only [pageSize] at hnle
        omega
      obtain ⟨hnroot, hnreach⟩ := hs.fresh hn
      have hnf : a.2 ≠ f := fun h => hnreach r hr _ (h ▸ hreach)
      have hnt : a.2 ≠ t := by
        rintro rfl
        rcases visited hp ht with ⟨-, h⟩ | h
        · exact hnroot (h ▸ hr)
        · exact hnreach r hr _ h
      obtain ⟨hent, hm⟩ := retarget_of_dup hd (m := vm.mem) hi htd hreach.aligned hnd hn64 hnt hnf
      have hent0 : ptEntry vm.mem t i ≠ 0 := by
        intro h
        rw [h] at hpres
        exact absurd hpres (by decide)
      obtain ⟨hwf', hc'⟩ := freePage_spec hwf hent0 hf hreach.aligned
      have hnf' : f / pageSize ≠ a.2 / pageSize := fun h => hnf (page_div_inj hreach.aligned hnd h).symm
      rw [hent]
      exact Or.inr (Or.inr ⟨_, _, a.2, trivial, rfl, hwf', h0, hn, hn64, hnd, hnf.symm, hm,
        by rw [hc', hc, Function.update_of_ne hnf']⟩)

/-- One step of the handler changes no value, and the address space owns the way through the entry afterwards. -/
theorem unshare_spec {dup : Mem → Nat → Nat → Mem} (hd : Dup dup (q ++ [i]).length) :
    Unchanged vm (unshare dup vm t i).1 roots ∧ ((unshare dup vm t i).2 = true →
      walk (ptEntry (unshare dup vm t i).1.mem) child r (q ++ [i]) =
        some (alignDown (ptEntry (unshare dup vm t i).1.mem t i) pageSize) ∧
      Private (unshare dup vm t i).1.mem r (q ++ [i])) := by
  have hchild : child (ptEntry vm.mem t i) = some (alignDown (ptEntry vm.mem t i) pageSize) :=
    child_eq_some.2 ⟨hpres, rfl⟩
  rcases unshare_cases hs hr hp ht hpres hd with
    ⟨hcow, he⟩ | ⟨frames, -, he, hwf, hle, -⟩ | ⟨m', frames, n, -, he, hwf, -, hn, hn64, hnd, hne, hm, hc⟩
  · rw [he]
    refine ⟨⟨hs, fun _ _ _ _ => rfl⟩, fun _ => ⟨?_, fun e he => ?_⟩⟩
    · rw [walk_append_of ht, walk_singleton, hchild]
    · rw [trail_append ht, trail_singleton, List.mem_append, List.mem_singleton] at he
      rcases he with he | rfl
      · exact hpriv e he
      · exact hcow
  · rw [he]
    exact ⟨⟨hs.frames hwf hle, fun _ _ _ _ => rfl⟩, fun h => absurd h Bool.false_ne_true⟩
  · rw [he]
    have hs' := retarget_sharing hs hr hp ht hpriv hchild hn hn64 hnd hm hwf hne hc
    refine ⟨⟨hs', fun r' hr' v hv => ?_⟩, fun _ => ⟨?_, ?_⟩⟩
    · exact retarget_load hs hr hp ht hpriv hchild hn hn64 hnd hm rfl hs' hr' hv
    · have hd' := child_copiedEntry (ptEntry vm.mem t i) hn64 hnd hpres
      rw [(retarget_self hs hr hp ht hpriv hchild hn hn64 hnd hm).1, hm.entry, ← (child_eq_some.1 hd').2]
    · exact retarget_private hs hr hp ht hpriv hchild hn hn64 hnd hm

end

/-- What every step of the handler keeps holds after a page fault.  In a step the address space owns the way to the
entry, which is present. -/
theorem intPageFault_rule {vm : Vm} {roots : List Nat} {r v : Nat} {P : Vm → Prop} (hs : Sharing vm roots)
    (hr : r ∈ roots) (hv : v < 2 ^ 47)
    (hstep : ∀ (vm' : Vm) dup q i rest t, Sharing vm' roots → P vm' → userPath v = q ++ i :: rest →
      walk (ptEntry vm'.mem) child r q = some t → Private vm'.mem r q →
      hasFlag (ptEntry vm'.mem t i) pageFlagPresent = true → Dup dup (q ++ [i]).length → P (unshare dup vm' t i).1)
    (h : P vm) : P (intPageFault vm r v).1 := by
  have hp := userPath_user hv
  unfold userPath at hp hstep
  unfold intPageFault
  generalize pml4tIndex v = i1 at hp hstep ⊢
  generalize pdptIndex v = i2 at hp hstep ⊢
  generalize pdtIndex v = i3 at hp hstep ⊢
  generalize ptIndex v = i4 at hp hstep ⊢
  extract_lets _ s1 vm1 t1 _ s2 vm2 t2 _ s3 vm3 t3 _
  have hp1 : UserPath ([] ++ [i1]) := hp.left (p := [i1]) (by simp)
  have hp2 : UserPath ([i1] ++ [i2]) := hp.left (p := [i1, i2]) (by simp)
  have hp3 : UserPath ([i1, i2] ++ [i3]) := hp.left (p := [i1, i2, i3]) (by simp)
  have hp4 : UserPath ([i1, i2, i3] ++ [i4]) := hp
  by_cases hsign : v >>> 48 ≠ if i1 &&& 0x100 ≠ 0 then 0xffff else 0
  · rw [if_pos hsign]
    exact h
  rw [if_neg hsign]
  -- the PML4 table
  by_cases h1 : hasFlag (ptEntry vm.mem r i1) pageFlagPresent = false
  · rw [if_pos h1]
    exact h
  have h1' := Bool.eq_true_of_not_eq_false h1
  have hpriv : Private vm.mem r [] := by simp [Private]
  obtain ⟨u1, w1⟩ := unshare_spec hs hr hp1 (walk_nil r) hpriv h1' (dup_copyTable (by simp))
  have k1 : P vm1 := hstep vm copyTable [] i1 _ r hs h rfl (walk_nil r) hpriv h1' (dup_copyTable (by simp))
  rw [if_neg h1]
  by_cases hs1 : s1.2 = false
  · rw [if_pos hs1]
    exact k1
  obtain ⟨w1, p1⟩ := w1 (Bool.eq_true_of_not_eq_false hs1)
  rw [if_neg hs1]
  -- the page directory pointer table
  by_cases h2 : hasFlag (ptEntry vm1.mem t1 i2) pageFlagSize ∨ hasFlag (ptEntry vm1.mem t1 i2) pageFlagPresent = false
  · rw [if_pos h2]
    exact k1
  have h2' := Bool.eq_true_of_not_eq_false (not_or.1 h2).2
  obtain ⟨u2, w2⟩ := unshare_spec u1.sharing hr hp2 w1 p1 h2' (dup_copyTable (by simp))
  have k2 : P vm2 := hstep vm1 copyTable [i1] i2 _ t1 u1.sharing k1 rfl w1 p1 h2' (dup_copyTable (by simp))
  rw [if_neg h2]
  by_cases hs2 : s2.2 = false
  · rw [if_pos hs2]
    exact k2
  obtain ⟨w2, p2⟩ := w2 (Bool.eq_true_of_not_eq_false hs2)
  rw [if_neg hs2]
  -- the page directory
  by_cases h3 : hasFlag (ptEntry vm2.mem t2 i3) pageFlagSize ∨ hasFlag (ptEntry vm2.mem t2 i3) pageFlagPresent = false
  · rw [if_pos h3]
    exact k2
  have h3' := Bool.eq_true_of_not_eq_false (not_or.1 h3).2
  obtain ⟨u3, w3⟩ := unshare_spec u2.sharing hr hp3 w2 p2 h3' (dup_copyTable (by simp))
  have k3 : P vm3 := hstep vm2 copyTable [i1, i2] i3 _ t2 u2.sharing k2 rfl w2 p2 h3' (dup_copyTable (by simp))
  rw [if_neg h3]
  by_cases hs3 : s3.2 = false
  · rw [if_pos hs3]
    exact k3
  obtain ⟨w3, p3⟩ := w3 (Bool.eq_true_of_not_eq_false hs3)
  rw [if_neg hs3]
  -- the page table
  by_cases h4 : hasFlag (ptEntry vm3.mem t3 i4) pageFlagPresent = false
  · rw [if_pos h4]
    exact k3
  rw [if_neg h4]
  by_cases h5 : hasFlag (ptEntry vm3.mem t3 i4) pageFlagCow = false
  · rw [if_pos h5]
    exact k3
  rw [if_neg h5]
  exact hstep vm3 copyPage [i1, i2, i3] i4 _ t3 u3.sharing k3 rfl w3 p3 (Bool.eq_true_of_not_eq_false h4) dup_copyPage

theorem intPageFault_unchanged {vm : Vm} {roots : List Nat} {r v : Nat} (hs : Sharing vm roots) (hr : r ∈ roots)
    (hv : v < 2 ^ 47) : Unchanged vm (intPageFault vm r v).1 roots := by
  refine intPageFault_rule (P := fun vm' => Unchanged vm vm' roots) hs hr hv ?_ ⟨hs, fun _ _ _ _ => rfl⟩
  intro vm' dup q i rest t hs' hu hsplit ht hpriv hpres hd
  have hp : UserPath (q ++ [i]) := by
    have hp := userPath_user hv
    rw [hsplit, show q ++ i :: rest = (q ++ [i]) ++ rest by simp] at hp
    exact hp.left (by simp)
  exact hu.trans (unshare_spec hs' hr hp ht hpriv hpres hd).1

/-! ### Writes -/

section

variable {vm : Vm} {roots : List Nat} (hs : Sharing vm roots)
include hs

/-- The invariant depends on the ways of the address spaces that are left, and on the counts. -/
theorem Sharing.restrict {vm' : Vm} {roots' : List Nat} (hsub : roots'.Sublist roots)
    (h : ∀ r ∈ roots', ∀ p, UserPath p → walk (ptEntry vm'.mem) child r p = walk (ptEntry vm.mem) child r p ∧
      trail (ptEntry vm'.mem) child r p = trail (ptEntry vm.mem) child r p) (hwf : vm'.frames.Wf)
    (hroot : ∀ r ∈ roots', vm'.frames.count (r / pageSize) ≠ 0)
    (hcount : ∀ f, users vm'.mem roots' f ≤ vm'.frames.count (f / pageSize)) : Sharing vm' roots' := by
  have hmem : ∀ r ∈ roots', r ∈ roots := fun r hr => hsub.subset hr
  have hreach : ∀ r ∈ roots', ∀ p f, Reach vm'.mem r p f → Reach vm.mem r p f := fun r hr p f hf =>
    ⟨hf.path, (h r hr p hf.path).1 ▸ hf.walk⟩
  refine ⟨hwf, hs.nodup.sublist hsub, fun r hr => ⟨(hs.root r (hmem r hr)).1, hroot r hr⟩, ?_, ?_, hcount, ?_, ?_, ?_⟩
  · intro r hr r' hr' p hf
    exact hs.apart r (hmem r hr) r' (hmem r' hr') p (hreach r hr p r' hf)
  · intro r hr r' hr' p p' f hf hf'
    exact hs.unique r (hmem r hr) r' (hmem r' hr') p p' f (hreach r hr p f hf) (hreach r' hr' p' f hf')
  · intro r hr r' hr' p f hf hpriv hf'
    refine hs.owner r (hmem r hr) r' (hmem r' hr') p f (hreach r hr p f hf) ?_ (hreach r' hr' p f hf')
    intro e he
    exact hpriv e ((h r hr p hf.path).2 ▸ he)
  · intro r hr p f hf
    rw [(h r hr p hf.path).2]
    exact hs.cow r (hmem r hr) p f (hreach r hr p f hf)
  · intro r hr p f hf
    rw [(h r hr p hf.path).2]
    exact hs.small r (hmem r hr) p f (hreach r hr p f hf)

theorem Sharing.mem {m' : Mem}
    (h : ∀ r ∈ roots, ∀ p, UserPath p → walk (ptEntry m') child r p = walk (ptEntry vm.mem) child r p ∧
      trail (ptEntry m') child r p = trail (ptEntry vm.mem) child r p) : Sharing ⟨m', vm.frames⟩ roots := by
  have hle : ∀ f, users m' roots f ≤ vm.frames.count (f / pageSize) := by
    intro f
    refine Nat.le_trans (users_le (List.Sublist.refl _) ?_) (hs.counted f)
    rintro r hr ⟨p, hf⟩
    exact ⟨p, hf.path, (h r hr p hf.path).1 ▸ hf.walk⟩
  have hroot : ∀ r ∈ roots, vm.frames.count (r / pageSize) ≠ 0 := fun r hr => (hs.root r hr).2
  exact hs.restrict (List.Sublist.refl _) h hs.wf hroot hle

end

theorem setByte_walk {vm : Vm} {roots : List Nat} (hs : Sharing vm roots) {r f o : Nat} {p : List Nat}
    (hr : r ∈ roots) (hf : Reach vm.mem r p f) (hp : p.length = 4) (ho : o < pageSize) (b : UInt8) :
    ∀ r' ∈ roots, ∀ p', UserPath p' →
      walk (ptEntry (setByte vm.mem (f + o) b)) child r' p' = walk (ptEntry vm.mem) child r' p' ∧
      trail (ptEntry (setByte vm.mem (f + o) b)) child r' p' = trail (ptEntry vm.mem) child r' p' := by
  intro r' hr' p' hp'
  refine walk_trail_congr fun q j rest g hsplit hq => ?_
  rw [hsplit] at hp'
  have hgf : g ≠ f := by
    rintro rfl
    rcases visited hp' hq with ⟨-, rfl⟩ | h
    · exact hs.apart r hr _ hr' p hf
    · have hl := hp'.len
      rw [hs.unique _ hr' _ hr _ _ _ h hf, List.length_append, List.length_cons] at hl
      omega
  have hap := page_apart (hs.visited_aligned hr' hp' hq) hf.aligned hgf
  exact ptEntry_congr (hp'.lt j (by simp)) fun x h1 h2 => setByte_of_ne (by omega)

theorem and_eq_iff_writable (e : Nat) :
    e &&& (pageFlagPresent ||| pageFlagUser ||| pageFlagRw) = (pageFlagPresent ||| pageFlagUser ||| pageFlagRw) ↔
      Readable e ∧ hasFlag e pageFlagRw = true := by
  rw [and_or_eq_iff, and_eq_iff_readable, hasFlag_rw]
  exact and_congr_right fun _ => and_shiftLeft_eq_iff e 1

theorem userStore_spec {vm : Vm} {roots : List Nat} (hs : Sharing vm roots) {r v : Nat} {b : UInt8} {m' : Mem}
    (hr : r ∈ roots) (hv : v < 2 ^ 47) (hst : userStore vm.mem r v b = some m') : Sharing ⟨m', vm.frames⟩ roots ∧
      userLoad m' r v = some b ∧
      ∀ r' ∈ roots, ∀ w, w < 2 ^ 47 → ¬(r' = r ∧ w = v) → userLoad m' r' w = userLoad vm.mem r' w := by
  have ho : ∀ w, w % pageSize < pageSize := fun w => Nat.mod_lt _ (by decide)
  unfold userStore at hst
  obtain ⟨a, ha, rfl⟩ := Option.map_eq_some_iff.1 hst
  obtain ⟨f, hf, hall, rfl⟩ := (userAddr_eq_some hs hr (fun e he => ((and_eq_iff_writable e).1 he).1.1) hv).1 ha
  have hsame := setByte_walk hs hr hf rfl (ho v) b
  have hs' := hs.mem hsame
  have hreach : ∀ r' ∈ roots, ∀ w f', w < 2 ^ 47 →
      (Reach (setByte vm.mem (f + v % pageSize) b) r' (userPath w) f' ↔ Reach vm.mem r' (userPath w) f') := by
    intro r' hr' w f' hw
    have hp := userPath_user hw
    have h := (hsame r' hr' _ hp).1
    exact ⟨fun h' => ⟨hp, h ▸ h'.walk⟩, fun h' => ⟨hp, h.trans h'.walk⟩⟩
  -- every entry on the way is writable, so none of them is shared
  have hpriv : Private vm.mem r (userPath v) := by
    intro e he
    have hw := ((and_eq_iff_writable e).1 (hall e he)).2
    by_contra hc
    have hrw := hs.cow r hr _ f hf e he (Bool.eq_true_of_not_eq_false hc)
    rw [hw] at hrw
    exact absurd hrw (by decide)
  refine ⟨hs', ?_, ?_⟩
  · have haddr := (userAddr_eq_some hs' hr (fun e he => ((and_eq_iff_readable e).1 he).1) hv).2
      ⟨f, (hreach r hr v f hv).2 hf, ?_, rfl⟩
    · rw [userLoad, haddr, Option.map_some, setByte, if_pos rfl]
    · intro e he
      rw [(hsame r hr _ hf.path).2] at he
      exact (and_eq_iff_readable e).2 ((and_eq_iff_writable e).1 (hall e he)).1
  · intro r' hr' w hw hne
    have hcongr := userLoad_congr hs hs' hr' hr' hw
    refine hcongr ?_ ?_
    · exact exists_congr fun f' => (hreach r' hr' w f' hw).symm
    · intro f1 f2 h1 h2
      have h2' := (hreach r' hr' w f2 hw).1 h2
      obtain rfl : f1 = f2 := Option.some.inj (h1.walk.symm.trans h2'.walk)
      refine ⟨by rw [(hsame r' hr' _ h1.path).2], ?_⟩
      refine setByte_of_ne fun heq => hne ?_
      have hfe : f1 = f := by
        by_contra hff
        have hap := page_apart h1.aligned hf.aligned hff
        have h3 := ho v
        have h4 := ho w
        omega
      subst hfe
      have hpath := hs.unique r' hr' r hr _ _ _ h1 hf
      rw [hpath] at h1
      exact ⟨hs.owner r hr r' hr' _ _ hf hpriv h1, userPath_inj hw hv hpath (by omega)⟩

end Pml.Arch
