import Pml.Arch.Isolation
import Pml.Lib.Machine

/-!
# Reference counts of user memory (`arch/x86_64/mm.c`)

`thread_clone` adds a reference to every frame of the parent, the page fault handler moves one reference from a shared
frame to its copy, and `vm_unmap_user_mem` gives the references of an address space back.  The three visit the tables
in different ways, but each changes the count of a frame by the change in the number of address spaces that reach it,
so that the two stay equal over every run (`count_eq_users`).
-/

namespace Pml.Arch

open ByteMemory Radix

/-! ### Teardown -/

def vmUnmapUserMem (vm : Vm) (pml4t : Nat) : Vm :=
  (List.range 256).foldl (fun vm i =>
    let e := ptEntry vm.mem pml4t i
    if hasFlag e pageFlagPresent then
      let pdpt := alignDown e pageSize
      ⟨setEntry vm.mem pml4t i 0, freePage (freePdpt vm.mem vm.frames pdpt) pdpt⟩
    else vm) vm

/-! ### The operations on counts and address spaces -/

private theorem div_pageSize_ne_zero {f : Nat} (hf : pageSize ∣ f) (h0 : f ≠ 0) : f / pageSize ≠ 0 := by
  obtain ⟨a, rfl⟩ := hf
  rw [Nat.mul_div_cancel_left _ (by decide)]
  rintro rfl
  exact h0 rfl

private theorem users_cons (m : Mem) (r : Nat) (roots : List Nat) (f : Nat) :
    users m (r :: roots) f = users m [r] f + users m roots f := by
  unfold users
  rw [← List.singleton_append, List.countP_append]

private theorem users_erase (m : Mem) {roots : List Nat} {r f : Nat} (hr : r ∈ roots) :
    users m roots f = users m [r] f + users m (roots.erase r) f := by
  rw [← users_cons]
  exact (List.perm_cons_erase hr).countP_eq _

private theorem users_congr {m m' : Mem} {roots : List Nat} {f : Nat}
    (h : ∀ r ∈ roots, (∃ p, Reach m' r p f) ↔ ∃ p, Reach m r p f) : users m' roots f = users m roots f := by
  classical
  refine List.countP_congr fun r hr => ?_
  simpa using h r hr

private theorem users_singleton_congr {m m' : Mem} {r r' f : Nat} (h : (∃ p, Reach m' r' p f) ↔ ∃ p, Reach m r p f) :
    users m' [r'] f = users m [r] f := by
  classical
  simp only [users, List.countP_singleton, h]

section

variable {vm : Vm} {roots : List Nat} (hs : Sharing vm roots) {r : Nat} (hr : r ∈ roots)
include hs hr

/-- The visit of an entry of the PML4 table does not read the PML4 table again. -/
private theorem framesUnder_congr {m : Mem} (hout : ∀ x, x < r ∨ r + pageSize ≤ x → m x = vm.mem x) {i : Nat}
    (hi : i < 256) :
    framesUnder m 3 (ptEntry vm.mem r i) = framesUnder vm.mem 3 (ptEntry vm.mem r i) := by
  unfold framesUnder under
  cases hc : userChild 3 (ptEntry vm.mem r i) with
  | none => rw [Option.elim_none, Option.elim_none]
  | some g =>
    have hsub : ∀ k e u, userChild k e = some u → child e = some u := by
      intro k e u h
      unfold userChild at h
      split at h
      · exact absurd h (by simp)
      · exact h
    rw [Option.elim_some, Option.elim_some, below_congr hsub fun p j u hp hw => ?_]
    have hpath : UserPath ((i :: p) ++ [j]) := userPath_iff.2 ⟨by simp, hi, hp⟩
    have hwalk : walk (ptEntry vm.mem) child r (i :: p) = some u := by
      rw [walk_cons, hsub 3 _ g hc]
      exact hw
    have hur : u ≠ r := by
      rintro rfl
      exact hs.apart _ hr _ hr (i :: p) ⟨hpath.left (by simp), hwalk⟩
    have hap := page_apart (hs.visited_aligned hr hpath hwalk) (hs.root r hr).1 hur
    exact ptEntry_congr (hpath.lt j (by simp)) fun x h1 h2 => hout x (by omega)

/-- `vm_unmap_user_mem` writes to the PML4 table only, and gives back a reference to every frame that the address
space reaches. -/
private theorem vmUnmapUserMem_spec :
    (∀ x, x < r ∨ r + pageSize ≤ x → (vmUnmapUserMem vm r).mem x = vm.mem x) ∧ (vmUnmapUserMem vm r).frames.Wf ∧
      ∀ f, pageSize ∣ f → f ≠ 0 →
        (vmUnmapUserMem vm r).frames.count (f / pageSize) = vm.frames.count (f / pageSize) - users vm.mem [r] f := by
  have hrd := (hs.root r hr).1
  -- after `j` rounds the first `j` entries have been visited and the others are as before
  have loop : ∀ j, j ≤ 256 → ∀ vm', vm' = (List.range j).foldl (fun vm i =>
      let e := ptEntry vm.mem r i
      if hasFlag e pageFlagPresent then
        let pdpt := alignDown e pageSize
        ⟨setEntry vm.mem r i 0, freePage (freePdpt vm.mem vm.frames pdpt) pdpt⟩
      else vm) vm →
      (∀ x, x < r ∨ r + pageSize ≤ x → vm'.mem x = vm.mem x) ∧
      (∀ i, j ≤ i → i < 256 → ptEntry vm'.mem r i = ptEntry vm.mem r i) ∧ vm'.frames.Wf ∧
      ∀ k, k ≠ 0 → vm'.frames.count k = minus (vm.frames.count k)
        (hits k ((List.range j).flatMap fun i => framesUnder vm.mem 3 (ptEntry vm.mem r i))) := by
    intro j
    induction j with
    | zero =>
      rintro - vm' rfl
      exact ⟨fun _ _ => rfl, fun _ _ _ => rfl, hs.wf, fun _ _ => rfl⟩
    | succ j ih =>
      rintro hj vm' rfl
      rw [List.range_succ, List.foldl_append, List.flatMap_append]
      generalize hvj : (List.range j).foldl _ _ = vj
      obtain ⟨h1, h2, h3, h4⟩ := ih (by omega) vj hvj.symm
      have hchange := Changes.visit (m := vj.mem) minus_zero (present_iff 3 (ptEntry vm.mem r j) (by decide))
        (F := fun f => freePage (freePdpt vj.mem f (alignDown (ptEntry vm.mem r j) pageSize))
          (alignDown (ptEntry vm.mem r j) pageSize))
        fun _ => frees_freeTable (F := fun f => freePdpt vj.mem f (alignDown (ptEntry vm.mem r j) pageSize))
          (frees_freePdpt vj.mem _) (pageSize_dvd_alignDown _) (alignDown_page_lt _)
      rw [framesUnder_congr hs hr h1 (by omega)] at hchange
      obtain ⟨h5, h6⟩ := hchange vj.frames h3
      have hcount : ∀ k, k ≠ 0 → minus (vj.frames.count k) (hits k (framesUnder vm.mem 3 (ptEntry vm.mem r j))) =
          minus (vm.frames.count k)
          (hits k ((List.range j).flatMap (fun i => framesUnder vm.mem 3 (ptEntry vm.mem r i)) ++
            [j].flatMap fun i => framesUnder vm.mem 3 (ptEntry vm.mem r i))) := by
        intro k hk
        rw [h4 k hk, minus_minus, hits, hits, hits, List.countP_append, List.flatMap_singleton]
      simp only [List.foldl_cons, List.foldl_nil, h2 j (Nat.le_refl j) (by omega)]
      by_cases hp : hasFlag (ptEntry vm.mem r j) pageFlagPresent = true
      · simp only [hp, ↓reduceIte] at h5 h6 ⊢
        refine ⟨fun x hx => ?_, fun i hi1 hi2 => ?_, h5, fun k hk => (h6 k hk).trans (hcount k hk)⟩
        · rw [setEntry_outside (by omega) hx, h1 x hx]
        · rw [ptEntry_setEntry_of_ne hrd hrd (by omega) (by omega) (by omega), h2 i (by omega) hi2]
      · simp only [hp, Bool.false_eq_true, ↓reduceIte] at h5 h6 ⊢
        exact ⟨h1, fun i hi1 hi2 => h2 i (by omega) hi2, h5, fun k hk => (h6 k hk).trans (hcount k hk)⟩
  obtain ⟨h1, -, h2, h3⟩ := loop 256 (Nat.le_refl _) (vmUnmapUserMem vm r) rfl
  refine ⟨h1, h2, fun f hf h0 => ?_⟩
  rw [← hs.hits_frames hr hf, framesBelow_root]
  exact h3 _ (div_pageSize_ne_zero hf h0)

end

/-! ### Runs -/

/-- The live address spaces, and the frames that forks have taken for PML4 tables and thread-local tables. -/
structure LifeState where
  vm : Vm
  spaces : List Nat
  taken : List Nat

/-- What can happen to the live address spaces. -/
inductive LifeInput where
  | fork (r : Nat)
  | fault (r : Nat) (v : UserAddr)
  | exit (r : Nat)

def lifeStep (s : LifeState) : LifeInput → Option LifeState
  | .fork r =>
    if r ∈ s.spaces then
      let c := threadClone s.vm r
      if c.2 = 0 then some { s with vm := c.1 }
      else some ⟨c.1, c.2 :: s.spaces, c.2 :: (allocPage (allocPage s.vm.frames).1).2 :: s.taken⟩
    else none
  | .fault r v => if r ∈ s.spaces then some { s with vm := (intPageFault s.vm r v).1 } else none
  | .exit r => if r ∈ s.spaces then some ⟨vmUnmapUserMem s.vm r, s.spaces.erase r, s.taken⟩ else none

/-- The count of a frame is the number of address spaces that reach it, what it is held for outside of user memory,
and its use in a fork. -/
structure Balanced (held : Nat → Nat) (s : LifeState) : Prop where
  sharing : Sharing s.vm s.spaces
  root : ∀ r ∈ s.spaces, r ≠ 0
  reach : ∀ r ∈ s.spaces, ∀ p f, Reach s.vm.mem r p f → f ≠ 0 ∧ held f = 0 ∧ s.taken.count f = 0
  count : ∀ f, pageSize ∣ f → f ≠ 0 →
    s.vm.frames.count (f / pageSize) = users s.vm.mem s.spaces f + held f + s.taken.count f

section

variable {held : Nat → Nat} {s : LifeState} (hb : Balanced held s)
include hb

theorem Balanced.frames {frames : Frames} (hwf : frames.Wf) (hle : ∀ k, s.vm.frames.count k ≤ frames.count k)
    (heq : ∀ k, k ≠ 0 → frames.count k = s.vm.frames.count k) :
    Balanced held { s with vm := ⟨s.vm.mem, frames⟩ } := by
  refine ⟨hb.sharing.frames hwf hle, hb.root, hb.reach, fun f hf h0 => ?_⟩
  exact (heq _ (div_pageSize_ne_zero hf h0)).trans (hb.count f hf h0)

theorem Balanced.fresh {n : Nat} (hd : pageSize ∣ n) (h0 : n ≠ 0) (hn : s.vm.frames.count (n / pageSize) = 0) :
    held n = 0 ∧ s.taken.count n = 0 := by
  have h := hb.count n hd h0
  omega

end

section

variable {vm : Vm} {roots : List Nat} {m' : Mem} {r i t f n : Nat} {q : List Nat} (hs : Sharing vm roots)
  (hr : r ∈ roots) (hp : UserPath (q ++ [i])) (ht : walk (ptEntry vm.mem) child r q = some t)
  (hpriv : Private vm.mem r q) (hchild : child (ptEntry vm.mem t i) = some f)
  (hn : vm.frames.count (n / pageSize) = 0) (hn64 : n < 2 ^ 64) (hdvd : pageSize ∣ n)
  (hm : Retarget vm.mem m' t i f n (q ++ [i]).length)
include hs hr hp ht hpriv hchild hn hn64 hdvd hm

/-- Copying a frame takes one address space from it and gives it to the copy. -/
private theorem retarget_users (g : Nat) : users m' roots g + users vm.mem [r] g =
    users vm.mem roots g + if g = n then 1 else if g = f then 0 else users vm.mem [r] g := by
  obtain ⟨-, hfresh⟩ := hs.fresh hn
  have hold : Reach vm.mem r (q ++ [i]) f := ⟨hp, by rw [walk_append_of ht, walk_singleton, hchild]⟩
  have hreach : ∀ r' ∈ roots, ∀ p g, Reach m' r' p g ↔ _ := fun r' h p g =>
    retarget_reach hs hr hp ht hpriv hchild hn hn64 hdvd hm h
  -- the other address spaces are not affected
  have hother : users m' (roots.erase r) g = users vm.mem (roots.erase r) g := by
    refine users_congr fun r' hr' => exists_congr fun p => ?_
    have hne : r' ≠ r := ((hs.nodup.mem_erase_iff).1 hr').1
    rw [hreach r' (List.mem_of_mem_erase hr') p g]
    exact ⟨fun h => (h.resolve_left fun h => hne h.1).2, fun h => Or.inr ⟨fun h' => hne h'.1, h⟩⟩
  have hself : users m' [r] g = if g = n then 1 else if g = f then 0 else users vm.mem [r] g := by
    by_cases hgn : g = n
    · rw [if_pos hgn]
      exact users_singleton ((hreach r hr (q ++ [i]) g).2 (Or.inl ⟨rfl, rfl, hgn⟩))
    · rw [if_neg hgn]
      by_cases hgf : g = f
      · rw [if_pos hgf]
        refine users_eq_zero fun r' hr' p h => ?_
        obtain rfl := List.mem_singleton.1 hr'
        obtain ⟨h1, h2⟩ := ((hreach r' hr p g).1 h).resolve_left fun h => hgn h.2.2
        subst hgf
        exact h1 ⟨rfl, hs.unique _ hr _ hr _ _ _ h2 hold⟩
      · rw [if_neg hgf]
        refine users_singleton_congr (exists_congr fun p => ?_)
        rw [hreach r hr p g]
        refine ⟨fun h => (h.resolve_left fun h => hgn h.2.2).2, fun h => Or.inr ⟨fun h' => hgf ?_, h⟩⟩
        rw [h'.2] at h
        exact Option.some.inj (h.walk.symm.trans hold.walk)
  rw [users_erase m' hr, users_erase vm.mem hr, hother, hself]
  omega

end

section

variable {held : Nat → Nat} {s : LifeState} (hb : Balanced held s) {r : Nat} (hr : r ∈ s.spaces)
include hb hr

theorem Balanced.unshare {dup : Mem → Nat → Nat → Mem} {q : List Nat} {i t : Nat} (hp : UserPath (q ++ [i]))
    (ht : walk (ptEntry s.vm.mem) child r q = some t) (hpriv : Private s.vm.mem r q)
    (hpres : hasFlag (ptEntry s.vm.mem t i) pageFlagPresent = true) (hd : Dup dup (q ++ [i]).length) :
    Balanced held { s with vm := (Pml.Arch.unshare dup s.vm t i).1 } := by
  have hs := hb.sharing
  have hchild : child (ptEntry s.vm.mem t i) = some (alignDown (ptEntry s.vm.mem t i) pageSize) :=
    child_eq_some.2 ⟨hpres, rfl⟩
  rcases unshare_cases hs hr hp ht hpres hd with ⟨-, he⟩ | ⟨frames, -, he, hwf, hle, heq⟩ |
    ⟨m', frames, n, -, he, hwf, hn0, hn, hn64, hnd, hne, hm, hcount⟩
  · rw [he]
    exact hb
  · rw [he]
    exact hb.frames hwf hle heq
  rw [he]
  generalize alignDown (ptEntry s.vm.mem t i) pageSize = f at hchild hne hm hcount
  have hold : Reach s.vm.mem r (q ++ [i]) f := ⟨hp, by rw [walk_append_of ht, walk_singleton, hchild]⟩
  have hfresh := hb.fresh hnd hn0 hn
  refine ⟨retarget_sharing hs hr hp ht hpriv hchild hn hn64 hnd hm hwf hne hcount, hb.root, ?_, fun g hg h0 => ?_⟩
  · intro r' hr' p g h
    rcases (retarget_reach hs hr hp ht hpriv hchild hn hn64 hnd hm hr').1 h with ⟨-, -, rfl⟩ | ⟨-, h⟩
    · exact ⟨hn0, hfresh⟩
    · exact hb.reach r' hr' p g h
  · have hbal := hb.count g hg h0
    have husers := retarget_users hs hr hp ht hpriv hchild hn hn64 hnd hm g
    simp only [hcount]
    by_cases hgn : g = n
    · subst hgn
      have hgf : g / pageSize ≠ f / pageSize := fun h => hne (page_div_inj hg hold.aligned h).symm
      have hnone := users_eq_zero fun r' hr' => (hs.fresh hn).2 r' hr'
      have hnone' : users s.vm.mem [r] g = 0 := users_eq_zero fun r' hr' => by
        obtain rfl := List.mem_singleton.1 hr'
        exact (hs.fresh hn).2 r' hr
      rw [if_pos rfl] at husers
      rw [Function.update_of_ne hgf, Function.update_self]
      omega
    · have hgn' : g / pageSize ≠ n / pageSize := fun h => hgn (page_div_inj hg hnd h)
      rw [if_neg hgn] at husers
      by_cases hgf : g = f
      · subst hgf
        have hone := users_singleton hold
        rw [if_pos rfl] at husers
        rw [Function.update_self]
        omega
      · have hgf' : g / pageSize ≠ f / pageSize := fun h => hgf (page_div_inj hg hold.aligned h)
        rw [if_neg hgf] at husers
        rw [Function.update_of_ne hgf', Function.update_of_ne hgn']
        omega

theorem Balanced.fault {v : Nat} (hv : v < 2 ^ 47) : Balanced held { s with vm := (intPageFault s.vm r v).1 } := by
  refine intPageFault_rule (P := fun vm => Balanced held { s with vm := vm }) hb.sharing hr hv ?_ hb
  intro vm dup q i rest t _ hb' hsplit ht hpriv hpres hd
  have hp : UserPath (q ++ [i]) := by
    have hp := userPath_user hv
    rw [hsplit, show q ++ i :: rest = (q ++ [i]) ++ rest by simp] at hp
    exact hp.left (by simp)
  exact hb'.unshare hr hp ht hpriv hpres hd

theorem Balanced.exit : Balanced held ⟨vmUnmapUserMem s.vm r, s.spaces.erase r, s.taken⟩ := by
  have hs := hb.sharing
  obtain ⟨hout, hwf, hcount⟩ := vmUnmapUserMem_spec hs hr
  have hlive : ∀ r' ∈ s.spaces.erase r, r' ≠ r ∧ r' ∈ s.spaces := fun r' h => (hs.nodup.mem_erase_iff).1 h
  have hwalk : ∀ r' ∈ s.spaces.erase r, ∀ p, UserPath p →
      walk (ptEntry (vmUnmapUserMem s.vm r).mem) child r' p = walk (ptEntry s.vm.mem) child r' p ∧
        trail (ptEntry (vmUnmapUserMem s.vm r).mem) child r' p = trail (ptEntry s.vm.mem) child r' p :=
    fun r' hr' p hp => hs.other_walk hr (hlive r' hr').2 (hlive r' hr').1 hout hp
  have hreach : ∀ r' ∈ s.spaces.erase r, ∀ p f, Reach (vmUnmapUserMem s.vm r).mem r' p f ↔ Reach s.vm.mem r' p f :=
    fun r' hr' p f => ⟨fun h => ⟨h.path, (hwalk r' hr' p h.path).1 ▸ h.walk⟩,
      fun h => ⟨h.path, (hwalk r' hr' p h.path).1.trans h.walk⟩⟩
  have husers : ∀ f, users s.vm.mem s.spaces f =
      users s.vm.mem [r] f + users (vmUnmapUserMem s.vm r).mem (s.spaces.erase r) f := by
    intro f
    rw [users_erase _ hr]
    refine congrArg _ (users_congr fun r' hr' => exists_congr fun p => ?_)
    exact (hreach r' hr' p f).symm
  have hbal : ∀ f, pageSize ∣ f → f ≠ 0 → (vmUnmapUserMem s.vm r).frames.count (f / pageSize) =
      users (vmUnmapUserMem s.vm r).mem (s.spaces.erase r) f + held f + s.taken.count f := by
    intro f hf h0
    have h1 := hb.count f hf h0
    have h2 := husers f
    rw [hcount f hf h0]
    omega
  have hcounted : ∀ f, users (vmUnmapUserMem s.vm r).mem (s.spaces.erase r) f ≤
      (vmUnmapUserMem s.vm r).frames.count (f / pageSize) := by
    intro f
    rcases Nat.eq_zero_or_pos (users (vmUnmapUserMem s.vm r).mem (s.spaces.erase r) f) with h0 | hpos
    · omega
    · obtain ⟨r', hr', p, h⟩ := exists_of_users_pos hpos
      have h' := (hreach r' hr' p f).1 h
      have h1 := hbal f h'.aligned (hb.reach r' (hlive r' hr').2 p f h').1
      omega
  -- no address space reaches another PML4 table
  have hroot : ∀ r' ∈ s.spaces.erase r, (vmUnmapUserMem s.vm r).frames.count (r' / pageSize) ≠ 0 := by
    intro r' hr'
    have hnone : users s.vm.mem [r] r' = 0 := users_eq_zero fun x hx => by
      obtain rfl := List.mem_singleton.1 hx
      exact hs.apart x hr r' (hlive r' hr').2
    obtain ⟨hrd, hrc⟩ := hs.root r' (hlive r' hr').2
    rw [hcount r' hrd (hb.root r' (hlive r' hr').2)]
    omega
  exact ⟨hs.restrict List.erase_sublist hwalk hwf hroot hcounted, fun r' hr' => hb.root r' (hlive r' hr').2,
    fun r' hr' p f h => hb.reach r' (hlive r' hr').2 p f ((hreach r' hr' p f).1 h), hbal⟩

theorem Balanced.fork (h0 : (threadClone s.vm r).2 ≠ 0) : Balanced held ⟨(threadClone s.vm r).1,
    (threadClone s.vm r).2 :: s.spaces,
    (threadClone s.vm r).2 :: (allocPage (allocPage s.vm.frames).1).2 :: s.taken⟩ := by
  have hs := hb.sharing
  have hs' := ((threadClone_spec hs hr).resolve_left fun h => h0 h.1).2.1
  have hwalks := fun p hp => threadClone_walks hs hr h0 (p := p) hp
  rcases threadClone_cases hs hr with ⟨frames, he, -⟩ |
    ⟨n, b, m2, m4, frames, he, hb2, hn0, hb0, hnd, hbd, hnb, hn, hbc, hwf, hcount, hm, -, -⟩
  · rw [he] at h0
    exact absurd rfl h0
  rw [← hb2]
  rw [he] at hs' hwalks ⊢
  simp only at hs' hwalks ⊢
  obtain ⟨hnroot, hnreach⟩ := hs.fresh hn
  obtain ⟨hbroot, hbreach⟩ := hs.fresh hbc
  have hnfresh := hb.fresh hnd hn0 hn
  have hbfresh := hb.fresh hbd hb0 hbc
  -- the frames reached by the old address spaces and the new one
  have hold : ∀ r' ∈ s.spaces, ∀ p f, Reach m4 r' p f ↔ Reach s.vm.mem r' p f := by
    intro r' hr' p f
    have hw : UserPath p → walk (ptEntry m4) child r' p = walk (ptEntry s.vm.mem) child r' p := by
      intro hp
      by_cases hne : r' = r
      · subst hne
        exact (hwalks p hp).2.1.1
      · exact ((hwalks p hp).1 r' hr' hne).1
    exact ⟨fun h => ⟨h.path, hw h.path ▸ h.walk⟩, fun h => ⟨h.path, (hw h.path).trans h.walk⟩⟩
  have hnew : ∀ p f, Reach m4 n p f ↔ Reach s.vm.mem r p f := by
    intro p f
    rw [← hold r hr p f]
    exact ⟨fun h => ⟨h.path, (hwalks p h.path).2.2.1 ▸ h.walk⟩,
      fun h => ⟨h.path, (hwalks p h.path).2.2.1.trans h.walk⟩⟩
  have husers : ∀ f, users m4 (n :: s.spaces) f = users s.vm.mem [r] f + users s.vm.mem s.spaces f := by
    intro f
    rw [users_cons, users_singleton_congr (exists_congr fun p => hnew p f),
      users_congr fun r' hr' => exists_congr fun p => hold r' hr' p f]
  -- the references
  have hfill : ∀ x, x < b ∨ b + pageSize ≤ x → fill s.vm.mem b pageSize 0 x = s.vm.mem x :=
    fun x hx => fill_outside hx
  have hs1 := (hs.outside hbd hbroot hbreach hfill).sharing
  have hw1 := hs.outside_walk hbd hbroot hbreach hfill
  have hs2 := mark_sharing hs1 hr hm
  have hrefs : ∀ f, pageSize ∣ f → f ≠ 0 →
      (refUser m2 frames r).count (f / pageSize) = plus (frames.count (f / pageSize)) (users s.vm.mem [r] f) := by
    intro f hf h0
    rw [(adds_refUser m2 r frames hwf).2 _ trivial, hs2.hits_frames hr hf]
    refine congrArg _ (users_singleton_congr (exists_congr fun p => ?_))
    rw [mark_reach hs1 hr hm hr]
    exact ⟨fun h => ⟨h.path, (hw1 r hr p h.path).1 ▸ h.walk⟩, fun h => ⟨h.path, (hw1 r hr p h.path).1.trans h.walk⟩⟩
  have hnever : ∀ f, (∀ r' ∈ s.spaces, ∀ p, ¬Reach s.vm.mem r' p f) →
      users s.vm.mem s.spaces f = 0 ∧ users s.vm.mem [r] f = 0 := by
    refine fun f h => ⟨users_eq_zero h, users_eq_zero fun r' hr' => ?_⟩
    obtain rfl := List.mem_singleton.1 hr'
    exact h r' hr
  have hnb' : n ≠ b := fun h => hnb (by rw [h])
  refine ⟨hs', ?_, ?_, fun f hf h0 => ?_⟩
  · intro r' hr'
    rcases List.mem_cons.1 hr' with rfl | hr'
    · exact hn0
    · exact hb.root r' hr'
  · intro r' hr' p f h
    obtain ⟨r'', hr'', h''⟩ : ∃ r'' ∈ s.spaces, Reach s.vm.mem r'' p f := by
      rcases List.mem_cons.1 hr' with rfl | hr'
      · exact ⟨r, hr, (hnew p f).1 h⟩
      · exact ⟨r', hr', (hold r' hr' p f).1 h⟩
    obtain ⟨h1, h2, h3⟩ := hb.reach r'' hr'' p f h''
    have hfn : n ≠ f := fun hf => hnreach r'' hr'' p (hf ▸ h'')
    have hfb : b ≠ f := fun hf => hbreach r'' hr'' p (hf ▸ h'')
    refine ⟨h1, h2, ?_⟩
    rw [List.count_cons_of_ne hfn, List.count_cons_of_ne hfb, h3]
  · have hbal := hb.count f hf h0
    simp only [husers, hrefs f hf h0, hcount, plus]
    by_cases hfb : f = b
    · subst hfb
      obtain ⟨h1, h2⟩ := hnever f hbreach
      rw [Function.update_self, List.count_cons_of_ne hnb', List.count_cons_self, h1, h2, hbfresh.1, hbfresh.2]
      rfl
    · have hfb' : f / pageSize ≠ b / pageSize := fun h => hfb (page_div_inj hf hbd h)
      rw [Function.update_of_ne hfb']
      by_cases hfn : f = n
      · subst hfn
        obtain ⟨h1, h2⟩ := hnever f hnreach
        rw [Function.update_self, List.count_cons_self, List.count_cons_of_ne (Ne.symm hfb), h1, h2, hnfresh.1,
          hnfresh.2]
        rfl
      · have hfn' : f / pageSize ≠ n / pageSize := fun h => hfn (page_div_inj hf hnd h)
        rw [Function.update_of_ne hfn', List.count_cons_of_ne (Ne.symm hfn), List.count_cons_of_ne (Ne.symm hfb)]
        have hpart : users s.vm.mem [r] f ≤ users s.vm.mem s.spaces f := by
          rw [users_erase s.vm.mem hr]
          omega
        split <;> omega

end

private theorem lifeStep_balanced {held : Nat → Nat} {s s' : LifeState} {i : LifeInput} (hb : Balanced held s)
    (h : lifeStep s i = some s') : Balanced held s' := by
  cases i with
  | fork r =>
    simp only [lifeStep] at h
    split at h
    · rename_i hr
      split at h
      · rename_i h0
        cases h
        rcases threadClone_cases hb.sharing hr with ⟨frames, he, hwf, hle, heq⟩ | ⟨n, b, m2, m4, fr, he, -, hn0, -⟩
        · rw [he]
          exact hb.frames hwf hle heq
        · rw [he] at h0
          exact absurd h0 hn0
      · rename_i h0
        cases h
        exact hb.fork hr h0
    · exact absurd h (by simp)
  | fault r v =>
    simp only [lifeStep] at h
    split at h
    · rename_i hr
      cases h
      exact hb.fault hr v.isLt
    · exact absurd h (by simp)
  | exit r =>
    simp only [lifeStep] at h
    split at h
    · rename_i hr
      cases h
      exact hb.exit hr
    · exact absurd h (by simp)

/-- An address space before any fork, on frames that come from `alloc_page`. -/
structure FreshTree (vm : Vm) (r : Nat) : Prop extends UserTree vm r where
  root_ne_zero : r ≠ 0
  fresh : ∀ p f, Reach vm.mem r p f → f ≠ 0 ∧ vm.frames.count (f / pageSize) = 1

open Classical in
/-- The references to a frame that do not come from the user half of the first address space. -/
noncomputable def heldBefore (vm : Vm) (r f : Nat) : Nat :=
  if ∃ p, Reach vm.mem r p f then 0 else vm.frames.count (f / pageSize)

private theorem FreshTree.balanced {vm : Vm} {r : Nat} (h : FreshTree vm r) :
    Balanced (heldBefore vm r) ⟨vm, [r], []⟩ := by
  refine ⟨h.sharing, fun x hx => ?_, fun x hx p f hf => ?_, fun f hf h0 => ?_⟩
  · rw [List.mem_singleton.1 hx]
    exact h.root_ne_zero
  · obtain rfl := List.mem_singleton.1 hx
    exact ⟨(h.fresh p f hf).1, if_pos ⟨p, hf⟩, List.count_nil⟩
  · unfold heldBefore
    split
    · rename_i hreach
      obtain ⟨p, hp⟩ := hreach
      rw [users_singleton hp, (h.fresh p f hp).2, List.count_nil]
    · rename_i hreach
      have hnone : users vm.mem [r] f = 0 := users_eq_zero fun x hx p hp => by
        obtain rfl := List.mem_singleton.1 hx
        exact hreach ⟨p, hp⟩
      rw [hnone, List.count_nil, Nat.zero_add, Nat.add_zero]

/-- A frame for user page tables and pages: one of the first address space, or one that was free at the start.  Frames
that forks have taken for PML4 tables and thread-local tables are not user frames. -/
structure UserFrame (vm : Vm) (r : Nat) (s : LifeState) (f : Nat) : Prop where
  aligned : pageSize ∣ f
  ne_zero : f ≠ 0
  start : (∃ p, Reach vm.mem r p f) ∨ vm.frames.count (f / pageSize) = 0
  untaken : f ∉ s.taken

/-- After any run of forks, page faults and teardowns, the count of every user frame is the number of live address
spaces that reach it.  So the frames of live address spaces are in use, and after the last teardown no user frame
is. -/
theorem count_eq_users {vm : Vm} {r0 : Nat} (h0 : FreshTree vm r0) {is : List LifeInput} {s : LifeState}
    (hrun : Machine.run lifeStep is ⟨vm, [r0], []⟩ = some s) :
    (∀ f, UserFrame vm r0 s f → s.vm.frames.count (f / pageSize) = users s.vm.mem s.spaces f) ∧
    (∀ r ∈ s.spaces, ∀ p f, Reach s.vm.mem r p f → UserFrame vm r0 s f ∧ s.vm.frames.count (f / pageSize) ≠ 0) ∧
    (s.spaces = [] → ∀ f, UserFrame vm r0 s f → s.vm.frames.count (f / pageSize) = 0) := by
  have hb : Balanced (heldBefore vm r0) s :=
    Machine.run_invariant (fun _ _ _ hb h => lifeStep_balanced hb h) h0.balanced hrun
  have hcount : ∀ f, UserFrame vm r0 s f → s.vm.frames.count (f / pageSize) = users s.vm.mem s.spaces f := by
    intro f hf
    have hheld : heldBefore vm r0 f = 0 := by
      unfold heldBefore
      split
      · rfl
      · rename_i hno
        exact hf.start.resolve_left hno
    rw [hb.count f hf.aligned hf.ne_zero, hheld, List.count_eq_zero.2 hf.untaken]
    rfl
  refine ⟨hcount, fun r hr p f hf => ?_, fun hnil f hf => ?_⟩
  · obtain ⟨h1, h2, h3⟩ := hb.reach r hr p f hf
    have hstart : (∃ p, Reach vm.mem r0 p f) ∨ vm.frames.count (f / pageSize) = 0 := by
      unfold heldBefore at h2
      split at h2
      · rename_i hold
        exact Or.inl hold
      · exact Or.inr h2
    have huser : UserFrame vm r0 s f := ⟨hf.aligned, h1, hstart, List.count_eq_zero.1 h3⟩
    refine ⟨huser, ?_⟩
    have hpos := users_pos hr hf
    rw [hcount f huser]
    omega
  · rw [hcount f hf, hnil]
    rfl

private theorem chainVm_fresh : FreshTree (chainVm 0x14007) 0x10000 := by
  refine ⟨chainVm_tree (Or.inr rfl), by decide, fun p f h => ?_⟩
  obtain ⟨-, hf, -⟩ := (chainTree_chain (Or.inr rfl)).walk (k := 0) (by simpa using h.path.len) h.path.lt h.walk
  rw [hf, Nat.mul_div_cancel_left _ (by decide)]
  refine ⟨?_, if_pos (by omega)⟩
  simp only [pageSize]
  omega

/-- After a fork two address spaces reach the page. After a fault of the child and both teardowns it is free. -/
theorem count_eq_users_small : FreshTree (chainVm 0x14007) 0x10000 ∧
    (∃ s, Machine.run lifeStep [.fork 0x10000] ⟨chainVm 0x14007, [0x10000], []⟩ = some s ∧
      s.vm.frames.count (0x14000 / pageSize) = 2) ∧
    ∃ s, Machine.run lifeStep [.fork 0x10000, .fault 0x2000 0x10, .exit 0x10000, .exit 0x2000]
      ⟨chainVm 0x14007, [0x10000], []⟩ = some s ∧ s.vm.frames.count (0x14000 / pageSize) = 0 := by
  obtain ⟨frames, hfork, hb⟩ := chainVm_fork (e := 0x14007)
  obtain ⟨f1, ha1, hb1⟩ := (chainVm_bump (e := 0x14007)).allocPage (by decide) (show _ = 0x3000 from rfl)
  obtain ⟨f2, ha2, -⟩ := hb1.allocPage (by decide) (show _ = 0x4000 from rfl)
  have htable : (allocPage (allocPage (chainVm 0x14007).frames).1).2 = 0x3000 := by rw [ha1, ha2]
  have hpath : UserPath [0, 0, 0, 0] := ⟨by simp, by simp, by simp, by simp⟩
  have hchain := chainTree_chain (e := 0x14007) (Or.inr rfl)
  have hstart : Reach (chainTree 0x14007) 0x10000 [0, 0, 0, 0] 0x14000 :=
    ⟨hpath, walk_zeros (f := fun k => 0x1000 * (16 + k)) (n := 4) (k := 0) fun j hj => by
      rw [hchain.entry j (by omega) 0 (by decide), if_pos rfl]
      exact hchain.next j (by omega)⟩
  have huser : ∀ vm spaces, UserFrame (chainVm 0x14007) 0x10000 ⟨vm, spaces, [0x2000, 0x3000]⟩ 0x14000 :=
    fun vm spaces =>
    ⟨by decide, by decide, Or.inl ⟨_, hstart⟩, by simp⟩
  have hstep : lifeStep ⟨chainVm 0x14007, [0x10000], []⟩ (.fork 0x10000) =
      some ⟨⟨forkedTree 0x14007, frames⟩, [0x2000, 0x10000], [0x2000, 0x3000]⟩ := by
    simp [lifeStep, hfork, htable]
  have hforked : Machine.run lifeStep [.fork 0x10000] ⟨chainVm 0x14007, [0x10000], []⟩ =
      some ⟨⟨forkedTree 0x14007, frames⟩, [0x2000, 0x10000], [0x2000, 0x3000]⟩ := by
    rw [Machine.run, hstep, Option.bind_some, Machine.run]
  have hends : ∀ vm, ∃ vm', Machine.run lifeStep [.fault 0x2000 0x10, .exit 0x10000, .exit 0x2000]
      ⟨vm, [0x2000, 0x10000], [0x2000, 0x3000]⟩ = some ⟨vm', [], [0x2000, 0x3000]⟩ := fun vm => by
    simp [Machine.run, lifeStep]
  obtain ⟨vm, hend⟩ := hends ⟨forkedTree 0x14007, frames⟩
  have hexit : Machine.run lifeStep [.fork 0x10000, .fault 0x2000 0x10, .exit 0x10000, .exit 0x2000]
      ⟨chainVm 0x14007, [0x10000], []⟩ = some ⟨vm, [], [0x2000, 0x3000]⟩ := by
    rw [Machine.run, hstep, Option.bind_some, hend]
  refine ⟨chainVm_fresh, ⟨_, hforked, ?_⟩, ⟨_, hexit, ?_⟩⟩
  · rw [(count_eq_users chainVm_fresh hforked).1 _ (huser _ _)]
    refine List.countP_eq_length.2 fun r hr => ?_
    have hreach : Reach (forkedTree 0x14007) r [0, 0, 0, 0] 0x14000 :=
      ⟨hpath, (forkedTree_walk (r := r) (by simpa [or_comm] using hr)).2.2⟩
    simpa using ⟨_, hreach⟩
  · exact (count_eq_users chainVm_fresh hexit).2.2 rfl _ (huser _ _)

end Pml.Arch
