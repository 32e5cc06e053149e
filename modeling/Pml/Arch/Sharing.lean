import Mathlib.Data.List.Count
import Pml.Arch.PageFault

/-!
# Shared page tables

Address spaces that come from forks share page tables and pages.  The invariant `Sharing` says that a frame has one
place in the user half of all address spaces, that its count covers the address spaces that reach it, and that a
frame reached without passing a copy-on-write entry belongs to one address space only.  Leading an entry to a copy of
its frame, the step of the page fault handler, keeps the invariant (`retarget_sharing`).
-/

namespace Pml.Arch

open ByteMemory Radix

/-- Indices of a page structure or page in the user half, from the PML4 table down. -/
structure UserPath (p : List Nat) : Prop where
  pos : p ≠ []
  len : p.length ≤ 4
  lt : ∀ i ∈ p, i < 512
  user : ∀ i ∈ p.head?, i < 256

theorem UserPath.left {p q : List Nat} (h : UserPath (p ++ q)) (hp : p ≠ []) : UserPath p := by
  refine ⟨hp, ?_, fun i hi => h.lt i (List.mem_append_left q hi), fun i hi => h.user i ?_⟩
  · have hl := h.len
    rw [List.length_append] at hl
    omega
  · cases p with
    | nil => exact absurd rfl hp
    | cons j p => simpa using hi

/-- The frame `f` is at the place `p` of the address space with PML4 table `r`. -/
structure Reach (m : Mem) (r : Nat) (p : List Nat) (f : Nat) : Prop where
  path : UserPath p
  walk : walk (ptEntry m) child r p = some f

def Private (m : Mem) (r : Nat) (p : List Nat) : Prop :=
  ∀ e ∈ trail (ptEntry m) child r p, hasFlag e pageFlagCow = false

open Classical in
/-- The number of address spaces that reach a frame. -/
noncomputable def users (m : Mem) (roots : List Nat) (f : Nat) : Nat :=
  roots.countP fun r => decide (∃ p, Reach m r p f)

/-- The invariant of the address spaces `roots`. -/
structure Sharing (vm : Vm) (roots : List Nat) : Prop where
  wf : vm.frames.Wf
  nodup : roots.Nodup
  root : ∀ r ∈ roots, pageSize ∣ r ∧ vm.frames.count (r / pageSize) ≠ 0
  apart : ∀ r ∈ roots, ∀ r' ∈ roots, ∀ p, ¬Reach vm.mem r p r'
  unique : ∀ r ∈ roots, ∀ r' ∈ roots, ∀ p p' f, Reach vm.mem r p f → Reach vm.mem r' p' f → p = p'
  counted : ∀ f, users vm.mem roots f ≤ vm.frames.count (f / pageSize)
  owner : ∀ r ∈ roots, ∀ r' ∈ roots, ∀ p f, Reach vm.mem r p f → Private vm.mem r p → Reach vm.mem r' p f → r' = r
  cow : ∀ r ∈ roots, ∀ p f, Reach vm.mem r p f → ∀ e ∈ trail (ptEntry vm.mem) child r p,
    hasFlag e pageFlagCow = true → hasFlag e pageFlagRw = false
  small : ∀ r ∈ roots, ∀ p f, Reach vm.mem r p f → 2 ≤ p.length → p.length ≤ 3 →
    ∀ e ∈ (trail (ptEntry vm.mem) child r p).getLast?, hasFlag e pageFlagSize = false

theorem child_eq_some {e f : Nat} : child e = some f ↔
    hasFlag e pageFlagPresent = true ∧ f = alignDown e pageSize := by
  unfold child
  cases hasFlag e pageFlagPresent with
  | true => simp [eq_comm]
  | false => simp

theorem Reach.aligned {m : Mem} {r f : Nat} {p : List Nat} (h : Reach m r p f) : pageSize ∣ f := by
  obtain ⟨q, i, rfl⟩ : ∃ q i, p = q ++ [i] := by
    rcases List.eq_nil_or_concat p with h0 | ⟨q, i, hq⟩
    · exact absurd h0 h.path.pos
    · exact ⟨q, i, by rw [hq, List.concat_eq_append]⟩
  obtain ⟨t, -, h2⟩ := walk_left h.walk
  rw [walk_singleton, child_eq_some] at h2
  rw [h2.2]
  exact pageSize_dvd_alignDown _

theorem present_of_mem_trail {m : Mem} {r f e : Nat} {p : List Nat} (h : walk (ptEntry m) child r p = some f)
    (he : e ∈ trail (ptEntry m) child r p) : hasFlag e pageFlagPresent = true := by
  obtain ⟨g, hg⟩ := Option.isSome_iff_exists.1 (isSome_of_mem_trail h he)
  exact (child_eq_some.1 hg).1

theorem child_zero : child 0 = none := by decide

private theorem child_sharedEntry {e : Nat} (he : e < 2 ^ 64) : child (sharedEntry e) = child e := by
  unfold sharedEntry
  split
  · exact child_cowEntry he
  · rename_i h
    rw [child_zero, child, if_neg h]

theorem users_pos {m : Mem} {roots : List Nat} {r f : Nat} {p : List Nat} (hr : r ∈ roots) (h : Reach m r p f) :
    0 < users m roots f := by
  unfold users
  rw [List.countP_pos_iff]
  exact ⟨r, hr, by simpa using ⟨p, h⟩⟩

theorem visited {m : Mem} {r g : Nat} {q rest : List Nat} {j : Nat} (hp : UserPath (q ++ j :: rest))
    (hq : walk (ptEntry m) child r q = some g) : (q = [] ∧ g = r) ∨ Reach m r q g := by
  by_cases h0 : q = []
  · subst h0
    exact Or.inl ⟨rfl, (Option.some.inj hq).symm⟩
  · exact Or.inr ⟨hp.left h0, hq⟩

theorem users_le {m m' : Mem} {roots roots' : List Nat} {f f' : Nat} (hsub : roots'.Sublist roots)
    (h : ∀ r ∈ roots', (∃ p, Reach m' r p f') → ∃ p, Reach m r p f) : users m' roots' f' ≤ users m roots f := by
  classical
  refine Nat.le_trans ?_ (hsub.countP_le (p := fun r => decide (∃ p, Reach m r p f)))
  refine List.countP_mono_left fun r hr => ?_
  simpa using h r hr

private theorem users_lt {m m' : Mem} {roots : List Nat} {r f : Nat} (hr : r ∈ roots)
    (h : ∀ r' ∈ roots, (∃ p, Reach m' r' p f) → r' ≠ r ∧ ∃ p, Reach m r' p f) (hf : ∃ p, Reach m r p f) :
    users m' roots f + 1 ≤ users m roots f := by
  classical
  have h1 : users m roots f = users m (roots.erase r) f + 1 := by
    unfold users
    rw [(List.perm_cons_erase hr).countP_eq, List.countP_cons_of_pos (by simpa using hf)]
  have h2 : users m' roots f = users m' (roots.erase r) f := by
    unfold users
    rw [(List.perm_cons_erase hr).countP_eq, List.countP_cons_of_neg]
    intro hc
    exact (h r hr (by simpa using hc)).1 rfl
  have h3 : users m' (roots.erase r) f ≤ users m (roots.erase r) f :=
    users_le (List.Sublist.refl _) fun r' hr' hx => (h r' (List.mem_of_mem_erase hr') hx).2
  omega

theorem users_le_one {m : Mem} {roots : List Nat} {r f : Nat} (hnd : roots.Nodup)
    (h : ∀ r' ∈ roots, (∃ p, Reach m r' p f) → r' = r) : users m roots f ≤ 1 := by
  classical
  have h1 : users m roots f ≤ roots.count r := by
    refine List.countP_mono_left fun r' hr' hx => ?_
    simpa using h r' hr' (by simpa using hx)
  exact Nat.le_trans h1 (List.nodup_iff_count_le_one.1 hnd r)

theorem exists_of_users_pos {m : Mem} {roots : List Nat} {f : Nat} (h : 0 < users m roots f) :
    ∃ r ∈ roots, ∃ p, Reach m r p f := by
  obtain ⟨r, hr, h1⟩ := List.countP_pos_iff.1 h
  exact ⟨r, hr, by simpa using h1⟩

section

variable {vm : Vm} {roots : List Nat} (hs : Sharing vm roots)
include hs

theorem Sharing.fresh {n : Nat} (hn : vm.frames.count (n / pageSize) = 0) :
    n ∉ roots ∧ ∀ r ∈ roots, ∀ p, ¬Reach vm.mem r p n := by
  refine ⟨fun h => (hs.root n h).2 hn, fun r hr p h => ?_⟩
  have h1 := users_pos hr h
  have h2 := hs.counted n
  omega

theorem Sharing.visited_aligned {r g : Nat} {q rest : List Nat} {j : Nat} (hr : r ∈ roots)
    (hp : UserPath (q ++ j :: rest)) (hq : walk (ptEntry vm.mem) child r q = some g) : pageSize ∣ g := by
  rcases visited hp hq with ⟨-, rfl⟩ | h
  · exact (hs.root _ hr).1
  · exact h.aligned

theorem Sharing.visited_unique {r r' g : Nat} {q q' rest rest' : List Nat} {j j' : Nat} (hr : r ∈ roots)
    (hr' : r' ∈ roots) (hp : UserPath (q ++ j :: rest)) (hp' : UserPath (q' ++ j' :: rest'))
    (hq : walk (ptEntry vm.mem) child r q = some g) (hq' : walk (ptEntry vm.mem) child r' q' = some g)
    (hpriv : Private vm.mem r q) : r' = r ∧ q' = q := by
  rcases visited hp hq with ⟨rfl, rfl⟩ | h
  · rcases visited hp' hq' with ⟨rfl, rfl⟩ | h'
    · exact ⟨rfl, rfl⟩
    · exact absurd h' (hs.apart _ hr' _ hr _)
  · rcases visited hp' hq' with ⟨rfl, rfl⟩ | h'
    · exact absurd h (hs.apart _ hr _ hr' _)
    · obtain rfl := hs.unique _ hr _ hr' _ _ _ h h'
      exact ⟨hs.owner _ hr _ hr' _ _ h hpriv h', rfl⟩

end

/-! ### Copying one level -/

/-- The memory `m'` after the entry `t[i]` of an address space has been led to a copy `n` of its frame `f`. -/
structure Retarget (m m' : Mem) (t i f n : Nat) (level : Nat) : Prop where
  entry : ptEntry m' t i = copiedEntry n (ptEntry m t i)
  look : ∀ g j, pageSize ∣ g → j < 512 → g ≠ n → ¬(g = t ∧ j = i) → ptEntry m' g j = ptEntry m g j
  data : ∀ g x, pageSize ∣ g → g ≠ n → g ≠ t → g ≤ x → x < g + pageSize → m' x = m x
  table : level < 4 → ∀ j, j < 512 → ptEntry m' n j = sharedEntry (ptEntry m f j)
  page : level = 4 → ∀ o, o < pageSize → m' (n + o) = m (f + o)

section

variable {vm : Vm} {roots : List Nat} {m' : Mem} {r i t f n : Nat} {q : List Nat} (hs : Sharing vm roots)
  (hr : r ∈ roots) (hp : UserPath (q ++ [i])) (ht : walk (ptEntry vm.mem) child r q = some t)
  (hpriv : Private vm.mem r q) (hchild : child (ptEntry vm.mem t i) = some f)
  (hn : vm.frames.count (n / pageSize) = 0) (hn64 : n < 2 ^ 64) (hdvd : pageSize ∣ n)
  (hm : Retarget vm.mem m' t i f n (q ++ [i]).length)
include hs hr hp ht hpriv hn hm

private theorem retarget_other {r' : Nat} {p : List Nat} (hr' : r' ∈ roots) (hp' : UserPath p)
    (hne : r' = r → ∀ s, p ≠ q ++ i :: s) :
    walk (ptEntry m') child r' p = walk (ptEntry vm.mem) child r' p ∧
      trail (ptEntry m') child r' p = trail (ptEntry vm.mem) child r' p := by
  obtain ⟨hroot, hreach⟩ := hs.fresh hn
  refine walk_trail_congr fun q' j rest g hsplit hq' => ?_
  rw [hsplit] at hp'
  refine hm.look g j (hs.visited_aligned hr' hp' hq') (hp'.lt j (by simp)) ?_ ?_
  · rintro rfl
    rcases visited hp' hq' with ⟨-, rfl⟩ | h
    · exact hroot hr'
    · exact hreach _ hr' _ h
  · rintro ⟨rfl, rfl⟩
    obtain ⟨rfl, rfl⟩ := hs.visited_unique hr hr' hp hp' ht hq' hpriv
    exact hne rfl rest hsplit

include hchild hn64 hdvd

theorem retarget_self : walk (ptEntry m') child r (q ++ [i]) = some n ∧
    trail (ptEntry m') child r (q ++ [i]) =
      trail (ptEntry vm.mem) child r q ++ [copiedEntry n (ptEntry vm.mem t i)] := by
  have hq : walk (ptEntry m') child r q = some t ∧
      trail (ptEntry m') child r q = trail (ptEntry vm.mem) child r q := by
    by_cases h0 : q = []
    · subst h0
      rw [walk_nil] at ht ⊢
      exact ⟨ht, by rw [trail_nil, trail_nil]⟩
    · obtain ⟨h1, h2⟩ := retarget_other hs hr hp ht hpriv hn hm hr (hp.left h0) fun _ s he => by
        have hl := congrArg List.length he
        simp at hl
      exact ⟨h1.trans ht, h2⟩
  have hc : child (ptEntry m' t i) = some n := by
    rw [hm.entry]
    exact child_copiedEntry _ hn64 hdvd (child_eq_some.1 hchild).1
  refine ⟨?_, ?_⟩
  · rw [walk_append_of hq.1, walk_singleton, hc]
  · rw [trail_append hq.1, hq.2, trail_singleton, hm.entry]

/-- Below a copied table the walks reach the same frames, through an entry marked copy-on-write. -/
theorem retarget_below {j : Nat} {s : List Nat} (hp' : UserPath (q ++ i :: j :: s)) :
    walk (ptEntry m') child r (q ++ i :: j :: s) = walk (ptEntry vm.mem) child r (q ++ i :: j :: s) ∧
      ∃ rest, trail (ptEntry vm.mem) child r (q ++ i :: j :: s) =
          trail (ptEntry vm.mem) child r q ++ ptEntry vm.mem t i :: ptEntry vm.mem f j :: rest ∧
        trail (ptEntry m') child r (q ++ i :: j :: s) =
          trail (ptEntry vm.mem) child r q ++ copiedEntry n (ptEntry vm.mem t i) ::
            sharedEntry (ptEntry vm.mem f j) :: rest := by
  have hlen : (q ++ [i]).length < 4 := by
    have hl := hp'.len
    simp only [List.length_append, List.length_cons] at hl ⊢
    simp only [List.length_nil]
    omega
  have hj : j < 512 := hp'.lt j (by simp)
  have hnew := hm.table hlen j hj
  obtain ⟨hwn, htn⟩ := retarget_self hs hr hp ht hpriv hchild hn hn64 hdvd hm
  have hwf : walk (ptEntry vm.mem) child r (q ++ [i]) = some f := by
    rw [walk_append_of ht, walk_singleton, hchild]
  have htf : trail (ptEntry vm.mem) child r (q ++ [i]) =
      trail (ptEntry vm.mem) child r q ++ [ptEntry vm.mem t i] := by
    rw [trail_append ht, trail_singleton]
  have hsplit : q ++ i :: j :: s = (q ++ [i]) ++ j :: s := by simp
  -- from the frame below the copy on, the walk reads unchanged entries
  have hbelow : ∀ g, child (ptEntry vm.mem f j) = some g →
      walk (ptEntry m') child g s = walk (ptEntry vm.mem) child g s ∧
        trail (ptEntry m') child g s = trail (ptEntry vm.mem) child g s := by
    intro g hg
    have hwg : walk (ptEntry vm.mem) child r (q ++ [i, j]) = some g := by
      rw [show q ++ [i, j] = (q ++ [i]) ++ [j] by simp, walk_append_of hwf, walk_singleton, hg]
    refine walk_trail_congr fun q' k rest g' hs' hq' => ?_
    have hpath : UserPath ((q ++ i :: j :: q') ++ k :: rest) := by
      rw [hs'] at hp'
      simpa using hp'
    have hwg' : walk (ptEntry vm.mem) child r (q ++ i :: j :: q') = some g' := by
      rw [show q ++ i :: j :: q' = (q ++ [i, j]) ++ q' by simp, walk_append_of hwg]
      exact hq'
    refine hm.look g' k (hs.visited_aligned hr hpath hwg') (hpath.lt k (by simp)) ?_ ?_
    · rintro rfl
      obtain ⟨-, hreach⟩ := hs.fresh hn
      exact hreach r hr _ ⟨hpath.left (by simp), hwg'⟩
    · rintro ⟨rfl, -⟩
      obtain ⟨-, h2⟩ := hs.visited_unique hr hr hp hpath ht hwg' hpriv
      have hl := congrArg List.length h2
      simp at hl
  rw [hsplit, walk_append_of hwn, walk_append_of hwf, trail_append hwn, trail_append hwf, htn, htf]
  simp only [walk_cons, trail_cons, hnew, child_sharedEntry (ptEntry_lt vm.mem f j)]
  cases hg : child (ptEntry vm.mem f j) with
  | none =>
    rw [Option.bind_none, Option.bind_none]
    exact ⟨rfl, [], by simp, by simp⟩
  | some g =>
    obtain ⟨h1, h2⟩ := hbelow g hg
    exact ⟨h1, trail (ptEntry vm.mem) child g s, by simp, by simp [h2]⟩

theorem retarget_walk {r' : Nat} {p : List Nat} (hr' : r' ∈ roots) (hp' : UserPath p) :
    (¬(r' = r ∧ ∃ s, p = q ++ i :: s) ∧
      walk (ptEntry m') child r' p = walk (ptEntry vm.mem) child r' p ∧
      trail (ptEntry m') child r' p = trail (ptEntry vm.mem) child r' p) ∨
    (r' = r ∧ p = q ++ [i] ∧ walk (ptEntry m') child r' p = some n ∧
      trail (ptEntry m') child r' p =
        trail (ptEntry vm.mem) child r q ++ [copiedEntry n (ptEntry vm.mem t i)]) ∨
    (r' = r ∧ p ≠ q ++ [i] ∧ walk (ptEntry m') child r' p = walk (ptEntry vm.mem) child r' p ∧
      ∃ j rest, trail (ptEntry vm.mem) child r' p =
          trail (ptEntry vm.mem) child r q ++ ptEntry vm.mem t i :: ptEntry vm.mem f j :: rest ∧
        trail (ptEntry m') child r' p = trail (ptEntry vm.mem) child r q ++ copiedEntry n (ptEntry vm.mem t i) ::
          sharedEntry (ptEntry vm.mem f j) :: rest) := by
  by_cases hext : r' = r ∧ ∃ s, p = q ++ i :: s
  · obtain ⟨rfl, s, rfl⟩ := hext
    cases s with
    | nil =>
      obtain ⟨h1, h2⟩ := retarget_self hs hr hp ht hpriv hchild hn hn64 hdvd hm
      exact Or.inr (Or.inl ⟨rfl, rfl, h1, h2⟩)
    | cons j s =>
      obtain ⟨h1, rest, h2, h3⟩ := retarget_below hs hr hp ht hpriv hchild hn hn64 hdvd hm hp'
      exact Or.inr (Or.inr ⟨rfl, by simp, h1, j, rest, h2, h3⟩)
  · refine Or.inl ⟨hext, retarget_other hs hr hp ht hpriv hn hm hr' hp' fun h s hp => hext ⟨h, s, hp⟩⟩

theorem retarget_reach {r' g : Nat} {p : List Nat} (hr' : r' ∈ roots) : Reach m' r' p g ↔
    (r' = r ∧ p = q ++ [i] ∧ g = n) ∨ (¬(r' = r ∧ p = q ++ [i]) ∧ Reach vm.mem r' p g) := by
  constructor
  · intro h
    rcases retarget_walk hs hr hp ht hpriv hchild hn hn64 hdvd hm hr' h.path with
      ⟨h1, h2, -⟩ | ⟨h1, h2, h3, -⟩ | ⟨-, h2, h3, -⟩
    · exact Or.inr ⟨fun h3 => h1 ⟨h3.1, [], h3.2⟩, h.path, h2 ▸ h.walk⟩
    · have h4 := h.walk
      rw [h3] at h4
      exact Or.inl ⟨h1, h2, (Option.some.inj h4).symm⟩
    · exact Or.inr ⟨fun h4 => h2 h4.2, h.path, h3 ▸ h.walk⟩
  · rintro (⟨rfl, rfl, rfl⟩ | ⟨h1, h⟩)
    · exact ⟨hp, (retarget_self hs hr hp ht hpriv hchild hn hn64 hdvd hm).1⟩
    · rcases retarget_walk hs hr hp ht hpriv hchild hn hn64 hdvd hm hr' h.path with
        ⟨-, h2, -⟩ | ⟨h2, h3, -⟩ | ⟨-, -, h3, -⟩
      · exact ⟨h.path, h2.trans h.walk⟩
      · exact absurd ⟨h2, h3⟩ h1
      · exact ⟨h.path, h3.trans h.walk⟩

theorem retarget_flags {r' g : Nat} {p : List Nat} (hr' : r' ∈ roots) (hp' : UserPath p)
    (hg : walk (ptEntry vm.mem) child r' p = some g) {P : Nat → Prop}
    (hcopied : P (copiedEntry n (ptEntry vm.mem t i)) ↔ P (ptEntry vm.mem t i))
    (hcow : ∀ e, e < 2 ^ 64 → (P (cowEntry e) ↔ P e)) :
    (∀ e ∈ trail (ptEntry m') child r' p, P e) ↔ ∀ e ∈ trail (ptEntry vm.mem) child r' p, P e := by
  rcases retarget_walk hs hr hp ht hpriv hchild hn hn64 hdvd hm hr' hp' with
    ⟨-, -, h1⟩ | ⟨rfl, rfl, -, h1⟩ | ⟨rfl, h0, -, j, rest, h1, h2⟩
  · rw [h1]
  · rw [h1, trail_append ht, trail_singleton]
    simp only [List.mem_append, List.mem_singleton, or_imp, forall_and, forall_eq, hcopied]
  · -- the entry below the copy is present, because the walk goes on
    have hse : sharedEntry (ptEntry vm.mem f j) = cowEntry (ptEntry vm.mem f j) :=
      if_pos (present_of_mem_trail hg (by rw [h1]; simp))
    rw [h1, h2, hse]
    simp only [List.mem_append, List.mem_cons, or_imp, forall_and, forall_eq, hcopied,
      hcow _ (ptEntry_lt vm.mem f j)]

theorem retarget_private : Private m' r (q ++ [i]) := by
  intro e he
  rw [(retarget_self hs hr hp ht hpriv hchild hn hn64 hdvd hm).2, List.mem_append, List.mem_singleton] at he
  rcases he with he | rfl
  · exact hpriv e he
  · exact copiedEntry_cow _ hn64

private theorem retarget_owner {r1 r2 g : Nat} {p : List Nat} (hr1 : r1 ∈ roots) (hr2 : r2 ∈ roots)
    (h1 : Reach m' r1 p g) (hp1 : Private m' r1 p) (h2 : Reach m' r2 p g) : r2 = r1 := by
  obtain ⟨-, hfresh⟩ := hs.fresh hn
  have hreach : ∀ r' ∈ roots, Reach m' r' p g ↔ _ := fun r' h =>
    retarget_reach hs hr hp ht hpriv hchild hn hn64 hdvd hm h
  rcases (hreach r1 hr1).1 h1 with ⟨rfl, rfl, rfl⟩ | ⟨hne, h1'⟩
  · rcases (hreach r2 hr2).1 h2 with ⟨rfl, -, -⟩ | ⟨-, h2'⟩
    · rfl
    · exact absurd h2' (hfresh _ hr2 _)
  · rcases (hreach r2 hr2).1 h2 with ⟨-, -, rfl⟩ | ⟨-, h2'⟩
    · exact absurd h1' (hfresh _ hr1 _)
    · refine hs.owner r1 hr1 r2 hr2 p g h1' ?_ h2'
      rcases retarget_walk hs hr hp ht hpriv hchild hn hn64 hdvd hm hr1 h1.path with
        ⟨-, -, h3⟩ | ⟨h3, h4, -⟩ | ⟨-, -, -, j, rest, h3, h4⟩
      · unfold Private at hp1 ⊢
        rwa [h3] at hp1
      · exact absurd ⟨h3, h4⟩ hne
      · -- the entry below a copied table is marked, so the way is not private
        have hse : sharedEntry (ptEntry vm.mem f j) = cowEntry (ptEntry vm.mem f j) :=
          if_pos (present_of_mem_trail h1'.walk (by rw [h3]; simp))
        have hc := hp1 (cowEntry (ptEntry vm.mem f j)) (by rw [h4, hse]; simp)
        rw [cowEntry_cow (ptEntry_lt _ _ _)] at hc
        exact absurd hc (by decide)

private theorem retarget_cow {r' g : Nat} {p : List Nat} (hr' : r' ∈ roots) (h : Reach m' r' p g) :
    ∀ e ∈ trail (ptEntry m') child r' p, hasFlag e pageFlagCow = true → hasFlag e pageFlagRw = false := by
  have hold : Reach vm.mem r (q ++ [i]) f := ⟨hp, by rw [walk_append_of ht, walk_singleton, hchild]⟩
  have hq : ∀ e ∈ trail (ptEntry vm.mem) child r q, hasFlag e pageFlagCow = true → hasFlag e pageFlagRw = false :=
    fun e he => hs.cow r hr _ _ hold e (by rw [trail_append ht]; exact List.mem_append_left _ he)
  have hcopied : hasFlag (copiedEntry n (ptEntry vm.mem t i)) pageFlagCow = false := copiedEntry_cow _ hn64
  rcases retarget_walk hs hr hp ht hpriv hchild hn hn64 hdvd hm hr' h.path with
    ⟨-, h1, h2⟩ | ⟨-, -, -, h2⟩ | ⟨-, -, h1, j, rest, h2, h3⟩
  · rw [h2]
    exact hs.cow r' hr' p g ⟨h.path, h1 ▸ h.walk⟩
  · intro e he hc
    rw [h2, List.mem_append, List.mem_singleton] at he
    rcases he with he | rfl
    · exact hq e he hc
    · simp [hcopied] at hc
  · have hold' : Reach vm.mem r' p g := ⟨h.path, h1 ▸ h.walk⟩
    have hse : sharedEntry (ptEntry vm.mem f j) = cowEntry (ptEntry vm.mem f j) :=
      if_pos (present_of_mem_trail hold'.walk (by rw [h2]; simp))
    intro e he hc
    rw [h3, hse, List.mem_append, List.mem_cons, List.mem_cons] at he
    rcases he with he | rfl | rfl | he
    · exact hq e he hc
    · simp [hcopied] at hc
    · exact cowEntry_rw (ptEntry_lt _ _ _)
    · exact hs.cow r' hr' p g hold' e (by rw [h2]; simp [he]) hc

private theorem retarget_small {r' g : Nat} {p : List Nat} (hr' : r' ∈ roots) (h : Reach m' r' p g)
    (hlo : 2 ≤ p.length)
    (hhi : p.length ≤ 3) : ∀ e ∈ (trail (ptEntry m') child r' p).getLast?, hasFlag e pageFlagSize = false := by
  have hold : Reach vm.mem r (q ++ [i]) f := ⟨hp, by rw [walk_append_of ht, walk_singleton, hchild]⟩
  rcases retarget_walk hs hr hp ht hpriv hchild hn hn64 hdvd hm hr' h.path with
    ⟨-, h1, h2⟩ | ⟨-, rfl, -, h2⟩ | ⟨-, -, h1, j, rest, h2, h3⟩
  · rw [h2]
    exact hs.small r' hr' p g ⟨h.path, h1 ▸ h.walk⟩ hlo hhi
  · have hsz := hs.small r hr _ _ hold hlo hhi (ptEntry vm.mem t i) (by rw [trail_append ht, trail_singleton]; simp)
    rw [h2]
    simpa [copiedEntry_size _ hn64 hdvd] using hsz
  · have hold' : Reach vm.mem r' p g := ⟨h.path, h1 ▸ h.walk⟩
    have hsz := hs.small r' hr' p g hold' hlo hhi
    have hse : sharedEntry (ptEntry vm.mem f j) = cowEntry (ptEntry vm.mem f j) :=
      if_pos (present_of_mem_trail hold'.walk (by rw [h2]; simp))
    rw [h2] at hsz
    rw [h3, hse]
    cases rest with
    | nil => simpa [cowEntry_size (ptEntry_lt _ _ _)] using hsz
    | cons e rest => simpa using hsz

private theorem retarget_counted {frames : Frames} (hne : f ≠ n)
    (hcount : frames.count = Function.update (Function.update vm.frames.count (n / pageSize) 1) (f / pageSize)
      (vm.frames.count (f / pageSize) - 1)) (g : Nat) : users m' roots g ≤ frames.count (g / pageSize) := by
  obtain ⟨-, hfresh⟩ := hs.fresh hn
  have hold : Reach vm.mem r (q ++ [i]) f := ⟨hp, by rw [walk_append_of ht, walk_singleton, hchild]⟩
  have hreach : ∀ r' ∈ roots, ∀ p g, Reach m' r' p g ↔ _ := fun r' h p g =>
    retarget_reach hs hr hp ht hpriv hchild hn hn64 hdvd hm h
  rcases Nat.eq_zero_or_pos (users m' roots g) with h0 | hpos
  · omega
  obtain ⟨r', hr', p, hg⟩ := exists_of_users_pos hpos
  have hgd := hg.aligned
  by_cases hgn : g = n
  · -- only this address space reaches the new frame
    subst hgn
    have h1 : users m' roots g ≤ 1 := by
      refine users_le_one (r := r) hs.nodup fun r' hr' ⟨p, h⟩ => ?_
      rcases (hreach r' hr' p g).1 h with ⟨h2, -, -⟩ | ⟨-, h2⟩
      · exact h2
      · exact absurd h2 (hfresh r' hr' p)
    have hgf : g / pageSize ≠ f / pageSize := fun h => hne (page_div_inj hgd hold.aligned h).symm
    rw [hcount, Function.update_of_ne hgf, Function.update_self]
    exact h1
  · have hgn' : g / pageSize ≠ n / pageSize := fun h => hgn (page_div_inj hgd hdvd h)
    have hkeep : ∀ r' ∈ roots, (∃ p, Reach m' r' p g) → ∃ p, Reach vm.mem r' p g := by
      rintro r' hr' ⟨p, h⟩
      rcases (hreach r' hr' p g).1 h with ⟨-, -, h1⟩ | ⟨-, h1⟩
      · exact absurd h1 hgn
      · exact ⟨p, h1⟩
    by_cases hgf : g = f
    · subst hgf
      have hlt : users m' roots g + 1 ≤ users vm.mem roots g := by
        refine users_lt hr ?_ ⟨_, hold⟩
        rintro r' hr' ⟨p, h⟩
        rcases (hreach r' hr' p g).1 h with ⟨-, -, h1⟩ | ⟨h1, h2⟩
        · exact absurd h1 hgn
        · refine ⟨?_, p, h2⟩
          rintro rfl
          exact h1 ⟨rfl, hs.unique _ hr' _ hr _ _ _ h2 hold⟩
      have hc := hs.counted g
      rw [hcount, Function.update_self]
      omega
    · have hgf' : g / pageSize ≠ f / pageSize := fun h => hgf (page_div_inj hgd hold.aligned h)
      rw [hcount, Function.update_of_ne hgf', Function.update_of_ne hgn']
      exact Nat.le_trans (users_le (List.Sublist.refl _) hkeep) (hs.counted g)

theorem retarget_sharing {frames : Frames} (hwf : frames.Wf) (hne : f ≠ n)
    (hcount : frames.count = Function.update (Function.update vm.frames.count (n / pageSize) 1) (f / pageSize)
      (vm.frames.count (f / pageSize) - 1)) : Sharing ⟨m', frames⟩ roots := by
  obtain ⟨hroot, hfresh⟩ := hs.fresh hn
  have hold : Reach vm.mem r (q ++ [i]) f := ⟨hp, by rw [walk_append_of ht, walk_singleton, hchild]⟩
  have hreach : ∀ r' ∈ roots, ∀ p g, Reach m' r' p g ↔ _ := fun r' h p g =>
    retarget_reach hs hr hp ht hpriv hchild hn hn64 hdvd hm h
  refine ⟨hwf, hs.nodup, ?_, ?_, ?_, retarget_counted hs hr hp ht hpriv hchild hn hn64 hdvd hm hne hcount, ?_, ?_, ?_⟩
  · intro r' hr'
    obtain ⟨h1, h2⟩ := hs.root r' hr'
    refine ⟨h1, ?_⟩
    have hrf : r' / pageSize ≠ f / pageSize := by
      intro h
      obtain rfl := page_div_inj h1 hold.aligned h
      exact hs.apart r hr r' hr' _ hold
    have hrn : r' / pageSize ≠ n / pageSize := fun h => h2 (h ▸ hn)
    rw [hcount, Function.update_of_ne hrf, Function.update_of_ne hrn]
    exact h2
  · intro r1 hr1 r2 hr2 p h
    rcases (hreach r1 hr1 p r2).1 h with ⟨-, -, rfl⟩ | ⟨-, h1⟩
    · exact hroot hr2
    · exact hs.apart r1 hr1 r2 hr2 p h1
  · intro r1 hr1 r2 hr2 p1 p2 g h1 h2
    rcases (hreach r1 hr1 p1 g).1 h1 with ⟨-, rfl, rfl⟩ | ⟨-, h1'⟩
    · rcases (hreach r2 hr2 p2 g).1 h2 with ⟨-, rfl, -⟩ | ⟨-, h2'⟩
      · rfl
      · exact absurd h2' (hfresh r2 hr2 p2)
    · rcases (hreach r2 hr2 p2 g).1 h2 with ⟨-, -, rfl⟩ | ⟨-, h2'⟩
      · exact absurd h1' (hfresh r1 hr1 p1)
      · exact hs.unique r1 hr1 r2 hr2 p1 p2 g h1' h2'
  · intro r1 hr1 r2 hr2 p g h1 h2 h3
    exact retarget_owner hs hr hp ht hpriv hchild hn hn64 hdvd hm hr1 hr2 h1 h2 h3
  · intro r' hr' p g h
    exact retarget_cow hs hr hp ht hpriv hchild hn hn64 hdvd hm hr' h
  · intro r' hr' p g h hlo hhi
    exact retarget_small hs hr hp ht hpriv hchild hn hn64 hdvd hm hr' h hlo hhi

end

end Pml.Arch
