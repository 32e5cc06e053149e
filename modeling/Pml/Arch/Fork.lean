import Pml.Arch.CopyOnWrite
import Pml.Arch.Visits

/-!
# Fork

`thread_clone` marks the user half of the parent copy-on-write, adds a reference to every frame that the parent
reaches and copies the PML4 table.  The copy is a new address space that shares all page tables and pages with the
parent, reads the same values, and keeps the invariant (`threadClone_spec`).
-/

namespace Pml.Arch

open ByteMemory Radix

/-! ### Marking the user half -/

def markedEntry (e : Nat) : Nat := if hasFlag e pageFlagPresent then cowEntry e else e

theorem markedEntry_of_present {e : Nat} (h : hasFlag e pageFlagPresent = true) : markedEntry e = cowEntry e :=
  if_pos h

theorem child_markedEntry {e : Nat} (he : e < 2 ^ 64) : child (markedEntry e) = child e := by
  unfold markedEntry
  split
  · exact child_cowEntry he
  · rfl

/-- The memory `m'` after the marks on the user half of `t`. -/
structure Marked (m m' : Mem) (t : Nat) : Prop where
  outside : ∀ x, x < t ∨ t + pageSize ≤ x → m' x = m x
  entry : ∀ i, i < 256 → ptEntry m' t i = markedEntry (ptEntry m t i)
  upper : ∀ i, 256 ≤ i → i < 512 → ptEntry m' t i = ptEntry m t i

theorem markUser_spec {m : Mem} {t : Nat} (ht : pageSize ∣ t) : Marked m (markUser m t) t := by
  -- after `k` rounds the first `k` entries are marked
  have loop : ∀ k, k ≤ 256 → ∀ m', m' = (List.range k).foldl (fun m i =>
      if hasFlag (ptEntry m t i) pageFlagPresent then setEntry m t i (markCow (ptEntry m t i)) else m) m →
      (∀ x, x < t ∨ t + pageSize ≤ x → m' x = m x) ∧
        ∀ i, i < 512 → ptEntry m' t i = if i < k then markedEntry (ptEntry m t i) else ptEntry m t i := by
    intro k
    induction k with
    | zero =>
      rintro - m' rfl
      exact ⟨fun _ _ => rfl, fun i hi => by simp⟩
    | succ k ih =>
      rintro hk m' rfl
      rw [List.range_succ, List.foldl_append]
      generalize hmk : (List.range k).foldl _ _ = mk
      obtain ⟨h1, h2⟩ := ih (by omega) mk hmk.symm
      have hek : ptEntry mk t k = ptEntry m t k := by
        rw [h2 k (by omega), if_neg (Nat.lt_irrefl k)]
      simp only [List.foldl_cons, List.foldl_nil, hek]
      by_cases hp : hasFlag (ptEntry m t k) pageFlagPresent = true
      · rw [if_pos hp, markCow_eq (ptEntry_lt m t k)]
        refine ⟨fun x hx => ?_, fun i hi => ?_⟩
        · rw [setEntry_outside (by omega) hx, h1 x hx]
        · by_cases hik : i = k
          · subst hik
            rw [ptEntry_setEntry_self (cowEntry_lt (ptEntry_lt _ _ _)), if_pos (by omega), markedEntry_of_present hp]
          · rw [ptEntry_setEntry_of_ne ht ht (by omega) hi (by omega), h2 i hi]
            have hlt : i < k + 1 ↔ i < k := by omega
            simp only [hlt]
      · rw [if_neg hp]
        refine ⟨h1, fun i hi => ?_⟩
        rw [h2 i hi]
        by_cases hik : i = k
        · subst hik
          rw [if_neg (by omega), if_pos (by omega), markedEntry, if_neg hp]
        · have hlt : i < k + 1 ↔ i < k := by omega
          simp only [hlt]
  obtain ⟨h1, h2⟩ := loop 256 (Nat.le_refl _) _ rfl
  refine ⟨h1, fun i hi => ?_, fun i hi hi' => ?_⟩
  · rw [markUser, h2 i (by omega), if_pos hi]
  · rw [markUser, h2 i hi', if_neg (Nat.not_lt.2 hi)]

section

variable {vm : Vm} {roots : List Nat} (hs : Sharing vm roots)
include hs

theorem Sharing.outside_walk {n : Nat} {m' : Mem} (hdvd : pageSize ∣ n) (hroot : n ∉ roots)
    (hreach : ∀ r ∈ roots, ∀ p, ¬Reach vm.mem r p n)
    (hout : ∀ x, x < n ∨ n + pageSize ≤ x → m' x = vm.mem x) : ∀ r ∈ roots, ∀ p, UserPath p →
      walk (ptEntry m') child r p = walk (ptEntry vm.mem) child r p ∧
      trail (ptEntry m') child r p = trail (ptEntry vm.mem) child r p := by
  intro r hr p hp
  refine walk_trail_congr fun q j rest g hsplit hq => ?_
  rw [hsplit] at hp
  have hgn : g ≠ n := by
    rintro rfl
    rcases visited hp hq with ⟨-, rfl⟩ | h
    · exact hroot hr
    · exact hreach r hr q h
  have hap := page_apart (hs.visited_aligned hr hp hq) hdvd hgn
  exact ptEntry_congr (hp.lt j (by simp)) fun x h1 h2 => hout x (by omega)

theorem Sharing.outside {n : Nat} {m' : Mem} (hdvd : pageSize ∣ n) (hroot : n ∉ roots)
    (hreach : ∀ r ∈ roots, ∀ p, ¬Reach vm.mem r p n)
    (hout : ∀ x, x < n ∨ n + pageSize ≤ x → m' x = vm.mem x) : Unchanged vm ⟨m', vm.frames⟩ roots := by
  have hsame := hs.outside_walk hdvd hroot hreach hout
  refine ⟨hs.mem hsame, fun r hr v hv => ?_⟩
  have hp := userPath_user hv
  have hcongr := userLoad_congr hs (hs.mem hsame) hr hr hv
  refine hcongr (exists_congr fun f => ?_) fun f f' hf hf' => ⟨by rw [(hsame r hr _ hp).2], ?_⟩
  · exact ⟨fun h => ⟨hp, (hsame r hr _ hp).1.trans h.walk⟩, fun h => ⟨hp, (hsame r hr _ hp).1.symm.trans h.walk⟩⟩
  · obtain rfl : f = f' := Option.some.inj (hf.walk.symm.trans ((hsame r hr _ hp).1.symm.trans hf'.walk))
    have hfn : f ≠ n := fun h => hreach r hr _ (h ▸ hf)
    have hap := page_apart hf.aligned hdvd hfn
    have ho : v % pageSize < pageSize := Nat.mod_lt _ (by decide)
    exact hout _ (by omega)

theorem Sharing.other_walk {r r' : Nat} {m' : Mem} (hr : r ∈ roots) (hr' : r' ∈ roots) (hne : r' ≠ r)
    (hout : ∀ x, x < r ∨ r + pageSize ≤ x → m' x = vm.mem x) {p : List Nat} (hp : UserPath p) :
    walk (ptEntry m') child r' p = walk (ptEntry vm.mem) child r' p ∧
      trail (ptEntry m') child r' p = trail (ptEntry vm.mem) child r' p := by
  refine walk_trail_congr fun q j rest g hsplit hq => ?_
  rw [hsplit] at hp
  have hgr : g ≠ r := by
    rintro rfl
    rcases visited hp hq with ⟨-, rfl⟩ | h
    · exact hne rfl
    · exact hs.apart _ hr' _ hr _ h
  have hap := page_apart (hs.visited_aligned hr' hp hq) (hs.root r hr).1 hgr
  exact ptEntry_congr (hp.lt j (by simp)) fun x h1 h2 => hout x (by omega)

variable {r : Nat} {m' : Mem} (hr : r ∈ roots) (hm : Marked vm.mem m' r)
include hr hm

private theorem mark_walk_parent {p : List Nat} (hp : UserPath p) :
    walk (ptEntry m') child r p = walk (ptEntry vm.mem) child r p ∧
      ∃ e rest, e < 2 ^ 64 ∧ trail (ptEntry vm.mem) child r p = e :: rest ∧
        trail (ptEntry m') child r p = markedEntry e :: rest := by
  cases p with
  | nil => exact absurd rfl hp.pos
  | cons i s =>
    have hi : i < 256 := hp.user i (by simp)
    have he := hm.entry i hi
    simp only [walk_cons, trail_cons, he, child_markedEntry (ptEntry_lt vm.mem r i)]
    cases hc : child (ptEntry vm.mem r i) with
    | none =>
      rw [Option.bind_none, Option.bind_none]
      exact ⟨rfl, ptEntry vm.mem r i, [], ptEntry_lt vm.mem r i, rfl, rfl⟩
    | some g =>
      have hsame : walk (ptEntry m') child g s = walk (ptEntry vm.mem) child g s ∧
          trail (ptEntry m') child g s = trail (ptEntry vm.mem) child g s := by
        refine walk_trail_congr fun q j rest g' hsplit hq => ?_
        have hp' : UserPath ((i :: q) ++ j :: rest) := by
          rw [hsplit] at hp
          exact hp
        have hq' : walk (ptEntry vm.mem) child r (i :: q) = some g' := by
          rw [walk_cons, hc]
          exact hq
        have hne : g' ≠ r := by
          rintro rfl
          exact hs.apart _ hr _ hr _ ⟨hp'.left (by simp), hq'⟩
        have hap := page_apart (hs.visited_aligned hr hp' hq') (hs.root r hr).1 hne
        exact ptEntry_congr (hp'.lt j (by simp)) fun x h1 h2 => hm.outside x (by omega)
      refine ⟨hsame.1, ptEntry vm.mem r i, trail (ptEntry vm.mem) child g s, ptEntry_lt vm.mem r i, rfl, ?_⟩
      rw [Option.elim_some, hsame.2]

private theorem mark_walk_other {r' : Nat} {p : List Nat} (hr' : r' ∈ roots) (hne : r' ≠ r) (hp : UserPath p) :
    walk (ptEntry m') child r' p = walk (ptEntry vm.mem) child r' p ∧
      trail (ptEntry m') child r' p = trail (ptEntry vm.mem) child r' p :=
  hs.other_walk hr hr' hne hm.outside hp

theorem mark_reach {r' f : Nat} {p : List Nat} (hr' : r' ∈ roots) :
    Reach m' r' p f ↔ Reach vm.mem r' p f := by
  have h : UserPath p → walk (ptEntry m') child r' p = walk (ptEntry vm.mem) child r' p := by
    intro hp
    by_cases hne : r' = r
    · subst hne
      exact (mark_walk_parent hs hr hm hp).1
    · exact (mark_walk_other hs hr hm hr' hne hp).1
  exact ⟨fun h' => ⟨h'.path, h h'.path ▸ h'.walk⟩, fun h' => ⟨h'.path, (h h'.path).trans h'.walk⟩⟩

private theorem mark_trail {f : Nat} {p : List Nat} (hf : Reach vm.mem r p f) : ∃ e rest, e < 2 ^ 64 ∧
    trail (ptEntry vm.mem) child r p = e :: rest ∧
      trail (ptEntry m') child r p = cowEntry e :: rest := by
  obtain ⟨-, e, rest, he, h1, h2⟩ := mark_walk_parent hs hr hm hf.path
  rw [markedEntry_of_present (present_of_mem_trail hf.walk (by rw [h1]; simp))] at h2
  exact ⟨e, rest, he, h1, h2⟩

private theorem mark_shared {f : Nat} {p : List Nat} (hf : Reach vm.mem r p f) : ¬Private m' r p := by
  obtain ⟨e, rest, he, -, h2⟩ := mark_trail hs hr hm hf
  intro hpriv
  have hc := hpriv (cowEntry e) (by rw [h2]; simp)
  rw [cowEntry_cow he] at hc
  exact absurd hc (by decide)

theorem mark_sharing : Sharing ⟨m', vm.frames⟩ roots := by
  have hreach : ∀ r' ∈ roots, ∀ p f, Reach m' r' p f → Reach vm.mem r' p f :=
    fun r' hr' p f h => (mark_reach hs hr hm hr').1 h
  refine ⟨hs.wf, hs.nodup, hs.root, ?_, ?_, fun f => ?_, ?_, ?_, ?_⟩
  · intro r1 hr1 r2 hr2 p h
    exact hs.apart r1 hr1 r2 hr2 p (hreach r1 hr1 p r2 h)
  · intro r1 hr1 r2 hr2 p1 p2 f h1 h2
    exact hs.unique r1 hr1 r2 hr2 p1 p2 f (hreach r1 hr1 p1 f h1) (hreach r2 hr2 p2 f h2)
  · refine Nat.le_trans (users_le (List.Sublist.refl _) ?_) (hs.counted f)
    rintro r' hr' ⟨p, h⟩
    exact ⟨p, hreach r' hr' p f h⟩
  · intro r1 hr1 r2 hr2 p f h1 hpriv h2
    by_cases hne : r1 = r
    · subst hne
      exact absurd hpriv (mark_shared hs hr hm (hreach _ hr1 p f h1))
    · refine hs.owner r1 hr1 r2 hr2 p f (hreach r1 hr1 p f h1) ?_ (hreach r2 hr2 p f h2)
      intro e he
      rw [← (mark_walk_other hs hr hm hr1 hne h1.path).2] at he
      exact hpriv e he
  · intro r1 hr1 p f h1
    have h1' := hreach r1 hr1 p f h1
    have hold := hs.cow r1 hr1 p f h1'
    by_cases hne : r1 = r
    · subst hne
      obtain ⟨e, rest, he, h2, h3⟩ := mark_trail hs hr hm h1'
      rw [h2] at hold
      rw [h3]
      intro e' he' hc
      rcases List.mem_cons.1 he' with rfl | he'
      · exact cowEntry_rw he
      · exact hold e' (List.mem_cons_of_mem _ he') hc
    · rw [(mark_walk_other hs hr hm hr1 hne h1.path).2]
      exact hold
  · intro r1 hr1 p f h1 hlo hhi
    have h1' := hreach r1 hr1 p f h1
    have hold := hs.small r1 hr1 p f h1' hlo hhi
    by_cases hne : r1 = r
    · subst hne
      obtain ⟨e, rest, he, h2, h3⟩ := mark_trail hs hr hm h1'
      rw [h2] at hold
      rw [h3]
      cases rest with
      | nil => simpa [cowEntry_size he] using hold
      | cons e' rest => simpa using hold
    · rw [(mark_walk_other hs hr hm hr1 hne h1.path).2]
      exact hold

private theorem mark_unchanged : Unchanged vm ⟨m', vm.frames⟩ roots := by
  have hs' := mark_sharing hs hr hm
  refine ⟨hs', fun r' hr' v hv => ?_⟩
  have hcongr := userLoad_congr hs hs' hr' hr' hv
  refine hcongr (exists_congr fun f => (mark_reach hs hr hm hr').symm) fun f f' hf hf' => ⟨?_, ?_⟩
  · by_cases hne : r' = r
    · subst hne
      obtain ⟨e, rest, he, h1, h2⟩ := mark_trail hs hr hm hf
      have hread : Readable (cowEntry e) ↔ Readable e := by
        rw [Readable, Readable, cowEntry_user he, hasFlag_present, hasFlag_present, testBit_cowEntry he]
        simp
      rw [h1, h2]
      simp only [List.forall_mem_cons, hread]
    · rw [(mark_walk_other hs hr hm hr' hne hf.path).2]
  · obtain rfl : f = f' := Option.some.inj (hf.walk.symm.trans ((mark_reach hs hr hm hr').1 hf').walk)
    have hne : f ≠ r := fun h => hs.apart r' hr' r hr _ (h ▸ hf)
    have hap := page_apart hf.aligned (hs.root r hr).1 hne
    have ho : v % pageSize < pageSize := Nat.mod_lt _ (by decide)
    exact hm.outside _ (by omega)

end

/-! ### The new address space -/

section

variable {vm : Vm} {roots : List Nat} (hs : Sharing vm roots) {r n : Nat} {m' : Mem} (hr : r ∈ roots)
  (hn64 : pageSize ∣ n) (hroot : n ∉ roots) (hfresh : ∀ r ∈ roots, ∀ p, ¬Reach vm.mem r p n)
  (hout : ∀ x, x < n ∨ n + pageSize ≤ x → m' x = vm.mem x)
  (hent : ∀ i, i < 256 → ptEntry m' n i = ptEntry vm.mem r i)
include hs hr hn64 hroot hfresh hout hent

private theorem copied_walk {p : List Nat} (hp : UserPath p) :
    walk (ptEntry m') child n p = walk (ptEntry vm.mem) child r p ∧
      trail (ptEntry m') child n p = trail (ptEntry vm.mem) child r p := by
  cases p with
  | nil => exact absurd rfl hp.pos
  | cons i s =>
    have he := hent i (hp.user i (by simp))
    simp only [walk_cons, trail_cons, he]
    cases hc : child (ptEntry vm.mem r i) with
    | none => simp only [Option.bind_none, Option.elim_none, and_self]
    | some g =>
      have hsame : walk (ptEntry m') child g s = walk (ptEntry vm.mem) child g s ∧
          trail (ptEntry m') child g s = trail (ptEntry vm.mem) child g s := by
        refine walk_trail_congr fun q j rest g' hsplit hq => ?_
        have hp' : UserPath ((i :: q) ++ j :: rest) := by
          rw [hsplit] at hp
          exact hp
        have hq' : walk (ptEntry vm.mem) child r (i :: q) = some g' := by
          rw [walk_cons, hc]
          exact hq
        have hne : g' ≠ n := by
          rintro rfl
          exact hfresh r hr _ ⟨hp'.left (by simp), hq'⟩
        have hap := page_apart (hs.visited_aligned hr hp' hq') hn64 hne
        exact ptEntry_congr (hp'.lt j (by simp)) fun x h1 h2 => hout x (by omega)
      simp only [Option.bind_some, Option.elim_some, hsame.1, hsame.2, and_self]

private theorem copied_base {x : Nat} (hx : x ∈ n :: roots) : ∃ b ∈ roots, ((x = n ∧ b = r) ∨ (x ≠ n ∧ b = x)) ∧
    ∀ p, UserPath p → walk (ptEntry m') child x p = walk (ptEntry vm.mem) child b p ∧
      trail (ptEntry m') child x p = trail (ptEntry vm.mem) child b p := by
  rcases List.mem_cons.1 hx with rfl | hx
  · exact ⟨r, hr, Or.inl ⟨rfl, rfl⟩, fun p hp => copied_walk hs hr hn64 hroot hfresh hout hent hp⟩
  · have hne : x ≠ n := fun h => hroot (h ▸ hx)
    exact ⟨x, hx, Or.inr ⟨hne, rfl⟩, hs.outside_walk hn64 hroot hfresh hout x hx⟩

private theorem copied_sharing (hshared : ∀ p f, Reach vm.mem r p f → ¬Private vm.mem r p)
    (hcn : vm.frames.count (n / pageSize) ≠ 0)
    (hcount : ∀ p f, Reach vm.mem r p f → users vm.mem roots f + 1 ≤ vm.frames.count (f / pageSize)) :
    Sharing ⟨m', vm.frames⟩ (n :: roots) := by
  have hbase := fun x hx => copied_base hs hr hn64 hroot hfresh hout hent (x := x) hx
  have hreach : ∀ x b p f, (∀ p, UserPath p → walk (ptEntry m') child x p = walk (ptEntry vm.mem) child b p ∧
      trail (ptEntry m') child x p = trail (ptEntry vm.mem) child b p) → Reach m' x p f → Reach vm.mem b p f :=
    fun x b p f h hf => ⟨hf.path, (h p hf.path).1.symm.trans hf.walk⟩
  refine ⟨hs.wf, List.nodup_cons.2 ⟨hroot, hs.nodup⟩, ?_, ?_, ?_, fun f => ?_, ?_, ?_, ?_⟩
  · intro x hx
    rcases List.mem_cons.1 hx with rfl | hx
    · exact ⟨hn64, hcn⟩
    · exact hs.root x hx
  · -- no root is below a table
    intro x hx y hy p hf
    obtain ⟨b, hb, -, hw⟩ := hbase x hx
    have hf' := hreach x b p y hw hf
    rcases List.mem_cons.1 hy with rfl | hy
    · exact hfresh b hb p hf'
    · exact hs.apart b hb y hy p hf'
  · intro x hx y hy p q f hf hf'
    obtain ⟨b, hb, -, hw⟩ := hbase x hx
    obtain ⟨c, hc, -, hw'⟩ := hbase y hy
    exact hs.unique b hb c hc p q f (hreach x b p f hw hf) (hreach y c q f hw' hf')
  · -- the copy is one more user of all that it reaches
    classical
    have hold : users m' roots f ≤ users vm.mem roots f := by
      refine users_le (List.Sublist.refl _) ?_
      rintro x hx ⟨p, hf⟩
      exact ⟨p, hreach x x p f (hs.outside_walk hn64 hroot hfresh hout x hx) hf⟩
    by_cases hnf : ∃ p, Reach m' n p f
    · have h1 : users m' (n :: roots) f = users m' roots f + 1 :=
        List.countP_cons_of_pos (by simpa using hnf)
      obtain ⟨p, hf⟩ := hnf
      have h2 := hcount p f (hreach n r p f (fun p hp => copied_walk hs hr hn64 hroot hfresh hout hent hp) hf)
      simp only
      omega
    · have h1 : users m' (n :: roots) f = users m' roots f := List.countP_cons_of_neg (by simpa using hnf)
      rw [h1]
      exact Nat.le_trans hold (hs.counted f)
  · -- without a mark a frame has one owner, and the parent reaches no frame without a mark
    intro x hx y hy p f hf hpriv hf'
    obtain ⟨b, hb, hxb, hw⟩ := hbase x hx
    obtain ⟨c, hc, hyc, hw'⟩ := hbase y hy
    have h1 := hreach x b p f hw hf
    have hpriv' : Private vm.mem b p := by
      intro e he
      rw [← (hw p hf.path).2] at he
      exact hpriv e he
    have hcb := hs.owner b hb c hc p f h1 hpriv' (hreach y c p f hw' hf')
    have hbr : b ≠ r := by
      rintro rfl
      exact hshared p f h1 hpriv'
    rcases hxb with ⟨-, h⟩ | ⟨-, h⟩
    · exact absurd h hbr
    · rcases hyc with ⟨-, h'⟩ | ⟨-, h'⟩
      · exact absurd (hcb.symm.trans h') hbr
      · rw [← h', ← h, hcb]
  · intro x hx p f hf
    obtain ⟨b, hb, -, hw⟩ := hbase x hx
    rw [(hw p hf.path).2]
    exact hs.cow b hb p f (hreach x b p f hw hf)
  · intro x hx p f hf
    obtain ⟨b, hb, -, hw⟩ := hbase x hx
    rw [(hw p hf.path).2]
    exact hs.small b hb p f (hreach x b p f hw hf)

private theorem copied_load {frames : Frames} (hs' : Sharing ⟨m', frames⟩ (n :: roots)) {v : Nat} (hv : v < 2 ^ 47) :
    userLoad m' n v = userLoad vm.mem r v := by
  have hp := userPath_user hv
  have hw := copied_walk hs hr hn64 hroot hfresh hout hent hp
  have hcongr := userLoad_congr hs hs' hr List.mem_cons_self hv
  refine hcongr (exists_congr fun f => ?_) fun f f' hf hf' => ⟨by rw [hw.2], ?_⟩
  · exact ⟨fun h => ⟨hp, hw.1.trans h.walk⟩, fun h => ⟨hp, hw.1.symm.trans h.walk⟩⟩
  · obtain rfl : f = f' := Option.some.inj (hf.walk.symm.trans (hw.1.symm.trans hf'.walk))
    have hfn : f ≠ n := fun h => hfresh r hr _ (h ▸ hf)
    have hap := page_apart hf.aligned hn64 hfn
    have ho : v % pageSize < pageSize := Nat.mod_lt _ (by decide)
    exact hout _ (by omega)

end

theorem copiedRoot_spec (m : Mem) {r n : Nat} (e : Nat) (hn : pageSize ∣ n) :
    (∀ x, x < n ∨ n + pageSize ≤ x →
      setEntry (copy m n r pageSize) n (pml4tIndex threadLocalBaseVma) e x = m x) ∧
    ∀ i, i < 256 →
      ptEntry (setEntry (copy m n r pageSize) n (pml4tIndex threadLocalBaseVma) e) n i = ptEntry m r i := by
  have hidx : pml4tIndex threadLocalBaseVma = 506 := by decide
  rw [hidx]
  refine ⟨fun x hx => ?_, fun i hi => ?_⟩
  · rw [setEntry_outside (by decide) hx, copy_outside hx]
  · rw [ptEntry_setEntry_of_ne hn hn (by decide) (by omega) (by omega), ptEntry, ptEntry]
    exact readLE_copy_inside (by simp only [pageSize]; omega)

/-- The outcomes of a fork: there is no memory, or the new PML4 table `n` is a copy of the marked one of the parent.
The second new frame `b` is for the thread-local tables. -/
theorem threadClone_cases {vm : Vm} {roots : List Nat} (hs : Sharing vm roots) {r : Nat} (hr : r ∈ roots) :
    (∃ frames : Frames, threadClone vm r = (⟨vm.mem, frames⟩, 0) ∧ frames.Wf ∧
      (∀ k, vm.frames.count k ≤ frames.count k) ∧ ∀ k, k ≠ 0 → frames.count k = vm.frames.count k) ∨
    ∃ n b m2 m4, ∃ frames : Frames, threadClone vm r = (⟨m4, refUser m2 frames r⟩, n) ∧
      b = (allocPage (allocPage vm.frames).1).2 ∧ n ≠ 0 ∧ b ≠ 0 ∧ pageSize ∣ n ∧ pageSize ∣ b ∧
      n / pageSize ≠ b / pageSize ∧ vm.frames.count (n / pageSize) = 0 ∧ vm.frames.count (b / pageSize) = 0 ∧
      frames.Wf ∧ frames.count = Function.update (Function.update vm.frames.count (n / pageSize) 1) (b / pageSize) 1 ∧
      Marked (fill vm.mem b pageSize 0) m2 r ∧ (∀ x, x < n ∨ n + pageSize ≤ x → m4 x = m2 x) ∧
      ∀ i, i < 256 → ptEntry m4 n i = ptEntry m2 r i := by
  obtain ⟨hwfa, ha⟩ := allocPage_spec hs.wf
  have hlea := allocPage_le hs.wf
  unfold threadClone
  by_cases ha0 : (allocPage vm.frames).2 = 0
  · simp only [ha0, ↓reduceIte]
    refine Or.inl ⟨_, rfl, hwfa, hlea, fun k hk => ?_⟩
    rcases ha with ⟨-, hc⟩ | ⟨-, -, -, hc⟩
    · rw [hc]
    · rw [hc, ha0, Nat.zero_div, Function.update_of_ne hk]
  obtain ⟨hnd, hnle, hn, hca⟩ := ha.resolve_left fun h => ha0 h.1
  simp only [ha0, ↓reduceIte]
  generalize allocPage vm.frames = a at *
  obtain ⟨hwfb, hb⟩ := allocPage_spec hwfa
  have hleb := allocPage_le hwfa
  by_cases hb0 : (allocPage a.1).2 = 0
  · -- the table is given back
    simp only [hb0, ↓reduceIte]
    have hn64 : a.2 < 2 ^ 64 := by
      simp only [pageSize] at hnle
      omega
    obtain ⟨hwf', hc'⟩ := freePage_spec hwfb ha0 (alignDown_of_dvd hn64 hnd) hnd
    have hsame : ∀ k, k ≠ 0 → (allocPage a.1).1.count k = a.1.count k := by
      intro k hk
      rcases hb with ⟨-, hc⟩ | ⟨-, -, -, hc⟩
      · rw [hc]
      · rw [hc, hb0, Nat.zero_div, Function.update_of_ne hk]
    refine Or.inl ⟨_, rfl, hwf', fun k => ?_, fun k hk => ?_⟩
    · rw [hc']
      by_cases hk : k = a.2 / pageSize
      · rw [hk, hn]
        exact Nat.zero_le _
      · rw [Function.update_of_ne hk]
        exact Nat.le_trans (hlea k) (hleb k)
    · rw [hc']
      by_cases hka : k = a.2 / pageSize
      · rw [← hka, Function.update_self, hsame k hk, hca, ← hka, Function.update_self, hka, hn]
      · rw [Function.update_of_ne hka, hsame k hk, hca, Function.update_of_ne hka]
  obtain ⟨hbd, -, hbc, hcb⟩ := hb.resolve_left fun h => hb0 h.1
  simp only [hb0, ↓reduceIte]
  generalize allocPage a.1 = b at *
  have hbn : b.2 / pageSize ≠ a.2 / pageSize := by
    intro h
    rw [h, hca, Function.update_self] at hbc
    exact absurd hbc (by decide)
  rw [hca, Function.update_of_ne hbn] at hbc
  obtain ⟨hout, hent⟩ := copiedRoot_spec (markUser (fill vm.mem b.2 pageSize 0) r) (r := r)
    (b.2 ||| pageFlagPresent ||| pageFlagRw ||| pageFlagUser) hnd
  exact Or.inr ⟨a.2, b.2, _, _, b.1, rfl, rfl, ha0, hb0, hnd, hbd, Ne.symm hbn, hn, hbc, hwfb, by rw [hcb, hca],
    markUser_spec (hs.root r hr).1, hout, hent⟩

/-- The ways after a fork: those of the parent are marked in the PML4 table, the new address space has the ways of its
parent, and the others are unchanged. -/
theorem threadClone_walks {vm : Vm} {roots : List Nat} (hs : Sharing vm roots) {r : Nat} (hr : r ∈ roots)
    (h0 : (threadClone vm r).2 ≠ 0) {p : List Nat} (hp : UserPath p) :
    (∀ r' ∈ roots, r' ≠ r → walk (ptEntry (threadClone vm r).1.mem) child r' p = walk (ptEntry vm.mem) child r' p ∧
      trail (ptEntry (threadClone vm r).1.mem) child r' p = trail (ptEntry vm.mem) child r' p) ∧
    (walk (ptEntry (threadClone vm r).1.mem) child r p = walk (ptEntry vm.mem) child r p ∧
      ∃ e rest, e < 2 ^ 64 ∧ trail (ptEntry vm.mem) child r p = e :: rest ∧
        trail (ptEntry (threadClone vm r).1.mem) child r p = markedEntry e :: rest) ∧
    walk (ptEntry (threadClone vm r).1.mem) child (threadClone vm r).2 p =
      walk (ptEntry (threadClone vm r).1.mem) child r p ∧
    trail (ptEntry (threadClone vm r).1.mem) child (threadClone vm r).2 p =
      trail (ptEntry (threadClone vm r).1.mem) child r p := by
  rcases threadClone_cases hs hr with ⟨frames, he, -⟩ |
    ⟨n, b, m2, m4, frames, he, -, -, -, hnd, hbd, -, hn, hbc, -, -, hm, hout, hent⟩
  · rw [he] at h0
    exact absurd rfl h0
  rw [he]
  obtain ⟨hnroot, hnreach⟩ := hs.fresh hn
  obtain ⟨hbroot, hbreach⟩ := hs.fresh hbc
  have hfill : ∀ x, x < b ∨ b + pageSize ≤ x → fill vm.mem b pageSize 0 x = vm.mem x := fun x hx => fill_outside hx
  have hs1 := (hs.outside hbd hbroot hbreach hfill).sharing
  have hw1 := hs.outside_walk hbd hbroot hbreach hfill
  have hs2 := mark_sharing hs1 hr hm
  have hn2 : ∀ r' ∈ roots, ∀ p, ¬Reach m2 r' p n := by
    intro r' hr' p h
    have h1 := (mark_reach hs1 hr hm hr').1 h
    exact hnreach r' hr' p ⟨h1.path, (hw1 r' hr' p h1.path).1.symm.trans h1.walk⟩
  have hw4 := hs2.outside_walk hnd hnroot hn2 hout
  refine ⟨fun r' hr' hne => ?_, ?_, ?_⟩
  · obtain ⟨h1, h2⟩ := mark_walk_other hs1 hr hm hr' hne hp
    exact ⟨(hw4 r' hr' p hp).1.trans (h1.trans (hw1 r' hr' p hp).1),
      (hw4 r' hr' p hp).2.trans (h2.trans (hw1 r' hr' p hp).2)⟩
  · obtain ⟨h1, e, rest, hlt, h2, h3⟩ := mark_walk_parent hs1 hr hm hp
    exact ⟨(hw4 r hr p hp).1.trans (h1.trans (hw1 r hr p hp).1), e, rest, hlt, (hw1 r hr p hp).2.symm.trans h2,
      (hw4 r hr p hp).2.trans h3⟩
  · obtain ⟨h1, h2⟩ := copied_walk hs2 hr hnd hnroot hn2 hout hent hp
    exact ⟨h1.trans (hw4 r hr p hp).1.symm, h2.trans (hw4 r hr p hp).2.symm⟩

/-- A fork fails and changes no value, or adds an address space that reads the values of its parent. -/
theorem threadClone_spec {vm : Vm} {roots : List Nat} (hs : Sharing vm roots) {r : Nat} (hr : r ∈ roots) :
    ((threadClone vm r).2 = 0 ∧ Unchanged vm (threadClone vm r).1 roots) ∨
    ((threadClone vm r).2 ≠ 0 ∧ Sharing (threadClone vm r).1 ((threadClone vm r).2 :: roots) ∧
      (∀ r' ∈ roots, ∀ v, v < 2 ^ 47 → userLoad (threadClone vm r).1.mem r' v = userLoad vm.mem r' v) ∧
      ∀ v, v < 2 ^ 47 → userLoad (threadClone vm r).1.mem (threadClone vm r).2 v = userLoad vm.mem r v) := by
  rcases threadClone_cases hs hr with ⟨frames, he, hwf, hle, -⟩ |
    ⟨n, b, m2, m4, frames, he, -, hn0, -, hnd, hbd, hnb, hn, hbc, hwfb, hcount, hm, hout, hent⟩
  · rw [he]
    exact Or.inl ⟨rfl, hs.frames hwf hle, fun _ _ _ _ => rfl⟩
  rw [he]
  have hle : ∀ k, vm.frames.count k ≤ frames.count k := by
    intro k
    rw [hcount]
    by_cases hkb : k = b / pageSize
    · rw [hkb, hbc]
      exact Nat.zero_le _
    · rw [Function.update_of_ne hkb]
      by_cases hkn : k = n / pageSize
      · rw [hkn, hn]
        exact Nat.zero_le _
      · rw [Function.update_of_ne hkn]
  obtain ⟨hnroot, hnreach⟩ := hs.fresh hn
  obtain ⟨hbroot, hbreach⟩ := hs.fresh hbc
  -- the new thread-local table is cleared
  have hs0 : Sharing ⟨vm.mem, frames⟩ roots := hs.frames hwfb hle
  have hfill : ∀ x, x < b ∨ b + pageSize ≤ x → fill vm.mem b pageSize 0 x = vm.mem x :=
    fun x hx => fill_outside hx
  have u1 := hs0.outside hbd hbroot hbreach hfill
  have hw1 := hs0.outside_walk hbd hbroot hbreach hfill
  have hn1 : ∀ r' ∈ roots, ∀ p, ¬Reach (fill vm.mem b pageSize 0) r' p n := fun r' hr' p h =>
    hnreach r' hr' p ⟨h.path, (hw1 r' hr' p h.path).1.symm.trans h.walk⟩
  generalize fill vm.mem b pageSize 0 = m1 at *
  -- the parent is marked
  have u2 := mark_unchanged u1.sharing hr hm
  have hn2 : ∀ r' ∈ roots, ∀ p, ¬Reach m2 r' p n := fun r' hr' p h =>
    hn1 r' hr' p ((mark_reach u1.sharing hr hm hr').1 h)
  have hshared : ∀ p f, Reach m2 r p f → ¬Private m2 r p := fun p f h =>
    mark_shared u1.sharing hr hm ((mark_reach u1.sharing hr hm hr).1 h)
  -- all frames of the parent get a reference
  obtain ⟨hgwf, hrefs⟩ := adds_refUser m2 r frames hwfb
  simp only [plus, forall_const] at hgwf hrefs
  have hgrow : ∀ k, frames.count k ≤ (refUser m2 frames r).count k := by
    intro k
    rw [hrefs k]
    split <;> omega
  have hraise : ∀ p f, Reach m2 r p f → frames.count (f / pageSize) ≠ 0 →
      frames.count (f / pageSize) + 1 ≤ (refUser m2 frames r).count (f / pageSize) := by
    intro p f h hc
    rw [hrefs, if_neg hc, u2.sharing.hits_frames hr h.aligned, users_singleton h]
  generalize refUser m2 frames r = fr at *
  have hs2 : Sharing ⟨m2, fr⟩ roots := u2.sharing.frames hgwf hgrow
  have husers : ∀ p f, Reach m2 r p f → users m2 roots f + 1 ≤ fr.count (f / pageSize) := by
    intro p f h
    have h1 : users m2 roots f ≤ frames.count (f / pageSize) := u2.sharing.counted f
    have h2 := users_pos hr h
    have h3 := hraise p f h (by omega)
    omega
  have hcn : fr.count (n / pageSize) ≠ 0 := by
    have h1 : frames.count (n / pageSize) = 1 := by rw [hcount, Function.update_of_ne hnb, Function.update_self]
    have h3 := hgrow (n / pageSize)
    omega
  -- the table is copied
  have hs4 := copied_sharing hs2 hr hnd hnroot hn2 hout hent hshared hcn husers
  have u4 := hs2.outside hnd hnroot hn2 hout
  refine Or.inr ⟨hn0, hs4, fun r' hr' v hv => ?_, fun v hv => ?_⟩
  · exact (u4.load r' hr' v hv).trans ((u2.load r' hr' v hv).trans (u1.load r' hr' v hv))
  · exact (copied_load hs2 hr hnd hnroot hn2 hout hent hs4 hv).trans
      ((u2.load r hr v hv).trans (u1.load r hr v hv))

end Pml.Arch
