import Pml.Arch.HeldFrames
import Pml.Arch.Unmapping

/-!
# Two address spaces

The address spaces of two processes share the tables of the kernel, but no table of the user space.  The operations on
a user address write to tables of the user space only (`UserWrites`), so they leave the other address space alone
(`Space.other`).
-/

namespace Pml.Arch

open ByteMemory LevelWalk

def LowPath (p : List (Fin 512)) : Prop := ∀ i ∈ p.head?, (i : Nat) < 256

def UserTable (m : Mem) (r g : Nat) : Prop := ∃ p, p.length ≤ 3 ∧ LowPath p ∧ walk (entryAt m) tableOf 0 r p = some g

/-- Tables stay where they are, and memory changes in the tables of the lower half only. -/
structure UserWrites (vm vm' : Vm) (r : Nat) : Prop where
  keep : ∀ p t, p.length ≤ 3 → walk (entryAt vm.mem) tableOf 0 r p = some t →
    walk (entryAt vm'.mem) tableOf 0 r p = some t
  mem : ∀ g, pageSize ∣ g → ¬UserTable vm'.mem r g → ∀ o < pageSize, vm'.mem (g + o) = vm.mem (g + o)

/-- No table of one address space is a table of the lower half of the other. -/
structure Apart (m : Mem) (r q : Nat) : Prop where
  left : ∀ g, IsTable m q g → ¬UserTable m r g
  right : ∀ g, IsTable m r g → ¬UserTable m q g

private theorem UserTable.isTable {m : Mem} {r g : Nat} (h : UserTable m r g) : IsTable m r g := by
  obtain ⟨p, h1, -, h2⟩ := h
  exact ⟨p, h1, h2⟩

private theorem lowPath_nil : LowPath [] := by simp [LowPath]

private theorem lowPath_of_indices {v : Nat} (hv : v < 2 ^ 47) {p : List (Fin 512)} (hp : p <+: indices v) :
    LowPath p := by
  intro i hi
  cases p with
  | nil => simp at hi
  | cons j p =>
    obtain rfl := Option.some.inj hi
    obtain rfl := (List.cons_prefix_cons.1 hp).1
    show v / 2 ^ 39 % 512 < 256
    omega

section

variable {vm vm' vm'' : Vm} {r : Nat}

theorem UserWrites.refl (vm : Vm) (r : Nat) : UserWrites vm vm r := ⟨fun _ _ _ h => h, fun _ _ _ _ _ => rfl⟩

theorem UserWrites.table (h : UserWrites vm vm' r) {g : Nat} (hg : UserTable vm.mem r g) : UserTable vm'.mem r g := by
  obtain ⟨p, h1, h2, h3⟩ := hg
  exact ⟨p, h1, h2, h.keep p g h1 h3⟩

theorem UserWrites.trans (h1 : UserWrites vm vm' r) (h2 : UserWrites vm' vm'' r) : UserWrites vm vm'' r := by
  refine ⟨fun p t hp ht => h2.keep p t hp (h1.keep p t hp ht), fun g hd hg o ho => ?_⟩
  rw [h2.mem g hd hg o ho, h1.mem g hd (fun h => hg (h2.table h)) o ho]

theorem UserWrites.cut (h : UserWrites vm vm' r) (hs : Space vm' r) {g : Nat} (hg : IsTable vm.mem r g)
    (hg' : UserTable vm'.mem r g) : UserTable vm.mem r g := by
  obtain ⟨p, hp, hwalk⟩ := hg
  obtain ⟨q, hq, hlow, hwalk'⟩ := hg'
  obtain rfl := hs.tree.tree p q g hp hq (h.keep p g hp hwalk) hwalk'
  exact ⟨p, hp, hlow, hwalk⟩

private theorem Space.write_user {m : Mem} {t : Nat} {i : Fin 512} {q : List (Fin 512)} {f : Frames} (h : Space vm r)
    (hq : walk (entryAt vm.mem) tableOf 0 r q = some t) (hlen : q.length ≤ 3) (hlow : LowPath q)
    (hsame : ChangesAt (entryAt vm.mem) (entryAt m) tableOf 3 r t i)
    (hold : tableOf q.length (ptEntry vm.mem t i) = none) (hmem : ∀ x, x < t ∨ t + pageSize ≤ x → m x = vm.mem x) :
    UserWrites vm ⟨m, f⟩ r := by
  have hkeep : ∀ p g, p.length ≤ 3 → walk (entryAt vm.mem) tableOf 0 r p = some g →
      walk (entryAt m) tableOf 0 r p = some g := fun p g hp hg => h.tree.tree.keep hq hlen hsame hold hp hg
  refine ⟨hkeep, fun g hd hg o ho => ?_⟩
  have htab : IsTable vm.mem r t := ⟨q, hlen, hq⟩
  have hap := page_apart (htab.aligned h.tree) hd fun he => hg (he ▸ ⟨q, hlen, hlow, hkeep q t hlen hq⟩)
  exact hmem _ (by omega)

private theorem makeTable_writes {t flags : Nat} {i : Fin 512} {q : List (Fin 512)} (h : Space vm r)
    (hq : walk (entryAt vm.mem) tableOf 0 r q = some t) (hlen : q.length ≤ 2) (hlow : LowPath (q ++ [i]))
    (hf : MapFlags flags) : UserWrites vm (makeTable vm t i flags).1 r := by
  have hmade := makeTable_cases (k := 0) (i := i) h.tree hq hlen hf (h.wf.supply h.counted 1)
  have halloc := h.allocPage
  have hlowq : LowPath q := by
    cases q with
    | nil => exact lowPath_nil
    | cons j q => exact hlow
  generalize makeTable vm t i flags = s at hmade ⊢
  cases hmade with
  | present entry => exact .refl vm r
  | failed absent none same entry mem =>
    exact h.write_user hq (by omega) hlowq same (tableOf_absent absent) mem
  | made absent some fresh same entry table empty mem =>
    rename_i m
    obtain ⟨-, hd, -, -, -⟩ := halloc.resolve_left fun h => some h.1
    obtain ⟨n, hn⟩ : ∃ n, (allocPage vm.frames).2 = n := ⟨_, rfl⟩
    rw [hn] at some fresh table empty mem hd
    have hkeep : ∀ p g, p.length ≤ 3 → walk (entryAt vm.mem) tableOf 0 r p = Option.some g →
        walk (entryAt m) tableOf 0 r p = Option.some g := fun p g hp hg =>
      h.tree.tree.keep hq (by omega) same (tableOf_absent absent) hp hg
    have hnext : UserTable m r n := by
      refine ⟨q ++ [i], by rw [List.length_append, List.length_singleton]; omega, hlow, ?_⟩
      rw [walk_snoc (hkeep q t (by omega) hq), Nat.zero_add]
      exact table
    refine ⟨hkeep, fun g hdg hg o ho => ?_⟩
    have htab : IsTable vm.mem r t := ⟨q, by omega, hq⟩
    have hap1 :=
      page_apart (htab.aligned h.tree) hdg fun he => hg (he ▸ ⟨q, by omega, hlowq, hkeep q t (by omega) hq⟩)
    have hap2 := page_apart hd hdg fun he => hg (he ▸ hnext)
    exact mem _ (by omega) (by omega)

theorem vmMapPage_writes {v physAddr flags : Nat} (h : Space vm r) (hv : v < 2 ^ 47) (hf : MapFlags flags) :
    UserWrites vm (vmMapPage vm r physAddr v flags).1 r := by
  have hlow := fun {p : List (Fin 512)} (hp : p <+: indices v) => lowPath_of_indices hv hp
  have hrule := @vmMapPage_rule vm r v physAddr flags (canonical_user hv)
    (fun q t cur => Extends vm cur r ∧ UserWrites vm cur r ∧ q <+: indices v ∧
      walk (entryAt cur.mem) tableOf 0 r q = some t) ⟨.refl h, .refl vm r, List.nil_prefix, rfl⟩ ?_
  · obtain ⟨q, i, t, cur, hpre, hlen, ⟨h1, h2, -, h3⟩, hres, -⟩ | ⟨t, cur, ⟨h1, h2, hpre, h3⟩, hres⟩ := hrule
    · rw [hres]
      exact h2.trans (makeTable_writes h1.space h3 hlen (hlow hpre) hf)
    · have hsame := h1.space.tree.setEntry_changesAt h3 (i := indexAt v 12)
        (alignDown physAddr pageSize ||| pageFlagPresent ||| flags)
      rw [hres, ← (index_val v).2.2.2]
      exact h2.trans (h1.space.write_user h3 (by simp) (hlow hpre) hsame (tableOf_last _)
        fun x hx => setEntry_outside (indexAt v 12).2 hx)
  · rintro q i t cur hpre hlen ⟨h1, h2, -, h3⟩ hok hsize
    obtain ⟨h4, -⟩ := makeTable_extends (i := i) h1.space h3 hlen hf
    have hmade := makeTable_made (k := 0) (i := i) h1.space.tree h3 hlen hf (h1.space.wf.supply h1.space.counted 1)
    exact ⟨h1.trans h4, h2.trans (makeTable_writes h1.space h3 hlen (hlow hpre) hf), hpre, hmade.next hok hlen hsize⟩

theorem vmUnmapPage_writes {v : Nat} (h : Space vm r) (hv : v < 2 ^ 47) :
    UserWrites vm ⟨(vmUnmapPage vm.mem r v).1, vm.frames⟩ r := by
  obtain ⟨q, i, s, t, hsplit, hq, hend, hcase⟩ := @vmUnmapPage_cases vm.mem r v (canonical_user hv)
  have hlen := congrArg List.length hsplit
  simp only [indices, List.length_append, List.length_cons, List.length_nil] at hlen
  rcases hcase with h1 | ⟨-, h1⟩
  · rw [h1]
    exact h.write_user hq (by omega) (lowPath_of_indices hv ⟨_, hsplit.symm⟩) (h.tree.setEntry_changesAt hq 0) hend
      fun x hx => setEntry_outside i.2 hx
  · rw [h1]
    exact .refl vm r

end

/-! ### The other address space -/

section

variable {vm vm' : Vm} {r q : Nat} (hapart : Apart vm.mem r q) (hq : Space vm q) (hext : Extends vm vm' r)
  (hw : UserWrites vm vm' r)
include hapart hq hext hw

theorem UserWrites.other : ∀ g, IsTable vm.mem q g → ∀ o < pageSize, vm'.mem (g + o) = vm.mem (g + o) := by
  intro g hg
  refine hw.mem g (hg.aligned hq.tree) fun hu => ?_
  rcases hext.fresh g hu.isTable with h1 | h1
  · exact hapart.left g hg (hw.cut hext.space h1 hu)
  · exact hq.counted g hg h1

theorem Space.other : Space vm' q ∧ (∀ g, IsTable vm'.mem q g ↔ IsTable vm.mem q g) ∧
    (∀ w, leaf vm'.mem q w = leaf vm.mem q w) ∧ Apart vm'.mem r q := by
  have hsame := hw.other hapart hq hext
  obtain ⟨h1, h2, h3⟩ := tables_congr hq.tree hsame
  have hcount : ∀ i, vm.frames.count i ≠ 0 → vm'.frames.count i ≠ 0 := fun i hi h0 => by
    have hle := hext.le i
    omega
  refine ⟨⟨h1, hext.space.wf, fun g hg => hcount _ (hq.counted g ((h2 g).1 hg)), hcount 0 hq.reserved⟩, h2, h3,
    ⟨fun g hg hu => ?_, fun g hg hu => ?_⟩⟩
  · have hold := (h2 g).1 hg
    rcases hext.fresh g hu.isTable with h4 | h4
    · exact hapart.left g hold (hw.cut hext.space h4 hu)
    · exact hq.counted g hold h4
  · have hold : UserTable vm.mem q g := by
      obtain ⟨p, hp, hlow, hwalk⟩ := hu
      exact ⟨p, hp, hlow, (walks_congr (p := p) hsame (by omega)).1 ▸ hwalk⟩
    rcases hext.fresh g hg with h4 | h4
    · exact hapart.right g h4 hold
    · exact hq.counted g hold.isTable h4

end

end Pml.Arch
