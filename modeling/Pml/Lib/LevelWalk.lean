import Mathlib.Data.List.Basic

/-!
# Walks in tables of different levels

Whether an entry leads to a further table may depend on the level of the table that holds it.  `walk` follows a list
of indices, and `final` is the entry at which the way ends, with its level.  In a `Tree`, where different ways lead to
different tables, a change of one entry is seen only on the ways that go through it (`Tree.change`), and the tables
stay a tree when the entry is cut off (`Tree.cut`) or gets a fresh table (`Tree.grow`).
-/

namespace LevelWalk

variable {F ι E : Type} {look look' : F → ι → E} {child : Nat → E → Option F}

/-- The table reached by following the indices from a table of level `n`. -/
def walk (look : F → ι → E) (child : Nat → E → Option F) : Nat → F → List ι → Option F
  | _, t, [] => some t
  | n, t, i :: is => (child n (look t i)).bind fun u => walk look child (n + 1) u is

/-- The first entry on the way that leads nowhere, with the level of its table. -/
def final (look : F → ι → E) (child : Nat → E → Option F) : Nat → F → List ι → Option (Nat × E)
  | _, _, [] => none
  | n, t, i :: is => (child n (look t i)).elim (some (n, look t i)) fun u => final look child (n + 1) u is

@[simp] theorem walk_nil (n : Nat) (t : F) : walk look child n t [] = some t := rfl

theorem walk_cons (n : Nat) (t : F) (i : ι) (p : List ι) :
    walk look child n t (i :: p) = (child n (look t i)).bind fun u => walk look child (n + 1) u p := rfl

private theorem final_cons (n : Nat) (t : F) (i : ι) (p : List ι) : final look child n t (i :: p) =
    (child n (look t i)).elim (some (n, look t i)) fun u => final look child (n + 1) u p := rfl

theorem walk_append {n : Nat} {t u : F} {p : List ι} (h : walk look child n t p = some u) (q : List ι) :
    walk look child n t (p ++ q) = walk look child (n + p.length) u q := by
  induction p generalizing n t with
  | nil =>
    obtain rfl : t = u := Option.some.inj h
    rfl
  | cons i p ih =>
    obtain ⟨s, hs, hrest⟩ := Option.bind_eq_some_iff.1 h
    have h1 := ih hrest
    rw [List.cons_append, walk_cons, hs, Option.bind_some, h1, List.length_cons]
    congr 1
    omega

theorem walk_snoc {n : Nat} {t u : F} {p : List ι} (h : walk look child n t p = some u) (i : ι) :
    walk look child n t (p ++ [i]) = child (n + p.length) (look u i) := by
  rw [walk_append h, walk_cons]
  cases child (n + p.length) (look u i) <;> rfl

/-- A walk goes through tables after each of its parts. -/
theorem walk_left {n : Nat} {t f : F} {p q : List ι} (h : walk look child n t (p ++ q) = some f) :
    ∃ u, walk look child n t p = some u ∧ walk look child (n + p.length) u q = some f := by
  induction p generalizing n t with
  | nil => exact ⟨t, rfl, h⟩
  | cons i p ih =>
    obtain ⟨s, hs, hrest⟩ := Option.bind_eq_some_iff.1 h
    obtain ⟨u, h1, h2⟩ := ih hrest
    refine ⟨u, by rw [walk_cons, hs]; exact h1, ?_⟩
    rwa [List.length_cons, show n + (p.length + 1) = n + 1 + p.length by omega]

theorem final_append {n : Nat} {t u : F} {p : List ι} (h : walk look child n t p = some u) (q : List ι) :
    final look child n t (p ++ q) = final look child (n + p.length) u q := by
  induction p generalizing n t with
  | nil =>
    obtain rfl : t = u := Option.some.inj h
    rfl
  | cons i p ih =>
    obtain ⟨s, hs, hrest⟩ := Option.bind_eq_some_iff.1 h
    have h1 := ih hrest
    rw [List.cons_append, final_cons, hs, Option.elim_some, h1, List.length_cons]
    congr 1
    omega

/-- An entry that leads nowhere ends every way through it. -/
theorem final_of_none {n : Nat} {t u : F} {p : List ι} {i : ι} (h : walk look child n t p = some u)
    (hc : child (n + p.length) (look u i) = none) (q : List ι) :
    final look child n t (p ++ i :: q) = some (n + p.length, look u i) := by
  rw [final_append h, final_cons, hc, Option.elim_none]

/-- Where a way ends. -/
theorem final_eq_some {n k : Nat} {t : F} {p : List ι} {e : E} (h : final look child n t p = some (k, e)) :
    ∃ q i s u, p = q ++ i :: s ∧ walk look child n t q = some u ∧ look u i = e ∧ k = n + q.length ∧
      child k e = none := by
  induction p generalizing n t with
  | nil => cases h
  | cons i p ih =>
    rw [final_cons] at h
    cases hc : child n (look t i) with
    | none =>
      rw [hc, Option.elim_none] at h
      obtain ⟨rfl, rfl⟩ := Prod.mk.inj (Option.some.inj h)
      exact ⟨[], i, p, t, rfl, rfl, rfl, rfl, hc⟩
    | some u =>
      rw [hc, Option.elim_some] at h
      obtain ⟨q, j, s, v, rfl, h1, h2, h3, h4⟩ := ih h
      refine ⟨i :: q, j, s, v, rfl, by rw [walk_cons, hc]; exact h1, h2, ?_, h4⟩
      rw [h3, List.length_cons]
      omega

/-- Only the entries on the way matter. -/
theorem walk_congr {n : Nat} {t : F} {p : List ι}
    (h : ∀ q i s f, p = q ++ i :: s → walk look child n t q = some f → look' f i = look f i) :
    walk look' child n t p = walk look child n t p ∧ final look' child n t p = final look child n t p := by
  induction p generalizing n t with
  | nil => exact ⟨rfl, rfl⟩
  | cons i p ih =>
    have h0 : look' t i = look t i := h [] i p t rfl rfl
    simp only [walk_cons, final_cons, h0]
    cases hc : child n (look t i) with
    | none => exact ⟨rfl, rfl⟩
    | some u =>
      exact ih (n := n + 1) fun q j s f hp hq => by
        refine h (i :: q) j s f (by rw [hp]; rfl) ?_
        rw [walk_cons, hc]
        exact hq

/-! ### Trees -/

/-- Different ways of at most `d` indices from `t` lead to different tables. -/
def Tree (look : F → ι → E) (child : Nat → E → Option F) (d : Nat) (t : F) : Prop :=
  ∀ p q f, p.length ≤ d → q.length ≤ d → walk look child 0 t p = some f → walk look child 0 t q = some f → p = q

/-- The entries of all tables are the same, apart from the entry `i` of the table `u`. -/
def ChangesAt (look look' : F → ι → E) (child : Nat → E → Option F) (d : Nat) (t u : F) (i : ι) : Prop :=
  ∀ p f j, p.length ≤ d → walk look child 0 t p = some f → ¬(f = u ∧ j = i) → look' f j = look f j

section

variable {d : Nat} {t u : F} {i : ι} {q : List ι} (ht : Tree look child d t)
  (hq : walk look child 0 t q = some u) (hd : q.length ≤ d) (hsame : ChangesAt look look' child d t u i)
include ht hq hd hsame

/-- A way that does not go through the changed entry. -/
theorem Tree.change {p : List ι} (hp : p.length ≤ d + 1) (hno : ¬q ++ [i] <+: p) :
    walk look' child 0 t p = walk look child 0 t p ∧ final look' child 0 t p = final look child 0 t p := by
  refine walk_congr fun q' j s f hsplit hf => ?_
  have hlen := congrArg List.length hsplit
  simp only [List.length_append, List.length_cons] at hlen
  refine hsame q' f j (by omega) hf ?_
  rintro ⟨rfl, rfl⟩
  obtain rfl := ht q' q f (by omega) hd hf hq
  exact hno ⟨s, by rw [hsplit]; simp⟩

/-- The table with the changed entry is still there. -/
theorem Tree.walk_self : walk look' child 0 t q = some u := by
  rw [← hq]
  refine (ht.change hq hd hsame (by omega) fun h => ?_).1
  have hlen := h.length_le
  rw [List.length_append, List.length_singleton] at hlen
  omega

private theorem Tree.walk_through (s : List ι) :
    walk look' child 0 t (q ++ i :: s) = (child q.length (look' u i)).bind fun f =>
      walk look' child (q.length + 1) f s := by
  have h := ht.walk_self hq hd hsame
  rw [walk_append h, walk_cons, Nat.zero_add]

/-- If the entry led nowhere before then all tables are still there. -/
theorem Tree.keep (hold : child q.length (look u i) = none) {p : List ι} {f : F} (hp : p.length ≤ d)
    (hf : walk look child 0 t p = some f) : walk look' child 0 t p = some f := by
  rw [(ht.change hq hd hsame (by omega) ?_).1]
  · exact hf
  · rintro ⟨s, rfl⟩
    have hrefl : ChangesAt look look child d t u i := fun _ _ _ _ _ _ => rfl
    rw [List.append_assoc, List.singleton_append, ht.walk_through hq hd hrefl, hold] at hf
    cases hf

/-- An entry that leads nowhere leaves a tree with fewer tables. -/
theorem Tree.cut (hcut : child q.length (look' u i) = none) :
    Tree look' child d t ∧ ∀ p f, p.length ≤ d → walk look' child 0 t p = some f →
    walk look child 0 t p = some f := by
  have hold : ∀ p f, p.length ≤ d → walk look' child 0 t p = some f → walk look child 0 t p = some f := by
    intro p f hp hf
    rw [← (ht.change hq hd hsame (by omega) ?_).1]
    · exact hf
    · rintro ⟨s, rfl⟩
      rw [List.append_assoc, List.singleton_append, ht.walk_through hq hd hsame, hcut] at hf
      cases hf
  exact ⟨fun p p' f h1 h2 h3 h4 => ht p p' f h1 h2 (hold p f h1 h3) (hold p' f h2 h4), hold⟩

/-- An entry that leads to a fresh table without further tables leaves a tree with one table more. -/
theorem Tree.grow {n : F} (hchild : child q.length (look' u i) = some n)
    (hfresh : ∀ p, p.length ≤ d → walk look child 0 t p ≠ some n)
    (hempty : ∀ j, child (q.length + 1) (look' n j) = none) :
    Tree look' child d t ∧ ∀ p f, p.length ≤ d → walk look' child 0 t p = some f →
      walk look child 0 t p = some f ∨ (p = q ++ [i] ∧ f = n) := by
  have hold : ∀ p f, p.length ≤ d → walk look' child 0 t p = some f →
      walk look child 0 t p = some f ∨ (p = q ++ [i] ∧ f = n) := by
    intro p f hp hf
    by_cases hpre : q ++ [i] <+: p
    · obtain ⟨s, rfl⟩ := hpre
      rw [List.append_assoc, List.singleton_append, ht.walk_through hq hd hsame, hchild, Option.bind_some] at hf
      cases s with
      | nil => exact Or.inr ⟨by simp, (Option.some.inj hf).symm⟩
      | cons j s =>
        rw [walk_cons, hempty j] at hf
        cases hf
    · exact Or.inl ((ht.change hq hd hsame (by omega) hpre).1.symm.trans hf)
  refine ⟨fun p p' f h1 h2 h3 h4 => ?_, hold⟩
  rcases hold p f h1 h3 with h5 | ⟨rfl, rfl⟩
  · rcases hold p' f h2 h4 with h6 | ⟨-, rfl⟩
    · exact ht p p' f h1 h2 h5 h6
    · exact absurd h5 (hfresh p h1)
  · rcases hold p' f h2 h4 with h6 | ⟨rfl, -⟩
    · exact absurd h6 (hfresh p' h2)
    · rfl

end

end LevelWalk
