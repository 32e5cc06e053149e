import Mathlib.Data.List.Nodup

/-!
# Walks in a graph of tables

A table maps indices to entries and an entry may lead to a further table.  `walk look child t p` follows the indices
`p` from the table `t`, and `trail look child t p` lists the entries that are read on the way.  Both depend only on
the entries that the walk really reads (`walk_trail_congr`), so a change of one entry is seen only by the walks that
go through it.  `below` lists what a recursive visit of all entries finds; in a tree every table is found once
(`nodup_below`).
-/

namespace Radix

variable {F ι E : Type} {look look' : F → ι → E} {child : E → Option F}

/-- The table reached by following the indices. -/
def walk (look : F → ι → E) (child : E → Option F) : F → List ι → Option F
  | t, [] => some t
  | t, i :: is => (child (look t i)).bind fun t' => walk look child t' is

/-- The entries read while following the indices, up to the first one that leads nowhere. -/
def trail (look : F → ι → E) (child : E → Option F) : F → List ι → List E
  | _, [] => []
  | t, i :: is => look t i :: (child (look t i)).elim [] fun t' => trail look child t' is

@[simp] theorem walk_nil (t : F) : walk look child t [] = some t := rfl

@[simp] theorem trail_nil (t : F) : trail look child t [] = [] := rfl

theorem walk_cons {t : F} {i : ι} {is : List ι} :
    walk look child t (i :: is) = (child (look t i)).bind fun t' => walk look child t' is := rfl

theorem trail_cons {t : F} {i : ι} {is : List ι} :
    trail look child t (i :: is) = look t i :: (child (look t i)).elim [] fun t' => trail look child t' is := rfl

theorem walk_append (t : F) (p q : List ι) :
    walk look child t (p ++ q) = (walk look child t p).bind fun t' => walk look child t' q := by
  induction p generalizing t with
  | nil => rfl
  | cons i is ih =>
    simp only [List.cons_append, walk_cons]
    cases child (look t i) with
    | none => rfl
    | some t' => exact ih t'

theorem walk_append_of {t t' : F} {p : List ι} (h : walk look child t p = some t') (q : List ι) :
    walk look child t (p ++ q) = walk look child t' q := by
  rw [walk_append, h]
  rfl

theorem trail_append {t t' : F} {p : List ι} (h : walk look child t p = some t') (q : List ι) :
    trail look child t (p ++ q) = trail look child t p ++ trail look child t' q := by
  induction p generalizing t with
  | nil =>
    obtain rfl : t = t' := Option.some.inj h
    rfl
  | cons i is ih =>
    simp only [walk_cons] at h
    simp only [List.cons_append, trail_cons]
    cases hc : child (look t i) with
    | none => simp [hc] at h
    | some u =>
      rw [hc] at h
      simp only [Option.elim_some, ih h]

/-- A walk that reaches a table reaches one after each of its prefixes. -/
theorem walk_left {t f : F} {p q : List ι} (h : walk look child t (p ++ q) = some f) :
    ∃ t', walk look child t p = some t' ∧ walk look child t' q = some f := by
  rw [walk_append] at h
  exact Option.bind_eq_some_iff.1 h

theorem walk_singleton {t : F} {i : ι} : walk look child t [i] = child (look t i) := by
  rw [walk_cons]
  cases child (look t i) <;> rfl

theorem trail_singleton {t : F} {i : ι} : trail look child t [i] = [look t i] := by
  rw [trail_cons]
  cases child (look t i) <;> rfl

/-- Every entry on the way to a table leads somewhere. -/
theorem isSome_of_mem_trail {t f : F} {p : List ι} {e : E} (h : walk look child t p = some f)
    (he : e ∈ trail look child t p) : (child e).isSome := by
  induction p generalizing t with
  | nil => simp at he
  | cons i is ih =>
    rw [walk_cons, Option.bind_eq_some_iff] at h
    obtain ⟨u, hu, h⟩ := h
    rw [trail_cons, hu, Option.elim_some, List.mem_cons] at he
    rcases he with rfl | he
    · rw [hu]; rfl
    · exact ih h he

/-- Only the entries on the way matter. -/
theorem walk_trail_congr {t : F} {p : List ι}
    (h : ∀ q i r f, p = q ++ i :: r → walk look child t q = some f → look' f i = look f i) :
    walk look' child t p = walk look child t p ∧ trail look' child t p = trail look child t p := by
  induction p generalizing t with
  | nil => exact ⟨rfl, rfl⟩
  | cons i is ih =>
    have h0 : look' t i = look t i := h [] i is t rfl rfl
    simp only [walk_cons, trail_cons, h0]
    cases hc : child (look t i) with
    | none => exact ⟨rfl, rfl⟩
    | some u =>
      obtain ⟨h1, h2⟩ := ih (t := u) fun q j r f hp hq => by
        refine h (i :: q) j r f (by rw [hp]; rfl) ?_
        rw [walk_cons, hc]
        exact hq
      simp only [Option.bind_some, Option.elim_some, h1, h2]
      exact ⟨trivial, trivial⟩

/-- Only the children of the entries on the way matter. -/
theorem walk_child_congr {t : F} {p : List ι}
    (h : ∀ q i r f, p = q ++ i :: r → walk look child t q = some f → child (look' f i) = child (look f i)) :
    walk look' child t p = walk look child t p := by
  induction p generalizing t with
  | nil => rfl
  | cons i is ih =>
    rw [walk_cons, walk_cons, h [] i is t rfl rfl]
    cases hc : child (look t i) with
    | none => rfl
    | some u =>
      refine ih (t := u) fun q j r f hp hq => h (i :: q) j r f (by rw [hp]; rfl) ?_
      rw [walk_cons, hc]
      exact hq

/-! ### Everything below a table -/

section

variable {w : Nat → Nat} {look look' : F → Nat → E} {childAt : Nat → E → Option F}

/-- Indices of at most `n` levels, where a table of level `k` has `w k` entries. -/
def Within (w : Nat → Nat) : Nat → List Nat → Prop
  | _, [] => True
  | 0, _ :: _ => False
  | n + 1, i :: p => i < w n ∧ Within w n p

theorem within_nil (n : Nat) : Within w n [] := by
  cases n <;> exact trivial

/-- The tables found by a recursive visit of `n` levels, where `childAt k` is the child of an entry of level `k`. -/
def below (w : Nat → Nat) (look : F → Nat → E) (childAt : Nat → E → Option F) : Nat → F → List F
  | 0, _ => []
  | n + 1, t => (List.range (w n)).flatMap fun i =>
    (childAt n (look t i)).elim [] fun u => u :: below w look childAt n u

/-- What a recursive visit finds for one entry. -/
def under (w : Nat → Nat) (look : F → Nat → E) (childAt : Nat → E → Option F) (n : Nat) (e : E) : List F :=
  (childAt n e).elim [] fun u => u :: below w look childAt n u

theorem below_succ (n : Nat) (t : F) : below w look childAt (n + 1) t =
    (List.range (w n)).flatMap fun i => under w look childAt n (look t i) := rfl

/-- The children of the visit are those of the walks of at most `n` levels. -/
def Agree (w : Nat → Nat) (look : F → Nat → E) (childAt : Nat → E → Option F) (child : E → Option F) (n : Nat)
    (t : F) : Prop :=
  ∀ p u i, Within w n (p ++ [i]) → walk look child t p = some u →
    childAt (n - 1 - p.length) (look u i) = child (look u i)

theorem Agree.here {n i : Nat} {t : F} (h : Agree w look childAt child (n + 1) t) (hi : i < w n) :
    childAt n (look t i) = child (look t i) := h [] t i ⟨hi, within_nil n⟩ rfl

theorem Agree.next {n i : Nat} {t u : F} (h : Agree w look childAt child (n + 1) t) (hi : i < w n)
    (hu : child (look t i) = some u) : Agree w look childAt child n u := by
  intro p v j hp hv
  have h1 := h (i :: p) v j ⟨hi, hp⟩ (by rw [walk_cons, hu]; exact hv)
  rwa [List.length_cons, show n + 1 - 1 - (p.length + 1) = n - 1 - p.length by omega] at h1

theorem mem_below {n : Nat} {t f : F} (h : Agree w look childAt child n t) :
    f ∈ below w look childAt n t ↔ ∃ p, p ≠ [] ∧ Within w n p ∧ walk look child t p = some f := by
  induction n generalizing t with
  | zero =>
    refine ⟨fun hf => absurd hf List.not_mem_nil, ?_⟩
    rintro ⟨p, hne, hp, -⟩
    cases p with
    | nil => exact absurd rfl hne
    | cons i p => exact hp.elim
  | succ n ih =>
    simp only [below_succ, under, List.mem_flatMap, List.mem_range]
    constructor
    · rintro ⟨i, hi, hf⟩
      rw [h.here hi] at hf
      cases hu : child (look t i) with
      | none => simp [hu] at hf
      | some u =>
        rw [hu, Option.elim_some, List.mem_cons] at hf
        rcases hf with rfl | hf
        · exact ⟨[i], by simp, ⟨hi, within_nil n⟩, by rw [walk_singleton, hu]⟩
        · obtain ⟨p, -, hp, hw⟩ := (ih (h.next hi hu)).1 hf
          exact ⟨i :: p, by simp, ⟨hi, hp⟩, by rw [walk_cons, hu]; exact hw⟩
    · rintro ⟨p, hne, hp, hw⟩
      cases p with
      | nil => exact absurd rfl hne
      | cons i p =>
        obtain ⟨u, hu, hw⟩ := Option.bind_eq_some_iff.1 hw
        refine ⟨i, hp.1, ?_⟩
        rw [h.here hp.1, hu, Option.elim_some, List.mem_cons]
        cases p with
        | nil => exact Or.inl (Option.some.inj hw).symm
        | cons j p => exact Or.inr ((ih (h.next hp.1 hu)).2 ⟨j :: p, by simp, hp.2, hw⟩)

/-- In a tree the visit finds every table once. -/
theorem nodup_below {n : Nat} {t : F} (h : Agree w look childAt child n t)
    (hu : ∀ p q f, p ≠ [] → q ≠ [] → Within w n p → Within w n q → walk look child t p = some f →
      walk look child t q = some f → p = q) : (below w look childAt n t).Nodup := by
  induction n generalizing t with
  | zero => exact List.nodup_nil
  | succ n ih =>
    -- the way to what the visit finds for the entry `i` starts with `i`
    have hway : ∀ i < w n, ∀ f ∈ under w look childAt n (look t i),
        ∃ p, Within w (n + 1) (i :: p) ∧ walk look child t (i :: p) = some f := by
      intro i hi f hf
      rw [under, h.here hi] at hf
      cases hc : child (look t i) with
      | none => simp [hc] at hf
      | some u =>
        rw [hc, Option.elim_some, List.mem_cons] at hf
        rcases hf with rfl | hf
        · exact ⟨[], ⟨hi, within_nil n⟩, by rw [walk_singleton, hc]⟩
        · obtain ⟨p, -, hp, hw⟩ := (mem_below (h.next hi hc)).1 hf
          exact ⟨p, ⟨hi, hp⟩, by rw [walk_cons, hc]; exact hw⟩
    rw [below_succ, List.nodup_flatMap]
    refine ⟨fun i hi => ?_, ?_⟩
    · have hi := List.mem_range.1 hi
      rw [under, h.here hi]
      cases hc : child (look t i) with
      | none => exact List.nodup_nil
      | some u =>
        rw [Option.elim_some, List.nodup_cons]
        have hcons : ∀ p f, walk look child u p = some f → walk look child t (i :: p) = some f := by
          intro p f hw
          rw [walk_cons, hc]
          exact hw
        constructor
        · intro hmem
          obtain ⟨p, hne, hp, hw⟩ := (mem_below (h.next hi hc)).1 hmem
          have h1 := hu (i :: p) [i] u (by simp) (by simp) ⟨hi, hp⟩ ⟨hi, within_nil n⟩ (hcons p u hw)
            (by rw [walk_singleton, hc])
          exact hne (List.cons.inj h1).2
        · refine ih (h.next hi hc) fun p q f _ _ hp hq hwp hwq => ?_
          have h1 := hu (i :: p) (i :: q) f (by simp) (by simp) ⟨hi, hp⟩ ⟨hi, hq⟩ (hcons p f hwp) (hcons q f hwq)
          exact (List.cons.inj h1).2
    · refine List.nodup_range.imp_of_mem fun {i j} hi hj hne f hfi hfj => ?_
      obtain ⟨p, hp, hwp⟩ := hway i (List.mem_range.1 hi) f hfi
      obtain ⟨q, hq, hwq⟩ := hway j (List.mem_range.1 hj) f hfj
      exact hne (List.cons.inj (hu (i :: p) (j :: q) f (by simp) (by simp) hp hq hwp hwq)).1

/-- Only the tables on the walks matter to the visit. -/
theorem below_congr {n : Nat} {t : F} (hsub : ∀ k e u, childAt k e = some u → child e = some u)
    (h : ∀ p i u, Within w n (p ++ [i]) → walk look child t p = some u → look' u i = look u i) :
    below w look' childAt n t = below w look childAt n t := by
  induction n generalizing t with
  | zero => rfl
  | succ n ih =>
    rw [below_succ, below_succ]
    refine List.flatMap_congr fun i hi => ?_
    have hi := List.mem_range.1 hi
    rw [under, under, h [] i t ⟨hi, within_nil n⟩ rfl]
    cases hc : childAt n (look t i) with
    | none => rfl
    | some u =>
      rw [Option.elim_some, Option.elim_some, ih fun p j v hp hw => ?_]
      refine h (i :: p) j v ⟨hi, hp⟩ ?_
      rw [walk_cons, hsub n _ u hc]
      exact hw

end

/-! ### A new entry -/

section

variable {w : Nat → Nat} {look look' : F → Nat → E}

theorem within_append {n : Nat} {p q : List Nat} (h : Within w n (p ++ q)) : Within w n p := by
  induction p generalizing n with
  | nil => exact within_nil n
  | cons i p ih =>
    cases n with
    | zero => exact h.elim
    | succ n => exact ⟨h.1, ih h.2⟩

/-- No table is reached in two ways. -/
def OneWay (w : Nat → Nat) (look : F → Nat → E) (child : E → Option F) (n : Nat) (t : F) : Prop :=
  ∀ p q f, Within w n p → Within w n q → walk look child t p = some f → walk look child t q = some f → p = q

/-- The entry `i` of the table `u` at the indices `q` gets the child `v`, which has no children itself. -/
structure Inserted (w : Nat → Nat) (look look' : F → Nat → E) (child : E → Option F) (n : Nat) (t : F) (q : List Nat)
    (u : F) (i : Nat) (v : F) : Prop where
  reach : walk look child t q = some u
  within : Within w n (q ++ [i])
  same : ∀ p g j, Within w n (p ++ [j]) → walk look child t p = some g → ¬(g = u ∧ j = i) → look' g j = look g j
  old : child (look u i) = none
  new : child (look' u i) = some v
  fresh : ∀ p, Within w n p → walk look child t p ≠ some v
  empty : ∀ j, Within w n (q ++ [i] ++ [j]) → child (look' v j) = none

section

variable {n i : Nat} {t u v : F} {q : List Nat} (h : Inserted w look look' child n t q u i v)
  (ht : OneWay w look child n t)
include h ht

private theorem Inserted.walk_other {p : List Nat} (hp : Within w n p) (hno : ¬q ++ [i] <+: p) :
    walk look' child t p = walk look child t p := by
  refine (walk_trail_congr fun a j r g hsplit hg => ?_).1
  have ha : Within w n (a ++ [j]) := by
    refine within_append (q := r) ?_
    rwa [List.append_assoc, List.singleton_append, ← hsplit]
  refine h.same a g j ha hg fun ⟨hgu, hji⟩ => hno ?_
  obtain rfl := ht a q u (within_append ha) (within_append h.within) (hgu ▸ hg) h.reach
  exact ⟨r, by rw [hsplit, hji, List.append_assoc, List.singleton_append]⟩

/-- The walks are the same, and the new child is reached through its entry. -/
theorem Inserted.walk_eq {p : List Nat} (hp : Within w n p) : walk look' child t p =
    if p = q ++ [i] then some v else walk look child t p := by
  by_cases hpre : q ++ [i] <+: p
  · obtain ⟨s, rfl⟩ := hpre
    have hq : walk look' child t q = some u := by
      rw [h.walk_other ht (within_append h.within), h.reach]
      intro hpre
      have hlen := hpre.length_le
      rw [List.length_append, List.length_singleton] at hlen
      omega
    have hnew : walk look' child t (q ++ [i]) = some v := by rw [walk_append_of hq, walk_singleton, h.new]
    have hold : walk look child t (q ++ [i]) = none := by rw [walk_append_of h.reach, walk_singleton, h.old]
    cases s with
    | nil =>
      rw [List.append_nil, if_pos rfl]
      exact hnew
    | cons j s =>
      have hj : Within w n (q ++ [i] ++ [j]) := by
        refine within_append (q := s) ?_
        rwa [List.append_assoc _ [j], List.singleton_append]
      rw [walk_append_of hnew, walk_cons, h.empty j hj, Option.bind_none, if_neg (by simp), walk_append, hold]
      rfl
  · rw [h.walk_other ht hp hpre, if_neg]
    rintro rfl
    exact hpre List.prefix_rfl

theorem Inserted.oneWay : OneWay w look' child n t := by
  intro a b f ha hb hfa hfb
  rw [h.walk_eq ht ha] at hfa
  rw [h.walk_eq ht hb] at hfb
  split at hfa
  · rename_i hae
    split at hfb
    · rename_i hbe
      rw [hae, hbe]
    · obtain rfl := Option.some.inj hfa
      exact absurd hfb (h.fresh b hb)
  · split at hfb
    · obtain rfl := Option.some.inj hfb
      exact absurd hfa (h.fresh a ha)
    · exact ht a b f ha hb hfa hfb

end

/-- A visit finds the new child, and else what it found before. -/
theorem Inserted.below {childAt : Nat → E → Option F} {n i : Nat} {t u v : F} {q : List Nat}
    (h : Inserted w look look' child n t q u i v) (ht : OneWay w look child n t)
    (ha : Agree w look childAt child n t) (ha' : Agree w look' childAt child n t) :
    (below w look' childAt n t).Perm (v :: below w look childAt n t) := by
  have hnodup : ∀ {l : F → Nat → E}, Agree w l childAt child n t → OneWay w l child n t →
      (Radix.below w l childAt n t).Nodup := fun ha ht =>
    nodup_below ha fun p q f _ _ hp hq => ht p q f hp hq
  have hnew : v ∉ Radix.below w look childAt n t := fun hv => by
    obtain ⟨p, -, hp, hw⟩ := (mem_below ha).1 hv
    exact h.fresh p hp hw
  rw [List.perm_ext_iff_of_nodup (hnodup ha' (h.oneWay ht)) (List.nodup_cons.2 ⟨hnew, hnodup ha ht⟩)]
  intro f
  rw [List.mem_cons, mem_below ha', mem_below ha]
  constructor
  · rintro ⟨p, hne, hp, hw⟩
    rw [h.walk_eq ht hp] at hw
    split at hw
    · exact Or.inl (Option.some.inj hw).symm
    · exact Or.inr ⟨p, hne, hp, hw⟩
  · rintro (rfl | ⟨p, hne, hp, hw⟩)
    · exact ⟨q ++ [i], by simp, h.within, by rw [h.walk_eq ht h.within, if_pos rfl]⟩
    · refine ⟨p, hne, hp, ?_⟩
      rw [h.walk_eq ht hp, if_neg, hw]
      rintro rfl
      rw [walk_append_of h.reach, walk_singleton, h.old] at hw
      cases hw

end

end Radix
