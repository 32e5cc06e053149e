import Mathlib.Data.List.Basic

/-!
# Machines that take inputs one after the other

A machine has a partial step function.  A property that every step keeps, as long as the input meets a condition in
the state before the step, holds after every run whose inputs all meet the condition (`Meets.invariant`).
-/

namespace Machine

variable {σ ι : Type*} (step : σ → ι → Option σ)

/-- The state after a list of inputs. -/
def run : List ι → σ → Option σ
  | [], s => some s
  | i :: is, s => (step s i).bind (run is)

/-- Every input meets the condition in the state in which the machine takes it. -/
def Meets (C : σ → ι → Prop) : List ι → σ → Prop
  | [], _ => True
  | i :: is, s => C s i ∧ ∀ s', step s i = some s' → Meets C is s'

/-- Every input has a step, and each step has the property. -/
def Always (Q : σ → ι → σ → Prop) : List ι → σ → Prop
  | [], _ => True
  | i :: is, s => ∃ s', step s i = some s' ∧ Q s i s' ∧ Always Q is s'

variable {step} {C : σ → ι → Prop} {P : σ → Prop}

private theorem meets_cons_of_none {i : ι} {is : List ι} {s : σ} (h : step s i = none) :
    Meets step C (i :: is) s ↔ C s i :=
  and_iff_left fun s' hs' => by
    rw [h] at hs'
    cases hs'

private theorem meets_cons_of_some {i : ι} {is : List ι} {s t : σ} (h : step s i = some t) :
    Meets step C (i :: is) s ↔ C s i ∧ Meets step C is t := by
  refine and_congr_right fun _ => ⟨fun hrest => hrest t h, fun hrest s' hs' => ?_⟩
  obtain rfl := Option.some.inj (h.symm.trans hs')
  exact hrest

instance Meets.decidable [∀ s i, Decidable (C s i)] : ∀ is s, Decidable (Meets step C is s)
  | [], _ => isTrue trivial
  | i :: is, s =>
    match h : step s i with
    | none => decidable_of_iff _ (meets_cons_of_none h).symm
    | some t =>
      have := Meets.decidable is t
      decidable_of_iff _ (meets_cons_of_some h).symm

theorem Meets.invariant (hstep : ∀ s i s', P s → C s i → step s i = some s' → P s') {is : List ι} {s s' : σ}
    (hP : P s) (hC : Meets step C is s) (hrun : run step is s = some s') : P s' := by
  induction is generalizing s with
  | nil =>
    cases hrun
    exact hP
  | cons i is ih =>
    obtain ⟨t, ht, hrest⟩ := Option.bind_eq_some_iff.1 hrun
    exact ih (hstep s i t hP hC.1 ht) (hC.2 t ht) hrest

/-- Two conditions that say the same of every state with an invariant, which the inputs that meet them keep, are met
by the same runs. -/
theorem meets_congr {D : σ → ι → Prop} (hiff : ∀ s i, P s → (C s i ↔ D s i))
    (hstep : ∀ s i s', P s → C s i → step s i = some s' → P s') {is : List ι} {s : σ} (hP : P s) :
    Meets step C is s ↔ Meets step D is s := by
  induction is generalizing s with
  | nil => exact Iff.rfl
  | cons i is ih =>
    constructor
    · rintro ⟨hC, hrest⟩
      exact ⟨(hiff s i hP).1 hC, fun s' hs' => (ih (hstep s i s' hP hC hs')).1 (hrest s' hs')⟩
    · rintro ⟨hD, hrest⟩
      have hC := (hiff s i hP).2 hD
      exact ⟨hC, fun s' hs' => (ih (hstep s i s' hP hC hs')).2 (hrest s' hs')⟩

/-- If every input that meets the condition has a step, and the step keeps the property, then every part of a run with
such inputs exists and leads to a state with the property. -/
theorem Meets.reaches (hstep : ∀ s i, P s → C s i → ∃ s', step s i = some s' ∧ P s') {is : List ι} {s : σ} (hP : P s)
    (hC : Meets step C is s) : ∀ p, p <+: is → ∃ s', run step p s = some s' ∧ P s' := by
  induction is generalizing s with
  | nil =>
    intro p hp
    rw [List.prefix_nil.1 hp]
    exact ⟨s, rfl, hP⟩
  | cons i is ih =>
    intro p hp
    cases p with
    | nil => exact ⟨s, rfl, hP⟩
    | cons j p =>
      obtain ⟨rfl, hp'⟩ := List.cons_prefix_cons.1 hp
      obtain ⟨t, ht, hPt⟩ := hstep s j hP hC.1
      rw [run, ht]
      exact ih hPt (hC.2 t ht) p hp'

/-- If a step exists and keeps the property exactly when its input meets the condition, then the inputs meet it
exactly when every part of the run exists and leads to a state with the property. -/
theorem meets_iff (hstep : ∀ s i, P s → (C s i ↔ ∃ s', step s i = some s' ∧ P s')) {is : List ι} {s : σ} (hP : P s) :
    Meets step C is s ↔ ∀ p, p <+: is → ∃ s', run step p s = some s' ∧ P s' := by
  refine ⟨fun hC => hC.reaches (fun s i hPs hCs => (hstep s i hPs).1 hCs) hP, ?_⟩
  induction is generalizing s with
  | nil => exact fun _ => trivial
  | cons i is ih =>
    intro h
    obtain ⟨t, ht, hPt⟩ := h [i] (List.cons_prefix_cons.2 ⟨rfl, List.nil_prefix⟩)
    have hi : step s i = some t := by simpa [run] using ht
    refine ⟨(hstep s i hP).2 ⟨t, hi, hPt⟩, fun t' ht' => ?_⟩
    obtain rfl := Option.some.inj (hi.symm.trans ht')
    refine ih hPt fun p hp => ?_
    have hrun := h (i :: p) (List.cons_prefix_cons.2 ⟨rfl, hp⟩)
    rwa [run, hi] at hrun

/-- If the condition is exactly what a step with the property needs, in the states with an invariant that such a step
keeps, then the inputs of a run that meet another condition meet it exactly when every step of the run exists and has
the property. -/
theorem meets_iff_always_of {E : σ → ι → Prop} {Q : σ → ι → σ → Prop}
    (hok : ∀ s i, P s → E s i → C s i → ∃ s', step s i = some s' ∧ Q s i s' ∧ P s')
    (hnec : ∀ s i s', P s → E s i → step s i = some s' → Q s i s' → C s i) {is : List ι} {s : σ} (hP : P s)
    (hE : Meets step E is s) : Meets step C is s ↔ Always step Q is s := by
  induction is generalizing s with
  | nil => exact Iff.rfl
  | cons i is ih =>
    constructor
    · rintro ⟨hC, hrest⟩
      obtain ⟨s', hs, hQ, hP'⟩ := hok s i hP hE.1 hC
      exact ⟨s', hs, hQ, (ih hP' (hE.2 s' hs)).1 (hrest s' hs)⟩
    · rintro ⟨s', hs, hQ, hrest⟩
      have hC := hnec s i s' hP hE.1 hs hQ
      obtain ⟨t, ht, -, hP'⟩ := hok s i hP hE.1 hC
      obtain rfl := Option.some.inj (hs.symm.trans ht)
      refine ⟨hC, fun t' ht' => ?_⟩
      obtain rfl := Option.some.inj (hs.symm.trans ht')
      exact (ih hP' (hE.2 s' hs)).2 hrest

theorem meets_of_forall {is : List ι} (h : ∀ i ∈ is, ∀ s, C s i) (s : σ) : Meets step C is s := by
  induction is generalizing s with
  | nil => exact True.intro
  | cons i is ih =>
    exact ⟨h i (List.mem_cons_self ..) s, fun s' _ => ih (fun j hj => h j (List.mem_cons_of_mem _ hj)) s'⟩

theorem Meets.trivial {is : List ι} {s : σ} : Meets step (fun _ _ => True) is s := by
  induction is generalizing s with
  | nil => exact True.intro
  | cons i is ih => exact ⟨True.intro, fun _ _ => ih⟩

theorem meets_iff_always {Q : σ → ι → σ → Prop}
    (hok : ∀ s i, P s → C s i → ∃ s', step s i = some s' ∧ Q s i s' ∧ P s')
    (hnec : ∀ s i s', P s → step s i = some s' → Q s i s' → C s i) {is : List ι} {s : σ} (hP : P s) :
    Meets step C is s ↔ Always step Q is s :=
  meets_iff_always_of (fun s i hPs _ => hok s i hPs) (fun s i s' hPs _ => hnec s i s' hPs) hP Meets.trivial

/-- The last step of a run. -/
theorem Always.last {Q : σ → ι → σ → Prop} (is : List ι) {i : ι} {s : σ} (h : Always step Q (is ++ [i]) s) :
    ∃ t t', run step is s = some t ∧ step t i = some t' ∧ Q t i t' := by
  induction is generalizing s with
  | nil =>
    obtain ⟨s', hs, hQ, -⟩ := h
    exact ⟨s, s', rfl, hs, hQ⟩
  | cons j is ih =>
    obtain ⟨s', hs, -, hrest⟩ := h
    obtain ⟨t, t', h1, h2, h3⟩ := ih hrest
    exact ⟨t, t', by rw [run, hs]; exact h1, h2, h3⟩

theorem run_append {p q : List ι} {s s' : σ} (h : run step (p ++ q) s = some s') :
    ∃ t, run step p s = some t ∧ run step q t = some s' := by
  induction p generalizing s with
  | nil => exact ⟨s, rfl, h⟩
  | cons i p ih =>
    obtain ⟨u, hu, hrest⟩ := Option.bind_eq_some_iff.1 h
    obtain ⟨t, h1, h2⟩ := ih hrest
    exact ⟨t, by rw [run, hu]; exact h1, h2⟩

/-- A property that every step keeps holds after every run. -/
theorem run_invariant (hstep : ∀ s i s', P s → step s i = some s' → P s') {is : List ι} {s s' : σ} (hP : P s)
    (hrun : run step is s = some s') : P s' := by
  induction is generalizing s with
  | nil =>
    cases hrun
    exact hP
  | cons i is ih =>
    obtain ⟨t, ht, hrest⟩ := Option.bind_eq_some_iff.1 hrun
    exact ih (hstep s i t hP ht) hrest

end Machine
