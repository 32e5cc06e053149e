import Mathlib.Logic.Function.Basic

/-!
# A variable that is set for the time of an action

The state of an action is a variable and the rest.  `within c m` is the action `m` with the variable at `c`, as an
action on the rest.  An action that leaves the variable as it found it is given by these (`Restores.eq_within`), and
one that a family of actions on the rest describes leaves the variable alone (`Follows.restores`).
-/

/-- A variable, and the rest of the state. -/
structure Scoped (C E : Type) where
  cur : C
  rest : E

namespace Scoped

variable {C E α β : Type}

/-- An action on the rest. -/
def lift (m : StateM E α) : StateM (Scoped C E) α := fun s => ((m s.rest).1, ⟨s.cur, (m s.rest).2⟩)

/-- The value of the variable. -/
def read : StateM (Scoped C E) C := fun s => (s.cur, s)

/-- The assignment of a value to the variable. -/
def assign (c : C) : StateM (Scoped C E) Unit := fun s => ((), ⟨c, s.rest⟩)

/-- The action with the variable at `c`. -/
def within (c : C) (m : StateM (Scoped C E) α) : StateM E α := fun e => ((m ⟨c, e⟩).1, (m ⟨c, e⟩).2.rest)

/-- The action leaves the variable as it found it. -/
def Restores (m : StateM (Scoped C E) α) : Prop := ∀ s, (m s).2.cur = s.cur

/-- From the value `c` of the variable, the action does what `f` does and ends with the value `d`. -/
def Moves (c d : C) (m : StateM (Scoped C E) α) (f : StateM E α) : Prop :=
  ∀ e, m ⟨c, e⟩ = ((f e).1, ⟨d, (f e).2⟩)

/-- With the variable at `c`, the action does what `f c` does, and leaves the variable at `c`. -/
def Follows (m : StateM (Scoped C E) α) (f : C → StateM E α) : Prop := ∀ c, Moves c c m (f c)

/-- The action does to the rest what `f` does, whatever the variable is. -/
def Carries (m : StateM (Scoped C E) α) (f : StateM E α) : Prop :=
  ∀ s, (m s).1 = (f s.rest).1 ∧ (m s).2.rest = (f s.rest).2

/-- A change of the variable. -/
def note (g : C → C) : StateM (Scoped C E) Unit := fun s => ((), ⟨g s.cur, s.rest⟩)

@[simp] theorem bind_apply {σ : Type} (m : StateM σ α) (k : α → StateM σ β) (s : σ) :
    (m >>= k) s = k (m s).1 (m s).2 := rfl

@[simp] theorem pure_apply {σ : Type} (a : α) (s : σ) : (pure a : StateM σ α) s = (a, s) := rfl

@[simp] theorem lift_apply (m : StateM E α) (s : Scoped C E) : lift m s = ((m s.rest).1, ⟨s.cur, (m s.rest).2⟩) := rfl

@[simp] theorem read_apply (s : Scoped C E) : read s = (s.cur, s) := rfl

@[simp] theorem assign_apply (c : C) (s : Scoped C E) : assign c s = ((), ⟨c, s.rest⟩) := rfl

/-! ### Actions that leave the variable as they found it -/

section Restores

variable {m : StateM (Scoped C E) α} {k : α → StateM (Scoped C E) β}

theorem Restores.pure (a : α) : Restores (pure a : StateM (Scoped C E) α) := fun _ => rfl

theorem Restores.lift (m : StateM E α) : Restores (lift m : StateM (Scoped C E) α) := fun _ => rfl

theorem Restores.bind (hm : Restores m) (hk : ∀ a, Restores (k a)) : Restores (m >>= k) := by
  intro s
  rw [bind_apply, hk, hm]

/-- An action on the rest comes first. -/
theorem Restores.lift_bind (m : StateM E α) (hk : ∀ a, Restores (k a)) : Restores (Scoped.lift m >>= k) :=
  Restores.bind (Restores.lift m) hk

theorem Restores.ite {p : Prop} [Decidable p] {n : StateM (Scoped C E) α} (hm : Restores m) (hn : Restores n) :
    Restores (if p then m else n) := by
  by_cases hp : p
  · rw [if_pos hp]
    exact hm
  · rw [if_neg hp]
    exact hn

/-- An action that leaves the variable as it found it is its own action at the value of the variable. -/
theorem Restores.eq_within (hm : Restores m) (s : Scoped C E) :
    m s = ((within s.cur m s.rest).1, ⟨s.cur, (within s.cur m s.rest).2⟩) := by
  have h := hm s
  change m s = ((m s).1, ⟨s.cur, (m s).2.rest⟩)
  rw [← h]
  rfl

end Restores

/-! ### Actions that follow a family of actions on the rest -/

section Moves

variable {b c d : C} {m : StateM (Scoped C E) α} {f : StateM E α}

theorem Moves.pure (c : C) (a : α) : Moves c c (pure a : StateM (Scoped C E) α) (Pure.pure a) := fun _ => rfl

theorem Moves.lift (c : C) (f : StateM E α) : Moves c c (lift f) f := fun _ => rfl

theorem Moves.bind {k : α → StateM (Scoped C E) β} {g : α → StateM E β} (hm : Moves c b m f)
    (hk : ∀ a, Moves b d (k a) (g a)) : Moves c d (m >>= k) (f >>= g) := by
  intro e
  rw [bind_apply, hm e]
  exact hk _ _

theorem Moves.read {k : C → StateM (Scoped C E) α} (hk : Moves c d (k c) f) : Moves c d (Scoped.read >>= k) f := hk

theorem Moves.assign {k : Unit → StateM (Scoped C E) α} (hk : Moves b d (k ()) f) :
    Moves c d (Scoped.assign b >>= k) f := hk

theorem Moves.ite {p : Prop} [Decidable p] {n : StateM (Scoped C E) α} {g : StateM E α} (hm : Moves c d m f)
    (hn : Moves c d n g) : Moves c d (if p then m else n) (if p then f else g) := by
  by_cases hp : p
  · rw [if_pos hp, if_pos hp]
    exact hm
  · rw [if_neg hp, if_neg hp]
    exact hn

theorem Follows.restores {f : C → StateM E α} (h : Follows m f) : Restores m := by
  intro s
  rw [h s.cur s.rest]

end Moves

/-! ### Actions whose variable has no effect on the rest -/

section Carries

variable {m : StateM (Scoped C E) α} {f : StateM E α}

theorem Carries.pure (a : α) : Carries (pure a : StateM (Scoped C E) α) (Pure.pure a) := fun _ => ⟨rfl, rfl⟩

theorem Carries.lift (f : StateM E α) : Carries (lift f : StateM (Scoped C E) α) f := fun _ => ⟨rfl, rfl⟩

theorem Carries.bind {k : α → StateM (Scoped C E) β} {g : α → StateM E β} (hm : Carries m f)
    (hk : ∀ a, Carries (k a) (g a)) : Carries (m >>= k) (f >>= g) := by
  intro s
  obtain ⟨h1, h2⟩ := hm s
  rw [bind_apply, bind_apply, h1, ← h2]
  exact hk _ _

theorem Carries.note {k : Unit → StateM (Scoped C E) α} (g : C → C) (hk : Carries (k ()) f) :
    Carries (Scoped.note g >>= k) f := fun s => hk ⟨g s.cur, s.rest⟩

theorem Carries.ite {p : Prop} [Decidable p] {n : StateM (Scoped C E) α} {g : StateM E α} (hm : Carries m f)
    (hn : Carries n g) : Carries (if p then m else n) (if p then f else g) := by
  by_cases hp : p
  · rw [if_pos hp, if_pos hp]
    exact hm
  · rw [if_neg hp, if_neg hp]
    exact hn

end Carries

end Scoped
