import Mathlib.Algebra.Order.Group.Defs

/-!
# What an action adds to a gauge

A gauge is a value of each state.  An action may keep it (`Keeps`), and where it is an element of an ordered group an
action may gain at least `g`, which depends on its result (`Gains`).  The amounts of two actions in a row add up, so
the rule leaves to the second action what is left of the whole amount after the first.
-/

namespace Gauge

variable {S A α β : Type} {gauge : S → A} {m n : StateM S α} {k : α → StateM S β}

/-- The action leaves the gauge as it is. -/
def Keeps (gauge : S → A) (m : StateM S α) : Prop := ∀ s, gauge (m s).2 = gauge s

theorem Keeps.pure (a : α) : Keeps gauge (pure a : StateM S α) := fun _ => rfl

theorem Keeps.bind (hm : Keeps gauge m) (hk : ∀ a, Keeps gauge (k a)) : Keeps gauge (m >>= k) :=
  fun s => (hk _ _).trans (hm s)

theorem Keeps.ite {p : Prop} [Decidable p] (hm : Keeps gauge m) (hn : Keeps gauge n) :
    Keeps gauge (if p then m else n) := by
  by_cases hp : p
  · rw [if_pos hp]
    exact hm
  · rw [if_neg hp]
    exact hn

section Gains

variable [AddCommGroup A] [PartialOrder A] {g : α → A} {h : β → A}

/-- The action adds at least `g` of its result to the gauge. -/
def Gains (gauge : S → A) (m : StateM S α) (g : α → A) : Prop := ∀ s, gauge s + g (m s).1 ≤ gauge (m s).2

/-- An action that keeps the gauge comes first. -/
theorem Gains.keeps_bind (hm : Keeps gauge m) (hk : ∀ a, Gains gauge (k a) h) : Gains gauge (m >>= k) h := by
  intro s
  have hs := hk (m s).1 (m s).2
  rw [hm s] at hs
  exact hs

theorem Gains.ite {p : Prop} [Decidable p] (hm : Gains gauge m g) (hn : Gains gauge n g) :
    Gains gauge (if p then m else n) g := by
  by_cases hp : p
  · rw [if_pos hp]
    exact hm
  · rw [if_neg hp]
    exact hn

variable [IsOrderedAddMonoid A]

theorem Gains.pure {a : α} (ha : g a ≤ 0) : Gains gauge (pure a) g := fun _ => add_le_of_nonpos_right ha

theorem Gains.weaken {g' : α → A} (hm : Gains gauge m g) (hg : ∀ a, g' a ≤ g a) : Gains gauge m g' :=
  fun s => (add_le_add_right (hg _) _).trans (hm s)

theorem Gains.bind (hm : Gains gauge m g) (hk : ∀ a, Gains gauge (k a) fun b => h b - g a) :
    Gains gauge (m >>= k) h := by
  intro s
  change gauge s + h (k (m s).1 (m s).2).1 ≤ gauge (k (m s).1 (m s).2).2
  calc gauge s + h (k (m s).1 (m s).2).1
      = gauge s + g (m s).1 + (h (k (m s).1 (m s).2).1 - g (m s).1) := (add_add_sub_cancel _ _ _).symm
    _ ≤ gauge (m s).2 + (h (k (m s).1 (m s).2).1 - g (m s).1) := add_le_add_left (hm s) _
    _ ≤ gauge (k (m s).1 (m s).2).2 := hk _ _

end Gains

end Gauge
