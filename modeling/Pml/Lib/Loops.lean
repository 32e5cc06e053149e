import Mathlib.Data.List.Basic

/-!
# Loops with a bound

`whileLoop c f n` is the loop that applies `f` as long as `c` holds, as far as it gets with `n` tests.  Where the
states of the loop are known up to one at which it must stop, it stops there or before (`whileLoop_ends`).
-/

namespace Loops

variable {σ : Type*} {c : σ → Bool} {f : σ → σ}

def whileLoop (c : σ → Bool) (f : σ → σ) : Nat → σ → Option σ
  | 0, _ => none
  | n + 1, s => if c s then whileLoop c f n (f s) else some s

/-- The states are those of `g`, and at the latest the one with number `l` ends the loop. -/
theorem whileLoop_ends {l n : Nat} {g : Nat → σ} (hg : ∀ i < l, f (g i) = g (i + 1)) (hend : c (g l) = false)
    (hn : l < n) :
    ∃ k ≤ l, whileLoop c f n (g 0) = some (g k) ∧ c (g k) = false ∧ ∀ i < k, c (g i) = true := by
  induction l generalizing n g with
  | zero =>
    obtain ⟨n, rfl⟩ : ∃ n', n = n' + 1 := ⟨n - 1, by omega⟩
    refine ⟨0, Nat.le_refl 0, ?_, hend, fun i hi => absurd hi (Nat.not_lt_zero i)⟩
    rw [whileLoop, hend]
    rfl
  | succ l ih =>
    obtain ⟨n, rfl⟩ : ∃ n', n = n' + 1 := ⟨n - 1, by omega⟩
    rw [whileLoop]
    cases hc : c (g 0) with
    | false => exact ⟨0, Nat.zero_le _, rfl, hc, fun i hi => absurd hi (Nat.not_lt_zero i)⟩
    | true =>
      obtain ⟨k, hk, hrun, hstop, hall⟩ :=
        ih (fun i hi => hg (i + 1) (Nat.succ_lt_succ hi)) hend (Nat.lt_of_succ_lt_succ hn)
      refine ⟨k + 1, by omega, ?_, hstop, ?_⟩
      · rw [if_pos rfl, hg 0 (Nat.succ_pos l)]
        exact hrun
      · rintro (- | i) hi
        · exact hc
        · exact hall i (by omega)

end Loops
