import Mathlib.Data.List.Basic

/-!
# Folds over the blocks of a list

`foldBlocks k f n s l` folds `f` over the first `n` blocks of `k` elements of `l` and returns the elements behind them
as well.  The fold over all whole blocks of a list that is made of whole blocks can be continued with what follows it
(`foldWhole_append`).
-/

namespace Blocks

variable {α σ : Type*} (k : Nat) (f : σ → List α → σ)

/-- The fold over the first `n` blocks, and the elements behind them. -/
def foldBlocks : Nat → σ → List α → σ × List α
  | 0, s, l => (s, l)
  | n + 1, s, l => foldBlocks n (f s (l.take k)) (l.drop k)

/-- The fold over all whole blocks. -/
def foldWhole (s : σ) (l : List α) : σ := (foldBlocks k f (l.length / k) s l).1

variable {k f}

theorem foldBlocks_snd (n : Nat) (s : σ) (l : List α) : (foldBlocks k f n s l).2 = l.drop (k * n) := by
  induction n generalizing s l with
  | zero => rfl
  | succ n ih =>
    unfold foldBlocks
    rw [ih, List.drop_drop, Nat.mul_succ, Nat.add_comm]

private theorem foldBlocks_add (m n : Nat) (s : σ) (l : List α) : foldBlocks k f (m + n) s l =
    foldBlocks k f n (foldBlocks k f m s l).1 (foldBlocks k f m s l).2 := by
  induction m generalizing s l with
  | zero => rw [Nat.zero_add]; rfl
  | succ m ih =>
    rw [Nat.succ_add]
    exact ih _ _

/-- The fold over the blocks as a fold over the list of them. -/
theorem foldBlocks_fst (n : Nat) (s : σ) (l : List α) : (foldBlocks k f n s l).1 =
    ((List.range n).map fun i => (l.drop (k * i)).take k).foldl f s := by
  induction n with
  | zero => rfl
  | succ n ih =>
    rw [foldBlocks_add, foldBlocks_snd, List.range_succ, List.map_append, List.foldl_append, ← ih]
    rfl

private theorem foldBlocks_append {n : Nat} {s : σ} {l : List α} (h : k * n ≤ l.length) (r : List α) :
    (foldBlocks k f n s (l ++ r)).1 = (foldBlocks k f n s l).1 := by
  induction n generalizing s l with
  | zero => rfl
  | succ n ih =>
    rw [Nat.mul_succ] at h
    unfold foldBlocks
    rw [List.take_append_of_le_length (by omega), List.drop_append_of_le_length (by omega)]
    exact ih (by rw [List.length_drop]; omega)

theorem foldWhole_of_lt {l : List α} (h : l.length < k) (s : σ) : foldWhole k f s l = s := by
  unfold foldWhole
  rw [Nat.div_eq_of_lt h]
  rfl

theorem foldWhole_append (hk : 0 < k) {l : List α} (h : k ∣ l.length) (s : σ) (r : List α) :
    foldWhole k f s (l ++ r) = foldWhole k f (foldWhole k f s l) r := by
  obtain ⟨n, hn⟩ := h
  have hdiv : (l ++ r).length / k = n + r.length / k := by
    rw [List.length_append, hn, Nat.mul_add_div hk]
  have hwhole : l.length / k = n := by rw [hn, Nat.mul_div_cancel_left n hk]
  unfold foldWhole
  rw [hdiv, hwhole, foldBlocks_add, foldBlocks_snd, foldBlocks_append (by omega)]
  rw [← hn, List.drop_left]

theorem foldWhole_block (hk : 0 < k) {l : List α} (h : l.length = k) (s : σ) : foldWhole k f s l = f s l := by
  have hone : l.length / k = 1 := by rw [h, Nat.div_self hk]
  unfold foldWhole
  rw [hone]
  show f s (l.take k) = f s l
  rw [List.take_of_length_le (by omega)]

/-- Two nested loops as one. -/
theorem foldl_nested (g : σ → Nat → Nat → σ) (m n : Nat) (s : σ) :
    (List.range m).foldl (fun s i => (List.range n).foldl (fun s j => g s i j) s) s =
      (List.range (m * n)).foldl (fun s t => g s (t / n) (t % n)) s := by
  induction m with
  | zero => rw [Nat.zero_mul]; rfl
  | succ m ih =>
    rw [List.range_succ, List.foldl_append, ih, Nat.succ_mul, List.range_add, List.foldl_append, List.foldl_map]
    generalize (List.range (m * n)).foldl (fun s t => g s (t / n) (t % n)) s = s
    show (List.range n).foldl (fun s j => g s m j) s = _
    refine List.foldl_ext _ _ _ fun s j hj => ?_
    have hj := List.mem_range.1 hj
    rw [Nat.mul_comm m n, Nat.mul_add_div (by omega), Nat.div_eq_of_lt hj, Nat.mul_add_mod, Nat.mod_eq_of_lt hj,
      Nat.add_zero]

end Blocks
