import Mathlib.Algebra.Group.Int.Defs
import Mathlib.Algebra.Group.Nat.Defs
import Mathlib.Data.Nat.Basic

/-!
# Error numbers and 64-bit arithmetic

Addresses and sizes are natural numbers below `2 ^ 64`; `add64` and `sub64` are the wrapping operations of the C
types `uintptr_t` and `size_t`.  `alignUp` and `isP2` are the macros `ALIGN_UP` and `IS_P2` of `stdlib.h`.
-/

namespace Pml

/-- The error numbers that the modelled functions store in `errno`. -/
inductive Errno
  | EPERM | ENOENT | ESRCH | EIO | EBADF | ECHILD | ENOMEM | EACCES | EFAULT | EEXIST | ENOTDIR | EISDIR | EINVAL
      | ENFILE
  | EMFILE | EFBIG | ENOSPC | EROFS | ELOOP | EBUSY | EXDEV
  | ENOSYS | ENOTEMPTY | ENOTSUP | EOVERFLOW | EUCLEAN | ENAMETOOLONG
  deriving DecidableEq, Repr

/-- Addition of `size_t` values. -/
def add64 (a b : Nat) : Nat := (a + b) % 2 ^ 64

/-- Subtraction of `size_t` values (`b` below `2 ^ 64`). -/
def sub64 (a b : Nat) : Nat := (a + 2 ^ 64 - b) % 2 ^ 64

/-- `ALIGN_UP (x, a)`: the expression `((x - 1) | (a - 1)) + 1`. -/
def alignUp (x a : Nat) : Nat := add64 (sub64 x 1 ||| (a - 1)) 1

/-- Bitwise complement of a `uintptr_t`. -/
def not64 (x : Nat) : Nat := 2 ^ 64 - 1 - x

/-- `ALIGN_DOWN (x, a)`: the expression `x & ~(a - 1)`. -/
def alignDown (x a : Nat) : Nat := x &&& not64 (a - 1)

/-- `IS_P2 (x)`. -/
def isP2 (x : Nat) : Bool := x != 0 && x &&& (x - 1) == 0

theorem add64_of_lt {a b : Nat} (h : a + b < 2 ^ 64) : add64 a b = a + b := Nat.mod_eq_of_lt h

theorem sub64_of_le {a b : Nat} (hb : b ≤ a) (ha : a < 2 ^ 64) : sub64 a b = a - b := by
  unfold sub64; omega

theorem add64_lt (a b : Nat) : add64 a b < 2 ^ 64 := Nat.mod_lt _ (by omega)

theorem alignUp_lt_two_pow (x a : Nat) : alignUp x a < 2 ^ 64 := add64_lt _ _

/-! ### Bits -/

theorem testBit_not64 {x i : Nat} (hx : x < 2 ^ 64) : (not64 x).testBit i = (decide (i < 64) && !x.testBit i) := by
  have e : not64 x = 2 ^ 64 - (x + 1) := by unfold not64; omega
  rw [e, Nat.testBit_two_pow_sub_succ hx]

theorem testBit_alignDown {x k i : Nat} (hk : k < 64) :
    (alignDown x (2 ^ k)).testBit i = (x.testBit i && (decide (i < 64) && !decide (i < k))) := by
  have hlt : 2 ^ k - 1 < 2 ^ 64 := by
    have h1 := Nat.pow_lt_pow_right (show 1 < 2 by decide) hk
    omega
  rw [alignDown, Nat.testBit_and, testBit_not64 hlt, Nat.testBit_two_pow_sub_one]

theorem isP2_iff {x : Nat} : isP2 x = true ↔ ∃ k, x = 2 ^ k := by
  have h := @Nat.ne_zero_and_sub_one_eq_zero_iff_isPowerOfTwo x
  unfold Nat.isPowerOfTwo at h
  rw [← h]
  simp [isP2]

private theorem or_two_pow_sub_one (n k : Nat) : n ||| (2 ^ k - 1) = n / 2 ^ k * 2 ^ k + (2 ^ k - 1) := by
  have hlt : 2 ^ k - 1 < 2 ^ k := Nat.sub_lt (Nat.two_pow_pos k) Nat.one_pos
  apply Nat.eq_of_testBit_eq
  intro i
  rw [Nat.testBit_or, Nat.testBit_two_pow_sub_one, Nat.mul_comm, Nat.testBit_two_pow_mul_add _ hlt,
    Nat.testBit_two_pow_sub_one]
  by_cases hi : i < k
  · simp [hi]
  · simp only [hi, decide_false, Bool.or_false, ↓reduceIte]
    rw [Nat.testBit_div_two_pow, Nat.sub_add_cancel (by omega)]

theorem alignUp_two_pow {x k : Nat} (hx : 0 < x) (hx' : x < 2 ^ 64) :
    alignUp x (2 ^ k) = ((x - 1) / 2 ^ k + 1) * 2 ^ k % 2 ^ 64 := by
  have hpos := Nat.two_pow_pos k
  unfold alignUp
  rw [sub64_of_le hx hx', or_two_pow_sub_one, add64, Nat.add_mul, Nat.one_mul, Nat.add_assoc,
    Nat.sub_add_cancel hpos]

theorem dvd_alignUp {x k : Nat} (hx : 0 < x) (hx' : x < 2 ^ 64) (hk : k ≤ 64) : 2 ^ k ∣ alignUp x (2 ^ k) := by
  rw [alignUp_two_pow hx hx']
  exact (Nat.dvd_mod_iff (Nat.pow_dvd_pow 2 hk)).2 (Nat.dvd_mul_left _ _)

theorem alignUp_lt {x k : Nat} (hx : 0 < x) (hx' : x < 2 ^ 64) : alignUp x (2 ^ k) < x + 2 ^ k := by
  have h1 := Nat.mod_le (((x - 1) / 2 ^ k + 1) * 2 ^ k) (2 ^ 64)
  have h2 := Nat.div_mul_le_self (x - 1) (2 ^ k)
  rw [alignUp_two_pow hx hx']
  rw [Nat.add_mul, Nat.one_mul] at h1 ⊢
  omega

theorem alignUp_eq_zero_or_le {x k : Nat} (hx : 0 < x) (hx' : x < 2 ^ 64) (hk : k ≤ 64) :
    alignUp x (2 ^ k) = 0 ∨ x ≤ alignUp x (2 ^ k) := by
  have hpos := Nat.two_pow_pos k
  have h1 := Nat.div_add_mod (x - 1) (2 ^ k)
  have h2 := Nat.mod_lt (x - 1) hpos
  have h3 : x ≤ ((x - 1) / 2 ^ k + 1) * 2 ^ k := by
    rw [Nat.add_mul, Nat.one_mul, Nat.mul_comm ((x - 1) / 2 ^ k)]
    omega
  have h4 : ((x - 1) / 2 ^ k + 1) * 2 ^ k ≤ 2 ^ 64 := by
    obtain ⟨j, hj⟩ := Nat.pow_dvd_pow 2 hk
    rw [hj, Nat.mul_comm]
    refine Nat.mul_le_mul_left _ ?_
    have h5 : (x - 1) / 2 ^ k < j := by
      rw [Nat.div_lt_iff_lt_mul hpos, Nat.mul_comm j, ← hj]
      omega
    omega
  rw [alignUp_two_pow hx hx']
  rcases Nat.lt_or_ge (((x - 1) / 2 ^ k + 1) * 2 ^ k) (2 ^ 64) with h | h
  · exact Or.inr (by rw [Nat.mod_eq_of_lt h]; exact h3)
  · left
    rw [Nat.le_antisymm h4 h, Nat.mod_self]

theorem alignUp_sixteen {x : Nat} (hx : x < 2 ^ 64) : alignUp x 16 = (x + 15) / 16 * 16 % 2 ^ 64 := by
  rcases Nat.eq_zero_or_pos x with rfl | hpos
  · decide
  · have h := alignUp_two_pow (k := 4) hpos hx
    have e : (x - 1) / 2 ^ 4 + 1 = (x + 15) / 16 := by omega
    rw [e] at h
    exact h

theorem alignUp_alignUp_sixteen {x : Nat} (hx : x < 2 ^ 64) : alignUp (alignUp x 16) 16 = alignUp x 16 := by
  rw [alignUp_sixteen (alignUp_lt_two_pow x 16), alignUp_sixteen hx]
  omega

theorem le_alignUp_sixteen {x : Nat} (hx : x ≤ 2 ^ 64 - 16) : x ≤ alignUp x 16 := by
  rw [alignUp_sixteen (by omega)]
  omega

end Pml
