import Mathlib.Logic.Function.Iterate

/-!
# Maps of bit vectors that are affine over exclusive or

A map is affine if it is linear up to its value at 0.  Affine maps can be composed and iterated, and the value for a
sum of four parts is the sum of their values and the value at 0.
-/

/-- Linear over exclusive or up to the value at 0. -/
def XorAffine {n m : Nat} (f : BitVec n → BitVec m) : Prop := ∀ x y, f (x ^^^ y) = f x ^^^ f y ^^^ f 0

namespace XorAffine

variable {k n m : Nat} {f : BitVec n → BitVec m}

theorem xor_cancel (x y : BitVec n) : x ^^^ (x ^^^ y) = y := by
  rw [← BitVec.xor_assoc, BitVec.xor_self, BitVec.zero_xor]

theorem xor_left_comm (x y z : BitVec n) : x ^^^ (y ^^^ z) = y ^^^ (x ^^^ z) := by
  rw [← BitVec.xor_assoc, BitVec.xor_comm x y, BitVec.xor_assoc]

theorem of_linear (h : ∀ x y, f (x ^^^ y) = f x ^^^ f y) : XorAffine f := by
  have h0 : f 0 = 0#m := by
    have hz := h 0 0
    rwa [BitVec.xor_self, BitVec.xor_self] at hz
  intro x y
  rw [h, h0, BitVec.xor_zero]

theorem comp {g : BitVec m → BitVec k} (hg : XorAffine g) (hf : XorAffine f) : XorAffine (g ∘ f) := by
  intro x y
  simp only [Function.comp_apply]
  rw [hf, hg, hg]
  simp only [BitVec.xor_assoc]
  rw [BitVec.xor_comm (g (f 0)), xor_cancel]

theorem iterate {g : BitVec n → BitVec n} (hg : XorAffine g) (i : Nat) : XorAffine g^[i] := by
  induction i with
  | zero => exact of_linear fun _ _ => rfl
  | succ i ih => exact ih.comp hg

theorem xor {g : BitVec n → BitVec m} (hf : XorAffine f) (hg : XorAffine g) : XorAffine fun x => f x ^^^ g x := by
  intro x y
  dsimp only
  rw [hf, hg]
  ac_rfl

theorem const (c : BitVec m) : XorAffine fun _ : BitVec n => c := by
  intro x y
  rw [BitVec.xor_self, BitVec.zero_xor]

/-- The value for a sum of four parts. -/
theorem four (hf : XorAffine f) (a b c d : BitVec n) :
    f (a ^^^ b ^^^ c ^^^ d) = f a ^^^ f b ^^^ f c ^^^ f d ^^^ f 0 := by
  rw [hf, hf, hf]
  simp only [BitVec.xor_assoc, xor_left_comm (f 0), xor_cancel]

/-- Two values differ by the value for the difference. -/
theorem sub (hf : XorAffine f) (x y : BitVec n) : f x ^^^ f y = f (x ^^^ y) ^^^ f 0 := by
  rw [hf, BitVec.xor_assoc _ (f 0), BitVec.xor_self, BitVec.xor_zero]

end XorAffine
