import Mathlib.Data.UInt

/-!
# Words of bytes

`leWord w` is the word of `w` bits that a list of bytes holds in little-endian order.  Whether one of the bytes is
zero can be seen from the word after 1 has been subtracted from each byte (`zeroByte_iff`), since a byte borrows from
the next one only if it is zero or the byte below it was.
-/

namespace Words

/-- A little-endian word of bytes. -/
def leWord (w : Nat) (bytes : List UInt8) : BitVec w := bytes.foldr (fun b x => b.toBitVec.setWidth w ||| x <<< 8) 0

variable {w : Nat}

theorem leWord_cons (b : UInt8) (l : List UInt8) : leWord w (b :: l) = b.toBitVec.setWidth w ||| leWord w l <<< 8 :=
  rfl

theorem leWord_append (l r : List UInt8) : leWord w (l ++ r) = leWord w l ||| leWord w r <<< (8 * l.length) := by
  induction l with
  | nil => simp [leWord]
  | cons b l ih =>
    rw [List.cons_append, leWord_cons, leWord_cons, ih, BitVec.shiftLeft_or_distrib, BitVec.or_assoc,
      ← BitVec.shiftLeft_add, List.length_cons, Nat.mul_succ]

theorem leWord_singleton (b : UInt8) : leWord w [b] = b.toBitVec.setWidth w := by
  simp [leWord]

theorem leWord_zeros (n : Nat) : leWord w (List.replicate n 0) = 0#w := by
  induction n with
  | zero => rfl
  | succ n ih =>
    have hzero : (0 : UInt8).toBitVec.setWidth w = 0#w := BitVec.setWidth_zero w 8
    rw [List.replicate_succ, leWord_cons, ih, hzero, BitVec.zero_or]
    exact BitVec.zero_shiftLeft 8

theorem leWord_xor {l r : List UInt8} (h : l.length = r.length) :
    leWord w l ^^^ leWord w r = leWord w (List.zipWith (· ^^^ ·) l r) := by
  induction l generalizing r with
  | nil =>
    have hr : r = [] := List.length_eq_zero_iff.1 h.symm
    rw [hr]
    exact BitVec.xor_zero
  | cons b l ih =>
    cases r with
    | nil => cases h
    | cons c r =>
      rw [List.zipWith_cons_cons, leWord_cons, leWord_cons, leWord_cons, ← ih (Nat.succ.inj h)]
      refine BitVec.eq_of_getLsbD_eq fun i hi => ?_
      have hxor : (b ^^^ c).toBitVec = b.toBitVec ^^^ c.toBitVec := rfl
      rw [hxor]
      simp only [BitVec.getLsbD_xor, BitVec.getLsbD_or, BitVec.getLsbD_setWidth, BitVec.getLsbD_shiftLeft]
      by_cases h8 : i < 8
      · simp [h8, hi]
      · simp [h8, hi, BitVec.getLsbD_of_ge _ i (by omega : 8 ≤ i)]

/-- A word of equal bytes is doubled. -/
theorem leWord_double (b : UInt8) (n : Nat) :
    leWord w (List.replicate n b) <<< (8 * n) ||| leWord w (List.replicate n b) = leWord w
    (List.replicate (n + n) b) := by
  rw [← List.replicate_append_replicate, leWord_append, List.length_replicate, BitVec.or_comm]

/-- The number that a list of bytes holds in little-endian order. -/
def leNat (bytes : List UInt8) : Nat := bytes.foldr (fun b n => b.toNat + 2 ^ 8 * n) 0

theorem leNat_lt (l : List UInt8) : leNat l < 2 ^ (8 * l.length) := by
  induction l with
  | nil => decide
  | cons b l ih =>
    have hb := b.toNat_lt
    have hpow : 2 ^ (8 * (b :: l).length) = 2 ^ 8 * 2 ^ (8 * l.length) := by
      rw [List.length_cons, Nat.mul_succ, Nat.pow_add, Nat.mul_comm]
    rw [hpow]
    show b.toNat + 2 ^ 8 * leNat l < _
    omega

theorem leNat_inj {l r : List UInt8} (hlen : l.length = r.length) (h : leNat l = leNat r) : l = r := by
  induction l generalizing r with
  | nil => exact (List.length_eq_zero_iff.1 hlen.symm).symm
  | cons b l ih =>
    cases r with
    | nil => cases hlen
    | cons c r =>
      have hb := b.toNat_lt
      have hc := c.toNat_lt
      have h' : b.toNat + 2 ^ 8 * leNat l = c.toNat + 2 ^ 8 * leNat r := h
      have hfirst : b = c := UInt8.toNat_inj.1 (by omega)
      rw [hfirst, ih (Nat.succ.inj hlen) (by omega)]

theorem leWord_toNat {l : List UInt8} (h : 8 * l.length ≤ w) : (leWord w l).toNat = leNat l := by
  induction l with
  | nil => exact BitVec.toNat_zero
  | cons b l ih =>
    rw [List.length_cons] at h
    have hb : b.toNat < 2 ^ 8 := b.toNat_lt
    have hl := leNat_lt l
    have hpow : 2 ^ 8 * 2 ^ (8 * l.length) ≤ 2 ^ w := by
      rw [← Nat.pow_add]
      exact Nat.pow_le_pow_right (by decide) (by omega)
    have hbyte : b.toBitVec.toNat = b.toNat := rfl
    rw [leWord_cons, BitVec.toNat_or, BitVec.toNat_shiftLeft, BitVec.toNat_setWidth, ih (by omega), hbyte,
      Nat.shiftLeft_eq, Nat.mod_eq_of_lt (by omega), Nat.mod_eq_of_lt (by omega), Nat.or_comm, ← Nat.shiftLeft_eq,
      ← Nat.shiftLeft_add_eq_or_of_lt hb, Nat.shiftLeft_eq, Nat.mul_comm, Nat.add_comm]
    rfl

/-! ### Zero bytes -/

/-- `and` works on the lowest byte and on the others. -/
private theorem and_eq_zero_iff (x y z : Nat) : x &&& y &&& z = 0 ↔
    x % 2 ^ 8 &&& y % 2 ^ 8 &&& z % 2 ^ 8 = 0 ∧ x / 2 ^ 8 &&& y / 2 ^ 8 &&& z / 2 ^ 8 = 0 := by
  rw [← Nat.and_mod_two_pow, ← Nat.and_mod_two_pow, ← Nat.and_div_two_pow, ← Nat.and_div_two_pow]
  omega

private theorem leNat_zeroByte_iff {l : List UInt8} {n : Nat} (hn : l.length = n) :
    ((2 ^ (8 * n) - leNat (List.replicate n 1) + leNat l) % 2 ^ (8 * n) &&& (2 ^ (8 * n) - 1 - leNat l) &&&
      leNat (List.replicate n 0x80) = 0) ↔ ∀ b ∈ l, b ≠ 0 := by
  induction l generalizing n with
  | nil =>
    subst hn
    exact iff_of_true rfl fun b hb => absurd hb List.not_mem_nil
  | cons b l ih =>
    obtain _ | n := n
    · cases hn
    have ih := ih (Nat.succ.inj hn)
    have hl := leNat_lt l
    rw [Nat.succ.inj hn] at hl
    have hones := leNat_lt (List.replicate n 1)
    rw [List.length_replicate] at hones
    have hb : b.toNat < 2 ^ 8 := b.toNat_lt
    have hx : leNat (b :: l) = b.toNat + 2 ^ 8 * leNat l := rfl
    have hone : leNat (List.replicate (n + 1) 1) = 1 + 2 ^ 8 * leNat (List.replicate n 1) := rfl
    have hhigh : leNat (List.replicate (n + 1) 0x80) = 0x80 + 2 ^ 8 * leNat (List.replicate n 0x80) := rfl
    have hpow : 2 ^ (8 * (n + 1)) = 2 ^ 8 * 2 ^ (8 * n) := by rw [Nat.mul_succ, Nat.pow_add, Nat.mul_comm]
    rw [hx, hone, hhigh, hpow, List.forall_mem_cons, ← ih, and_eq_zero_iff, Nat.mod_mul_right_mod,
      Nat.mod_mul_right_div_self]
    generalize 2 ^ (8 * n) = m at *
    generalize leNat l = x, leNat (List.replicate n 1) = ones at *
    have hnot : (2 ^ 8 * m - 1 - (b.toNat + 2 ^ 8 * x)) % 2 ^ 8 = 255 - b.toNat ∧
        (2 ^ 8 * m - 1 - (b.toNat + 2 ^ 8 * x)) / 2 ^ 8 = m - 1 - x := by omega
    have hhigh' : ∀ h, (0x80 + 2 ^ 8 * h) % 2 ^ 8 = 0x80 ∧ (0x80 + 2 ^ 8 * h) / 2 ^ 8 = h := by
      intro h
      omega
    rw [hnot.1, hnot.2, (hhigh' _).1, (hhigh' _).2]
    by_cases hzero : b = 0
    · -- the lowest byte becomes 255
      have hlow : (2 ^ 8 * m - (1 + 2 ^ 8 * ones) + (b.toNat + 2 ^ 8 * x)) % 2 ^ 8 = 255 := by
        rw [hzero, UInt8.toNat_zero]
        omega
      rw [hlow, hzero]
      refine ⟨fun h => absurd h.1 (by decide), fun h => absurd rfl h.1⟩
    · -- nothing is borrowed from the others
      have hpos : b.toNat ≠ 0 := fun h => hzero (UInt8.toNat_inj.1 h)
      have hsub : (2 ^ 8 * m - (1 + 2 ^ 8 * ones) + (b.toNat + 2 ^ 8 * x)) % 2 ^ 8 = b.toNat - 1 ∧
          (2 ^ 8 * m - (1 + 2 ^ 8 * ones) + (b.toNat + 2 ^ 8 * x)) / 2 ^ 8 = m - ones + x := by omega
      have hbyte : ∀ k < 2 ^ 8, k ≠ 0 → k - 1 &&& 255 - k &&& 0x80 = 0 := by decide +kernel
      rw [hsub.1, hsub.2]
      exact and_congr ⟨fun _ => hzero, fun _ => hbyte _ hb hpos⟩ Iff.rfl

/-- A byte of a word is zero exactly if a high bit appears when 1 is subtracted from each byte. -/
theorem zeroByte_iff {l : List UInt8} {n : Nat} (hn : l.length = n) :
    (leWord (8 * n) l - leWord (8 * n) (List.replicate n 1)) &&& ~~~leWord (8 * n) l &&&
      leWord (8 * n) (List.replicate n 0x80) = 0 ↔ ∀ b ∈ l, b ≠ 0 := by
  have hl : 8 * l.length ≤ 8 * n := by rw [hn]
  have hrep : ∀ b : UInt8, 8 * (List.replicate n b).length ≤ 8 * n := fun b => by rw [List.length_replicate]
  rw [← leNat_zeroByte_iff hn, ← BitVec.toNat_inj, BitVec.toNat_and, BitVec.toNat_and, BitVec.toNat_sub,
    BitVec.toNat_not, leWord_toNat hl, leWord_toNat (hrep 1), leWord_toNat (hrep 0x80)]
  exact Iff.rfl

end Words
