import Mathlib.Data.UInt
import Mathlib.Tactic.Ring

/-!
# Byte-addressed memory

A memory is a map from addresses to bytes.  `readLE` and `writeLE` access a little-endian field of any width and
`copy` moves a range of bytes.  Every access is determined by the bytes of its range, so an access is unchanged
by a write to a disjoint range (`readLE_writeLE_disjoint`), and a field reads back what
was stored in it (`readLE_writeLE_self`).
-/

namespace ByteMemory

/-- A byte for every address. -/
abbrev Mem := Nat → UInt8

/-- The little-endian field of `n` bytes at address `a`. -/
def readLE (m : Mem) (a : Nat) : Nat → Nat
  | 0 => 0
  | n + 1 => (m a).toNat + 256 * readLE m (a + 1) n

/-- The memory after storing the low `n` bytes of `v` at address `a`, least significant byte first. -/
def writeLE (m : Mem) (a : Nat) : Nat → Nat → Mem
  | 0, _ => m
  | n + 1, v => fun x => if x = a then UInt8.ofNat v else writeLE m (a + 1) n (v / 256) x

/-- The memory after copying `n` bytes from `src` to `dst`; the source is read before the destination changes. -/
def copy (m : Mem) (dst src n : Nat) : Mem :=
  fun x => if dst ≤ x ∧ x < dst + n then m (src + (x - dst)) else m x

/-- The memory after copying `n` bytes from `src` in `m'` to `dst`. -/
def paste (m : Mem) (dst : Nat) (m' : Mem) (src n : Nat) : Mem :=
  fun x => if dst ≤ x ∧ x < dst + n then m' (src + (x - dst)) else m x

/-- The memory after setting `n` bytes from `a` on to `v`. -/
def fill (m : Mem) (a n : Nat) (v : UInt8) : Mem := fun x => if a ≤ x ∧ x < a + n then v else m x

/-- The memory after storing one byte. -/
def setByte (m : Mem) (a : Nat) (v : UInt8) : Mem := fun x => if x = a then v else m x

@[simp] theorem readLE_zero (m : Mem) (a : Nat) : readLE m a 0 = 0 := rfl

private theorem readLE_succ (m : Mem) (a n : Nat) : readLE m a (n + 1) = (m a).toNat + 256 * readLE m (a + 1) n := rfl

private theorem writeLE_succ (m : Mem) (a n v : Nat) : writeLE m a (n + 1) v =
    fun x => if x = a then UInt8.ofNat v else writeLE m (a + 1) n (v / 256) x := rfl

theorem readLE_congr {m m' : Mem} {a n : Nat} (h : ∀ x, a ≤ x → x < a + n → m x = m' x) :
    readLE m a n = readLE m' a n := by
  induction n generalizing a with
  | zero => rfl
  | succ n ih =>
    simp only [readLE_succ]
    rw [h a (by omega) (by omega), ih (fun x h1 h2 => h x (by omega) (by omega))]

/-- Fields with the same bytes, at any two places. -/
theorem readLE_congr_shift {m m' : Mem} {a a' n : Nat} (h : ∀ j, j < n → m (a + j) = m' (a' + j)) :
    readLE m a n = readLE m' a' n := by
  induction n generalizing a a' with
  | zero => rfl
  | succ n ih =>
    have h0 : m a = m' a' := h 0 (by omega)
    have hs : readLE m (a + 1) n = readLE m' (a' + 1) n := ih fun j hj => by
      have hj1 := h (j + 1) (by omega)
      rwa [← Nat.add_assoc, ← Nat.add_assoc, Nat.add_right_comm a, Nat.add_right_comm a'] at hj1
    rw [readLE_succ, readLE_succ, h0, hs]

theorem readLE_lt (m : Mem) (a n : Nat) : readLE m a n < 256 ^ n := by
  induction n generalizing a with
  | zero => simp
  | succ n ih =>
    have h1 := ih (a + 1)
    have h2 := (m a).toNat_lt
    simp only [readLE_succ, Nat.pow_succ]
    omega

/-- A field is zero if its bytes are. -/
theorem readLE_eq_zero {m : Mem} {a n : Nat} : readLE m a n = 0 ↔ ∀ x < n, m (a + x) = 0 := by
  induction n generalizing a with
  | zero => exact iff_of_true rfl fun x hx => absurd hx (Nat.not_lt_zero x)
  | succ n ih =>
    have hbyte : (m a).toNat = 0 ↔ m a = 0 := ⟨fun h => UInt8.toNat_inj.1 h, fun h => by rw [h]; rfl⟩
    rw [readLE_succ, Nat.add_eq_zero_iff, hbyte, Nat.mul_eq_zero, or_iff_right (by decide), ih]
    constructor
    · rintro ⟨h0, h⟩ (- | x) hx
      · exact h0
      · have hx' := h x (by omega)
        rwa [Nat.add_right_comm, Nat.add_assoc] at hx'
    · refine fun h => ⟨h 0 (Nat.succ_pos n), fun x hx => ?_⟩
      rw [Nat.add_right_comm, Nat.add_assoc]
      exact h (x + 1) (by omega)

theorem writeLE_outside {m : Mem} {a n v x : Nat} (h : x < a ∨ a + n ≤ x) : writeLE m a n v x = m x := by
  induction n generalizing a v with
  | zero => rfl
  | succ n ih =>
    have hx : x ≠ a := by omega
    simp only [writeLE_succ, hx, ↓reduceIte]
    exact ih (by omega)

theorem writeLE_inside {m m' : Mem} {a n v x : Nat} (h : a ≤ x) (h' : x < a + n) :
    writeLE m a n v x = writeLE m' a n v x := by
  induction n generalizing a v with
  | zero => omega
  | succ n ih =>
    by_cases hx : x = a
    · simp [writeLE_succ, hx]
    · simp only [writeLE_succ, hx, ↓reduceIte]
      exact ih (by omega) (by omega)

/-- A store hides what was in its range. -/
theorem writeLE_congr {m m' : Mem} {a n v : Nat} (h : ∀ x, x < a ∨ a + n ≤ x → m x = m' x) :
    writeLE m a n v = writeLE m' a n v := by
  funext x
  by_cases hx : a ≤ x ∧ x < a + n
  · exact writeLE_inside hx.1 hx.2
  · rw [writeLE_outside (by omega), writeLE_outside (by omega), h x (by omega)]

/-- The second of two stores to one range counts. -/
theorem writeLE_writeLE (m : Mem) (a n v w : Nat) : writeLE (writeLE m a n v) a n w = writeLE m a n w :=
  writeLE_congr fun _ hx => writeLE_outside hx

/-- Stores to disjoint ranges commute. -/
theorem writeLE_comm {m : Mem} {a n v b k w : Nat} (h : a + n ≤ b ∨ b + k ≤ a) :
    writeLE (writeLE m a n v) b k w = writeLE (writeLE m b k w) a n v := by
  funext x
  by_cases ha : a ≤ x ∧ x < a + n
  · rw [writeLE_outside (by omega)]
    exact writeLE_inside ha.1 ha.2
  · rw [writeLE_outside (n := n) (by omega)]
    by_cases hb : b ≤ x ∧ x < b + k
    · exact writeLE_inside hb.1 hb.2
    · rw [writeLE_outside (by omega), writeLE_outside (by omega), writeLE_outside (by omega)]

@[simp] theorem readLE_writeLE_self (m : Mem) (a n v : Nat) :
    readLE (writeLE m a n v) a n = v % 256 ^ n := by
  induction n generalizing a v with
  | zero => simp [Nat.mod_one]
  | succ n ih =>
    have hb : (UInt8.ofNat v).toNat = v % 256 := by simp
    have hrest : readLE (writeLE m a (n + 1) v) (a + 1) n = v / 256 % 256 ^ n := by
      rw [← ih (a + 1) (v / 256)]
      refine readLE_congr fun x h1 _ => ?_
      have hx : x ≠ a := by omega
      simp [writeLE_succ, hx]
    have hd : v % 256 ^ (n + 1) = v % 256 + 256 * (v / 256 % 256 ^ n) := by
      rw [Nat.pow_succ, Nat.mul_comm, Nat.mod_mul]
    simp only [readLE_succ]
    rw [hrest, hd]
    simp [writeLE_succ]

/-- Storing a field's own value changes nothing. -/
theorem writeLE_readLE_self (m : Mem) (a n : Nat) : writeLE m a n (readLE m a n) = m := by
  induction n generalizing a with
  | zero => rfl
  | succ n ih =>
    have hb := (m a).toNat_lt
    have hq : readLE m a (n + 1) / 256 = readLE m (a + 1) n := by
      simp only [readLE_succ]; omega
    funext x
    simp only [writeLE_succ, hq, ih]
    split
    · rename_i hx
      subst hx
      apply UInt8.toNat_inj.1
      simp only [UInt8.toNat_ofNat', readLE_succ]
      omega
    · rfl

theorem readLE_writeLE_disjoint {m : Mem} {a n b k v : Nat} (h : a + n ≤ b ∨ b + k ≤ a) :
    readLE (writeLE m b k v) a n = readLE m a n :=
  readLE_congr fun _ _ _ => writeLE_outside (by omega)

theorem copy_outside {m : Mem} {dst src n x : Nat} (h : x < dst ∨ dst + n ≤ x) : copy m dst src n x = m x := by
  have hx : ¬(dst ≤ x ∧ x < dst + n) := by omega
  simp [copy, hx]

theorem copy_inside {m : Mem} {dst src n i : Nat} (h : i < n) : copy m dst src n (dst + i) = m (src + i) := by
  have hx : dst ≤ dst + i ∧ dst + i < dst + n := by omega
  simp only [copy, hx, and_self, ↓reduceIte]
  congr 1; omega

theorem paste_outside {m m' : Mem} {dst src n x : Nat} (h : x < dst ∨ dst + n ≤ x) : paste m dst m' src n x = m x :=
  if_neg (by omega)

theorem paste_inside {m m' : Mem} {dst src n x : Nat} (h : dst ≤ x) (h' : x < dst + n) :
    paste m dst m' src n x = m' (src + (x - dst)) := if_pos ⟨h, h'⟩

/-- A field inside the destination of a copy is the field at the same offset in the source. -/
theorem readLE_copy_inside {m : Mem} {dst src k i n : Nat} (h : i + n ≤ k) :
    readLE (copy m dst src k) (dst + i) n = readLE m (src + i) n := by
  induction n generalizing i with
  | zero => rfl
  | succ n ih =>
    simp only [readLE_succ]
    rw [copy_inside (by omega), Nat.add_assoc dst, ih (by omega), Nat.add_assoc src]

theorem setByte_of_ne {m : Mem} {a x : Nat} {v : UInt8} (h : x ≠ a) : setByte m a v x = m x := by
  simp [setByte, h]

theorem fill_outside {m : Mem} {a n x : Nat} {v : UInt8} (h : x < a ∨ a + n ≤ x) : fill m a n v x = m x := by
  have hx : ¬(a ≤ x ∧ x < a + n) := by omega
  simp [fill, hx]

theorem readLE_fill_zero {m : Mem} {a n b k : Nat} (h : a ≤ b) (h' : b + k ≤ a + n) :
    readLE (fill m a n 0) b k = 0 := by
  induction k generalizing b with
  | zero => rfl
  | succ k ih =>
    have hx : a ≤ b ∧ b < a + n := by omega
    have h0 : fill m a n 0 b = 0 := by simp [fill, hx]
    simp only [readLE_succ, h0, ih (show a ≤ b + 1 by omega) (by omega)]
    rfl

/-- A copy onto itself changes nothing. -/
theorem copy_self (m : Mem) (a n : Nat) : copy m a a n = m := by
  funext x
  unfold copy
  split
  · congr 1; omega
  · rfl

end ByteMemory
