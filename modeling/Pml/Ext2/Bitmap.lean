import Mathlib.Data.Nat.Bitwise
import Pml.Basic
import Pml.Lib.ByteMemory

/-!
# Bitmaps (`drivers/fs/ext2/bitmap.c`, `drivers/fs/ext2/bitarray.c`)

A bitmap has one of two forms: the 32-bit one, whose operations are in `bitmap.c`, and the 64-bit one, whose bits are
kept by `bitarray.c` and whose numbers are clusters.  Both keep the bit of `start` first.  But the range operations of
`bitarray.c` take the first byte from `start >> 3`, not from the distance to `start`; the loop over a range counts
with an `int` in one form and with an `unsigned int` in the other; and the number of bytes of a range is computed with
32 or with 64 bits.  Where none of these matters, the two forms give the same results (`bitmaps_agree`).

An array of bits is a memory of its own, and its end is left out.
-/

namespace Pml.Ext2

open ByteMemory

/-! ### Bits of an array -/

def testBit (m : Mem) (index : Nat) : Nat := (m (index >>> 3)).toNat &&& 1 <<< (index &&& 7)

def setBit (m : Mem) (index : Nat) : Mem :=
  setByte m (index >>> 3) (m (index >>> 3) ||| UInt8.ofNat (1 <<< (index &&& 7)))

def clearBit (m : Mem) (index : Nat) : Mem :=
  setByte m (index >>> 3) (m (index >>> 3) &&& ~~~UInt8.ofNat (1 <<< (index &&& 7)))

def setBits (m : Mem) (index n : Nat) : Mem := (List.range n).foldl (fun m i => setBit m (index + i)) m

def copyIn (m : Mem) (dst : Nat) (data : Mem) (n : Nat) : Mem :=
  fun x => if dst ≤ x ∧ x < dst + n then data (x - dst) else m x

def copyOut (m : Mem) (src n : Nat) : List UInt8 := (List.range n).map fun i => m (src + i)

/-! ### `bitarray.c` -/

/-- The first loop of `ext2_bitarray_find_first_zero`, up to a byte boundary: the bit that it finds, or the position
and the number of bits that remain. -/
def toByte (m : Mem) : Nat → Nat → Except Nat (Nat × Nat)
  | bitpos, 0 => .ok (bitpos, 0)
  | bitpos, count + 1 =>
    if bitpos &&& 7 = 0 then .ok (bitpos, count + 1)
    else if testBit m bitpos = 0 then .error bitpos
    else toByte m (bitpos + 1) count

/-- The loop over bytes up to an aligned address, with at most `k` bytes: whether it has found a zero bit, and the
number of bytes that it has passed. -/
def toWord (m : Mem) (addr pos : Nat) : Nat → Bool × Nat
  | 0 => (false, 0)
  | k + 1 =>
    if (addr + pos) &&& 7 = 0 then (false, 0)
    else if m pos ≠ 0xff then (true, 0)
    else
      let r := toWord m addr (pos + 1) k
      (r.1, r.2 + 1)

def fullWords (m : Mem) (pos : Nat) : Nat → Nat
  | 0 => 0
  | i + 1 => if readLE m pos 8 ≠ 2 ^ 64 - 1 then 0 else fullWords m (pos + 8) i + 1

def fullBytes (m : Mem) (pos : Nat) : Nat → Nat
  | 0 => 0
  | i + 1 => if m pos ≠ 0xff then 0 else fullBytes m (pos + 1) i + 1

def zeroBit (m : Mem) (bitpos count : Nat) : Option Nat := (List.range' bitpos count).find? fun i => testBit m i == 0

/-- `ext2_bitarray_find_first_zero` from `bitpos` on; the array is at the address `addr`. -/
def bitarrayFindZero (m : Mem) (addr bitpos count : Nat) : Option Nat :=
  match toByte m bitpos count with
  | .error i => some i
  | .ok (_, 0) => none
  | .ok (bitpos, count) =>
    let r := toWord m addr (bitpos >>> 3) (count / 8)
    let count := count - 8 * r.2
    let bitpos := bitpos + 8 * r.2
    if r.1 then zeroBit m bitpos count
    else
      let words := fullWords m (bitpos >>> 3) (count >>> 6)
      let count := count - 64 * words
      let bitpos := bitpos + 64 * words
      let bytes := fullBytes m (bitpos >>> 3) (count >>> 3)
      zeroBit m (bitpos + 8 * bytes) (count - 8 * bytes)

/-! ### `bitmap.c` -/

structure Bitmap32 where
  start : Nat
  last : Nat
  realEnd : Nat
  bitmap : Mem

/-- `struct ext2_bitmap64` with a bit array at the address `addr`. -/
structure Bitmap64 where
  start : Nat
  last : Nat
  realEnd : Nat
  clusterBits : Nat
  addr : Nat
  bitarray : Mem

inductive Bitmap
  | narrow (b : Bitmap32)
  | wide (b : Bitmap64)

/-- `ext2_make_bitmap_32` without an initial map. -/
def makeBitmap32 (start last realEnd : Nat) : Bitmap := .narrow ⟨start, last, realEnd, fun _ => 0⟩

def makeBitmap64 (start last realEnd clusterBits addr : Nat) : Bitmap :=
  .wide ⟨start, last, realEnd, clusterBits, addr, fun _ => 0⟩

def markBitmap : Bitmap → Nat → Bitmap
  | .narrow b, arg =>
    if 2 ^ 32 ≤ arg ∨ arg < b.start ∨ b.last < arg then .narrow b
    else .narrow { b with bitmap := setBit b.bitmap (arg - b.start) }
  | .wide b, arg =>
    let arg := arg >>> b.clusterBits
    if arg < b.start ∨ b.last < arg then .wide b
    else .wide { b with bitarray := setBit b.bitarray (arg - b.start) }

def unmarkBitmap : Bitmap → Nat → Bitmap
  | .narrow b, arg =>
    if 2 ^ 32 ≤ arg ∨ arg < b.start ∨ b.last < arg then .narrow b
    else .narrow { b with bitmap := clearBit b.bitmap (arg - b.start) }
  | .wide b, arg =>
    let arg := arg >>> b.clusterBits
    if arg < b.start ∨ b.last < arg then .wide b
    else .wide { b with bitarray := clearBit b.bitarray (arg - b.start) }

def testBitmap : Bitmap → Nat → Nat
  | .narrow b, arg => if 2 ^ 32 ≤ arg ∨ arg < b.start ∨ b.last < arg then 0 else testBit b.bitmap (arg - b.start)
  | .wide b, arg =>
    let arg := arg >>> b.clusterBits
    if arg < b.start ∨ b.last < arg then 0 else testBit b.bitarray (arg - b.start)

def wordOf (x : Int) : Nat := (x % 2 ^ 64).toNat

/-- `ext2_mark_block_bitmap_range`; undefined if the `int` that counts the bits overflows. -/
def markBlockBitmapRange : Bitmap → Nat → Int → Option Bitmap
  | .narrow b, block, num =>
    let stop := wordOf (block + num - 1)
    if 2 ^ 32 ≤ block ∨ 2 ^ 32 ≤ stop ∨ block < b.start ∨ b.last < block ∨ b.last < stop then some (.narrow b)
    else if 2 ^ 31 ≤ num then none
    else some (.narrow { b with bitmap := setBits b.bitmap (block - b.start) num.toNat })
  | .wide b, block, num =>
    let stop := add64 (wordOf (block + num)) (1 <<< b.clusterBits - 1) >>> b.clusterBits
    let block := block >>> b.clusterBits
    let num := sub64 stop block
    if block < b.start ∨ b.last < block ∨ b.last < sub64 (add64 block num) 1 then some (.wide b)
    else some (.wide { b with bitarray := setBits b.bitarray (block - b.start) (num % 2 ^ 32) })

/-- `ext2_set_bitmap_range`, where `num` is an `unsigned int`. -/
def setBitmapRange : Bitmap → Nat → Nat → Mem → Except Errno Bitmap
  | .narrow b, start, num, data =>
    let stop := sub64 (add64 start num) 1
    if 2 ^ 32 ≤ stop ∨ start < b.start ∨ b.realEnd < stop then .error .EUCLEAN
    else .ok
      (.narrow { b with bitmap := copyIn b.bitmap ((start - b.start) >>> 3) data (((num + 7) % 2 ^ 32) >>> 3) })
  | .wide b, start, num, data =>
    .ok (.wide { b with bitarray := copyIn b.bitarray (start >>> 3) data ((num + 7) >>> 3) })

/-- `ext2_get_bitmap_range`: the bytes that it stores. -/
def getBitmapRange : Bitmap → Nat → Nat → Except Errno (List UInt8)
  | .narrow b, start, num =>
    let stop := sub64 (add64 start num) 1
    if 2 ^ 32 ≤ stop ∨ start < b.start ∨ b.realEnd < stop then .error .EUCLEAN
    else .ok (copyOut b.bitmap ((start - b.start) >>> 3) (((num + 7) % 2 ^ 32) >>> 3))
  | .wide b, start, num => .ok (copyOut b.bitarray (start >>> 3) ((num + 7) >>> 3))

/-- `ext2_find_first_zero_bitmap` -/
def findFirstZero : Bitmap → Nat → Nat → Except Errno Nat
  | .narrow b, start, stop =>
    if 2 ^ 32 ≤ start ∨ 2 ^ 32 ≤ stop ∨ start < b.start ∨ b.last < stop ∨ stop < start then .error .EUCLEAN
    else
      match (List.range' start (stop + 1 - start)).find? fun i => testBit b.bitmap (i - b.start) == 0 with
      | some i => .ok i
      | none => .error .ENOENT
  | .wide b, start, stop =>
    let cstart := start >>> b.clusterBits
    let cend := stop >>> b.clusterBits
    if cstart < b.start ∨ b.last < cend ∨ stop < start then .error .EUCLEAN
    else
      match bitarrayFindZero b.bitarray b.addr (cstart - b.start) (cend - cstart + 1) with
      | some i =>
        let cout := (i + b.start) <<< b.clusterBits
        .ok (if start ≤ cout then cout else start)
      | none => .error .ENOENT

/-! ### The search in a bit array -/

private theorem zeroBit_skip {m : Mem} {bitpos k n : Nat} (h : ∀ i < k, testBit m (bitpos + i) ≠ 0) :
    zeroBit m bitpos (k + n) = zeroBit m (bitpos + k) n := by
  unfold zeroBit
  rw [← List.range'_append_1, List.find?_append, List.find?_eq_none.2, Option.none_or]
  intro i hi
  rw [List.mem_range'_1] at hi
  have hbit := h (i - bitpos) (by omega)
  rw [show bitpos + (i - bitpos) = i by omega] at hbit
  simpa using hbit

private theorem toByte_spec (m : Mem) (bitpos count : Nat) :
    (∃ i, toByte m bitpos count = .error i ∧ zeroBit m bitpos count = some i) ∨
    ∃ p c, toByte m bitpos count = .ok (p, c) ∧ zeroBit m bitpos count = zeroBit m p c ∧ (p % 8 = 0 ∨ c = 0) := by
  induction count generalizing bitpos with
  | zero => exact Or.inr ⟨bitpos, 0, rfl, rfl, Or.inr rfl⟩
  | succ count ih =>
    rw [toByte]
    split
    · rename_i h0
      refine Or.inr ⟨bitpos, count + 1, rfl, rfl, Or.inl ?_⟩
      rw [← h0]
      exact (Nat.and_two_pow_sub_one_eq_mod bitpos 3).symm
    · split
      · rename_i hz
        refine Or.inl ⟨bitpos, rfl, ?_⟩
        simp [zeroBit, List.range'_succ, hz]
      · rename_i hz
        have hskip : zeroBit m bitpos (count + 1) = zeroBit m (bitpos + 1) count := by
          rw [Nat.add_comm count 1]
          exact zeroBit_skip fun i hi => by rwa [Nat.lt_one_iff.1 hi]
        rw [hskip]
        exact ih (bitpos + 1)

private theorem testBit_byte (m : Mem) (pos : Nat) {j : Nat} (hj : j < 8) :
    testBit m (8 * pos + j) = (m pos).toNat &&& 1 <<< j := by
  have h1 : (8 * pos + j) >>> 3 = pos := by
    rw [Nat.shiftRight_eq_div_pow]
    omega
  have h2 : (8 * pos + j) &&& 7 = j := by
    rw [show (7 : Nat) = 2 ^ 3 - 1 from rfl, Nat.and_two_pow_sub_one_eq_mod]
    omega
  rw [testBit, h1, h2]

private theorem testBit_full {m : Mem} {pos j : Nat} (h : m pos = 0xff) (hj : j < 8) :
    testBit m (8 * pos + j) ≠ 0 := by
  rw [testBit_byte m _ hj, h]
  have hall : ∀ j < 8, (0xff : UInt8).toNat &&& 1 <<< j ≠ 0 := by decide
  exact hall j hj

private theorem zeroBit_bytes {m : Mem} {pos k n : Nat} (h : ∀ i < k, m (pos + i) = 0xff) :
    zeroBit m (8 * pos) (8 * k + n) = zeroBit m (8 * (pos + k)) n := by
  rw [Nat.mul_add]
  refine zeroBit_skip fun i hi => ?_
  have hbit := testBit_full (h (i / 8) (by omega)) (Nat.mod_lt i (by decide))
  rwa [show 8 * (pos + i / 8) + i % 8 = 8 * pos + i by omega] at hbit

private theorem toWord_spec (m : Mem) (addr pos k : Nat) :
    (toWord m addr pos k).2 ≤ k ∧ ∀ i < (toWord m addr pos k).2, m (pos + i) = 0xff := by
  induction k generalizing pos with
  | zero => exact ⟨Nat.le_refl _, by simp [toWord]⟩
  | succ k ih =>
    rw [toWord]
    split
    · exact ⟨Nat.zero_le _, by simp⟩
    · split
      · exact ⟨Nat.zero_le _, by simp⟩
      · rename_i hfull
        obtain ⟨h1, h2⟩ := ih (pos + 1)
        refine ⟨Nat.succ_le_succ h1, fun i hi => ?_⟩
        cases i with
        | zero => simpa using hfull
        | succ i =>
          have hbyte := h2 i (Nat.lt_of_succ_lt_succ hi)
          rwa [Nat.add_right_comm, Nat.add_assoc] at hbyte

private theorem full_of_readLE {m : Mem} {a n : Nat} (h : readLE m a n = 256 ^ n - 1) :
    ∀ i < n, m (a + i) = 0xff := by
  induction n generalizing a with
  | zero => simp
  | succ n ih =>
    have hlt := readLE_lt m (a + 1) n
    have hbyte := (m a).toNat_lt
    have hpow : 0 < 256 ^ n := Nat.pow_pos (by decide)
    rw [readLE, Nat.pow_succ] at h
    have h1 : readLE m (a + 1) n = 256 ^ n - 1 := by omega
    have h2 : m a = 0xff := UInt8.toNat_inj.1 (by rw [show (0xff : UInt8).toNat = 255 from rfl]; omega)
    intro i hi
    cases i with
    | zero => exact h2
    | succ i =>
      have hi' := ih h1 i (Nat.lt_of_succ_lt_succ hi)
      rwa [Nat.add_right_comm, Nat.add_assoc] at hi'

private theorem fullWords_spec (m : Mem) (pos k : Nat) :
    fullWords m pos k ≤ k ∧ ∀ i < 8 * fullWords m pos k, m (pos + i) = 0xff := by
  induction k generalizing pos with
  | zero => exact ⟨Nat.le_refl _, by simp [fullWords]⟩
  | succ k ih =>
    rw [fullWords]
    split
    · exact ⟨Nat.zero_le _, by simp⟩
    · rename_i hfull
      obtain ⟨h1, h2⟩ := ih (pos + 8)
      refine ⟨Nat.succ_le_succ h1, fun i hi => ?_⟩
      by_cases hlt : i < 8
      · exact full_of_readLE (n := 8) (by simpa using hfull) i hlt
      · have hbyte := h2 (i - 8) (by omega)
        rwa [show pos + 8 + (i - 8) = pos + i by omega] at hbyte

private theorem fullBytes_spec (m : Mem) (pos k : Nat) :
    fullBytes m pos k ≤ k ∧ ∀ i < fullBytes m pos k, m (pos + i) = 0xff := by
  induction k generalizing pos with
  | zero => exact ⟨Nat.le_refl _, by simp [fullBytes]⟩
  | succ k ih =>
    rw [fullBytes]
    split
    · exact ⟨Nat.zero_le _, by simp⟩
    · rename_i hfull
      obtain ⟨h1, h2⟩ := ih (pos + 1)
      refine ⟨Nat.succ_le_succ h1, fun i hi => ?_⟩
      cases i with
      | zero => simpa using hfull
      | succ i =>
        have hbyte := h2 i (Nat.lt_of_succ_lt_succ hi)
        rwa [Nat.add_right_comm, Nat.add_assoc] at hbyte

theorem bitarrayFindZero_eq (m : Mem) (addr bitpos count : Nat) :
    bitarrayFindZero m addr bitpos count = zeroBit m bitpos count := by
  unfold bitarrayFindZero
  rcases toByte_spec m bitpos count with ⟨i, h1, h2⟩ | ⟨p, c, h1, h2, h3⟩
  · rw [h1, h2]
  · rw [h1, h2]
    cases c with
    | zero => rfl
    | succ c =>
      obtain ⟨pos, rfl⟩ : ∃ pos, p = 8 * pos := ⟨p / 8, by omega⟩
      have hpos : ∀ x, (8 * x) >>> 3 = x := fun x => by
        rw [Nat.shiftRight_eq_div_pow]
        omega
      obtain ⟨hw1, hw2⟩ := toWord_spec m addr pos ((c + 1) / 8)
      generalize hr : toWord m addr pos ((c + 1) / 8) = r at hw1 hw2
      -- Each loop passes full bytes only.
      have hstage : zeroBit m (8 * pos) (c + 1) = zeroBit m (8 * (pos + r.2)) (c + 1 - 8 * r.2) := by
        rw [← zeroBit_bytes hw2, show 8 * r.2 + (c + 1 - 8 * r.2) = c + 1 by omega]
      simp only [hpos, hr, ← Nat.mul_add]
      rw [hstage]
      split
      · rfl
      · generalize c + 1 - 8 * r.2 = n
        obtain ⟨hf1, hf2⟩ := fullWords_spec m (pos + r.2) (n >>> 6)
        generalize fullWords m (pos + r.2) (n >>> 6) = words at hf1 hf2
        rw [Nat.shiftRight_eq_div_pow] at hf1
        have hadd : 8 * (pos + r.2) + 64 * words = 8 * (pos + r.2 + 8 * words) := by omega
        rw [hadd, hpos]
        obtain ⟨hb1, hb2⟩ := fullBytes_spec m (pos + r.2 + 8 * words) ((n - 64 * words) >>> 3)
        generalize fullBytes m (pos + r.2 + 8 * words) ((n - 64 * words) >>> 3) = bytes at hb1 hb2
        rw [Nat.shiftRight_eq_div_pow] at hb1
        rw [← Nat.mul_add, ← zeroBit_bytes hb2,
          show 8 * bytes + (n - 64 * words - 8 * bytes) = n - 64 * words by omega,
          ← zeroBit_bytes hf2, show 8 * (8 * words) + (n - 64 * words) = n by omega]

/-! ### Single bits -/

theorem testBit_eq_zero_iff (m : Mem) (i : Nat) : testBit m i = 0 ↔ (m (i / 8)).toBitVec.getLsbD (i % 8) = false := by
  have h := testBit_byte m (i / 8) (Nat.mod_lt i (show 0 < 8 by decide))
  rw [show 8 * (i / 8) + i % 8 = i by omega] at h
  rw [h, Nat.one_shiftLeft, Nat.and_two_pow]
  have hbit : (m (i / 8)).toNat.testBit (i % 8) = (m (i / 8)).toBitVec.getLsbD (i % 8) := rfl
  rw [hbit]
  cases (m (i / 8)).toBitVec.getLsbD (i % 8) with
  | false => simp
  | true => simp

theorem index_byte (i : Nat) : i >>> 3 = i / 8 ∧ i &&& 7 = i % 8 :=
  ⟨Nat.shiftRight_eq_div_pow i 3, Nat.and_two_pow_sub_one_eq_mod i 3⟩

private theorem getLsbD_bit {k j : Nat} (hk : k < 8) (hj : j < 8) :
    (UInt8.ofNat (1 <<< k)).toBitVec.getLsbD j = decide (j = k) := by
  have hall : ∀ k < 8, ∀ j < 8, (UInt8.ofNat (1 <<< k)).toBitVec.getLsbD j = decide (j = k) := by decide
  exact hall k hk j hj

theorem testBit_setBit (m : Mem) (i j : Nat) : testBit (setBit m i) j = 0 ↔ j ≠ i ∧ testBit m j = 0 := by
  have hj : j % 8 < 8 := Nat.mod_lt j (by decide)
  rw [testBit_eq_zero_iff, testBit_eq_zero_iff, setBit, (index_byte i).1, (index_byte i).2]
  by_cases hbyte : j / 8 = i / 8
  · rw [hbyte, setByte, if_pos rfl, UInt8.toBitVec_or, BitVec.getLsbD_or,
      getLsbD_bit (Nat.mod_lt i (by decide)) hj]
    have hne : j ≠ i ↔ j % 8 ≠ i % 8 := by omega
    simp [hne, and_comm]
  · rw [setByte_of_ne hbyte]
    have hne : j ≠ i := fun h => hbyte (by rw [h])
    simp [hne]

private theorem testBit_clearBit (m : Mem) (i j : Nat) : testBit (clearBit m i) j = 0 ↔ j = i ∨ testBit m j = 0 := by
  have hj : j % 8 < 8 := Nat.mod_lt j (by decide)
  rw [testBit_eq_zero_iff, testBit_eq_zero_iff, clearBit, (index_byte i).1, (index_byte i).2]
  by_cases hbyte : j / 8 = i / 8
  · rw [hbyte, setByte, if_pos rfl, UInt8.toBitVec_and, BitVec.getLsbD_and, UInt8.toBitVec_not, BitVec.getLsbD_not,
      getLsbD_bit (Nat.mod_lt i (by decide)) hj]
    have heq : j = i ↔ j % 8 = i % 8 := by omega
    by_cases h : j % 8 = i % 8
    · simp [heq, h]
    · simp [heq, h, hj]
  · rw [setByte_of_ne hbyte]
    have hne : j ≠ i := fun h => hbyte (by rw [h])
    simp [hne]

/-! ### The two forms -/

/-- The operations; a range is given by the number of bytes from `start` to its first bit, and by its length. -/
inductive BitmapOp
  | mark (arg : Nat)
  | unmark (arg : Nat)
  | test (arg : Nat)
  | markRange (byte num : Nat)
  | setRange (byte num : Nat) (data : Mem)
  | getRange (byte num : Nat)
  | findZero (start stop : Nat)

/-- What a caller sees of an operation. -/
inductive BitmapResult
  | done
  | bit (n : Nat)
  | status (e : Option Errno)
  | bytes (r : Except Errno (List UInt8))
  | found (r : Except Errno Nat)

/-- One operation on a bitmap that begins at `start`. -/
def bitmapStep (start : Nat) (b : Bitmap) : BitmapOp → Option (Bitmap × BitmapResult)
  | .mark arg => some (markBitmap b arg, .done)
  | .unmark arg => some (unmarkBitmap b arg, .done)
  | .test arg => some (b, .bit (testBitmap b arg))
  | .markRange byte num => (markBlockBitmapRange b (start + 8 * byte) num).map fun b => (b, .done)
  | .setRange byte num data =>
    match setBitmapRange b (start + 8 * byte) num data with
    | .ok b => some (b, .status none)
    | .error e => some (b, .status (some e))
  | .getRange byte num => some (b, .bytes (getBitmapRange b (start + 8 * byte) num))
  | .findZero first stop => some (b, .found (findFirstZero b first stop))

def bitmapRun (start : Nat) : List BitmapOp → Bitmap → Option (List BitmapResult)
  | [], _ => some []
  | op :: ops, b => (bitmapStep start b op).bind fun r => (bitmapRun start ops r.1).map (r.2 :: ·)

/-- The ranges are inside of the bitmap; the length of a range of bytes is an `unsigned int`. -/
def OpInside (start realEnd : Nat) : BitmapOp → Prop
  | .markRange byte num => start + 8 * byte + num ≤ realEnd + 1
  | .setRange byte num _ => start + 8 * byte + num ≤ realEnd + 1 ∧ num < 2 ^ 32
  | .getRange byte num => start + 8 * byte + num ≤ realEnd + 1 ∧ num < 2 ^ 32
  | _ => True

/-- A range of bytes is at the same place in both forms, its length can be rounded up in 32 bits, and it is not the
empty one at 0. -/
def RangeSame (start byte num : Nat) : Prop :=
  (num ≠ 0 → start < 8 ∧ num + 7 < 2 ^ 32) ∧ (num = 0 → start + 8 * byte ≠ 0)

/-- The operations on which the two forms agree.  An `int` can count the bits of a range that is marked. -/
def OpSame (start last : Nat) : BitmapOp → Prop
  | .markRange byte num => start + 8 * byte + num ≤ last + 1 → num < 2 ^ 31
  | .setRange byte num _ => RangeSame start byte num
  | .getRange byte num => RangeSame start byte num
  | _ => True

section

variable {start last realEnd addr : Nat} {m : Mem}

theorem RangeSame.bytes {byte num : Nat} (h : RangeSame start byte num) :
    ((num + 7) % 2 ^ 32) >>> 3 = (num + 7) >>> 3 := by
  by_cases h0 : num = 0
  · subst h0
    decide
  · rw [Nat.mod_eq_of_lt (h.1 h0).2]

theorem RangeSame.first {byte num : Nat} (h : RangeSame start byte num) :
    (start + 8 * byte) >>> 3 = (start + 8 * byte - start) >>> 3 ∨ (num + 7) >>> 3 = 0 := by
  by_cases h0 : num = 0
  · subst h0
    exact Or.inr (by decide)
  · have h1 := (h.1 h0).1
    left
    rw [Nat.shiftRight_eq_div_pow, Nat.shiftRight_eq_div_pow]
    omega

theorem RangeSame.stop {byte num : Nat} (h : RangeSame start byte num) (hin : start + 8 * byte + num ≤ realEnd + 1)
    (hr : realEnd < 2 ^ 32) : sub64 (add64 (start + 8 * byte) num) 1 = start + 8 * byte + num - 1 := by
  have hpos : 1 ≤ start + 8 * byte + num := by
    by_cases h0 : num = 0
    · have := h.2 h0
      omega
    · omega
  rw [add64_of_lt (by omega), sub64_of_le hpos (by omega)]

private theorem copyIn_zero (m : Mem) (dst : Nat) (data : Mem) : copyIn m dst data 0 = m := by
  funext x
  exact if_neg (by omega)

theorem setBitmapRange_narrow {b : Bitmap32} {first num stop n : Nat} (data : Mem)
    (hs : sub64 (add64 first num) 1 = stop) (hn : ((num + 7) % 2 ^ 32) >>> 3 = n)
    (h : ¬(2 ^ 32 ≤ stop ∨ first < b.start ∨ b.realEnd < stop)) : setBitmapRange (.narrow b) first num data =
      .ok (.narrow { b with bitmap := copyIn b.bitmap ((first - b.start) >>> 3) data n }) := by
  rw [setBitmapRange]
  simp only [hs, hn]
  exact if_neg h

theorem getBitmapRange_narrow {b : Bitmap32} {first num stop n : Nat} (hs : sub64 (add64 first num) 1 = stop)
    (hn : ((num + 7) % 2 ^ 32) >>> 3 = n) (h : ¬(2 ^ 32 ≤ stop ∨ first < b.start ∨ b.realEnd < stop)) :
    getBitmapRange (.narrow b) first num = .ok (copyOut b.bitmap ((first - b.start) >>> 3) n) := by
  rw [getBitmapRange]
  simp only [hs, hn]
  exact if_neg h

private theorem markRange_narrow {b : Bitmap32} {first stop : Nat} {num : Nat} (hs : wordOf (first + num - 1) = stop)
    (hl : b.last < 2 ^ 32) (hint : ¬(first < b.start ∨ b.last < first ∨ b.last < stop) → num < 2 ^ 31) :
    markBlockBitmapRange (.narrow b) first num = some (.narrow ⟨b.start, b.last, b.realEnd,
      if first < b.start ∨ b.last < first ∨ b.last < stop then b.bitmap
        else setBits b.bitmap (first - b.start) num⟩) := by
  rw [markBlockBitmapRange]
  simp only [hs]
  by_cases h : first < b.start ∨ b.last < first ∨ b.last < stop
  · rw [if_pos (by omega), if_pos h]
  · have hnum := hint h
    rw [if_neg (by omega), if_neg (by omega), if_neg h, Int.toNat_natCast]

private theorem markRange_wide {first stop : Nat} {num : Nat} (hlt : first + num < 2 ^ 64)
    (hs : sub64 (add64 first num) 1 = stop) :
    markBlockBitmapRange (.wide ⟨start, last, realEnd, 0, addr, m⟩) first num = some
    (.wide ⟨start, last, realEnd, 0, addr,
      if first < start ∨ last < first ∨ last < stop then m else setBits m (first - start) (num % 2 ^ 32)⟩) := by
  have hword : wordOf (first + num) = first + num := by
    unfold wordOf
    omega
  have hend : add64 (first + num) 0 = first + num := add64_of_lt hlt
  have hnum : sub64 (first + num) first = num := by
    rw [sub64_of_le (Nat.le_add_right _ _) hlt, Nat.add_sub_cancel_left]
  rw [markBlockBitmapRange]
  simp only [hword, Nat.shiftLeft_zero, Nat.sub_self, hend, Nat.shiftRight_zero, hnum, hs]
  split
  · rfl
  · rfl

private theorem markRange_stop (first num : Nat) (h : first + num ≤ 2 ^ 32) :
    wordOf (first + num - 1) = sub64 (add64 first num) 1 := by
  rw [add64_of_lt (by omega)]
  unfold wordOf sub64
  omega

theorem findFirstZero_narrow {b : Bitmap32} (hl : b.last < 2 ^ 32) (first stop : Nat) :
    findFirstZero (.narrow b) first stop =
      if first < b.start ∨ b.last < stop ∨ stop < first then .error .EUCLEAN
      else match zeroBit b.bitmap (first - b.start) (stop - first + 1) with
        | some i => .ok (i + b.start)
        | none => .error .ENOENT := by
  rw [findFirstZero]
  by_cases h : first < b.start ∨ b.last < stop ∨ stop < first
  · rw [if_pos (by omega), if_pos h]
  · rw [if_neg (by omega), if_neg h]
    have hrange : List.range' first (stop + 1 - first) =
        (List.range' (first - b.start) (stop - first + 1)).map (b.start + ·) := by
      rw [List.map_add_range', show b.start + (first - b.start) = first by omega,
        show stop - first + 1 = stop + 1 - first by omega]
    have hbit : ((fun i => testBit b.bitmap (i - b.start) == 0) ∘ fun x => b.start + x) =
        fun i => testBit b.bitmap i == 0 := by
      funext i
      simp
    rw [hrange, List.find?_map, hbit, ← zeroBit]
    cases zeroBit b.bitmap (first - b.start) (stop - first + 1) with
    | none => rfl
    | some i =>
      simp only [Option.map_some]
      rw [Nat.add_comm]

private theorem findFirstZero_wide {b : Bitmap64} (h0 : b.clusterBits = 0) (first stop : Nat) :
    findFirstZero (.wide b) first stop =
      if first < b.start ∨ b.last < stop ∨ stop < first then .error .EUCLEAN
      else match zeroBit b.bitarray (first - b.start) (stop - first + 1) with
        | some i => .ok (i + b.start)
        | none => .error .ENOENT := by
  rw [findFirstZero]
  simp only [h0, Nat.shiftRight_zero, Nat.shiftLeft_zero, bitarrayFindZero_eq]
  split
  · rfl
  · rename_i h
    cases hz : zeroBit b.bitarray (first - b.start) (stop - first + 1) with
    | none => rfl
    | some i =>
      have hmem := List.mem_of_find?_eq_some hz
      rw [List.mem_range'_1] at hmem
      simp only
      rw [if_pos (by omega)]

/-- One operation gives the same result in both forms, and leaves the same bits. -/
private theorem bitmapStep_same (addr : Nat) (hl : last < 2 ^ 32) (hr : realEnd < 2 ^ 32) {op : BitmapOp}
    (hin : OpInside start realEnd op) (hsame : OpSame start last op) : ∃ m' r,
      bitmapStep start (.narrow ⟨start, last, realEnd, m⟩) op = some (.narrow ⟨start, last, realEnd, m'⟩, r) ∧
      bitmapStep start (.wide ⟨start, last, realEnd, 0, addr, m⟩) op =
        some (.wide ⟨start, last, realEnd, 0, addr, m'⟩, r) := by
  have houtside : ∀ arg, (2 ^ 32 ≤ arg ∨ arg < start ∨ last < arg) ↔ (arg < start ∨ last < arg) := fun arg => by omega
  cases op with
  | mark arg =>
    simp only [bitmapStep, markBitmap, houtside, Nat.shiftRight_zero]
    split
    · exact ⟨m, _, rfl, rfl⟩
    · exact ⟨_, _, rfl, rfl⟩
  | unmark arg =>
    simp only [bitmapStep, unmarkBitmap, houtside, Nat.shiftRight_zero]
    split
    · exact ⟨m, _, rfl, rfl⟩
    · exact ⟨_, _, rfl, rfl⟩
  | test arg =>
    simp only [bitmapStep, testBitmap, houtside, Nat.shiftRight_zero]
    exact ⟨m, _, rfl, rfl⟩
  | markRange byte num =>
    simp only [OpInside, OpSame] at hin hsame
    have hstop := markRange_stop (start + 8 * byte) num (by omega)
    obtain ⟨stop, hs⟩ : ∃ stop, sub64 (add64 (start + 8 * byte) num) 1 = stop := ⟨_, rfl⟩
    have hint : ¬(start + 8 * byte < start ∨ last < start + 8 * byte ∨ last < stop) → num < 2 ^ 31 := by
      intro h
      by_cases h0 : start + 8 * byte + num = 0
      · omega
      · have hstop' : stop = start + 8 * byte + num - 1 := by
          rw [← hs, add64_of_lt (by omega), sub64_of_le (by omega) (by omega)]
        exact hsame (by omega)
    refine ⟨if start + 8 * byte < start ∨ last < start + 8 * byte ∨ last < stop then m
      else setBits m (start + 8 * byte - start) (num % 2 ^ 32), .done, ?_, ?_⟩
    rotate_left
    · rw [bitmapStep, markRange_wide (by omega) hs]
      rfl
    · rw [bitmapStep, markRange_narrow (hstop.trans hs) hl hint]
      simp only [Option.map_some]
      by_cases h : start + 8 * byte < start ∨ last < start + 8 * byte ∨ last < stop
      · simp only [h, ↓reduceIte]
      · simp only [h, ↓reduceIte]
        rw [Nat.mod_eq_of_lt (Nat.lt_trans (hint h) (by decide))]
  | setRange byte num data =>
    obtain ⟨hin, -⟩ := hin
    have hstop := RangeSame.stop hsame hin hr
    refine ⟨copyIn m ((start + 8 * byte - start) >>> 3) data ((num + 7) >>> 3), .status none, ?_, ?_⟩
    · rw [bitmapStep, setBitmapRange_narrow data hstop (RangeSame.bytes hsame)]
      simp only
      omega
    · rw [bitmapStep, setBitmapRange]
      rcases RangeSame.first hsame with h | h
      · rw [h]
      · rw [h, copyIn_zero, copyIn_zero]
  | getRange byte num =>
    obtain ⟨hin, -⟩ := hin
    have hstop := RangeSame.stop hsame hin hr
    refine ⟨m, .bytes (.ok (copyOut m ((start + 8 * byte - start) >>> 3) ((num + 7) >>> 3))), ?_, ?_⟩
    · rw [bitmapStep, getBitmapRange_narrow hstop (RangeSame.bytes hsame)]
      simp only
      omega
    · rw [bitmapStep, getBitmapRange]
      rcases RangeSame.first hsame with h | h
      · rw [h]
      · rw [h]
        rfl
  | findZero first stop =>
    refine ⟨m, .found (findFirstZero (.narrow ⟨start, last, realEnd, m⟩) first stop), rfl, ?_⟩
    rw [bitmapStep, findFirstZero_wide rfl, findFirstZero_narrow hl]

private theorem bitmapRun_same (hl : last < 2 ^ 32) (hr : realEnd < 2 ^ 32) {ops : List BitmapOp}
    (hin : ∀ op ∈ ops, OpInside start realEnd op) (hsame : ∀ op ∈ ops, OpSame start last op) : ∃ rs,
      bitmapRun start ops (.narrow ⟨start, last, realEnd, m⟩) = some rs ∧
      bitmapRun start ops (.wide ⟨start, last, realEnd, 0, addr, m⟩) = some rs := by
  induction ops generalizing m with
  | nil => exact ⟨[], rfl, rfl⟩
  | cons op ops ih =>
    obtain ⟨m', r, h1, h2⟩ := bitmapStep_same (m := m) addr hl hr (hin op List.mem_cons_self)
      (hsame op List.mem_cons_self)
    obtain ⟨rs, h3, h4⟩ := ih (m := m') (fun o ho => hin o (List.mem_cons_of_mem _ ho))
      (fun o ho => hsame o (List.mem_cons_of_mem _ ho))
    refine ⟨r :: rs, ?_, ?_⟩
    · rw [bitmapRun, h1, Option.bind_some, h3, Option.map_some]
    · rw [bitmapRun, h2, Option.bind_some, h4, Option.map_some]

end

/-- For all bounds of 32 bits and all sequences of operations on which the two forms agree, the results of the 32-bit
bitmap and of the 64-bit one are the same. -/
theorem bitmaps_agree {start last realEnd : Nat} (hl : last < 2 ^ 32) (hr : realEnd < 2 ^ 32) (addr : Nat)
    {ops : List BitmapOp} (hin : ∀ op ∈ ops, OpInside start realEnd op)
    (hsame : ∀ op ∈ ops, OpSame start last op) : ∃ rs,
      bitmapRun start ops (makeBitmap32 start last realEnd) = some rs ∧
      bitmapRun start ops (makeBitmap64 start last realEnd 0 addr) = some rs :=
  bitmapRun_same hl hr hin hsame

def storeAndTest (start : Nat) : List BitmapOp := [.setRange 0 8 fun _ => 0xff, .test start]

theorem bitmaps_agree_one : ∃ rs, bitmapRun 1 (storeAndTest 1) (makeBitmap32 1 16 16) = some rs ∧
    bitmapRun 1 (storeAndTest 1) (makeBitmap64 1 16 16 0 0x1000) = some rs := by
  refine bitmaps_agree (by decide) (by decide) 0x1000 ?_ ?_
  · intro op hop
    rcases List.mem_cons.1 hop with rfl | hop
    · exact ⟨by decide, by decide⟩
    · rw [List.mem_singleton.1 hop]
      trivial
  · intro op hop
    rcases List.mem_cons.1 hop with rfl | hop
    · exact ⟨fun _ => ⟨by decide, by decide⟩, by decide⟩
    · rw [List.mem_singleton.1 hop]
      trivial

/-- In a bitmap that begins at 8 the byte goes to another place of the bit array. -/
theorem not_bitmaps_agree : (∀ op ∈ storeAndTest 8, OpInside 8 23 op) ∧
    bitmapRun 8 (storeAndTest 8) (makeBitmap32 8 23 23) = some [.status none, .bit 1] ∧
    bitmapRun 8 (storeAndTest 8) (makeBitmap64 8 23 23 0 0x1000) = some [.status none, .bit 0] := by
  refine ⟨fun op hop => ?_, rfl, rfl⟩
  rcases List.mem_cons.1 hop with rfl | hop
  · exact ⟨by decide, by decide⟩
  · rw [List.mem_singleton.1 hop]
    trivial

/-! ### What a bitmap covers -/

/-- The bitmap has one bit for each number from `start` to `last`. -/
def Bitmap.Covers (start last : Nat) : Bitmap → Prop
  | .narrow b => b.start = start ∧ b.last = last ∧ last < 2 ^ 32
  | .wide b => b.start = start ∧ b.last = last ∧ b.clusterBits = 0

section

variable {b : Bitmap} {start last arg : Nat}

theorem Bitmap.Covers.mark (h : b.Covers start last) : (markBitmap b arg).Covers start last := by
  cases b with
  | narrow b =>
    rw [markBitmap]
    split
    · exact h
    · exact h
  | wide b =>
    simp only [markBitmap]
    split
    · exact h
    · exact h

theorem Bitmap.Covers.unmark (h : b.Covers start last) : (unmarkBitmap b arg).Covers start last := by
  cases b with
  | narrow b =>
    rw [unmarkBitmap]
    split
    · exact h
    · exact h
  | wide b =>
    simp only [unmarkBitmap]
    split
    · exact h
    · exact h

theorem Bitmap.Covers.test_mark (h : b.Covers start last) (h1 : start ≤ arg) (h2 : arg ≤ last) (x : Nat) :
    testBitmap (markBitmap b arg) x = 0 ↔ x ≠ arg ∧ testBitmap b x = 0 := by
  cases b with
  | narrow b =>
    obtain ⟨rfl, rfl, hl⟩ := h
    rw [markBitmap, if_neg (by omega), testBitmap, testBitmap]
    by_cases hx : 2 ^ 32 ≤ x ∨ x < b.start ∨ b.last < x
    · rw [if_pos hx, if_pos hx]
      have hne : x ≠ arg := by omega
      simp [hne]
    · rw [if_neg hx, if_neg hx, testBit_setBit]
      have hsub : x - b.start ≠ arg - b.start ↔ x ≠ arg := by omega
      rw [hsub]
  | wide b =>
    obtain ⟨rfl, rfl, h0⟩ := h
    simp only [markBitmap, h0, Nat.shiftRight_zero]
    rw [if_neg (by omega)]
    simp only [testBitmap, h0, Nat.shiftRight_zero]
    by_cases hx : x < b.start ∨ b.last < x
    · rw [if_pos hx, if_pos hx]
      have hne : x ≠ arg := by omega
      simp [hne]
    · rw [if_neg hx, if_neg hx, testBit_setBit]
      have hsub : x - b.start ≠ arg - b.start ↔ x ≠ arg := by omega
      rw [hsub]

theorem Bitmap.Covers.test_unmark (h : b.Covers start last) (h1 : start ≤ arg) (h2 : arg ≤ last) (x : Nat) :
    testBitmap (unmarkBitmap b arg) x = 0 ↔ x = arg ∨ testBitmap b x = 0 := by
  cases b with
  | narrow b =>
    obtain ⟨rfl, rfl, hl⟩ := h
    rw [unmarkBitmap, if_neg (by omega), testBitmap, testBitmap]
    by_cases hx : 2 ^ 32 ≤ x ∨ x < b.start ∨ b.last < x
    · rw [if_pos hx, if_pos hx]
      simp
    · rw [if_neg hx, if_neg hx, testBit_clearBit]
      have hsub : x - b.start = arg - b.start ↔ x = arg := by omega
      rw [hsub]
  | wide b =>
    obtain ⟨rfl, rfl, h0⟩ := h
    simp only [unmarkBitmap, h0, Nat.shiftRight_zero]
    rw [if_neg (by omega)]
    simp only [testBitmap, h0, Nat.shiftRight_zero]
    by_cases hx : x < b.start ∨ b.last < x
    · rw [if_pos hx, if_pos hx]
      simp
    · rw [if_neg hx, if_neg hx, testBit_clearBit]
      have hsub : x - b.start = arg - b.start ↔ x = arg := by omega
      rw [hsub]

theorem zeroBit_some {m : Mem} {bitpos count i : Nat} (h : zeroBit m bitpos count = some i) :
    bitpos ≤ i ∧ i < bitpos + count ∧ testBit m i = 0 := by
  have hmem := List.mem_of_find?_eq_some h
  have hbit := List.find?_some h
  rw [List.mem_range'_1] at hmem
  exact ⟨hmem.1, hmem.2, by simpa using hbit⟩

theorem Bitmap.Covers.found (h : b.Covers start last) {first stop i : Nat} (hf : findFirstZero b first stop = .ok i) :
    start ≤ first ∧ first ≤ i ∧ i ≤ stop ∧ stop ≤ last ∧ testBitmap b i = 0 := by
  cases b with
  | narrow b =>
    obtain ⟨rfl, rfl, hl⟩ := h
    rw [findFirstZero_narrow hl] at hf
    split at hf
    · cases hf
    · split at hf
      · rename_i hr j hz
        obtain ⟨h1, h2, h3⟩ := zeroBit_some hz
        cases hf
        refine ⟨by omega, by omega, by omega, by omega, ?_⟩
        rw [testBitmap, if_neg (by omega), Nat.add_sub_cancel]
        exact h3
      · cases hf
  | wide b =>
    obtain ⟨rfl, rfl, h0⟩ := h
    rw [findFirstZero_wide h0] at hf
    split at hf
    · cases hf
    · split at hf
      · rename_i hr j hz
        obtain ⟨h1, h2, h3⟩ := zeroBit_some hz
        cases hf
        refine ⟨by omega, by omega, by omega, by omega, ?_⟩
        simp only [testBitmap, h0, Nat.shiftRight_zero]
        rw [if_neg (by omega), Nat.add_sub_cancel]
        exact h3
      · cases hf

end

end Pml.Ext2
