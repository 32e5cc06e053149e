import Mathlib.Data.List.GetD
import Pml.Lib.Blocks
import Pml.Lib.Words
import Pml.Lib.XorAffine

/-!
# Checksums (`crc32` of `util/crc32.c`)

The checksum is a fold over the bytes: each byte is added to the low byte of the checksum, and the sum is replaced by
its entry in a table.  `crc32` takes four bytes at a time with a table of 1024 entries.  A step of the fold is linear
up to a constant, and so are four steps; the entries of the larger table add up to them (`crc32Word_eq`).

The bytes that remain are taken one by one, and there the code adds the byte to the low byte of the checksum with `+`
and not with `^`.  That is the same as long as the two have no bit in common, and otherwise the index is another one
or lies behind the table (`crc32_right_iff`).
-/

namespace Pml.Util

open Blocks Words

/-- `uint32_t` -/
abbrev Word32 : Type := BitVec 32

/-! ### The code -/

/-- The loop body of `crc32_byte`. -/
def crc32Bit (b : Word32) : Word32 := (if b &&& 1 ≠ 0 then (0 : Word32) else 0x82f63b78) ^^^ b >>> 1

def crc32Byte (b : Word32) : Word32 := crc32Bit^[8] b ^^^ 0xff000000

/-- `crc32_table` and `crc32_wtable` -/
structure Crc32Tables where
  table : List Word32
  wtable : List Word32

def Crc32Tables.zero : Crc32Tables := ⟨List.replicate 0x100 0, List.replicate 0x400 0⟩

/-- The innermost loop of `crc32_init_tables`; the values of `w` stay below `2 ^ 32`. -/
def crc32Entry (table : List Word32) (k i : Nat) : Word32 :=
  (List.range 4).foldl (fun w j =>
    table.getD ((if j = k then w ^^^ BitVec.ofNat 32 i else w).setWidth 8).toNat 0 ^^^ w >>> 8) 0

def crc32InitTables : Crc32Tables :=
  let table := (List.range 0x100).map fun i => crc32Byte (BitVec.ofNat 32 i)
  let wtable := (List.range 4).foldl (fun wtable k => (List.range 0x100).foldl (fun wtable i =>
    wtable.set (k * 0x100 + i) (crc32Entry table k i ^^^ if k = 0 then 0 else wtable.getD 0 0)) wtable)
    (List.replicate 0x400 0)
  ⟨table, wtable⟩

/-- A step of the first loop of `crc32` for four bytes; undefined if an index is behind the table. -/
def crc32Word (t : Crc32Tables) (crc : Word32) (bytes : List UInt8) : Option Word32 :=
  let a := crc ^^^ leWord 32 bytes
  (List.range 4).foldlM (fun crc j => t.wtable[j * 0x100 + ((a >>> (8 * j)).setWidth 8).toNat]?.map (crc ^^^ ·)) 0

/-- A step of the second loop of `crc32`; undefined if the index is behind the table. -/
def crc32Last (t : Crc32Tables) (crc : Word32) (b : UInt8) : Option Word32 :=
  t.table[(crc.setWidth 8).toNat + b.toNat]?.map (· ^^^ crc >>> 8)

/-- `crc32`, with the tables before and after the call. -/
def crc32 (t : Crc32Tables) (seed : Word32) (data : List UInt8) : Crc32Tables × Option Word32 :=
  let t := if t.table.getD 0 0 = 0 then crc32InitTables else t
  let r :=
    foldBlocks 4 (fun crc bytes => crc.bind fun crc => crc32Word t crc bytes) (data.length / 4) (some seed) data
  (t, r.1.bind fun crc => r.2.foldlM (crc32Last t) crc)

/-! ### The checksum as a fold -/

def crcStep (crc : Word32) (b : UInt8) : Word32 :=
  crc32InitTables.table.getD ((crc ^^^ b.toBitVec.setWidth 32).setWidth 8).toNat 0 ^^^ crc >>> 8

def crcFold (seed : Word32) (data : List UInt8) : Word32 := data.foldl crcStep seed

def crcShift (x : Word32) : Word32 := crc32Byte ((x.setWidth 8).setWidth 32) ^^^ x >>> 8

private theorem and_one_ne_zero {b : Word32} : b &&& 1 ≠ 0 ↔ b.getLsbD 0 = true := by
  have hone : b &&& 1 = (BitVec.ofBool (b.getLsbD 0)).setWidth 32 := BitVec.and_one_eq_setWidth_ofBool_getLsbD
  rw [hone]
  cases b.getLsbD 0 <;> decide

private theorem crc32Bit_affine : XorAffine crc32Bit := by
  have hselect : XorAffine fun b : Word32 => if b &&& 1 ≠ 0 then (0 : Word32) else 0x82f63b78 := by
    intro x y
    simp only [and_one_ne_zero, BitVec.getLsbD_xor]
    cases x.getLsbD 0 <;> cases y.getLsbD 0 <;> decide
  have hshift : XorAffine fun b : Word32 => b >>> 1 := .of_linear fun x y => BitVec.ushiftRight_xor_distrib x y 1
  exact hselect.xor hshift

private theorem crc32Byte_affine : XorAffine crc32Byte := (crc32Bit_affine.iterate 8).xor (.const _)

private theorem crcShift_affine : XorAffine crcShift := by
  have hlow : XorAffine fun x : Word32 => (x.setWidth 8).setWidth 32 :=
    .of_linear fun x y => by rw [BitVec.setWidth_xor, BitVec.setWidth_xor]
  have hshift : XorAffine fun x : Word32 => x >>> 8 := .of_linear fun x y => BitVec.ushiftRight_xor_distrib x y 8
  exact (crc32Byte_affine.comp hlow).xor hshift

private theorem table_getElem (i : Nat) (hi : i < 0x100) :
    crc32InitTables.table[i]? = some (crc32Byte (BitVec.ofNat 32 i)) := by
  have hi' : i < (List.range 0x100).length := by rwa [List.length_range]
  show ((List.range 0x100).map fun i => crc32Byte (BitVec.ofNat 32 i))[i]? = _
  rw [List.getElem?_map, List.getElem?_eq_getElem hi', List.getElem_range]
  rfl

private theorem table_low (x : Word32) :
    crc32InitTables.table.getD (x.setWidth 8).toNat 0 = crc32Byte ((x.setWidth 8).setWidth 32) := by
  have hlt : (x.setWidth 8).toNat < 0x100 := (x.setWidth 8).isLt
  rw [List.getD_eq_getElem?_getD, table_getElem _ hlt, BitVec.ofNat_toNat]
  rfl

private theorem xor_byte_shift (x : Word32) (b : BitVec 8) : (x ^^^ b.setWidth 32) >>> 8 = x >>> 8 := by
  have hb : (b.setWidth 32) >>> 8 = 0#32 := by
    refine BitVec.eq_of_getLsbD_eq fun i hi => ?_
    rw [BitVec.getLsbD_ushiftRight, BitVec.getLsbD_setWidth, BitVec.getLsbD_of_ge _ _ (by omega)]
    simp
  rw [BitVec.ushiftRight_xor_distrib, hb, BitVec.xor_zero]

private theorem crcStep_eq (crc : Word32) (b : UInt8) :
    crcStep crc b = crcShift (crc ^^^ b.toBitVec.setWidth 32) := by
  unfold crcStep crcShift
  rw [table_low, xor_byte_shift]

private theorem crcShift_xor {x v : Word32} (hv : v <<< 8 >>> 8 = v) :
    crcShift x ^^^ v = crcShift (x ^^^ v <<< 8) := by
  have hlow : (v <<< 8).setWidth 8 = 0#8 := by
    refine BitVec.eq_of_getLsbD_eq fun i hi => ?_
    rw [BitVec.getLsbD_setWidth, BitVec.getLsbD_shiftLeft]
    simp [hi]
  unfold crcShift
  rw [BitVec.setWidth_xor, hlow, BitVec.xor_zero, BitVec.ushiftRight_xor_distrib, hv, BitVec.xor_assoc]

/-! ### Four bytes at a time -/

def placed (b : BitVec 8) (j : Nat) : Word32 := b.setWidth 32 <<< (8 * j)

private theorem placed_getLsbD (b : BitVec 8) (j : Nat) {i : Nat} (hi : i < 32) :
    (placed b j).getLsbD i = (decide (i / 8 = j) && b.getLsbD (i % 8)) := by
  unfold placed
  rw [BitVec.getLsbD_shiftLeft, BitVec.getLsbD_setWidth]
  rcases Nat.lt_trichotomy (i / 8) j with h | h | h
  · rw [decide_eq_false (Nat.ne_of_lt h), decide_eq_true (by omega : i < 8 * j)]
    simp
  · have hmod : i - 8 * j = i % 8 := by omega
    rw [decide_eq_true h, hmod, decide_eq_false (by omega : ¬i < 8 * j), decide_eq_true hi,
      decide_eq_true (by omega : i % 8 < 32)]
    simp
  · rw [decide_eq_false (Nat.ne_of_gt h), BitVec.getLsbD_of_ge b _ (by omega)]
    simp

private theorem byte_eq_placed (b : UInt8) : b.toBitVec.setWidth 32 = placed b.toBitVec 0 :=
  (BitVec.shiftLeft_zero _).symm

private theorem placed_shiftLeft (b : BitVec 8) (j : Nat) : placed b j <<< 8 = placed b (j + 1) := by
  unfold placed
  rw [← BitVec.shiftLeft_add, Nat.mul_succ]

private theorem placed_back (b : BitVec 8) {j : Nat} (hj : j ≤ 2) : placed b j <<< 8 >>> 8 = placed b j := by
  rw [placed_shiftLeft]
  refine BitVec.eq_of_getLsbD_eq fun i hi => ?_
  rw [BitVec.getLsbD_ushiftRight, placed_getLsbD _ _ hi]
  by_cases hlow : 8 + i < 32
  · have hmod : (8 + i) % 8 = i % 8 := by omega
    rw [placed_getLsbD _ _ hlow, hmod, decide_eq_decide.2 (by omega : (8 + i) / 8 = j + 1 ↔ i / 8 = j)]
  · rw [BitVec.getLsbD_of_ge _ _ (by omega), decide_eq_false (by omega), Bool.false_and]

private theorem placed_four (f : Bool → Bool → Bool) (hf : ∀ a, f a false = a ∧ f false a = a) (b : Nat → BitVec 8)
    {i : Nat}
    (hi : i < 32) : f (f (f ((placed (b 0) 0).getLsbD i) ((placed (b 1) 1).getLsbD i)) ((placed (b 2) 2).getLsbD i))
      ((placed (b 3) 3).getLsbD i) = (b (i / 8)).getLsbD (i % 8) := by
  simp only [placed_getLsbD _ _ hi]
  rcases (by omega : i / 8 = 0 ∨ i / 8 = 1 ∨ i / 8 = 2 ∨ i / 8 = 3) with h | h | h | h <;>
    simp [h, hf]

private theorem word_eq (x : Word32) : x = placed (x.setWidth 8) 0 ^^^ placed ((x >>> 8).setWidth 8) 1 ^^^
    placed ((x >>> 16).setWidth 8) 2 ^^^ placed ((x >>> 24).setWidth 8) 3 := by
  refine BitVec.eq_of_getLsbD_eq fun i hi => ?_
  have hbits :=
    placed_four Bool.xor (fun a => ⟨Bool.xor_false a, Bool.false_xor a⟩) (fun j => (x >>> (8 * j)).setWidth 8) hi
  simp only [BitVec.getLsbD_xor]
  refine Eq.trans ?_ hbits.symm
  rw [BitVec.getLsbD_setWidth, BitVec.getLsbD_ushiftRight, Nat.div_add_mod, decide_eq_true (Nat.mod_lt _ (by decide)),
    Bool.true_and]

private theorem leWord_four (b0 b1 b2 b3 : UInt8) : leWord 32 [b0, b1, b2, b3] =
    placed b0.toBitVec 0 ^^^ placed b1.toBitVec 1 ^^^ placed b2.toBitVec 2 ^^^ placed b3.toBitVec 3 := by
  have hnil : leWord 32 [] = 0#32 := rfl
  have hor : leWord 32 [b0, b1, b2, b3] =
      placed b0.toBitVec 0 ||| placed b1.toBitVec 1 ||| placed b2.toBitVec 2 ||| placed b3.toBitVec 3 := by
    simp only [leWord_cons, hnil, byte_eq_placed, BitVec.shiftLeft_or_distrib, placed_shiftLeft, BitVec.or_assoc,
      BitVec.zero_shiftLeft, BitVec.or_zero]
  rw [hor]
  refine BitVec.eq_of_getLsbD_eq fun i hi => ?_
  have hbytes := fun f hf => placed_four f hf (fun j => [b0, b1, b2, b3].getD j 0 |>.toBitVec) hi
  simp only [BitVec.getLsbD_xor, BitVec.getLsbD_or]
  exact (hbytes or fun a => ⟨Bool.or_false a, Bool.false_or a⟩).trans
    (hbytes Bool.xor fun a => ⟨Bool.xor_false a, Bool.false_xor a⟩).symm

private theorem crcFold_four (crc : Word32) (b0 b1 b2 b3 : UInt8) :
    crcFold crc [b0, b1, b2, b3] = crcShift^[4] (crc ^^^ leWord 32 [b0, b1, b2, b3]) := by
  show crcStep (crcStep (crcStep (crcStep crc b0) b1) b2) b3 = _
  have hmove : ∀ (x : Word32) (b : BitVec 8) (j : Nat), j ≤ 2 →
      crcShift x ^^^ placed b j = crcShift (x ^^^ placed b (j + 1)) := fun x b j hj => by
    rw [crcShift_xor (placed_back _ hj), placed_shiftLeft]
  rw [crcStep_eq, crcStep_eq, crcStep_eq, crcStep_eq, byte_eq_placed, byte_eq_placed, byte_eq_placed, byte_eq_placed,
    leWord_four, hmove _ _ 0 (by decide), hmove _ _ 0 (by decide), hmove _ _ 1 (by decide), hmove _ _ 0 (by decide),
    hmove _ _ 1 (by decide), hmove _ _ 2 (by decide)]
  simp only [BitVec.xor_assoc]
  rfl

/-- An entry of the larger table is the value of four steps for its byte. -/
private theorem crc32Entry_eq {k : Nat} (hk : k < 4) (i : BitVec 8) :
    crc32Entry crc32InitTables.table k i.toNat = crcShift^[4] (placed i k) := by
  have hi : BitVec.ofNat 32 i.toNat = i.setWidth 32 := BitVec.ofNat_toNat 32 i
  have hplaced : i.setWidth 32 = placed i 0 := (BitVec.shiftLeft_zero _).symm
  have hmove : ∀ (x : Word32) (j : Nat), j ≤ 2 → crcShift x ^^^ placed i j = crcShift (x ^^^ placed i (j + 1)) :=
    fun x j hj => by rw [crcShift_xor (placed_back _ hj), placed_shiftLeft]
  have hstep : ∀ (w : Word32) (j : Nat), crc32InitTables.table.getD
      ((if j = k then w ^^^ BitVec.ofNat 32 i.toNat else w).setWidth 8).toNat 0 ^^^ w >>> 8 =
      crcShift (if j = k then w ^^^ placed i 0 else w) := by
    intro w j
    have hshift : (if j = k then w ^^^ i.setWidth 32 else w) >>> 8 = w >>> 8 := by
      split
      · exact xor_byte_shift w i
      · rfl
    unfold crcShift
    rw [table_low, hi, ← hplaced, hshift]
  unfold crc32Entry
  simp only [hstep]
  have hzero : ∀ j, 0 ^^^ placed i j = placed i j := fun j => BitVec.zero_xor
  rcases (by omega : k = 0 ∨ k = 1 ∨ k = 2 ∨ k = 3) with rfl | rfl | rfl | rfl
  · show crcShift (crcShift (crcShift (crcShift (0 ^^^ placed i 0)))) = _
    rw [hzero]
    rfl
  · show crcShift (crcShift (crcShift (crcShift 0 ^^^ placed i 0))) = _
    rw [hmove _ 0 (by decide), hzero]
    rfl
  · show crcShift (crcShift (crcShift (crcShift 0) ^^^ placed i 0)) = _
    rw [hmove _ 0 (by decide), hmove _ 1 (by decide), hzero]
    rfl
  · show crcShift (crcShift (crcShift (crcShift 0)) ^^^ placed i 0) = _
    rw [hmove _ 0 (by decide), hmove _ 1 (by decide), hmove _ 2 (by decide), hzero]
    rfl

/-- The larger table: behind the entries for the lowest byte, the value at 0 is taken away. -/
private theorem wtable_getElem {k : Nat} (hk : k < 4) (i : BitVec 8) : crc32InitTables.wtable[k * 0x100 + i.toNat]? =
    some (crcShift^[4] (placed i k) ^^^ if k = 0 then 0 else crcShift^[4] 0) := by
  let store : List Word32 → Nat → List Word32 := fun wtable t => wtable.set (t / 0x100 * 0x100 + t % 0x100)
    (crc32Entry crc32InitTables.table (t / 0x100) (t % 0x100) ^^^ if t / 0x100 = 0 then 0 else wtable.getD 0 0)
  have hflat : crc32InitTables.wtable = (List.range (4 * 0x100)).foldl store (List.replicate 0x400 0) := by
    conv_lhs => unfold crc32InitTables
    dsimp only
    rw [foldl_nested]
    rfl
  have hloop : ∀ n ≤ 4 * 0x100, ((List.range n).foldl store (List.replicate 0x400 0)).length = 0x400 ∧
      ∀ t < n, ((List.range n).foldl store (List.replicate 0x400 0))[t]? =
        some (crcShift^[4] (placed (BitVec.ofNat 8 t) (t / 0x100)) ^^^ if t / 0x100 = 0 then 0
          else crcShift^[4] 0) := by
    intro n hn
    induction n with
    | zero => exact ⟨List.length_replicate, fun t ht => absurd ht (Nat.not_lt_zero t)⟩
    | succ n ih =>
      obtain ⟨hlen, hall⟩ := ih (by omega)
      rw [List.range_succ, List.foldl_append]
      generalize (List.range n).foldl store (List.replicate 0x400 0) = wtable at hlen hall
      have hindex : n / 0x100 * 0x100 + n % 0x100 = n := by omega
      have hbyte : n % 0x100 = (BitVec.ofNat 8 n).toNat := (BitVec.toNat_ofNat n 8).symm
      have hstore : store wtable n = wtable.set n
          (crcShift^[4] (placed (BitVec.ofNat 8 n) (n / 0x100)) ^^^ if n / 0x100 = 0 then 0 else crcShift^[4] 0) := by
        show wtable.set _ _ = _
        rw [hindex, hbyte, crc32Entry_eq (by omega)]
        by_cases h0 : n / 0x100 = 0
        · rw [if_pos h0, if_pos h0]
        · have hfirst : wtable.getD 0 0 = crcShift^[4] 0 := by
            rw [List.getD_eq_getElem?_getD, hall 0 (by omega)]
            show crcShift^[4] 0 ^^^ 0#32 = _
            rw [BitVec.xor_zero]
          rw [if_neg h0, if_neg h0, hfirst]
      show (store wtable n).length = _ ∧ ∀ t < n + 1, (store wtable n)[t]? = _
      rw [hstore, List.length_set]
      refine ⟨hlen, fun t ht => ?_⟩
      rcases Nat.lt_or_eq_of_le (Nat.le_of_lt_succ ht) with h | rfl
      · rw [List.getElem?_set_ne (by omega)]
        exact hall t h
      · rw [List.getElem?_set_self (by omega)]
  have hi := i.isLt
  have hdiv : (k * 0x100 + i.toNat) / 0x100 = k := by omega
  have hlow : BitVec.ofNat 8 (k * 0x100 + i.toNat) = i := by
    refine BitVec.eq_of_toNat_eq ?_
    rw [BitVec.toNat_ofNat]
    omega
  rw [hflat, (hloop _ (Nat.le_refl _)).2 _ (by omega), hdiv, hlow]

private theorem crc32Word_eq (crc : Word32) (b0 b1 b2 b3 : UInt8) :
    crc32Word crc32InitTables crc [b0, b1, b2, b3] = some (crcFold crc [b0, b1, b2, b3]) := by
  rw [crcFold_four]
  unfold crc32Word
  dsimp only
  generalize crc ^^^ leWord 32 [b0, b1, b2, b3] = a
  have hentry : ∀ (x : Word32) (k : Nat), k < 4 →
      crc32InitTables.wtable[k * 0x100 + ((a >>> (8 * k)).setWidth 8).toNat]?.map (x ^^^ ·) =
        some (x ^^^ (crcShift^[4] (placed ((a >>> (8 * k)).setWidth 8) k) ^^^ if k = 0 then 0 else crcShift^[4] 0)) :=
    fun x k hk => by rw [wtable_getElem hk]; rfl
  have hrange : List.range 4 = [0, 1, 2, 3] := rfl
  simp only [hrange, List.foldlM_cons, List.foldlM_nil, hentry _ 0 (by decide), hentry _ 1 (by decide),
    hentry _ 2 (by decide), hentry _ 3 (by decide), Option.bind_eq_bind, Option.bind_some]
  have hsum := (crcShift_affine.iterate 4).four (placed (a.setWidth 8) 0) (placed ((a >>> 8).setWidth 8) 1)
    (placed ((a >>> 16).setWidth 8) 2) (placed ((a >>> 24).setWidth 8) 3)
  rw [← word_eq] at hsum
  rw [hsum]
  have hthree : ∀ p0 p1 p2 p3 z : Word32, 0#32 ^^^ (p0 ^^^ 0#32) ^^^ (p1 ^^^ z) ^^^ (p2 ^^^ z) ^^^ (p3 ^^^ z) =
      p0 ^^^ p1 ^^^ p2 ^^^ p3 ^^^ z := by
    intro p0 p1 p2 p3 z
    rw [BitVec.zero_xor, BitVec.xor_zero]
    simp only [BitVec.xor_assoc]
    rw [XorAffine.xor_left_comm z p2, XorAffine.xor_cancel]
  exact congrArg some (hthree _ _ _ _ _)

/-! ### The remaining bytes -/

private theorem table_top {i j : BitVec 8}
    (h : (crc32Byte (i.setWidth 32) ^^^ crc32Byte (j.setWidth 32)) >>> 24 = 0) : i = j := by
  have htop : ∀ d : BitVec 8, (crc32Byte (d.setWidth 32) ^^^ crc32Byte 0) >>> 24 = 0 → d = 0 := by decide
  rw [crc32Byte_affine.sub, ← BitVec.setWidth_xor] at h
  have hz : i ^^^ j = 0#8 := htop _ h
  exact BitVec.xor_eq_zero_iff.1 hz

private theorem crc32Last_some {c r : Word32} {b : UInt8} (h : crc32Last crc32InitTables c b = some r) :
    ∃ i : BitVec 8, i.toNat = (c.setWidth 8).toNat + b.toNat ∧ r = crc32Byte (i.setWidth 32) ^^^ c >>> 8 := by
  unfold crc32Last at h
  have hlt : (c.setWidth 8).toNat + b.toNat < 0x100 := by
    by_contra hle
    have hlen : crc32InitTables.table.length = 0x100 := by
      show ((List.range 0x100).map _).length = _
      rw [List.length_map, List.length_range]
    rw [List.getElem?_eq_none (by omega)] at h
    cases h
  refine ⟨BitVec.ofNat 8 ((c.setWidth 8).toNat + b.toNat), ?_, ?_⟩
  · rw [BitVec.toNat_ofNat, Nat.mod_eq_of_lt hlt]
  · rw [table_getElem _ hlt] at h
    have hindex : BitVec.ofNat 32 ((c.setWidth 8).toNat + b.toNat) =
        (BitVec.ofNat 8 ((c.setWidth 8).toNat + b.toNat)).setWidth 32 := by
      generalize (c.setWidth 8).toNat + b.toNat = n at hlt
      rw [← BitVec.ofNat_toNat, BitVec.toNat_ofNat, Nat.mod_eq_of_lt hlt]
    rw [hindex] at h
    exact (Option.some.inj h).symm

private theorem crcStep_entry (c : Word32) (b : UInt8) :
    crcStep c b = crc32Byte ((c.setWidth 8 ^^^ b.toBitVec).setWidth 32) ^^^ c >>> 8 := by
  have hb : (b.toBitVec.setWidth 32).setWidth 8 = b.toBitVec := by
    rw [BitVec.setWidth_setWidth_of_le _ (by decide), BitVec.setWidth_eq]
  unfold crcStep
  rw [table_low, BitVec.setWidth_xor, hb]

private theorem crc32Last_back {c c' r : Word32} {b : UInt8} {k : Nat} (hk : k ≤ 24)
    (h : crc32Last crc32InitTables c b = some r) (hr : r >>> k = crcStep c' b >>> k) :
    (c.setWidth 8).toNat + b.toNat = (c'.setWidth 8 ^^^ b.toBitVec).toNat ∧ c >>> (8 + k) = c' >>> (8 + k) := by
  obtain ⟨i, hi, rfl⟩ := crc32Last_some h
  rw [crcStep_entry] at hr
  have htop : (crc32Byte (i.setWidth 32) ^^^ crc32Byte ((c'.setWidth 8 ^^^ b.toBitVec).setWidth 32)) >>> 24 = 0 := by
    have h24 := congrArg (fun x : Word32 => x >>> (24 - k)) hr
    rw [← BitVec.shiftRight_add, ← BitVec.shiftRight_add, Nat.add_sub_cancel' hk] at h24
    have hsmall : ∀ x : Word32, x >>> 8 >>> 24 = 0#32 := fun x => by
      rw [← BitVec.shiftRight_add]
      exact BitVec.ushiftRight_eq_zero (by decide)
    rw [BitVec.ushiftRight_xor_distrib, BitVec.ushiftRight_xor_distrib, hsmall, hsmall, BitVec.xor_zero,
      BitVec.xor_zero] at h24
    rw [BitVec.ushiftRight_xor_distrib, h24]
    exact BitVec.xor_self
  obtain rfl := table_top htop
  refine ⟨hi.symm, ?_⟩
  rw [BitVec.ushiftRight_xor_distrib, BitVec.ushiftRight_xor_distrib, BitVec.xor_right_inj, ← BitVec.shiftRight_add,
    ← BitVec.shiftRight_add] at hr
  exact hr

private theorem add_eq_xor_add_and (x y : Nat) : x + y = (x ^^^ y) + 2 * (x &&& y) := by
  induction x using Nat.strong_induction_on generalizing y with
  | _ x ih =>
    by_cases h0 : x = 0
    · subst h0
      rw [Nat.zero_xor, Nat.zero_and]
      omega
    · have hhalf := ih (x / 2) (by omega) (y / 2)
      rw [← Nat.xor_div_two, ← Nat.and_div_two] at hhalf
      have hxor : (x ^^^ y) % 2 = x % 2 ^^^ y % 2 := Nat.xor_mod_two_pow (a := x) (b := y) (n := 1)
      have hand : (x &&& y) % 2 = x % 2 &&& y % 2 := Nat.and_mod_two_pow (a := x) (b := y) (n := 1)
      have hxor' : x % 2 ^^^ y % 2 = (x % 2 + y % 2) % 2 := by
        rcases Nat.mod_two_eq_zero_or_one x with hx | hx <;> rcases Nat.mod_two_eq_zero_or_one y with hy | hy <;>
          rw [hx, hy] <;> rfl
      have hand' : x % 2 &&& y % 2 = (x % 2 + y % 2) / 2 := by
        rcases Nat.mod_two_eq_zero_or_one x with hx | hx <;> rcases Nat.mod_two_eq_zero_or_one y with hy | hy <;>
          rw [hx, hy] <;> rfl
      omega

/-- The two ways to add a byte to the low byte agree exactly if there is no common bit. -/
private theorem add_byte_iff (c : Word32) (b : UInt8) :
    (c.setWidth 8).toNat + b.toNat = (c.setWidth 8 ^^^ b.toBitVec).toNat ↔ c &&& b.toBitVec.setWidth 32 = 0 := by
  have hsum := add_eq_xor_add_and (c.setWidth 8).toNat b.toNat
  have hb : b.toNat = b.toBitVec.toNat := rfl
  rw [BitVec.toNat_xor, ← hb]
  have hand : (c &&& b.toBitVec.setWidth 32).toNat = (c.setWidth 8).toNat &&& b.toNat := by
    have hbits : c &&& b.toBitVec.setWidth 32 = (c.setWidth 8 &&& b.toBitVec).setWidth 32 := by
      refine BitVec.eq_of_getLsbD_eq fun i hi => ?_
      rw [BitVec.getLsbD_and, BitVec.getLsbD_setWidth, BitVec.getLsbD_setWidth, BitVec.getLsbD_and,
        BitVec.getLsbD_setWidth]
      by_cases hlow : i < 8
      · simp [hi, hlow]
      · rw [BitVec.getLsbD_of_ge b.toBitVec i (by omega)]
        simp
    rw [hbits, hb, BitVec.toNat_setWidth_of_le (by decide), BitVec.toNat_and]
  constructor
  · intro h
    refine BitVec.eq_of_toNat_eq (hand.trans ?_)
    show _ = 0
    omega
  · intro h
    rw [h] at hand
    have hz : 0 = (c.setWidth 8).toNat &&& b.toNat := hand
    omega

private theorem crc32Last_iff (c : Word32) (b : UInt8) :
    crc32Last crc32InitTables c b = some (crcStep c b) ↔ c &&& b.toBitVec.setWidth 32 = 0 := by
  rw [← add_byte_iff]
  constructor
  · intro h
    exact (crc32Last_back (Nat.zero_le 24) h rfl).1
  · intro h
    unfold crc32Last
    rw [h, crcStep_entry, table_getElem _ (c.setWidth 8 ^^^ b.toBitVec).isLt, BitVec.ofNat_toNat]
    rfl

def Clear (c : Word32) (data : List UInt8) : Prop :=
  ∀ a x b, data = a ++ x :: b → crcFold c a &&& x.toBitVec.setWidth 32 = 0

private theorem clear_cons {c : Word32} {x : UInt8} {l : List UInt8} :
    Clear c (x :: l) ↔ c &&& x.toBitVec.setWidth 32 = 0 ∧ Clear (crcStep c x) l := by
  constructor
  · intro h
    refine ⟨h [] x l rfl, fun a y b he => ?_⟩
    exact h (x :: a) y b (by rw [he]; rfl)
  · rintro ⟨h0, h⟩ a y b he
    cases a with
    | nil =>
      obtain ⟨rfl, -⟩ := List.cons.inj he
      exact h0
    | cons z a =>
      obtain ⟨rfl, rfl⟩ := List.cons.inj he
      exact h a y b rfl

private theorem last_back {c c' r : Word32} {l : List UInt8} {k : Nat} (hk : 8 * l.length + k ≤ 24)
    (h : l.foldlM (crc32Last crc32InitTables) c = some r) (hr : r >>> k = crcFold c' l >>> k) :
    c >>> (8 * l.length + k) = c' >>> (8 * l.length + k) := by
  induction l generalizing c c' with
  | nil =>
    obtain rfl := Option.some.inj h
    rwa [List.length_nil, Nat.mul_zero, Nat.zero_add]
  | cons x l ih =>
    rw [List.length_cons] at hk ⊢
    rw [List.foldlM_cons] at h
    obtain ⟨d, hd, h⟩ := Option.bind_eq_some_iff.1 h
    have hsame := ih (by omega) h hr
    have hback := (crc32Last_back (by omega) hd hsame).2
    have hsum : 8 * (l.length + 1) + k = 8 + (8 * l.length + k) := by omega
    rwa [hsum]

private theorem last_iff {c : Word32} {l : List UInt8} (hl : l.length ≤ 3) :
    l.foldlM (crc32Last crc32InitTables) c = some (crcFold c l) ↔ Clear c l := by
  induction l generalizing c with
  | nil => exact ⟨fun _ a x b he => absurd he (by simp), fun _ => rfl⟩
  | cons x l ih =>
    rw [List.length_cons] at hl
    rw [clear_cons, ← crc32Last_iff, ← ih (by omega), List.foldlM_cons]
    constructor
    · intro h
      obtain ⟨d, hd, h⟩ := Option.bind_eq_some_iff.1 h
      have hsame : d >>> (8 * l.length + 0) = crcStep c x >>> (8 * l.length + 0) := last_back (by omega) h rfl
      have hindex := (crc32Last_back (by omega) hd hsame).1
      have hstep := (crc32Last_iff c x).2 ((add_byte_iff c x).1 hindex)
      refine ⟨hstep, ?_⟩
      obtain rfl := Option.some.inj (hd.symm.trans hstep)
      exact h
    · rintro ⟨hx, h⟩
      rw [hx]
      exact h

private theorem foldBlocks_crc (c : Word32) {n : Nat} {l : List UInt8} (h : 4 * n ≤ l.length) :
    (foldBlocks 4 (fun crc bytes => crc.bind fun crc => crc32Word crc32InitTables crc bytes) n (some c) l).1 =
      some (crcFold c (l.take (4 * n))) := by
  induction n generalizing c l with
  | zero => rfl
  | succ n ih =>
    obtain ⟨b0, b1, b2, b3, r, rfl⟩ : ∃ b0 b1 b2 b3 r, l = b0 :: b1 :: b2 :: b3 :: r := by
      match l, h with
      | b0 :: b1 :: b2 :: b3 :: r, _ => exact ⟨b0, b1, b2, b3, r, rfl⟩
    have hword :
      foldBlocks 4 (fun crc bytes => crc.bind fun crc => crc32Word crc32InitTables crc bytes) (n + 1) (some c)
        (b0 :: b1 :: b2 :: b3 :: r) = foldBlocks 4
        (fun crc bytes => crc.bind fun crc => crc32Word crc32InitTables crc bytes)
          n (crc32Word crc32InitTables c [b0, b1, b2, b3]) r := rfl
    have htake : (b0 :: b1 :: b2 :: b3 :: r).take (4 * (n + 1)) = [b0, b1, b2, b3] ++ r.take (4 * n) := by
      rw [Nat.mul_succ]
      rfl
    simp only [List.length_cons] at h
    rw [hword, crc32Word_eq, ih _ (by omega), htake]
    unfold crcFold
    rw [List.foldl_append]

def Crc32Tables.Ready (t : Crc32Tables) : Prop := t = Crc32Tables.zero ∨ t = crc32InitTables

private theorem crc32_tables {t : Crc32Tables} (ht : t.Ready) (seed : Word32) (data : List UInt8) :
    (crc32 t seed data).1 = crc32InitTables := by
  show (if t.table.getD 0 0 = 0 then crc32InitTables else t) = _
  rcases ht with rfl | rfl
  · exact if_pos (by decide)
  · exact ite_self _

def TailClear (seed : Word32) (data : List UInt8) : Prop :=
  Clear (crcFold seed (data.take (4 * (data.length / 4)))) (data.drop (4 * (data.length / 4)))

private theorem crc32_iff {t : Crc32Tables} (ht : t.Ready) (seed : Word32) (data : List UInt8) :
    (crc32 t seed data).2 = some (crcFold seed data) ↔ TailClear seed data := by
  have htables := crc32_tables ht seed data
  have hsplit : crcFold seed data =
      crcFold (crcFold seed (data.take (4 * (data.length / 4)))) (data.drop (4 * (data.length / 4))) := by
    unfold crcFold
    rw [← List.foldl_append, List.take_append_drop]
  unfold TailClear
  rw [← last_iff (by rw [List.length_drop]; omega), ← hsplit]
  have htable : (if t.table.getD 0 0 = 0 then crc32InitTables else t) = crc32InitTables := htables
  unfold crc32
  dsimp only
  rw [htable, foldBlocks_crc _ (Nat.mul_div_le _ 4), foldBlocks_snd]
  rfl

/-- For a string and a part of it from the start, and for what follows from the checksum of that part on, `crc32`
returns the fold over the bytes, and the two calls one after the other the same as the one call, exactly if the bytes
that each of the three calls takes one by one have no bit in common with the low byte of the checksum before them. -/
theorem crc32_right_iff {t : Crc32Tables} (ht : t.Ready) (seed : Word32) (a b : List UInt8) :
    ((crc32 t seed a).2 = some (crcFold seed a) ∧ (crc32 t seed (a ++ b)).2 = some (crcFold seed (a ++ b)) ∧
      ((crc32 t seed a).2.bind fun crc => (crc32 (crc32 t seed a).1 crc b).2) = (crc32 t seed (a ++ b)).2) ↔
    TailClear seed a ∧ TailClear seed (a ++ b) ∧ TailClear (crcFold seed a) b := by
  have hready : (crc32 t seed a).1.Ready := Or.inr (crc32_tables ht seed a)
  have hfold : crcFold seed (a ++ b) = crcFold (crcFold seed a) b := List.foldl_append
  rw [crc32_iff ht, crc32_iff ht, ← crc32_iff hready (crcFold seed a) b]
  refine and_congr_right fun ha => and_congr_right fun hab => ?_
  rw [(crc32_iff ht seed a).2 ha, (crc32_iff ht seed (a ++ b)).2 hab, hfold]
  rfl

/-- Strings of whole words. -/
theorem crc32_right_words : (crc32 .zero 0 [1, 2, 3, 4]).2 = some (crcFold 0 [1, 2, 3, 4]) ∧
    (crc32 .zero 0 ([1, 2, 3, 4] ++ [5, 6, 7, 8])).2 = some (crcFold 0 ([1, 2, 3, 4] ++ [5, 6, 7, 8])) ∧
    ((crc32 .zero 0 [1, 2, 3, 4]).2.bind fun crc => (crc32 (crc32 .zero 0 [1, 2, 3, 4]).1 crc [5, 6, 7, 8]).2) =
      (crc32 .zero 0 ([1, 2, 3, 4] ++ [5, 6, 7, 8])).2 := by
  have hnil : ∀ c, Clear c [] := fun c a x b he => absurd he (by simp)
  exact (crc32_right_iff (Or.inl rfl) 0 [1, 2, 3, 4] [5, 6, 7, 8]).2 ⟨hnil _, hnil _, hnil _⟩

/-- For the checksum 255 and the byte 1 the index is behind the table. -/
theorem not_crc32_right : ¬∀ (seed : Word32) (data : List UInt8),
    (crc32 .zero seed data).2 = some (crcFold seed data) := by
  intro h
  have hnone : (crc32 .zero 0xff [1]).2 = none := by decide
  have hsome := h 0xff [1]
  rw [hnone] at hsome
  cases hsome

end Pml.Util
