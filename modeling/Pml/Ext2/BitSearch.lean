import Mathlib.Data.List.Find
import Pml.Ext2.Bitmap

/-!
# The searches in a bit array (`drivers/fs/ext2/bitarray.c`)

`ext2_bitarray_find_first_zero` and `ext2_bitarray_find_first_set` go bit by bit up to a byte boundary, byte by byte
up to an aligned address, word by word and byte by byte as long as there is nothing to find, and then bit by bit.
Both find the first bit of the range, wherever the array lies (`findFirst_linear`).  The search for a set bit is the
search for a zero bit in the complement of the array.
-/

namespace Pml.Ext2

open ByteMemory

/-- The members of `struct ext2_bitmap64` that `bitarray.c` uses, and the address of the array.  The numbers have 64
bits, and an array fills no more than half of the address space of the machine. -/
structure BitArray where
  start : Nat
  realEnd : Nat
  addr : Nat
  bits : Mem
  ordered : start ≤ realEnd
  wide : realEnd < 2 ^ 64
  small : (realEnd - start) / 8 + 1 ≤ 2 ^ 47

def BitArray.bit (b : BitArray) (i : Nat) : Bool := testBit b.bits (i - b.start) != 0

/-! ### `ext2_bitarray_find_first_set` -/

/-- The first loop, up to a byte boundary. -/
def toByteSet (m : Mem) : Nat → Nat → Except Nat (Nat × Nat)
  | bitpos, 0 => .ok (bitpos, 0)
  | bitpos, count + 1 =>
    if bitpos &&& 7 = 0 then .ok (bitpos, count + 1)
    else if testBit m bitpos ≠ 0 then .error bitpos
    else toByteSet m (bitpos + 1) count

/-- The loop over bytes up to an aligned address, with at most `k` bytes. -/
def toWordSet (m : Mem) (addr pos : Nat) : Nat → Bool × Nat
  | 0 => (false, 0)
  | k + 1 =>
    if (addr + pos) &&& 7 = 0 then (false, 0)
    else if m pos ≠ 0 then (true, 0)
    else
      let r := toWordSet m addr (pos + 1) k
      (r.1, r.2 + 1)

def emptyWords (m : Mem) (pos : Nat) : Nat → Nat
  | 0 => 0
  | i + 1 => if readLE m pos 8 ≠ 0 then 0 else emptyWords m (pos + 8) i + 1

def emptyBytes (m : Mem) (pos : Nat) : Nat → Nat
  | 0 => 0
  | i + 1 => if m pos ≠ 0 then 0 else emptyBytes m (pos + 1) i + 1

def firstSetBit (m : Mem) (bitpos count : Nat) : Option Nat :=
  (List.range' bitpos count).find? fun i => testBit m i != 0

/-- `ext2_bitarray_find_first_set` from `bitpos` on; the array is at the address `addr`. -/
def bitarrayFindSet (m : Mem) (addr bitpos count : Nat) : Option Nat :=
  match toByteSet m bitpos count with
  | .error i => some i
  | .ok (_, 0) => none
  | .ok (bitpos, count) =>
    let r := toWordSet m addr (bitpos >>> 3) (count / 8)
    let count := count - 8 * r.2
    let bitpos := bitpos + 8 * r.2
    if r.1 then firstSetBit m bitpos count
    else
      let words := emptyWords m (bitpos >>> 3) (count >>> 6)
      let count := count - 64 * words
      let bitpos := bitpos + 64 * words
      let bytes := emptyBytes m (bitpos >>> 3) (count >>> 3)
      firstSetBit m (bitpos + 8 * bytes) (count - 8 * bytes)

/-- What both functions do with the position that the search from `start - bmap->start` on finds. -/
def searchRange (search : Mem → Nat → Nat → Nat → Option Nat) (b : BitArray) (start stop : Nat) : Except Errno Nat :=
  match search b.bits b.addr (sub64 start b.start) (add64 (sub64 stop start) 1) with
  | some i => .ok (add64 i b.start)
  | none => .error .ENOENT

def bitarrayFindFirstZero : BitArray → Nat → Nat → Except Errno Nat := searchRange bitarrayFindZero

def bitarrayFindFirstSet : BitArray → Nat → Nat → Except Errno Nat := searchRange bitarrayFindSet

/-! ### The complement of an array -/

def complement (m : Mem) : Mem := fun x => ~~~m x

private theorem complement_eq_iff (m : Mem) (x : Nat) : complement m x = 0xff ↔ m x = 0 := by
  unfold complement
  rw [← UInt8.toNat_inj, ← UInt8.toNat_inj, UInt8.toNat_not]
  have hlt := (m x).toNat_lt
  change UInt8.size - 1 - (m x).toNat = 255 ↔ (m x).toNat = 0
  rw [show UInt8.size = 256 from rfl]
  omega

private theorem testBit_complement (m : Mem) (i : Nat) : testBit (complement m) i = 0 ↔ testBit m i ≠ 0 := by
  rw [Ne, testBit_eq_zero_iff, testBit_eq_zero_iff]
  unfold complement
  rw [UInt8.toBitVec_not, BitVec.getLsbD_not, decide_eq_true (Nat.mod_lt i (by decide))]
  simp

private theorem readLE_complement (m : Mem) (a n : Nat) : readLE (complement m) a n + readLE m a n = 256 ^ n - 1 := by
  induction n generalizing a with
  | zero => rfl
  | succ n ih =>
    have hrest := ih (a + 1)
    have hpow : 0 < 256 ^ n := Nat.pow_pos (by decide)
    have hlt := (m a).toNat_lt
    have hbyte : (complement m a).toNat = 255 - (m a).toNat := UInt8.toNat_not (m a)
    rw [readLE, readLE, Nat.pow_succ, hbyte]
    omega

private theorem toByteSet_eq (m : Mem) (bitpos count : Nat) :
    toByteSet m bitpos count = toByte (complement m) bitpos count := by
  induction count generalizing bitpos with
  | zero => rfl
  | succ count ih =>
    rw [toByteSet, toByte, ih]
    simp only [testBit_complement]

private theorem toWordSet_eq (m : Mem) (addr pos k : Nat) :
    toWordSet m addr pos k = toWord (complement m) addr pos k := by
  induction k generalizing pos with
  | zero => rfl
  | succ k ih =>
    rw [toWordSet, toWord, ih]
    simp only [ne_eq, complement_eq_iff]

private theorem emptyWords_eq (m : Mem) (pos k : Nat) : emptyWords m pos k = fullWords (complement m) pos k := by
  induction k generalizing pos with
  | zero => rfl
  | succ k ih =>
    have hword := readLE_complement m pos 8
    have hlt := readLE_lt m pos 8
    rw [emptyWords, fullWords, ih]
    exact if_congr (by omega) rfl rfl

private theorem emptyBytes_eq (m : Mem) (pos k : Nat) : emptyBytes m pos k = fullBytes (complement m) pos k := by
  induction k generalizing pos with
  | zero => rfl
  | succ k ih =>
    rw [emptyBytes, fullBytes, ih]
    simp only [ne_eq, complement_eq_iff]

private theorem firstSetBit_eq (m : Mem) (bitpos count : Nat) :
    firstSetBit m bitpos count = zeroBit (complement m) bitpos count := by
  unfold firstSetBit zeroBit
  congr 1
  funext i
  rw [Bool.eq_iff_iff, bne_iff_ne, beq_iff_eq, testBit_complement]

private theorem bitarrayFindSet_eq (m : Mem) (addr bitpos count : Nat) :
    bitarrayFindSet m addr bitpos count = firstSetBit m bitpos count := by
  rw [firstSetBit_eq, ← bitarrayFindZero_eq (complement m) addr]
  unfold bitarrayFindSet bitarrayFindZero
  rw [toByteSet_eq]
  rcases toByte (complement m) bitpos count with i | ⟨p, _ | c⟩
  · rfl
  · rfl
  · simp only [toWordSet_eq, emptyWords_eq, emptyBytes_eq, firstSetBit_eq]

/-! ### The linear search -/

/-- The search finds the first bit of the range with the value, and `ENOENT` if there is none; bits outside of the
range and the address of the array do not matter. -/
structure FindsFirst (find : BitArray → Nat → Nat → Except Errno Nat) (v : Bool) (b : BitArray) (start stop : Nat) :
    Prop where
  found : ∀ i, find b start stop = .ok i ↔
    start ≤ i ∧ i ≤ stop ∧ b.bit i = v ∧ ∀ j, start ≤ j → j < i → b.bit j ≠ v
  absent : find b start stop = .error .ENOENT ↔ ∀ i, start ≤ i → i ≤ stop → b.bit i ≠ v
  range : ∀ b' : BitArray, b'.start = b.start → b'.realEnd = b.realEnd →
    (∀ i, start ≤ i → i ≤ stop → b'.bit i = b.bit i) → find b' start stop = find b start stop

private theorem searchRange_eq {search : Mem → Nat → Nat → Nat → Option Nat} {b : BitArray} {start stop : Nat}
    (h1 : b.start ≤ start) (h2 : start ≤ stop) (h3 : stop ≤ b.realEnd) :
    searchRange search b start stop =
      match search b.bits b.addr (start - b.start) (stop - start + 1) with
      | some i => .ok (add64 i b.start)
      | none => .error .ENOENT := by
  have hwide := b.wide
  have hsmall := b.small
  have hpos : sub64 start b.start = start - b.start := by
    unfold sub64
    omega
  have hcount : add64 (sub64 stop start) 1 = stop - start + 1 := by
    unfold add64 sub64
    omega
  rw [searchRange, hpos, hcount]

/-- A search that is a linear one on positions finds the first bit with the value. -/
private theorem findsFirst_of_linear {search : Mem → Nat → Nat → Nat → Option Nat} {p : Mem → Nat → Bool} {v : Bool}
    (hs : ∀ m addr bitpos count, search m addr bitpos count = (List.range' bitpos count).find? (p m))
    (hp : ∀ (b : BitArray) i, p b.bits (i - b.start) = true ↔ b.bit i = v) {b : BitArray} {start stop : Nat}
    (h1 : b.start ≤ start) (h2 : start ≤ stop) (h3 : stop ≤ b.realEnd) :
    FindsFirst (searchRange search) v b start stop := by
  have hwide := b.wide
  have hp' : ∀ n, p b.bits n = true ↔ b.bit (n + b.start) = v := by
    intro n
    rw [← hp, Nat.add_sub_cancel]
  have hadd : ∀ n ≤ stop - b.start, add64 n b.start = n + b.start := by
    intro n hn
    unfold add64
    omega
  have heq : searchRange search b start stop = _ := searchRange_eq h1 h2 h3
  rw [hs] at heq
  have hrange : ∀ b' : BitArray, b'.start = b.start → b'.realEnd = b.realEnd →
      (∀ i, start ≤ i → i ≤ stop → b'.bit i = b.bit i) →
      searchRange search b' start stop = searchRange search b start stop := by
    intro b' hstart hend hbits
    have heq' : searchRange search b' start stop = _ :=
      searchRange_eq (by rw [hstart]; exact h1) h2 (by rw [hend]; exact h3)
    rw [heq', heq, hs, hstart]
    have hcongr : (List.range' (start - b.start) (stop - start + 1)).find? (p b'.bits) =
        (List.range' (start - b.start) (stop - start + 1)).find? (p b.bits) := by
      refine List.find?_congr fun n hn => ?_
      rw [List.mem_range'_1] at hn
      rw [Bool.eq_iff_iff, hp', ← hbits _ (by omega) (by omega), ← hp, hstart, Nat.add_sub_cancel]
    rw [hcongr]
  cases hf : (List.range' (start - b.start) (stop - start + 1)).find? (p b.bits) with
  | some k =>
    rw [hf] at heq
    obtain ⟨hk, hmem, hfirst⟩ := List.find?_range'_eq_some.1 hf
    rw [List.mem_range'_1] at hmem
    rw [hp'] at hk
    dsimp only at heq
    rw [hadd k (by omega)] at heq
    have hbefore : ∀ j, start ≤ j → j < k + b.start → b.bit j ≠ v := by
      intro j hj1 hj2 hj
      have hn := hfirst (j - b.start) (by omega) (by omega)
      rw [(hp b j).2 hj] at hn
      cases hn
    refine ⟨fun i => ?_, ?_, hrange⟩
    · rw [heq]
      constructor
      · intro h
        obtain rfl := Except.ok.inj h
        exact ⟨by omega, by omega, hk, hbefore⟩
      · rintro ⟨hi1, hi2, hi, hleast⟩
        rcases Nat.lt_trichotomy i (k + b.start) with hlt | he | hlt
        · exact absurd hi (hbefore i hi1 hlt)
        · rw [he]
        · exact absurd hk (hleast _ (by omega) hlt)
    · rw [heq]
      exact ⟨fun h => (by cases h), fun h => absurd hk (h _ (by omega) (by omega))⟩
  | none =>
    rw [hf] at heq
    have hnone : ∀ i, start ≤ i → i ≤ stop → b.bit i ≠ v := by
      intro i hi1 hi2 hi
      have hn := List.find?_range'_eq_none.1 hf (i - b.start) (by omega) (by omega)
      rw [(hp b i).2 hi] at hn
      cases hn
    refine ⟨fun i => ?_, ?_, hrange⟩
    · rw [heq]
      exact ⟨fun h => (by cases h), fun h => absurd h.2.2.1 (hnone i h.1 h.2.1)⟩
    · rw [heq]
      exact ⟨fun _ => hnone, fun _ => rfl⟩

/-- Both searches are linear searches, for every array at every address and every range in it. -/
theorem findFirst_linear (b : BitArray) {start stop : Nat} (h1 : b.start ≤ start) (h2 : start ≤ stop)
    (h3 : stop ≤ b.realEnd) :
    FindsFirst bitarrayFindFirstZero false b start stop ∧ FindsFirst bitarrayFindFirstSet true b start stop := by
  have hzero : ∀ m addr bitpos count, bitarrayFindZero m addr bitpos count =
      (List.range' bitpos count).find? fun i => testBit m i == 0 := bitarrayFindZero_eq
  have hset : ∀ m addr bitpos count, bitarrayFindSet m addr bitpos count =
      (List.range' bitpos count).find? fun i => testBit m i != 0 := bitarrayFindSet_eq
  constructor
  · rw [bitarrayFindFirstZero]
    refine findsFirst_of_linear hzero (fun b i => ?_) h1 h2 h3
    rw [BitArray.bit, beq_iff_eq, bne_eq_false_iff_eq]
  · rw [bitarrayFindFirstSet]
    refine findsFirst_of_linear hset (fun b i => ?_) h1 h2 h3
    rw [BitArray.bit]

def smallArray : BitArray :=
  ⟨8, 207, 4099, setBit (setBit (fun _ => 0) 5) 150, by decide, by decide, by decide⟩

theorem findFirst_linear_small : bitarrayFindFirstZero smallArray 13 207 = .ok 14 ∧
    bitarrayFindFirstSet smallArray 14 207 = .ok 158 := by
  have hzero := (findFirst_linear smallArray (show 8 ≤ 13 by decide) (show 13 ≤ 207 by decide) (by decide)).1
  have hset := (findFirst_linear smallArray (show 8 ≤ 14 by decide) (show 14 ≤ 207 by decide) (by decide)).2
  have hbits : ∀ j < 158, 14 ≤ j → smallArray.bit j = false := by decide
  have htrue : smallArray.bit 13 = true ∧ smallArray.bit 158 = true := by decide
  constructor
  · refine (hzero.found 14).2 ⟨by decide, by decide, hbits 14 (by decide) (by decide), fun j h1 h2 => ?_⟩
    rw [show j = 13 by omega, htrue.1]
    decide
  · refine (hset.found 158).2 ⟨by decide, by decide, htrue.2, fun j h1 h2 => ?_⟩
    rw [hbits j h2 h1]
    decide

end Pml.Ext2
