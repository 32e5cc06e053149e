import Mathlib.Data.List.Range
import Pml.Lib.Words
import Pml.Util.Crc32
import Pml.Util.SipHash

/-!
# Searching strings (`util/memchr.c`, `util/strchr.c`)

`memchr`, `memrchr` and `strchr` look at single bytes up to an aligned address, then at words of 8 bytes as long as
`LONG_CHAR` or `LONG_NULL` finds nothing in them, and then at single bytes again.  `memrchr` goes down, and its words
end at an aligned address.  Memory is a function of 64-bit addresses, which wrap around.  The loops of `strchr` have
no bound, so they take one here and are undefined when it is not enough.

A word in which nothing is found has no byte that is looked for (`longChar_eq_zero_iff`), so that the three functions
find what a search byte by byte finds (`string_search`).
-/

namespace Pml.Util

open Words

abbrev Bytes : Type := Word64 → UInt8

def addrAt (d s : Word64) (i : Nat) : Word64 := s + BitVec.ofNat 64 i * d

/-! ### The code -/

/-- `ALIGNED (s, sizeof (long))` -/
def isAligned (s : Word64) : Bool := s &&& 7 == 0

def longNull (x : Word64) : Word64 := (x - 0x0101010101010101) &&& ~~~x &&& 0x8080808080808080

def longChar (x c : Word64) : Word64 := longNull (x ^^^ c)

def loadLong (mem : Bytes) (a : Word64) : Word64 := leWord 64 ((List.range 8).map fun i => mem (addrAt 1 a i))

section

variable (mem : Bytes) (ch : UInt8) (d : Word64)

/-- The first loop of `memchr` and `memrchr`: it returns or goes on at an address with a remaining length. -/
def scanHead : Nat → Word64 → Except (Option Word64) (Word64 × Nat)
  | 0, s => if isAligned s then .ok (s, 0) else .error none
  | len + 1, s =>
    if isAligned s then .ok (s, len + 1)
    else if mem s = ch then .error (some s)
    else scanHead len (s + d)

def scanWords (mask : Word64) : Nat → Word64 → Word64 × Nat
  | len + 8, a => if longChar (loadLong mem a) mask ≠ 0 then (a, len + 8) else scanWords mask len (a + 8 * d)
  | len, a => (a, len)

def scanTail : Nat → Word64 → Option Word64
  | 0, _ => none
  | len + 1, s => if mem s = ch then some s else scanTail len (s + d)

end

/-- `mask` in `memchr` and `memrchr`. -/
def charMask (ch : UInt8) : Word64 :=
  let ch := ch.toBitVec.setWidth 64
  let mask := ch <<< 8 ||| ch
  let mask := mask <<< 16 ||| mask
  mask <<< 32 ||| mask

def memchr (mem : Bytes) (ptr : Word64) (c : Word32) (len : Nat) : Option Word64 :=
  let ch := UInt8.ofBitVec (c.setWidth 8)
  match scanHead mem ch 1 len ptr with
  | .error r => r
  | .ok (s, len) =>
    let (s, len) := if 8 ≤ len then scanWords mem 1 (charMask ch) len s else (s, len)
    scanTail mem ch 1 len s

def memrchr (mem : Bytes) (ptr : Word64) (c : Word32) (len : Nat) : Option Word64 :=
  let s := ptr + BitVec.ofNat 64 len - 1
  let ch := UInt8.ofBitVec (c.setWidth 8)
  match scanHead mem ch (-1) len s with
  | .error r => r
  | .ok (s, len) =>
    let (s, len) :=
      if 8 ≤ len then
        let (aligned, len) := scanWords mem (-1) (charMask ch) len (s - 8 + 1)
        (aligned + 8 - 1, len)
      else (s, len)
    scanTail mem ch (-1) len s

section

variable (mem : Bytes)

/-- The first loop of `strchr`, in which `test` says what is returned at an address. -/
def headLoop (test : Word64 → Option (Option Word64)) : Nat → Word64 → Option (Except (Option Word64) Word64)
  | 0, _ => none
  | n + 1, s =>
    if isAligned s then some (.ok s)
    else match test s with
      | some r => some (.error r)
      | none => headLoop test n (s + 1)

/-- The second loop, which ends at a word at which `stop` holds. -/
def wordLoop (stop : Word64 → Bool) : Nat → Word64 → Option Word64
  | 0, _ => none
  | n + 1, a => if stop (loadLong mem a) then some a else wordLoop stop n (a + 8)

/-- The third loop, which ends at a byte at which `stop` holds. -/
def byteLoop (stop : UInt8 → Bool) : Nat → Word64 → Option Word64
  | 0, _ => none
  | n + 1, s => if stop (mem s) then some s else byteLoop stop n (s + 1)

def nulTest (s : Word64) : Option (Option Word64) := if mem s = 0 then some (some s) else none

def charTest (ch : UInt8) (s : Word64) : Option (Option Word64) :=
  if mem s = 0 then some none else if mem s = ch then some (some s) else none

def strMask (ch : UInt8) : Word64 := [8, 16, 32].foldl (fun mask i => mask <<< i ||| mask) (ch.toBitVec.setWidth 64)

/-- `strchr`, with a bound on the rounds of each loop. -/
def strchr (n : Nat) (str : Word64) (c : Word32) : Option (Option Word64) :=
  let ch := UInt8.ofBitVec (c.setWidth 8)
  if ch = 0 then
    (headLoop (nulTest mem) n str).bind fun
      | .error r => some r
      | .ok s =>
        (wordLoop mem (fun x => longNull x != 0) n s).bind fun aligned =>
          (byteLoop mem (fun b => b == 0) n aligned).bind fun s => some (some s)
  else
    (headLoop (charTest mem ch) n str).bind fun
      | .error r => some r
      | .ok s =>
        (wordLoop mem (fun x => longNull x != 0 || longChar x (strMask ch) != 0) n s).bind fun aligned =>
          (byteLoop mem (fun b => b == 0 || b == ch) n aligned).bind fun s =>
            some (if mem s = ch then some s else none)

end

/-! ### Byte by byte -/

def firstByte (mem : Bytes) (ptr : Word64) (ch : UInt8) (len : Nat) : Option Word64 :=
  ((List.range len).find? fun i => mem (addrAt 1 ptr i) == ch).map (addrAt 1 ptr)

def lastByte (mem : Bytes) (ptr : Word64) (ch : UInt8) (len : Nat) : Option Word64 :=
  ((List.range len).reverse.find? fun i => mem (addrAt 1 ptr i) == ch).map (addrAt 1 ptr)

/-- The first byte of a string that is `ch`, with a bound on the length. -/
def findInString (mem : Bytes) (ch : UInt8) : Nat → Word64 → Option (Option Word64)
  | 0, _ => none
  | n + 1, s => if mem s = ch then some (some s) else if mem s = 0 then some none else findInString mem ch n (s + 1)

/-! ### Words -/

private theorem addrAt_zero (d s : Word64) : addrAt d s 0 = s := by simp [addrAt]

private theorem addrAt_up (s : Word64) (i : Nat) : addrAt 1 s i = s + BitVec.ofNat 64 i :=
  congrArg (s + ·) (BitVec.mul_one _)

private theorem addrAt_add (d s : Word64) (i j : Nat) : addrAt d (addrAt d s i) j = addrAt d s (i + j) := by
  unfold addrAt
  rw [BitVec.ofNat_add, BitVec.add_mul, BitVec.add_assoc]

private theorem addrAt_step (d s : Word64) (i : Nat) : addrAt d (s + d) i = addrAt d s (i + 1) := by
  have hone : s + d = addrAt d s 1 := by
    unfold addrAt
    rw [BitVec.one_mul]
  rw [hone, addrAt_add, Nat.add_comm]

theorem longNull_eq_zero_iff {l : List UInt8} (hl : l.length = 8) : longNull (leWord 64 l) = 0 ↔ ∀ b ∈ l, b ≠ 0 := by
  have hones : leWord 64 (List.replicate 8 1) = 0x0101010101010101 := by decide
  have hhigh : leWord 64 (List.replicate 8 0x80) = 0x8080808080808080 := by decide
  have h := zeroByte_iff hl
  rw [hones, hhigh] at h
  exact h

private theorem longChar_eq_zero_iff (mem : Bytes) (a : Word64) (ch : UInt8) :
    longChar (loadLong mem a) (leWord 64 (List.replicate 8 ch)) = 0 ↔ ∀ i < 8, mem (addrAt 1 a i) ≠ ch := by
  have hxor : loadLong mem a ^^^ leWord 64 (List.replicate 8 ch) =
      leWord 64 ((List.range 8).map fun i => mem (addrAt 1 a i) ^^^ ch) := leWord_xor rfl
  unfold longChar
  rw [hxor, longNull_eq_zero_iff rfl, List.forall_mem_map]
  refine forall_congr' fun i => ?_
  rw [List.mem_range, ne_eq, UInt8.xor_eq_zero_iff]

private theorem longNull_loadLong (mem : Bytes) (a : Word64) : longNull (loadLong mem a) = 0 ↔ ∀ i < 8,
    mem (addrAt 1 a i) ≠ 0 := by
  unfold loadLong
  rw [longNull_eq_zero_iff rfl, List.forall_mem_map]
  simp only [List.mem_range]

private theorem charMask_eq (ch : UInt8) : charMask ch = leWord 64 (List.replicate 8 ch) := by
  have h1 : leWord 64 (List.replicate 1 ch) = ch.toBitVec.setWidth 64 := leWord_singleton ch
  have h2 := leWord_double (w := 64) ch 1
  have h4 := leWord_double (w := 64) ch 2
  have h8 := leWord_double (w := 64) ch 4
  unfold charMask
  dsimp only
  rw [← h1, h2, h4, h8]

private theorem strMask_eq (ch : UInt8) : strMask ch = leWord 64 (List.replicate 8 ch) := charMask_eq ch

/-! ### Bounded searches -/

section

variable {mem : Bytes} {ch : UInt8} {d : Word64}

private theorem scanTail_succ (len : Nat) (s : Word64) :
    scanTail mem ch d (len + 1) s = if mem s = ch then some s else scanTail mem ch d len (s + d) := rfl

private theorem scanTail_skip {n : Nat} {s : Word64} (h : ∀ i < n, mem (addrAt d s i) ≠ ch) (len : Nat) :
    scanTail mem ch d (len + n) s = scanTail mem ch d len (addrAt d s n) := by
  induction n generalizing s with
  | zero => rw [addrAt_zero, Nat.add_zero]
  | succ n ih =>
    have hfirst := h 0 (by omega)
    rw [addrAt_zero] at hfirst
    rw [← Nat.add_assoc, scanTail_succ, if_neg hfirst,
      ih fun i hi => by rw [addrAt_step]; exact h (i + 1) (by omega), addrAt_step]

variable (mem ch d) in
private theorem scanHead_spec (len : Nat) (s : Word64) :
    match scanHead mem ch d len s with
    | .error r => scanTail mem ch d len s = r
    | .ok (s', len') => scanTail mem ch d len s = scanTail mem ch d len' s' := by
  induction len generalizing s with
  | zero =>
    unfold scanHead
    by_cases ha : isAligned s
    · rw [if_pos ha]
    · rw [if_neg ha]
      rfl
  | succ len ih =>
    unfold scanHead
    by_cases ha : isAligned s
    · rw [if_pos ha]
    · rw [if_neg ha, scanTail_succ]
      by_cases hm : mem s = ch
      · rw [if_pos hm, if_pos hm]
      · rw [if_neg hm, if_neg hm]
        exact ih (s + d)

variable (mem ch) in
/-- The words that are passed contain no `ch`, where `e` is the distance from the address of a word to the byte that
is looked at first. -/
private theorem scanWords_spec {e : Word64} (hcover : ∀ a, ∀ i < 8, ∃ k < 8, addrAt d (a + e) i = addrAt 1 a k)
    (len : Nat) (a : Word64) :
    scanTail mem ch d len (a + e) =
      scanTail mem ch d (scanWords mem d (charMask ch) len a).2 ((scanWords mem d (charMask ch) len a).1 + e) := by
  induction len using Nat.strong_induction_on generalizing a with
  | _ len ih =>
    by_cases hlen : 8 ≤ len
    · obtain ⟨rest, rfl⟩ := Nat.exists_eq_add_of_le' hlen
      unfold scanWords
      by_cases hstop : longChar (loadLong mem a) (charMask ch) ≠ 0
      · rw [if_pos hstop]
      · rw [if_neg hstop, ← ih rest (by omega)]
        rw [not_not, charMask_eq, longChar_eq_zero_iff] at hstop
        have hnone : ∀ i < 8, mem (addrAt d (a + e) i) ≠ ch := by
          intro i hi
          obtain ⟨k, hk, heq⟩ := hcover a i hi
          rw [heq]
          exact hstop k hk
        have hnext : addrAt d (a + e) 8 = a + 8 * d + e := by
          unfold addrAt
          rw [BitVec.add_assoc, BitVec.add_comm e, ← BitVec.add_assoc]
          rfl
        rw [scanTail_skip hnone, hnext]
    · have hend : scanWords mem d (charMask ch) len a = (a, len) := by
        match len, hlen with
        | 0, _ | 1, _ | 2, _ | 3, _ | 4, _ | 5, _ | 6, _ | 7, _ => rfl
        | _ + 8, h => exact absurd (Nat.le_add_left 8 _) h
      rw [hend]

end

private theorem scanTail_up (mem : Bytes) (ch : UInt8) (len : Nat) (s : Word64) :
    scanTail mem ch 1 len s = firstByte mem s ch len := by
  unfold firstByte
  induction len generalizing s with
  | zero => rfl
  | succ len ih =>
    rw [scanTail_succ, List.range_succ_eq_map, List.find?_cons, addrAt_zero]
    by_cases hm : mem s = ch
    · rw [if_pos hm, beq_iff_eq.2 hm, Option.map_some, addrAt_zero]
    · rw [if_neg hm, beq_eq_false_iff_ne.2 hm, ih, List.find?_map, Option.map_map]
      congr 1
      · funext i
        exact addrAt_step 1 s i
      · congr 1
        funext i
        rw [addrAt_step]
        rfl

private theorem scanTail_down (mem : Bytes) (ch : UInt8) (len : Nat) (ptr : Word64) :
    scanTail mem ch (-1) len (ptr + BitVec.ofNat 64 len - 1) = lastByte mem ptr ch len := by
  unfold lastByte
  induction len with
  | zero => rfl
  | succ len ih =>
    have hlast : ptr + BitVec.ofNat 64 (len + 1) - 1 = addrAt 1 ptr len := by
      rw [addrAt_up, BitVec.ofNat_add, ← BitVec.add_assoc]
      exact BitVec.add_sub_cancel _ _
    have hnext : addrAt 1 ptr len + -1 = ptr + BitVec.ofNat 64 len - 1 := by
      rw [addrAt_up]
      exact (BitVec.sub_eq_add_neg _ _).symm
    rw [scanTail_succ, List.range_succ, List.reverse_append, List.reverse_singleton, List.singleton_append,
      List.find?_cons, hlast, hnext, ih]
    by_cases hm : mem (addrAt 1 ptr len) = ch
    · rw [if_pos hm, beq_iff_eq.2 hm, Option.map_some]
    · rw [if_neg hm, beq_eq_false_iff_ne.2 hm]

private theorem memchr_eq (mem : Bytes) (ptr : Word64) (c : Word32) (len : Nat) :
    memchr mem ptr c len = firstByte mem ptr (UInt8.ofBitVec (c.setWidth 8)) len := by
  have hhead := scanHead_spec mem (UInt8.ofBitVec (c.setWidth 8)) 1 len ptr
  rw [← scanTail_up]
  unfold memchr
  dsimp only
  generalize UInt8.ofBitVec (c.setWidth 8) = ch at *
  cases hs : scanHead mem ch 1 len ptr with
  | error r =>
    rw [hs] at hhead
    exact hhead.symm
  | ok p =>
    obtain ⟨s, rest⟩ := p
    rw [hs] at hhead
    rw [hhead]
    dsimp only
    by_cases hwords : 8 ≤ rest
    · have hcover : ∀ a, ∀ i < 8, ∃ k < 8, addrAt 1 (a + 0#64) i = addrAt 1 a k :=
        fun a i hi => ⟨i, hi, by rw [BitVec.add_zero]⟩
      have h := scanWords_spec mem ch hcover rest s
      rw [BitVec.add_zero, BitVec.add_zero] at h
      rw [if_pos hwords, h]
    · rw [if_neg hwords]

private theorem memrchr_eq (mem : Bytes) (ptr : Word64) (c : Word32) (len : Nat) :
    memrchr mem ptr c len = lastByte mem ptr (UInt8.ofBitVec (c.setWidth 8)) len := by
  have hhead := scanHead_spec mem (UInt8.ofBitVec (c.setWidth 8)) (-1) len (ptr + BitVec.ofNat 64 len - 1)
  rw [← scanTail_down]
  unfold memrchr
  dsimp only
  generalize UInt8.ofBitVec (c.setWidth 8) = ch at *
  cases hs : scanHead mem ch (-1) len (ptr + BitVec.ofNat 64 len - 1) with
  | error r =>
    rw [hs] at hhead
    exact hhead.symm
  | ok p =>
    obtain ⟨s, rest⟩ := p
    rw [hs] at hhead
    rw [hhead]
    dsimp only
    by_cases hwords : 8 ≤ rest
    · have hcover : ∀ a, ∀ i < 8, ∃ k < 8, addrAt (-1) (a + 7#64) i = addrAt 1 a k := by
        intro a i hi
        refine ⟨7 - i, by omega, ?_⟩
        unfold addrAt
        rw [BitVec.add_assoc]
        congr 1
        match i, hi with
        | 0, _ | 1, _ | 2, _ | 3, _ | 4, _ | 5, _ | 6, _ | 7, _ => rfl
      have hstart : s - 8 + 1 + 7#64 = s := by
        rw [BitVec.add_assoc]
        exact BitVec.sub_add_cancel s 8
      have hend : ∀ a : Word64, a + 8 - 1 = a + 7#64 := by
        intro a
        have hsplit : a + 8 = a + 7#64 + 1 := (BitVec.add_assoc a 7 1).symm
        rw [hsplit]
        exact BitVec.add_sub_cancel _ _
      rw [if_pos hwords]
      dsimp only
      rw [hend, ← scanWords_spec mem ch hcover, hstart]
    · rw [if_neg hwords]

/-! ### Strings -/

section

variable {mem : Bytes} {test : Word64 → Option (Option Word64)}

def Passed (test : Word64 → Option (Option Word64)) (s : Word64) (k : Nat) : Prop :=
  ∀ j < k, test (addrAt 1 s j) = none

def EndsAt (test : Word64 → Option (Option Word64)) (s : Word64) (i : Nat) (r : Option Word64) : Prop :=
  Passed test s i ∧ test (addrAt 1 s i) = some r

theorem Passed.add {s : Word64} {k l : Nat} (hk : Passed test s k) (hl : Passed test (addrAt 1 s k) l) :
    Passed test s (k + l) := by
  intro j hj
  by_cases hjk : j < k
  · exact hk j hjk
  · have h := hl (j - k) (by omega)
    rw [addrAt_add, Nat.add_sub_cancel' (by omega)] at h
    exact h

theorem Passed.ends {s : Word64} {k i : Nat} {r : Option Word64} (hk : Passed test s k)
    (hi : EndsAt test (addrAt 1 s k) i r) : EndsAt test s (k + i) r := by
  refine ⟨hk.add hi.1, ?_⟩
  rw [← addrAt_add]
  exact hi.2

theorem EndsAt.drop {s : Word64} {k i : Nat} {r : Option Word64} (hi : EndsAt test s i r) (hk : Passed test s k) :
    k ≤ i ∧ EndsAt test (addrAt 1 s k) (i - k) r := by
  have hle : k ≤ i := by
    by_contra hlt
    have hnone := hk i (by omega)
    rw [hi.2] at hnone
    cases hnone
  refine ⟨hle, ?_, ?_⟩
  · intro j hj
    rw [addrAt_add]
    exact hi.1 (k + j) (by omega)
  · rw [addrAt_add, Nat.add_sub_cancel' hle]
    exact hi.2

private theorem passed_one {s : Word64} (h : test s = none) : Passed test s 1 := by
  intro j hj
  obtain rfl : j = 0 := by omega
  rw [addrAt_zero]
  exact h

private theorem addrAt_one (s : Word64) : s + 1 = addrAt 1 s 1 := (addrAt_up s 1).symm

private theorem headLoop_spec {n : Nat} {s : Word64} {o : Except (Option Word64) Word64}
    (h : headLoop test n s = some o) :
    match o with
    | .error r => ∃ i, EndsAt test s i r
    | .ok s' => ∃ k, s' = addrAt 1 s k ∧ Passed test s k := by
  induction n generalizing s with
  | zero => cases h
  | succ n ih =>
    unfold headLoop at h
    by_cases ha : isAligned s
    · rw [if_pos ha] at h
      obtain rfl := Option.some.inj h
      exact ⟨0, (addrAt_zero 1 s).symm, fun j hj => absurd hj (Nat.not_lt_zero j)⟩
    · rw [if_neg ha] at h
      cases ht : test s with
      | some r =>
        rw [ht] at h
        obtain rfl := Option.some.inj h
        refine ⟨0, fun j hj => absurd hj (Nat.not_lt_zero j), ?_⟩
        rw [addrAt_zero]
        exact ht
      | none =>
        rw [ht, addrAt_one] at h
        have hrest := ih h
        cases o with
        | error r =>
          obtain ⟨i, hi⟩ := hrest
          exact ⟨1 + i, (passed_one ht).ends hi⟩
        | ok s' =>
          obtain ⟨k, rfl, hk⟩ := hrest
          exact ⟨1 + k, addrAt_add 1 s 1 k, (passed_one ht).add hk⟩

private theorem headLoop_total {n i : Nat} {s : Word64} {r : Option Word64} (hi : EndsAt test s i r) (hn : i < n) :
    ∃ o, headLoop test n s = some o := by
  induction n generalizing s i with
  | zero => exact absurd hn (Nat.not_lt_zero i)
  | succ n ih =>
    unfold headLoop
    by_cases ha : isAligned s
    · exact ⟨_, if_pos ha⟩
    · rw [if_neg ha]
      cases ht : test s with
      | some r => exact ⟨_, rfl⟩
      | none =>
        obtain ⟨hle, hrest⟩ := hi.drop (passed_one ht)
        dsimp only
        rw [addrAt_one]
        exact ih hrest (by omega)

section

variable {stop : Word64 → Bool} (hstop : ∀ a, stop (loadLong mem a) = false → Passed test a 8)
include hstop

private theorem wordLoop_spec {n : Nat} {a a' : Word64} (h : wordLoop mem stop n a = some a') :
    ∃ k, a' = addrAt 1 a k ∧ Passed test a k := by
  induction n generalizing a with
  | zero => cases h
  | succ n ih =>
    unfold wordLoop at h
    by_cases hs : stop (loadLong mem a) = true
    · rw [if_pos hs] at h
      obtain rfl := Option.some.inj h
      exact ⟨0, (addrAt_zero 1 a).symm, fun j hj => absurd hj (Nat.not_lt_zero j)⟩
    · have hnext : a + 8 = addrAt 1 a 8 := (addrAt_up a 8).symm
      rw [if_neg hs, hnext] at h
      obtain ⟨k, rfl, hk⟩ := ih h
      exact ⟨8 + k, addrAt_add 1 a 8 k, (hstop a (Bool.eq_false_iff.2 hs)).add hk⟩

private theorem wordLoop_total {n i : Nat} {a : Word64} {r : Option Word64} (hi : EndsAt test a i r) (hn : i < n) :
    ∃ a', wordLoop mem stop n a = some a' := by
  induction n generalizing a i with
  | zero => exact absurd hn (Nat.not_lt_zero i)
  | succ n ih =>
    unfold wordLoop
    by_cases hs : stop (loadLong mem a) = true
    · exact ⟨_, if_pos hs⟩
    · have hnext : a + 8 = addrAt 1 a 8 := (addrAt_up a 8).symm
      obtain ⟨hle, hrest⟩ := hi.drop (hstop a (Bool.eq_false_iff.2 hs))
      rw [if_neg hs, hnext]
      exact ih hrest (by omega)

end

section

variable {stop : UInt8 → Bool} (hstop : ∀ s, stop (mem s) = (test s).isSome)
include hstop

private theorem byteLoop_spec {n : Nat} {s t : Word64} (h : byteLoop mem stop n s = some t) :
    ∃ i, t = addrAt 1 s i ∧ Passed test s i ∧ (test t).isSome := by
  induction n generalizing s with
  | zero => cases h
  | succ n ih =>
    unfold byteLoop at h
    rw [hstop] at h
    by_cases hs : (test s).isSome = true
    · rw [if_pos hs] at h
      obtain rfl := Option.some.inj h
      exact ⟨0, (addrAt_zero 1 s).symm, fun j hj => absurd hj (Nat.not_lt_zero j), hs⟩
    · rw [if_neg hs, addrAt_one] at h
      obtain ⟨i, rfl, hi, hend⟩ := ih h
      exact ⟨1 + i, addrAt_add 1 s 1 i, (passed_one (by simpa using hs)).add hi, hend⟩

private theorem byteLoop_total {n i : Nat} {s : Word64} {r : Option Word64} (hi : EndsAt test s i r) (hn : i < n) :
    ∃ t, byteLoop mem stop n s = some t := by
  induction n generalizing s i with
  | zero => exact absurd hn (Nat.not_lt_zero i)
  | succ n ih =>
    unfold byteLoop
    rw [hstop]
    by_cases hs : (test s).isSome = true
    · exact ⟨_, if_pos hs⟩
    · obtain ⟨hle, hrest⟩ := hi.drop (passed_one (by simpa using hs))
      rw [if_neg hs, addrAt_one]
      exact ih hrest (by omega)

end

/-- The three loops end with what is found at the first byte at which the search ends. -/
private theorem loops_iff {stopWord : Word64 → Bool} {stopByte : UInt8 → Bool} {result : Word64 → Option Word64}
    (hword : ∀ a, stopWord (loadLong mem a) = false → Passed test a 8)
    (hbyte : ∀ s, stopByte (mem s) = (test s).isSome)
    (hresult : ∀ s r, test s = some r → result s = r) (str : Word64) (r : Option Word64) :
    (∃ n, ((headLoop test n str).bind fun
      | .error r => some r
      | .ok s => (wordLoop mem stopWord n s).bind fun aligned =>
          (byteLoop mem stopByte n aligned).bind fun s => some (result s)) = some r) ↔ ∃ i, EndsAt test str i r := by
  constructor
  · rintro ⟨n, h⟩
    obtain ⟨o, hhead, h⟩ := Option.bind_eq_some_iff.1 h
    have hspec := headLoop_spec hhead
    cases o with
    | error r' =>
      obtain rfl := Option.some.inj h
      exact hspec
    | ok s =>
      obtain ⟨k, rfl, hk⟩ := hspec
      obtain ⟨a, hwords, h⟩ := Option.bind_eq_some_iff.1 h
      obtain ⟨t, hbytes, h⟩ := Option.bind_eq_some_iff.1 h
      obtain ⟨l, rfl, hl⟩ := wordLoop_spec hword hwords
      obtain ⟨i, rfl, hi, hend⟩ := byteLoop_spec hbyte hbytes
      obtain ⟨r', hr'⟩ := Option.isSome_iff_exists.1 hend
      obtain rfl := (hresult _ _ hr').symm.trans (Option.some.inj h)
      exact ⟨_, hk.ends (hl.ends ⟨hi, hr'⟩)⟩
  · rintro ⟨i, hi⟩
    refine ⟨i + 1, ?_⟩
    obtain ⟨o, hhead⟩ := headLoop_total hi (Nat.lt_succ_self i)
    rw [hhead, Option.bind_some]
    have hspec := headLoop_spec hhead
    cases o with
    | error r' =>
      obtain ⟨i', hi'⟩ := hspec
      obtain ⟨hle, hrest⟩ := hi.drop hi'.1
      obtain ⟨hle', -⟩ := hi'.drop hi.1
      obtain rfl : i' = i := by omega
      exact hi'.2.symm.trans hi.2
    | ok s =>
      obtain ⟨k, rfl, hk⟩ := hspec
      obtain ⟨hle, hi⟩ := hi.drop hk
      obtain ⟨a, hwords⟩ := wordLoop_total hword (n := i + 1) hi (by omega)
      obtain ⟨l, rfl, hl⟩ := wordLoop_spec hword hwords
      obtain ⟨hle', hi⟩ := hi.drop hl
      obtain ⟨t, hbytes⟩ := byteLoop_total hbyte (n := i + 1) hi (by omega)
      obtain ⟨j, rfl, hj, hend⟩ := byteLoop_spec hbyte hbytes
      obtain ⟨r', hr'⟩ := Option.isSome_iff_exists.1 hend
      obtain ⟨hle1, -⟩ := hi.drop hj
      obtain ⟨hle2, -⟩ := EndsAt.drop (⟨hj, hr'⟩ : EndsAt test _ j r') hi.1
      have hjeq : j = i - k - l := by omega
      rw [hjeq] at hbytes
      dsimp only
      rw [hwords, Option.bind_some, hbytes, Option.bind_some, hresult _ _ hi.2]

end

def byteTest (mem : Bytes) (ch : UInt8) (s : Word64) : Option (Option Word64) :=
  if mem s = ch then some (some s) else if mem s = 0 then some none else none

private theorem findInString_succ (mem : Bytes) (ch : UInt8) (n : Nat) (s : Word64) :
    findInString mem ch (n + 1) s = (byteTest mem ch s).or (findInString mem ch n (s + 1)) := by
  show (if mem s = ch then _ else if mem s = 0 then _ else _) = _
  unfold byteTest
  by_cases hch : mem s = ch
  · rw [if_pos hch, if_pos hch, Option.some_or]
  · rw [if_neg hch, if_neg hch]
    by_cases hzero : mem s = 0
    · rw [if_pos hzero, if_pos hzero, Option.some_or]
    · rw [if_neg hzero, if_neg hzero, Option.none_or]

private theorem findInString_iff (mem : Bytes) (ch : UInt8) (str : Word64) (r : Option Word64) :
    (∃ n, findInString mem ch n str = some r) ↔ ∃ i, EndsAt (byteTest mem ch) str i r := by
  constructor
  · rintro ⟨n, h⟩
    induction n generalizing str with
    | zero => cases h
    | succ n ih =>
      rw [findInString_succ] at h
      cases ht : byteTest mem ch str with
      | some r' =>
        rw [ht] at h
        refine ⟨0, fun j hj => absurd hj (Nat.not_lt_zero j), ?_⟩
        rw [addrAt_zero, ht]
        exact h
      | none =>
        rw [ht, Option.none_or, addrAt_one] at h
        obtain ⟨i, hi⟩ := ih _ h
        exact ⟨1 + i, (passed_one ht).ends hi⟩
  · rintro ⟨i, hi⟩
    refine ⟨i + 1, ?_⟩
    induction i generalizing str with
    | zero =>
      have hend := hi.2
      rw [addrAt_zero] at hend
      rw [findInString_succ, hend, Option.some_or]
    | succ i ih =>
      have hnone := hi.1 0 (Nat.succ_pos i)
      rw [addrAt_zero] at hnone
      obtain ⟨hle, hrest⟩ := hi.drop (passed_one hnone)
      rw [findInString_succ, hnone, Option.none_or, addrAt_one]
      exact ih _ hrest

/-- `strchr` finds the first `c` of a string, or nothing if the string ends before. -/
private theorem strchr_iff (mem : Bytes) (str : Word64) (c : Word32) (r : Option Word64) :
    (∃ n, strchr mem n str c = some r) ↔ ∃ n, findInString mem (UInt8.ofBitVec (c.setWidth 8)) n str = some r := by
  rw [findInString_iff]
  unfold strchr
  dsimp only
  generalize UInt8.ofBitVec (c.setWidth 8) = ch
  by_cases hch : ch = 0
  · have htest : byteTest mem ch = nulTest mem := by
      funext s
      unfold byteTest nulTest
      rw [hch]
      by_cases hm : mem s = 0
      · rw [if_pos hm, if_pos hm]
      · rw [if_neg hm, if_neg hm, if_neg hm]
    rw [htest]
    simp only [if_pos hch]
    refine loops_iff (fun a ha j hj => ?_) (fun s => ?_) (fun s r hr => ?_) str r
    · rw [bne_eq_false_iff_eq, longNull_loadLong] at ha
      exact if_neg (ha j hj)
    · unfold nulTest
      by_cases hm : mem s = 0
      · rw [if_pos hm, hm]
        rfl
      · rw [if_neg hm, beq_eq_false_iff_ne.2 hm]
        rfl
    · unfold nulTest at hr
      by_cases hm : mem s = 0
      · rw [if_pos hm] at hr
        exact Option.some.inj hr
      · rw [if_neg hm] at hr
        cases hr
  · have htest : byteTest mem ch = charTest mem ch := by
      funext s
      unfold byteTest charTest
      by_cases hm : mem s = 0
      · rw [if_pos hm, if_pos hm, hm, if_neg (Ne.symm hch)]
      · rw [if_neg hm, if_neg hm]
    rw [htest]
    simp only [if_neg hch]
    refine loops_iff (fun a ha j hj => ?_) (fun s => ?_) (fun s r hr => ?_) str r
    · rw [Bool.or_eq_false_iff, bne_eq_false_iff_eq, bne_eq_false_iff_eq, longNull_loadLong, strMask_eq,
        longChar_eq_zero_iff] at ha
      unfold charTest
      rw [if_neg (ha.1 j hj), if_neg (ha.2 j hj)]
    · unfold charTest
      by_cases hm : mem s = 0
      · rw [if_pos hm, hm]
        rfl
      · rw [if_neg hm, beq_eq_false_iff_ne.2 hm, Bool.false_or]
        by_cases hc : mem s = ch
        · rw [if_pos hc, beq_iff_eq.2 hc]
          rfl
        · rw [if_neg hc, beq_eq_false_iff_ne.2 hc]
          rfl
    · unfold charTest at hr
      by_cases hm : mem s = 0
      · rw [if_pos hm] at hr
        rw [hm, if_neg (Ne.symm hch)]
        exact Option.some.inj hr
      · rw [if_neg hm] at hr
        by_cases hc : mem s = ch
        · rw [if_pos hc] at hr ⊢
          exact Option.some.inj hr
        · rw [if_neg hc] at hr
          cases hr

/-- The searches by words find what the searches byte by byte find. -/
theorem string_search (mem : Bytes) (s : Word64) (c : Word32) :
    (∀ len, memchr mem s c len = firstByte mem s (UInt8.ofBitVec (c.setWidth 8)) len) ∧
      (∀ len, memrchr mem s c len = lastByte mem s (UInt8.ofBitVec (c.setWidth 8)) len) ∧
      ∀ r, (∃ n, strchr mem n s c = some r) ↔ ∃ n, findInString mem (UInt8.ofBitVec (c.setWidth 8)) n s = some r :=
  ⟨memchr_eq mem s c, memrchr_eq mem s c, strchr_iff mem s c⟩

end Pml.Util
