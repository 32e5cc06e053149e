import Mathlib.Data.List.GetD
import Pml.Lib.Blocks
import Pml.Lib.Words

/-!
# Hash codes (`siphash` of `util/siphash.c`)

SipHash-2-4 takes the bytes, padded to words of 8 bytes of which the last ends with the length, and mixes its state
with two rounds for each word and with four at the end.  The first step of `SIP_ROUND` adds 1 to `v0`, where the
published round adds `v1`.  So a round is the published one exactly in a state in which `v1` is 1 (`sipRound_eq_iff`).
-/

namespace Pml.Util

open Blocks Words

/-- `uint64_t` -/
abbrev Word64 : Type := BitVec 64

def rolq (x : Word64) (n : Nat) : Word64 := x <<< n ||| x >>> (64 - n)

/-- The variables `v0` to `v3`. -/
@[ext] structure SipState where
  v0 : Word64
  v1 : Word64
  v2 : Word64
  v3 : Word64
  deriving DecidableEq

/-! ### The code -/

def sipRound (s : SipState) : SipState :=
  let v0 := s.v0 + 1
  let v1 := rolq s.v1 13
  let v1 := v1 ^^^ v0
  let v0 := rolq v0 32
  let v2 := s.v2 + s.v3
  let v3 := rolq s.v3 16
  let v3 := v3 ^^^ v2
  let v0 := v0 + v3
  let v3 := rolq v3 21
  let v3 := v3 ^^^ v0
  let v2 := v2 + v1
  let v1 := rolq v1 17
  let v1 := v1 ^^^ v2
  let v2 := rolq v2 32
  ⟨v0, v1, v2, v3⟩

def sipRest (data : List UInt8) : Nat → Word64 → Word64
  | 0, b => b
  | rem + 1, b => sipRest data rem (b ||| (data.getD rem 0).toBitVec.setWidth 64 <<< (8 * rem))

/-- The part of the loop body of `siphash` for the word `m`. -/
def sipWord (s : SipState) (m : Word64) : SipState :=
  let s := { s with v3 := s.v3 ^^^ m }
  let s := sipRound (sipRound s)
  { s with v0 := s.v0 ^^^ m }

def siphash (buffer : List UInt8) (key : BitVec 128) : Word64 :=
  let rem := buffer.length % 8
  let k0 := key.setWidth 64
  let k1 := (key >>> 64).setWidth 64
  let s : SipState :=
    ⟨0x736f6d6570736575 ^^^ k0, 0x646f72616e646f6d ^^^ k1, 0x6c7967656e657261 ^^^ k0, 0x7465646279746573 ^^^ k1⟩
  let r := foldBlocks 8 (fun s bytes => sipWord s (leWord 64 bytes)) (buffer.length / 8) s buffer
  let b := sipRest r.2 rem (BitVec.ofNat 64 buffer.length <<< 56)
  let s := sipWord r.1 b
  let s := { s with v2 := s.v2 ^^^ 0xff }
  let s := sipRound (sipRound (sipRound (sipRound s)))
  s.v0 ^^^ s.v1 ^^^ s.v2 ^^^ s.v3

/-! ### SipHash-2-4 -/

def SipState.mix (s : SipState) : SipState :=
  let v0 := s.v0 + s.v1
  let v2 := s.v2 + s.v3
  let v1 := s.v1.rotateLeft 13 ^^^ v0
  let v3 := s.v3.rotateLeft 16 ^^^ v2
  let v0 := v0.rotateLeft 32
  let v2 := v2 + v1
  let v0 := v0 + v3
  ⟨v0, v1.rotateLeft 17 ^^^ v2, v2.rotateLeft 32, v3.rotateLeft 21 ^^^ v0⟩

def sipInit (k0 k1 : Word64) : SipState :=
  ⟨k0 ^^^ 0x736f6d6570736575, k1 ^^^ 0x646f72616e646f6d, k0 ^^^ 0x6c7967656e657261, k1 ^^^ 0x7465646279746573⟩

/-- The words of a message: its bytes, zeros, and the length modulo 256 as the last byte. -/
def sipMessage (data : List UInt8) : List Word64 :=
  let padded := data ++ (List.replicate (7 - data.length % 8) 0 ++ [UInt8.ofNat data.length])
  (List.range (padded.length / 8)).map fun i => leWord 64 ((padded.drop (8 * i)).take 8)

section

variable (round : SipState → SipState)

def sipCompress (s : SipState) (m : Word64) : SipState :=
  let s := round (round { s with v3 := s.v3 ^^^ m })
  { s with v0 := s.v0 ^^^ m }

/-- The states in which the rounds start, for the words of a message. -/
def sipStarts : List Word64 → SipState → List SipState
  | [], s =>
    let s := { s with v2 := s.v2 ^^^ 0xff }
    [s, round s, round (round s), round (round (round s))]
  | m :: ms, s =>
    let t := { s with v3 := s.v3 ^^^ m }
    t :: round t :: sipStarts ms (sipCompress round s m)

def sipEnds (ms : List Word64) (s : SipState) : List SipState := (sipStarts round ms s).map round

def sipValue (ms : List Word64) (s : SipState) : Word64 :=
  let s := ms.foldl (sipCompress round) s
  let s := round (round (round (round { s with v2 := s.v2 ^^^ 0xff })))
  s.v0 ^^^ s.v1 ^^^ s.v2 ^^^ s.v3

end

def sipKeyed (key : BitVec 128) : SipState := sipInit (key.extractLsb' 0 64) (key.extractLsb' 64 64)

def sipHash24 (data : List UInt8) (key : BitVec 128) : Word64 :=
  sipValue SipState.mix (sipMessage data) (sipKeyed key)

/-! ### Rounds -/

private theorem rolq_eq {x : Word64} {n : Nat} (hn : n < 64) : rolq x n = x.rotateLeft n :=
  (BitVec.rotateLeft_eq_rotateLeftAux_of_lt hn).symm

private theorem rotateLeft_inj {x y : Word64} {n : Nat} (hn : n < 64) (h : x.rotateLeft n = y.rotateLeft n) :
    x = y := by
  have hbit : ∀ i, (x.rotateLeft n).getLsbD i = (y.rotateLeft n).getLsbD i := fun i => by rw [h]
  refine BitVec.eq_of_getLsbD_eq fun i hi => ?_
  by_cases hlow : i < 64 - n
  · have hi' := hbit (i + n)
    rw [BitVec.getLsbD_rotateLeft_of_le hn, BitVec.getLsbD_rotateLeft_of_le hn,
      decide_eq_false (by omega : ¬i + n < n),
      decide_eq_true (by omega : i + n < 64), cond_false, cond_false, Bool.true_and, Bool.true_and,
      Nat.add_sub_cancel] at hi'
    exact hi'
  · have hi' := hbit (i - (64 - n))
    rw [BitVec.getLsbD_rotateLeft_of_le hn, BitVec.getLsbD_rotateLeft_of_le hn,
      decide_eq_true (by omega : i - (64 - n) < n), cond_true, cond_true, Nat.add_sub_cancel' (by omega)] at hi'
    exact hi'

private theorem sipRound_eq_iff (s : SipState) : sipRound s = s.mix ↔ s.v1 = 1 := by
  unfold sipRound SipState.mix
  simp only [rolq_eq (by decide : 13 < 64), rolq_eq (by decide : 16 < 64), rolq_eq (by decide : 17 < 64),
    rolq_eq (by decide : 21 < 64), rolq_eq (by decide : 32 < 64)]
  constructor
  · intro h
    have h0 := congrArg SipState.v0 h
    dsimp only at h0
    have h1 := (BitVec.add_left_inj _).1 h0
    have h2 := (BitVec.add_right_inj _).1 (rotateLeft_inj (by decide) h1)
    exact h2.symm
  · intro h
    rw [h]

/-! ### Words -/

private theorem sipRest_eq {data : List UInt8} {n : Nat} (hn : n ≤ data.length) (b : Word64) :
    sipRest data n b = b ||| leWord 64 (data.take n) := by
  induction n generalizing b with
  | zero => simp [sipRest, leWord]
  | succ n ih =>
    have hget : data.take (n + 1) = data.take n ++ [data.getD n 0] := by
      rw [List.take_add_one, List.getElem?_eq_getElem hn, List.getD_eq_getElem _ _ hn]
      rfl
    have hlen : (data.take n).length = n := by rw [List.length_take]; omega
    unfold sipRest
    rw [ih (by omega), hget, leWord_append, leWord_singleton, hlen, BitVec.or_assoc, BitVec.or_comm (_ <<< _)]

private theorem last_word {data rest : List UInt8} (hrest : rest.length = data.length % 8) :
    sipRest rest (data.length % 8) (BitVec.ofNat 64 data.length <<< 56) =
      leWord 64 (rest ++ (List.replicate (7 - data.length % 8) 0 ++ [UInt8.ofNat data.length])) := by
  have hlt : data.length % 8 < 8 := Nat.mod_lt _ (by decide)
  have htop : BitVec.ofNat 64 data.length <<< 56 = ((UInt8.ofNat data.length).toBitVec.setWidth 64) <<< 56 := by
    have hbyte : (UInt8.ofNat data.length).toBitVec = BitVec.ofNat 8 data.length := rfl
    refine BitVec.eq_of_getLsbD_eq fun i hi => ?_
    rw [hbyte, BitVec.getLsbD_shiftLeft, BitVec.getLsbD_shiftLeft, BitVec.getLsbD_setWidth, BitVec.getLsbD_ofNat,
      BitVec.getLsbD_ofNat]
    by_cases h56 : i < 56
    · simp [h56]
    · simp [(by omega : i - 56 < 8), (by omega : i - 56 < 64)]
  rw [sipRest_eq (by omega), List.take_of_length_le (by omega), leWord_append, leWord_append, leWord_zeros,
    leWord_singleton, htop, List.length_replicate, hrest, BitVec.zero_or, ← BitVec.shiftLeft_add,
    BitVec.or_comm]
  have hsum : 8 * (7 - data.length % 8) + 8 * (data.length % 8) = 56 := by omega
  rw [hsum]

private theorem sipMessage_eq (data : List UInt8) : sipMessage data =
    ((List.range (data.length / 8)).map fun i => leWord 64 ((data.drop (8 * i)).take 8)) ++
      [sipRest (data.drop (8 * (data.length / 8))) (data.length % 8) (BitVec.ofNat 64 data.length <<< 56)] := by
  have hlt : data.length % 8 < 8 := Nat.mod_lt _ (by decide)
  have hdm : 8 * (data.length / 8) + data.length % 8 = data.length := Nat.div_add_mod _ 8
  generalize hpad : List.replicate (7 - data.length % 8) (0 : UInt8) ++ [UInt8.ofNat data.length] = pad
  have hlen : pad.length = 8 - data.length % 8 := by
    rw [← hpad, List.length_append, List.length_replicate, List.length_singleton]
    omega
  have hwords : (data ++ pad).length / 8 = data.length / 8 + 1 := by
    rw [List.length_append, hlen]
    omega
  unfold sipMessage
  dsimp only
  rw [hpad, hwords, List.range_succ, List.map_append, List.map_singleton]
  congr 1
  · refine List.map_congr_left fun i hi => ?_
    have hi := List.mem_range.1 hi
    rw [List.drop_append_of_le_length (by omega), List.take_append_of_le_length (by rw [List.length_drop]; omega)]
  · have hrest : (data.drop (8 * (data.length / 8))).length = data.length % 8 := by
      rw [List.length_drop]
      omega
    rw [last_word hrest, hpad, List.drop_append_of_le_length (by omega), List.take_of_length_le]
    rw [List.length_append, hrest, hlen]
    omega

private theorem siphash_eq (data : List UInt8) (key : BitVec 128) :
    siphash data key = sipValue sipRound (sipMessage data) (sipKeyed key) := by
  have hlow : key.extractLsb' 0 64 = key.setWidth 64 := rfl
  have hhigh : key.extractLsb' 64 64 = (key >>> 64).setWidth 64 := rfl
  have hinit : ∀ k0 k1, sipInit k0 k1 = ⟨0x736f6d6570736575 ^^^ k0, 0x646f72616e646f6d ^^^ k1,
      0x6c7967656e657261 ^^^ k0, 0x7465646279746573 ^^^ k1⟩ := by
    intro k0 k1
    unfold sipInit
    simp only [BitVec.xor_comm]
  unfold siphash sipValue sipKeyed
  rw [hlow, hhigh, hinit, sipMessage_eq, List.foldl_append]
  dsimp only
  rw [foldBlocks_fst, foldBlocks_snd, List.foldl_map, List.foldl_map]
  rfl

/-! ### The run of a hash -/

private theorem sipEnds_nil (round : SipState → SipState) (s : SipState) : sipEnds round [] s =
    let t := { s with v2 := s.v2 ^^^ 0xff }
    [round t, round (round t), round (round (round t)), round (round (round (round t)))] := rfl

private theorem sipEnds_cons (round : SipState → SipState) (m : Word64) (ms : List Word64) (s : SipState) :
    sipEnds round (m :: ms) s =
      round { s with v3 := s.v3 ^^^ m } :: round (round { s with v3 := s.v3 ^^^ m }) ::
        sipEnds round ms (sipCompress round s m) := rfl

private theorem sipStarts_cons (round : SipState → SipState) (m : Word64) (ms : List Word64) (s : SipState) :
    sipStarts round (m :: ms) s =
      { s with v3 := s.v3 ^^^ m } :: round { s with v3 := s.v3 ^^^ m } ::
        sipStarts round ms (sipCompress round s m) := rfl

private theorem sipValue_eq (round : SipState → SipState) (ms : List Word64) (s : SipState) :
    ∃ t, (sipEnds round ms s).getLast? = some t ∧ sipValue round ms s = t.v0 ^^^ t.v1 ^^^ t.v2 ^^^ t.v3 := by
  induction ms generalizing s with
  | nil => exact ⟨_, rfl, rfl⟩
  | cons m ms ih =>
    obtain ⟨t, hlast, hvalue⟩ := ih (sipCompress round s m)
    refine ⟨t, ?_, hvalue⟩
    rw [sipEnds_cons, List.getLast?_cons, List.getLast?_cons, hlast]
    rfl

/-- All rounds end as the published ones do exactly if all of them start with 1 in `v1`. -/
private theorem sipEnds_eq_iff (ms : List Word64) (s : SipState) : sipEnds sipRound ms s = sipEnds SipState.mix ms s ↔
    ∀ t ∈ sipStarts SipState.mix ms s, t.v1 = 1 := by
  induction ms generalizing s with
  | nil =>
    rw [sipEnds_nil, sipEnds_nil]
    unfold sipStarts
    dsimp only
    generalize ({ s with v2 := s.v2 ^^^ 0xff } : SipState) = t
    simp only [List.cons.injEq, List.mem_cons, List.not_mem_nil, or_false, forall_eq_or_imp, forall_eq, and_true]
    constructor
    · rintro ⟨h1, h2, h3, h4⟩
      rw [h3] at h4
      rw [h2] at h3
      rw [h1] at h2
      exact ⟨(sipRound_eq_iff t).1 h1, (sipRound_eq_iff t.mix).1 h2, (sipRound_eq_iff t.mix.mix).1 h3,
        (sipRound_eq_iff t.mix.mix.mix).1 h4⟩
    · rintro ⟨h1, h2, h3, h4⟩
      rw [(sipRound_eq_iff t).2 h1, (sipRound_eq_iff t.mix).2 h2, (sipRound_eq_iff t.mix.mix).2 h3,
        (sipRound_eq_iff t.mix.mix.mix).2 h4]
      exact ⟨rfl, rfl, rfl, rfl⟩
  | cons m ms ih =>
    have hcompress : ∀ round : SipState → SipState, sipCompress round s m =
        { round (round { s with v3 := s.v3 ^^^ m }) with
          v0 := (round (round { s with v3 := s.v3 ^^^ m })).v0 ^^^ m } := fun _ => rfl
    rw [sipEnds_cons, sipEnds_cons, sipStarts_cons, List.cons.injEq, List.cons.injEq, List.forall_mem_cons,
      List.forall_mem_cons, ← ih (sipCompress SipState.mix s m), hcompress, hcompress]
    generalize ({ s with v3 := s.v3 ^^^ m } : SipState) = t
    constructor
    · rintro ⟨h1, h2, h3⟩
      rw [h2] at h3
      rw [h1] at h2
      exact ⟨(sipRound_eq_iff t).1 h1, (sipRound_eq_iff t.mix).1 h2, h3⟩
    · rintro ⟨h1, h2, h3⟩
      have hr1 := (sipRound_eq_iff t).2 h1
      have hr2 := (sipRound_eq_iff t.mix).2 h2
      rw [hr1, hr2]
      exact ⟨rfl, rfl, h3⟩

/-- `siphash` goes through the rounds of SipHash-2-4 and returns its value exactly if each of these rounds starts with
1 in `v1`. -/
theorem siphash_rounds_iff (data : List UInt8) (key : BitVec 128) :
    (sipEnds sipRound (sipMessage data) (sipKeyed key) = sipEnds SipState.mix (sipMessage data) (sipKeyed key) ∧
      siphash data key = sipHash24 data key) ↔
    ∀ s ∈ sipStarts SipState.mix (sipMessage data) (sipKeyed key), s.v1 = 1 := by
  rw [siphash_eq, ← sipEnds_eq_iff]
  refine ⟨fun h => h.1, fun h => ⟨h, ?_⟩⟩
  obtain ⟨t, hlast, hvalue⟩ := sipValue_eq sipRound (sipMessage data) (sipKeyed key)
  obtain ⟨u, hlast', hvalue'⟩ := sipValue_eq SipState.mix (sipMessage data) (sipKeyed key)
  rw [h, hlast'] at hlast
  obtain rfl := Option.some.inj hlast
  exact hvalue.trans hvalue'.symm

def countedKey : BitVec 128 := 0x0f0e0d0c0b0a09080706050403020100

/-- The published value for this key and the bytes 0 to 14. -/
example : sipHash24 ((List.range 15).map UInt8.ofNat) countedKey = 0xa129ca6149be45e5 := by decide

/-- For the empty message `siphash` returns another value. -/
theorem not_siphash : ¬∀ (data : List UInt8) (key : BitVec 128), siphash data key = sipHash24 data key := by
  intro h
  have hpublished : sipHash24 [] countedKey = 0x726fdb47dd0e0e31 := by decide
  have hcode : siphash [] countedKey ≠ 0x726fdb47dd0e0e31 := by decide
  exact hcode ((h [] countedKey).trans hpublished)

end Pml.Util
