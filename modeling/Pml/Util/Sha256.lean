import Mathlib.Data.List.GetD
import Mathlib.Data.Nat.NthRoot.Defs
import Pml.Basic
import Pml.Lib.Blocks
import Pml.Lib.Words
import Pml.Util.Crc32

/-!
# Message digests (`util/sha256.c`)

A digest is taken of a string of bytes that comes in pieces.  Whole chunks of 64 bytes are consumed as they come, and
the bytes of an unfinished one are kept in a buffer.  `sha256_close` adds the padding, for which the buffer may have
to be consumed twice.  `sha256_consume_chunk` keeps only the last 16 words of the message schedule.

The digest is that of FIPS 180-4 (`sha256_digest`), which is stated here with the constants as the fractional parts of
square and cube roots of primes and with the schedule as a recursion.
-/

namespace Pml.Util

open Blocks Words

def rorl (x : Word32) (n : Nat) : Word32 := x >>> n ||| x <<< (32 - n)

/-- `h` and `ah` -/
@[ext] structure ShaState where
  h0 : Word32
  h1 : Word32
  h2 : Word32
  h3 : Word32
  h4 : Word32
  h5 : Word32
  h6 : Word32
  h7 : Word32
  deriving DecidableEq

def ShaState.add (h ah : ShaState) : ShaState :=
  ⟨h.h0 + ah.h0, h.h1 + ah.h1, h.h2 + ah.h2, h.h3 + ah.h3, h.h4 + ah.h4, h.h5 + ah.h5, h.h6 + ah.h6, h.h7 + ah.h7⟩

def beBytes (x : Word32) : List UInt8 :=
  [UInt8.ofBitVec ((x >>> 24).setWidth 8), UInt8.ofBitVec ((x >>> 16).setWidth 8),
    UInt8.ofBitVec ((x >>> 8).setWidth 8), UInt8.ofBitVec (x.setWidth 8)]

def ShaState.bytes (h : ShaState) : List UInt8 :=
  [h.h0, h.h1, h.h2, h.h3, h.h4, h.h5, h.h6, h.h7].flatMap beBytes

/-! ### The code -/

def sha256K : List Word32 := [
  0x428a2f98, 0x71374491, 0xb5c0fbcf, 0xe9b5dba5, 0x3956c25b, 0x59f111f1,
  0x923f82a4, 0xab1c5ed5, 0xd807aa98, 0x12835b01, 0x243185be, 0x550c7dc3,
  0x72be5d74, 0x80deb1fe, 0x9bdc06a7, 0xc19bf174, 0xe49b69c1, 0xefbe4786,
  0x0fc19dc6, 0x240ca1cc, 0x2de92c6f, 0x4a7484aa, 0x5cb0a9dc, 0x76f988da,
  0x983e5152, 0xa831c66d, 0xb00327c8, 0xbf597fc7, 0xc6e00bf3, 0xd5a79147,
  0x06ca6351, 0x14292967, 0x27b70a85, 0x2e1b2138, 0x4d2c6dfc, 0x53380d13,
  0x650a7354, 0x766a0abb, 0x81c2c92e, 0x92722c85, 0xa2bfe8a1, 0xa81a664b,
  0xc24b8b70, 0xc76c51a3, 0xd192e819, 0xd6990624, 0xf40e3585, 0x106aa070,
  0x19a4c116, 0x1e376c08, 0x2748774c, 0x34b0bcb5, 0x391c0cb3, 0x4ed8aa4a,
  0x5b9cca4f, 0x682e6ff3, 0x748f82ee, 0x78a5636f, 0x84c87814, 0x8cc70208,
  0x90befffa, 0xa4506ceb, 0xbef9a3f7, 0xc67178f2]

/-- The local variables of `sha256_consume_chunk`. -/
structure ShaVars where
  ah : ShaState
  w : List Word32

/-- The word of four bytes with which `w[j]` is filled, where `ptr` maps offsets from the start of the chunk to
bytes. -/
def chunkWord (ptr : Nat → UInt8) (j : Nat) : Word32 :=
  (ptr (4 * j)).toBitVec.setWidth 32 <<< 24 ||| (ptr (4 * j + 1)).toBitVec.setWidth 32 <<< 16 |||
    (ptr (4 * j + 2)).toBitVec.setWidth 32 <<< 8 ||| (ptr (4 * j + 3)).toBitVec.setWidth 32

/-- The new value of `w[j]` in the inner loop of `sha256_consume_chunk`. -/
def sha256Word (ptr : Nat → UInt8) (w : List Word32) (i j : Nat) : Word32 :=
  if i = 0 then chunkWord ptr j
  else
    let w j := w.getD j 0
    let s0 := rorl (w ((j + 1) &&& 0xf)) 7 ^^^ rorl (w ((j + 1) &&& 0xf)) 18 ^^^ w ((j + 1) &&& 0xf) >>> 3
    let s1 := rorl (w ((j + 14) &&& 0xf)) 17 ^^^ rorl (w ((j + 14) &&& 0xf)) 19 ^^^ w ((j + 14) &&& 0xf) >>> 10
    w j + (s0 + w ((j + 9) &&& 0xf) + s1)

def sha256Step (ptr : Nat → UInt8) (s : ShaVars) (i j : Nat) : ShaVars :=
  let w := s.w.set j (sha256Word ptr s.w i j)
  let ah := s.ah
  let s1 := rorl ah.h4 6 ^^^ rorl ah.h4 11 ^^^ rorl ah.h4 25
  let ch := (ah.h4 &&& ah.h5) ^^^ (~~~ah.h4 &&& ah.h6)
  let t1 := ah.h7 + s1 + ch + sha256K.getD (i <<< 4 ||| j) 0 + w.getD j 0
  let s0 := rorl ah.h0 2 ^^^ rorl ah.h0 13 ^^^ rorl ah.h0 22
  let maj := (ah.h0 &&& ah.h1) ^^^ (ah.h0 &&& ah.h2) ^^^ (ah.h1 &&& ah.h2)
  let t2 := s0 + maj
  ⟨⟨t1 + t2, ah.h0, ah.h1, ah.h2, ah.h3 + t1, ah.h4, ah.h5, ah.h6⟩, w⟩

def sha256ConsumeChunk (h : ShaState) (ptr : Nat → UInt8) : ShaState :=
  let s :=
    (List.range 4).foldl (fun s i => (List.range 16).foldl (fun s j => sha256Step ptr s i j) s)
    ⟨h, List.replicate 16 0⟩
  h.add s.ah

abbrev sha256ChunkSize : Nat := 64

/-- `struct sha256_ctx`, where `ptr` is an offset in the chunk. -/
structure Sha256Ctx where
  chunk : Nat → UInt8
  ptr : Nat
  rem : Nat
  len : Nat
  h : ShaState

/-- The bytes are written into the chunk, if they lie inside. -/
def storeChunk (chunk : Nat → UInt8) (pos : Nat) (bytes : List UInt8) : Option (Nat → UInt8) :=
  if pos + bytes.length ≤ sha256ChunkSize then
    some fun i => if pos ≤ i ∧ i < pos + bytes.length then bytes.getD (i - pos) 0 else chunk i
  else none

/-- `sha256_init`; the chunk keeps what it contains. -/
def sha256Init (ctx : Sha256Ctx) : Sha256Ctx :=
  { ctx with
    ptr := 0
    rem := sha256ChunkSize
    len := 0
    h := ⟨0x6a09e667, 0xbb67ae85, 0x3c6ef372, 0xa54ff53a, 0x510e527f, 0x9b05688c, 0x1f83d9ab, 0x5be0cd19⟩ }

/-- The loop of `sha256_write`, with a bound on the number of rounds; undefined if it is not enough or a write would
be outside the chunk. -/
def sha256WriteLoop : Nat → Sha256Ctx → List UInt8 → Option Sha256Ctx
  | 0, ctx, data => if data = [] then some ctx else none
  | n + 1, ctx, data =>
    if data = [] then some ctx
    else if ctx.rem = sha256ChunkSize ∧ sha256ChunkSize ≤ data.length then
      sha256WriteLoop n { ctx with h := sha256ConsumeChunk ctx.h fun i => data.getD i 0 } (data.drop sha256ChunkSize)
    else
      let consumed := if data.length < ctx.rem then data.length else ctx.rem
      (storeChunk ctx.chunk ctx.ptr (data.take consumed)).bind fun chunk =>
        let rem := ctx.rem - consumed
        if rem = 0 then
          sha256WriteLoop n
            { ctx with chunk := chunk, h := sha256ConsumeChunk ctx.h chunk, ptr := 0, rem := sha256ChunkSize }
            (data.drop consumed)
        else sha256WriteLoop n { ctx with chunk := chunk, ptr := ctx.ptr + consumed, rem := rem } (data.drop consumed)

def sha256Write (ctx : Sha256Ctx) (data : List UInt8) : Option Sha256Ctx :=
  sha256WriteLoop data.length { ctx with len := add64 ctx.len data.length } data

/-- The loop of `sha256_close` over the bytes of the length, from the byte before `acc` down. -/
def lengthBytes : Nat → Nat → List UInt8 → List UInt8
  | 0, _, acc => acc
  | i + 1, len, acc => lengthBytes i (len >>> 8) (UInt8.ofNat (len &&& 0xff) :: acc)

/-- `sha256_close`: the bytes of the digest. -/
def sha256Close (ctx : Sha256Ctx) : Option (List UInt8) := do
  let chunk ← storeChunk ctx.chunk ctx.ptr [0x80]
  let pos := ctx.ptr + 1
  let rem := ctx.rem - 1
  let s ←
    if rem < 8 then
      (storeChunk chunk pos (List.replicate rem 0)).map fun chunk =>
        (chunk, sha256ConsumeChunk ctx.h chunk, 0, sha256ChunkSize)
    else some (chunk, ctx.h, pos, rem)
  let (chunk, h, pos, rem) := s
  let rem := rem - 8
  let chunk ← storeChunk chunk pos (List.replicate rem 0)
  let pos := pos + rem
  let chunk ← storeChunk chunk pos (lengthBytes 7 (ctx.len >>> 5) [UInt8.ofNat ((ctx.len <<< 3) &&& 0xff)])
  let h := sha256ConsumeChunk h chunk
  some h.bytes

/-- `sha256_init`, `sha256_write` for each of the pieces, and `sha256_close`. -/
def sha256Pieces (ctx : Sha256Ctx) (pieces : List (List UInt8)) : Option (List UInt8) :=
  (pieces.foldlM sha256Write (sha256Init ctx)).bind sha256Close

/-! ### FIPS 180-4 -/

def shaPrimes : List Nat := (List.range 312).filter fun p => 2 ≤ p && (List.range p).all fun d => d < 2 || p % d != 0

def rootBits (k p : Nat) : Word32 := BitVec.ofNat 32 (Nat.nthRoot k (p * 2 ^ (32 * k)))

/-- The constants `K_t`. -/
def shaConstants : List Word32 := shaPrimes.map (rootBits 3)

def shaInitial : ShaState :=
  let H i := rootBits 2 (shaPrimes.getD i 0)
  ⟨H 0, H 1, H 2, H 3, H 4, H 5, H 6, H 7⟩

def shaCh (x y z : Word32) : Word32 := (x &&& y) ^^^ (~~~x &&& z)
def shaMaj (x y z : Word32) : Word32 := (x &&& y) ^^^ (x &&& z) ^^^ (y &&& z)
def shaSum0 (x : Word32) : Word32 := x.rotateRight 2 ^^^ x.rotateRight 13 ^^^ x.rotateRight 22
def shaSum1 (x : Word32) : Word32 := x.rotateRight 6 ^^^ x.rotateRight 11 ^^^ x.rotateRight 25
def shaSigma0 (x : Word32) : Word32 := x.rotateRight 7 ^^^ x.rotateRight 18 ^^^ x >>> 3
def shaSigma1 (x : Word32) : Word32 := x.rotateRight 17 ^^^ x.rotateRight 19 ^^^ x >>> 10

/-- The message schedule for a block of which `m` are the words. -/
def shaSchedule (m : Nat → Word32) (t : Nat) : Word32 :=
  if t < 16 then m t
  else
    shaSigma1 (shaSchedule m (t - 2)) + shaSchedule m (t - 7) + shaSigma0 (shaSchedule m (t - 15)) + shaSchedule m
      (t - 16)

/-- A round with the word `w t`. -/
def shaRound (w : Nat → Word32) (s : ShaState) (t : Nat) : ShaState :=
  let t1 := s.h7 + shaSum1 s.h4 + shaCh s.h4 s.h5 s.h6 + shaConstants.getD t 0 + w t
  let t2 := shaSum0 s.h0 + shaMaj s.h0 s.h1 s.h2
  ⟨t1 + t2, s.h0, s.h1, s.h2, s.h3 + t1, s.h4, s.h5, s.h6⟩

def blockWord (block : List UInt8) (j : Nat) : Word32 := leWord 32 ((block.drop (4 * j)).take 4).reverse

def shaCompress (h : ShaState) (block : List UInt8) : ShaState :=
  h.add ((List.range 64).foldl (shaRound (shaSchedule (blockWord block))) h)

/-- What is appended to a message of `n` bytes: a bit 1, the least number of zeros with which the length becomes
congruent to 448 bits modulo 512, and the number of bits. -/
def shaPadding (n : Nat) : List UInt8 :=
  0x80 :: (List.replicate ((119 - n % 64) % 64) (0 : UInt8) ++ (List.range 8).map fun i =>
    UInt8.ofNat ((8 * n) >>> (8 * (7 - i))))

def shaDigest (data : List UInt8) : List UInt8 :=
  (foldWhole 64 shaCompress shaInitial (data ++ shaPadding data.length)).bytes

/-! ### Chunks -/

private theorem sha256K_eq : sha256K = shaConstants := by decide +kernel

private theorem rorl_eq {x : Word32} {n : Nat} (hn : n < 32) : rorl x n = x.rotateRight n :=
  (BitVec.rotateRight_eq_rotateRightAux_of_lt hn).symm

private theorem chunkWord_eq {ptr : Nat → UInt8} {block : List UInt8} (hlen : block.length = 64)
    (hptr : ∀ i < 64, ptr i = block.getD i 0) {j : Nat} (hj : j < 16) : chunkWord ptr j = blockWord block j := by
  have hget : ∀ i, i < 64 → block[i]? = some (ptr i) := by
    intro i hi
    rw [hptr i hi, List.getD_eq_getElem _ _ (by omega)]
    exact List.getElem?_eq_getElem _
  have hbytes : (block.drop (4 * j)).take 4 = [ptr (4 * j), ptr (4 * j + 1), ptr (4 * j + 2), ptr (4 * j + 3)] := by
    refine List.ext_getElem? fun i => ?_
    rw [List.getElem?_take]
    by_cases hi : i < 4
    · rw [if_pos hi, List.getElem?_drop, hget _ (by omega)]
      match i, hi with
      | 0, _ | 1, _ | 2, _ | 3, _ => rfl
    · rw [if_neg hi]
      exact (List.getElem?_eq_none (by simpa using hi)).symm
  unfold chunkWord blockWord
  rw [hbytes]
  generalize ptr (4 * j) = b0, ptr (4 * j + 1) = b1, ptr (4 * j + 2) = b2, ptr (4 * j + 3) = b3
  show _ = leWord 32 [b3, b2, b1, b0]
  rw [leWord_cons, leWord_cons, leWord_cons, leWord_singleton]
  simp only [BitVec.shiftLeft_or_distrib, ← BitVec.shiftLeft_add, Nat.reduceAdd]
  generalize b0.toBitVec.setWidth 32 <<< 24 = x0, b1.toBitVec.setWidth 32 <<< 16 = x1,
    b2.toBitVec.setWidth 32 <<< 8 = x2
  rw [BitVec.or_comm, BitVec.or_comm (_ ||| _), BitVec.or_comm x0]

/-- The last 16 words of the schedule are kept, and the variables are those of the published rounds. -/
private theorem sha256Steps_eq (ptr : Nat → UInt8) (h : ShaState) {w : List Word32} (hlen : w.length = 16) (n : Nat) :
    let s := (List.range n).foldl (fun s t => sha256Step ptr s (t / 16) (t % 16)) ⟨h, w⟩
    s.ah = (List.range n).foldl (shaRound (shaSchedule (chunkWord ptr))) h ∧ s.w.length = 16 ∧
      ∀ t < n, n ≤ t + 16 → s.w.getD (t % 16) 0 = shaSchedule (chunkWord ptr) t := by
  induction n with
  | zero => exact ⟨rfl, hlen, fun t ht => absurd ht (Nat.not_lt_zero t)⟩
  | succ n ih =>
    dsimp only at ih ⊢
    rw [List.range_succ, List.foldl_append, List.foldl_append]
    generalize (List.range n).foldl (fun s t => sha256Step ptr s (t / 16) (t % 16)) ⟨h, w⟩ = s at ih
    obtain ⟨hah, hlen', hw⟩ := ih
    rw [← hah]
    have hand : ∀ k : Nat, k &&& 0xf = k % 16 := fun k => Nat.and_two_pow_sub_one_eq_mod k 4
    have hindex : (n / 16) <<< 4 ||| n % 16 = n := by
      rw [← Nat.shiftLeft_add_eq_or_of_lt (Nat.mod_lt _ (by decide)), Nat.shiftLeft_eq]
      omega
    have hword : sha256Word ptr s.w (n / 16) (n % 16) = shaSchedule (chunkWord ptr) n := by
      unfold sha256Word shaSchedule
      by_cases hn : n < 16
      · rw [if_pos hn, if_pos (by omega), Nat.mod_eq_of_lt hn]
      · have hwindow : ∀ k, 0 < k → k ≤ 16 → ∀ j, j = (n - k) % 16 →
            s.w.getD j 0 = shaSchedule (chunkWord ptr) (n - k) := by
          rintro k hk0 hk j rfl
          exact hw (n - k) (by omega) (by omega)
        rw [if_neg hn, if_neg (by omega)]
        dsimp only
        rw [hand, hand, hand, hwindow 15 (by omega) (by omega) ((n % 16 + 1) % 16) (by omega),
          hwindow 2 (by omega) (by omega) ((n % 16 + 14) % 16) (by omega),
          hwindow 7 (by omega) (by omega) ((n % 16 + 9) % 16) (by omega),
          hwindow 16 (by omega) (by omega) (n % 16) (by omega), rorl_eq (by decide), rorl_eq (by decide),
          rorl_eq (by decide), rorl_eq (by decide)]
        unfold shaSigma0 shaSigma1
        ac_rfl
    have hlt : n % 16 < s.w.length := by omega
    have hnew : (s.w.set (n % 16) (sha256Word ptr s.w (n / 16) (n % 16))).getD (n % 16) 0 =
        shaSchedule (chunkWord ptr) n := by
      rw [List.getD_eq_getElem?_getD, List.getElem?_set_self hlt, Option.getD_some, hword]
    refine ⟨?_, ?_, ?_⟩
    · show (sha256Step ptr s (n / 16) (n % 16)).ah = shaRound (shaSchedule (chunkWord ptr)) s.ah n
      unfold shaRound shaSum0 shaSum1 shaCh shaMaj
      rw [← hnew, ← sha256K_eq]
      unfold sha256Step
      dsimp only
      rw [hindex]
      simp only [rorl_eq (by decide : 2 < 32), rorl_eq (by decide : 6 < 32), rorl_eq (by decide : 11 < 32),
        rorl_eq (by decide : 13 < 32), rorl_eq (by decide : 22 < 32), rorl_eq (by decide : 25 < 32)]
    · show (s.w.set _ _).length = 16
      rw [List.length_set, hlen']
    · intro t ht hlast
      show (s.w.set (n % 16) (sha256Word ptr s.w (n / 16) (n % 16))).getD (t % 16) 0 = _
      by_cases htn : t = n
      · rw [htn, hnew]
      · rw [List.getD_eq_getElem?_getD, List.getElem?_set_ne (by omega), ← List.getD_eq_getElem?_getD]
        exact hw t (by omega) (by omega)

private theorem shaSchedule_congr {m m' : Nat → Word32} (h : ∀ j < 16, m j = m' j) (t : Nat) :
    shaSchedule m t = shaSchedule m' t := by
  induction t using Nat.strong_induction_on with
  | _ t ih =>
    unfold shaSchedule
    by_cases ht : t < 16
    · rw [if_pos ht, if_pos ht, h t ht]
    · rw [if_neg ht, if_neg ht, ih (t - 2) (by omega), ih (t - 7) (by omega), ih (t - 15) (by omega),
        ih (t - 16) (by omega)]

private theorem sha256ConsumeChunk_eq {ptr : Nat → UInt8} {block : List UInt8} (hlen : block.length = 64)
    (hptr : ∀ i < 64, ptr i = block.getD i 0) (h : ShaState) : sha256ConsumeChunk h ptr = shaCompress h block := by
  have hschedule : shaSchedule (chunkWord ptr) = shaSchedule (blockWord block) :=
    funext (shaSchedule_congr fun j hj => chunkWord_eq hlen hptr hj)
  unfold sha256ConsumeChunk shaCompress
  dsimp only
  rw [foldl_nested, (sha256Steps_eq ptr h List.length_replicate (4 * 16)).1, hschedule]

/-! ### Contexts -/

def StartsWith (chunk : Nat → UInt8) (bytes : List UInt8) : Prop := ∀ i < bytes.length, chunk i = bytes.getD i 0

/-- The context after the bytes `whole ++ rest`, of which `rest` is still in the chunk. -/
structure Sha256Ctx.Holds (ctx : Sha256Ctx) (whole rest : List UInt8) : Prop where
  dvd : 64 ∣ whole.length
  lt : rest.length < 64
  h : ctx.h = foldWhole 64 shaCompress shaInitial whole
  ptr : ctx.ptr = rest.length
  rem : ctx.rem = 64 - rest.length
  chunk : StartsWith ctx.chunk rest

private theorem storeChunk_spec {chunk : Nat → UInt8} {l : List UInt8} (hl : StartsWith chunk l) (bytes : List UInt8)
    (hfit : l.length + bytes.length ≤ 64) :
    ∃ chunk', storeChunk chunk l.length bytes = some chunk' ∧ StartsWith chunk' (l ++ bytes) := by
  refine ⟨_, if_pos hfit, fun i hi => ?_⟩
  rw [List.length_append] at hi
  by_cases hil : i < l.length
  · rw [if_neg (by omega), List.getD_append _ _ _ _ hil, hl i hil]
  · rw [if_pos ⟨by omega, hi⟩, List.getD_append_right _ _ _ _ (by omega)]

private theorem StartsWith.consume {chunk : Nat → UInt8} {block : List UInt8} (h : StartsWith chunk block)
    (hlen : block.length = 64) (hash : ShaState) : sha256ConsumeChunk hash chunk = shaCompress hash block :=
  sha256ConsumeChunk_eq hlen (fun i hi => h i (hlen ▸ hi)) hash

private theorem foldWhole_snoc {whole block : List UInt8} (hdvd : 64 ∣ whole.length) (hlen : block.length = 64) :
    foldWhole 64 shaCompress shaInitial (whole ++ block) =
      shaCompress (foldWhole 64 shaCompress shaInitial whole) block := by
  rw [foldWhole_append (by decide) hdvd, foldWhole_block (by decide) hlen]

private theorem sha256Init_holds (ctx : Sha256Ctx) : (sha256Init ctx).Holds [] [] where
  dvd := Nat.dvd_zero 64
  lt := by decide
  h := by
    have hinitial :
      (⟨0x6a09e667, 0xbb67ae85, 0x3c6ef372, 0xa54ff53a, 0x510e527f, 0x9b05688c, 0x1f83d9ab, 0x5be0cd19⟩ :
        ShaState) = shaInitial := by decide +kernel
    rw [foldWhole_of_lt (by decide)]
    exact hinitial
  ptr := rfl
  rem := rfl
  chunk := fun i hi => absurd hi (Nat.not_lt_zero i)

private theorem sha256WriteLoop_spec {n : Nat} {ctx : Sha256Ctx} {whole rest : List UInt8}
    (hctx : ctx.Holds whole rest)
    {data : List UInt8} (hn : data.length ≤ n) : ∃ ctx' whole' rest', sha256WriteLoop n ctx data = some ctx' ∧
    ctx'.Holds whole' rest' ∧
      whole' ++ rest' = whole ++ rest ++ data ∧ ctx'.len = ctx.len := by
  induction n generalizing ctx whole rest data with
  | zero =>
    have hnil : data = [] := List.length_eq_zero_iff.1 (Nat.le_zero.1 hn)
    refine ⟨ctx, whole, rest, if_pos hnil, hctx, ?_, rfl⟩
    rw [hnil, List.append_nil]
  | succ n ih =>
    by_cases hnil : data = []
    · refine ⟨ctx, whole, rest, if_pos hnil, hctx, ?_, rfl⟩
      rw [hnil, List.append_nil]
    have hpos : 0 < data.length := List.length_pos_iff.2 hnil
    have hlt := hctx.lt
    unfold sha256WriteLoop
    rw [if_neg hnil]
    by_cases hfast : ctx.rem = sha256ChunkSize ∧ sha256ChunkSize ≤ data.length
    · -- a whole chunk is taken from the data
      have hrem : ctx.rem = 64 := hfast.1
      have hle : 64 ≤ data.length := hfast.2
      rw [if_pos hfast]
      have hrest : rest = [] := List.length_eq_zero_iff.1 (by have := hctx.rem; omega)
      have hlen : (data.take 64).length = 64 := by rw [List.length_take]; omega
      have hread : ∀ i < 64, data.getD i 0 = (data.take 64).getD i 0 := by
        intro i hi
        rw [List.getD_eq_getElem?_getD, List.getD_eq_getElem?_getD, List.getElem?_take, if_pos hi]
      have hnext : Sha256Ctx.Holds { ctx with h := sha256ConsumeChunk ctx.h fun i => data.getD i 0 }
          (whole ++ data.take 64) rest :=
        { hctx with
          dvd := by
            rw [List.length_append, hlen]
            exact Nat.dvd_add hctx.dvd (Nat.dvd_refl 64)
          h := by
            show sha256ConsumeChunk ctx.h (fun i => data.getD i 0) = _
            rw [sha256ConsumeChunk_eq hlen hread, foldWhole_snoc hctx.dvd hlen, hctx.h] }
      obtain ⟨ctx', whole', rest', hrun, hholds, happend, hlen'⟩ :=
        ih hnext (by rw [List.length_drop]; omega : (data.drop 64).length ≤ n)
      refine ⟨ctx', whole', rest', hrun, hholds, ?_, hlen'⟩
      rw [happend, hrest, List.append_nil, List.append_nil, List.append_assoc, List.take_append_drop]
    · rw [if_neg hfast]
      dsimp only
      generalize hconsumed : (if data.length < ctx.rem then data.length else ctx.rem) = consumed
      have hle : consumed ≤ data.length ∧ consumed ≤ ctx.rem ∧ 0 < consumed := by
        have := hctx.rem
        rw [← hconsumed]
        by_cases h : data.length < ctx.rem
        · rw [if_pos h]; omega
        · rw [if_neg h]; omega
      have hrem := hctx.rem
      have htake : (data.take consumed).length = consumed := by rw [List.length_take]; omega
      obtain ⟨chunk, hstore, hstarts⟩ := storeChunk_spec hctx.chunk (data.take consumed) (by omega)
      have happend : ∀ l :
        List UInt8, l ++ (rest ++ data.take consumed) ++ data.drop consumed = l ++ rest ++ data := by
        intro l
        rw [List.append_assoc, List.append_assoc, List.take_append_drop, ← List.append_assoc]
      have hdrop : (data.drop consumed).length ≤ n := by rw [List.length_drop]; omega
      have hlen : (rest ++ data.take consumed).length = rest.length + consumed := by rw [List.length_append, htake]
      rw [hctx.ptr, hstore, Option.bind_some]
      by_cases hfull : ctx.rem - consumed = 0
      · -- the chunk is full
        rw [if_pos hfull]
        have hlen64 : (rest ++ data.take consumed).length = 64 := by omega
        have hnext : Sha256Ctx.Holds
            { ctx with chunk := chunk, h := sha256ConsumeChunk ctx.h chunk, ptr := 0, rem := sha256ChunkSize }
            (whole ++ (rest ++ data.take consumed)) [] :=
          { dvd := by
              rw [List.length_append, hlen64]
              exact Nat.dvd_add hctx.dvd (Nat.dvd_refl 64)
            lt := by decide
            h := by
              show sha256ConsumeChunk ctx.h chunk = _
              rw [hstarts.consume hlen64, foldWhole_snoc hctx.dvd hlen64, hctx.h]
            ptr := rfl
            rem := rfl
            chunk := fun i hi => absurd hi (Nat.not_lt_zero i) }
        obtain ⟨ctx', whole', rest', hrun, hholds, hwrite, hlen'⟩ := ih hnext hdrop
        refine ⟨ctx', whole', rest', hrun, hholds, ?_, hlen'⟩
        rw [hwrite, List.append_nil, happend]
      · rw [if_neg hfull]
        have hnext : Sha256Ctx.Holds
            { ctx with chunk := chunk, ptr := rest.length + consumed, rem := ctx.rem - consumed }
            whole (rest ++ data.take consumed) :=
          { hctx with
            lt := by omega
            ptr := hlen.symm
            rem := by
              show ctx.rem - consumed = _
              omega
            chunk := hstarts }
        obtain ⟨ctx', whole', rest', hrun, hholds, hwrite, hlen'⟩ := ih hnext hdrop
        refine ⟨ctx', whole', rest', hrun, hholds, ?_, hlen'⟩
        rw [hwrite, ← happend, List.append_assoc]

private theorem sha256Writes_spec (pieces : List (List UInt8)) {ctx : Sha256Ctx} {whole rest : List UInt8}
    (hctx : ctx.Holds whole rest) (hlen : ctx.len = (whole ++ rest).length % 2 ^ 64) :
    ∃ ctx' whole' rest', pieces.foldlM sha256Write ctx = some ctx' ∧ ctx'.Holds whole' rest' ∧
      whole' ++ rest' = whole ++ rest ++ pieces.flatten ∧ ctx'.len = (whole' ++ rest').length % 2 ^ 64 := by
  induction pieces generalizing ctx whole rest with
  | nil =>
    refine ⟨ctx, whole, rest, rfl, hctx, ?_, hlen⟩
    rw [List.flatten_nil, List.append_nil]
  | cons data pieces ih =>
    have hlonger : Sha256Ctx.Holds { ctx with len := add64 ctx.len data.length } whole rest := { hctx with }
    obtain ⟨ctx1, whole1, rest1, hrun1, hholds1, happend1, hlen1⟩ :=
      sha256WriteLoop_spec hlonger (Nat.le_refl data.length)
    have hsum : ctx1.len = (whole1 ++ rest1).length % 2 ^ 64 := by
      rw [hlen1, happend1, List.length_append]
      show (ctx.len + data.length) % 2 ^ 64 = _
      rw [hlen, Nat.mod_add_mod]
    obtain ⟨ctx2, whole2, rest2, hrun2, hholds2, happend2, hlen2⟩ := ih hholds1 hsum
    have hwrite : sha256Write ctx data = some ctx1 := hrun1
    refine ⟨ctx2, whole2, rest2, ?_, hholds2, ?_, hlen2⟩
    · rw [List.foldlM_cons, hwrite]
      exact hrun2
    · rw [happend2, happend1, List.flatten_cons, List.append_assoc]

/-! ### Padding -/

private theorem uint8_and_ff (x : Nat) : UInt8.ofNat (x &&& 0xff) = UInt8.ofNat x := by
  rw [(Nat.and_two_pow_sub_one_eq_mod x 8 : x &&& 0xff = x % 256)]
  exact UInt8.ofNat_mod_size

private theorem lengthBytes_eq (n : Nat) : lengthBytes 7 (n >>> 5) [UInt8.ofNat ((n <<< 3) &&& 0xff)] =
    (List.range 8).map fun i => UInt8.ofNat ((8 * n) >>> (8 * (7 - i))) := by
  have hshift : ∀ k, (8 * n) >>> (3 + k) = n >>> k := by
    intro k
    have hthree : (8 * n) >>> 3 = n := by
      rw [Nat.shiftRight_eq_div_pow]
      exact Nat.mul_div_cancel_left n (by decide)
    rw [Nat.shiftRight_add, hthree]
  have hlow : n <<< 3 = (8 * n) >>> 0 := by
    rw [Nat.shiftLeft_eq, Nat.mul_comm]
    rfl
  unfold lengthBytes lengthBytes lengthBytes lengthBytes lengthBytes lengthBytes lengthBytes lengthBytes
  simp only [uint8_and_ff, ← Nat.shiftRight_add, Nat.reduceAdd, hlow]
  simp only [← hshift, Nat.reduceAdd]
  rfl

private theorem lastChunk_spec {chunk : Nat → UInt8} {l bits : List UInt8} {pos rem : Nat} (hl : StartsWith chunk l)
    (hpos : l.length = pos) (hrem : pos + rem = 64) (hroom : 8 ≤ rem) (hbits : bits.length = 8) (h : ShaState) :
    ((storeChunk chunk pos (List.replicate (rem - 8) 0)).bind fun chunk =>
      (storeChunk chunk (pos + (rem - 8)) bits).bind fun chunk => some (sha256ConsumeChunk h chunk).bytes) =
    some (shaCompress h (l ++ List.replicate (rem - 8) 0 ++ bits)).bytes := by
  obtain ⟨chunk1, hstore1, hstarts1⟩ := storeChunk_spec hl (List.replicate (rem - 8) 0) (by
    rw [List.length_replicate]
    omega)
  have hlen1 : (l ++ List.replicate (rem - 8) (0 : UInt8)).length = pos + (rem - 8) := by
    rw [List.length_append, List.length_replicate, hpos]
  obtain ⟨chunk2, hstore2, hstarts2⟩ := storeChunk_spec hstarts1 bits (by omega)
  rw [hpos] at hstore1
  rw [hlen1] at hstore2
  rw [hstore1, Option.bind_some, hstore2, Option.bind_some, hstarts2.consume (by rw [List.length_append]; omega)]

/-- The part of the message that is in the chunk, with the padding, is one block or two. -/
private theorem sha256Close_spec {ctx : Sha256Ctx} {whole rest : List UInt8} (hctx : ctx.Holds whole rest)
    (hlen : ctx.len = (whole ++ rest).length) : sha256Close ctx = some (shaDigest (whole ++ rest)) := by
  have hlt := hctx.lt
  have hmod : (whole ++ rest).length % 64 = rest.length := by
    obtain ⟨k, hk⟩ := hctx.dvd
    rw [List.length_append, hk, Nat.mul_add_mod, Nat.mod_eq_of_lt hlt]
  have hbits := lengthBytes_eq (whole ++ rest).length
  obtain ⟨chunk1, hstore1, hstarts1⟩ := storeChunk_spec hctx.chunk [0x80] (by
    show rest.length + 1 ≤ 64
    omega)
  have hone : (rest ++ [(0x80 : UInt8)]).length = rest.length + 1 := List.length_append
  unfold sha256Close shaDigest shaPadding
  rw [hlen, ← hbits, hmod, hctx.ptr, hstore1, hctx.rem]
  generalize lengthBytes 7 _ _ = bits at hbits ⊢
  have hbitsLen : bits.length = 8 := by rw [hbits]; rfl
  show (if 64 - rest.length - 1 < 8 then Option.bind _ _ else Option.bind _ _) = _
  by_cases hroom : 64 - rest.length - 1 < 8
  · -- the zeros reach into a second block
    rw [if_pos hroom]
    obtain ⟨chunk2, hstore2, hstarts2⟩ := storeChunk_spec hstarts1 (List.replicate (64 - rest.length - 1) 0) (by
      rw [List.length_replicate]
      omega)
    have hblock : (rest ++ [0x80] ++ List.replicate (64 - rest.length - 1) (0 : UInt8)).length = 64 := by
      rw [List.length_append, List.length_replicate]
      omega
    have hempty : StartsWith chunk2 [] := fun i hi => absurd hi (Nat.not_lt_zero i)
    have hzeros : List.replicate ((119 - rest.length) % 64) (0 : UInt8) =
        List.replicate (64 - rest.length - 1) 0 ++ List.replicate 56 0 := by
      rw [List.replicate_append_replicate]
      congr 1
      omega
    have hsplit : whole ++ rest ++ 0x80 :: (List.replicate ((119 - rest.length) % 64) 0 ++ bits) =
        whole ++ (rest ++ [0x80] ++ List.replicate (64 - rest.length - 1) 0) ++ (List.replicate 56 0 ++ bits) := by
      rw [hzeros]
      simp only [List.append_assoc, List.cons_append, List.nil_append]
    rw [← hone, hstore2, hsplit, foldWhole_snoc, foldWhole_snoc hctx.dvd hblock, ← hctx.h, ← hstarts2.consume hblock]
    · rw [Option.map_some, Option.bind_some]
      dsimp only
      rw [← List.nil_append (List.replicate 56 (0 : UInt8))]
      exact lastChunk_spec hempty rfl (by decide) (by decide) hbitsLen _
    · rw [List.length_append, hblock]
      exact Nat.dvd_add hctx.dvd (Nat.dvd_refl 64)
    · rw [List.length_append, hbitsLen, List.length_replicate]
  · rw [if_neg hroom]
    have hsplit : whole ++ rest ++ 0x80 :: (List.replicate ((119 - rest.length) % 64) 0 ++ bits) =
        whole ++ (rest ++ [0x80] ++ List.replicate (64 - rest.length - 1 - 8) 0 ++ bits) := by
      have hzeros : (119 - rest.length) % 64 = 64 - rest.length - 1 - 8 := by omega
      rw [hzeros]
      simp only [List.append_assoc, List.cons_append, List.nil_append]
    rw [hsplit, foldWhole_snoc hctx.dvd, ← hctx.h]
    · rw [Option.bind_some]
      dsimp only
      exact lastChunk_spec hstarts1 hone (by omega) (by omega) hbitsLen _
    · rw [List.length_append, List.length_append, List.length_replicate, hbitsLen]
      omega

/-- `sha256_close` after any pieces returns the digest of the whole message, and no write is outside the chunk. -/
theorem sha256_digest (ctx : Sha256Ctx) (pieces : List (List UInt8)) (hlen : pieces.flatten.length < 2 ^ 61) :
    sha256Pieces ctx pieces = some (shaDigest pieces.flatten) := by
  obtain ⟨ctx', whole, rest, hrun, hholds, happend, hsum⟩ :=
    sha256Writes_spec pieces (sha256Init_holds ctx) (rfl : (sha256Init ctx).len = 0 % 2 ^ 64)
  rw [List.append_nil, List.nil_append] at happend
  rw [happend, Nat.mod_eq_of_lt (by omega), ← happend] at hsum
  unfold sha256Pieces
  rw [hrun, Option.bind_some, sha256Close_spec hholds hsum, happend]

def sha256Unset : Sha256Ctx := ⟨fun _ => 0xff, 70, 0, 5, ⟨0, 0, 0, 0, 0, 0, 0, 0⟩⟩

/-- The published digest of the bytes `abc`. -/
example : sha256Pieces sha256Unset [[0x61], [], [0x62, 0x63]] = some [
    0xba, 0x78, 0x16, 0xbf, 0x8f, 0x01, 0xcf, 0xea, 0x41, 0x41, 0x40, 0xde, 0x5d, 0xae, 0x22, 0x23,
    0xb0, 0x03, 0x61, 0xa3, 0x96, 0x17, 0x7a, 0x9c, 0xb4, 0x10, 0xff, 0x61, 0xf2, 0x00, 0x15,
    0xad] := by decide +kernel

theorem sha256_digest_abc : [[0x61], [], [0x62, 0x63]].flatten.length < 2 ^ 61 ∧
    sha256Pieces sha256Unset [[0x61], [], [0x62, 0x63]] = some (shaDigest [0x61, 0x62, 0x63]) :=
  ⟨by decide, sha256_digest sha256Unset [[0x61], [], [0x62, 0x63]] (by decide)⟩

end Pml.Util
