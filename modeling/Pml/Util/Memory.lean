import Pml.Basic
import Pml.Lib.ByteMemory

/-!
# Copying and filling memory (`arch/x86_64/memcpy.S`, `arch/x86_64/memset.S`, `util/memmove.c`, `util/memcmp.c`)

`memcpy` and `memset` go to the first aligned address byte by byte, then word by word or in blocks of 128 bytes, and
the rest byte by byte.  For every length and alignment they copy and fill what they are called for (`memcpy_spec`,
`memset_fills`).  `mempcpy` calls `memcpy` and adds two of its registers, of which the second is not 0: it returns the
end of what it has copied only if that is empty (`mempcpy_end_iff`).

`memmove` goes down where the source is before an overlapping destination, and up otherwise.  Its loops over words,
and that of `memcmp`, are for addresses that `isAlignedLong` accepts, and the only such address is 0;
but they would be right at every address (`memmove_moves`, `memcmp_compares`).
-/

namespace Pml.Util

open ByteMemory

/-! ### The code -/

/-- The registers that `memcpy.S` and `memset.S` use for addresses, lengths and results, and the memory. -/
structure Insns where
  rax : Nat
  rcx : Nat
  rdx : Nat
  rsi : Nat
  rdi : Nat
  mem : Mem

namespace Insns

/-- `rep movsb` and `rep movsq`, for `rcx` units of `w` bytes. -/
def movs (w : Nat) : Nat → Insns → Insns
  | 0, s => s
  | k + 1, s => movs w k { s with
      mem := copy s.mem s.rdi s.rsi w
      rdi := add64 s.rdi w
      rsi := add64 s.rsi w
      rcx := s.rcx - 1 }

def repMovs (w : Nat) (s : Insns) : Insns := movs w s.rcx s

/-- The loop of `memcpy`: 64 bytes are loaded and stored, and 64 bytes again. -/
def copyBlocks : Nat → Insns → Insns
  | 0, s => s
  | k + 1, s => copyBlocks k { s with
      mem := copy (copy s.mem s.rdi s.rsi 64) (add64 s.rdi 64) (add64 s.rsi 64) 64
      rdi := add64 s.rdi 128
      rsi := add64 s.rsi 128
      rcx := s.rcx - 1 }

def copyHead (s : Insns) : Insns :=
  if s.rdi &&& 7 = 0 then s
  else repMovs 1 { s with rcx := 8 - (s.rdi &&& 7), rdx := s.rdx - (8 - (s.rdi &&& 7)) }

/-- `memcpy` from `.aligned` on. -/
def copyAligned (s : Insns) : Insns :=
  if s.rdx < 256 then
    let s := repMovs 8 { s with rcx := s.rdx >>> 3 }
    repMovs 1 { s with rcx := s.rdx &&& 7 }
  else
    let t := copyBlocks (s.rdx >>> 7) { s with rcx := s.rdx >>> 7 }
    { repMovs 1 { t with rcx := t.rdx &&& 127 } with rax := s.rax }

def memcpy (s : Insns) : Insns :=
  let s := { s with rax := s.rdi }
  if s.rdx < 16 then repMovs 1 { s with rcx := s.rdx } else copyAligned (copyHead s)

def mempcpy (s : Insns) : Insns :=
  let s := memcpy s
  { s with rax := add64 s.rdi s.rdx }

/-- `rep stosb` and `rep stosq` -/
def stos (w : Nat) : Nat → Insns → Insns
  | 0, s => s
  | k + 1, s => stos w k { s with
      mem := writeLE s.mem s.rdi w s.rax
      rdi := add64 s.rdi w
      rcx := s.rcx - 1 }

def repStos (w : Nat) (s : Insns) : Insns := stos w s.rcx s

/-- The loop of `memset`, with 16 stores of a word. -/
def setBlocks : Nat → Insns → Insns
  | 0, s => s
  | k + 1, s => setBlocks k { s with
      mem := (List.range 16).foldl (fun m i => writeLE m (add64 s.rdi (8 * i)) 8 s.rax) s.mem
      rdi := add64 s.rdi 128
      rcx := s.rcx - 1 }

/-- The bytes before `.aligned` in `memset`. -/
def setHead (s : Insns) : Insns :=
  if s.rdi &&& 7 = 0 then s
  else
    let s := repStos 1 { s with rcx := 8 - (s.rdi &&& 7), rdx := s.rdx - (8 - (s.rdi &&& 7)) }
    { s with rcx := s.rdx }

/-- `memset` from the test of the length on. -/
def setWords (s : Insns) : Insns :=
  if s.rdx < 256 then
    let s := repStos 8 { s with rcx := s.rcx >>> 3 }
    repStos 1 { s with rcx := s.rdx &&& 7 }
  else
    let s := setBlocks (s.rcx >>> 7) { s with rcx := s.rcx >>> 7 }
    repStos 1 { s with rcx := s.rdx &&& 127 }

def setAligned (s : Insns) : Insns := setWords { s with rax := s.rsi % 256 * 0x0101010101010101 % 2 ^ 64 }

def memset (s : Insns) : Insns :=
  let r9 := s.rdi
  let s := { s with rax := s.rsi, rcx := s.rdx }
  { (if s.rdx < 16 then repStos 1 s else setAligned (setHead s)) with rax := r9 }

end Insns

def mempcpyEnd (dest n : Nat) : Nat :=
  add64 (add64 dest n) (if n < 16 ∨ dest % 8 = 0 then n else n - (8 - dest % 8))

def moveDown (dest src : Nat) : Nat → Mem → Mem
  | 0, m => m
  | len + 1, m => moveDown dest src len (setByte m (dest + len) (m (src + len)))

def moveUp (w : Nat) : Nat → Nat → Nat → Mem → Mem
  | 0, _, _, m => m
  | k + 1, dest, src, m => moveUp w k (dest + w) (src + w) (copy m dest src w)

/-- The number of words that the two loops of `memmove` over words copy: a last word is left to the loop over
bytes. -/
def moveWords (len : Nat) : Nat := len / 32 * 4 + (len % 32 - 1) / 8

/-- `ALIGNED (x, long)`: the macro subtracts 1 from its argument, and `(long) - 1` is -1.  So only the address 0 is
aligned. -/
def isAlignedLong (x : Nat) : Bool := x &&& 0xffffffffffffffff == 0

def memmove (m : Mem) (dest src len : Nat) : Mem :=
  if src < dest ∧ dest < src + len then moveDown dest src len m
  else if 32 ≤ len ∧ isAlignedLong src ∧ isAlignedLong dest then
    let k := moveWords len
    moveUp 1 (len - 8 * k) (dest + 8 * k) (src + 8 * k) (moveUp 8 k dest src m)
  else moveUp 1 len dest src m

def compareWords (m : Mem) : Nat → Nat → Nat → Nat × Nat × Nat
  | len + 8, a, b => if readLE m a 8 ≠ readLE m b 8 then (len + 8, a, b) else compareWords m len (a + 8) (b + 8)
  | len, a, b => (len, a, b)

/-- The loop of `memcmp` over bytes. -/
def compareBytes (m : Mem) : Nat → Nat → Nat → Int
  | 0, _, _ => 0
  | len + 1, a, b =>
    if (m a).toNat < (m b).toNat then -1
    else if (m b).toNat < (m a).toNat then 1
    else compareBytes m len (a + 1) (b + 1)

def memcmp (m : Mem) (a b len : Nat) : Int :=
  if 8 ≤ len ∧ isAlignedLong a ∧ isAlignedLong b then
    let r := compareWords m len a b
    compareBytes m r.1 r.2.1 r.2.2
  else compareBytes m len a b

/-! ### Copying in parts -/

theorem copy_append {m : Mem} {dst src i k : Nat} (h : dst ≤ src ∨ src + i + k ≤ dst) :
    copy (copy m dst src i) (dst + i) (src + i) k = copy m dst src (i + k) := by
  funext x
  unfold copy
  by_cases h1 : dst + i ≤ x ∧ x < dst + i + k
  · rw [if_pos h1, if_neg (by omega), if_pos (by omega), show src + i + (x - (dst + i)) = src + (x - dst) by omega]
  · rw [if_neg h1]
    by_cases h2 : dst ≤ x ∧ x < dst + i
    · rw [if_pos h2, if_pos (by omega)]
    · rw [if_neg h2, if_neg (by omega)]

theorem copy_zero (m : Mem) (dst src : Nat) : copy m dst src 0 = m :=
  funext fun _ => if_neg (by omega)

private theorem fill_append {m : Mem} {a i k : Nat} {v : UInt8} :
    fill (fill m a i v) (a + i) k v = fill m a (i + k) v := by
  funext x
  unfold fill
  by_cases h1 : a + i ≤ x ∧ x < a + i + k
  · rw [if_pos h1, if_pos (by omega)]
  · rw [if_neg h1]
    by_cases h2 : a ≤ x ∧ x < a + i
    · rw [if_pos h2, if_pos (by omega)]
    · rw [if_neg h2, if_neg (by omega)]

private theorem fill_zero (m : Mem) (a : Nat) (v : UInt8) : fill m a 0 v = m := funext fun _ => if_neg (by omega)

private theorem and_seven (x : Nat) : x &&& 7 = x % 8 := Nat.and_two_pow_sub_one_eq_mod x 3

namespace Insns

/-- From `s` to `t`, `i` bytes are copied, and the two addresses move behind them. -/
structure Copies (s t : Insns) (i : Nat) : Prop where
  mem : t.mem = copy s.mem s.rdi s.rsi i
  rdi : t.rdi = s.rdi + i
  rsi : t.rsi = s.rsi + i
  rax : t.rax = s.rax

/-- `n` bytes can be copied up from `rsi` to `rdi`. -/
structure Clear (s : Insns) (n : Nat) : Prop where
  apart : s.rdi ≤ s.rsi ∨ s.rsi + n ≤ s.rdi
  dest : s.rdi + n < 2 ^ 64
  src : s.rsi + n < 2 ^ 64

variable {s t u : Insns} {i j n : Nat}

theorem Copies.trans (h : Copies s t i) (h' : Copies t u j) (hc : Clear s (i + j)) : Copies s u (i + j) := by
  have hapart := hc.apart
  refine ⟨?_, by rw [h'.rdi, h.rdi, Nat.add_assoc], by rw [h'.rsi, h.rsi, Nat.add_assoc],
    h'.rax.trans h.rax⟩
  rw [h'.mem, h.mem, h.rdi, h.rsi, copy_append (by omega)]

theorem Clear.rest (h : Clear s (i + j)) (hst : Copies s t i) : Clear t j := by
  have hapart := h.apart
  have hdest := h.dest
  have hsrc := h.src
  have hrdi := hst.rdi
  have hrsi := hst.rsi
  exact ⟨by omega, by omega, by omega⟩

theorem Clear.le (h : Clear s n) (hi : i ≤ n) : Clear s i := by
  have hapart := h.apart
  have hdest := h.dest
  have hsrc := h.src
  exact ⟨by omega, by omega, by omega⟩

private theorem copies_unit {w : Nat} (hc : Clear s w) : Copies s { s with
    mem := copy s.mem s.rdi s.rsi w
    rdi := add64 s.rdi w
    rsi := add64 s.rsi w
    rcx := s.rcx - 1 } w :=
  ⟨rfl, add64_of_lt hc.dest, add64_of_lt hc.src, rfl⟩

private theorem movs_copies {w k : Nat} (hc : Clear s (w * k)) : Copies s (movs w k s) (w * k) := by
  induction k generalizing s with
  | zero => exact ⟨(copy_zero ..).symm, rfl, rfl, rfl⟩
  | succ k ih =>
    rw [show w * (k + 1) = w + w * k by rw [Nat.mul_succ, Nat.add_comm]] at hc ⊢
    have hone := copies_unit (hc.le (Nat.le_add_right _ _))
    exact hone.trans (ih (hc.rest hone)) hc

private theorem repMovs_copies {w k : Nat} (hc : Clear s (w * k)) :
    Copies s (repMovs w { s with rcx := k }) (w * k) := by
  have hc' : Clear { s with rcx := k } (w * k) := ⟨hc.apart, hc.dest, hc.src⟩
  obtain ⟨h1, h2, h3, h4⟩ := movs_copies hc'
  exact ⟨h1, h2, h3, h4⟩

private theorem movs_rdx (w k : Nat) (s : Insns) : (movs w k s).rdx = s.rdx := by
  induction k generalizing s with
  | zero => rfl
  | succ k ih => exact ih _

private theorem copyBlocks_rdx (k : Nat) (s : Insns) : (copyBlocks k s).rdx = s.rdx := by
  induction k generalizing s with
  | zero => rfl
  | succ k ih => exact ih _

private theorem copyBlocks_copies {k : Nat} (hc : Clear s (128 * k)) : Copies s (copyBlocks k s) (128 * k) := by
  induction k generalizing s with
  | zero => exact ⟨(copy_zero ..).symm, rfl, rfl, rfl⟩
  | succ k ih =>
    rw [show 128 * (k + 1) = 128 + 128 * k by omega] at hc ⊢
    have hdest := hc.dest
    have hsrc := hc.src
    have hapart := hc.apart
    have hone : Copies s { s with
        mem := copy (copy s.mem s.rdi s.rsi 64) (add64 s.rdi 64) (add64 s.rsi 64) 64
        rdi := add64 s.rdi 128
        rsi := add64 s.rsi 128
        rcx := s.rcx - 1 } 128 := by
      refine ⟨?_, add64_of_lt (by omega), add64_of_lt (by omega), rfl⟩
      dsimp only
      rw [add64_of_lt (by omega), add64_of_lt (by omega), copy_append (by omega)]
    exact hone.trans (ih (hc.rest hone)) hc

def headLen (s : Insns) : Nat := if s.rdi % 8 = 0 then 0 else 8 - s.rdi % 8

private theorem copyHead_copies (hc : Clear s (headLen s)) :
    Copies s (copyHead s) (headLen s) ∧ (copyHead s).rdx = s.rdx - headLen s := by
  unfold copyHead headLen at *
  rw [and_seven]
  split
  · exact ⟨⟨(copy_zero ..).symm, rfl, rfl, rfl⟩, rfl⟩
  · rename_i hne
    rw [if_neg hne] at hc
    have hc' : Clear { s with rdx := s.rdx - (8 - s.rdi % 8) } (1 * (8 - s.rdi % 8)) := by
      rw [Nat.one_mul]
      exact ⟨hc.apart, hc.dest, hc.src⟩
    obtain ⟨h1, h2, h3, h4⟩ := repMovs_copies hc'
    rw [Nat.one_mul] at h1 h2 h3
    exact ⟨⟨h1, h2, h3, h4⟩, movs_rdx ..⟩

private theorem copies_rest {i k : Nat} (hst : Copies s t i) (hn : i + k = n) (hc : Clear s n) :
    Copies s (repMovs 1 { t with rcx := k }) n := by
  subst hn
  have hrest := hc.rest hst
  rw [← Nat.one_mul k] at hrest
  have hbytes := repMovs_copies hrest
  rw [Nat.one_mul] at hbytes
  exact hst.trans hbytes hc

private theorem copyAligned_copies (hc : Clear s s.rdx) :
    Copies s (copyAligned s) s.rdx ∧ (copyAligned s).rdx = s.rdx := by
  unfold copyAligned
  split
  · have hshift : s.rdx >>> 3 = s.rdx / 8 := Nat.shiftRight_eq_div_pow ..
    have hquads : Copies s (repMovs 8 { s with rcx := s.rdx >>> 3 }) (8 * (s.rdx / 8)) := by
      rw [hshift]
      exact repMovs_copies (hc.le (by omega))
    have hrdx : (repMovs 8 { s with rcx := s.rdx >>> 3 }).rdx = s.rdx := movs_rdx ..
    refine ⟨copies_rest hquads ?_ hc, (movs_rdx ..).trans hrdx⟩
    rw [hrdx, and_seven]
    omega
  · have hshift : s.rdx >>> 7 = s.rdx / 128 := Nat.shiftRight_eq_div_pow ..
    have hc' : Clear { s with rcx := s.rdx >>> 7 } (128 * (s.rdx / 128)) := by
      have hle := hc.le (show 128 * (s.rdx / 128) ≤ s.rdx by omega)
      exact ⟨hle.apart, hle.dest, hle.src⟩
    have hblocks : Copies s (copyBlocks (s.rdx >>> 7) { s with rcx := s.rdx >>> 7 }) (128 * (s.rdx / 128)) := by
      obtain ⟨h1, h2, h3, h4⟩ := copyBlocks_copies hc'
      rw [← hshift] at *
      exact ⟨h1, h2, h3, h4⟩
    have hrdx : (copyBlocks (s.rdx >>> 7) { s with rcx := s.rdx >>> 7 }).rdx = s.rdx := copyBlocks_rdx ..
    generalize copyBlocks (s.rdx >>> 7) { s with rcx := s.rdx >>> 7 } = t at hblocks hrdx ⊢
    have hall : Copies s (repMovs 1 { t with rcx := t.rdx &&& 127 }) s.rdx := by
      refine copies_rest hblocks ?_ hc
      rw [hrdx, show s.rdx &&& 127 = s.rdx % 128 from Nat.and_two_pow_sub_one_eq_mod s.rdx 7]
      omega
    exact ⟨⟨hall.mem, hall.rdi, hall.rsi, rfl⟩, (movs_rdx ..).trans hrdx⟩

def memcpyHead (s : Insns) : Nat := if s.rdx < 16 then 0 else headLen s

private theorem memcpy_spec (hc : Clear s s.rdx) :
    (memcpy s).mem = copy s.mem s.rdi s.rsi s.rdx ∧ (memcpy s).rax = s.rdi ∧
    (memcpy s).rdi = s.rdi + s.rdx ∧ (memcpy s).rdx = s.rdx - memcpyHead s := by
  have hc' : Clear { s with rax := s.rdi } s.rdx := ⟨hc.apart, hc.dest, hc.src⟩
  unfold memcpy memcpyHead
  dsimp only
  by_cases hshort : s.rdx < 16
  · rw [if_pos hshort, if_pos hshort]
    obtain ⟨h1, h2, -, h4⟩ := @repMovs_copies { s with rax := s.rdi } 1 s.rdx (by rwa [Nat.one_mul])
    rw [Nat.one_mul] at h1 h2
    exact ⟨h1, h4, h2, movs_rdx ..⟩
  · rw [if_neg hshort, if_neg hshort]
    have hhead : headLen s ≤ 7 := by
      unfold headLen
      split <;> omega
    have hhead' : headLen { s with rax := s.rdi } = headLen s := rfl
    obtain ⟨hcopy, hrdx⟩ := copyHead_copies (hc'.le (show headLen { s with rax := s.rdi } ≤ s.rdx by omega))
    rw [hhead'] at hcopy hrdx
    have hsum : headLen s + (copyHead { s with rax := s.rdi }).rdx = s.rdx := by
      rw [hrdx]
      dsimp only
      omega
    have hc2 : Clear { s with rax := s.rdi } (headLen s + (copyHead { s with rax := s.rdi }).rdx) := by rwa [hsum]
    obtain ⟨hcopy2, hrdx2⟩ := copyAligned_copies (hc2.rest hcopy)
    have htotal := hcopy.trans hcopy2 hc2
    rw [hsum] at htotal
    exact ⟨htotal.mem, htotal.rax, htotal.rdi, hrdx2.trans hrdx⟩

private theorem mempcpy_rax (hc : Clear s s.rdx) : (mempcpy s).rax = mempcpyEnd s.rdi s.rdx := by
  obtain ⟨-, -, hrdi, hrdx⟩ := memcpy_spec hc
  unfold mempcpy mempcpyEnd
  dsimp only
  rw [hrdi, hrdx, add64_of_lt hc.dest]
  congr 1
  unfold memcpyHead headLen
  by_cases h1 : s.rdx < 16
  · rw [if_pos h1, if_pos (Or.inl h1), Nat.sub_zero]
  · by_cases h2 : s.rdi % 8 = 0
    · rw [if_neg h1, if_pos h2, if_pos (Or.inr h2), Nat.sub_zero]
    · rw [if_neg h1, if_neg h2, if_neg (by omega)]

private theorem mempcpyEnd_eq_iff {p n : Nat} (h : p + n < 2 ^ 64) : mempcpyEnd p n = p + n ↔ n = 0 := by
  unfold mempcpyEnd
  rw [add64_of_lt h]
  split
  · unfold add64
    omega
  · unfold add64
    omega

/-- For every length and every alignment `memcpy` copies the bytes and returns the destination.  `mempcpy` copies the
same bytes, but the address that it returns is the end of the destination only if no bytes are copied. -/
theorem mempcpy_end_iff (hc : Clear s s.rdx) :
    ((memcpy s).mem = copy s.mem s.rdi s.rsi s.rdx ∧ (memcpy s).rax = s.rdi) ∧
      (mempcpy s).mem = copy s.mem s.rdi s.rsi s.rdx ∧ ((mempcpy s).rax = s.rdi + s.rdx ↔ s.rdx = 0) := by
  obtain ⟨hmem, hrax, -⟩ := memcpy_spec hc
  rw [mempcpy_rax hc]
  exact ⟨⟨hmem, hrax⟩, hmem, mempcpyEnd_eq_iff hc.dest⟩

/-- One byte is copied. -/
theorem mempcpy_end_iff_one : (memcpy ⟨0, 0, 1, 8, 0, UInt8.ofNat⟩).mem = copy UInt8.ofNat 0 8 1 ∧
    (mempcpy ⟨0, 0, 1, 8, 0, UInt8.ofNat⟩).rax ≠ 1 := by
  have h := @mempcpy_end_iff ⟨0, 0, 1, 8, 0, UInt8.ofNat⟩ ⟨Or.inl (Nat.zero_le _), Nat.one_lt_two_pow (by decide),
    show 9 < 2 ^ 64 by decide⟩
  exact ⟨h.1.1, fun h1 => absurd (h.2.2.1 h1) Nat.one_ne_zero⟩

/-! ### Filling -/

private theorem writeLE_fill {m : Mem} {a v : Nat} {b : UInt8} :
    ∀ {w : Nat}, (∀ i < w, UInt8.ofNat (v / 256 ^ i) = b) → writeLE m a w v = fill m a w b := by
  intro w h
  induction w generalizing a v with
  | zero => exact (fill_zero ..).symm
  | succ w ih =>
    have hrest : ∀ i < w, UInt8.ofNat (v / 256 / 256 ^ i) = b := fun i hi => by
      rw [Nat.div_div_eq_div_mul, ← Nat.pow_succ']
      exact h (i + 1) (by omega)
    have hfirst : UInt8.ofNat v = b := by simpa using h 0 (Nat.zero_lt_succ _)
    funext x
    unfold writeLE
    rw [ih hrest]
    unfold fill
    by_cases hx : x = a
    · rw [if_pos hx, if_pos (by omega), hfirst]
    · rw [if_neg hx]
      by_cases h1 : a + 1 ≤ x ∧ x < a + 1 + w
      · rw [if_pos h1, if_pos (by omega)]
      · rw [if_neg h1, if_neg (by omega)]

private theorem repeated_byte {c i : Nat} (hc : c < 256) (hi : i < 8) :
    UInt8.ofNat (c * 0x0101010101010101 % 2 ^ 64 / 256 ^ i) = UInt8.ofNat c := by
  have hall : ∀ c < 256, ∀ i < 8, c * 0x0101010101010101 % 2 ^ 64 / 256 ^ i % 256 = c % 256 := by decide +kernel
  apply UInt8.toNat_inj.1
  rw [UInt8.toNat_ofNat', UInt8.toNat_ofNat']
  exact hall c hc i hi

/-- From `s` to `t`, `i` bytes are set to `b`, and the address moves behind them. -/
structure Fills (b : UInt8) (s t : Insns) (i : Nat) : Prop where
  mem : t.mem = fill s.mem s.rdi i b
  rdi : t.rdi = s.rdi + i
  rax : t.rax = s.rax
  rdx : t.rdx = s.rdx
  rsi : t.rsi = s.rsi

def Bytes (b : UInt8) (w rax : Nat) : Prop := ∀ i < w, UInt8.ofNat (rax / 256 ^ i) = b

variable {b : UInt8}

theorem Fills.trans (h : Fills b s t i) (h' : Fills b t u j) : Fills b s u (i + j) := by
  refine ⟨?_, by rw [h'.rdi, h.rdi, Nat.add_assoc], h'.rax.trans h.rax, h'.rdx.trans h.rdx,
    h'.rsi.trans h.rsi⟩
  rw [h'.mem, h.mem, h.rdi, fill_append]

private theorem stos_fills {w k : Nat} (hb : Bytes b w s.rax) (htop : s.rdi + w * k < 2 ^ 64) :
    Fills b s (stos w k s) (w * k) := by
  induction k generalizing s with
  | zero => exact ⟨(fill_zero ..).symm, rfl, rfl, rfl, rfl⟩
  | succ k ih =>
    rw [show w * (k + 1) = w + w * k by rw [Nat.mul_succ, Nat.add_comm]] at htop ⊢
    have hone : Fills b s { s with
        mem := writeLE s.mem s.rdi w s.rax
        rdi := add64 s.rdi w
        rcx := s.rcx - 1 } w := ⟨writeLE_fill hb, add64_of_lt (by omega), rfl, rfl, rfl⟩
    exact hone.trans (ih hb (by rw [hone.rdi]; omega))

private theorem stores_fill {rax a : Nat} (hb : Bytes b 8 rax) (k : Nat) (htop : a + 8 * k < 2 ^ 64) (m : Mem) :
    (List.range k).foldl (fun m i => writeLE m (add64 a (8 * i)) 8 rax) m = fill m a (8 * k) b := by
  induction k with
  | zero => exact (fill_zero ..).symm
  | succ k ih =>
    rw [List.range_succ, List.foldl_append, List.foldl_cons, List.foldl_nil, ih (by omega), add64_of_lt (by omega),
      writeLE_fill hb, fill_append]
    rfl

private theorem setBlocks_fills {k : Nat} (hb : Bytes b 8 s.rax) (htop : s.rdi + 128 * k < 2 ^ 64) :
    Fills b s (setBlocks k s) (128 * k) := by
  induction k generalizing s with
  | zero => exact ⟨(fill_zero ..).symm, rfl, rfl, rfl, rfl⟩
  | succ k ih =>
    rw [show 128 * (k + 1) = 128 + 128 * k by omega] at htop ⊢
    have hone : Fills b s { s with
        mem := (List.range 16).foldl (fun m i => writeLE m (add64 s.rdi (8 * i)) 8 s.rax) s.mem
        rdi := add64 s.rdi 128
        rcx := s.rcx - 1 } 128 := ⟨stores_fill hb 16 (by omega) _, add64_of_lt (by omega), rfl, rfl, rfl⟩
    exact hone.trans (ih hb (by rw [hone.rdi]; omega))

private theorem fills_rest {k : Nat} (hst : Fills b s t i) (hn : i + k = n) (hb : Bytes b 1 s.rax)
    (htop : s.rdi + n < 2 ^ 64) :
    Fills b s (repStos 1 { t with rcx := k }) n := by
  subst hn
  have hb' : Bytes b 1 ({ t with rcx := k } : Insns).rax := by
    show Bytes b 1 t.rax
    rw [hst.rax]
    exact hb
  have htop' : ({ t with rcx := k } : Insns).rdi + 1 * k < 2 ^ 64 := by
    show t.rdi + 1 * k < 2 ^ 64
    rw [hst.rdi]
    omega
  obtain ⟨h1, h2, h3, h4, h5⟩ := stos_fills hb' htop'
  rw [Nat.one_mul] at h1 h2
  exact hst.trans ⟨h1, h2, h3, h4, h5⟩

private theorem setWords_fills (hb : Bytes b 8 s.rax) (hrcx : s.rcx = s.rdx) (htop : s.rdi + s.rdx < 2 ^ 64) :
    Fills b s (setWords s) s.rdx := by
  have hb1 : Bytes b 1 s.rax := fun i hi => hb i (by omega)
  unfold setWords
  rw [hrcx]
  split
  · have hshift : s.rdx >>> 3 = s.rdx / 8 := Nat.shiftRight_eq_div_pow ..
    have hquads : Fills b s (repStos 8 { s with rcx := s.rdx >>> 3 }) (8 * (s.rdx / 8)) := by
      rw [hshift]
      obtain ⟨h1, h2, h3, h4, h5⟩ := @stos_fills { s with rcx := s.rdx / 8 } b 8 (s.rdx / 8) hb (by dsimp only; omega)
      exact ⟨h1, h2, h3, h4, h5⟩
    have hrdx := hquads.rdx
    refine fills_rest hquads ?_ hb1 htop
    rw [hrdx, and_seven]
    omega
  · have hshift : s.rdx >>> 7 = s.rdx / 128 := Nat.shiftRight_eq_div_pow ..
    have hblocks : Fills b s (setBlocks (s.rdx >>> 7) { s with rcx := s.rdx >>> 7 }) (128 * (s.rdx / 128)) := by
      rw [hshift]
      obtain ⟨h1, h2, h3, h4, h5⟩ :=
        @setBlocks_fills { s with rcx := s.rdx / 128 } b (s.rdx / 128) hb (by dsimp only; omega)
      exact ⟨h1, h2, h3, h4, h5⟩
    have hrdx := hblocks.rdx
    refine fills_rest hblocks ?_ hb1 htop
    rw [hrdx, show s.rdx &&& 127 = s.rdx % 128 from Nat.and_two_pow_sub_one_eq_mod s.rdx 7]
    omega

private theorem low_byte (v : Nat) : Bytes (UInt8.ofNat v) 1 v := fun i hi => by
  obtain rfl : i = 0 := by omega
  rw [Nat.pow_zero, Nat.div_one]

private theorem setHead_fills (htop : s.rdi + headLen s < 2 ^ 64) (hrcx : s.rcx = s.rdx) :
    (setHead s).mem = fill s.mem s.rdi (headLen s) (UInt8.ofNat s.rax) ∧ (setHead s).rdi = s.rdi + headLen s ∧
      (setHead s).rdx = s.rdx - headLen s ∧ (setHead s).rcx = (setHead s).rdx ∧ (setHead s).rsi = s.rsi := by
  unfold setHead headLen at *
  rw [and_seven]
  split
  · exact ⟨(fill_zero ..).symm, rfl, rfl, hrcx, rfl⟩
  · rename_i hne
    rw [if_neg hne] at htop
    obtain ⟨h1, h2, -, h4, h5⟩ := @stos_fills { s with rcx := 8 - s.rdi % 8, rdx := s.rdx - (8 - s.rdi % 8) } _ 1
      (8 - s.rdi % 8) (low_byte s.rax) (by rwa [Nat.one_mul])
    rw [Nat.one_mul] at h1 h2
    exact ⟨h1, h2, h4, rfl, h5⟩

/-- For every length and every alignment `memset` sets its bytes and returns the destination. -/
theorem memset_fills (s : Insns) (htop : s.rdi + s.rdx < 2 ^ 64) :
    (memset s).mem = fill s.mem s.rdi s.rdx (UInt8.ofNat s.rsi) ∧ (memset s).rax = s.rdi := by
  refine ⟨?_, rfl⟩
  unfold memset
  dsimp only
  by_cases hshort : s.rdx < 16
  · rw [if_pos hshort]
    obtain ⟨h1, -⟩ :=
      @stos_fills { s with rax := s.rsi, rcx := s.rdx } _ 1 s.rdx (low_byte s.rsi) (by rwa [Nat.one_mul])
    rw [Nat.one_mul] at h1
    exact h1
  · rw [if_neg hshort]
    have hhead : headLen s ≤ 7 := by
      unfold headLen
      split <;> omega
    obtain ⟨hmem, hrdi, hrdx, hrcx, hrsi⟩ := @setHead_fills { s with rax := s.rsi, rcx := s.rdx } (by
      show s.rdi + headLen s < 2 ^ 64
      omega) rfl
    generalize setHead { s with rax := s.rsi, rcx := s.rdx } = t at hmem hrdi hrdx hrcx hrsi ⊢
    dsimp only at hmem hrdi hrdx hrsi
    have hb : Bytes (UInt8.ofNat s.rsi) 8 (t.rsi % 256 * 0x0101010101010101 % 2 ^ 64) := fun i hi => by
      rw [hrsi, repeated_byte (Nat.mod_lt _ (by decide)) hi]
      exact UInt8.toNat_inj.1 (by rw [UInt8.toNat_ofNat', UInt8.toNat_ofNat', Nat.mod_mod])
    have hfill := @setWords_fills { t with rax := t.rsi % 256 * 0x0101010101010101 % 2 ^ 64 } _ hb hrcx (by
      show t.rdi + t.rdx < 2 ^ 64
      rw [hrdi, hrdx]
      show s.rdi + headLen s + (s.rdx - headLen s) < 2 ^ 64
      omega)
    refine hfill.mem.trans ?_
    show fill t.mem t.rdi t.rdx _ = _
    rw [hmem, hrdi, hrdx]
    show fill (fill s.mem s.rdi (headLen s) _) (s.rdi + headLen s) (s.rdx - headLen s) _ = _
    rw [fill_append, Nat.add_sub_of_le (by omega)]

/-- From an address that is not aligned, in blocks. -/
theorem memset_fills_blocks :
    (memset ⟨0, 0, 300, 7, 5, UInt8.ofNat⟩).mem = fill UInt8.ofNat 5 300 (UInt8.ofNat 7) :=
  (memset_fills ⟨0, 0, 300, 7, 5, UInt8.ofNat⟩ (by decide)).1

end Insns

/-! ### Moving -/

private theorem moveDown_copy {m : Mem} {dest src : Nat} (h : src < dest) (len : Nat) :
    moveDown dest src len m = copy m dest src len := by
  induction len generalizing m with
  | zero => exact (copy_zero ..).symm
  | succ len ih =>
    rw [moveDown, ih]
    funext x
    unfold copy setByte
    by_cases h1 : dest ≤ x ∧ x < dest + len
    · rw [if_pos h1, if_neg (by omega), if_pos (by omega)]
    · rw [if_neg h1]
      by_cases h2 : x = dest + len
      · rw [if_pos h2, if_pos (by omega), h2, Nat.add_sub_cancel_left]
      · rw [if_neg h2, if_neg (by omega)]

private theorem moveUp_copy {w k dest src : Nat} {m : Mem} (h : dest ≤ src ∨ src + w * k ≤ dest) :
    moveUp w k dest src m = copy m dest src (w * k) := by
  induction k generalizing dest src m with
  | zero => exact (copy_zero ..).symm
  | succ k ih =>
    rw [show w * (k + 1) = w + w * k by rw [Nat.mul_succ, Nat.add_comm]] at h ⊢
    rw [moveUp, ih (by omega), copy_append (by omega)]

/-- Whatever the overlap, `memmove` leaves the bytes at the destination that were at the source before. -/
theorem memmove_moves (m : Mem) (dest src len : Nat) : memmove m dest src len = copy m dest src len := by
  unfold memmove
  split
  · rename_i h
    exact moveDown_copy h.1 len
  · rename_i h
    have hapart : dest ≤ src ∨ src + len ≤ dest := by omega
    split
    · have hle : 8 * moveWords len ≤ len := by
        unfold moveWords
        omega
      dsimp only
      rw [moveUp_copy (by omega), moveUp_copy (by omega), Nat.one_mul, copy_append (by omega), Nat.add_sub_of_le hle]
    · rw [moveUp_copy (by omega), Nat.one_mul]

/-! ### Comparing -/

private theorem readLE_eq_iff {m : Mem} {a b n : Nat} :
    readLE m a n = readLE m b n ↔ ∀ i < n, m (a + i) = m (b + i) := by
  refine ⟨fun h => ?_, fun h => readLE_congr_shift h⟩
  induction n generalizing a b with
  | zero => exact fun i hi => absurd hi (Nat.not_lt_zero i)
  | succ n ih =>
    rw [readLE, readLE] at h
    have ha := (m a).toNat_lt
    have hb := (m b).toNat_lt
    have hfirst : m a = m b := UInt8.toNat_inj.1 (by omega)
    have hrest := @ih (a + 1) (b + 1) (by omega)
    rintro (- | i) hi
    · exact hfirst
    · have hi' := hrest i (by omega)
      rwa [show a + 1 + i = a + (i + 1) by omega, show b + 1 + i = b + (i + 1) by omega] at hi'

section

variable {m : Mem}

theorem compareBytes_skip {len i a b : Nat} (hi : i ≤ len) (h : ∀ j < i, m (a + j) = m (b + j)) :
    compareBytes m len a b = compareBytes m (len - i) (a + i) (b + i) := by
  induction i generalizing len a b with
  | zero => rfl
  | succ i ih =>
    obtain ⟨len, rfl⟩ : ∃ l, len = l + 1 := ⟨len - 1, by omega⟩
    have h0 : m a = m b := h 0 (Nat.zero_lt_succ i)
    rw [compareBytes, h0, if_neg (Nat.lt_irrefl _), if_neg (Nat.lt_irrefl _), ih (by omega) fun j hj => ?_]
    · rw [Nat.add_sub_add_right, show a + 1 + i = a + (i + 1) by omega, show b + 1 + i = b + (i + 1) by omega]
    · have hj' := h (j + 1) (by omega)
      rwa [show a + 1 + j = a + (j + 1) by omega, show b + 1 + j = b + (j + 1) by omega]

private theorem compareWords_skips (len a b : Nat) : ∃ i ≤ len, compareWords m len a b = (len - i, a + i, b + i) ∧
    ∀ j < i, m (a + j) = m (b + j) := by
  fun_induction compareWords m len a b with
  | case1 len a b h => exact ⟨0, Nat.zero_le _, rfl, fun j hj => absurd hj (Nat.not_lt_zero j)⟩
  | case2 len a b h ih =>
    obtain ⟨i, hi, he, hsame⟩ := ih
    have hword := readLE_eq_iff.1 (not_not.1 h)
    refine ⟨8 + i, by omega, ?_, fun j hj => ?_⟩
    · rw [he, show len + 8 - (8 + i) = len - i by omega, Nat.add_assoc, Nat.add_assoc]
    · by_cases hj8 : j < 8
      · exact hword j hj8
      · have hj' := hsame (j - 8) (by omega)
        rwa [show a + 8 + (j - 8) = a + j by omega, show b + 8 + (j - 8) = b + j by omega] at hj'
  | case3 len a b h => exact ⟨0, Nat.zero_le _, rfl, fun j hj => absurd hj (Nat.not_lt_zero j)⟩

theorem memcmp_bytes (a b len : Nat) : memcmp m a b len = compareBytes m len a b := by
  unfold memcmp
  split
  · obtain ⟨i, hi, he, hsame⟩ := @compareWords_skips m len a b
    dsimp only
    rw [he, compareBytes_skip hi hsame]
  · rfl

def Before (m : Mem) (a b len : Nat) : Prop :=
  ∃ i < len, (m (a + i)).toNat < (m (b + i)).toNat ∧ ∀ j < i, m (a + j) = m (b + j)

private theorem compareBytes_cases (len a b : Nat) : (compareBytes m len a b = 0 ∧ ∀ i < len, m (a + i) = m (b + i)) ∨
    (compareBytes m len a b = -1 ∧ Before m a b len) ∨ compareBytes m len a b = 1 ∧ Before m b a len := by
  induction len generalizing a b with
  | zero => exact Or.inl ⟨rfl, fun i hi => absurd hi (Nat.not_lt_zero i)⟩
  | succ len ih =>
    rw [compareBytes]
    rcases Nat.lt_trichotomy (m a).toNat (m b).toNat with hlt | heq | hlt
    · rw [if_pos hlt]
      exact Or.inr (Or.inl ⟨rfl, 0, Nat.zero_lt_succ _, hlt, fun j hj => absurd hj (Nat.not_lt_zero j)⟩)
    · rw [if_neg (by omega), if_neg (by omega)]
      have heq := UInt8.toNat_inj.1 heq
      -- a difference behind the first byte
      have hnext : ∀ {x y : Nat}, m x = m y → Before m (x + 1) (y + 1) len → Before m x y (len + 1) := by
        rintro x y hxy ⟨i, hi, hlt, hsame⟩
        refine ⟨i + 1, by omega, by rwa [Nat.add_right_comm x, Nat.add_right_comm y] at hlt, ?_⟩
        rintro (- | j) hj
        · exact hxy
        · have hj' := hsame j (by omega)
          rwa [Nat.add_right_comm x, Nat.add_right_comm y] at hj'
      rcases ih (a + 1) (b + 1) with ⟨h0, hall⟩ | ⟨h1, hb⟩ | ⟨h1, hb⟩
      · refine Or.inl ⟨h0, ?_⟩
        rintro (- | i) hi
        · exact heq
        · have hi' := hall i (by omega)
          rwa [Nat.add_right_comm a, Nat.add_right_comm b] at hi'
      · exact Or.inr (Or.inl ⟨h1, hnext heq hb⟩)
      · exact Or.inr (Or.inr ⟨h1, hnext heq.symm hb⟩)
    · rw [if_neg (by omega), if_pos hlt]
      exact Or.inr (Or.inr ⟨rfl, 0, Nat.zero_lt_succ _, hlt, fun j hj => absurd hj (Nat.not_lt_zero j)⟩)

private theorem Before.asymm {a b len : Nat} (h : Before m a b len) : ¬ Before m b a len := by
  obtain ⟨i, hi, hlt, hsame⟩ := h
  rintro ⟨j, hj, hlt', hsame'⟩
  rcases Nat.lt_trichotomy i j with hij | rfl | hij
  · rw [hsame' i hij] at hlt
    exact Nat.lt_irrefl _ hlt
  · omega
  · rw [hsame j hij] at hlt'
    exact Nat.lt_irrefl _ hlt'

private theorem Before.differs {a b len : Nat} (h : Before m a b len) : ¬ ∀ i < len, m (a + i) = m (b + i) := by
  obtain ⟨i, hi, hlt, -⟩ := h
  intro hall
  rw [hall i hi] at hlt
  exact Nat.lt_irrefl _ hlt

theorem compareBytes_compares (a b len : Nat) : (compareBytes m len a b = 0 ↔ ∀ i < len, m (a + i) = m (b + i)) ∧
    (compareBytes m len a b < 0 ↔ Before m a b len) ∧ (0 < compareBytes m len a b ↔ Before m b a len) := by
  rcases @compareBytes_cases m len a b with ⟨h, hall⟩ | ⟨h, hb⟩ | ⟨h, hb⟩
  · rw [h]
    refine ⟨iff_of_true rfl hall, iff_of_false (lt_irrefl 0) fun hb => hb.differs hall, iff_of_false (lt_irrefl 0) ?_⟩
    exact fun hb => hb.differs fun i hi => (hall i hi).symm
  · rw [h]
    exact ⟨iff_of_false (by decide) hb.differs, iff_of_true (by decide) hb, iff_of_false (by decide) hb.asymm⟩
  · rw [h]
    refine ⟨iff_of_false (by decide) fun hall => hb.differs fun i hi => (hall i hi).symm,
      iff_of_false (by decide) hb.asymm, iff_of_true (by decide) hb⟩

/-- For every length and every alignment `memcmp` compares the bytes in order: it is 0, negative or positive exactly
if all bytes are the same, or of the first ones that differ the first or the second one is smaller. -/
theorem memcmp_compares (a b len : Nat) : (memcmp m a b len = 0 ↔ ∀ i < len, m (a + i) = m (b + i)) ∧
    (memcmp m a b len < 0 ↔ Before m a b len) ∧ (0 < memcmp m a b len ↔ Before m b a len) := by
  rw [memcmp_bytes]
  exact compareBytes_compares a b len

end

end Pml.Util
