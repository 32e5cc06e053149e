import Mathlib.Data.List.Basic
import Mathlib.Logic.Function.Basic
import Pml.Util.Ctype

/-!
# Formatted output (`util/printf.c`)

`print_internal` goes through the format and hands each character to an output function, with an index that counts the
characters.  The output function returns nothing, so here its calls are recorded; `write_buffer` is applied to them
afterwards (`vsnprintf`).  An argument is a slot of 64 bits of which each conversion takes as many as it wants; a slot
that is taken for a pointer leads to a string.

The digits of a number are put into an array of 32 bytes, the last one first.  A byte that would be stored after its
end, a character that would be read after the terminator of the format and a unit that is not in the table stop the
model.
-/

namespace Pml.Util

/-! ### Output -/

/-- The flags of a conversion. -/
structure PrintfFlags where
  padZero : Bool := false
  left : Bool := false
  plus : Bool := false
  space : Bool := false
  special : Bool := false
  upcase : Bool := false
  char : Bool := false
  short : Bool := false
  long : Bool := false
  prec : Bool := false
  deriving DecidableEq

/-- The calls of the output function, and `index`. -/
structure Output where
  calls : List (UInt8 × Nat)
  index : Nat
  deriving DecidableEq

namespace Output

/-- `func (c, buffer, index++, maxlen)` -/
def put (o : Output) (c : UInt8) : Output := ⟨o.calls ++ [(c, o.index)], o.index + 1⟩

def putAll (o : Output) (cs : List UInt8) : Output := cs.foldl put o

def pad (o : Output) (n : Nat) : Output := o.putAll (List.replicate n 0x20)

end Output

def printPadString (o : Output) (input : List UInt8) (width : Nat) (flags : PrintfFlags) : Output :=
  let o₁ := if flags.left = false ∧ flags.padZero = false then o.pad (width - input.length) else o
  let o₂ := o₁.putAll input.reverse
  if flags.left then o₂.pad (width - (o₂.index - o.index)) else o₂

/-! ### Numbers -/

def integerBufferSize : Nat := 32

def putDigit (c : UInt8) (input : List UInt8) : Option (List UInt8) :=
  if input.length < integerBufferSize then some (input ++ [c]) else none

def zeroFill (input : List UInt8) (n : Nat) : List UInt8 :=
  input ++ List.replicate (min n integerBufferSize - input.length) 0x30

def signWidth (negative : Bool) (width : Nat) (flags : PrintfFlags) : Nat :=
  if flags.left = false ∧ width ≠ 0 ∧ flags.padZero = true ∧
    (negative = true ∨ flags.plus = true ∨ flags.space = true) then
    width - 1
  else width

def padInput (input : List UInt8) (prec width : Nat) (flags : PrintfFlags) : List UInt8 :=
  if flags.left then input
  else if flags.padZero then zeroFill (zeroFill input prec) width
  else zeroFill input prec

def makeRoom (input : List UInt8) (base prec width : Nat) (flags : PrintfFlags) : List UInt8 :=
  if flags.prec = false ∧ input.length ≠ 0 ∧ (input.length = prec ∨ input.length = width) then
    if input.dropLast.length ≠ 0 ∧ base = 16 then input.dropLast.dropLast else input.dropLast
  else input

def putPrefix (input : List UInt8) (base : Nat) (flags : PrintfFlags) : Option (List UInt8) :=
  if input.length < integerBufferSize then
    if base = 16 then (putDigit (if flags.upcase then 0x58 else 0x78) input).bind (putDigit 0x30)
    else if base = 2 then (putDigit 0x62 input).bind (putDigit 0x30)
    else putDigit 0x30 input
  else some input

def putSign (input : List UInt8) (negative : Bool) (flags : PrintfFlags) : List UInt8 :=
  if input.length < integerBufferSize then
    if negative then input ++ [0x2d]
    else if flags.plus then input ++ [0x2b]
    else if flags.space then input ++ [0x20]
    else input
  else input

def printInteger (o : Output) (input : List UInt8) (negative : Bool) (base prec width : Nat) (flags : PrintfFlags) :
    Option Output :=
  let width := signWidth negative width flags
  let input := padInput input prec width flags
  let input := if flags.special then putPrefix (makeRoom input base prec width flags) base flags else some input
  input.map fun input => printPadString o (putSign input negative flags) width flags

def digitChar (upcase : Bool) (d : Nat) : UInt8 :=
  UInt8.ofNat (if d < 10 then d + 0x30 else (if upcase then 0x41 else 0x61) + d - 10)

def printDigits (base : Nat) (upcase : Bool) : Nat → Nat → List UInt8 → List UInt8
  | 0, _, input => input
  | fuel + 1, value, input =>
    if value / base ≠ 0 ∧ (input ++ [digitChar upcase (value % base)]).length < integerBufferSize then
      printDigits base upcase fuel (value / base) (input ++ [digitChar upcase (value % base)])
    else input ++ [digitChar upcase (value % base)]

def printLong (o : Output) (value : Nat) (negative : Bool) (base prec width : Nat) (flags : PrintfFlags) :
    Option Output :=
  printInteger o (if flags.prec = false ∨ value ≠ 0 then printDigits base flags.upcase integerBufferSize value []
    else [])
    negative base prec width flags

def humanUnit : Nat → Nat → Nat → Nat
  | 0, _, i => i
  | fuel + 1, temp, i => if temp / 1024 > 0 then humanUnit fuel (temp / 1024) (i + 1) else i

def humanIndex (value : Nat) : Nat :=
  let i := humanUnit 64 value 0
  if i ≠ 0 ∧ value >>> (10 * i) < 16 then i - 1 else i

/-- The table of units, `BKMGTP`. -/
def sizeUnits : List UInt8 := [0x42, 0x4b, 0x4d, 0x47, 0x54, 0x50]

def printHumanSize (o : Output) (value width : Nat) (flags : PrintfFlags) : Option Output :=
  sizeUnits[humanIndex value]?.map fun unit =>
    printPadString o (printDigits 10 false integerBufferSize (value >>> (10 * humanIndex value)) [unit]) width
      { left := flags.left }

/-! ### Arguments -/

/-- The slots of the arguments, and the strings that pointers lead to. -/
structure VaList where
  slot : Nat → BitVec 64
  string : BitVec 64 → CStr

/-- `va_arg (args, int)` -/
def vaInt (a : BitVec 64) : Int := (a.setWidth 32).toInt

def toUlong (v : Int) : Nat := (BitVec.ofInt 64 v).toNat

/-- The `int` after the conversion to `char` or `short`. -/
def intValue (a : BitVec 64) (flags : PrintfFlags) : Int :=
  if flags.char then (BitVec.ofInt 8 (vaInt a)).toInt
  else if flags.short then (BitVec.ofInt 16 (vaInt a)).toInt
  else vaInt a

def intBase (c : UInt8) : Nat := if c = 0x78 ∨ c = 0x58 then 16 else if c = 0x6f then 8 else if c = 0x62 then 2
    else 10

def isSignedConv (c : UInt8) : Bool := c == 0x64 || c == 0x69

def intFlags (c : UInt8) (flags : PrintfFlags) : PrintfFlags :=
  { flags with
    upcase := flags.upcase || c == 0x58
    special := flags.special && intBase c != 10
    plus := flags.plus && isSignedConv c
    space := flags.space && isSignedConv c
    padZero := flags.padZero && !flags.prec }

/-- The value that `print_long` is called with; the negative of an `int` or a `long` is one. -/
def intMagnitude (c : UInt8) (a : BitVec 64) (flags : PrintfFlags) : Nat :=
  if isSignedConv c then
    if flags.long then toUlong (if a.toInt > 0 then a.toInt else (BitVec.ofInt 64 (-a.toInt)).toInt)
    else toUlong (if intValue a flags > 0 then intValue a flags else (BitVec.ofInt 32 (-intValue a flags)).toInt)
  else if flags.long then a.toNat
  else toUlong (intValue a flags)

def intNegative (c : UInt8) (a : BitVec 64) (flags : PrintfFlags) : Bool :=
  isSignedConv c && if flags.long then decide (a.toInt < 0) else decide (intValue a flags < 0)

def printIntConv (o : Output) (c : UInt8) (a : BitVec 64) (prec width : Nat) (flags : PrintfFlags) : Option Output :=
  printLong o (intMagnitude c a flags) (intNegative c a flags) (intBase c) prec width (intFlags c flags)

/-! ### The format -/

/-- A conversion of the format: the pointer to its character, the next slot, the flags, the width and the
precision. -/
structure PrintfSpec where
  fmt : CStr
  args : Nat
  flags : PrintfFlags
  width : Nat
  prec : Nat

def parseFlags : CStr → PrintfFlags → CStr × PrintfFlags
  | [], flags => ([], flags)
  | c :: fmt, flags =>
    if c = 0x30 then parseFlags fmt { flags with padZero := true }
    else if c = 0x2d then parseFlags fmt { flags with left := true }
    else if c = 0x2b then parseFlags fmt { flags with plus := true }
    else if c = 0x20 then parseFlags fmt { flags with space := true }
    else if c = 0x23 then parseFlags fmt { flags with special := true }
    else (c :: fmt, flags)

def parseFmtNumber : CStr → Nat → Nat × CStr
  | [], n => (n, [])
  | c :: fmt, n => if isdigit c then parseFmtNumber fmt ((n * 10 + c.toNat - 0x30) % 2 ^ 32) else (n, c :: fmt)

def parseWidth (va : VaList) (s : PrintfSpec) : PrintfSpec :=
  if isdigit (deref s.fmt) then { s with width := (parseFmtNumber s.fmt 0).1, fmt := (parseFmtNumber s.fmt 0).2 }
  else if deref s.fmt = 0x2a then
    if vaInt (va.slot s.args) < 0 then
      { s with
        flags := { s.flags with left := true }, width := (-vaInt (va.slot s.args)).toNat, fmt := s.fmt.tail, args :=
          s.args + 1 }
    else { s with width := (vaInt (va.slot s.args)).toNat, fmt := s.fmt.tail, args := s.args + 1 }
  else s

def parsePrecNumber (va : VaList) (s : PrintfSpec) : PrintfSpec :=
  if isdigit (deref s.fmt) then { s with prec := (parseFmtNumber s.fmt 0).1, fmt := (parseFmtNumber s.fmt 0).2 }
  else if deref s.fmt = 0x2a then
    if vaInt (va.slot s.args) > 0 then
      { s with prec := (vaInt (va.slot s.args)).toNat, fmt := s.fmt.tail, args := s.args + 1 }
    else { s with fmt := s.fmt.tail, args := s.args + 1 }
  else s

def parsePrec (va : VaList) (s : PrintfSpec) : PrintfSpec :=
  if deref s.fmt = 0x2e then parsePrecNumber va { s with flags := { s.flags with prec := true }, fmt := s.fmt.tail }
    else s

def parseLength (s : PrintfSpec) : PrintfSpec :=
  if deref s.fmt = 0x6c then
    { s with
      flags := { s.flags with long := true }, fmt := if deref s.fmt.tail = 0x6c then s.fmt.tail.tail else s.fmt.tail }
  else if deref s.fmt = 0x68 then
    if deref s.fmt.tail = 0x68 then
      { s with flags := { s.flags with short := true, char := true }, fmt := s.fmt.tail.tail }
    else { s with flags := { s.flags with short := true }, fmt := s.fmt.tail }
  else if deref s.fmt = 0x74 ∨ deref s.fmt = 0x6a ∨ deref s.fmt = 0x7a then
    { s with flags := { s.flags with long := true }, fmt := s.fmt.tail }
  else s

def parseSpec (va : VaList) (fmt : CStr) (args : Nat) : PrintfSpec :=
  parseLength (parsePrec va (parseWidth va ⟨(parseFlags fmt {}).1, args, (parseFlags fmt {}).2, 0, 0⟩))

/-! ### Printing -/

/-- The end, or an access that is not allowed. -/
inductive PrintfStop
  | ended
  | pastFormat
  | outsideDigits
  | outsideUnits
  deriving DecidableEq

def printStr (o : Output) (flags : PrintfFlags) : CStr → Nat → Output
  | [], _ => o
  | c :: str, prec =>
    if flags.prec = false then printStr (o.put c) flags str prec
    else if prec = 0 then o
    else printStr (o.put c) flags str (prec - 1)

/-- The length that a string is padded from: `strnlen`, and not more than the precision. -/
def strBase (str : CStr) (prec : Nat) (flags : PrintfFlags) : Nat :=
  let base := min str.length (if prec ≠ 0 then prec else 2 ^ 64 - 1) % 2 ^ 32
  if flags.prec = true ∧ base > prec then prec else base

/-- A conversion with the character `c`, and the next slot after it. -/
def printConv (va : VaList) (s : PrintfSpec) (c : UInt8) (o : Output) : Except PrintfStop (Output × Nat) :=
  let a := va.slot s.args
  if c = 0x64 ∨ c = 0x69 ∨ c = 0x75 ∨ c = 0x78 ∨ c = 0x58 ∨ c = 0x6f ∨ c = 0x62 then
    match printIntConv o c a s.prec s.width s.flags with
    | none => .error .outsideDigits
    | some o => .ok (o, s.args + 1)
  else if c = 0x63 then
    let o := if s.flags.left = false then o.pad (s.width - 1) else o
    let o := o.put (a.setWidth 8).toNat.toUInt8
    .ok (if s.flags.left then o.pad (s.width - 1) else o, s.args + 1)
  else if c = 0x73 then
    let base := strBase (va.string a) s.prec s.flags
    let o := if s.flags.left = false then o.pad (s.width - base) else o
    let o := printStr o s.flags (va.string a) s.prec
    .ok (if s.flags.left then o.pad (s.width - base) else o, s.args + 1)
  else if c = 0x70 then
    match printLong o a.toNat false 16 16 0 { s.flags with padZero := true, special := true, prec := true } with
    | none => .error .outsideDigits
    | some o => .ok (o, s.args + 1)
  else if c = 0x48 then
    match printHumanSize o a.toNat s.width s.flags with
    | none => .error .outsideUnits
    | some o => .ok (o, s.args + 1)
  else .ok (o.put c, s.args)

/-- The loop over the format, from the slot `args` on. -/
def printLoop (va : VaList) : Nat → CStr → Nat → Output → Output × PrintfStop
  | 0, _, _, o => (o, .pastFormat)
  | _, [], _, o => (o, .ended)
  | fuel + 1, c :: fmt, args, o =>
    if c ≠ 0x25 then printLoop va fuel fmt args (o.put c)
    else
      match (parseSpec va fmt args).fmt with
      -- The terminator is printed like any other character, and the pointer goes past it.
      | [] => (o.put 0, .pastFormat)
      | c :: fmt' =>
        match printConv va (parseSpec va fmt args) c o with
        | .error stop => (o, stop)
        | .ok (o, args) => printLoop va fuel fmt' args o

/-- The calls of `print_internal`, the index that it returns, and how it ends. -/
structure Printed where
  calls : List (UInt8 × Nat)
  index : Nat
  stop : PrintfStop
  deriving DecidableEq

def printInternal (va : VaList) (maxlen : Nat) (fmt : CStr) : Printed :=
  let r := printLoop va (fmt.length + 1) fmt 0 ⟨[], 0⟩
  if r.2 = .ended then
    ⟨r.1.calls ++ [(0, if r.1.index < maxlen then r.1.index else (maxlen + (2 ^ 64 - 1)) % 2 ^ 64)], r.1.index,
      .ended⟩
  else ⟨r.1.calls, r.1.index, r.2⟩

/-! ### Buffers -/

def writeBuffer (maxlen : Nat) (buffer : Nat → UInt8) (call : UInt8 × Nat) : Nat → UInt8 :=
  if call.2 < maxlen then Function.update buffer call.2 call.1 else buffer

/-- The buffer afterwards, the number that is returned, and how `print_internal` ends. -/
structure Sprinted where
  buffer : Nat → UInt8
  ret : Int
  stop : PrintfStop

def snprintf (va : VaList) (buffer : Nat → UInt8) (len : Nat) (fmt : CStr) : Sprinted :=
  let p := printInternal va len fmt
  ⟨p.calls.foldl (writeBuffer len) buffer, (BitVec.ofNat 32 p.index).toInt, p.stop⟩

def sprintf (va : VaList) (buffer : Nat → UInt8) (fmt : CStr) : Sprinted := snprintf va buffer (2 ^ 64 - 1) fmt

/-! ### The index -/

def Output.Holds (o : Output) (text : CStr) : Prop := o.calls = text.zipIdx ∧ o.index = text.length

namespace Output

variable {o : Output} {text : CStr}

theorem Holds.put (h : o.Holds text) (c : UInt8) : (o.put c).Holds (text ++ [c]) := by
  refine ⟨?_, ?_⟩
  · rw [Output.put, h.1, h.2, List.zipIdx_append, List.zipIdx_singleton, Nat.zero_add]
  · rw [Output.put, h.2, List.length_append]
    rfl

theorem Holds.putAll (h : o.Holds text) (cs : CStr) : (o.putAll cs).Holds (text ++ cs) := by
  induction cs generalizing o text with
  | nil => rwa [List.append_nil]
  | cons c cs ih =>
    rw [List.append_cons]
    exact ih (h.put c)

theorem Holds.pad (h : o.Holds text) (n : Nat) : (o.pad n).Holds (text ++ List.replicate n 0x20) := h.putAll _

end Output

/-- The text of `print_pad_string`. -/
def padString (input : List UInt8) (width : Nat) (flags : PrintfFlags) : CStr :=
  List.replicate (if flags.left = false ∧ flags.padZero = false then width - input.length else 0) 0x20 ++
    input.reverse ++
    List.replicate (if flags.left then width - input.length else 0) 0x20

section

variable {o o' : Output} {text : CStr}

private theorem printPadString_holds (h : o.Holds text) (input : List UInt8) (width : Nat) (flags : PrintfFlags) :
    (printPadString o input width flags).Holds (text ++ padString input width flags) := by
  unfold printPadString padString
  dsimp only
  cases hleft : flags.left with
  | false =>
    simp only [true_and, Bool.false_eq_true, ↓reduceIte, List.replicate_zero, List.append_nil]
    rw [← List.append_assoc]
    refine Output.Holds.putAll ?_ _
    split
    · exact h.pad _
    · rwa [List.replicate_zero, List.append_nil]
  | true =>
    simp only [Bool.true_eq_false, false_and, ↓reduceIte, List.replicate_zero, List.nil_append]
    have hputs := h.putAll input.reverse
    rw [hputs.2, h.2, List.length_append, List.length_reverse, Nat.add_sub_cancel_left, ← List.append_assoc]
    exact hputs.pad _

def Output.Counted (o : Output) : Prop := ∃ text, o.Holds text

theorem Output.Counted.put (h : o.Counted) (c : UInt8) : (o.put c).Counted := by
  obtain ⟨text, h⟩ := h
  exact ⟨_, h.put c⟩

theorem Output.Counted.pad (h : o.Counted) (n : Nat) : (o.pad n).Counted := by
  obtain ⟨text, h⟩ := h
  exact ⟨_, h.pad n⟩

private theorem Output.Counted.padIf (h : o.Counted) (p : Prop) [Decidable p] (n : Nat) :
    (if p then o.pad n else o).Counted := by
  split
  · exact h.pad n
  · exact h

private theorem printPadString_counted (h : o.Counted) (input : List UInt8) (width : Nat) (flags : PrintfFlags) :
    (printPadString o input width flags).Counted := by
  obtain ⟨text, h⟩ := h
  exact ⟨_, printPadString_holds h input width flags⟩

private theorem printLong_counted {value base prec width : Nat} {negative : Bool} {flags : PrintfFlags}
    (h : o.Counted) (hp : printLong o value negative base prec width flags = some o') : o'.Counted := by
  obtain ⟨input, -, rfl⟩ := Option.map_eq_some_iff.1 hp
  exact printPadString_counted h _ _ _

private theorem printStr_counted (h : o.Counted) (flags : PrintfFlags) (str : CStr) (prec : Nat) :
    (printStr o flags str prec).Counted := by
  induction str generalizing o prec with
  | nil => exact h
  | cons c str ih =>
    rw [printStr]
    split
    · exact ih (h.put c) prec
    split
    · exact h
    · exact ih (h.put c) (prec - 1)

private theorem printConv_counted {va : VaList} {s : PrintfSpec} {c : UInt8} {args : Nat} (h : o.Counted)
    (hp : printConv va s c o = .ok (o', args)) : o'.Counted := by
  unfold printConv at hp
  dsimp only at hp
  split at hp
  · split at hp
    · cases hp
    · rename_i o₁ ho₁
      obtain rfl := congrArg Prod.fst (Except.ok.inj hp)
      exact printLong_counted h ho₁
  split at hp
  · obtain rfl := congrArg Prod.fst (Except.ok.inj hp)
    exact (((h.padIf _ _).put _).padIf _ _)
  split at hp
  · obtain rfl := congrArg Prod.fst (Except.ok.inj hp)
    exact ((printStr_counted (h.padIf _ _) _ _ _).padIf _ _)
  split at hp
  · split at hp
    · cases hp
    · rename_i o₁ ho₁
      obtain rfl := congrArg Prod.fst (Except.ok.inj hp)
      exact printLong_counted h ho₁
  split at hp
  · split at hp
    · cases hp
    · rename_i o₁ ho₁
      obtain rfl := congrArg Prod.fst (Except.ok.inj hp)
      obtain ⟨unit, -, rfl⟩ := Option.map_eq_some_iff.1 ho₁
      exact printPadString_counted h _ _ _
  · obtain rfl := congrArg Prod.fst (Except.ok.inj hp)
    exact h.put c

private theorem printLoop_counted (va : VaList) {fuel : Nat} {fmt : CStr} {args : Nat} (h : o.Counted) :
    (printLoop va fuel fmt args o).1.Counted := by
  induction fuel generalizing fmt args o with
  | zero => exact h
  | succ fuel ih =>
    cases fmt with
    | nil => exact h
    | cons c fmt =>
      rw [printLoop]
      split
      · exact ih (h.put c)
      split
      · exact h.put 0
      split
      · exact h
      · rename_i hconv
        exact ih (printConv_counted h hconv)

end

/-! ### Truncation -/

/-- What `write_buffer` leaves after characters with consecutive indices. -/
private theorem writeBuffer_text (maxlen : Nat) (buffer : Nat → UInt8) (text : CStr) (i : Nat) :
    text.zipIdx.foldl (writeBuffer maxlen) buffer i =
      if i < text.length ∧ i < maxlen then text.getD i 0 else buffer i := by
  induction text using List.reverseRecOn with
  | nil => rw [if_neg fun h => Nat.not_lt_zero i h.1]; rfl
  | append_singleton text c ih =>
    rw [List.zipIdx_append, List.foldl_append, List.zipIdx_singleton, List.foldl_cons, List.foldl_nil, Nat.zero_add,
      writeBuffer, List.length_append, List.length_singleton]
    rcases Nat.lt_trichotomy i text.length with hlt | rfl | hgt
    · have hget : (text ++ [c]).getD i 0 = text.getD i 0 := by
        rw [List.getD_eq_getElem?_getD, List.getElem?_append_left hlt, List.getD_eq_getElem?_getD]
      have hsame :
        (if text.length < maxlen then Function.update (text.zipIdx.foldl (writeBuffer maxlen) buffer) text.length c
          else text.zipIdx.foldl (writeBuffer maxlen) buffer) i = text.zipIdx.foldl
            (writeBuffer maxlen) buffer i := by
        split
        · rw [Function.update_of_ne (Nat.ne_of_lt hlt)]
        · rfl
      rw [hsame, ih, hget]
      simp only [hlt, Nat.lt_succ_of_lt hlt, true_and]
    · have hget : (text ++ [c]).getD text.length 0 = c := by simp
      rw [hget]
      by_cases hmax : text.length < maxlen
      · rw [if_pos hmax, Function.update_self, if_pos ⟨Nat.lt_succ_self _, hmax⟩]
      · rw [if_neg hmax, ih, if_neg fun h => hmax h.2, if_neg fun h => hmax h.2]
    · have hsame :
        (if text.length < maxlen then Function.update (text.zipIdx.foldl (writeBuffer maxlen) buffer) text.length c
          else text.zipIdx.foldl (writeBuffer maxlen) buffer) i = text.zipIdx.foldl
            (writeBuffer maxlen) buffer i := by
        split
        · rw [Function.update_of_ne (Nat.ne_of_gt hgt)]
        · rfl
      rw [hsame, ih, if_neg (by omega), if_neg (by omega)]

def printedText (va : VaList) (fmt : CStr) : CStr :=
  (printLoop va (fmt.length + 1) fmt 0 ⟨[], 0⟩).1.calls.map Prod.fst

def printedStop (va : VaList) (fmt : CStr) : PrintfStop := (printLoop va (fmt.length + 1) fmt 0 ⟨[], 0⟩).2

def terminatorAt (text : CStr) (maxlen : Nat) : Nat :=
  if text.length < maxlen then text.length else (maxlen + (2 ^ 64 - 1)) % 2 ^ 64

theorem printInternal_text (va : VaList) (maxlen : Nat) (fmt : CStr) : printInternal va maxlen fmt =
    ⟨(printedText va fmt).zipIdx ++
      (if printedStop va fmt = .ended then [(0, terminatorAt (printedText va fmt) maxlen)] else []),
      (printedText va fmt).length, printedStop va fmt⟩ := by
  obtain ⟨text, htext⟩ : (printLoop va (fmt.length + 1) fmt 0 ⟨[], 0⟩).1.Counted :=
    printLoop_counted va ⟨[], rfl, rfl⟩
  have hprinted : printedText va fmt = text := by
    rw [printedText, htext.1, List.zipIdx_map_fst]
  unfold printInternal
  dsimp only
  rw [htext.1, htext.2, hprinted]
  change (if printedStop va fmt = .ended then _ else _) = _
  split
  · rename_i hstop
    rw [hstop]
    rfl
  · rw [List.append_nil]
    rfl

section

variable (va : VaList) (fmt : CStr) (buffer : Nat → UInt8) {len : Nat}

private theorem snprintf_buffer (hlen : len < 2 ^ 64) (i : Nat) : (snprintf va buffer len fmt).buffer i =
    if printedStop va fmt = .ended ∧ 0 < len ∧ i = min (printedText va fmt).length (len - 1) then 0
    else if i < (printedText va fmt).length ∧ i < len then (printedText va fmt).getD i 0 else buffer i := by
  unfold snprintf
  dsimp only
  rw [printInternal_text]
  dsimp only
  generalize printedText va fmt = text
  rw [List.foldl_append]
  by_cases hstop : printedStop va fmt = .ended
  case neg =>
    have hno : ¬(printedStop va fmt = .ended ∧ 0 < len ∧ i = min text.length (len - 1)) := fun h => hstop h.1
    rw [if_neg hstop, List.foldl_nil, writeBuffer_text, if_neg hno]
  rw [if_pos hstop, List.foldl_cons, List.foldl_nil, writeBuffer]
  dsimp only
  by_cases hpos : 0 < len
  · have hat : terminatorAt text len = min text.length (len - 1) := by
      unfold terminatorAt
      split <;> omega
    rw [hat, if_pos (by omega)]
    by_cases hi : i = min text.length (len - 1)
    · rw [hi, Function.update_self, if_pos ⟨hstop, hpos, rfl⟩]
    · have hno : ¬(printedStop va fmt = .ended ∧ 0 < len ∧ i = min text.length (len - 1)) := fun h => hi h.2.2
      rw [Function.update_of_ne hi, writeBuffer_text, if_neg hno]
  · have hno : ¬(printedStop va fmt = .ended ∧ 0 < len ∧ i = min text.length (len - 1)) := fun h => hpos h.2.1
    rw [if_neg (by omega), writeBuffer_text, if_neg hno]

private theorem snprintf_ret :
    (snprintf va buffer len fmt).ret = (BitVec.ofNat 32 (printedText va fmt).length).toInt := by
  rw [snprintf, printInternal_text]

private theorem snprintf_stop : (snprintf va buffer len fmt).stop = printedStop va fmt := by
  rw [snprintf, printInternal_text]

/-- `snprintf` ends as `sprintf` does and stays in its part of the buffer.  If `sprintf` produces a text of less than
2^31 characters then `snprintf` returns its length, and its part of the buffer holds the start of the text and a
NUL. -/
theorem snprintf_truncates (n : UInt64) :
    (snprintf va buffer n.toNat fmt).stop = (sprintf va buffer fmt).stop ∧
    (∀ i, n.toNat ≤ i → (snprintf va buffer n.toNat fmt).buffer i = buffer i) ∧
    ((sprintf va buffer fmt).stop = .ended → (printedText va fmt).length < 2 ^ 31 →
      ((sprintf va buffer fmt).ret = (printedText va fmt).length ∧
        (∀ i < (printedText va fmt).length, (sprintf va buffer fmt).buffer i = (printedText va fmt).getD i 0) ∧
        (sprintf va buffer fmt).buffer (printedText va fmt).length = 0) ∧
      (snprintf va buffer n.toNat fmt).ret = (printedText va fmt).length ∧
      (0 < n.toNat → (∀ i < min (printedText va fmt).length (n.toNat - 1),
          (snprintf va buffer n.toNat fmt).buffer i = (printedText va fmt).getD i 0) ∧
        (snprintf va buffer n.toNat fmt).buffer (min (printedText va fmt).length (n.toNat - 1)) = 0)) := by
  have hn := n.toNat_lt
  have hs := snprintf_buffer va fmt buffer (show 2 ^ 64 - 1 < 2 ^ 64 by decide)
  have ht := snprintf_buffer va fmt buffer hn
  unfold sprintf
  refine ⟨(snprintf_stop va fmt buffer).trans (snprintf_stop va fmt buffer).symm, fun i hi => ?_,
    fun hended hlt => ?_⟩
  · rw [ht, if_neg (by omega), if_neg (by omega)]
  · rw [snprintf_stop] at hended
    have hint : (BitVec.ofNat 32 (printedText va fmt).length).toInt = (printedText va fmt).length := by
      rw [BitVec.toInt_ofNat', Int.bmod_eq_of_le] <;> omega
    rw [snprintf_ret, snprintf_ret, hint]
    refine ⟨⟨rfl, fun i hi => ?_, ?_⟩, rfl, fun hpos => ⟨fun i hi => ?_, ?_⟩⟩
    · rw [hs, if_neg (by omega), if_pos (by omega)]
    · rw [hs, if_pos ⟨hended, by decide, by omega⟩]
    · rw [ht, if_neg (by omega), if_pos (by omega)]
    · rw [ht, if_pos ⟨hended, hpos, rfl⟩]

end

def sameArgs : VaList := ⟨fun _ => 1234, fun _ => []⟩

/-- `snprintf (buffer, 4, "a%d", 1234)` returns 5 and stores `a12` and a NUL. -/
theorem snprintf_truncates_short : let buffer : Nat → UInt8 := fun _ => 0xff
    (snprintf sameArgs buffer 4 [0x61, 0x25, 0x64]).ret = 5 ∧
      (∀ i < 3, (snprintf sameArgs buffer 4 [0x61, 0x25, 0x64]).buffer i = [0x61, 0x31, 0x32].getD i 0) ∧
      (snprintf sameArgs buffer 4 [0x61, 0x25, 0x64]).buffer 3 = 0 ∧
      ∀ i, 4 ≤ i → (snprintf sameArgs buffer 4 [0x61, 0x25, 0x64]).buffer i = buffer i := by
  intro buffer
  have htext : printedText sameArgs [0x61, 0x25, 0x64] = [0x61, 0x31, 0x32, 0x33, 0x34] := by decide
  have hended : (sprintf sameArgs buffer [0x61, 0x25, 0x64]).stop = .ended :=
    (snprintf_stop sameArgs _ buffer).trans (by decide)
  obtain ⟨-, hrest, hprinted⟩ := @snprintf_truncates sameArgs [0x61, 0x25, 0x64] buffer 4
  obtain ⟨-, hret, hbuf⟩ := hprinted hended (by rw [htext]; decide)
  rw [htext] at hret hbuf
  obtain ⟨hchars, hnul⟩ := hbuf (by decide)
  refine ⟨hret, fun i hi => (hchars i hi).trans ?_, hnul, hrest⟩
  rcases i with - | - | - | i
  · rfl
  · rfl
  · rfl
  · omega

end Pml.Util
