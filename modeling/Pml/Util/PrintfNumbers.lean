import Pml.Util.PrintfSafe
import Pml.Util.Strtoul

/-!
# The numbers that `print_internal` prints

An integer conversion prints a text of spaces, a sign, a prefix, digits and spaces again.  The text is read back here:
without the spaces, the sign and the prefix, the digits have a value in the base of the conversion.  It is the value
of the argument but for four defects: an unsigned argument of at most 32 bits is taken for a signed one, the digits
for `#` are taken off although they are digits of the number, the buffer has room for 32 digits only, and `-value` has
no value for the least `int`.
-/

namespace Pml.Util

/-! ### Reading a numeral -/

def stripSpaces (t : CStr) : CStr := ((t.dropWhile (· == 0x20)).reverse.dropWhile (· == 0x20)).reverse

/-- A numeral without `0x` or `0b`. -/
def dropBase (base : Nat) (t : CStr) : CStr :=
  if deref t = 0x30 ∧ (base = 16 ∧ (deref t.tail = 0x78 ∨ deref t.tail = 0x58) ∨ base = 2 ∧ deref t.tail = 0x62) then
    t.tail.tail
  else t

def readDigits (base : Nat) (t : CStr) : Option Nat :=
  if (dropBase base t).all (isDigitOf base) then some (digitsValue base 0 (dropBase base t)) else none

/-- The value of a numeral with a sign, a prefix and padding. -/
def readNumeral (base : Nat) (t : CStr) : Option Int :=
  let t := stripSpaces t
  if deref t = 0x2d then (readDigits base t.tail).map fun n : Nat => -(n : Int)
  else (readDigits base (if deref t = 0x2b then t.tail else t)).map fun n : Nat => (n : Int)

private theorem stripSpaces_replicate {body : CStr} (hbody : ∀ c ∈ body, c ≠ 0x20) (a b : Nat) :
    stripSpaces (List.replicate a 0x20 ++ body ++ List.replicate b 0x20) = body := by
  have hspaces (n : Nat) : ∀ c ∈ List.replicate n (0x20 : UInt8), (c == 0x20) = true :=
    fun c hc => beq_iff_eq.2 (List.eq_of_mem_replicate hc)
  unfold stripSpaces
  rw [List.append_assoc, List.dropWhile_append_of_pos (hspaces a)]
  cases body with
  | nil =>
    have hnil : (List.replicate b (0x20 : UInt8) ++ []).dropWhile (· == 0x20) = [] :=
      List.dropWhile_append_of_pos (hspaces b)
    rw [List.append_nil] at hnil
    rw [List.nil_append, hnil]
    rfl
  | cons c body =>
    have hc : (c == 0x20) = false := beq_eq_false_iff_ne.2 (hbody c List.mem_cons_self)
    rw [List.cons_append, List.dropWhile_cons, if_neg (by rw [hc]; decide), ← List.cons_append, List.reverse_append,
      List.reverse_replicate, List.dropWhile_append_of_pos (hspaces b)]
    rcases List.eq_nil_or_concat' (c :: body) with hnil | ⟨front, last, hlast⟩
    · cases hnil
    · have hne : (last == 0x20) = false :=
        beq_eq_false_iff_ne.2 (hbody last (hlast ▸ List.mem_append_right _ List.mem_cons_self))
      rw [hlast, List.reverse_append, List.reverse_singleton, List.singleton_append, List.dropWhile_cons,
        if_neg (by rw [hne]; decide),
        List.reverse_cons, List.reverse_reverse]

private theorem isDigitOf_ne {base : Nat} {c d : UInt8} (h : isDigitOf base c = true)
    (hd : isDigitOf base d = false) :
    c ≠ d := by
  rintro rfl
  rw [h] at hd
  cases hd

private theorem isDigitOf_false {base : Nat} {d : UInt8} (hd : digitValue d = none) : isDigitOf base d = false := by
  rw [isDigitOf, hd]
  rfl

private theorem digitValue_digitChar {d : Nat} (hd : d < 16) (upcase : Bool) :
    digitValue (digitChar upcase d) = some d := by
  have hall : ∀ d < 16, ∀ upcase, digitValue (digitChar upcase d) = some d := by decide
  exact hall d hd upcase

section

variable {base : Nat} {ds : List Nat}

private theorem isDigitOf_digitChar (hbase : base ≤ 16) {d : Nat} (hd : d < base) (upcase : Bool) :
    isDigitOf base (digitChar upcase d) = true := by
  rw [isDigitOf, digitValue_digitChar (Nat.lt_of_lt_of_le hd hbase), Option.any_some]
  exact decide_eq_true hd

private theorem isDigitOf_chars (hbase : base ≤ 16) (hds : ∀ d ∈ ds, d < base) (upcase : Bool) :
    ∀ c ∈ (ds.map (digitChar upcase)).reverse, isDigitOf base c = true := by
  intro c hc
  obtain ⟨d, hd, rfl⟩ := List.mem_map.1 (List.mem_reverse.1 hc)
  exact isDigitOf_digitChar hbase (hds d hd) upcase

private theorem digitsValue_chars (hbase : base ≤ 16) (hds : ∀ d ∈ ds, d < base) (upcase : Bool) :
    digitsValue base 0 (ds.map (digitChar upcase)).reverse = Nat.ofDigits base ds := by
  induction ds with
  | nil => rfl
  | cons d ds ih =>
    have hd : d < 16 := Nat.lt_of_lt_of_le (hds d List.mem_cons_self) hbase
    rw [List.map_cons, List.reverse_cons, digitsValue, List.foldl_append, List.foldl_cons, List.foldl_nil,
      digitValue_digitChar hd, Nat.ofDigits_cons]
    change digitsValue base 0 (ds.map (digitChar upcase)).reverse * base + d = _
    rw [ih fun d hd => hds d (List.mem_cons_of_mem _ hd), Nat.mul_comm, Nat.add_comm]

private theorem dropBase_digits {t : CStr} (ht : ∀ c ∈ t, isDigitOf base c = true) : dropBase base t = t := by
  have hsecond : deref t.tail = 0 ∨ isDigitOf base (deref t.tail) = true := by
    rcases t with _ | ⟨c, _ | ⟨d, t⟩⟩
    · exact .inl rfl
    · exact .inl rfl
    · exact .inr (ht d (List.mem_cons_of_mem _ List.mem_cons_self))
  have hno {d : UInt8} (hne : d ≠ 0) (hd : isDigitOf base d = false) : deref t.tail ≠ d := by
    rcases hsecond with hzero | hdigit
    · exact fun h => hne (h.symm.trans hzero)
    · exact isDigitOf_ne hdigit hd
  refine if_neg ?_
  rintro ⟨-, ⟨rfl, hx | hx⟩ | ⟨rfl, hb⟩⟩
  · exact hno (by decide) (by decide) hx
  · exact hno (by decide) (by decide) hx
  · exact hno (by decide) (by decide) hb

/-- What `print_integer` puts for the prefix. -/
def IsBasePrefix (base : Nat) (p : CStr) : Prop :=
  p = [] ∨ base = 16 ∧ (p = [0x30, 0x78] ∨ p = [0x30, 0x58]) ∨ base = 2 ∧ p = [0x30, 0x62] ∨ p = [0x30]

private theorem readDigits_eq (hpos : 0 < base) (hbase : base ≤ 16) (hds : ∀ d ∈ ds, d < base) (upcase : Bool)
    {p : CStr} (hp : IsBasePrefix base p) :
    readDigits base (p ++ (ds.map (digitChar upcase)).reverse) = some (Nat.ofDigits base ds) := by
  have hchars := isDigitOf_chars hbase hds upcase
  have hread {t : CStr} (ht : dropBase base t = (ds.map (digitChar upcase)).reverse) :
      readDigits base t = some (Nat.ofDigits base ds) := by
    rw [readDigits, ht, if_pos (List.all_eq_true.2 hchars), digitsValue_chars hbase hds]
  rcases hp with rfl | ⟨rfl, rfl | rfl⟩ | ⟨rfl, rfl⟩ | rfl
  · exact hread (dropBase_digits hchars)
  · exact hread (if_pos ⟨rfl, .inl ⟨rfl, .inl rfl⟩⟩)
  · exact hread (if_pos ⟨rfl, .inl ⟨rfl, .inr rfl⟩⟩)
  · exact hread (if_pos ⟨rfl, .inr ⟨rfl, rfl⟩⟩)
  · -- The prefix of an octal number is a zero more.
    have hds' : ∀ d ∈ ds ++ [0], d < base := by
      intro d hd
      rcases List.mem_append.1 hd with hd | hd
      · exact hds d hd
      · rwa [List.mem_singleton.1 hd]
    have hzero : [0x30] ++ (ds.map (digitChar upcase)).reverse = ((ds ++ [0]).map (digitChar upcase)).reverse := by
      rw [List.map_append, List.reverse_append]
      rfl
    rw [hzero, readDigits, dropBase_digits (isDigitOf_chars hbase hds' upcase),
      if_pos (List.all_eq_true.2 (isDigitOf_chars hbase hds' upcase)), digitsValue_chars hbase hds',
      Nat.ofDigits_append_zero]

/-- What `print_integer` puts for the sign. -/
def IsSign (negative : Bool) (s : CStr) : Prop :=
  if negative = true then s = [0x2d] else s = [] ∨ s = [0x2b] ∨ s = [0x20]

private theorem readNumeral_eq (hpos : 0 < base) (hbase : base ≤ 16) (hds : ∀ d ∈ ds, d < base) (upcase : Bool)
    {p s : CStr} {negative : Bool} (hp : IsBasePrefix base p) (hs : IsSign negative s) (a b : Nat) :
    readNumeral base
        (List.replicate a 0x20 ++ (s ++ (p ++ (ds.map (digitChar upcase)).reverse)) ++ List.replicate b 0x20) =
      some (if negative = true then -((Nat.ofDigits base ds : Nat) : Int)
        else ((Nat.ofDigits base ds : Nat) : Int)) := by
  have hread := readDigits_eq hpos hbase hds upcase hp
  have hchar : ∀ c ∈ p ++ (ds.map (digitChar upcase)).reverse, c ≠ 0x20 ∧ c ≠ 0x2d ∧ c ≠ 0x2b := by
    intro c hc
    rcases List.mem_append.1 hc with hc | hc
    · have hfour : c = 0x30 ∨ c = 0x78 ∨ c = 0x58 ∨ c = 0x62 := by
        rcases hp with rfl | ⟨-, rfl | rfl⟩ | ⟨-, rfl⟩ | rfl <;> simp at hc <;> tauto
      rcases hfour with rfl | rfl | rfl | rfl <;> decide
    · have hdigit := isDigitOf_chars hbase hds upcase c hc
      exact ⟨isDigitOf_ne hdigit (isDigitOf_false rfl), isDigitOf_ne hdigit (isDigitOf_false rfl),
        isDigitOf_ne hdigit (isDigitOf_false rfl)⟩
  generalize p ++ (ds.map (digitChar upcase)).reverse = body at hread hchar
  have hplain (a : Nat) : readNumeral base (List.replicate a 0x20 ++ body ++ List.replicate b 0x20) =
      some ((Nat.ofDigits base ds : Nat) : Int) := by
    have hfirst : deref body ≠ 0x2d ∧ deref body ≠ 0x2b := by
      cases body with
      | nil => decide
      | cons c body => exact (hchar c List.mem_cons_self).2
    unfold readNumeral
    dsimp only
    rw [stripSpaces_replicate fun c hc => (hchar c hc).1, if_neg hfirst.1, if_neg hfirst.2, hread]
    rfl
  have hsigned {c : UInt8} (hc : c ≠ 0x20) (a : Nat) :
      stripSpaces (List.replicate a 0x20 ++ ([c] ++ body) ++ List.replicate b 0x20) = c :: body := by
    refine stripSpaces_replicate (fun d hd => ?_) a b
    rcases List.mem_cons.1 hd with rfl | hd
    · exact hc
    · exact (hchar d hd).1
  cases negative with
  | true =>
    obtain rfl := show s = [0x2d] from hs
    unfold readNumeral
    dsimp only
    rw [hsigned (by decide), if_pos rfl, List.tail_cons, hread]
    rfl
  | false =>
    rcases show s = [] ∨ s = [0x2b] ∨ s = [0x20] from hs with rfl | rfl | rfl
    · exact hplain a
    · unfold readNumeral
      dsimp only
      rw [hsigned (by decide), show deref (0x2b :: body) = 0x2b from rfl, if_neg (by decide), if_pos rfl,
        List.tail_cons, hread]
      rfl
    · have hspace : List.replicate a 0x20 ++ ([0x20] ++ body) = List.replicate (a + 1) (0x20 : UInt8) ++ body := by
        rw [← List.append_assoc, ← List.replicate_succ']
      rw [hspace]
      exact hplain (a + 1)

end

/-! ### The text of a number -/

def Output.text (o : Output) : CStr := o.calls.map Prod.fst

namespace Output

variable (o : Output)

private theorem putAll_text (cs : CStr) :
    (o.putAll cs).text = o.text ++ cs ∧ (o.putAll cs).index = o.index + cs.length := by
  induction cs generalizing o with
  | nil => exact ⟨(List.append_nil _).symm, rfl⟩
  | cons c cs ih =>
    obtain ⟨htext, hindex⟩ := ih (o.put c)
    refine ⟨htext.trans ?_, hindex.trans ?_⟩
    · rw [text, put, List.map_append, List.append_assoc]
      rfl
    · change o.index + 1 + cs.length = _
      rw [List.length_cons]
      omega

end Output

private theorem printPadString_text (o : Output) (input : List UInt8) (width : Nat) (flags : PrintfFlags) :
    (printPadString o input width flags).text = o.text ++ padString input width flags := by
  have hpad (o : Output) (n : Nat) : (o.pad n).text = o.text ++ List.replicate n 0x20 := (o.putAll_text _).1
  unfold printPadString padString
  dsimp only
  cases hleft : flags.left with
  | false =>
    simp only [true_and, Bool.false_eq_true, ↓reduceIte, List.replicate_zero, List.append_nil]
    rw [(Output.putAll_text _ _).1, ← List.append_assoc]
    split
    · rw [hpad]
    · rw [List.replicate_zero, List.append_nil]
  | true =>
    simp only [Bool.true_eq_false, false_and, ↓reduceIte, List.replicate_zero, List.nil_append]
    obtain ⟨htext, hindex⟩ := o.putAll_text input.reverse
    rw [hpad, htext, hindex, Nat.add_sub_cancel_left, List.length_reverse, List.append_assoc]

private theorem padInput_digits (ds : List Nat) (prec width : Nat) (flags : PrintfFlags) (upcase : Bool) :
    ∃ k, padInput (ds.map (digitChar upcase)) prec width flags = (ds ++ List.replicate k 0).map
    (digitChar upcase) := by
  have hfill (ds : List Nat) (n : Nat) :
      ∃ k, zeroFill (ds.map (digitChar upcase)) n = (ds ++ List.replicate k 0).map (digitChar upcase) := by
    refine ⟨min n integerBufferSize - ds.length, ?_⟩
    rw [zeroFill, List.map_append, List.map_replicate, List.length_map]
    rfl
  unfold padInput
  split
  · exact ⟨0, by rw [List.replicate_zero, List.append_nil]⟩
  split
  · obtain ⟨k, hk⟩ := hfill ds prec
    obtain ⟨l, hl⟩ := hfill (ds ++ List.replicate k 0) width
    refine ⟨k + l, ?_⟩
    rw [hk, hl, List.append_assoc, List.replicate_append_replicate]
  · exact hfill ds prec

private theorem makeRoom_take (input : List UInt8) (base prec width : Nat) (flags : PrintfFlags) :
    makeRoom input base prec width flags = input.take (roomLength input.length base prec width flags) := by
  unfold makeRoom roomLength
  rw [List.length_dropLast]
  split
  · split
    · rw [List.dropLast_eq_take, List.dropLast_eq_take, List.take_take, List.length_take]
      congr 1
      omega
    · rw [List.dropLast_eq_take]
  · rw [List.take_length]

private theorem putPrefix_some {input input' : List UInt8} {base : Nat} {flags : PrintfFlags}
    (h : putPrefix input base flags = some input') : ∃ p, IsBasePrefix base p ∧ input' = input ++ p.reverse := by
  have hput {c : UInt8} {l l' : List UInt8} (h : putDigit c l = some l') : l' = l ++ [c] := by
    unfold putDigit at h
    split at h
    · exact (Option.some.inj h).symm
    · cases h
  have htwo {c : UInt8} (h : (putDigit c input).bind (putDigit 0x30) = some input') :
    input' = input ++ [0x30, c].reverse := by
    obtain ⟨l, hl, hl'⟩ := Option.bind_eq_some_iff.1 h
    rw [hput hl', hput hl, List.append_assoc]
    rfl
  unfold putPrefix at h
  split at h
  · split at h
    · rename_i hhex
      refine ⟨_, .inr (.inl ⟨hhex, ?_⟩), htwo h⟩
      split
      · exact .inr rfl
      · exact .inl rfl
    split at h
    · rename_i hbin
      exact ⟨_, .inr (.inr (.inl ⟨hbin, rfl⟩)), htwo h⟩
    · exact ⟨[0x30], .inr (.inr (.inr rfl)), hput h⟩
  · exact ⟨[], .inl rfl, by rw [List.reverse_nil, List.append_nil, Option.some.inj h]⟩

private theorem putSign_eq (input : List UInt8) (negative : Bool) (flags : PrintfFlags) :
    ∃ s, IsSign (negative && decide (input.length < integerBufferSize)) s ∧
      putSign input negative flags = input ++ s.reverse := by
  unfold putSign
  split
  · rename_i hlen
    rw [decide_eq_true hlen, Bool.and_true]
    cases negative with
    | true => exact ⟨[0x2d], rfl, rfl⟩
    | false =>
      rw [if_neg (by decide)]
      split
      · exact ⟨[0x2b], .inr (.inl rfl), rfl⟩
      split
      · exact ⟨[0x20], .inr (.inr rfl), rfl⟩
      · exact ⟨[], .inl rfl, (List.append_nil _).symm⟩
  · rename_i hlen
    rw [decide_eq_false hlen, Bool.and_false]
    exact ⟨[], .inl rfl, (List.append_nil _).symm⟩

section

variable {base : Nat}

private theorem longDigits_lt (hbase : 1 < base) (value : Nat) (flags : PrintfFlags) :
    ∀ d ∈ longDigits base value flags, d < base := by
  intro d hd
  unfold longDigits at hd
  split at hd
  · exact numberDigits_lt hbase d (List.mem_of_mem_take hd)
  · cases hd

private theorem ofDigits_longDigits (hbase : 1 < base) (value : Nat) (flags : PrintfFlags) :
    Nat.ofDigits base (longDigits base value flags) = value % base ^ integerBufferSize := by
  unfold longDigits
  split
  · rw [← Nat.ofDigits_mod_pow_eq_ofDigits_take _ (Nat.zero_lt_of_lt hbase) _ (numberDigits_lt hbase),
      ofDigits_numberDigits]
  · rename_i hno
    rw [not_or, not_not] at hno
    rw [hno.2, Nat.zero_mod]
    rfl

def keptValue (value base prec width : Nat) (flags : PrintfFlags) : Nat :=
  if flags.special then
    value % base ^ integerBufferSize %
      base ^ roomLength (paddedLength (longDigits base value flags).length prec width flags) base prec width flags
  else value % base ^ integerBufferSize

/-- The text of `print_long` is a numeral with the value of the digits that are left. -/
private theorem printLong_reads {o o' : Output} {value prec width : Nat} {negative : Bool} {flags : PrintfFlags}
    (hbase : 1 < base) (hle : base ≤ 16) (hneg : negative = true → flags.special = false)
    (h : printLong o value negative base prec width flags = some o') :
    ∃ t, o'.text = o.text ++ t ∧ readNumeral base t = some
      (if negative = true ∧ paddedLength (longDigits base value flags).length prec
        (signWidth negative width flags) flags < 32
        then -(keptValue value base prec (signWidth negative width flags) flags : Int)
        else keptValue value base prec (signWidth negative width flags) flags) := by
  rw [printLong_eq hbase, printInteger] at h
  generalize hw : signWidth negative width flags = w at h ⊢
  obtain ⟨input, hinput, ho'⟩ := Option.map_eq_some_iff.1 h
  obtain ⟨k, hk⟩ := padInput_digits (longDigits base value flags) prec w flags flags.upcase
  have hlen := padInput_length ((longDigits base value flags).map (digitChar flags.upcase)) prec w flags
  rw [List.length_map] at hlen
  have hpadded : ∀ d ∈ longDigits base value flags ++ List.replicate k 0, d < base := by
    intro d hd
    rcases List.mem_append.1 hd with hd | hd
    · exact longDigits_lt hbase value flags d hd
    · rw [List.eq_of_mem_replicate hd]
      exact Nat.zero_lt_of_lt hbase
  have hvalue :
    Nat.ofDigits base (longDigits base value flags ++ List.replicate k 0) = value % base ^ integerBufferSize := by
    rw [Nat.ofDigits_append_replicate_zero, ofDigits_longDigits hbase]
  obtain ⟨ds, p, hds, hp, hin, hkept, hsize⟩ : ∃ ds p, (∀ d ∈ ds, d < base) ∧ IsBasePrefix base p ∧
      input = ds.map (digitChar flags.upcase) ++ p.reverse ∧
      Nat.ofDigits base ds = keptValue value base prec w flags ∧
      (negative = true → input.length = paddedLength (longDigits base value flags).length prec w flags) := by
    unfold keptValue
    split at hinput
    · rename_i hspecial
      obtain ⟨p, hp, hin⟩ := putPrefix_some hinput
      rw [makeRoom_take, hlen, hk, ← List.map_take] at hin
      refine ⟨_, p, fun d hd => hpadded d (List.mem_of_mem_take hd), hp, hin, ?_, fun hn => ?_⟩
      · rw [if_pos hspecial, ← Nat.ofDigits_mod_pow_eq_ofDigits_take _ (Nat.zero_lt_of_lt hbase) _ hpadded, hvalue]
      · rw [hneg hn] at hspecial
        cases hspecial
    · rename_i hplain
      have hin := (Option.some.inj hinput).symm
      refine ⟨_, [], hpadded, .inl rfl, ?_, ?_, fun _ => ?_⟩
      · rw [List.reverse_nil, List.append_nil, hin, hk]
      · rw [if_neg hplain, hvalue]
      · rw [hin, hlen]
  obtain ⟨s, hs, hsign⟩ := putSign_eq input negative flags
  refine ⟨_, (congrArg Output.text ho').symm.trans (printPadString_text o _ _ _), ?_⟩
  rw [padString, hsign, hin, List.reverse_append, List.reverse_append, List.reverse_reverse, List.reverse_reverse,
    readNumeral_eq (Nat.zero_lt_of_lt hbase) hle hds flags.upcase hp hs, hkept]
  have hiff : (negative && decide (input.length < integerBufferSize)) = true ↔
      negative = true ∧ paddedLength (longDigits base value flags).length prec w flags < 32 := by
    rw [Bool.and_eq_true, decide_eq_true_iff]
    exact and_congr_right fun hn => by rw [hsize hn]; rfl
  simp only [hiff]

end

/-! ### The value of an argument -/

def argBits (flags : PrintfFlags) : Nat :=
  if flags.long then 64 else if flags.char then 8 else if flags.short then 16 else 32

def argValue (c : UInt8) (flags : PrintfFlags) (a : BitVec 64) : Int :=
  if isSignedConv c then (a.setWidth (argBits flags)).toInt else (a.setWidth (argBits flags)).toNat

private theorem argBits_cases (flags : PrintfFlags) : flags.long = true ∧ argBits flags = 64 ∨
    flags.long = false ∧ (argBits flags = 8 ∨ argBits flags = 16 ∨ argBits flags = 32) := by
  unfold argBits
  cases flags.long
  · refine .inr ⟨rfl, ?_⟩
    rw [if_neg (by decide)]
    split_ifs
    · exact .inl rfl
    · exact .inr (.inl rfl)
    · exact .inr (.inr rfl)
  · exact .inl ⟨rfl, rfl⟩

private theorem intValue_eq (a : BitVec 64) {flags : PrintfFlags} (hlong : flags.long = false) :
    intValue a flags = (a.setWidth (argBits flags)).toInt := by
  have hnarrow (w : Nat) (hw : w ≤ 32) : (BitVec.ofInt w (vaInt a)).toInt = (a.setWidth w).toInt := by
    change ((a.setWidth 32).signExtend w).toInt = _
    rw [BitVec.signExtend_eq_setWidth_of_le _ hw, BitVec.setWidth_setWidth_of_le _ hw]
  by_cases hchar : flags.char = true
  · have hbits : argBits flags = 8 := by rw [argBits, hlong, if_neg (by decide), if_pos hchar]
    rw [hbits, intValue, if_pos hchar]
    exact hnarrow 8 (by decide)
  by_cases hshort : flags.short = true
  · have hbits : argBits flags = 16 := by rw [argBits, hlong, if_neg (by decide), if_neg hchar, if_pos hshort]
    rw [hbits, intValue, if_neg hchar, if_pos hshort]
    exact hnarrow 16 (by decide)
  · have hbits : argBits flags = 32 := by rw [argBits, hlong, if_neg (by decide), if_neg hchar, if_neg hshort]
    rw [hbits, intValue, if_neg hchar, if_neg hshort]
    rfl

private theorem toUlong_ofInt (w : Nat) (z : Int) (hw : 0 < w) (hlow : 0 ≤ z) (hhigh : z < 2 ^ (w - 1)) :
    toUlong (BitVec.ofInt w z).toInt = toUlong z := by
  have hpow : (2 : Int) ^ w = 2 * 2 ^ (w - 1) := by rw [← Int.pow_succ', Nat.sub_add_cancel hw]
  rw [BitVec.toInt_ofInt, Int.bmod_eq_of_le] <;> rw [Int.natCast_pow] <;> push_cast <;> omega

/-- The magnitude of a signed argument, unless it is the least `int`. -/
private theorem intMagnitude_signed {c : UInt8} (a : BitVec 64) (flags : PrintfFlags) (hc : isSignedConv c = true) :
    intMagnitude c a flags =
      if argBits flags = 32 ∧ argValue c flags a = -2 ^ 31 then 2 ^ 64 - 2 ^ 31 else (argValue c flags a).natAbs := by
  have hhigh : (a.setWidth (argBits flags)).toInt < 2 ^ (argBits flags - 1) := BitVec.toInt_lt
  have hlow := BitVec.le_toInt (a.setWidth (argBits flags))
  have hulong (z : Int) (h₀ : 0 ≤ z) (h₁ : z < 2 ^ 64) : toUlong z = z.natAbs := by
    rw [toUlong, BitVec.toNat_ofInt]
    omega
  unfold intMagnitude argValue
  rw [if_pos hc, if_pos hc]
  rcases argBits_cases flags with ⟨hlong, hbits⟩ | ⟨hlong, hbits⟩
  · rw [if_pos hlong]
    have hwide : (a.setWidth (argBits flags)).toInt = a.toInt := by rw [hbits, BitVec.setWidth_eq]
    rw [hwide, hbits] at hhigh hlow
    rw [hwide, hbits, if_neg (show ¬((64 : Nat) = 32 ∧ a.toInt = -2 ^ 31) from fun h => absurd h.1 (by decide))]
    split
    · exact hulong _ (by omega) (by omega)
    · rw [toUlong, BitVec.ofInt_toInt, ← toUlong, hulong _ (by omega) (by omega), Int.natAbs_neg]
  · rw [if_neg (by rw [hlong]; decide), intValue_eq a hlong]
    generalize (a.setWidth (argBits flags)).toInt = v at hhigh hlow
    by_cases hpos : v > 0
    · rw [if_pos hpos, if_neg (by omega)]
      refine hulong v (by omega) ?_
      rcases hbits with hbits | hbits | hbits <;> rw [hbits] at hhigh <;> omega
    rw [if_neg hpos]
    by_cases hleast : v = -2 ^ 31
    · have hint : argBits flags = 32 := by rcases hbits with hbits | hbits | hbits <;> rw [hbits] at hlow <;> omega
      rw [hleast, if_pos ⟨hint, rfl⟩]
      decide
    · have hsmall : -2 ^ 31 ≤ v := by rcases hbits with hbits | hbits | hbits <;> rw [hbits] at hlow <;> omega
      rw [if_neg (fun h => hleast h.2), toUlong_ofInt 32 _ (by decide) (by omega) (by omega),
        hulong _ (by omega) (by omega), Int.natAbs_neg]

/-- An unsigned argument of at most 32 bits is extended with its sign. -/
private theorem intMagnitude_unsigned {c : UInt8} (a : BitVec 64) (flags : PrintfFlags)
    (hc : isSignedConv c = false) :
    intMagnitude c a flags = if argBits flags = 64 ∨ 2 * (a.setWidth (argBits flags)).toNat < 2 ^ argBits flags then
      (a.setWidth (argBits flags)).toNat else (a.setWidth (argBits flags)).toNat + 2 ^ 64 - 2 ^ argBits flags := by
  have hint := BitVec.toInt_eq_toNat_cond (a.setWidth (argBits flags))
  have hlt := (a.setWidth (argBits flags)).isLt
  unfold intMagnitude
  rw [if_neg (by rw [hc]; decide)]
  rcases argBits_cases flags with ⟨hlong, hbits⟩ | ⟨hlong, hbits⟩
  · rw [if_pos hlong, if_pos (.inl hbits), hbits, BitVec.setWidth_eq]
  · rw [if_neg (by rw [hlong]; decide), intValue_eq a hlong, hint, toUlong, BitVec.toNat_ofInt]
    generalize (a.setWidth (argBits flags)).toNat = u at hlt
    rcases hbits with hbits | hbits | hbits <;> rw [hbits] at hlt ⊢ <;> split <;> rename_i hu
    · rw [if_pos (.inr hu)]
      omega
    · rw [if_neg (by omega)]
      omega
    · rw [if_pos (.inr hu)]
      omega
    · rw [if_neg (by omega)]
      omega
    · rw [if_pos (.inr hu)]
      omega
    · rw [if_neg (by omega)]
      omega

/-! ### The conversions -/

def PrintsNumber (va : VaList) (s : PrintfSpec) (c : UInt8) (o : Output) : Prop :=
  ∃ o' t, printConv va s c o = .ok (o', s.args + 1) ∧ o'.text = o.text ++ t ∧
    readNumeral (intBase c) t = some (argValue c s.flags (va.slot s.args))

/-- When an integer conversion prints the value `v` of its argument. -/
structure NumberPrinted (s : PrintfSpec) (c : UInt8) (v : Int) : Prop where
  /-- The least `int` has no negative. -/
  negated : isSignedConv c = true → argBits s.flags = 32 → v ≠ -2 ^ 31
  /-- An unsigned number goes through `int`; only the digits that are left out tell it from the number in base 2. -/
  extended : isSignedConv c = false → argBits s.flags < 64 → v < 2 ^ (argBits s.flags - 1) ∨ argBits s.flags = 32 ∧
    intBase c = 2
  /-- The buffer is full after 32 digits. -/
  binary : isSignedConv c = false → argBits s.flags = 64 → intBase c = 2 → v < 2 ^ 32
  /-- A precision of 32 leaves no room for the sign. -/
  sign : v < 0 → s.flags.left = true ∨ s.prec < 32
  /-- There is room for the prefix. -/
  room : ¬LongOverruns v.natAbs false (intBase c) s.prec s.width (intFlags c s.flags)
  /-- The digits that are taken off for the prefix are zeros. -/
  kept : (intFlags c s.flags).special = true → s.flags.prec = false →
    paddedLength (longDigits (intBase c) v.natAbs (intFlags c s.flags)).length s.prec s.width (intFlags c s.flags) =
    s.width → v.natAbs < intBase c ^ (s.width - if intBase c = 16 ∧ 1 < s.width then 2 else 1)

section

variable {va : VaList} {s : PrintfSpec} {c : UInt8} {o : Output}

private theorem intBase_cases (c : UInt8) : intBase c = 16 ∨ intBase c = 8 ∨ intBase c = 2 ∨ intBase c = 10 := by
  unfold intBase
  split_ifs <;> tauto

private theorem intBase_signed (hc : isSignedConv c = true) : intBase c = 10 := by
  rcases Bool.or_eq_true_iff.1 hc with hc | hc <;> rw [beq_iff_eq.1 hc] <;> rfl

private theorem intFlags_special (hbase : intBase c = 10) (flags : PrintfFlags) :
    (intFlags c flags).special = false := by
  simp [intFlags, hbase]

/-- What is printed is the value of the digits that are kept, with the sign if there is room for it. -/
private theorem printsNumber_iff (hc : isIntConv c) : PrintsNumber va s c o ↔
    ¬LongOverruns (intMagnitude c (va.slot s.args) s.flags) (intNegative c (va.slot s.args) s.flags)
    (intBase c) s.prec s.width
      (intFlags c s.flags) ∧
    (if intNegative c (va.slot s.args) s.flags = true ∧
        paddedLength (longDigits (intBase c) (intMagnitude c (va.slot s.args) s.flags) (intFlags c s.flags)).length
        s.prec
          (signWidth (intNegative c (va.slot s.args) s.flags) s.width (intFlags c s.flags)) (intFlags c s.flags) < 32
      then -(keptValue (intMagnitude c (va.slot s.args) s.flags) (intBase c) s.prec
          (signWidth (intNegative c (va.slot s.args) s.flags) s.width (intFlags c s.flags)) (intFlags c s.flags) :
          Int)
      else keptValue (intMagnitude c (va.slot s.args) s.flags) (intBase c) s.prec
          (signWidth (intNegative c (va.slot s.args) s.flags) s.width (intFlags c s.flags)) (intFlags c s.flags)) =
      argValue c s.flags (va.slot s.args) := by
  have hle : intBase c ≤ 16 := by rcases intBase_cases c with h | h | h | h <;> rw [h] <;> decide
  have hneg : intNegative c (va.slot s.args) s.flags = true → (intFlags c s.flags).special = false := by
    intro h
    exact intFlags_special (intBase_signed (Bool.and_eq_true_iff.1 h).1) s.flags
  have hconv (o' : Output) : printConv va s c o = .ok (o', s.args + 1) ↔
      printLong o (intMagnitude c (va.slot s.args) s.flags) (intNegative c (va.slot s.args) s.flags)
      (intBase c) s.prec s.width
        (intFlags c s.flags) = some o' := by
    unfold printConv
    dsimp only
    rw [if_pos hc]
    have hint : printIntConv o c (va.slot s.args) s.prec s.width s.flags =
        printLong o (intMagnitude c (va.slot s.args) s.flags) (intNegative c (va.slot s.args) s.flags)
        (intBase c) s.prec
          s.width (intFlags c s.flags) := rfl
    rw [hint]
    split
    · rename_i hnone
      rw [hnone]
      refine iff_of_false ?_ ?_ <;> intro h <;> cases h
    · rename_i o₁ ho₁
      rw [ho₁]
      exact ⟨fun h => congrArg some (congrArg Prod.fst (Except.ok.inj h)), fun h => by rw [Option.some.inj h]⟩
  rw [← printLong_none_iff (intBase_gt c) o, ← ne_eq, Option.ne_none_iff_exists']
  constructor
  · rintro ⟨o', t, ho', ht, hread⟩
    have hsome := (hconv o').1 ho'
    obtain ⟨t', ht', hread'⟩ := printLong_reads (intBase_gt c) hle hneg hsome
    obtain rfl := List.append_cancel_left (ht.symm.trans ht')
    exact ⟨⟨o', hsome⟩, Option.some.inj (hread'.symm.trans hread)⟩
  · rintro ⟨⟨o', hsome⟩, hvalue⟩
    obtain ⟨t, ht, hread⟩ := printLong_reads (intBase_gt c) hle hneg hsome
    exact ⟨o', t, (hconv o').2 hsome, ht, hvalue ▸ hread⟩

/-- There is room for the sign of a negative number but for a precision of 32. -/
private theorem paddedLength_sign (c : UInt8) {n : Nat} (hn : n ≤ 20) (hwidth : s.width ≤ 32)
    (hprec : s.flags.prec = false → s.prec = 0) :
    paddedLength n s.prec (signWidth true s.width (intFlags c s.flags)) (intFlags c s.flags) < 32 ↔
      s.flags.left = true ∨ s.prec < 32 := by
  have hsize : integerBufferSize = 32 := rfl
  have hleft : (intFlags c s.flags).left = s.flags.left := rfl
  have hpad : (intFlags c s.flags).padZero = (s.flags.padZero && !s.flags.prec) := rfl
  unfold paddedLength signWidth
  rw [hleft, hpad]
  cases s.flags.left with
  | true =>
    rw [if_pos rfl]
    exact ⟨fun _ => .inl rfl, fun _ => by omega⟩
  | false =>
    rw [if_neg (by decide)]
    split
    · rename_i hzero
      have hnone : s.flags.prec = false := by
        rw [Bool.and_eq_true, Bool.not_eq_true'] at hzero
        exact hzero.2
      rw [hprec hnone]
      refine ⟨fun _ => .inr (by decide), fun _ => ?_⟩
      by_cases hw : s.width = 0
      · rw [if_neg fun h => h.2.1 hw, hw]
        omega
      · rw [if_pos ⟨rfl, hw, hzero, .inl rfl⟩]
        omega
    · exact ⟨fun h => .inr (by omega), fun h => by rcases h with h | h <;> [cases h; omega]⟩

private theorem printsNumber_signed_iff (hc : isIntConv c) (hsigned : isSignedConv c = true) (hwidth : s.width ≤ 32)
    (hprec : s.flags.prec = false → s.prec = 0) :
    PrintsNumber va s c o ↔ NumberPrinted s c (argValue c s.flags (va.slot s.args)) := by
  have hbase := intBase_signed hsigned
  have hplain := intFlags_special hbase s.flags
  have hneg : intNegative c (va.slot s.args) s.flags = decide (argValue c s.flags (va.slot s.args) < 0) := by
    unfold intNegative argValue
    rw [hsigned, if_pos rfl, Bool.true_and]
    rcases argBits_cases s.flags with ⟨hlong, hbits⟩ | ⟨hlong, -⟩
    · rw [if_pos hlong, hbits, BitVec.setWidth_eq]
    · rw [if_neg (by rw [hlong]; decide), intValue_eq _ hlong]
  have hmagnitude := intMagnitude_signed (va.slot s.args) s.flags hsigned
  have hbound : -2 ^ 63 ≤ argValue c s.flags (va.slot s.args) ∧ argValue c s.flags (va.slot s.args) < 2 ^ 63 := by
    have hhigh : ((va.slot s.args).setWidth (argBits s.flags)).toInt < 2 ^ (argBits s.flags - 1) := BitVec.toInt_lt
    have hlow := BitVec.le_toInt ((va.slot s.args).setWidth (argBits s.flags))
    rw [argValue, if_pos hsigned]
    generalize ((va.slot s.args).setWidth (argBits s.flags)).toInt = v at hhigh hlow
    rcases argBits_cases s.flags with ⟨-, h⟩ | ⟨-, h | h | h⟩ <;> rw [h] at hhigh hlow <;> omega
  rw [printsNumber_iff hc, hneg]
  generalize argValue c s.flags (va.slot s.args) = v at hmagnitude hbound
  have hlt : intMagnitude c (va.slot s.args) s.flags < 10 ^ 20 := by
    rw [hmagnitude]
    split <;> omega
  generalize intMagnitude c (va.slot s.args) s.flags = magnitude at hmagnitude hlt
  have hroom (value : Nat) (negative : Bool) :
      ¬LongOverruns value negative (intBase c) s.prec s.width (intFlags c s.flags) := by
    rintro ⟨hspecial, -⟩
    rw [hplain] at hspecial
    cases hspecial
  have hkept (width : Nat) : keptValue magnitude (intBase c) s.prec width (intFlags c s.flags) = magnitude := by
    rw [keptValue, if_neg (by rw [hplain]; decide), hbase]
    exact Nat.mod_eq_of_lt (Nat.lt_trans hlt (by decide))
  have hdigits := longDigits_length_le (by decide) (by decide) hlt (intFlags c s.flags)
  rw [hkept, hbase]
  have hprinted : NumberPrinted s c v ↔
      (argBits s.flags = 32 → v ≠ -2 ^ 31) ∧ (v < 0 → s.flags.left = true ∨ s.prec < 32) := by
    constructor
    · exact fun h => ⟨h.negated hsigned, h.sign⟩
    · rintro ⟨hleast, hsign⟩
      exact ⟨fun _ => hleast, fun h => absurd (hsigned.symm.trans h) (by decide),
        fun h => absurd (hsigned.symm.trans h) (by decide),
        hsign, hroom _ _, fun h => absurd (hplain.symm.trans h) (by decide)⟩
  rw [hprinted, and_iff_right (hbase ▸ hroom _ _)]
  by_cases hnegative : v < 0
  case neg =>
    rw [if_neg fun h => hnegative (of_decide_eq_true h.1), hmagnitude, if_neg fun h => by omega]
    exact ⟨fun _ => ⟨fun _ => by omega, fun h => absurd h hnegative⟩, fun _ => by omega⟩
  have hfits := paddedLength_sign (s := s) c hdigits hwidth hprec
  rw [decide_eq_true hnegative]
  by_cases hleast : argBits s.flags = 32 ∧ v = -2 ^ 31
  · rw [hmagnitude, if_pos hleast]
    refine ⟨fun h => ?_, fun h => absurd hleast.2 (h.1 hleast.1)⟩
    split at h <;> omega
  · rw [hmagnitude, if_neg hleast] at hfits ⊢
    split
    · rename_i hsign
      exact ⟨fun _ => ⟨fun h₁ h₂ => hleast ⟨h₁, h₂⟩, fun _ => hfits.1 hsign.2⟩, fun _ => by omega⟩
    · rename_i hfull
      exact ⟨fun h => by omega, fun h => absurd ⟨rfl, hfits.2 (h.2 hnegative)⟩ hfull⟩

private theorem roomLength_ge (n base prec width : Nat) (flags : PrintfFlags) :
    n - (if base = 16 then 2 else 1) ≤ roomLength n base prec width flags := by
  unfold roomLength
  split_ifs <;> omega

private theorem paddedLength_ge (n prec width : Nat) (flags : PrintfFlags) : n ≤ paddedLength n prec width flags := by
  unfold paddedLength
  split_ifs <;> omega

/-- The digits of a number that fits the buffer are kept when those that are taken off are zeros. -/
private theorem keptValue_eq_iff {value base prec width : Nat} {flags : PrintfFlags} (hbase : 1 < base)
    (hvalue : value < base ^ integerBufferSize) (hprec : flags.prec = false → prec = 0) :
    keptValue value base prec width flags = value ↔ (flags.special = true → flags.prec = false →
      paddedLength (longDigits base value flags).length prec width flags = width →
      value < base ^ (width - if base = 16 ∧ 1 < width then 2 else 1)) := by
  have hdigits : value < base ^ (longDigits base value flags).length := by
    have h := Nat.ofDigits_lt_base_pow_length hbase (longDigits_lt hbase value flags)
    rwa [ofDigits_longDigits hbase, Nat.mod_eq_of_lt hvalue] at h
  have hpadded := Nat.lt_of_lt_of_le hdigits (Nat.pow_le_pow_right (Nat.zero_lt_of_lt hbase)
    (paddedLength_ge _ prec width flags))
  have hone : flags.prec = false → 0 < (longDigits base value flags).length := by
    intro hnone
    rw [longDigits, if_pos (.inl hnone), List.length_take, numberDigits_cons hbase, List.length_cons]
    exact Nat.lt_min.2 ⟨by decide, Nat.succ_pos _⟩
  have hlong := paddedLength_ge (longDigits base value flags).length prec width flags
  unfold keptValue
  rw [Nat.mod_eq_of_lt hvalue]
  generalize paddedLength (longDigits base value flags).length prec width flags = m at hpadded hlong
  split
  case isFalse hplain => exact ⟨fun _ h => absurd h hplain, fun _ => rfl⟩
  rename_i hspecial
  have hmod (k : Nat) : value % base ^ k = value ↔ value < base ^ k := by
    refine ⟨fun h => ?_, Nat.mod_eq_of_lt⟩
    rw [← h]
    exact Nat.mod_lt _ (Nat.pow_pos (Nat.zero_lt_of_lt hbase))
  rw [hmod]
  by_cases htaken : flags.prec = false ∧ m = width
  case neg =>
    have hroom : roomLength m base prec width flags = m := by
      refine if_neg ?_
      rintro ⟨hnone, hne, hm | hm⟩
      · exact hne (hm.trans (hprec hnone))
      · exact htaken ⟨hnone, hm⟩
    rw [hroom]
    exact ⟨fun _ _ hnone hm => absurd ⟨hnone, hm⟩ htaken, fun _ => hpadded⟩
  obtain ⟨hnone, rfl⟩ := htaken
  have hroom : roomLength m base prec m flags = m - if base = 16 ∧ 1 < m then 2 else 1 := by
    have hpos := hone hnone
    unfold roomLength
    rw [if_pos ⟨hnone, by omega, .inr rfl⟩]
    split_ifs <;> omega
  rw [hroom]
  exact ⟨fun h _ _ _ => h, fun h => h hspecial hnone rfl⟩

private theorem keptValue_lt (value : Nat) {base : Nat} (hbase : 1 < base) (prec width : Nat) (flags : PrintfFlags) :
    keptValue value base prec width flags < base ^ integerBufferSize := by
  have hlt := Nat.mod_lt value (Nat.pow_pos (n := integerBufferSize) (Nat.zero_lt_of_lt hbase))
  unfold keptValue
  split
  · exact Nat.lt_of_le_of_lt (Nat.mod_le _ _) hlt
  · exact hlt

/-- A number that is extended with its sign has digits that are not those of the argument. -/
private theorem keptValue_extended_ne {base value u bits prec width : Nat} {flags : PrintfFlags}
    (hbase : base = 16 ∨ base = 8 ∨ base = 2 ∨ base = 10) (hplain : base = 10 → flags.special = false)
    (hbits : bits = 8 ∨ bits = 16 ∨ bits = 32) (hno : ¬(bits = 32 ∧ base = 2)) (hu : u < 2 ^ bits)
    (hhigh : 2 ^ bits ≤ 2 * u)
    (hvalue : value = u + 2 ^ 64 - 2 ^ bits) : keptValue value base prec width flags ≠ u := by
  have hlow : 2 ^ 63 ≤ value ∧ value < 2 ^ 64 := by rcases hbits with rfl | rfl | rfl <;> omega
  -- So many digits are kept in each base that one of those from the extension is among them.
  have hcut (k : Nat) (h₁ : 1 < base) (hk : k ≤ 32)
      (hroom :
        k ≤ roomLength (paddedLength (longDigits base value flags).length prec width flags) base prec width flags) :
      keptValue value base prec width flags % base ^ k = value % base ^ k := by
    have hsize := Nat.pow_dvd_pow base hk
    have hdvd := Nat.pow_dvd_pow base hroom
    unfold keptValue
    split
    · rw [Nat.mod_mod_of_dvd _ hdvd]
      exact Nat.mod_mod_of_dvd _ hsize
    · exact Nat.mod_mod_of_dvd _ hsize
  have hroom (k : Nat) (h₁ : 1 < base) (hk : k < 32) (hpow : base ^ k ≤ value) :
    k + 1 - (if base = 16 then 2 else 1) ≤
      roomLength (paddedLength (longDigits base value flags).length prec width flags) base prec width flags := by
    have hlen := longDigits_length_gt h₁ hk hpow flags
    have hpadded := paddedLength_ge (longDigits base value flags).length prec width flags
    refine Nat.le_trans ?_ (roomLength_ge _ _ _ _ _)
    omega
  intro heq
  rcases hbase with rfl | rfl | rfl | rfl
  · have h := hcut 14 (by decide) (by decide) (hroom 15 (by decide) (by decide) (by omega))
    rw [heq] at h
    rcases hbits with rfl | rfl | rfl <;> omega
  · have h := hcut 21 (by decide) (by decide) (hroom 21 (by decide) (by decide) (by omega))
    rw [heq] at h
    rcases hbits with rfl | rfl | rfl <;> omega
  · have h := hcut 31 (by decide) (by decide) (hroom 31 (by decide) (by decide) (by omega))
    rw [heq] at h
    rcases hbits with rfl | rfl | rfl
    · omega
    · omega
    · exact hno ⟨rfl, rfl⟩
  · rw [keptValue, if_neg (by rw [hplain rfl]; decide)] at heq
    have hsmall : value % 10 ^ integerBufferSize = value := Nat.mod_eq_of_lt (Nat.lt_trans hlow.2 (by decide))
    rcases hbits with rfl | rfl | rfl <;> omega

private theorem printsNumber_unsigned_iff (hc : isIntConv c) (hunsigned : isSignedConv c = false)
    (hprec : s.flags.prec = false → s.prec = 0) :
    PrintsNumber va s c o ↔ NumberPrinted s c (argValue c s.flags (va.slot s.args)) := by
  have hneg : intNegative c (va.slot s.args) s.flags = false := by rw [intNegative, hunsigned, Bool.false_and]
  have hwidth : signWidth false s.width (intFlags c s.flags) = s.width := by
    refine if_neg ?_
    rintro ⟨-, -, -, h | h | h⟩
    · cases h
    · exact absurd (hunsigned.symm.trans (Bool.and_eq_true_iff.1 h).2) (by decide)
    · exact absurd (hunsigned.symm.trans (Bool.and_eq_true_iff.1 h).2) (by decide)
  have hmagnitude := intMagnitude_unsigned (va.slot s.args) s.flags hunsigned
  have hlt := ((va.slot s.args).setWidth (argBits s.flags)).isLt
  have hbits : argBits s.flags = 64 ∨ argBits s.flags = 8 ∨ argBits s.flags = 16 ∨ argBits s.flags = 32 := by
    rcases argBits_cases s.flags with ⟨-, h⟩ | ⟨-, h⟩
    · exact .inl h
    · exact .inr h
  rw [printsNumber_iff hc, hneg, hwidth, if_neg (fun h => nomatch h.1), argValue, if_neg (by rw [hunsigned]; decide)]
  generalize ((va.slot s.args).setWidth (argBits s.flags)).toNat = u at hmagnitude hlt
  generalize intMagnitude c (va.slot s.args) s.flags = value at hmagnitude
  have hprinted : NumberPrinted s c u ↔
      (argBits s.flags < 64 → 2 * u < 2 ^ argBits s.flags ∨ argBits s.flags = 32 ∧ intBase c = 2) ∧
      (argBits s.flags = 64 → intBase c = 2 → u < 2 ^ 32) ∧
      ¬LongOverruns u false (intBase c) s.prec s.width (intFlags c s.flags) ∧
      ((intFlags c s.flags).special = true → (intFlags c s.flags).prec = false →
        paddedLength (longDigits (intBase c) u (intFlags c s.flags)).length s.prec s.width (intFlags c s.flags) =
        s.width → u < intBase c ^ (s.width - if intBase c = 16 ∧ 1 < s.width then 2 else 1)) := by
    have hhalf : (u : Int) < 2 ^ (argBits s.flags - 1) ↔ 2 * u < 2 ^ argBits s.flags := by
      rcases hbits with h | h | h | h <;> rw [h] <;> omega
    constructor
    · intro h
      refine ⟨fun hb => (h.extended hunsigned hb).imp_left hhalf.1, fun hb h₂ => ?_, h.room, h.kept⟩
      have := h.binary hunsigned hb h₂
      omega
    · rintro ⟨hextended, hbinary, hroom, hkept⟩
      refine ⟨fun h => absurd (hunsigned.symm.trans h) (by decide), fun _ hb => (hextended hb).imp_left hhalf.2,
        fun _ hb h₂ => ?_, fun h => by omega, hroom, hkept⟩
      have := hbinary hb h₂
      omega
  rw [hprinted, Int.natCast_inj]
  have hgt := intBase_gt c
  -- In base 2 the extension of a number of 32 bits is left out.
  by_cases hsame : 2 * u < 2 ^ argBits s.flags ∨ argBits s.flags = 64 ∨ argBits s.flags = 32 ∧ intBase c = 2
  case neg =>
    rw [not_or, not_or] at hsame
    obtain ⟨hhigh, hlong, hno⟩ := hsame
    rw [if_neg fun h => h.elim hlong hhigh] at hmagnitude
    have hne :=
      @keptValue_extended_ne _ _ _ _ s.prec s.width _ (intBase_cases c) (intFlags_special · s.flags)
      (hbits.resolve_left hlong) hno hlt
      (Nat.le_of_not_lt hhigh) hmagnitude
    refine ⟨fun h => absurd h.2 hne, fun h => ?_⟩
    have hb : argBits s.flags < 64 := by rcases hbits.resolve_left hlong with hb | hb | hb <;> rw [hb] <;> decide
    exact absurd (h.1 hb) fun h => h.elim hhigh hno
  obtain ⟨hdigits, hvalue⟩ : (longDigits (intBase c) value (intFlags c s.flags)).length =
      (longDigits (intBase c) u (intFlags c s.flags)).length ∧
      value % intBase c ^ integerBufferSize = u % intBase c ^ integerBufferSize := by
    by_cases hplain : argBits s.flags = 64 ∨ 2 * u < 2 ^ argBits s.flags
    · rw [hmagnitude, if_pos hplain]
      exact ⟨rfl, rfl⟩
    · rw [if_neg hplain] at hmagnitude
      obtain ⟨hb, h₂⟩ : argBits s.flags = 32 ∧ intBase c = 2 :=
        (hsame.resolve_left fun h => hplain (.inr h)).resolve_left fun h => hplain (.inl h)
      rw [hb] at hmagnitude hlt hplain
      have hfull (k : Nat) (hk : 2 ^ 31 ≤ k) : (longDigits 2 k (intFlags c s.flags)).length = 32 := by
        refine Nat.le_antisymm ?_ (longDigits_length_gt (by decide) (by decide) hk _)
        unfold longDigits
        split
        · exact List.length_take_le _ _
        · exact Nat.zero_le 32
      have hu : 2 ^ 31 ≤ u := by
        omega
      have hv : 2 ^ 31 ≤ value := by omega
      rw [h₂]
      refine ⟨(hfull value hv).trans (hfull u hu).symm, ?_⟩
      change value % 2 ^ 32 = u % 2 ^ 32
      omega
  rw [LongOverruns, keptValue, hdigits, hvalue, ← LongOverruns, ← keptValue]
  by_cases hbinary : argBits s.flags = 64 → intBase c = 2 → u < 2 ^ 32
  case neg =>
    refine ⟨fun h => absurd h.2 ?_, fun h => absurd h.2.1 hbinary⟩
    simp only [Classical.not_imp, Nat.not_lt] at hbinary
    obtain ⟨-, h₂, hbig⟩ := hbinary
    have hsmall := keptValue_lt u hgt s.prec s.width (intFlags c s.flags)
    rw [h₂] at hsmall ⊢
    exact Nat.ne_of_lt (Nat.lt_of_lt_of_le hsmall hbig)
  have hfits : u < intBase c ^ integerBufferSize := by
    have h64 : u < 2 ^ 64 :=
      Nat.lt_of_lt_of_le hlt (Nat.pow_le_pow_right (by decide) (by rcases hbits with h | h | h | h <;> omega))
    rcases intBase_cases c with h | h | h | h <;> rw [h]
    · exact Nat.lt_trans h64 (by decide)
    · exact Nat.lt_trans h64 (by decide)
    · by_cases hb : argBits s.flags = 64
      · exact hbinary hb h
      · exact Nat.lt_of_lt_of_le hlt
          (Nat.pow_le_pow_right (by decide) (by rcases hbits.resolve_left hb with h | h | h <;> rw [h] <;> decide))
    · exact Nat.lt_trans h64 (by decide)
  rw [keptValue_eq_iff hgt hfits (show (intFlags c s.flags).prec = false → s.prec = 0 from hprec)]
  have hextended : argBits s.flags < 64 → 2 * u < 2 ^ argBits s.flags ∨ argBits s.flags = 32 ∧ intBase c = 2 :=
    fun hb => hsame.imp_right fun h => h.resolve_left (Nat.ne_of_lt hb)
  exact ⟨fun h => ⟨hextended, hbinary, h.1, h.2⟩, fun h => h.2.2⟩

private theorem parseSpec_prec (va : VaList) (fmt : CStr) (args : Nat)
    (h : (parseSpec va fmt args).flags.prec = false) : (parseSpec va fmt args).prec = 0 := by
  have hlength (s : PrintfSpec) : (parseLength s).flags.prec = s.flags.prec ∧ (parseLength s).prec = s.prec := by
    unfold parseLength
    dsimp only
    split_ifs <;> exact ⟨rfl, rfl⟩
  have hwidth (s : PrintfSpec) : (parseWidth va s).prec = s.prec := by
    unfold parseWidth
    split_ifs <;> rfl
  have hpoint (s : PrintfSpec) : (parsePrecNumber va s).flags = s.flags := by
    unfold parsePrecNumber
    split_ifs <;> rfl
  unfold parseSpec at h ⊢
  rw [(hlength _).1] at h
  rw [(hlength _).2]
  unfold parsePrec at h ⊢
  split
  · rename_i hdot
    rw [if_pos hdot, hpoint] at h
    cases h
  · rw [hwidth]

/-- An integer conversion of a format prints the value of its argument exactly under these conditions. -/
theorem printsNumber_iff_printed (va : VaList) (fmt : CStr) (args : Nat) (c : UInt8) (o : Output) (hc : isIntConv c)
    (hwidth : (parseSpec va fmt args).width ≤ 32) :
    PrintsNumber va (parseSpec va fmt args) c o ↔ NumberPrinted (parseSpec va fmt args) c
      (argValue c (parseSpec va fmt args).flags (va.slot (parseSpec va fmt args).args)) := by
  cases hsigned : isSignedConv c with
  | true => exact printsNumber_signed_iff hc hsigned hwidth (parseSpec_prec va fmt args)
  | false => exact printsNumber_unsigned_iff hc hsigned (parseSpec_prec va fmt args)

end

/-- `%d` prints -5. -/
theorem printsNumber_iff_printed_minus_five :
    PrintsNumber ⟨fun _ => BitVec.ofInt 64 (-5), fun _ => []⟩
    (parseSpec ⟨fun _ => BitVec.ofInt 64 (-5), fun _ => []⟩ [0x64] 0) 0x64
      ⟨[], 0⟩ :=
  (printsNumber_iff_printed _ _ _ _ _ (by decide) (by decide)).2
    ⟨by decide, by decide, by decide, by decide, fun h => absurd h.1 (by decide), by decide⟩

/-- `%u` does not print 3000000000. -/
theorem not_printsNumber :
    ¬PrintsNumber ⟨fun _ => 3000000000, fun _ => []⟩ (parseSpec ⟨fun _ => 3000000000, fun _ => []⟩ [0x75] 0) 0x75
    ⟨[], 0⟩ := by
  rintro ⟨o, t, ho, ht, hread⟩
  have hconv :
    (printConv ⟨fun _ => 3000000000, fun _ => []⟩ (parseSpec ⟨fun _ => 3000000000, fun _ => []⟩ [0x75] 0) 0x75
      ⟨[], 0⟩).toOption.map (fun p => (p.1.text, readNumeral 10 p.1.text)) =
      some ([0x31, 0x38, 0x34, 0x34, 0x36, 0x37, 0x34, 0x34, 0x30, 0x37, 0x32, 0x34, 0x31, 0x34, 0x35, 0x38, 0x34,
        0x33, 0x32, 0x30], some 18446744072414584320) := by decide
  rw [ho] at hconv
  obtain rfl : o.text = t := ht
  have hnumber := congrArg Prod.snd (Option.some.inj hconv)
  exact absurd (hnumber.symm.trans hread) (by decide)

end Pml.Util
