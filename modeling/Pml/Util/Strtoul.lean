import Mathlib.Data.List.TakeWhile
import Pml.Util.Ctype

/-!
# Numbers in strings (`util/strtoul.c`)

A pointer into a string is the list of the characters from there to the terminator.  The macro `tolower` evaluates its
argument once for each of its uses of it, so that `tolower (*++str)` moves the pointer by two or three characters and
compares one character and returns another one (`tolowerNext`).  A number with a leading zero is therefore right only
when the characters that are skipped do not count (`StrtoulFine`).
-/

namespace Pml.Util

/-! ### The macro -/

def charVal (c : UInt8) : Int := c.toInt8.toInt

/-- `tolower (*++str)` -/
def tolowerNext (str : CStr) : Option (Int × CStr) :=
  match advance str with
  | none => none
  | some str =>
    if charVal (deref str) ≥ 0x41 then
      match advance str with
      | none => none
      | some str =>
        if charVal (deref str) ≤ 0x5a then (advance str).map fun str => (charVal (deref str) + 0x20, str)
        else (advance str).map fun str => (charVal (deref str), str)
    else (advance str).map fun str => (charVal (deref str), str)

/-! ### The function -/

def ulongMax : Nat := 2 ^ 64 - 1

def skipWhite : CStr → CStr
  | [] => []
  | c :: str => if isspace c || c == 0x09 then skipWhite str else c :: str

def takeSign (str : CStr) : Bool × CStr :=
  if deref str = 0x2d then (true, str.tail) else if deref str = 0x2b then (false, str.tail) else (false, str)

/-- The base is chosen if it is 0. -/
def choosePrefix (base : Nat) (str : CStr) : Option (Nat × CStr) :=
  if base = 0 then
    if deref str = 0x30 then
      match tolowerNext str with
      | none => none
      | some (c, str) => if c = 0x78 then (advance str).map fun str => (16, str) else some (8, str)
    else some (10, str)
  else some (base, str)

def octalPrefix (base : Nat) (str : CStr) : Option CStr :=
  if base = 8 ∧ deref str = 0x30 then advance str else some str

def hexPrefix (base : Nat) (str : CStr) : Option CStr :=
  if base = 16 ∧ deref str = 0x30 then
    match tolowerNext str with
    | none => none
    | some (c, str) => if c = 0x78 then advance str else some str
  else some str

def strtoulPrefix (base : Nat) (str : CStr) : Option (Nat × CStr) :=
  match choosePrefix base str with
  | none => none
  | some (base, str) =>
    match octalPrefix base str with
    | none => none
    | some str => (hexPrefix base str).map fun str => (base, str)

/-- `index`, if the character is a digit or a letter. -/
def digitIndex (c : UInt8) : Option Nat :=
  if isdigit c then some (c.toNat - 0x30)
  else if isupper (toupper c) then some ((toupper c).toNat - 0x41 + 10)
  else none

/-- The variables of the loop over the digits. -/
structure StrtoulState where
  ret : Nat
  err : Bool
  converted : Bool

def strtoulDigit (base index : Nat) (s : StrtoulState) : StrtoulState :=
  if s.ret > (ulongMax - index) / base then { s with ret := 0, err := true }
  else { s with ret := s.ret * base + index, converted := true }

def strtoulLoop (base : Nat) : CStr → StrtoulState → CStr × StrtoulState
  | [], s => ([], s)
  | c :: str, s =>
    match digitIndex c with
    | none => (c :: str, s)
    | some index => if index ≥ base then (c :: str, s) else strtoulLoop base str (strtoulDigit base index s)

def strtoulEnd (start str : CStr) (negative : Bool) (s : StrtoulState) : CStr × Nat :=
  let ret := if s.err then ulongMax else s.ret
  (if s.converted = false ∧ s.ret = 0 then start else str, if negative then (ulongMax - ret + 1) % 2 ^ 64 else ret)

/-- `strtoul`, unless it reads past the terminator. -/
def strtoul (str : CStr) (base : Int) : Option (CStr × Nat) :=
  if base ≠ 0 ∧ (base < 2 ∨ base > 36) then
    some (strtoulEnd str (takeSign (skipWhite str)).2 (takeSign (skipWhite str)).1 ⟨0, false, false⟩)
  else
    (strtoulPrefix base.toNat (takeSign (skipWhite str)).2).map fun p =>
      strtoulEnd str (strtoulLoop p.1 p.2 ⟨0, false, false⟩).1 (takeSign (skipWhite str)).1
        (strtoulLoop p.1 p.2 ⟨0, false, false⟩).2

/-! ### The grammar -/

def digitValue (c : UInt8) : Option Nat :=
  if 0x30 ≤ c.toNat ∧ c.toNat ≤ 0x39 then some (c.toNat - 0x30)
  else if 0x41 ≤ c.toNat ∧ c.toNat ≤ 0x5a then some (c.toNat - 0x41 + 10)
  else if 0x61 ≤ c.toNat ∧ c.toNat ≤ 0x7a then some (c.toNat - 0x61 + 10)
  else none

def isDigitOf (b : Nat) (c : UInt8) : Bool := (digitValue c).any fun d => d < b

def digitRun (b : Nat) (t : CStr) : CStr := t.takeWhile (isDigitOf b)

def afterRun (b : Nat) (t : CStr) : CStr := t.dropWhile (isDigitOf b)

def digitsValue (b v : Nat) (ds : CStr) : Nat := ds.foldl (fun v c => v * b + (digitValue c).getD 0) v

def runValue (b : Nat) (t : CStr) : Nat := digitsValue b 0 (digitRun b t)

def HexPrefixed (t : CStr) : Prop :=
  deref t = 0x30 ∧ (deref t.tail = 0x78 ∨ deref t.tail = 0x58) ∧ isDigitOf 16 (deref t.tail.tail) = true

instance (t : CStr) : Decidable (HexPrefixed t) := inferInstanceAs (Decidable (_ ∧ _))

def numberOf (base : Nat) (t : CStr) : Nat × CStr :=
  if (base = 0 ∨ base = 16) ∧ HexPrefixed t then (16, t.tail.tail)
  else if base = 0 then if deref t = 0x30 then (8, t) else (10, t)
  else (base, t)

def ulongResult (negative : Bool) (v : Nat) : Nat :=
  if v > ulongMax then ulongMax else if negative then (2 ^ 64 - v) % 2 ^ 64 else v

/-- `strtoul` reads the number that is there. -/
def StrtoulReads (str : CStr) (base : Int) : Prop :=
  let sign := takeSign (skipWhite str)
  let number := numberOf base.toNat sign.2
  strtoul str base = some (if digitRun number.1 number.2 = [] then str else afterRun number.1 number.2,
    ulongResult sign.1 (runValue number.1 number.2))

/-! ### The loop over the digits -/

private theorem digitIndex_eq (c : UInt8) : digitIndex c = digitValue c := by
  have hall : ∀ n < 256, digitIndex (UInt8.ofNat n) = digitValue (UInt8.ofNat n) := by decide +kernel
  have hc := hall c.toNat c.toNat_lt
  rwa [UInt8.ofNat_toNat] at hc

/-- The result of the loop for the value of all digits: it stops at `ULONG_MAX` before the sign is taken. -/
def loopResult (negative : Bool) (v : Nat) : Nat :=
  if negative then (ulongMax - min v ulongMax + 1) % 2 ^ 64 else min v ulongMax

def StrtoulState.Holds (s : StrtoulState) (v : Nat) : Prop :=
  if s.err then ulongMax < v else s.ret = v ∧ v ≤ ulongMax

private theorem strtoulDigit_holds {b index v : Nat} {s : StrtoulState} (hb : 0 < b) (hi : index ≤ ulongMax)
    (h : s.Holds v) : (strtoulDigit b index s).Holds (v * b + index) := by
  unfold strtoulDigit StrtoulState.Holds at *
  have hgrow : v ≤ v * b := Nat.le_mul_of_pos_right v hb
  have hover : s.ret > (ulongMax - index) / b ↔ ulongMax - index < s.ret * b := Nat.div_lt_iff_lt_mul hb
  by_cases herr : s.err = true
  · rw [if_pos herr] at h
    split
    · rw [if_pos rfl]
      omega
    · omega
  · rw [if_neg herr] at h
    obtain ⟨rfl, hle⟩ := h
    split
    · rename_i hgt
      have hmul := hover.1 hgt
      rw [if_pos rfl]
      omega
    · rename_i hgt
      have hmul := fun h => hgt (hover.2 h)
      exact ⟨rfl, by omega⟩

private theorem strtoulDigit_converted {b index : Nat} {s : StrtoulState} (h : s.converted = true) :
    (strtoulDigit b index s).converted = true := by
  unfold strtoulDigit
  split
  · exact h
  · rfl

private theorem strtoulLoop_holds {b : Nat} (hb : 0 < b) (hb' : b ≤ 36) {t : CStr} {s : StrtoulState} {v : Nat}
    (h : s.Holds v) :
    (strtoulLoop b t s).1 = afterRun b t ∧ (strtoulLoop b t s).2.Holds (digitsValue b v (digitRun b t)) ∧
      (s.converted = true → (strtoulLoop b t s).2.converted = true) := by
  induction t generalizing s v with
  | nil => exact ⟨rfl, h, id⟩
  | cons c t ih =>
    rw [strtoulLoop, digitIndex_eq]
    unfold afterRun digitRun
    cases hv : digitValue c with
    | none =>
      have hno : ¬ isDigitOf b c = true := by simp [isDigitOf, hv]
      rw [List.dropWhile_cons_of_neg hno, List.takeWhile_cons_of_neg hno]
      exact ⟨rfl, h, id⟩
    | some d =>
      dsimp only
      by_cases hd : d ≥ b
      · have hno : ¬ isDigitOf b c = true := by simpa [isDigitOf, hv] using hd
        rw [if_pos hd, List.dropWhile_cons_of_neg hno, List.takeWhile_cons_of_neg hno]
        exact ⟨rfl, h, id⟩
      · have hyes : isDigitOf b c = true := by simpa [isDigitOf, hv] using hd
        have hle : d ≤ ulongMax := by
          have hmax : 36 ≤ ulongMax := by decide
          omega
        rw [if_neg hd, List.dropWhile_cons_of_pos hyes, List.takeWhile_cons_of_pos hyes, digitsValue,
          List.foldl_cons, hv]
        obtain ⟨h1, h2, h3⟩ := ih (strtoulDigit_holds hb hle h)
        exact ⟨h1, h2, fun hc => h3 (strtoulDigit_converted hc)⟩

private theorem strtoulLoop_converted {b : Nat} (hb : 0 < b) (hb' : b ≤ 36) (t : CStr) :
    (strtoulLoop b t ⟨0, false, false⟩).2.converted = !(digitRun b t).isEmpty := by
  cases t with
  | nil => rfl
  | cons c t =>
    rw [strtoulLoop, digitIndex_eq]
    unfold digitRun
    cases hv : digitValue c with
    | none =>
      have hno : ¬ isDigitOf b c = true := by simp [isDigitOf, hv]
      rw [List.takeWhile_cons_of_neg hno]
      rfl
    | some d =>
      dsimp only
      by_cases hd : d ≥ b
      · have hno : ¬ isDigitOf b c = true := by simpa [isDigitOf, hv] using hd
        rw [if_pos hd, List.takeWhile_cons_of_neg hno]
        rfl
      · have hyes : isDigitOf b c = true := by simpa [isDigitOf, hv] using hd
        have hfirst : strtoulDigit b d ⟨0, false, false⟩ = ⟨0 * b + d, false, true⟩ := if_neg (Nat.not_lt_zero _)
        have hle : d ≤ ulongMax := by
          have hmax : 36 ≤ ulongMax := by decide
          omega
        have hholds : (StrtoulState.mk (0 * b + d) false true).Holds (0 * b + d) := ⟨rfl, by omega⟩
        rw [if_neg hd, List.takeWhile_cons_of_pos hyes, hfirst, (strtoulLoop_holds hb hb' hholds).2.2 rfl]
        rfl

private theorem strtoulEnd_loop {b : Nat} (hb : 0 < b) (hb' : b ≤ 36) (start t : CStr) (negative : Bool) :
    strtoulEnd start (strtoulLoop b t ⟨0, false, false⟩).1 negative (strtoulLoop b t ⟨0, false, false⟩).2 =
      (if digitRun b t = [] then start else afterRun b t, loopResult negative (runValue b t)) := by
  have hstart : (StrtoulState.mk 0 false false).Holds 0 := ⟨rfl, Nat.zero_le _⟩
  obtain ⟨hend, hholds, -⟩ := @strtoulLoop_holds b hb hb' t _ _ hstart
  have hconv := strtoulLoop_converted hb hb' t
  unfold StrtoulState.Holds at hholds
  unfold strtoulEnd loopResult runValue
  rw [hend, hconv]
  generalize (strtoulLoop b t ⟨0, false, false⟩).2 = s at hholds
  have hret : (if s.err = true then ulongMax else s.ret) = min (digitsValue b 0 (digitRun b t)) ulongMax := by
    split at hholds
    · rename_i herr
      rw [if_pos herr, Nat.min_eq_right (Nat.le_of_lt hholds)]
    · rename_i herr
      rw [if_neg herr, hholds.1, Nat.min_eq_left hholds.2]
  dsimp only
  rw [hret]
  congr 1
  by_cases hrun : digitRun b t = []
  · rw [hrun] at hholds ⊢
    have hzero : s.ret = 0 := by
      split at hholds
      · exact absurd hholds (Nat.not_lt_zero _)
      · exact hholds.1
    rw [if_pos ⟨rfl, hzero⟩, if_pos rfl]
  · rw [if_neg hrun, if_neg]
    rintro ⟨hempty, -⟩
    exact hrun (by simpa using hempty)

/-! ### The prefix -/

def SameResult (negative : Bool) (v w : Nat) : Prop := loopResult negative w = ulongResult negative v

/-- When the number is read.  Without a leading zero in base 0, 8 or 16 it is, unless a negative value is too large.
In base 8 a digit has to come after the zero.  In the other bases the macro skips one character after the zero if this
is no letter, and two if it is one; the digits among them do not count, and a digit of the base that is used has to
come after them. -/
def StrtoulFine (negative : Bool) (base : Nat) (t : CStr) : Prop :=
  let v := runValue (numberOf base t).1 (numberOf base t).2
  let c₁ := deref t.tail
  let c₂ := deref t.tail.tail
  let c₃ := deref t.tail.tail.tail
  let c₄ := deref t.tail.tail.tail.tail
  if deref t = 0x30 ∧ base = 16 then
    isdigit c₁ = true ∧ isDigitOf 16 c₂ = true ∧ SameResult negative v (runValue 16 t.tail.tail) ∨
    (isDigitOf 16 c₁ = true ∧ isdigit c₁ = false ∨ c₁ = 0x78 ∨ c₁ = 0x58) ∧ isDigitOf 16 c₂ = true ∧
    isDigitOf 16 c₃ = true ∧
      SameResult negative v (runValue 16 t.tail.tail.tail)
  else if deref t = 0x30 ∧ base = 0 then
    isDigitOf 8 c₁ = true ∧ isDigitOf 8 c₂ = true ∧ (c₂ = 0x30 → isDigitOf 8 c₃ = true) ∧
      SameResult negative v (runValue 8 t.tail.tail) ∨
    (c₁ = 0x78 ∨ c₁ = 0x58) ∧ isDigitOf 16 c₂ = true ∧ isDigitOf 8 c₃ = true ∧ (c₃ = 0x30 → isDigitOf 8 c₄ = true) ∧
      afterRun 16 t.tail.tail.tail = afterRun 8 t.tail.tail.tail ∧ SameResult negative v (runValue 8 t.tail.tail.tail)
  else if deref t = 0x30 ∧ base = 8 then isDigitOf 8 c₁ = true ∧ SameResult negative v v
  else SameResult negative v v

private theorem forall_char {P : UInt8 → Prop} (h : ∀ n < 256, P (UInt8.ofNat n)) (c : UInt8) : P c := by
  have hc := h c.toNat c.toNat_lt
  rwa [UInt8.ofNat_toNat] at hc

/-- The characters that matter here: a digit is no letter, the digits of base 8 are digits, and those of base 16 are
digits or letters. -/
private theorem char_facts (c : UInt8) :
    (isdigit c = true → charVal c < 0x41) ∧ (isDigitOf 8 c = true → isdigit c = true) ∧
    (isdigit c = true → isDigitOf 16 c = true) ∧ (isDigitOf 16 c = true → charVal c < 0x41 → isdigit c = true) ∧
    (charVal c = 0x78 → c = 0x78) ∧ (charVal c + 0x20 = 0x78 → c = 0x58) := by
  revert c
  exact forall_char (by decide +kernel)

section

variable {b : Nat} {t u : CStr} {c : UInt8}

private theorem digitRun_ne_nil : digitRun b t ≠ [] ↔ isDigitOf b (deref t) = true := by
  cases t with
  | nil => exact iff_of_false (fun h => h rfl) (by simp [deref, isDigitOf, digitValue])
  | cons c t =>
    by_cases h : isDigitOf b c = true
    · simp [digitRun, deref, h]
    · simp [digitRun, deref, h]

private theorem afterRun_cons (h : isDigitOf b c = true) : afterRun b (c :: t) = afterRun b t :=
  List.dropWhile_cons_of_pos h

private theorem afterRun_stop (h : isDigitOf b c = false) : afterRun b (c :: t) = c :: t :=
  List.dropWhile_cons_of_neg fun h' => by rw [h] at h'; cases h'

private theorem afterRun_length (b : Nat) (t : CStr) : (afterRun b t).length ≤ t.length :=
  (List.dropWhile_suffix _).length_le

private theorem runValue_zero (hb : 0 < b) : runValue b (0x30 :: t) = runValue b t := by
  have hzero : isDigitOf b 0x30 = true := by simpa [isDigitOf, digitValue] using hb
  have hvalue : 0 * b + (digitValue 0x30).getD 0 = 0 := by rw [Nat.zero_mul]; rfl
  rw [runValue, digitRun, List.takeWhile_cons_of_pos hzero, digitsValue, List.foldl_cons, hvalue]
  rfl

def Lands (str : CStr) (negative : Bool) (p : Nat × CStr) (e : CStr) (v : Nat) : Prop :=
  (if digitRun p.1 p.2 = [] then str else afterRun p.1 p.2, loopResult negative (runValue p.1 p.2)) =
    (e, ulongResult negative v)

variable {str e : CStr} {negative : Bool} {v : Nat}

private theorem lands_iff (he : e.length < str.length) : Lands str negative (b, t) e v ↔
    e = afterRun b t ∧ isDigitOf b (deref t) = true ∧ SameResult negative v (runValue b t) := by
  unfold Lands SameResult
  rw [Prod.mk.injEq, ← digitRun_ne_nil]
  dsimp only
  by_cases hrun : digitRun b t = []
  · rw [if_pos hrun]
    refine iff_of_false (fun hs => ?_) fun h => h.2.1 hrun
    rw [hs.1] at he
    exact Nat.lt_irrefl _ he
  · rw [if_neg hrun]
    exact ⟨fun h => ⟨h.1.symm, hrun, h.2⟩, fun h => ⟨h.1.symm, h.2.2⟩⟩

/-! ### What the macro skips -/

private theorem tolowerNext_cons (a : UInt8) : tolowerNext (a :: c :: t) =
    if charVal c ≥ 0x41 then
      if charVal (deref t) ≤ 0x5a then (advance t).map fun str => (charVal (deref str) + 0x20, str)
      else (advance t).map fun str => (charVal (deref str), str)
    else some (charVal (deref t), t) := rfl

private theorem tolowerNext_low (h : charVal c < 0x41) (a : UInt8) :
    tolowerNext (a :: c :: t) = some (charVal (deref t), t) := by
  rw [tolowerNext_cons, if_neg (by omega)]

private theorem tolowerNext_high_none (h : charVal c ≥ 0x41) (a : UInt8) : tolowerNext [a, c] = none := by
  rw [tolowerNext_cons, if_pos h]
  rfl

private theorem tolowerNext_high (h : charVal c ≥ 0x41) (a d : UInt8) :
    ∃ x, tolowerNext (a :: c :: d :: t) = some (x, t) ∧ (x = 0x78 → deref t = 0x78 ∨ deref t = 0x58) := by
  obtain ⟨-, -, -, -, h1, h2⟩ := char_facts (deref t)
  rw [tolowerNext_cons, if_pos h]
  split
  · exact ⟨_, rfl, fun hx => .inr (h2 hx)⟩
  · exact ⟨_, rfl, fun hx => .inl (h1 hx)⟩

private theorem advance_length {q : CStr} (h : advance t = some q) : q.length + 1 = t.length := by
  cases t with
  | nil => cases h
  | cons c t =>
    obtain rfl := Option.some.inj h
    rfl

private theorem tolowerNext_length {x : Int} {q : CStr} (h : tolowerNext t = some (x, q)) : q.length < t.length := by
  match t with
  | [] => cases h
  | [_] => cases h
  | a :: c :: t =>
    rw [tolowerNext_cons] at h
    simp only [List.length_cons]
    split at h
    · split at h
      all_goals
        obtain ⟨q', hq, he⟩ := Option.map_eq_some_iff.1 h
        obtain rfl := congrArg Prod.snd he
        have hlen := advance_length hq
        dsimp only
        omega
    · have hlen := congrArg (fun p => p.2.length) (Option.some.inj h)
      dsimp only at hlen
      omega

private theorem hexPrefix_length {n : Nat} {q : CStr} (h : hexPrefix n t = some q) : q.length ≤ t.length := by
  unfold hexPrefix at h
  split at h
  · cases hx : tolowerNext t with
    | none =>
      rw [hx] at h
      cases h
    | some p =>
      have hlen := tolowerNext_length hx
      rw [hx] at h
      dsimp only at h
      split at h
      · have hlen' := advance_length h
        omega
      · obtain rfl := Option.some.inj h
        omega
  · obtain rfl := Option.some.inj h
    exact Nat.le_refl _

private theorem afterRun_x (hb : b ≤ 16) (h : deref t = 0x78 ∨ deref t = 0x58) : afterRun b t = t := by
  cases t with
  | nil => rfl
  | cons c t =>
    refine afterRun_stop ?_
    rcases h with h | h
    · obtain rfl : c = 0x78 := h
      exact decide_eq_false (show ¬ 33 < b by omega)
    · obtain rfl : c = 0x58 := h
      exact decide_eq_false (show ¬ 33 < b by omega)

private theorem strtoulPrefix_hex (t : CStr) : strtoulPrefix 16 t = (hexPrefix 16 t).map fun str => (16, str) := rfl

section

variable {w : CStr} {x : Int} (hskip : tolowerNext (0x30 :: u) = some (x, w))
  (hx : x = 0x78 → deref w = 0x78 ∨ deref w = 0x58) (he : e.length < str.length)
include hskip hx he

/-- In base 16, the digits are read from the pointer that the macro leaves. -/
private theorem hexPrefix_lands (hnot : e = afterRun 16 w ∨ w.length < e.length) :
    (∃ p, strtoulPrefix 16 (0x30 :: u) = some p ∧ Lands str negative p e v) ↔
      e = afterRun 16 w ∧ isDigitOf 16 (deref w) = true ∧ SameResult negative v (runValue 16 w) := by
  rw [strtoulPrefix_hex, hexPrefix, if_pos ⟨rfl, rfl⟩, hskip]
  dsimp only
  by_cases hmatch : x = 0x78
  · rw [if_pos hmatch]
    have hstop := afterRun_x (Nat.le_refl 16) (hx hmatch)
    refine iff_of_false ?_ fun h => ?_
    · rintro ⟨p, hp, hl⟩
      obtain ⟨q, hq, rfl⟩ := Option.map_eq_some_iff.1 hp
      have hlen := advance_length hq
      have hle := afterRun_length 16 q
      obtain ⟨rfl, -⟩ := (lands_iff he).1 hl
      rcases hnot with heq | hlt
      · rw [heq, hstop] at hle
        omega
      · omega
    · exact digitRun_ne_nil.2 h.2.1 (by simpa [afterRun, digitRun] using hstop)
  · rw [if_neg hmatch, Option.map_some]
    constructor
    · rintro ⟨p, hp, hl⟩
      obtain rfl := Option.some.inj hp
      exact (lands_iff he).1 hl
    · exact fun h => ⟨_, rfl, (lands_iff he).2 h⟩

end

private theorem octalPrefix_eight (w : CStr) : ∃ q, octalPrefix 8 w = some q ∧ afterRun 8 q = afterRun 8 w ∧
    runValue 8 q = runValue 8 w ∧
    (isDigitOf 8 (deref q) = true ↔ isDigitOf 8 (deref w) = true ∧
      (deref w = 0x30 → isDigitOf 8 (deref w.tail) = true)) := by
  unfold octalPrefix
  by_cases hzero : deref w = 0x30
  · rw [if_pos ⟨rfl, hzero⟩]
    cases w with
    | nil => cases hzero
    | cons c w =>
      obtain rfl : c = 0x30 := hzero
      exact ⟨w, rfl, (afterRun_cons rfl).symm, (runValue_zero (by decide)).symm, fun h => ⟨rfl, fun _ => h⟩,
        fun h => h.2 rfl⟩
  · rw [if_neg fun h => hzero h.2]
    exact ⟨w, rfl, rfl, rfl, fun h => ⟨h, fun h0 => absurd h0 hzero⟩, fun h => h.1⟩

section

variable {w : CStr} {x : Int} (hskip : tolowerNext (0x30 :: u) = some (x, w))
  (hx : x = 0x78 → deref w = 0x78 ∨ deref w = 0x58) (he : e.length < str.length)
include hskip hx he

/-- In base 0, octal digits are read from the pointer that the macro leaves. -/
private theorem choosePrefix_lands (hnot : e = afterRun 16 w ∨ e = afterRun 8 w ∨ w.length < e.length) :
    (∃ p, strtoulPrefix 0 (0x30 :: u) = some p ∧ Lands str negative p e v) ↔
      e = afterRun 8 w ∧ isDigitOf 8 (deref w) = true ∧ (deref w = 0x30 → isDigitOf 8 (deref w.tail) = true) ∧
        SameResult negative v (runValue 8 w) := by
  rw [strtoulPrefix, choosePrefix, if_pos rfl, if_pos (show deref (0x30 :: u) = 0x30 from rfl), hskip]
  dsimp only
  by_cases hmatch : x = 0x78
  · rw [if_pos hmatch]
    have hstop := afterRun_x (show 8 ≤ 16 by decide) (hx hmatch)
    have hstop' := afterRun_x (Nat.le_refl 16) (hx hmatch)
    refine iff_of_false ?_ fun h => ?_
    · rintro ⟨p, hp, hl⟩
      cases hq : advance w with
      | none =>
        rw [hq] at hp
        cases hp
      | some q =>
        rw [hq] at hp
        obtain ⟨q', hq', rfl⟩ := Option.map_eq_some_iff.1 hp
        have hlen := advance_length hq
        have hlen' := hexPrefix_length hq'
        have hle := afterRun_length 16 q'
        obtain ⟨rfl, -⟩ := (lands_iff he).1 hl
        rw [hstop, hstop'] at hnot
        rcases hnot with heq | heq | hlt
        · rw [heq] at hle
          omega
        · rw [heq] at hle
          omega
        · omega
    · exact digitRun_ne_nil.2 h.2.1 (by simpa [afterRun, digitRun] using hstop)
  · obtain ⟨q, hq, h1, h2, h3⟩ := octalPrefix_eight w
    rw [if_neg hmatch]
    dsimp only
    rw [hq]
    have hiff := @lands_iff 8 q str e negative v he
    rw [h1, h2, h3, and_assoc] at hiff
    constructor
    · rintro ⟨p, hp, hl⟩
      obtain rfl := Option.some.inj hp
      exact hiff.1 hl
    · exact fun h => ⟨_, rfl, hiff.2 h⟩

end

/-! ### When the number is read -/

private theorem strtoulReads_iff {base : Int} (hbase : base = 0 ∨ 2 ≤ base ∧ base ≤ 36) {t : CStr}
    (ht : takeSign (skipWhite str) = (negative, t)) {n : Nat} (hn : base.toNat = n)
    (hchosen : ∀ p, strtoulPrefix n t = some p → 0 < p.1 ∧ p.1 ≤ 36) : StrtoulReads str base ↔
      ∃ p, strtoulPrefix n t = some p ∧
        Lands str negative p (if digitRun (numberOf n t).1 (numberOf n t).2 = [] then str
          else afterRun (numberOf n t).1 (numberOf n t).2) (runValue (numberOf n t).1 (numberOf n t).2) := by
  unfold StrtoulReads strtoul
  rw [ht, hn, if_neg (by omega)]
  dsimp only
  rw [Option.map_eq_some_iff]
  refine exists_congr fun p => and_congr_right fun hp => ?_
  obtain ⟨h0, h36⟩ := hchosen p hp
  rw [strtoulEnd_loop h0 h36]
  exact Iff.rfl

def Found (str : CStr) (negative : Bool) (n : Nat) (t : CStr) : Prop :=
  ∃ p, strtoulPrefix n t = some p ∧ Lands str negative p (if digitRun (numberOf n t).1 (numberOf n t).2 = [] then str
    else afterRun (numberOf n t).1 (numberOf n t).2) (runValue (numberOf n t).1 (numberOf n t).2)

private theorem numberOf_prefixed {n : Nat} (hn : n = 0 ∨ n = 16) (h : HexPrefixed t) :
    numberOf n t = (16, t.tail.tail) :=
  if_pos ⟨hn, h⟩

private theorem numberOf_sixteen (h : ¬ HexPrefixed t) : numberOf 16 t = (16, t) := by
  rw [numberOf, if_neg fun hn => h hn.2, if_neg (by decide)]

private theorem numberOf_zero (h : ¬ HexPrefixed t) (ht : deref t = 0x30) : numberOf 0 t = (8, t) := by
  rw [numberOf, if_neg fun hn => h hn.2, if_pos rfl, if_pos ht]

private theorem found_iff {n m : Nat} {t' : CStr} (h : numberOf n t = (m, t')) (hd : isDigitOf m (deref t') = true) :
    Found str negative n t ↔ ∃ p, strtoulPrefix n t = some p ∧
    Lands str negative p (afterRun m t') (runValue m t') := by
  unfold Found
  rw [h, if_neg (digitRun_ne_nil.2 hd)]

private theorem found_plain {n : Nat} (h : ¬ (deref t = 0x30 ∧ (n = 0 ∨ n = 8 ∨ n = 16))) : Found str negative n t ↔
    SameResult negative (runValue (numberOf n t).1 (numberOf n t).2)
    (runValue (numberOf n t).1 (numberOf n t).2) := by
  have hnumber : numberOf n t = (if n = 0 then 10 else n, t) := by
    rw [numberOf, if_neg fun hn => h ⟨hn.2.1, hn.1.elim .inl fun h16 => .inr (.inr h16)⟩]
    by_cases h0 : n = 0
    · rw [if_pos h0, if_pos h0, if_neg fun ht => h ⟨ht, .inl h0⟩]
    · rw [if_neg h0, if_neg h0]
  have hchoose : choosePrefix n t = some (if n = 0 then 10 else n, t) := by
    unfold choosePrefix
    by_cases h0 : n = 0
    · rw [if_pos h0, if_pos h0, if_neg fun ht => h ⟨ht, .inl h0⟩]
    · rw [if_neg h0, if_neg h0]
  have hchosen : strtoulPrefix n t = some (numberOf n t) := by
    rw [strtoulPrefix, hchoose, hnumber]
    by_cases h0 : n = 0
    · rw [if_pos h0]
      rfl
    · rw [if_neg h0]
      dsimp only
      rw [octalPrefix, if_neg fun h8 => h ⟨h8.2, .inr (.inl h8.1)⟩]
      dsimp only
      rw [hexPrefix, if_neg fun h16 => h ⟨h16.2, .inr (.inr h16.1)⟩]
      rfl
  unfold Found Lands SameResult
  rw [hchosen]
  constructor
  · rintro ⟨p, hp, hl⟩
    obtain rfl := Option.some.inj hp
    exact (Prod.mk.inj hl).2
  · exact fun hsame => ⟨_, rfl, Prod.ext rfl hsame⟩

private theorem found_octal (hlen : u.length < str.length) : Found str negative 8 (0x30 :: u) ↔
    isDigitOf 8 (deref u) = true ∧ SameResult negative (runValue 8 (0x30 :: u)) (runValue 8 (0x30 :: u)) := by
  have hchosen : strtoulPrefix 8 (0x30 :: u) = some (8, u) := rfl
  have hle := afterRun_length 8 u
  have hiff := @lands_iff 8 u str (afterRun 8 u) negative (runValue 8 u) (by omega)
  rw [found_iff (show numberOf 8 (0x30 :: u) = (8, 0x30 :: u) from rfl) rfl, hchosen, afterRun_cons rfl,
    runValue_zero (by decide)]
  constructor
  · rintro ⟨p, hp, hl⟩
    obtain rfl := Option.some.inj hp
    exact (hiff.1 hl).2
  · exact fun h => ⟨_, rfl, hiff.2 ⟨rfl, h⟩⟩

private theorem not_hexPrefixed_low (hc : charVal c < 0x41) : ¬ HexPrefixed (0x30 :: c :: t) := by
  rintro ⟨-, h, -⟩
  rcases h with h | h
  · obtain rfl : c = 0x78 := h
    exact absurd hc (by decide)
  · obtain rfl : c = 0x58 := h
    exact absurd hc (by decide)

private theorem hexPrefixed_iff {d : UInt8} : HexPrefixed (0x30 :: c :: d :: t) ↔ (c = 0x78 ∨ c = 0x58) ∧
    isDigitOf 16 d = true :=
  and_iff_right rfl

private theorem found_hex (hlen : u.length < str.length) :
    Found str negative 16 (0x30 :: u) ↔ StrtoulFine negative 16 (0x30 :: u) := by
  unfold StrtoulFine
  dsimp only
  rw [if_pos ⟨rfl, rfl⟩]
  cases u with
  | nil =>
    refine iff_of_false (fun ⟨p, hp, _⟩ => by cases hp) ?_
    rintro (⟨h, -⟩ | ⟨-, h, -⟩)
    · cases h
    · cases h
  | cons c w =>
    obtain ⟨hd1, -, hd3, hd4, -, -⟩ := char_facts c
    simp only [List.length_cons] at hlen
    by_cases hc : charVal c < 0x41
    · have hne : ¬ (isDigitOf 16 c = true ∧ isdigit c = false ∨ c = 0x78 ∨ c = 0x58) := by
        rintro (⟨h1, h2⟩ | rfl | rfl)
        · rw [hd4 h1 hc] at h2
          cases h2
        · exact absurd hc (by decide)
        · exact absurd hc (by decide)
      have hnumber := numberOf_sixteen (@not_hexPrefixed_low w c hc)
      have hx : charVal (deref w) = 0x78 → deref w = 0x78 ∨ deref w = 0x58 :=
        fun h => .inl ((char_facts (deref w)).2.2.2.2.1 h)
      have hle := afterRun_length 16 w
      rw [found_iff hnumber rfl, afterRun_cons rfl, hnumber]
      refine Iff.trans ?_ (or_iff_left fun h => hne h.1).symm
      by_cases hd : isDigitOf 16 c = true
      · rw [afterRun_cons hd, hexPrefix_lands (tolowerNext_low hc _) hx (by omega) (.inl rfl)]
        exact ⟨fun h => ⟨hd4 hd hc, h.2⟩, fun h => ⟨rfl, h.2⟩⟩
      · rw [afterRun_stop (eq_false_of_ne_true hd), hexPrefix_lands (tolowerNext_low hc _) hx
          (by simp only [List.length_cons]; omega) (.inr (Nat.lt_succ_self _))]
        refine iff_of_false (fun h => ?_) fun h => hd (hd3 h.1)
        have heq := congrArg List.length h.1
        simp only [List.length_cons] at heq
        omega
    · have hndigit : ¬ isdigit c = true := fun h => hc (hd1 h)
      refine Iff.trans ?_ (or_iff_right fun h => hndigit h.1).symm
      cases w with
      | nil =>
        refine iff_of_false ?_ fun h => by cases h.2.1
        rintro ⟨p, hp, -⟩
        rw [strtoulPrefix_hex, hexPrefix, if_pos ⟨rfl, rfl⟩, tolowerNext_high_none (by omega)] at hp
        cases hp
      | cons d w =>
        obtain ⟨x, hskip, hx⟩ := @tolowerNext_high w c (by omega) 0x30 d
        have hle := afterRun_length 16 w
        simp only [List.length_cons] at hlen
        by_cases hpre : HexPrefixed (0x30 :: c :: d :: w)
        · obtain ⟨hcx, hdd⟩ := hexPrefixed_iff.1 hpre
          have hnumber := numberOf_prefixed (.inr rfl) hpre
          rw [found_iff hnumber hdd, hnumber]
          dsimp only [List.tail_cons]
          rw [afterRun_cons hdd, hexPrefix_lands hskip hx (by omega) (.inl rfl)]
          exact ⟨fun h => ⟨.inr hcx, hdd, h.2⟩, fun h => ⟨rfl, h.2.2⟩⟩
        · have hnumber := numberOf_sixteen hpre
          have hnot : ¬ ((c = 0x78 ∨ c = 0x58) ∧ isDigitOf 16 d = true) := fun h => hpre (hexPrefixed_iff.2 h)
          rw [found_iff hnumber rfl, afterRun_cons rfl, hnumber]
          by_cases hdc : isDigitOf 16 c = true
          · rw [afterRun_cons hdc]
            by_cases hdd : isDigitOf 16 d = true
            · rw [afterRun_cons hdd, hexPrefix_lands hskip hx (by omega) (.inl rfl)]
              exact ⟨fun h => ⟨.inl ⟨hdc, eq_false_of_ne_true hndigit⟩, hdd, h.2⟩, fun h => ⟨rfl, h.2.2⟩⟩
            · rw [afterRun_stop (eq_false_of_ne_true hdd), hexPrefix_lands hskip hx
                (by simp only [List.length_cons]; omega) (.inr (Nat.lt_succ_self _))]
              refine iff_of_false (fun h => ?_) fun h => hdd h.2.1
              have heq := congrArg List.length h.1
              simp only [List.length_cons] at heq
              omega
          · rw [afterRun_stop (eq_false_of_ne_true hdc), hexPrefix_lands hskip hx
              (by simp only [List.length_cons]; omega) (.inr (by simp only [List.length_cons]; omega))]
            refine iff_of_false (fun h => ?_) fun h => ?_
            · have heq := congrArg List.length h.1
              simp only [List.length_cons] at heq
              omega
            · rcases h with ⟨h1 | h1, h2, -⟩
              · exact hdc h1.1
              · exact hnot ⟨h1, h2⟩

private theorem found_zero (hlen : u.length < str.length) :
    Found str negative 0 (0x30 :: u) ↔ StrtoulFine negative 0 (0x30 :: u) := by
  unfold StrtoulFine
  dsimp only
  rw [if_neg (fun h => by cases h.2), if_pos ⟨rfl, rfl⟩]
  cases u with
  | nil =>
    refine iff_of_false (fun ⟨p, hp, _⟩ => by cases hp) ?_
    rintro (⟨h, -⟩ | ⟨-, h, -⟩)
    · cases h
    · cases h
  | cons c w =>
    obtain ⟨hd1, hd2, -⟩ := char_facts c
    simp only [List.length_cons] at hlen
    by_cases hc : charVal c < 0x41
    · have hne : ¬ (c = 0x78 ∨ c = 0x58) := by
        rintro (rfl | rfl)
        · exact absurd hc (by decide)
        · exact absurd hc (by decide)
      have hnumber := numberOf_zero (@not_hexPrefixed_low w c hc) rfl
      have hx : charVal (deref w) = 0x78 → deref w = 0x78 ∨ deref w = 0x58 :=
        fun h => .inl ((char_facts (deref w)).2.2.2.2.1 h)
      have hle := afterRun_length 8 w
      rw [found_iff hnumber rfl, afterRun_cons rfl, hnumber]
      refine Iff.trans ?_ (or_iff_left fun h => hne h.1).symm
      by_cases hd : isDigitOf 8 c = true
      · rw [afterRun_cons hd, choosePrefix_lands (tolowerNext_low hc _) hx (by omega) (.inr (.inl rfl))]
        exact ⟨fun h => ⟨hd, h.2⟩, fun h => ⟨rfl, h.2⟩⟩
      · rw [afterRun_stop (eq_false_of_ne_true hd), choosePrefix_lands (tolowerNext_low hc _) hx
          (by simp only [List.length_cons]; omega) (.inr (.inr (Nat.lt_succ_self _)))]
        refine iff_of_false (fun h => ?_) fun h => hd h.1
        have heq := congrArg List.length h.1
        simp only [List.length_cons] at heq
        omega
    · have hnoct : ¬ isDigitOf 8 c = true := fun h => hc (hd1 (hd2 h))
      refine Iff.trans ?_ (or_iff_right fun h => hnoct h.1).symm
      cases w with
      | nil =>
        refine iff_of_false ?_ fun h => by cases h.2.1
        rintro ⟨p, hp, -⟩
        rw [strtoulPrefix, choosePrefix, if_pos rfl, if_pos (show deref [0x30, c] = 0x30 from rfl),
          tolowerNext_high_none (by omega)] at hp
        cases hp
      | cons d w =>
        obtain ⟨x, hskip, hx⟩ := @tolowerNext_high w c (by omega) 0x30 d
        have hle := afterRun_length 16 w
        have hle' := afterRun_length 8 w
        simp only [List.length_cons] at hlen
        by_cases hpre : HexPrefixed (0x30 :: c :: d :: w)
        · obtain ⟨hcx, hdd⟩ := hexPrefixed_iff.1 hpre
          have hnumber := numberOf_prefixed (.inl rfl) hpre
          rw [found_iff hnumber hdd, hnumber]
          dsimp only [List.tail_cons]
          rw [afterRun_cons hdd, choosePrefix_lands hskip hx (by omega) (.inl rfl)]
          exact ⟨fun h => ⟨hcx, hdd, h.2.1, h.2.2.1, h.1, h.2.2.2⟩,
            fun ⟨_, _, h1, h2, h3, h4⟩ => ⟨h3, h1, h2, h4⟩⟩
        · have hnumber := numberOf_zero hpre rfl
          rw [found_iff hnumber rfl, afterRun_cons rfl, hnumber, afterRun_stop (eq_false_of_ne_true hnoct),
            choosePrefix_lands hskip hx (by simp only [List.length_cons]; omega)
              (.inr (.inr (by simp only [List.length_cons]; omega)))]
          refine iff_of_false (fun h => ?_) fun h => hpre (hexPrefixed_iff.2 ⟨h.1, h.2.1⟩)
          have heq := congrArg List.length h.1
          simp only [List.length_cons] at heq
          omega

private theorem strtoulPrefix_base {n : Nat} (hn : n = 0 ∨ 2 ≤ n ∧ n ≤ 36) {p : Nat × CStr}
    (h : strtoulPrefix n t = some p) :
    0 < p.1 ∧ p.1 ≤ 36 := by
  have hchoose : ∀ {q}, choosePrefix n t = some q → 0 < q.1 ∧ q.1 ≤ 36 := by
    intro q hq
    unfold choosePrefix at hq
    split at hq
    · split at hq
      · split at hq
        · cases hq
        · split at hq
          · obtain ⟨w, -, rfl⟩ := Option.map_eq_some_iff.1 hq
            exact ⟨show 0 < 16 by decide, show 16 ≤ 36 by decide⟩
          · obtain rfl := Option.some.inj hq
            exact ⟨show 0 < 8 by decide, show 8 ≤ 36 by decide⟩
      · obtain rfl := Option.some.inj hq
        exact ⟨show 0 < 10 by decide, show 10 ≤ 36 by decide⟩
    · obtain rfl := Option.some.inj hq
      dsimp only
      omega
  unfold strtoulPrefix at h
  split at h
  · cases h
  · rename_i b w hq
    split at h
    · cases h
    · obtain ⟨w', -, hp⟩ := Option.map_eq_some_iff.1 h
      have hbase := hchoose hq
      rw [← hp]
      exact hbase

private theorem skipWhite_length (s : CStr) : (skipWhite s).length ≤ s.length := by
  induction s with
  | nil => exact Nat.le_refl _
  | cons c s ih =>
    rw [skipWhite]
    split
    · exact Nat.le_succ_of_le ih
    · exact Nat.le_refl _

private theorem takeSign_length (s : CStr) : (takeSign s).2.length ≤ s.length := by
  unfold takeSign
  split
  · exact (List.length_tail ..).trans_le (Nat.sub_le _ _)
  split
  · exact (List.length_tail ..).trans_le (Nat.sub_le _ _)
  · exact Nat.le_refl _

end

/-- `strtoul` reads the number of a string exactly when what it skips after a leading zero does not count, and no
value that is too large has a minus sign. -/
theorem strtoul_reads_iff (str : CStr) {base : Int} (hbase : base = 0 ∨ 2 ≤ base ∧ base ≤ 36) :
    StrtoulReads str base ↔ StrtoulFine (takeSign (skipWhite str)).1 base.toNat (takeSign (skipWhite str)).2 := by
  have hlen := (takeSign_length (skipWhite str)).trans (skipWhite_length str)
  obtain ⟨n, hn⟩ : ∃ n, base.toNat = n := ⟨_, rfl⟩
  obtain ⟨negative, t, hsign⟩ : ∃ negative t, takeSign (skipWhite str) = (negative, t) := ⟨_, _, rfl⟩
  have hiff := strtoulReads_iff hbase hsign hn fun p hp => strtoulPrefix_base (by omega) hp
  rw [hsign] at hlen ⊢
  rw [hn]
  refine hiff.trans ?_
  change Found str negative n t ↔ _
  by_cases hchosen : deref t = 0x30 ∧ (n = 0 ∨ n = 8 ∨ n = 16)
  · obtain ⟨hzero, hcases⟩ := hchosen
    cases t with
    | nil => cases hzero
    | cons c u =>
      obtain rfl : c = 0x30 := hzero
      have hlt : u.length < str.length := hlen
      rcases hcases with rfl | rfl | rfl
      · exact found_zero hlt
      · rw [found_octal hlt, StrtoulFine]
        rfl
      · exact found_hex hlt
  · refine (found_plain hchosen).trans ?_
    unfold StrtoulFine
    dsimp only
    rw [if_neg fun h => hchosen ⟨h.1, .inr (.inr h.2)⟩, if_neg fun h => hchosen ⟨h.1, .inl h.2⟩,
      if_neg fun h => hchosen ⟨h.1, .inr (.inl h.2)⟩]

/-- ` -0x0f` in base 16: the digit that is skipped is a zero. -/
theorem strtoul_reads_small : StrtoulReads [0x20, 0x2d, 0x30, 0x78, 0x30, 0x66] 16 :=
  (strtoul_reads_iff _ (.inr ⟨by decide, by decide⟩)).2 (.inr ⟨.inr (.inl rfl), rfl, rfl, rfl⟩)

/-- Of `0x1f` in base 16, the digit `f` is read. -/
theorem not_strtoul_reads : ¬ ∀ (str : CStr) (base : Int), (base = 0 ∨ 2 ≤ base ∧ base ≤ 36) →
    StrtoulReads str base := by
  intro hall
  have hreads := hall [0x30, 0x78, 0x31, 0x66] 16 (.inr ⟨by decide, by decide⟩)
  have hcode : strtoul [0x30, 0x78, 0x31, 0x66] 16 = some ([], 15) := by decide
  have hvalue : ulongResult false (runValue 16 [0x31, 0x66]) = 31 := by decide
  have hend : some (([] : CStr), 15) = some ([], 31) :=
    hcode.symm.trans (hreads.trans (congrArg (fun v => some ([], v)) hvalue))
  exact absurd hend (by decide)

end Pml.Util
