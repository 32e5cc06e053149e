import Mathlib.Data.Nat.Digits.Lemmas
import Pml.Util.Printf

/-!
# The accesses of `print_internal`

`print_internal` reads its format past the terminator exactly when the format ends inside a conversion: the terminator
is then taken for the character of the conversion, and the pointer goes past it.  It writes after the end of the
digits exactly when the prefix `0x` or `0b` is put after 31 of them, since only one byte is asked for.  The table of
units is never left.
-/

namespace Pml.Util

/-! ### The digits -/

def numberDigits (base value : Nat) : List Nat := if value = 0 then [0] else Nat.digits base value

theorem numberDigits_cons {base : Nat} (hbase : 1 < base) (value : Nat) : numberDigits base value =
    value % base :: if value / base = 0 then [] else numberDigits base (value / base) := by
  unfold numberDigits
  by_cases hvalue : value = 0
  · rw [hvalue, Nat.zero_div, Nat.zero_mod, if_pos rfl, if_pos rfl]
  · rw [if_neg hvalue, Nat.digits_def' hbase (Nat.pos_of_ne_zero hvalue)]
    split
    · rename_i hdiv
      rw [hdiv, Nat.digits_zero]
    · rfl

theorem numberDigits_lt {base value : Nat} (hbase : 1 < base) : ∀ d ∈ numberDigits base value, d < base := by
  intro d hd
  unfold numberDigits at hd
  split at hd
  · rw [List.mem_singleton.1 hd]
    omega
  · exact Nat.digits_lt_base hbase hd

theorem ofDigits_numberDigits (base value : Nat) : Nat.ofDigits base (numberDigits base value) = value := by
  unfold numberDigits
  split
  · rename_i hvalue
    rw [hvalue, Nat.ofDigits_singleton]
  · exact Nat.ofDigits_digits base value

/-- The loop over the digits puts as many of them as there is room for. -/
private theorem printDigits_eq {base : Nat} (hbase : 1 < base) (upcase : Bool) (fuel value : Nat) (input : List UInt8)
    (hlen : input.length < integerBufferSize) (hfuel : integerBufferSize ≤ fuel + input.length) :
    printDigits base upcase fuel value input =
      input ++ ((numberDigits base value).take (integerBufferSize - input.length)).map (digitChar upcase) := by
  induction fuel generalizing value input with
  | zero => omega
  | succ fuel ih =>
    obtain ⟨room, hroom⟩ : ∃ room, integerBufferSize - input.length = room + 1 :=
      ⟨integerBufferSize - input.length - 1, by omega⟩
    rw [printDigits, List.length_append, List.length_singleton, numberDigits_cons hbase, hroom, List.take_succ_cons,
      List.map_cons]
    split
    · rename_i hmore
      have hnext : integerBufferSize - (input ++ [digitChar upcase (value % base)]).length = room := by
        rw [List.length_append, List.length_singleton]
        omega
      rw [ih _ _ (by rw [List.length_append, List.length_singleton]; exact hmore.2)
        (by rw [List.length_append, List.length_singleton]; omega), if_neg hmore.1, hnext, List.append_assoc,
        List.singleton_append]
    · rename_i hno
      by_cases hdiv : value / base = 0
      · rw [if_pos hdiv, List.take_nil, List.map_nil]
      · have hzero : room = 0 := by
          by_contra hne
          exact hno ⟨hdiv, by omega⟩
        rw [hzero, List.take_zero, List.map_nil]

/-- The digits that `print_long` puts first. -/
def longDigits (base value : Nat) (flags : PrintfFlags) : List Nat :=
  if flags.prec = false ∨ value ≠ 0 then (numberDigits base value).take integerBufferSize else []

theorem printLong_eq {base : Nat} (hbase : 1 < base) (o : Output) (value : Nat) (negative : Bool) (prec width : Nat)
    (flags : PrintfFlags) : printLong o value negative base prec width flags =
      printInteger o ((longDigits base value flags).map (digitChar flags.upcase)) negative base prec width flags := by
  unfold printLong longDigits
  split
  · rw [printDigits_eq hbase flags.upcase _ _ _ (by decide) (Nat.le_add_right _ _)]
    rfl
  · rfl

theorem longDigits_length_le {base value k : Nat} (hbase : 1 < base) (hk : 0 < k) (hvalue : value < base ^ k)
    (flags : PrintfFlags) : (longDigits base value flags).length ≤ k := by
  unfold longDigits
  split
  · rw [List.length_take]
    refine Nat.le_trans (Nat.min_le_right _ _) ?_
    unfold numberDigits
    split
    · exact hk
    · exact (Nat.digits_length_le_iff hbase value).2 hvalue
  · exact Nat.zero_le k

theorem longDigits_length_gt {base value k : Nat} (hbase : 1 < base) (hk : k < integerBufferSize)
    (hvalue : base ^ k ≤ value) (flags : PrintfFlags) : k < (longDigits base value flags).length := by
  have hne : value ≠ 0 := Nat.ne_of_gt (Nat.lt_of_lt_of_le (Nat.pow_pos (Nat.zero_lt_of_lt hbase)) hvalue)
  rw [longDigits, if_pos (.inr hne), List.length_take, numberDigits, if_neg hne]
  exact Nat.lt_min.2 ⟨hk, (Nat.lt_digits_length_iff hbase value).2 hvalue⟩

/-! ### The room for the prefix -/

def paddedLength (n prec width : Nat) (flags : PrintfFlags) : Nat :=
  if flags.left then n
  else if flags.padZero then max (max n (min prec integerBufferSize)) (min width integerBufferSize)
  else max n (min prec integerBufferSize)

def roomLength (n base prec width : Nat) (flags : PrintfFlags) : Nat :=
  if flags.prec = false ∧ n ≠ 0 ∧ (n = prec ∨ n = width) then
    if n - 1 ≠ 0 ∧ base = 16 then n - 2 else n - 1
  else n

private theorem zeroFill_length (input : List UInt8) (n : Nat) :
    (zeroFill input n).length = max input.length (min n integerBufferSize) := by
  rw [zeroFill, List.length_append, List.length_replicate]
  omega

theorem padInput_length (input : List UInt8) (prec width : Nat) (flags : PrintfFlags) :
    (padInput input prec width flags).length = paddedLength input.length prec width flags := by
  unfold padInput paddedLength
  split
  · rfl
  split
  · rw [zeroFill_length, zeroFill_length]
  · rw [zeroFill_length]

private theorem makeRoom_length (input : List UInt8) (base prec width : Nat) (flags : PrintfFlags) :
    (makeRoom input base prec width flags).length = roomLength input.length base prec width flags := by
  unfold makeRoom roomLength
  rw [List.length_dropLast]
  split
  · split
    · rw [List.length_dropLast, List.length_dropLast, Nat.sub_sub]
    · rw [List.length_dropLast]
  · rfl

/-- The prefix goes past the end when there is one byte for two characters. -/
private theorem putPrefix_none_iff (input : List UInt8) (base : Nat) (flags : PrintfFlags) :
    putPrefix input base flags = none ↔ (base = 16 ∨ base = 2) ∧ input.length = 31 := by
  have hsize : integerBufferSize = 32 := rfl
  unfold putPrefix
  by_cases hlen : input.length < integerBufferSize
  case neg =>
    rw [if_neg hlen]
    exact ⟨nofun, fun h => absurd (show input.length < integerBufferSize by omega) hlen⟩
  rw [if_pos hlen]
  have htwo (c : UInt8) : (putDigit c input).bind (putDigit 0x30) = none ↔ input.length = 31 := by
    rw [putDigit, if_pos hlen, Option.bind_some, putDigit, List.length_append, List.length_singleton]
    split
    · exact ⟨nofun, fun h => by omega⟩
    · exact ⟨fun _ => by omega, fun _ => rfl⟩
  by_cases hhex : base = 16
  · rw [if_pos hhex, htwo]
    exact ⟨fun h => ⟨.inl hhex, h⟩, And.right⟩
  by_cases hbin : base = 2
  · rw [if_neg hhex, if_pos hbin, htwo]
    exact ⟨fun h => ⟨.inr hbin, h⟩, And.right⟩
  · rw [if_neg hhex, if_neg hbin, putDigit, if_pos hlen]
    exact ⟨nofun, fun h => by omega⟩

/-- `print_long` writes past the end of the digits. -/
def LongOverruns (value : Nat) (negative : Bool) (base prec width : Nat) (flags : PrintfFlags) : Prop :=
  flags.special = true ∧ (base = 16 ∨ base = 2) ∧
    roomLength (paddedLength (longDigits base value flags).length prec (signWidth negative width flags) flags)
    base prec
      (signWidth negative width flags) flags = 31

theorem printLong_none_iff {base : Nat} (hbase : 1 < base) (o : Output) (value : Nat) (negative : Bool)
    (prec width : Nat) (flags : PrintfFlags) :
    printLong o value negative base prec width flags = none ↔ LongOverruns value negative base prec width flags := by
  rw [printLong_eq hbase, printInteger, LongOverruns, Option.map_eq_none_iff]
  split
  · rename_i hspecial
    rw [putPrefix_none_iff, makeRoom_length, padInput_length, List.length_map]
    exact ⟨fun h => ⟨hspecial, h⟩, And.right⟩
  · rename_i hspecial
    exact ⟨nofun, fun h => absurd h.1 hspecial⟩

/-! ### The table of units -/

private theorem humanUnit_le (fuel temp i k : Nat) (h : temp < 1024 ^ (k + 1)) : humanUnit fuel temp i ≤ i + k := by
  induction fuel generalizing temp i k with
  | zero => exact Nat.le_add_right i k
  | succ fuel ih =>
    rw [humanUnit]
    split
    · rename_i hmore
      cases k with
      | zero =>
        rw [Nat.div_eq_of_lt (by simpa using h)] at hmore
        exact absurd hmore (Nat.lt_irrefl 0)
      | succ k =>
        have hdiv : temp / 1024 < 1024 ^ (k + 1) := Nat.div_lt_of_lt_mul (by rwa [← Nat.pow_succ'])
        have hle := ih (temp / 1024) (i + 1) k hdiv
        omega
    · exact Nat.le_add_right i k

private theorem humanIndex_lt (value : BitVec 64) : humanIndex value.toNat < sizeUnits.length := by
  have hvalue := value.isLt
  have hle : humanUnit 64 value.toNat 0 ≤ 0 + 6 := humanUnit_le 64 value.toNat 0 6 (by omega)
  have hsize : sizeUnits.length = 6 := rfl
  unfold humanIndex
  dsimp only
  generalize humanUnit 64 value.toNat 0 = i at hle
  split
  · omega
  · rename_i hno
    by_contra hge
    have hi : i = 6 := by omega
    refine hno ⟨by omega, ?_⟩
    rw [hi, Nat.shiftRight_eq_div_pow]
    omega

private theorem printHumanSize_some (o : Output) (value : BitVec 64) (width : Nat) (flags : PrintfFlags) :
    ∃ o', printHumanSize o value.toNat width flags = some o' := by
  rw [printHumanSize, List.getElem?_eq_getElem (humanIndex_lt value)]
  exact ⟨_, rfl⟩

/-! ### Conversions -/

abbrev isIntConv (c : UInt8) : Prop := c = 0x64 ∨ c = 0x69 ∨ c = 0x75 ∨ c = 0x78 ∨ c = 0x58 ∨ c = 0x6f ∨ c = 0x62

def OverrunsDigits (va : VaList) (s : PrintfSpec) (c : UInt8) : Prop :=
  isIntConv c ∧ LongOverruns (intMagnitude c (va.slot s.args) s.flags) (intNegative c (va.slot s.args) s.flags)
    (intBase c)
    s.prec s.width (intFlags c s.flags)

def nextSlot (c : UInt8) (args : Nat) : Nat :=
  if isIntConv c ∨ c = 0x63 ∨ c = 0x73 ∨ c = 0x70 ∨ c = 0x48 then args + 1 else args

theorem intBase_gt (c : UInt8) : 1 < intBase c := by
  unfold intBase
  split_ifs <;> decide

private theorem pointer_fits (a : BitVec 64) (flags : PrintfFlags) :
    ¬LongOverruns a.toNat false 16 16 0 { flags with padZero := true, special := true, prec := true } := by
  rintro ⟨-, -, hroom⟩
  have hdigits := longDigits_length_le (show 1 < 16 by decide) (show 0 < 16 by decide) a.isLt
    { flags with padZero := true, special := true, prec := true }
  have hsize : integerBufferSize = 32 := rfl
  have hpadded (n width : Nat) (f : PrintfFlags) (hn : n ≤ 16) (hw : width = 0) : paddedLength n 16 width f ≤ 16 := by
    unfold paddedLength
    split_ifs <;> omega
  have hwidth (f : PrintfFlags) : signWidth false 0 f = 0 := by
    unfold signWidth
    split
    · rfl
    · rfl
  have hle := hpadded _ _ { flags with padZero := true, special := true, prec := true } hdigits
    (hwidth { flags with padZero := true, special := true, prec := true })
  rw [roomLength, if_neg (fun h => nomatch h.1)] at hroom
  omega

section

variable (va : VaList) (s : PrintfSpec) (c : UInt8) (o : Output)

private theorem printConv_overruns (h : OverrunsDigits va s c) : printConv va s c o = .error .outsideDigits := by
  have hnone : printIntConv o c (va.slot s.args) s.prec s.width s.flags = none :=
    (printLong_none_iff (intBase_gt c) _ _ _ _ _ _).2 h.2
  unfold printConv
  dsimp only
  rw [if_pos h.1, hnone]

private theorem printConv_fine (h : ¬OverrunsDigits va s c) :
    ∃ o', printConv va s c o = .ok (o', nextSlot c s.args) := by
  unfold printConv
  dsimp only
  by_cases hint : isIntConv c
  · obtain ⟨o', ho'⟩ : ∃ o', printIntConv o c (va.slot s.args) s.prec s.width s.flags = some o' := by
      refine Option.ne_none_iff_exists'.1 fun hnone => h ⟨hint, ?_⟩
      exact (printLong_none_iff (intBase_gt c) _ _ _ _ _ _).1 hnone
    rw [if_pos hint, ho', show nextSlot c s.args = s.args + 1 from if_pos (.inl hint)]
    exact ⟨_, rfl⟩
  rw [if_neg hint]
  by_cases hchar : c = 0x63
  · rw [if_pos hchar, show nextSlot c s.args = s.args + 1 from if_pos (.inr (.inl hchar))]
    exact ⟨_, rfl⟩
  rw [if_neg hchar]
  by_cases hstr : c = 0x73
  · rw [if_pos hstr, show nextSlot c s.args = s.args + 1 from if_pos (.inr (.inr (.inl hstr)))]
    exact ⟨_, rfl⟩
  rw [if_neg hstr]
  by_cases hptr : c = 0x70
  · obtain ⟨o', ho'⟩ := Option.ne_none_iff_exists'.1
      (mt (printLong_none_iff (by decide) o _ _ _ _ _).1 (pointer_fits (va.slot s.args) s.flags))
    rw [if_pos hptr, ho', show nextSlot c s.args = s.args + 1 from if_pos (.inr (.inr (.inr (.inl hptr))))]
    exact ⟨_, rfl⟩
  rw [if_neg hptr]
  by_cases hsize : c = 0x48
  · obtain ⟨o', ho'⟩ := printHumanSize_some o (va.slot s.args) s.width s.flags
    rw [if_pos hsize, ho', show nextSlot c s.args = s.args + 1 from if_pos (.inr (.inr (.inr (.inr hsize))))]
    exact ⟨_, rfl⟩
  · rw [if_neg hsize, show nextSlot c s.args = s.args from if_neg (by tauto)]
    exact ⟨_, rfl⟩

end

/-! ### The format -/

/-- A format whose conversions are all complete, with these conversions. -/
inductive Converts (va : VaList) : CStr → Nat → List (PrintfSpec × UInt8) → Prop
  | nil (args : Nat) : Converts va [] args []
  | char {c : UInt8} {fmt : CStr} {args : Nat} {convs : List (PrintfSpec × UInt8)} (hc : c ≠ 0x25)
      (h : Converts va fmt args convs) : Converts va (c :: fmt) args convs
  | conv {c : UInt8} {fmt fmt' : CStr} {args : Nat} {convs : List (PrintfSpec × UInt8)}
      (hc : (parseSpec va fmt args).fmt = c :: fmt')
      (h : Converts va fmt' (nextSlot c (parseSpec va fmt args).args) convs) :
      Converts va (0x25 :: fmt) args ((parseSpec va fmt args, c) :: convs)

private theorem parseFlags_length (fmt : CStr) (flags : PrintfFlags) :
    (parseFlags fmt flags).1.length ≤ fmt.length := by
  induction fmt generalizing flags with
  | nil => exact Nat.le_refl _
  | cons c fmt ih =>
    rw [parseFlags, List.length_cons]
    split_ifs
    all_goals first
      | exact Nat.le_succ_of_le (ih _)
      | exact Nat.le_refl _

private theorem parseFmtNumber_length (fmt : CStr) (n : Nat) : (parseFmtNumber fmt n).2.length ≤ fmt.length := by
  induction fmt generalizing n with
  | nil => exact Nat.le_refl _
  | cons c fmt ih =>
    rw [parseFmtNumber, List.length_cons]
    split
    · exact Nat.le_succ_of_le (ih _)
    · exact Nat.le_refl _

private theorem tail_length_le (fmt : CStr) : fmt.tail.length ≤ fmt.length := by
  rw [List.length_tail]
  exact Nat.sub_le _ _

private theorem parseWidth_length (va : VaList) (s : PrintfSpec) : (parseWidth va s).fmt.length ≤ s.fmt.length := by
  unfold parseWidth
  split_ifs
  · exact parseFmtNumber_length _ _
  · exact tail_length_le _
  · exact tail_length_le _
  · exact Nat.le_refl _

private theorem parsePrec_length (va : VaList) (s : PrintfSpec) : (parsePrec va s).fmt.length ≤ s.fmt.length := by
  unfold parsePrec parsePrecNumber
  dsimp only
  split_ifs
  · exact Nat.le_trans (parseFmtNumber_length _ _) (tail_length_le _)
  · exact Nat.le_trans (tail_length_le _) (tail_length_le _)
  · exact Nat.le_trans (tail_length_le _) (tail_length_le _)
  · exact tail_length_le _
  · exact Nat.le_refl _

private theorem parseLength_length (s : PrintfSpec) : (parseLength s).fmt.length ≤ s.fmt.length := by
  unfold parseLength
  dsimp only
  split_ifs
  · exact Nat.le_trans (tail_length_le _) (tail_length_le _)
  · exact tail_length_le _
  · exact Nat.le_trans (tail_length_le _) (tail_length_le _)
  · exact tail_length_le _
  · exact tail_length_le _
  · exact Nat.le_refl _

private theorem parseSpec_length (va : VaList) (fmt : CStr) (args : Nat) :
    (parseSpec va fmt args).fmt.length ≤ fmt.length :=
  Nat.le_trans (parseLength_length _) (Nat.le_trans (parsePrec_length _ _)
    (Nat.le_trans (parseWidth_length _ _) (parseFlags_length fmt {})))

private theorem printLoop_ended {va : VaList} {fuel : Nat} {fmt : CStr} {args : Nat} {o : Output}
    {convs : List (PrintfSpec × UInt8)}
    (hconvs : Converts va fmt args convs) (hfuel : fmt.length < fuel)
    (hfits : ∀ p ∈ convs, ¬OverrunsDigits va p.1 p.2) :
    (printLoop va fuel fmt args o).2 = .ended := by
  induction hconvs generalizing fuel o with
  | nil args =>
    obtain ⟨fuel, rfl⟩ := Nat.exists_eq_succ_of_ne_zero (Nat.ne_of_gt hfuel)
    rfl
  | char hc _ ih =>
    obtain ⟨fuel, rfl⟩ := Nat.exists_eq_succ_of_ne_zero (Nat.ne_of_gt (Nat.zero_lt_of_lt hfuel))
    rw [printLoop, if_pos hc]
    exact ih (Nat.lt_of_succ_lt_succ hfuel) hfits
  | @conv c fmt fmt' args convs hc _ ih =>
    obtain ⟨fuel, rfl⟩ := Nat.exists_eq_succ_of_ne_zero (Nat.ne_of_gt (Nat.zero_lt_of_lt hfuel))
    obtain ⟨o', ho'⟩ := printConv_fine va _ _ o (hfits _ List.mem_cons_self)
    have hlen := parseSpec_length va fmt args
    rw [hc, List.length_cons] at hlen
    rw [List.length_cons] at hfuel
    rw [printLoop, if_neg fun h => h rfl, hc]
    dsimp only
    rw [ho']
    exact ih (by omega) fun p hp => hfits p (List.mem_cons_of_mem _ hp)

private theorem converts_of_ended {va : VaList} {fuel : Nat} {fmt : CStr} {args : Nat} {o : Output}
    (hended : (printLoop va fuel fmt args o).2 = .ended) :
    ∃ convs, Converts va fmt args convs ∧ ∀ p ∈ convs, ¬OverrunsDigits va p.1 p.2 := by
  induction fuel generalizing fmt args o with
  | zero => cases hended
  | succ fuel ih =>
    cases fmt with
    | nil => exact ⟨[], .nil args, fun p hp => absurd hp List.not_mem_nil⟩
    | cons c fmt =>
      rw [printLoop] at hended
      by_cases hc : c ≠ 0x25
      · rw [if_pos hc] at hended
        obtain ⟨convs, hconvs, hfits⟩ := ih hended
        exact ⟨convs, hconvs.char hc, hfits⟩
      rw [if_neg hc] at hended
      obtain rfl := not_not.1 hc
      cases hspec : (parseSpec va fmt args).fmt with
      | nil =>
        rw [hspec] at hended
        cases hended
      | cons c fmt' =>
        rw [hspec] at hended
        dsimp only at hended
        by_cases hover : OverrunsDigits va (parseSpec va fmt args) c
        · rw [printConv_overruns va _ _ o hover] at hended
          cases hended
        · obtain ⟨o', ho'⟩ := printConv_fine va _ _ o hover
          rw [ho'] at hended
          obtain ⟨convs, hconvs, hfits⟩ := ih hended
          refine ⟨_, .conv hspec hconvs, fun p hp => ?_⟩
          rcases List.mem_cons.1 hp with rfl | hp
          · exact hover
          · exact hfits p hp

/-- `print_internal` comes to the end of the format with every access allowed exactly when every conversion of the
format is complete and none of them puts a prefix of two characters after 31 digits. -/
theorem printInternal_ended_iff (va : VaList) (maxlen : Nat) (fmt : CStr) :
    (printInternal va maxlen fmt).stop = .ended ↔
    ∃ convs, Converts va fmt 0 convs ∧ ∀ p ∈ convs, ¬OverrunsDigits va p.1 p.2 := by
  have hstop : (printInternal va maxlen fmt).stop = (printLoop va (fmt.length + 1) fmt 0 ⟨[], 0⟩).2 := by
    rw [printInternal_text]
    rfl
  rw [hstop]
  refine ⟨converts_of_ended, ?_⟩
  rintro ⟨convs, hconvs, hfits⟩
  exact printLoop_ended hconvs (Nat.lt_succ_self _) hfits

/-- The format `%` is left, and `%#.31x` writes after the end of the digits. -/
theorem printInternal_not_ended :
    (printInternal ⟨fun _ => 0, fun _ => []⟩ 80 [0x25]).stop = .pastFormat ∧
    (printInternal ⟨fun _ => 0, fun _ => []⟩ 80 [0x25, 0x23, 0x2e, 0x33, 0x31, 0x78]).stop = .outsideDigits := by
  decide

end Pml.Util
