import Mathlib.Data.UInt
import Pml.Lib.Gregorian

/-!
# The real-time clock (`arch/x86_64/rtc.c`)

`cmos_read_real_time` reads six registers until two rounds agree, decodes them, and computes the time from the formula
that POSIX gives for it.  The registers hold the numbers of a date in BCD or in binary, and the hour from 0 to 23 or
from 1 to 12 with a bit for the afternoon (`storedDate`).

The formula wants the day of the year with the leap day, and its leap years count 86400 seconds each.
-/

namespace Pml.Arch

open Gregorian

/-! ### The device -/

/-- What the `t`-th call of `cmos_read_register` returns for a register. -/
abbrev Cmos := Nat → Nat → UInt8

def cmosRegSeconds : Nat := 0x00
def cmosRegMinutes : Nat := 0x02
def cmosRegHours : Nat := 0x04
def cmosRegDayOfMonth : Nat := 0x07
def cmosRegMonth : Nat := 0x08
def cmosRegYear : Nat := 0x09
def cmosRegStatusA : Nat := 0x0a
def cmosRegStatusB : Nat := 0x0b

def cmosStatusB12h : Nat := 1 <<< 1
def cmosStatusBBcd : Nat := 1 <<< 2

/-- The array `data`. -/
@[ext] structure CmosData where
  second : UInt8
  minute : UInt8
  hour : UInt8
  day : UInt8
  month : UInt8
  year : UInt8
  deriving DecidableEq

def daysPerMonth : List Nat := [31, 28, 31, 30, 31, 30, 31, 31, 30, 31, 30, 31]

/-- `cmos_wait_update`, from the `t`-th call on. -/
def cmosWaitUpdate (cmos : Cmos) : Nat → Nat → Option Nat
  | 0, _ => none
  | fuel + 1, t => if (cmos t cmosRegStatusA).toNat &&& 0x80 ≠ 0 then cmosWaitUpdate cmos fuel (t + 1)
      else some (t + 1)

def cmosReadData (cmos : Cmos) (t : Nat) : CmosData :=
  ⟨cmos t cmosRegSeconds, cmos (t + 1) cmosRegMinutes, cmos (t + 2) cmosRegHours, cmos (t + 3) cmosRegDayOfMonth,
    cmos (t + 4) cmosRegMonth, cmos (t + 5) cmosRegYear⟩

/-- The loop that reads `data` until it is `old_data`. -/
def cmosReadTwice (cmos : Cmos) : Nat → CmosData → Nat → Option (CmosData × Nat)
  | 0, _, _ => none
  | fuel + 1, oldData, t =>
    match cmosWaitUpdate cmos fuel t with
    | none => none
    | some t => if cmosReadData cmos t ≠ oldData then cmosReadTwice cmos fuel (cmosReadData cmos t) (t + 6)
      else some (cmosReadData cmos t, t + 6)

def cmosReadStable (cmos : Cmos) (fuel : Nat) : Option (CmosData × Nat) :=
  match cmosWaitUpdate cmos fuel 0 with
  | none => none
  | some t => cmosReadTwice cmos fuel (cmosReadData cmos t) (t + 6)

/-! ### The conversion -/

def fromBcd (x : UInt8) : UInt8 := UInt8.ofNat ((x.toNat &&& 0x0f) + x.toNat / 16 * 10)

def hourFromBcd (x : UInt8) : UInt8 :=
  UInt8.ofNat (((x.toNat &&& 0x0f) + (x.toNat &&& 0x70) / 16 * 10) ||| (x.toNat &&& 0x80))

def adjustBcd (statusB : UInt8) (data : CmosData) : CmosData :=
  if statusB.toNat &&& cmosStatusBBcd = 0 then
    ⟨fromBcd data.second, fromBcd data.minute, hourFromBcd data.hour, fromBcd data.day, fromBcd data.month,
      fromBcd data.year⟩
  else data

def adjust12h (statusB : UInt8) (data : CmosData) : CmosData :=
  if statusB.toNat &&& cmosStatusB12h = 0 ∧ data.hour.toNat &&& 0x80 ≠ 0 then
    { data with hour := UInt8.ofNat (((data.hour.toNat &&& 0x7f) + 12) % 24) }
  else data

def dayOfYear (data : CmosData) : Nat :=
  (data.day.toNat + (2 ^ 32 - 1) + ((List.range (data.month.toNat - 1)).map fun i => daysPerMonth.getD i 0).sum) %
    2 ^ 32

/-- The sum that is returned: its terms are numbers of 32 bits, and so is the sum. -/
def realTime (data : CmosData) : Int :=
  let posixYear := data.year.toNat + 100
  ((data.second.toNat + data.minute.toNat * 60 + data.hour.toNat * 3600 + dayOfYear data * 86400 +
    (posixYear - 70) * 31536000 + (posixYear - 69) / 4 * 86000 : Nat) - ((posixYear - 1) / 100 * 86400 : Nat) +
    ((posixYear + 299) / 400 * 86400 : Nat) : Int) % 2 ^ 32

def cmosReadRealTime (cmos : Cmos) (fuel : Nat) : Option Int :=
  match cmosReadStable cmos fuel with
  | none => none
  | some (data, t) =>
    some (realTime (adjust12h (cmos t cmosRegStatusB) (adjustBcd (cmos t cmosRegStatusB) data)))

/-! ### A date in the registers -/

def storedNumber (statusB : UInt8) (n : Nat) : Nat :=
  if statusB.toNat &&& cmosStatusBBcd = 0 then n / 10 * 16 + n % 10 else n

/-- How an hour is stored: from 0 to 23, or from 1 to 12 with a bit for the afternoon. -/
def storedHour (statusB : UInt8) (h : Nat) : Nat :=
  if statusB.toNat &&& cmosStatusB12h = 0 then
    storedNumber statusB (if h % 12 = 0 then 12 else h % 12) + if 12 ≤ h then 0x80 else 0
  else storedNumber statusB h

def storedDate (statusB : UInt8) (time : DateTime) : CmosData :=
  ⟨UInt8.ofNat (storedNumber statusB time.second), UInt8.ofNat (storedNumber statusB time.minute),
    UInt8.ofNat (storedHour statusB time.hour), UInt8.ofNat (storedNumber statusB time.day),
    UInt8.ofNat (storedNumber statusB time.month), UInt8.ofNat (storedNumber statusB (time.year - 2000))⟩

def readHour (statusB : UInt8) (h : Nat) : Nat :=
  if statusB.toNat &&& cmosStatusB12h = 0 ∧ h % 12 = 0 then 12 - h else h

private theorem fromBcd_storedNumber {n : Nat} (hn : n < 100) :
    (fromBcd (UInt8.ofNat (n / 10 * 16 + n % 10))).toNat = n := by
  revert n
  decide

private theorem number_toNat {n : Nat} (hn : n < 100) : (UInt8.ofNat n).toNat = n := by
  rw [UInt8.toNat_ofNat']
  omega

def adjusted (statusB : UInt8) (data : CmosData) : CmosData := adjust12h statusB (adjustBcd statusB data)

private theorem stored_read (statusB : UInt8) {n : Nat} (hn : n < 100) :
    (if statusB.toNat &&& cmosStatusBBcd = 0 then fromBcd (UInt8.ofNat (storedNumber statusB n))
      else UInt8.ofNat (storedNumber statusB n)).toNat = n := by
  unfold storedNumber
  by_cases hbcd : statusB.toNat &&& cmosStatusBBcd = 0
  · simp only [hbcd, ↓reduceIte]
    exact fromBcd_storedNumber hn
  · simp only [hbcd, ↓reduceIte]
    exact number_toNat hn

private theorem adjust12h_hour (statusB : UInt8) (data : CmosData) : (adjust12h statusB data).hour =
    if statusB.toNat &&& cmosStatusB12h = 0 ∧ data.hour.toNat &&& 0x80 ≠ 0 then
      UInt8.ofNat (((data.hour.toNat &&& 0x7f) + 12) % 24) else data.hour := by
  unfold adjust12h
  split <;> rfl

private theorem adjust12h_rest (statusB : UInt8) (data : CmosData) :
    { adjust12h statusB data with hour := data.hour } = data := by
  unfold adjust12h
  split <;> rfl

private theorem adjustBcd_hour (statusB : UInt8) (data : CmosData) : (adjustBcd statusB data).hour =
    if statusB.toNat &&& cmosStatusBBcd = 0 then hourFromBcd data.hour else data.hour := by
  unfold adjustBcd
  split <;> rfl

private theorem adjusted_hour (statusB : UInt8) (time : DateTime) :
    (adjusted statusB (storedDate statusB time)).hour.toNat = readHour statusB time.hour := by
  have hlt := time.hour_lt
  rw [adjusted, adjust12h_hour, adjustBcd_hour, storedDate]
  unfold storedHour storedNumber readHour
  generalize time.hour = h at hlt
  by_cases hbcd : statusB.toNat &&& cmosStatusBBcd = 0
  · by_cases h12 : statusB.toNat &&& cmosStatusB12h = 0
    · simp only [hbcd, h12, ↓reduceIte, true_and]
      revert h
      decide
    · simp only [hbcd, h12, ↓reduceIte, false_and]
      revert h
      decide
  · by_cases h12 : statusB.toNat &&& cmosStatusB12h = 0
    · simp only [hbcd, h12, ↓reduceIte, true_and]
      revert h
      decide
    · simp only [hbcd, h12, ↓reduceIte, false_and]
      revert h
      decide

private theorem adjusted_rest (statusB : UInt8) {time : DateTime} (h0 : 2000 ≤ time.year) (h1 : time.year ≤ 2099) :
    (adjusted statusB (storedDate statusB time)).second.toNat = time.second ∧
      (adjusted statusB (storedDate statusB time)).minute.toNat = time.minute ∧
      (adjusted statusB (storedDate statusB time)).day.toNat = time.day ∧
      (adjusted statusB (storedDate statusB time)).month.toNat = time.month ∧
      (adjusted statusB (storedDate statusB time)).year.toNat = time.year - 2000 := by
  have hday := time.day_in
  have hmonth := time.month_in
  have hlength := monthLength_le time.year time.month
  have hsecond := time.second_lt
  have hminute := time.minute_lt
  have hrest := adjust12h_rest statusB (adjustBcd statusB (storedDate statusB time))
  have hread := @stored_read statusB
  obtain ⟨h2, h3, -, h4, h5, h6⟩ := CmosData.ext_iff.1 hrest
  rw [adjusted, h2, h3, h4, h5, h6]
  unfold adjustBcd storedDate
  by_cases hbcd : statusB.toNat &&& cmosStatusBBcd = 0
  · simp only [hbcd, ↓reduceIte] at hread ⊢
    exact ⟨hread (by omega), hread (by omega), hread (by omega), hread (by omega), hread (by omega)⟩
  · simp only [hbcd, ↓reduceIte] at hread ⊢
    exact ⟨hread (by omega), hread (by omega), hread (by omega), hread (by omega), hread (by omega)⟩

/-! ### The sum -/

private theorem daysPerMonth_sum (year : Nat) {month : Nat} (h : 1 ≤ month ∧ month ≤ 12) :
    ((List.range (month - 1)).map fun i => daysPerMonth.getD i 0).sum + (if isLeap year ∧ 2 < month then 1 else 0) =
        daysBeforeMonth year month ∧ daysBeforeMonth year month ≤ 335 := by
  obtain ⟨hlo, hhi⟩ := h
  unfold daysBeforeMonth monthLength
  cases isLeap year with
  | false =>
    have hlt : month < 13 := by omega
    clear hhi
    revert month
    decide
  | true =>
    have hlt : month < 13 := by omega
    clear hhi
    revert month
    decide

/-- By how many seconds the clock is slow: 400 for each leap year from 1972 on, a day after February of a leap year,
and half a day forward or back at noon and midnight if the hours go from 1 to 12. -/
def clockError (statusB : UInt8) (time : DateTime) : Int :=
  400 * ((time.year - 1969) / 4 : Nat) + (if isLeap time.year ∧ 2 < time.month then 86400 else 0) +
    ((time.hour : Int) - readHour statusB time.hour) * 3600

private theorem clockError_ne_zero (statusB : UInt8) {time : DateTime} (h0 : 2000 ≤ time.year)
    (h1 : time.year ≤ 2099) :
    clockError statusB time ≠ 0 := by
  have hhour :
    (time.hour : Int) - readHour statusB time.hour = 0 ∨ (time.hour : Int) - readHour statusB time.hour = 12 ∨
      (time.hour : Int) - readHour statusB time.hour = -12 := by
    unfold readHour
    have hlt := time.hour_lt
    split <;> omega
  unfold clockError
  split <;> omega

private theorem sum_terms {k years second minute hour doy : Nat} (hk : k ≤ 99)
    (hyears : years + (30 + k + 69) / 100 = 365 * (30 + k) + (30 + k + 1) / 4 + (30 + k + 369) / 400)
    (hsecond : second < 60) (hminute : minute < 60) (hhour : hour < 24) (hdoy : doy ≤ 365) :
    ((second + minute * 60 + hour * 3600 + doy * 86400 + (k + 100 - 70) * 31536000 + (k + 100 - 69) / 4 * 86000 :
      Nat) -
        ((k + 100 - 1) / 100 * 86400 : Nat) + ((k + 100 + 299) / 400 * 86400 : Nat) : Int) % 2 ^ 32 =
      ((years + doy) * 86400 + hour * 3600 + minute * 60 + second : Nat) - 400 * ((31 + k) / 4 : Nat) := by
  have h4 : (k + 100 - 69) / 4 = (31 + k) / 4 := by omega
  have h4' : (30 + k + 1) / 4 = (31 + k) / 4 := by omega
  have h100 : (k + 100 - 1) / 100 = (30 + k + 69) / 100 := by omega
  have h400 : (k + 100 + 299) / 400 = (30 + k + 369) / 400 := by omega
  rw [h4'] at hyears
  rw [h4, h100, h400, Nat.sub_mul]
  have b4 : (31 + k) / 4 ≤ 32 := by omega
  have b100 : (30 + k + 69) / 100 ≤ 1 := by omega
  have b400 : (30 + k + 369) / 400 ≤ 1 := by omega
  generalize (31 + k) / 4 = q4 at *
  generalize (30 + k + 69) / 100 = q100 at *
  generalize (30 + k + 369) / 400 = q400 at *
  rw [Int.emod_eq_of_lt (by omega) (by omega)]
  omega

private theorem realTime_stored (statusB : UInt8) {time : DateTime} (h0 : 2000 ≤ time.year) (h1 : time.year ≤ 2099) :
    realTime (adjusted statusB (storedDate statusB time)) = time.timestamp - clockError statusB time := by
  have hhour := adjusted_hour statusB time
  obtain ⟨hsecond, hminute, hday, hmonth, hyear⟩ := adjusted_rest statusB h0 h1
  obtain ⟨hsum, hle⟩ := daysPerMonth_sum time.year time.month_in
  have hdayin := time.day_in
  have hlength := monthLength_le time.year time.month
  have hread : readHour statusB time.hour < 24 := by
    have hlt := time.hour_lt
    unfold readHour
    split <;> omega
  have hdoy :
    dayOfYear (adjusted statusB (storedDate statusB time)) + (if isLeap time.year ∧ 2 < time.month then 1 else 0) =
      daysBeforeMonth time.year time.month + (time.day - 1) := by
    rw [dayOfYear, hday, hmonth]
    omega
  obtain ⟨k, hk⟩ := Nat.exists_eq_add_of_le h0
  have hsub : ∀ n ≤ 2000, time.year - n = 2000 - n + k := fun n hn => by rw [hk, Nat.sub_add_comm hn]
  have h2000 : time.year - 2000 = k := (hsub 2000 (by decide)).trans (Nat.zero_add k)
  have h1970 : time.year - 1970 = 30 + k := hsub 1970 (by decide)
  have h1969 : time.year - 1969 = 31 + k := hsub 1969 (by decide)
  have hterms := sum_terms (by omega) (daysBeforeYear_eq (30 + k)) time.second_lt time.minute_lt hread
    (show dayOfYear (adjusted statusB (storedDate statusB time)) ≤ 365 by omega)
  unfold realTime clockError DateTime.timestamp
  rw [hsecond, hminute, hhour, hyear, h2000, h1970, h1969, hterms]
  clear hterms hsub h2000 h1970 h1969
  split at hdoy
  · rename_i hleap
    rw [if_pos hleap]
    omega
  · rename_i hleap
    rw [if_neg hleap]
    omega

/-! ### The time that is read -/

/-- The registers hold a date, and time and again no update is in progress. -/
structure Cmos.Shows (cmos : Cmos) (statusB : UInt8) (time : DateTime) : Prop where
  data : ∀ t, cmosReadData cmos t = storedDate statusB time
  status : ∀ t, cmos t cmosRegStatusB = statusB
  ready : ∀ t, ∃ t', t ≤ t' ∧ (cmos t' cmosRegStatusA).toNat &&& 0x80 = 0

private theorem cmosWaitUpdate_ready {cmos : Cmos} {t t' : Nat} (hle : t ≤ t')
    (h : (cmos t' cmosRegStatusA).toNat &&& 0x80 = 0) :
    ∃ t₁, ∀ fuel, t' - t < fuel → cmosWaitUpdate cmos fuel t = some t₁ := by
  obtain ⟨d, rfl⟩ := Nat.exists_eq_add_of_le hle
  clear hle
  induction d generalizing t with
  | zero =>
    refine ⟨t + 1, fun fuel hf => ?_⟩
    obtain ⟨fuel, rfl⟩ := Nat.exists_eq_add_of_lt hf
    rw [show t + 0 - t + fuel + 1 = fuel + 1 by omega, cmosWaitUpdate, if_neg (fun hne => hne h)]
  | succ d ih =>
    by_cases hbusy : (cmos t cmosRegStatusA).toNat &&& 0x80 = 0
    · refine ⟨t + 1, fun fuel hf => ?_⟩
      obtain ⟨fuel, rfl⟩ := Nat.exists_eq_add_of_lt hf
      rw [cmosWaitUpdate, if_neg (fun hne => hne hbusy)]
    · obtain ⟨t₁, ht⟩ := @ih (t + 1) (by rwa [show t + 1 + d = t + (d + 1) by omega])
      refine ⟨t₁, fun fuel hf => ?_⟩
      obtain ⟨fuel, rfl⟩ : ∃ n, fuel = n + 1 := ⟨fuel - 1, by omega⟩
      rw [cmosWaitUpdate, if_pos hbusy]
      exact ht fuel (by omega)

theorem Cmos.Shows.read {cmos : Cmos} {statusB : UInt8} {time : DateTime} (h : cmos.Shows statusB time) :
    ∃ n t, ∀ fuel, n < fuel → cmosReadStable cmos fuel = some (storedDate statusB time, t) := by
  obtain ⟨u, hu, hready⟩ := h.ready 0
  obtain ⟨t₁, ht₁⟩ := cmosWaitUpdate_ready hu hready
  obtain ⟨u', hu', hready'⟩ := h.ready (t₁ + 6)
  obtain ⟨t₂, ht₂⟩ := cmosWaitUpdate_ready hu' hready'
  refine ⟨u + (u' + 1), t₂ + 6, fun fuel hf => ?_⟩
  obtain ⟨fuel, rfl⟩ : ∃ n, fuel = n + 1 := ⟨fuel - 1, by omega⟩
  rw [cmosReadStable, ht₁ _ (by omega)]
  dsimp only
  rw [cmosReadTwice, ht₂ _ (by omega)]
  dsimp only
  rw [h.data, h.data, if_neg (fun hne => hne rfl)]

private theorem cmosReadRealTime_stored {cmos : Cmos} {fuel t : Nat} {time : DateTime} (h0 : 2000 ≤ time.year)
    (h1 : time.year ≤ 2099) (hread : cmosReadStable cmos fuel = some (storedDate (cmos t cmosRegStatusB) time, t)) :
    cmosReadRealTime cmos fuel = some (time.timestamp - clockError (cmos t cmosRegStatusB) time) := by
  rw [cmosReadRealTime, hread]
  exact congrArg some (realTime_stored _ h0 h1)

/-- At no date of the 21st century does the clock give the time.  When two rounds agree on the date, the result is
slow by `clockError`, which is never zero; and registers that hold a date are read. -/
theorem cmos_read_real_time_never {time : DateTime} (h0 : 2000 ≤ time.year) (h1 : time.year ≤ 2099) (cmos : Cmos) :
    (∀ fuel t, cmosReadStable cmos fuel = some (storedDate (cmos t cmosRegStatusB) time, t) →
      ∃ v, cmosReadRealTime cmos fuel = some v ∧ v = time.timestamp - clockError (cmos t cmosRegStatusB) time ∧
        v ≠ time.timestamp) ∧
    ∀ statusB, cmos.Shows statusB time → ∃ n, ∀ fuel, n < fuel →
      ∃ v, cmosReadRealTime cmos fuel = some v ∧ v ≠ time.timestamp := by
  have hne : ∀ statusB, (time.timestamp : Int) - clockError statusB time ≠ time.timestamp := by
    intro statusB
    have herror := clockError_ne_zero statusB h0 h1
    omega
  refine ⟨fun fuel t hread => ⟨_, cmosReadRealTime_stored h0 h1 hread, rfl, hne _⟩, fun statusB hshows => ?_⟩
  obtain ⟨n, t, hread⟩ := hshows.read
  refine ⟨n, fun fuel hf => ⟨_, cmosReadRealTime_stored (t := t) h0 h1 ?_, hne _⟩⟩
  rw [hread fuel hf, hshows.status]

def noonInMarch : DateTime :=
  { year := 2024, month := 3, day := 15, hour := 12, minute := 30, second := 45,
    year_le := by decide, month_in := by decide,
    day_in := by decide, hour_lt := by decide, minute_lt := by decide, second_lt := by decide }

def cmosAtNoon : Cmos := fun _ register =>
  match register with
  | 0x00 => 0x45
  | 0x02 => 0x30
  | 0x04 => 0x92
  | 0x07 => 0x15
  | 0x08 => 0x03
  | 0x09 => 0x24
  | _ => 0

theorem cmos_read_real_time_noon : ∃ v, cmosReadRealTime cmosAtNoon 2 = some v ∧
    v = noonInMarch.timestamp - clockError 0 noonInMarch ∧ v ≠ noonInMarch.timestamp :=
  (cmos_read_real_time_never (by decide) (by decide) cmosAtNoon).1 2 14 (by decide)

theorem not_cmos_read_real_time : ¬ ∀ (time : DateTime) (cmos : Cmos) (fuel t : Nat), 2000 ≤ time.year →
    time.year ≤ 2099 → cmosReadStable cmos fuel = some (storedDate (cmos t cmosRegStatusB) time, t) →
    cmosReadRealTime cmos fuel = some (time.timestamp : Int) := by
  intro hall
  have hread := hall noonInMarch cmosAtNoon 2 14 (by decide) (by decide) (by decide)
  exact absurd hread (by decide)

end Pml.Arch
