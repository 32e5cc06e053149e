import Mathlib.Algebra.GroupWithZero.Nat
import Mathlib.Tactic.SplitIfs

/-!
# The Gregorian calendar

Days and seconds are counted from the start of the year 1970, year by year and month by month.  The closed form for
the days of the years before a year (`daysBeforeYear_eq`) has one term for the years that 4 divides, one for those
that 100 divides, and one for those that 400 divides.
-/

namespace Gregorian

def isLeap (year : Nat) : Bool := year % 4 == 0 && (year % 100 != 0 || year % 400 == 0)

/-- The number of days of a month; January is 1. -/
def monthLength (year month : Nat) : Nat :=
  if month = 2 then if isLeap year then 29 else 28
  else if month = 4 ∨ month = 6 ∨ month = 9 ∨ month = 11 then 30
  else 31

/-- The number of days of the year that come before the month. -/
def daysBeforeMonth (year month : Nat) : Nat := ((List.range (month - 1)).map fun i => monthLength year (i + 1)).sum

def yearLength (year : Nat) : Nat := daysBeforeMonth year 13

/-- The number of days from the start of 1970 to the start of the year `1970 + n`. -/
def daysBeforeYear : Nat → Nat
  | 0 => 0
  | n + 1 => daysBeforeYear n + yearLength (1970 + n)

/-- A date and a time of day, from 1970 on. -/
structure DateTime where
  year : Nat
  month : Nat
  day : Nat
  hour : Nat
  minute : Nat
  second : Nat
  year_le : 1970 ≤ year
  month_in : 1 ≤ month ∧ month ≤ 12
  day_in : 1 ≤ day ∧ day ≤ monthLength year month
  hour_lt : hour < 24
  minute_lt : minute < 60
  second_lt : second < 60

/-- The number of seconds since the start of 1970. -/
def DateTime.timestamp (t : DateTime) : Nat :=
  (daysBeforeYear (t.year - 1970) + daysBeforeMonth t.year t.month + (t.day - 1)) * 86400 + t.hour * 3600 +
    t.minute * 60 + t.second

private theorem isLeap_iff (year : Nat) : isLeap year = true ↔ year % 4 = 0 ∧ (year % 100 ≠ 0 ∨ year % 400 = 0) := by
  simp [isLeap]

theorem monthLength_le (year month : Nat) : monthLength year month ≤ 31 := by
  unfold monthLength
  split
  · split <;> decide
  · split <;> decide

private theorem yearLength_eq (year : Nat) : yearLength year = if isLeap year then 366 else 365 := by
  unfold yearLength daysBeforeMonth monthLength
  cases isLeap year with
  | false => rfl
  | true => rfl

/-- Of the days of the years that are counted from 1970 on, one more is counted for each leap year. -/
private theorem leap_terms (n : Nat) :
    (n + 1 + 69) / 100 + (n + 1) / 4 + (n + 369) / 400 + (if isLeap (1970 + n) then 1 else 0) =
    (n + 69) / 100 + (n + 1 + 1) / 4 + (n + 1 + 369) / 400 := by
  have h4 : (n + 1 + 1) / 4 = (n + 1) / 4 + if (1970 + n) % 4 = 0 then 1 else 0 := by split <;> omega
  have h100 : (n + 1 + 69) / 100 = (n + 69) / 100 + if (1970 + n) % 100 = 0 then 1 else 0 := by split <;> omega
  have h400 : (n + 1 + 369) / 400 = (n + 369) / 400 + if (1970 + n) % 400 = 0 then 1 else 0 := by split <;> omega
  have hof : (1970 + n) % 400 = 0 → (1970 + n) % 100 = 0 := by omega
  have hof' : (1970 + n) % 100 = 0 → (1970 + n) % 4 = 0 := by omega
  rw [h4, h100, h400]
  simp only [isLeap_iff]
  split_ifs <;> omega

theorem daysBeforeYear_eq (n : Nat) :
    daysBeforeYear n + (n + 69) / 100 = 365 * n + (n + 1) / 4 + (n + 369) / 400 := by
  induction n with
  | zero => rfl
  | succ n ih =>
    have hleap := leap_terms n
    have hlength : yearLength (1970 + n) = 365 + if isLeap (1970 + n) then 1 else 0 := by
      rw [yearLength_eq]
      split <;> rfl
    rw [daysBeforeYear, hlength, Nat.mul_succ]
    generalize (n + 69) / 100 = a at ih hleap
    generalize (n + 1 + 69) / 100 = a' at hleap ⊢
    generalize (n + 1) / 4 = b at ih hleap
    generalize (n + 1 + 1) / 4 = b' at hleap ⊢
    generalize (n + 369) / 400 = c at ih hleap
    generalize (n + 1 + 369) / 400 = c' at hleap ⊢
    generalize (if isLeap (1970 + n) = true then 1 else 0) = l at hleap ⊢
    omega

end Gregorian
