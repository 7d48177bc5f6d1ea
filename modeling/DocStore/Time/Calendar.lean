/-
The proleptic Gregorian calendar over all integer years, year zero included. Days are counted
from 1 January of year zero; a date and its day number determine each other.
-/

namespace DocStore.Calendar

def isLeap (year : Int) : Bool :=
  year % 4 == 0 && (year % 100 != 0 || year % 400 == 0)

/-- The lengths of the months of a year. -/
def monthLengths (year : Int) : List Nat :=
  [31, if isLeap year then 29 else 28, 31, 30, 31, 30, 31, 31, 30, 31, 30, 31]

/-- The number of days of a year before the first of a month. -/
def daysBeforeMonth (year : Int) (month : Nat) : Nat :=
  ((monthLengths year).take (month - 1)).foldl (fun days length => days + length) 0

/-- The number of days from 1 January of year zero to 1 January of `year`: the years between
have 365 days each, and every fourth has one more, save every hundredth that is not a four
hundredth. -/
def daysBeforeYear (year : Int) : Int :=
  365 * year + (year + 3) / 4 - (year + 99) / 100 + (year + 399) / 400

/-- The year in which a day lies. Four hundred years have 146097 days, so the quotient is off
by at most one. -/
def yearOfDay (day : Int) : Int :=
  let year := day * 400 / 146097
  if day < daysBeforeYear year then year - 1
  else if daysBeforeYear (year + 1) ≤ day then year + 1
  else year

/-- A day of the calendar; months and days of a month are counted from one. -/
structure Date where
  year : Int
  month : Nat
  day : Nat
  deriving DecidableEq

/-- The month, counted from zero, and the day within it, counted from zero, of a day of a year
whose months have the given lengths. -/
def splitDay : List Nat → Nat → Nat × Nat
  | [], day => (0, day)
  | length :: rest, day =>
    if day < length then (0, day)
    else
      let (month, within) := splitDay rest (day - length)
      (month + 1, within)

namespace Date

/-- The date of a day number. -/
def ofDays (days : Int) : Date :=
  let year := yearOfDay days
  let (month, day) := splitDay (monthLengths year) (days - daysBeforeYear year).toNat
  ⟨year, month + 1, day + 1⟩

/-- The day number of a date. -/
def toDays (date : Date) : Int :=
  daysBeforeYear date.year + daysBeforeMonth date.year date.month + date.day - 1

/-- Whether the month exists and has the day. -/
def isValid (date : Date) : Bool :=
  decide (1 ≤ date.month) && decide (1 ≤ date.day) &&
    match (monthLengths date.year)[date.month - 1]? with
    | some length => decide (date.day ≤ length)
    | none => false

end Date

end DocStore.Calendar
