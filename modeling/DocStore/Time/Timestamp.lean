/-
Points in time, UTC, to the nanosecond, over the years -262143 to 262142. A leap second is
kept as the second before it with a nanosecond part of one second or more, and only the last
second of a minute can be followed by one.
-/
import DocStore.Time.Calendar

namespace DocStore

/-- The day number of 1 January 1970, from which seconds are counted. -/
def epochDay : Int := 719528

/-- A point in time: whole seconds since 1970 and nanoseconds, a second or more of them in a leap
second. A calendar whose nanoseconds can be set on their own, whatever the second, also builds
points with a second or more of them in the middle of a minute. Those have no written form of their
own, since they are written as points of the second that follows, and they lie outside this type. -/
structure Timestamp where
  seconds : Int
  nanos : Nat
  first_le : (Calendar.daysBeforeYear (-262143) - epochDay) * 86400 ≤ seconds
  lt_end : seconds < (Calendar.daysBeforeYear 262143 - epochDay) * 86400
  nanos_lt : nanos < 2000000000
  leap : 1000000000 ≤ nanos → seconds % 60 = 59
  deriving DecidableEq

namespace Timestamp

/-- The point in time of a count of seconds and nanoseconds, if they name one. -/
def ofParts? (seconds : Int) (nanos : Nat) : Option Timestamp :=
  if h : (Calendar.daysBeforeYear (-262143) - epochDay) * 86400 ≤ seconds ∧
      seconds < (Calendar.daysBeforeYear 262143 - epochDay) * 86400 ∧
      nanos < 2000000000 ∧ (1000000000 ≤ nanos → seconds % 60 = 59) then
    some ⟨seconds, nanos, h.1, h.2.1, h.2.2.1, h.2.2.2⟩
  else none

/-- Earlier first; within one second by nanoseconds. -/
def compare (a b : Timestamp) : Ordering :=
  (Ord.compare a.seconds b.seconds).then (Ord.compare a.nanos b.nanos)

/-- The calendar day. -/
def date (t : Timestamp) : Calendar.Date := .ofDays (t.seconds / 86400 + epochDay)

/-- The second of the day. -/
def secondOfDay (t : Timestamp) : Nat := (t.seconds % 86400).toNat

/-- The point in time of a date and a time of day. Second 60 names the leap second after
second 59. -/
def ofCivil? (date : Calendar.Date) (hour minute second nanos : Nat) : Option Timestamp :=
  if date.isValid && decide (hour ≤ 23) && decide (minute ≤ 59) && decide (second ≤ 60) then
    let start := (date.toDays - epochDay) * 86400 + hour * 3600 + minute * 60
    if second = 60 then ofParts? (start + 59) (nanos + 1000000000)
    else ofParts? (start + second) nanos
  else none

end Timestamp

end DocStore
