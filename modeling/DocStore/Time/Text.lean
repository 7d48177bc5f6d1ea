/-
The written form of a point in time, `YYYY-MM-DDTHH:MM:SS.fffZ`, and its tagged form, by which
a date is recognised among the strings of a stored document. Printing chooses three fraction
digits where they suffice and nine otherwise. Reading has two stages: a pattern tells what looks
like a tagged date, and a reader goes through the fields of what does. The pattern takes the digits
of every script and a year of any four digits or more; the reader takes ASCII digits only, and more
than four of them in a year behind a sign only, but would also pass over white space.
-/
import DocStore.Number.Decimal
import DocStore.Pattern
import DocStore.Time.Timestamp

namespace DocStore.Timestamp

open Decimal (padded)

/-! ## Writing -/

/-- A year, with a sign unless it has at most four digits and is not negative. -/
def yearText (year : Int) : List Char :=
  if 0 ≤ year ∧ year ≤ 9999 then padded 4 year.toNat
  else (if year < 0 then '-' else '+') :: padded 4 year.natAbs

/-- The fraction of a second: milliseconds if they say it all, else nanoseconds. -/
def fractionText (nanos : Nat) : List Char :=
  if nanos % 1000000 = 0 then padded 3 (nanos / 1000000) else padded 9 nanos

/-- The written form of a point in time. -/
def chars (t : Timestamp) : List Char :=
  let date := t.date
  let time := t.secondOfDay
  let second := if 1000000000 ≤ t.nanos then 60 else time % 60
  yearText date.year ++ '-' :: padded 2 date.month ++ '-' :: padded 2 date.day ++
    'T' :: padded 2 (time / 3600) ++ ':' :: padded 2 (time / 60 % 60) ++ ':' :: padded 2 second ++
    '.' :: fractionText (t.nanos % 1000000000) ++ ['Z']

/-- The written form of a point in time, as a string. -/
def text (t : Timestamp) : String := String.ofList t.chars

/-- What precedes the written form in a tagged date. -/
def tag : String := "FLEXEL|"

/-- The tagged form of a point in time. -/
def tagged (t : Timestamp) : String := String.ofList (tag.toList ++ t.chars)

/-! ## What looks like a tagged date -/

/-- A decimal digit of any script. -/
def decimal : Pattern := .one isDecimal

/-- What looks like a year. -/
def yearPattern : Pattern :=
  .sequence [.optional (.one fun c => c == '+' || c == '-'), .atLeast 4 decimal]

/-- What looks like a fraction of a second. -/
def fractionPattern : Pattern :=
  .optional (.sequence [.literal '.', decimal, .atMost 8 decimal])

/-- What looks like a tagged date, from its first character to its last. -/
def taggedDate : Pattern :=
  .sequence [.word tag.toList, yearPattern, .literal '-', .times 2 decimal, .literal '-',
    .times 2 decimal, .literal 'T', .times 2 decimal, .literal ':', .times 2 decimal, .literal ':',
    .times 2 decimal, fractionPattern, .literal 'Z']

/-! ## Reading the fields -/

/-- Reads from the front of a text, or fails. -/
abbrev Reader := StateT (List Char) Option

/-- White space of all scripts. -/
def spaces : List Nat := [
  0x9, 0xA, 0xB, 0xC, 0xD, 0x20, 0x85, 0xA0, 0x1680, 0x2000, 0x2001, 0x2002, 0x2003, 0x2004, 0x2005,
  0x2006, 0x2007, 0x2008, 0x2009, 0x200A, 0x2028, 0x2029, 0x202F, 0x205F, 0x3000]

/-- Whether a character is white space. -/
def isSpace (c : Char) : Bool := spaces.contains c.toNat

namespace Reader

/-- Reads the character `c`. -/
def char (c : Char) : Reader Unit
  | d :: rest => if c = d then some ((), rest) else none
  | [] => none

/-- Reads a number in one ASCII digit or more, up to `most` of them. It must be below 2^63. -/
def number (most : Nat) : Reader Nat := fun cs =>
  let front := (cs.take most).takeWhile Char.isDigit
  if 1 ≤ front.length ∧ Decimal.value front < Nat.pow 2 63 then
    some (Decimal.value front, cs.drop front.length)
  else none

/-- Reads a number of up to two digits, behind white space if there is some. -/
def twoDigits : Reader Nat := fun cs => number 2 (cs.dropWhile isSpace)

/-- Reads a year, behind white space if there is some: with a sign all the digits there are,
without one up to four. -/
def yearField : Reader Int := fun cs =>
  match cs.dropWhile isSpace with
  | '-' :: rest => signed (-1) rest
  | '+' :: rest => signed 1 rest
  | rest => (do return ((← number 4) : Int) : Reader Int) rest
where
  /-- Reads the digits after a sign. -/
  signed (sign : Int) : Reader Int := fun cs =>
    (do return sign * ((← number cs.length) : Int) : Reader Int) cs

/-- Reads a fraction of a second in nanoseconds: nothing, or a point and digits, of which those
after the ninth do not count. -/
def fractionField : Reader Nat := fun cs =>
  match cs with
  | '.' :: rest => point rest
  | _ => some (0, cs)
where
  /-- Reads the digits after the point. -/
  point : Reader Nat := fun cs => do
    let (n, rest) ← number 9 cs
    some (n * Nat.pow 10 (9 - (cs.length - rest.length)), rest.dropWhile Char.isDigit)

/-- Reads the written form of a point in time, field by field. -/
def fields : Reader (Option Timestamp) := do
  let year ← yearField
  char '-'
  let month ← twoDigits
  char '-'
  let day ← twoDigits
  char 'T'
  let hour ← twoDigits
  char ':'
  let minute ← twoDigits
  char ':'
  let second ← twoDigits
  let nanos ← fractionField
  char 'Z'
  return ofCivil? ⟨year, month, day⟩ hour minute second nanos

end Reader

/-- The point in time that a text writes, to its last character. -/
def parse? (cs : List Char) : Option Timestamp :=
  match Reader.fields cs with
  | some (t?, []) => t?
  | _ => none

/-- The point in time whose tagged form, up to the ways of writing it, is `s`: what follows the
tag is parsed if the whole looks like a tagged date. -/
def untag? (s : String) : Option Timestamp :=
  if taggedDate.accepts s.toList then parse? (s.toList.drop tag.toList.length) else none

end DocStore.Timestamp
