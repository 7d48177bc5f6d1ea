/-
When two values are equal and which of them is smaller. Numbers are compared by their exact
values, an integer with a double by the double's whole part before its fraction, so that neither
is rounded; dates with dates; strings with strings, by their UTF-8 bytes; all other pairs are
incomparable. Equality is deep and, like the order, does not see whether a number is an integer or
a double. Strict equality does.
-/
import DocStore.Document.Value

namespace DocStore

namespace Double

/-- The order of two doubles, `none` if one of them is not a number. -/
def compare? (x y : Double) : Option Ordering := do
  return (← x.extended?).compare (← y.extended?)

/-- The order of an integer and a double. A double of `2^63` or more either way decides it at once;
of any other the whole part decides, and on a tie the fraction. -/
def compareInt? (i : Int64) (x : Double) : Option Ordering := do
  let beyond : Int := 9223372036854775808 * Extended.scale
  match ← x.extended? with
  | .infinity => return .lt
  | .negInfinity => return .gt
  | .finite units =>
    if beyond ≤ units then return .lt
    if units < -beyond then return .gt
    let whole := units.tdiv Extended.scale
    match Ord.compare i.toInt (Int64.ofInt whole).toInt with
    | .eq => return Ord.compare 0 (units - whole * Extended.scale)
    | unequal => return unequal

end Double

namespace Value

/-- The order of byte strings. -/
def compareBytes (a b : Bytes) : Ordering :=
  if a < b then .lt else if a = b then .eq else .gt

/-- The order of comparable values, `none` for incomparable ones. -/
def compare? (a b : Value) : Option Ordering :=
  match a, b with
  | int i, int j => some (Ord.compare i.toInt j.toInt)
  | int i, float y => Double.compareInt? i y
  | float x, int j => (Double.compareInt? j x).map Ordering.swap
  | float x, float y => x.compare? y
  | date s, date t => some (s.compare t)
  | string s, string t => some (compareBytes (utf8 s) (utf8 t))
  | _, _ => none

mutual

/-- Deep equality, by which equal numbers are equal however they are represented. -/
def equal : Value → Value → Bool
  | null, null => true
  | bool a, bool b => a == b
  | string s, string t => s == t
  | date s, date t => decide (s = t)
  | array xs, array ys => equalItems xs ys
  | map xs, map ys => xs.length == ys.length && equalFields xs ys
  | int i, other => (int i).compare? other == some .eq
  | float x, other => (float x).compare? other == some .eq
  | _, _ => false

/-- Whether two lists are equal item by item. -/
def equalItems : List Value → List Value → Bool
  | [], [] => true
  | x :: xs, y :: ys => x.equal y && equalItems xs ys
  | _, _ => false

/-- Whether every field has an equal field of its name among others. -/
def equalFields : List (String × Value) → List (String × Value) → Bool
  | [], _ => true
  | (name, x) :: xs, ys =>
    (match ys.lookup name with
      | some y => x.equal y
      | none => false) && equalFields xs ys

end

mutual

/-- Equality of representations, save that the two zeros among the doubles are equal and what
is not a number differs from itself. -/
def strictEqual : Value → Value → Bool
  | null, null => true
  | bool a, bool b => a == b
  | int i, int j => i == j
  | float x, float y => x.equal y
  | string s, string t => s == t
  | date s, date t => decide (s = t)
  | array xs, array ys => strictEqualItems xs ys
  | map xs, map ys => strictEqualFields xs ys
  | _, _ => false

/-- Whether two lists are strictly equal item by item. -/
def strictEqualItems : List Value → List Value → Bool
  | [], [] => true
  | x :: xs, y :: ys => x.strictEqual y && strictEqualItems xs ys
  | _, _ => false

/-- Whether two lists of fields have the same names and strictly equal values. -/
def strictEqualFields : List (String × Value) → List (String × Value) → Bool
  | [], [] => true
  | (n, x) :: xs, (m, y) :: ys => n == m && x.strictEqual y && strictEqualFields xs ys
  | _, _ => false

end

/-- Whether a value is divided by `divisor` with remainder `remainder`. Three integers are
divided as integers; otherwise all three are taken as doubles. Nothing is divided by zero. -/
def hasRemainder (value divisor remainder : Value) : Bool :=
  match value, divisor, remainder with
  | int v, int d, int r => d != 0 && v.toInt.tmod d.toInt == r.toInt
  | _, _, _ =>
    match value.asDouble?, divisor.asDouble?, remainder.asDouble? with
    | some v, some d, some r =>
      match (do (← v.extended?).remainder? (← d.extended?) : Option Extended), r.extended? with
      | some x, some y => decide (x = y)
      | _, _ => false
    | _, _, _ => false

end Value

end DocStore
