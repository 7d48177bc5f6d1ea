/-
Binary64 numbers as bit patterns with an exact meaning. Every finite double is an integer
multiple of the smallest subnormal, so its value is kept as that integer, in units of
`2^-1074`, and comparison and remainder are exact integer arithmetic. Integers join them on
the same scale, which is how an integer and a double are compared without rounding either.
-/

namespace DocStore

/-- A binary64 number, given by its 64 bits: sign, eleven exponent bits, 52 fraction bits. -/
structure Double where
  bits : UInt64
  deriving DecidableEq, Inhabited

/-- A number on the extended line: an integer count of units of `2^-1074`, or an infinity. -/
inductive Extended where
  | negInfinity
  | finite (units : Int)
  | infinity
  deriving DecidableEq

namespace Extended

/-- How many units of `2^-1074` make one: `2^1074`. -/
def scale : Nat := 1 <<< 1074

/-- An integer on the extended line. -/
def ofInt (n : Int) : Extended := finite (n * scale)

/-- The order of the extended line. -/
def compare : Extended → Extended → Ordering
  | negInfinity, negInfinity => .eq
  | negInfinity, _ => .lt
  | _, negInfinity => .gt
  | infinity, infinity => .eq
  | infinity, _ => .gt
  | _, infinity => .lt
  | finite a, finite b => Ord.compare a b

/-- The remainder of truncated division, which has the sign of the dividend. A finite number
is its own remainder by an infinity; an infinite dividend and a zero divisor leave none. -/
def remainder? : Extended → Extended → Option Extended
  | finite a, finite b => if b = 0 then none else some (finite (a.tmod b))
  | finite a, _ => some (finite a)
  | _, _ => none

end Extended

namespace Double

/-- The weight of the sign bit, `2^63`. -/
def signWeight : Nat := 9223372036854775808

/-- The weight of the lowest exponent bit, `2^52`. -/
def exponentWeight : Nat := 4503599627370496

/-- The bits without the sign, which order the doubles of one sign by magnitude. -/
def pattern (x : Double) : Nat := x.bits.toNat % signWeight

/-- Whether the sign bit is set. -/
def isNegative (x : Double) : Bool := decide (signWeight ≤ x.bits.toNat)

/-- The double of a sign and the other 63 bits. -/
def ofPattern (negative : Bool) (pattern : Nat) : Double :=
  ⟨UInt64.ofNat (pattern + if negative then signWeight else 0)⟩

/-- The pattern of infinity; patterns below are finite and patterns above are not numbers. -/
def infinitePattern : Nat := 2047 * exponentWeight

def isNaN (x : Double) : Bool := decide (infinitePattern < x.pattern)

def isFinite (x : Double) : Bool := decide (x.pattern < infinitePattern)

/-- Plus or minus infinity. -/
def infinite (negative : Bool) : Double := ofPattern negative infinitePattern

/-- The integer significand of a finite pattern. It has 53 bits, fewer for a subnormal. -/
def significand (pattern : Nat) : Nat :=
  if pattern < exponentWeight then pattern else pattern % exponentWeight + exponentWeight

/-- How far a finite pattern shifts its significand above the units of `2^-1074`. -/
def shift (pattern : Nat) : Nat := pattern / exponentWeight - 1

/-- The magnitude of a finite pattern in units of `2^-1074`. -/
def magnitude (pattern : Nat) : Nat := significand pattern <<< shift pattern

/-- The value of a finite double in units of `2^-1074`; both zeros are zero. -/
def units (x : Double) : Int :=
  if x.isNegative then -(magnitude x.pattern : Int) else magnitude x.pattern

/-- The place of a double on the extended line, `none` for what is not a number. -/
def extended? (x : Double) : Option Extended :=
  if x.isNaN then none
  else if x.isFinite then some (.finite x.units)
  else if x.isNegative then some .negInfinity
  else some .infinity

/-- Equality of numbers: the zeros are equal, and what is not a number equals nothing. -/
def equal (x y : Double) : Bool :=
  match x.extended?, y.extended? with
  | some a, some b => decide (a = b)
  | _, _ => false

end Double

end DocStore
