/-
Rounding to the nearest double, ties to the even significand. A quotient of naturals is scaled
to units of `2^-1074`, cut to 53 significant bits and written as a bit pattern; the pattern of
an overflow is infinity. Integers and decimal numerals are rounded through it.
-/
import DocStore.Number.Decimal
import DocStore.Number.Double

namespace DocStore

/-- The integer nearest to `num / den`, the even one of two that are equally near. -/
def roundHalfEven (num den : Nat) : Nat :=
  let quotient := num / den
  let twice := 2 * (num % den)
  if twice < den then quotient
  else if den < twice then quotient + 1
  else quotient + quotient % 2

/-- A decimal numeral: its value is `digits · 10 ^ exponent`, negated if `negative`. -/
structure Numeral where
  negative : Bool
  digits : Nat
  exponent : Int
  deriving DecidableEq

namespace Double

/-- The pattern of the double nearest to `num / den`. A significand that rounds up to `2^53`
carries into the exponent by the addition alone. -/
def nearestPattern (num den : Nat) : Nat :=
  let scaled := num * Extended.scale
  let shift := (scaled / den).log2 - 52
  min infinitePattern (shift * exponentWeight + roundHalfEven scaled (den <<< shift))

/-- The double nearest to `num / den`, with the given sign. -/
def nearest (negative : Bool) (num den : Nat) : Double :=
  ofPattern negative (nearestPattern num den)

/-- The double nearest to an integer. -/
def ofInt (n : Int) : Double := nearest (decide (n < 0)) n.natAbs 1

end Double

namespace Numeral

/-- The value of a power of ten as numerator and denominator. -/
def powerOfTen (exponent : Int) : Nat × Nat :=
  if 0 ≤ exponent then (Nat.pow 10 exponent.toNat, 1) else (1, Nat.pow 10 (-exponent).toNat)

/-- The decimal exponent just above the leading digit: the value of a nonzero numeral is at
least a tenth of ten to this power and less than ten to this power. -/
def order (n : Numeral) : Int := n.exponent + (Decimal.digits n.digits).length

/-- The double nearest to a numeral. A numeral of order above 310 exceeds every double and one
of order below -330 is nearer to zero than to any other, so powers of ten stay of bounded size. -/
def toDouble (n : Numeral) : Double :=
  if n.digits = 0 ∨ n.order < -330 then Double.ofPattern n.negative 0
  else if 310 < n.order then Double.infinite n.negative
  else
    let (num, den) := powerOfTen n.exponent
    Double.nearest n.negative (n.digits * num) den

end Numeral

end DocStore
