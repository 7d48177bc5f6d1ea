/-
The shortest decimal that names a double: the numeral with the fewest digits among those that
round to it and, of these, the nearest to it, ties to the even last digit. Decimal grids are
tried from coarse to fine, and on each grid only the two neighbours of the value can be nearest
to it. A numeral is taken only if it reads back, so whatever is found names the double.
-/
import DocStore.Number.Rounding

namespace DocStore.Double

/-- The point of the grid of multiples of `10 ^ exponent` that is nearest to a finite nonzero
double among the two around it, if any of them reads back as the double. -/
def gridPoint? (x : Double) (exponent : Int) : Option Numeral :=
  let (num, den) := Numeral.powerOfTen (-exponent)
  let top := magnitude x.pattern * num
  let bottom := Extended.scale * den
  let below : Numeral := ⟨x.isNegative, top / bottom, exponent⟩
  let above : Numeral := ⟨x.isNegative, top / bottom + 1, exponent⟩
  if below.toDouble = x then
    if above.toDouble = x ∧ roundHalfEven top bottom = above.digits then some above else some below
  else if above.toDouble = x then some above
  else none

/-- An exponent at which the grid is coarser than the double: `2 ^ p` is at most `10` to the
power of `p` times a bound of the decimal logarithm of two on the safe side. -/
def coarsest (x : Double) : Int :=
  let p : Int := (magnitude x.pattern).log2 + 1 - 1074
  (if 0 ≤ p then p * 31 / 100 else p * 30 / 100) + 1

/-- The numeral that writes a finite double out in full. -/
def exact (x : Double) : Numeral :=
  ⟨x.isNegative, magnitude x.pattern * Nat.pow 5 1074, -1074⟩

/-- The shortest numeral that reads back as a finite double. -/
def shortest (x : Double) : Numeral :=
  if x.pattern = 0 then ⟨x.isNegative, 0, 0⟩
  else ((List.range 40).findSome? fun (i : Nat) => x.gridPoint? (x.coarsest - i)).getD x.exact

end DocStore.Double
