/-
The numbers of JSON texts. A literal without fraction and exponent is an integer if it fits
64 bits, signed or unsigned; every other literal is the double nearest to it, which is infinite
when the literal exceeds every double. More digits than a point halfway between two doubles has
are read as if they were not all zero. Integers are written in decimal, doubles by their shortest
numeral, positionally near one and with an exponent elsewhere.
-/
import DocStore.Number.Shortest

namespace DocStore

/-- A number of a JSON text. -/
inductive JsonNumber where
  | int (n : Int)
  | float (x : Double)
  deriving DecidableEq

namespace JsonNumber

/-- Whether the number is no overflow. -/
def isFinite : JsonNumber → Bool
  | int _ => true
  | float x => x.isFinite

/-! ## Reading -/

/-- The number of an integer literal. Minus zero is the negative zero among the doubles. -/
def ofInteger (negative : Bool) (n : Nat) : JsonNumber :=
  if negative then
    if n = 0 then float (Double.ofPattern true 0)
    else if n ≤ Double.signWeight then int (-n)
    else float (Numeral.toDouble ⟨true, n, 0⟩)
  else if n < UInt64.size then int n
  else float (Numeral.toDouble ⟨false, n, 0⟩)

/-- The digits after the point, empty if there is no point, and the text after them. -/
def readFraction : List Char → Option (List Char × List Char)
  | '.' :: rest =>
    let digits := rest.takeWhile Char.isDigit
    if digits.isEmpty then none else some (digits, rest.dropWhile Char.isDigit)
  | rest => some ([], rest)

/-- An exponent without its mark: a sign, perhaps, and digits up to the end. -/
def readSignedDigits (cs : List Char) : Option Int :=
  let (sign, digits) : Int × List Char := match cs with
    | '-' :: rest => (-1, rest)
    | '+' :: rest => (1, rest)
    | _ => (1, cs)
  (Decimal.read? digits).map fun n => sign * n

/-- The exponent part that ends a literal, `none` inside for no exponent part. -/
def readExponent : List Char → Option (Option Int)
  | [] => some none
  | c :: rest => if c = 'e' ∨ c = 'E' then (readSignedDigits rest).map some else none

/-- How many significant digits count. A point halfway between two doubles has no more, so what
follows them matters only where they are such a point. -/
def countedDigits : Nat := 768

/-- The numeral of a whole part, a fraction and an exponent. Zeros that lead the number or end the
fraction are not significant; zeros that end a whole part are. The digits that do not count stand
for a single 1, even if all of them are zeros. -/
def numeral (negative : Bool) (whole fraction : List Char) (exponent : Int) : Numeral :=
  let fraction := (fraction.reverse.dropWhile (· == '0')).reverse
  let digits := (whole ++ fraction).dropWhile (· == '0')
  let exponent := exponent - fraction.length
  if digits.length ≤ countedDigits then ⟨negative, Decimal.value digits, exponent⟩
  else
    ⟨negative, Decimal.value (digits.take countedDigits ++ ['1']),
      exponent + (digits.length - countedDigits - 1)⟩

/-- The number of a literal without its sign. The whole part has no leading zero. -/
def ofUnsigned? (negative : Bool) (cs : List Char) : Option JsonNumber := do
  let whole := cs.takeWhile Char.isDigit
  if whole.isEmpty || (decide (1 < whole.length) && whole.head? == some '0') then none
  let (fraction, rest) ← readFraction (cs.dropWhile Char.isDigit)
  match fraction, ← readExponent rest with
  | [], none => return ofInteger negative (Decimal.value whole)
  | _, exponent =>
    return float (numeral negative whole fraction (exponent.getD 0)).toDouble

/-- The number of a literal. -/
def ofLiteral? : List Char → Option JsonNumber
  | '-' :: rest => ofUnsigned? true rest
  | cs => ofUnsigned? false cs

/-! ## Writing -/

/-- The decimal form of an integer. -/
def intText (n : Int) : List Char :=
  if n < 0 then '-' :: Decimal.digits n.natAbs else Decimal.digits n.natAbs

/-- Digits with a point after the first `places` of them, with zeros where digits are missing
and at least one digit on each side. -/
def positional (digits : List Char) (places : Int) : List Char :=
  if places ≤ 0 then '0' :: '.' :: List.replicate (-places).toNat '0' ++ digits
  else
    let whole := digits.take places.toNat
    let fraction := digits.drop places.toNat
    whole ++ List.replicate (places.toNat - digits.length) '0' ++ '.' ::
      if fraction.isEmpty then ['0'] else fraction

/-- Digits with a point after the first of them, if there are more, and a signed exponent. -/
def scientific (digits : List Char) (exponent : Int) : List Char :=
  let mantissa := match digits with
    | first :: second :: rest => first :: '.' :: second :: rest
    | _ => digits
  mantissa ++ 'e' :: (if exponent < 0 then '-' else '+') :: Decimal.digits exponent.natAbs

/-- The written form of a numeral as a number that is no integer literal: positional when the
exponent of the leading digit is from -5 to 15. -/
def numeralText (n : Numeral) : List Char :=
  let digits := Decimal.digits n.digits
  let places := n.exponent + digits.length
  let unsigned :=
    if -5 < places ∧ places ≤ 16 then positional digits places
    else scientific digits (places - 1)
  if n.negative then '-' :: unsigned else unsigned

/-- The written form of a number. -/
def text : JsonNumber → List Char
  | int n => intText n
  | float x => numeralText x.shortest

end JsonNumber

end DocStore
