/-
Remainders in exact arithmetic. A field leaves a remainder if the field less the divisor times their
truncated quotient is that remainder, all as rational numbers. The operator agrees with this for
integers, and for any mix of integers and doubles in which each integer is a double too. Any other
integer that stands beside a double is rounded first, so that the remainder may be another one.
-/
import DocStore.Proofs.Number.Integers
import DocStore.Proofs.Query.Operator
import Mathlib.Data.Rat.Floor
import Mathlib.Tactic

namespace DocStore

/-! ## Exact remainders -/

/-- The whole part of a rational number. -/
def truncate (q : ℚ) : ℤ := if 0 ≤ q then ⌊q⌋ else ⌈q⌉

/-- The divisor is not zero, and what the quotient without its fraction leaves is the remainder. -/
def Leaves (value divisor remainder : ℚ) : Prop :=
  divisor ≠ 0 ∧ value - divisor * truncate (value / divisor) = remainder

theorem truncate_neg (q : ℚ) : truncate (-q) = -truncate q := by
  rcases lt_trichotomy q 0 with h | rfl | h
  · rw [truncate, truncate, if_pos (by linarith), if_neg (not_le.2 h), Int.floor_neg]
  · simp [truncate]
  · rw [truncate, truncate, if_neg (by linarith), if_pos h.le, Int.ceil_neg]

theorem truncate_natCast_div (m n : ℕ) : truncate ((m : ℚ) / n) = (m / n : ℕ) := by
  rw [truncate, if_pos (by positivity), Rat.floor_natCast_div_natCast, Int.natCast_ediv]

/-- Integers are divided as rational numbers are, without the fraction. -/
theorem truncate_div (a b : ℤ) : truncate ((a : ℚ) / b) = a.tdiv b := by
  obtain ⟨m, rfl | rfl⟩ := a.eq_nat_or_neg <;> obtain ⟨n, rfl | rfl⟩ := b.eq_nat_or_neg <;>
    simp [neg_div, div_neg, truncate_neg, truncate_natCast_div]

/-- Multiples of one unit leave a remainder as the integers do. -/
theorem leaves_div_iff (a b c : ℤ) {unit : ℚ} (hunit : unit ≠ 0) :
    Leaves (a / unit) (b / unit) (c / unit) ↔ b ≠ 0 ∧ a.tmod b = c := by
  have hdivisor : (b : ℚ) / unit ≠ 0 ↔ b ≠ 0 := by simp [hunit]
  have hleft : (a : ℚ) / unit - b / unit * truncate (a / unit / (b / unit)) =
      (a.tmod b : ℤ) / unit := by
    rw [div_div_div_cancel_right₀ hunit, truncate_div, Int.tmod_def]
    push_cast
    ring
  rw [Leaves, hdivisor, hleft, div_left_inj' hunit, Int.cast_inj]

theorem leaves_intCast_iff (a b c : ℤ) : Leaves a b c ↔ b ≠ 0 ∧ a.tmod b = c := by
  simpa using leaves_div_iff a b c one_ne_zero

namespace Value

/-! ## Numbers as rationals -/

/-- The exact value of a finite number. -/
def rational? : Value → Option ℚ
  | int i => some i.toInt
  | float x => if x.isFinite then some (x.units / Extended.scale) else none
  | _ => none

/-- Some double has the value of the number. -/
def IsDouble (value : Value) : Prop := ∃ x, (float x).rational? = value.rational?

/-- The number as a double. An integer is rounded to the nearest one. -/
def rounded : Value → Value
  | int i => float (Double.ofInt i.toInt)
  | other => other

/-- The three are finite numbers with these values. -/
def HaveValues (value divisor remainder : Value) (v d r : ℚ) : Prop :=
  value.rational? = some v ∧ divisor.rational? = some d ∧ remainder.rational? = some r

/-- All three are integers. -/
def AreIntegers (value divisor remainder : Value) : Prop :=
  ∃ i j k, value = int i ∧ divisor = int j ∧ remainder = int k

/-- None of the three has to be rounded to divide them: all are integers, or each is a double. -/
def Unrounded (value divisor remainder : Value) : Prop :=
  AreIntegers value divisor remainder ∨ value.IsDouble ∧ divisor.IsDouble ∧ remainder.IsDouble

theorem rational?_float_eq_some_iff {x : Double} {q : ℚ} :
    (float x).rational? = some q ↔ x.isFinite = true ∧ (x.units : ℚ) / Extended.scale = q := by
  rw [rational?]
  split <;> simp_all

/-- A finite double has the value of an integer if it has so many units. -/
theorem rational?_float_eq_intCast_iff {x : Double} {n : ℤ} :
    (float x).rational? = some (n : ℚ) ↔ x.isFinite = true ∧ x.units = n * Extended.scale := by
  rw [rational?_float_eq_some_iff, div_eq_iff Extended.cast_scale_ne_zero]
  norm_cast

theorem natAbs_toInt_le (i : Int64) : i.toInt.natAbs ≤ 2 ^ 63 := by
  have := i.le_toInt
  have := i.toInt_lt
  omega

/-- The double of a finite number is finite. -/
theorem exists_rounded_eq {value : Value} {q : ℚ} (h : value.rational? = some q) :
    ∃ x q', value.rounded = float x ∧ (float x).rational? = some q' := by
  cases value with
  | int i =>
    have hfinite := Double.isFinite_ofInt (natAbs_toInt_le i)
    exact ⟨_, _, rfl, rational?_float_eq_some_iff.2 ⟨hfinite, rfl⟩⟩
  | float x => exact ⟨x, q, rfl, h⟩
  | _ => cases h

/-- What is a double stays as it is. -/
theorem IsDouble.rounded_rational? {value : Value} (h : value.IsDouble) :
    value.rounded.rational? = value.rational? := by
  cases value with
  | int i =>
    obtain ⟨x, hx⟩ := h
    obtain ⟨hfinite, hunits⟩ := rational?_float_eq_intCast_iff.1 hx
    have hround := Double.extended?_ofInt hfinite hunits
    have hrounded := Double.isFinite_ofInt (natAbs_toInt_le i)
    rw [Double.extended?_of_isFinite hrounded, Extended.ofInt] at hround
    injection hround with hround
    injection hround with hround
    exact rational?_float_eq_intCast_iff.2 ⟨hrounded, hround⟩
  | _ => rfl

/-- Small integers are doubles. -/
theorem isDouble_int {i : Int64} (h : i.toInt.natAbs ≤ 2 ^ 53) : (int i).IsDouble := by
  obtain ⟨x, hfinite, hunits⟩ := Double.exists_units_eq h
  exact ⟨x, rational?_float_eq_intCast_iff.2 ⟨hfinite, hunits⟩⟩

/-! ## The remainder of values -/

theorem hasRemainder_of_not_isNumber {value : Value} (h : value.isNumber = false)
    (divisor remainder : Value) : value.hasRemainder divisor remainder = false := by
  cases value <;> first | rfl | cases h

theorem hasRemainder_int_iff (i j k : Int64) :
    (int i).hasRemainder (int j) (int k) = true ↔ Leaves i.toInt j.toInt k.toInt := by
  have hzero : j ≠ 0 ↔ j.toInt ≠ 0 := not_congr (Int64.toInt_inj (y := 0)).symm
  rw [leaves_intCast_iff, hasRemainder, Bool.and_eq_true, bne_iff_ne, beq_iff_eq, hzero]

theorem hasRemainder_float_iff {x y z : Double} {v d r : ℚ} (hx : (float x).rational? = some v)
    (hy : (float y).rational? = some d) (hz : (float z).rational? = some r) :
    (float x).hasRemainder (float y) (float z) = true ↔ Leaves v d r := by
  obtain ⟨hxfinite, rfl⟩ := rational?_float_eq_some_iff.1 hx
  obtain ⟨hyfinite, rfl⟩ := rational?_float_eq_some_iff.1 hy
  obtain ⟨hzfinite, rfl⟩ := rational?_float_eq_some_iff.1 hz
  rw [leaves_div_iff _ _ _ Extended.cast_scale_ne_zero]
  simp only [hasRemainder, asDouble?, Double.extended?_of_isFinite hxfinite,
    Double.extended?_of_isFinite hyfinite, Double.extended?_of_isFinite hzfinite,
    Option.bind_eq_bind, Option.bind_some, Extended.remainder?]
  by_cases hzero : y.units = 0 <;> simp [hzero]

theorem asDouble?_rounded (value : Value) : value.rounded.asDouble? = value.asDouble? := by
  cases value <;> rfl

theorem not_areIntegers_rounded (value divisor remainder : Value) :
    ¬ AreIntegers value.rounded divisor remainder := by
  rintro ⟨i, j, k, hvalue, -, -⟩
  cases value <;> cases hvalue

/-- Only the doubles of values that are not all integers count. -/
theorem hasRemainder_congr {value divisor remainder value' divisor' remainder' : Value}
    (h : ¬ AreIntegers value divisor remainder) (h' : ¬ AreIntegers value' divisor' remainder')
    (hvalue : value'.asDouble? = value.asDouble?)
    (hdivisor : divisor'.asDouble? = divisor.asDouble?)
    (hremainder : remainder'.asDouble? = remainder.asDouble?) :
    value'.hasRemainder divisor' remainder' = value.hasRemainder divisor remainder := by
  rw [hasRemainder.eq_2 _ _ _ fun i j k hi hj hk => h ⟨i, j, k, hi, hj, hk⟩,
    hasRemainder.eq_2 _ _ _ fun i j k hi hj hk => h' ⟨i, j, k, hi, hj, hk⟩, hvalue, hdivisor,
    hremainder]

section
variable {value divisor remainder : Value} {v d r : ℚ}
  (h : HaveValues value divisor remainder v d r)

include h

/-- Unless all three are integers, the nearest doubles are divided. -/
theorem exists_rounded_hasRemainder_iff (hmixed : ¬ AreIntegers value divisor remainder) :
    ∃ v' d' r', HaveValues value.rounded divisor.rounded remainder.rounded v' d' r' ∧
      (value.hasRemainder divisor remainder = true ↔ Leaves v' d' r') := by
  obtain ⟨x, v', hx, hv⟩ := exists_rounded_eq h.1
  obtain ⟨y, d', hy, hd⟩ := exists_rounded_eq h.2.1
  obtain ⟨z, r', hz, hr⟩ := exists_rounded_eq h.2.2
  have hcongr := hasRemainder_congr hmixed
    (not_areIntegers_rounded value divisor.rounded remainder.rounded) (asDouble?_rounded value)
    (asDouble?_rounded divisor) (asDouble?_rounded remainder)
  rw [hx, hy, hz] at hcongr ⊢
  exact ⟨v', d', r', ⟨hv, hd, hr⟩, hcongr ▸ hasRemainder_float_iff hv hd hr⟩

/-- Numbers that need not be rounded are divided exactly. -/
theorem hasRemainder_iff_leaves (hunrounded : Unrounded value divisor remainder) :
    value.hasRemainder divisor remainder = true ↔ Leaves v d r := by
  by_cases hmixed : AreIntegers value divisor remainder
  · obtain ⟨i, j, k, rfl, rfl, rfl⟩ := hmixed
    obtain ⟨⟨⟩, ⟨⟩, ⟨⟩⟩ := h
    exact hasRemainder_int_iff i j k
  · obtain ⟨hvalue, hdivisor, hremainder⟩ := hunrounded.resolve_left hmixed
    obtain ⟨v', d', r', hrounded, hiff⟩ := exists_rounded_hasRemainder_iff h hmixed
    obtain ⟨hv, hd, hr⟩ := hrounded
    rw [hvalue.rounded_rational?, h.1] at hv
    rw [hdivisor.rounded_rational?, h.2.1] at hd
    rw [hremainder.rounded_rational?, h.2.2] at hr
    cases hv
    cases hd
    cases hr
    exact hiff

end

end Value

/-- Asks that a field leaves a remainder. -/
def Expression.hasRemainder (path : String) (divisor remainder : Value) : Expression :=
  .field path (.operators [.remainder divisor remainder])

open Value in
/-- A document is matched by a remainder if its field leaves that remainder in exact arithmetic,
whatever mix of integers and doubles is divided, unless an integer is rounded: one that is not a
double, when the three are not all integers. Then the nearest doubles are divided exactly. -/
theorem Expression.remainder_is_exact_unless_rounded (doc : Value) (path : String)
    (divisor remainder : Value) :
    ((∀ value, doc.getPath? path = some value → value.isNumber = false) →
      (hasRemainder path divisor remainder).matches doc = false) ∧
    (∀ value v d r, doc.getPath? path = some value → HaveValues value divisor remainder v d r →
      (Unrounded value divisor remainder →
        ((hasRemainder path divisor remainder).matches doc = true ↔ Leaves v d r)) ∧
      (¬ AreIntegers value divisor remainder →
        ∃ v' d' r', HaveValues value.rounded divisor.rounded remainder.rounded v' d' r' ∧
          ((hasRemainder path divisor remainder).matches doc = true ↔ Leaves v' d' r')) ∧
      ∀ doc' value' divisor' remainder', doc'.getPath? path = some value' →
        HaveValues value' divisor' remainder' v d r → Unrounded value divisor remainder →
        Unrounded value' divisor' remainder' →
          (hasRemainder path divisor' remainder').matches doc' =
            (hasRemainder path divisor remainder).matches doc) ∧
    ∀ i : Int64, i.toInt.natAbs ≤ 2 ^ 53 → (int i).IsDouble := by
  have hmatches : ∀ doc divisor remainder, (hasRemainder path divisor remainder).matches doc =
      (doc.getPath? path).any fun value => value.hasRemainder divisor remainder := by
    intro doc divisor remainder
    rw [hasRemainder, matches_operator, Operator.holds]
  refine ⟨fun hnone => ?_, fun value v d r hpath hvalues => ?_, fun i => isDouble_int⟩
  · rw [hmatches, Option.any_eq_false]
    intro value hvalue
    rw [hasRemainder_of_not_isNumber (hnone value hvalue)]
  · rw [hmatches, hpath, Option.any_some]
    refine ⟨hasRemainder_iff_leaves hvalues, exists_rounded_hasRemainder_iff hvalues, ?_⟩
    intro doc' value' divisor' remainder' hpath' hvalues' hunrounded hunrounded'
    rw [hmatches, hpath', Option.any_some, Bool.eq_iff_iff,
      hasRemainder_iff_leaves hvalues' hunrounded', hasRemainder_iff_leaves hvalues hunrounded]

/-- A document with one number. -/
def numbered (number : Value) : Value := .map [("n", number)]

def twoAndHalf : Value := .float ⟨0x4004000000000000⟩

def minusHalf : Value := .float ⟨0xBFE0000000000000⟩

/-- The least integer as a double. -/
def leastDouble : Value := .float ⟨0xC3E0000000000000⟩

/-- The least integer leaves minus a half by two and a half, and so does the double of its value. -/
theorem least_leaves_half :
    Leaves (-2 ^ 63) (5 / 2) (-1 / 2) ∧
    (Expression.hasRemainder "n" twoAndHalf minusHalf).matches (numbered (.int Int64.minValue)) =
      true ∧
    (Expression.hasRemainder "n" twoAndHalf minusHalf).matches (numbered leastDouble) = true ∧
    (Expression.hasRemainder "n" twoAndHalf minusHalf).matches (numbered .null) = false := by
  have hleaves : Leaves (-2 ^ 63) (5 / 2) (-1 / 2) := by
    have h := (leaves_div_iff (-2 ^ 64) 5 (-1) two_ne_zero).2 ⟨by decide, by decide⟩
    norm_num at h ⊢
    exact h
  have hint : (Value.int Int64.minValue).rational? = some (-2 ^ 63) := by
    rw [Value.rational?, show Int64.minValue.toInt = -2 ^ 63 by decide]
    norm_num
  have hdouble : leastDouble.rational? = some (-2 ^ 63) := by
    have hunits : Double.units ⟨0xC3E0000000000000⟩ = -2 ^ 63 * Extended.scale := by decide +kernel
    exact_mod_cast Value.rational?_float_eq_intCast_iff.2 ⟨by decide, hunits⟩
  have hdivisor : twoAndHalf.rational? = some (5 / 2) := by
    have hunits : Double.units ⟨0x4004000000000000⟩ * 2 = 5 * Extended.scale := by decide +kernel
    refine Value.rational?_float_eq_some_iff.2 ⟨by decide, ?_⟩
    rw [div_eq_div_iff Extended.cast_scale_ne_zero two_ne_zero]
    exact_mod_cast hunits
  have hremainder : minusHalf.rational? = some (-1 / 2) := by
    have hunits : Double.units ⟨0xBFE0000000000000⟩ * 2 = -1 * Extended.scale := by decide +kernel
    refine Value.rational?_float_eq_some_iff.2 ⟨by decide, ?_⟩
    rw [div_eq_div_iff Extended.cast_scale_ne_zero two_ne_zero]
    exact_mod_cast hunits
  have hunrounded : Value.Unrounded (.int Int64.minValue) twoAndHalf minusHalf :=
    .inr ⟨⟨_, hdouble.trans hint.symm⟩, ⟨_, rfl⟩, ⟨_, rfl⟩⟩
  obtain ⟨hexact, -, hsame⟩ := (Expression.remainder_is_exact_unless_rounded
    (numbered (.int Int64.minValue)) "n" twoAndHalf minusHalf).2.1 (.int Int64.minValue) _ _ _ rfl
      ⟨hint, hdivisor, hremainder⟩
  have hmatch := (hexact hunrounded).2 hleaves
  refine ⟨hleaves, hmatch, ?_, ?_⟩
  · rw [hsame (numbered leastDouble) leastDouble _ _ rfl ⟨hdouble, hdivisor, hremainder⟩ hunrounded
      (.inr ⟨⟨_, rfl⟩, ⟨_, rfl⟩, ⟨_, rfl⟩⟩), hmatch]
  · refine (Expression.remainder_is_exact_unless_rounded (numbered .null) "n" _ _).1 ?_
    rintro _ ⟨⟩
    rfl

def twoAsDouble : Value := .float ⟨0x4000000000000000⟩

/-- The odd number `2^53 + 1` leaves 1 by 2, but beside the double 2 it is taken for the even number
below it. -/
theorem oddInteger_is_rounded :
    Leaves (2 ^ 53 + 1) 2 1 ∧
    Value.HaveValues (.int 9007199254740993) twoAsDouble (.int 1) (2 ^ 53 + 1) 2 1 ∧
    (Expression.hasRemainder "n" twoAsDouble (.int 1)).matches (numbered (.int 9007199254740993)) =
      false ∧
    (Expression.hasRemainder "n" (.int 2) (.int 1)).matches (numbered (.int 9007199254740993)) =
      true := by
  have hleaves : Leaves (2 ^ 53 + 1) 2 1 := by
    have h := (leaves_intCast_iff (2 ^ 53 + 1) 2 1).2 ⟨by decide, by decide⟩
    norm_num at h ⊢
    exact h
  have hodd : (Value.int 9007199254740993).rational? = some (2 ^ 53 + 1) := by
    rw [Value.rational?, show (9007199254740993 : Int64).toInt = 2 ^ 53 + 1 by decide]
    norm_num
  have htwo : twoAsDouble.rational? = some 2 := by
    have hunits : Double.units ⟨0x4000000000000000⟩ = 2 * Extended.scale := by decide +kernel
    exact_mod_cast Value.rational?_float_eq_intCast_iff.2 ⟨by decide, hunits⟩
  have hone : (Value.int 1).rational? = some 1 := by
    rw [Value.rational?, show (1 : Int64).toInt = 1 by decide]
    norm_num
  exact ⟨hleaves, ⟨hodd, htwo, hone⟩, by decide +kernel, by decide +kernel⟩

end DocStore
