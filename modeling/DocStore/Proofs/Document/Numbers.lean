/-
Numbers as places on the extended line. The order of two numbers, each an integer or a double, is
the order of their places, though an integer and a double are compared by the whole part of the
double first: nothing is rounded. Two numbers are equal if their places are the same, and what is
not a number has none.
-/
import DocStore.Document.Order
import DocStore.Proofs.Number.Rounding

namespace DocStore

/-! ## The extended line -/

namespace Extended

theorem compare_eq_iff {a b : Extended} : a.compare b = .eq ↔ a = b := by
  cases a <;> cases b <;> simp [compare]

theorem swap_compare (a b : Extended) : (a.compare b).swap = b.compare a := by
  cases a <;> cases b <;> try rfl
  exact Int.compare_swap _ _

theorem compare_ofInt (m n : Int) : (ofInt m).compare (ofInt n) = Ord.compare m n := by
  have hscale : (0 : Int) < scale := Int.natCast_pos.2 scale_pos
  show Ord.compare (m * scale) (n * scale) = _
  rcases lt_trichotomy m n with h | rfl | h
  · rw [compare_lt_iff_lt.2 h, compare_lt_iff_lt.2 (Int.mul_lt_mul_of_pos_right h hscale)]
  · simp
  · rw [compare_gt_iff_gt.2 h, compare_gt_iff_gt.2 (Int.mul_lt_mul_of_pos_right h hscale)]

/-- The whole part of some units decides how an integer compares with them, and on a tie the
fraction. -/
theorem compare_whole (n units : Int) :
    Ord.compare (n * scale) units = match Ord.compare n (units.tdiv scale) with
      | .eq => Ord.compare 0 (units - units.tdiv scale * scale)
      | unequal => unequal := by
  have hscale : (0 : Int) < scale := Int.natCast_pos.2 scale_pos
  have hparts := Int.tdiv_mul_add_tmod units scale
  have habove := Int.tmod_lt_of_pos units hscale
  have hbelow := Int.lt_tmod_of_pos units hscale
  generalize units.tdiv scale = whole at *
  rcases lt_trichotomy n whole with h | rfl | h
  · have hstep : (n + 1) * scale ≤ whole * scale := Int.mul_le_mul_of_nonneg_right h hscale.le
    rw [Int.add_mul, Int.one_mul] at hstep
    rw [compare_lt_iff_lt.2 h, compare_lt_iff_lt.2 (by omega)]
  · rw [compare_eq_iff_eq.2 rfl]
    rcases lt_trichotomy 0 (units - n * scale) with hr | hr | hr
    · simp only [compare_lt_iff_lt.2 hr, compare_lt_iff_lt.2 (show n * scale < units by omega)]
    · simp only [compare_eq_iff_eq.2 hr, compare_eq_iff_eq.2 (show n * scale = units by omega)]
    · simp only [compare_gt_iff_gt.2 hr, compare_gt_iff_gt.2 (show n * scale > units by omega)]
  · have hstep : (whole + 1) * scale ≤ n * scale := Int.mul_le_mul_of_nonneg_right h hscale.le
    rw [Int.add_mul, Int.one_mul] at hstep
    rw [compare_gt_iff_gt.2 h, compare_gt_iff_gt.2 (by omega)]

/-- Units of less than `2^63` wholes either way have a 64-bit integer as their whole part. -/
theorem toInt_whole {units : Int} (hlower : -(9223372036854775808 * (scale : Int)) ≤ units)
    (hupper : units < 9223372036854775808 * scale) :
    (Int64.ofInt (units.tdiv scale)).toInt = units.tdiv scale := by
  have hscale : (0 : Int) < scale := Int.natCast_pos.2 scale_pos
  have hparts := Int.tdiv_mul_add_tmod units scale
  have habove := Int.tmod_lt_of_pos units hscale
  have hbelow := Int.lt_tmod_of_pos units hscale
  have hsign : 0 ≤ units → 0 ≤ units.tmod scale := Int.tmod_nonneg _
  generalize units.tdiv scale = whole at *
  refine Int64.toInt_ofInt_of_le ?_ ?_
  · by_contra h
    have hstep : (whole + 1) * scale ≤ -9223372036854775808 * scale :=
      Int.mul_le_mul_of_nonneg_right (by omega) hscale.le
    rw [Int.add_mul, Int.one_mul, Int.neg_mul] at hstep
    omega
  · by_contra h
    have hstep : 9223372036854775808 * scale ≤ whole * scale :=
      Int.mul_le_mul_of_nonneg_right (by omega) hscale.le
    have := hsign (by omega)
    omega

end Extended

namespace Double

theorem isSome_extended? (x : Double) : x.extended?.isSome = !x.isNaN := by
  unfold extended?
  cases x.isNaN <;> cases x.isFinite <;> cases x.isNegative <;> rfl

/-- Comparing the whole part first finds the order of the places. -/
theorem compareInt?_eq (i : Int64) (x : Double) :
    compareInt? i x = x.extended?.map (Extended.ofInt i.toInt).compare := by
  have hscale : (0 : Int) < Extended.scale := Int.natCast_pos.2 Extended.scale_pos
  unfold compareInt?
  cases x.extended? with
  | none => rfl
  | some place =>
    cases place with
    | infinity => rfl
    | negInfinity => rfl
    | finite units =>
      show (if 9223372036854775808 * (Extended.scale : Int) ≤ units then some Ordering.lt else
        if units < -(9223372036854775808 * (Extended.scale : Int)) then some Ordering.gt else _) =
          some (Ord.compare (i.toInt * Extended.scale) units)
      have hmin := i.le_toInt
      have hmax := i.toInt_lt
      have habove : (i.toInt + 1) * Extended.scale ≤ 9223372036854775808 * Extended.scale :=
        Int.mul_le_mul_of_nonneg_right (by omega) hscale.le
      have hbelow : -9223372036854775808 * Extended.scale ≤ i.toInt * Extended.scale :=
        Int.mul_le_mul_of_nonneg_right (by omega) hscale.le
      rw [Int.add_mul, Int.one_mul] at habove
      rw [Int.neg_mul] at hbelow
      by_cases hupper : 9223372036854775808 * (Extended.scale : Int) ≤ units
      · rw [if_pos hupper, compare_lt_iff_lt.2 (by omega)]
      · rw [if_neg hupper]
        by_cases hlower : units < -(9223372036854775808 * (Extended.scale : Int))
        · rw [if_pos hlower, compare_gt_iff_gt.2 (by omega)]
        · have hwhole := Extended.toInt_whole (Int.not_lt.1 hlower) (Int.not_le.1 hupper)
          rw [if_neg hlower, Extended.compare_whole]
          simp only [hwhole]
          cases Ord.compare i.toInt (units.tdiv Extended.scale) <;> rfl

end Double

/-! ## Numbers among values -/

namespace Value

/-- The place of a number on the extended line, `none` for what is not a number. -/
def number? : Value → Option Extended
  | int i => some (.ofInt i.toInt)
  | float x => x.extended?
  | _ => none

/-- Numbers are ordered as their places are, whichever of them are integers. -/
theorem compare?_of_isNumber {a b : Value} (ha : a.isNumber = true) (hb : b.isNumber = true) :
    a.compare? b = do return (← a.number?).compare (← b.number?) := by
  cases a <;> cases ha <;> cases b <;> cases hb
  · exact congrArg some (Extended.compare_ofInt _ _).symm
  · rename_i i y
    show Double.compareInt? i y = _
    rw [Double.compareInt?_eq]
    show _ = y.extended?.bind _
    cases y.extended? <;> rfl
  · rename_i x j
    show (Double.compareInt? j x).map Ordering.swap = x.extended?.bind _
    rw [Double.compareInt?_eq]
    cases x.extended? with
    | none => rfl
    | some place => exact congrArg some (Extended.swap_compare _ _)
  · rfl

/-- A number and what is none are not comparable. -/
theorem compare?_of_ne_isNumber {a b : Value} (h : a.isNumber ≠ b.isNumber) : a.compare? b = none := by
  cases a <;> cases b <;> first | rfl | exact absurd rfl h

theorem equal_of_isNumber {a : Value} (h : a.isNumber = true) (b : Value) :
    a.equal b = (a.compare? b == some .eq) := by
  cases a <;> cases h <;> rw [equal]

/-- Numbers that are equal have the same place. -/
theorem number?_eq_of_equal {a b : Value} (ha : a.isNumber = true) (h : a.equal b = true) :
    b.isNumber = true ∧ a.number? = b.number? := by
  rw [equal_of_isNumber ha, beq_iff_eq] at h
  have hb : b.isNumber = true := by
    by_contra hb
    rw [compare?_of_ne_isNumber (by rw [ha]; exact Ne.symm hb)] at h
    cases h
  rw [compare?_of_isNumber ha hb] at h
  refine ⟨hb, ?_⟩
  cases hx : a.number? with
  | none => rw [hx] at h; cases h
  | some x =>
    cases hy : b.number? with
    | none => rw [hx, hy] at h; cases h
    | some y =>
      rw [hx, hy] at h
      exact congrArg some (Extended.compare_eq_iff.1 (Option.some.inj h))

end Value

end DocStore
