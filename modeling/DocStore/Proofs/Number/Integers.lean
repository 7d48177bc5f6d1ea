/-
Integers among the doubles. An integer that some double is worth is rounded to such a double, so it
is not changed. All integers of up to `2^53` either way are of this kind, and no integer of 64 bits
is so large that it is rounded to an infinity.
-/
import DocStore.Proofs.Number.Rounding

namespace DocStore.Double

/-! ## Sign and pattern -/

section
variable {pattern : Nat} (h : pattern < signWeight) (negative : Bool)

include h

theorem toNat_ofPattern :
    (ofPattern negative pattern).bits.toNat = pattern + if negative then signWeight else 0 := by
  have hweight : signWeight = 2 ^ 63 := by decide
  refine UInt64.toNat_ofNat_of_lt' ?_
  show _ < 2 ^ 64
  split <;> omega

theorem pattern_ofPattern : (ofPattern negative pattern).pattern = pattern := by
  unfold Double.pattern
  rw [toNat_ofPattern h]
  split
  · rw [Nat.add_mod_right, Nat.mod_eq_of_lt h]
  · rw [Nat.add_zero, Nat.mod_eq_of_lt h]

theorem isNegative_ofPattern : (ofPattern negative pattern).isNegative = negative := by
  unfold isNegative
  rw [toNat_ofPattern h]
  cases negative
  · simpa using h
  · simp

end

theorem infinitePattern_lt : infinitePattern < signWeight := by decide

/-- A finite double has its units as its place. -/
theorem extended?_of_isFinite {x : Double} (h : x.isFinite = true) :
    x.extended? = some (.finite x.units) := by
  have hlt : x.pattern < infinitePattern := of_decide_eq_true h
  have hnan : x.isNaN = false := decide_eq_false (by omega)
  rw [extended?, hnan, h]
  rfl

theorem extended?_ofPattern {pattern : Nat} (h : pattern < infinitePattern) (negative : Bool) :
    (ofPattern negative pattern).extended? =
      some (.finite (if negative then -(magnitude pattern : Int) else magnitude pattern)) := by
  have hlt := h.trans infinitePattern_lt
  have hfinite : (ofPattern negative pattern).isFinite = true :=
    decide_eq_true (by rwa [pattern_ofPattern hlt])
  rw [extended?_of_isFinite hfinite, units, pattern_ofPattern hlt, isNegative_ofPattern hlt]

theorem natAbs_units (x : Double) : x.units.natAbs = magnitude x.pattern := by
  unfold units
  split <;> simp

/-! ## Integers that are doubles -/

/-- The sign of an integer and a multiple of its magnitude make the multiple of the integer. -/
theorem signed_natAbs_mul (n : Int) (k : Nat) :
    (if decide (n < 0) then -((n.natAbs * k : Nat) : Int) else (n.natAbs * k : Nat)) = n * k := by
  rw [Nat.cast_mul]
  by_cases h : n < 0
  · rw [if_pos (decide_eq_true h), Int.ofNat_natAbs_of_nonpos h.le, Int.neg_mul, neg_neg]
  · rw [if_neg (by simpa using h), Int.natAbs_of_nonneg (not_lt.1 h)]

/-- An integer that a finite double is worth is rounded to a double of that worth. -/
theorem extended?_ofInt {n : Int} {x : Double} (hfinite : x.isFinite = true)
    (hunits : x.units = n * Extended.scale) : (ofInt n).extended? = some (.ofInt n) := by
  have hlt : x.pattern < infinitePattern := of_decide_eq_true hfinite
  have hmagnitude : magnitude x.pattern = n.natAbs * Extended.scale := by
    rw [← natAbs_units, hunits, Int.natAbs_mul, Int.natAbs_natCast]
  have hnearest : nearestPattern n.natAbs 1 = x.pattern :=
    nearestPattern_eq Nat.one_pos hlt (by omega) (by omega)
  rw [ofInt, nearest, hnearest, extended?_ofPattern hlt, hmagnitude, signed_natAbs_mul,
    Extended.ofInt]

theorem roundHalfEven_le (num den : Nat) : roundHalfEven num den ≤ num / den + 1 := by
  unfold roundHalfEven
  simp only
  split_ifs <;> omega

/-- An integer of 64 bits is rounded to a finite double. -/
theorem isFinite_ofInt {n : Int} (h : n.natAbs ≤ 2 ^ 63) : (ofInt n).isFinite = true := by
  have hlt : nearestPattern n.natAbs 1 < infinitePattern := by
    unfold nearestPattern
    simp only [Nat.shiftLeft_eq, Nat.one_mul]
    have hscaled : n.natAbs * Extended.scale ≤ 2 ^ 52 * 2 ^ 1085 * 1 := by
      rw [Extended.scale_eq, Nat.mul_one, show 1085 = 11 + 1074 by rfl, pow_add, ← Nat.mul_assoc]
      exact Nat.mul_le_mul_right _ h
    have hbound := log2_div_sub_le (by norm_num) hscaled
    have hbits := lt_mul_of_log2_div_lt Nat.one_pos
      (Nat.lt_succ_self ((n.natAbs * Extended.scale / 1).log2 - 52))
    generalize (n.natAbs * Extended.scale / 1).log2 - 52 = shift at hbound hbits ⊢
    rw [Nat.mul_one, Nat.add_comm, pow_add] at hbits
    have hquotient := (Nat.div_lt_iff_lt_mul (Nat.two_pow_pos shift)).2 hbits
    have hround := roundHalfEven_le (n.natAbs * Extended.scale) (2 ^ shift)
    refine lt_of_le_of_lt (min_le_right _ _) ?_
    unfold infinitePattern exponentWeight
    omega
  exact decide_eq_true (by rwa [ofInt, nearest, pattern_ofPattern (hlt.trans infinitePattern_lt)])

/-- A significand of 53 bits with a shift is the magnitude of a pattern. -/
theorem magnitude_pattern {g s : Nat} (hlow : 2 ^ 52 ≤ g) (hhigh : g < 2 ^ 53) :
    magnitude (s * exponentWeight + g) = g * 2 ^ s := by
  have hquotient : (s * exponentWeight + g) / exponentWeight = s + 1 := by
    unfold exponentWeight
    omega
  have hrest : (s * exponentWeight + g) % exponentWeight + exponentWeight = g := by
    unfold exponentWeight
    omega
  have hnormal : ¬ s * exponentWeight + g < exponentWeight := by
    unfold exponentWeight
    omega
  rw [magnitude_eq, significand, if_neg hnormal, shift, hquotient, hrest, Nat.add_sub_cancel]

/-- A positive integer of up to `2^53` is a significand of 53 bits with a shift, in units of the
smallest double. -/
theorem exists_significand {m : Nat} (hpos : 0 < m) (hle : m ≤ 2 ^ 53) :
    ∃ g s, 2 ^ 52 ≤ g ∧ g < 2 ^ 53 ∧ s ≤ 1075 ∧ m * Extended.scale = g * 2 ^ s := by
  rcases Nat.lt_or_eq_of_le hle with hlt | rfl
  · have hlog : m.log2 ≤ 52 := Nat.lt_succ_iff.1 ((Nat.log2_lt hpos.ne').2 hlt)
    refine ⟨m * 2 ^ (52 - m.log2), 1022 + m.log2, ?_, ?_, by omega, ?_⟩
    · calc 2 ^ 52 = 2 ^ m.log2 * 2 ^ (52 - m.log2) := by rw [← pow_add]; congr 1; omega
        _ ≤ _ := Nat.mul_le_mul_right _ (Nat.log2_self_le hpos.ne')
    · calc m * 2 ^ (52 - m.log2) < 2 ^ (m.log2 + 1) * 2 ^ (52 - m.log2) :=
            Nat.mul_lt_mul_of_pos_right Nat.lt_log2_self (Nat.two_pow_pos _)
        _ = 2 ^ 53 := by rw [← pow_add]; congr 1; omega
    · rw [Extended.scale_eq, Nat.mul_assoc, ← pow_add]
      congr 2
      omega
  · refine ⟨2 ^ 52, 1075, le_rfl, by norm_num, le_rfl, ?_⟩
    rw [Extended.scale_eq, ← pow_add, ← pow_add]

/-- Integers of up to `2^53` either way are doubles. -/
theorem exists_units_eq {n : Int} (h : n.natAbs ≤ 2 ^ 53) :
    ∃ x : Double, x.isFinite = true ∧ x.units = n * Extended.scale := by
  rcases Nat.eq_zero_or_pos n.natAbs with hzero | hpos
  · obtain rfl := Int.natAbs_eq_zero.1 hzero
    exact ⟨⟨0⟩, by decide, by decide⟩
  · obtain ⟨g, s, hlow, hhigh, hs, hscaled⟩ := exists_significand hpos h
    have hlt : s * exponentWeight + g < infinitePattern := by
      unfold infinitePattern exponentWeight
      omega
    have hsign := hlt.trans infinitePattern_lt
    refine ⟨ofPattern (decide (n < 0)) (s * exponentWeight + g),
      decide_eq_true (by rwa [pattern_ofPattern hsign]), ?_⟩
    rw [units, pattern_ofPattern hsign, isNegative_ofPattern hsign, magnitude_pattern hlow hhigh,
      ← hscaled, signed_natAbs_mul]

end DocStore.Double
