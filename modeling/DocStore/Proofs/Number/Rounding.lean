/-
What rounding to a double does to a value close below a double. A double is determined by its
sign and its pattern, and a pattern by a significand and a shift; a quotient that falls short of a
finite double by at most a quarter of its last place is rounded to it, also where the places
become finer just below it. What a numeral is rounded to depends on its value alone.
-/
import DocStore.Number.Shortest
import DocStore.Proofs.Number.Decimal

namespace DocStore

/-! ## Significand and shift -/

namespace Double

theorem pattern_ofPattern_zero (negative : Bool) : (ofPattern negative 0).pattern = 0 := by
  cases negative <;> rfl

theorem ofPattern_pattern (x : Double) : ofPattern x.isNegative x.pattern = x := by
  have hlt : x.bits.toNat < 2 * signWeight := x.bits.toNat_lt
  have hmod : x.pattern + (if x.isNegative then signWeight else 0) = x.bits.toNat := by
    unfold pattern isNegative
    by_cases h : signWeight ≤ x.bits.toNat
    · rw [if_pos (by simpa using h), Nat.mod_eq_sub_mod h, Nat.mod_eq_of_lt (by omega)]
      omega
    · rw [if_neg (by simpa using h), Nat.mod_eq_of_lt (by omega), Nat.add_zero]
  unfold ofPattern
  rw [hmod, UInt64.ofNat_toNat]

theorem shift_mul_add_significand (pattern : Nat) :
    shift pattern * exponentWeight + significand pattern = pattern := by
  unfold shift significand
  split
  · rename_i hlt
    rw [Nat.div_eq_of_lt hlt]
    omega
  · rename_i hle
    have hdiv : 1 ≤ pattern / exponentWeight :=
      (Nat.one_le_div_iff (by decide)).2 (Nat.not_lt.1 hle)
    have hsplit := Nat.div_add_mod pattern exponentWeight
    rw [Nat.sub_mul, Nat.mul_comm (pattern / exponentWeight)]
    have : exponentWeight ≤ exponentWeight * (pattern / exponentWeight) :=
      Nat.le_mul_of_pos_right _ hdiv
    omega

theorem significand_lt (pattern : Nat) : significand pattern < 2 ^ 53 := by
  have hw : exponentWeight = 2 ^ 52 := by decide
  unfold significand
  split
  · omega
  · have := Nat.mod_lt pattern (show 0 < exponentWeight by decide)
    omega

theorem le_significand {pattern : Nat} (h : 0 < shift pattern) : 2 ^ 52 ≤ significand pattern := by
  have hle : ¬ pattern < exponentWeight := by
    intro hlt
    rw [shift, Nat.div_eq_of_lt hlt] at h
    cases h
  rw [significand, if_neg hle]
  exact Nat.le_add_left (2 ^ 52) _

theorem shift_le {pattern : Nat} (h : pattern < infinitePattern) : shift pattern ≤ 2045 := by
  have : pattern / exponentWeight < 2047 := Nat.div_lt_of_lt_mul (by rw [Nat.mul_comm]; exact h)
  unfold shift
  omega

theorem magnitude_eq (pattern : Nat) : magnitude pattern = significand pattern * 2 ^ shift pattern :=
  Nat.shiftLeft_eq _ _

theorem magnitude_lt (pattern : Nat) : magnitude pattern < 2 ^ (53 + shift pattern) := by
  rw [magnitude_eq, pow_add]
  exact Nat.mul_lt_mul_of_pos_right (significand_lt _) (Nat.two_pow_pos _)

theorem pow_shift_le_magnitude {pattern : Nat} (h : pattern ≠ 0) :
    2 ^ shift pattern ≤ magnitude pattern := by
  rw [magnitude_eq]
  apply Nat.le_mul_of_pos_left
  rcases Nat.eq_zero_or_pos (shift pattern) with hs | hs
  · have := shift_mul_add_significand pattern
    rw [hs] at this
    omega
  · exact lt_of_lt_of_le (by positivity) (le_significand hs)

end Double

theorem Extended.scale_eq : Extended.scale = 2 ^ 1074 := by
  unfold scale
  generalize 1074 = n
  exact Nat.one_shiftLeft n

theorem Extended.scale_pos : 0 < Extended.scale := by
  unfold scale
  generalize 1074 = n
  rw [Nat.one_shiftLeft]
  exact Nat.two_pow_pos n

theorem Extended.cast_scale_ne_zero : (Extended.scale : ℚ) ≠ 0 := Nat.cast_ne_zero.2 scale_pos.ne'

theorem Extended.cast_scale : (Extended.scale : ℚ) = 2 ^ (1074 : Int) := by
  rw [scale_eq, Nat.cast_pow, Nat.cast_ofNat]
  exact (zpow_natCast _ _).symm

theorem two_pow_le_mul {k a b : Nat} (h : k ≤ a + b) : 2 ^ k ≤ 2 ^ a * 2 ^ b :=
  (Nat.pow_le_pow_right Nat.two_pos h).trans_eq (pow_add 2 a b)

theorem Double.magnitude_lt_scale {pattern : Nat} (h : pattern < infinitePattern) :
    magnitude pattern < 2 ^ 1024 * Extended.scale := by
  have hshift := shift_le h
  rw [Extended.scale_eq]
  exact lt_of_lt_of_le (magnitude_lt pattern) (two_pow_le_mul (by omega))

/-! ## Rounding a quotient -/

theorem roundHalfEven_mul_left {c : Nat} (hc : 0 < c) (num den : Nat) :
    roundHalfEven (c * num) (c * den) = roundHalfEven num den := by
  unfold roundHalfEven
  simp only [Nat.mul_div_mul_left _ _ hc, Nat.mul_mod_mul_left, Nat.mul_left_comm 2 c,
    Nat.mul_lt_mul_left hc]

/-- A quotient not far below an integer is rounded to it: less than a half, or exactly a half
below an even one. -/
theorem roundHalfEven_eq {num den n : Nat} (hden : 0 < den) (hle : num ≤ n * den)
    (hnear : 2 * (n * den) < 2 * num + den ∨ 2 * (n * den) = 2 * num + den ∧ n % 2 = 0) :
    roundHalfEven num den = n := by
  unfold roundHalfEven
  rcases Nat.lt_or_eq_of_le hle with hlt | rfl
  · obtain ⟨k, rfl⟩ : ∃ k, n = k + 1 := Nat.exists_eq_succ_of_ne_zero (by rintro rfl; omega)
    have hsucc : (k + 1) * den = k * den + den := Nat.succ_mul k den
    rw [hsucc] at hlt hnear
    have hquotient : num / den = k := Nat.div_eq_of_lt_le (by omega) (hsucc ▸ hlt)
    have hsplit := Nat.div_add_mod num den
    rw [hquotient, Nat.mul_comm] at hsplit
    simp only [hquotient]
    split
    · omega
    · split <;> omega
  · rw [Nat.mul_div_cancel _ hden, Nat.mul_mod_left]
    simp [hden]

namespace Double

theorem nearestPattern_mul_left {c : Nat} (hc : 0 < c) (num den : Nat) :
    nearestPattern (c * num) (c * den) = nearestPattern num den := by
  unfold nearestPattern
  simp only [Nat.mul_assoc c num, Nat.mul_div_mul_left _ _ hc, Nat.shiftLeft_eq,
    Nat.mul_assoc c den, roundHalfEven_mul_left hc]

theorem log2_div_sub_le {scaled den g s : Nat} (hg : g < 2 ^ 53) (hle : scaled ≤ g * 2 ^ s * den) :
    (scaled / den).log2 - 52 ≤ s := by
  have hshort : scaled / den ≤ g * 2 ^ s := Nat.div_le_of_le_mul (by rwa [Nat.mul_comm])
  have hlt : scaled / den < 2 ^ (53 + s) := by
    rw [pow_add]
    exact lt_of_le_of_lt hshort (Nat.mul_lt_mul_of_pos_right hg (Nat.two_pow_pos s))
  by_cases hzero : scaled / den = 0
  · simp [hzero]
  · have := (Nat.log2_lt hzero).2 hlt
    omega

theorem lt_mul_of_log2_div_lt {scaled den t : Nat} (hden : 0 < den)
    (hlt : (scaled / den).log2 - 52 < t + 1) : scaled < 2 ^ (t + 53) * den := by
  rw [← Nat.div_lt_iff_lt_mul hden]
  by_cases hzero : scaled / den = 0
  · rw [hzero]
    positivity
  · exact (Nat.log2_lt hzero).1 (by omega)

/-- A quotient that falls short of `g · 2 ^ s` by at most a quarter of `2 ^ s` has its last place
there and is rounded to `g`, or it is below the power of two that `g · 2 ^ s` is, where places are
finer, and is rounded up to it. -/
theorem rounds_to_significand {scaled den g s : Nat} (hden : 0 < den) (hg : g < 2 ^ 53)
    (hlow : 0 < s → 2 ^ 52 ≤ g) (hle : scaled ≤ g * 2 ^ s * den)
    (hnear : 4 * (g * 2 ^ s * den) ≤ 4 * scaled + 2 ^ s * den) :
    (scaled / den).log2 - 52 = s ∧ roundHalfEven scaled (den * 2 ^ s) = g ∨
      ∃ t, s = t + 1 ∧ g = 2 ^ 52 ∧ (scaled / den).log2 - 52 = t ∧
        roundHalfEven scaled (den * 2 ^ t) = 2 ^ 53 := by
  rcases Nat.lt_or_eq_of_le (log2_div_sub_le hg hle) with hlt | heq
  · -- the last place is finer than that of `g`, in units of which all is counted from here on
    obtain ⟨t, rfl⟩ : ∃ t, s = t + 1 := Nat.exists_eq_add_one.2 (by omega)
    have hbelow := lt_mul_of_log2_div_lt hden hlt
    have hunit : 0 < den * 2 ^ t := by positivity
    rw [show g * 2 ^ (t + 1) * den = 2 * g * (den * 2 ^ t) by ring] at hle hnear
    rw [show 2 ^ (t + 1) * den = 2 * (den * 2 ^ t) by ring] at hnear
    rw [show 2 ^ (t + 53) * den = 2 ^ 53 * (den * 2 ^ t) by ring] at hbelow
    have hg52 : g = 2 ^ 52 := by
      by_contra hne
      have hstep : 2 * (2 ^ 52 + 1) * (den * 2 ^ t) ≤ 2 * g * (den * 2 ^ t) :=
        Nat.mul_le_mul_right _ (by have := hlow t.succ_pos; omega)
      omega
    rw [hg52] at hle hnear
    have hround : roundHalfEven scaled (den * 2 ^ t) = 2 ^ 53 := by
      refine roundHalfEven_eq hunit (by linarith) ?_
      have heven : 2 ^ 53 % 2 = 0 := by norm_num
      rcases Nat.lt_or_ge (2 * (2 ^ 53 * (den * 2 ^ t))) (2 * scaled + den * 2 ^ t) with h | h
      · exact .inl h
      · exact .inr ⟨by linarith, heven⟩
    refine .inr ⟨t, rfl, hg52, ?_, hround⟩
    have hge : 2 ^ (t + 52) ≤ scaled / den := by
      rw [Nat.le_div_iff_mul_le hden, show 2 ^ (t + 52) * den = 2 ^ 52 * (den * 2 ^ t) by ring]
      omega
    have := (Nat.le_log2 (Nat.ne_zero_of_lt (lt_of_lt_of_le (by positivity) hge))).2 hge
    omega
  · refine .inl ⟨heq, roundHalfEven_eq (by positivity) (by linarith) (.inl ?_)⟩
    have hunit : 0 < 2 ^ s * den := by positivity
    rw [show g * (den * 2 ^ s) = g * 2 ^ s * den by ring, Nat.mul_comm den]
    omega

/-- A quotient that falls short of a finite magnitude by at most a quarter of its last place is
rounded to its pattern. -/
theorem nearestPattern_eq {pattern num den : Nat} (hden : 0 < den) (hfinite : pattern < infinitePattern)
    (hle : num * Extended.scale ≤ magnitude pattern * den)
    (hnear : 4 * (magnitude pattern * den) ≤ 4 * (num * Extended.scale) + 2 ^ shift pattern * den) :
    nearestPattern num den = pattern := by
  rw [magnitude_eq] at hle hnear
  have hsum := shift_mul_add_significand pattern
  unfold nearestPattern
  simp only [Nat.shiftLeft_eq]
  rcases rounds_to_significand hden (significand_lt pattern) le_significand hle hnear with
    ⟨hshift, hround⟩ | ⟨t, hs, hg, hshift, hround⟩
  · rw [hshift, hround, hsum]
    exact min_eq_right hfinite.le
  · have hcarry : t * exponentWeight + 2 ^ 53 = pattern := by
      rw [hs, hg, Nat.succ_mul] at hsum
      rw [← hsum, show exponentWeight = 2 ^ 52 by decide]
      ring
    rw [hshift, hround, hcarry]
    exact min_eq_right hfinite.le

/-- Quotients that are equal are rounded alike. -/
theorem nearestPattern_congr {num den num' den' : Nat} (hden : 0 < den) (hden' : 0 < den')
    (h : num * den' = num' * den) : nearestPattern num den = nearestPattern num' den' := by
  rw [← nearestPattern_mul_left hden' num den, ← nearestPattern_mul_left hden num' den',
    Nat.mul_comm den' num, h, Nat.mul_comm num', Nat.mul_comm den' den]

end Double

/-! ## Numerals -/

namespace Numeral

/-- The value of a numeral, its sign apart. -/
def value (n : Numeral) : ℚ := n.digits * 10 ^ n.exponent

theorem powerOfTen_neg (exponent : Int) :
    powerOfTen (-exponent) = ((powerOfTen exponent).2, (powerOfTen exponent).1) := by
  unfold powerOfTen
  rcases lt_trichotomy exponent 0 with h | rfl | h
  · rw [if_pos (by omega), if_neg (by omega)]
  · rfl
  · rw [if_neg (by omega), if_pos (by omega), neg_neg]

theorem powerOfTen_pos (exponent : Int) :
    0 < (powerOfTen exponent).1 ∧ 0 < (powerOfTen exponent).2 := by
  unfold powerOfTen
  split <;> simp

theorem powerOfTen_eq (exponent : Int) :
    ((powerOfTen exponent).1 : ℚ) = 10 ^ exponent * (powerOfTen exponent).2 := by
  unfold powerOfTen
  split
  · rename_i h
    obtain ⟨k, rfl⟩ := Int.eq_ofNat_of_zero_le h
    simp
  · rename_i h
    obtain ⟨k, rfl⟩ : ∃ k : Nat, exponent = -k := ⟨(-exponent).toNat, by omega⟩
    simp

theorem value_lt (n : Numeral) : n.value < 10 ^ n.order := by
  have hdigits : (n.digits : ℚ) < 10 ^ (Decimal.digits n.digits).length := by
    exact_mod_cast Decimal.lt_pow_length_digits n.digits
  unfold value order
  rw [zpow_add₀ (by norm_num), zpow_natCast, mul_comm]
  gcongr

theorem value_mul_pow_lt_one {n : Numeral} {k : Nat} (h : n.order ≤ -k) : n.value * 10 ^ k < 1 := by
  have hpow : (0 : ℚ) < 10 ^ k := by positivity
  calc n.value * 10 ^ k < 10 ^ n.order * 10 ^ k := by gcongr; exact n.value_lt
    _ = 10 ^ (n.order + k) := by rw [zpow_add₀ (by norm_num), zpow_natCast]
    _ ≤ 10 ^ (0 : Int) := zpow_le_zpow_right₀ (by norm_num) (by omega)
    _ = 1 := zpow_zero _

theorem pow_le_value {n : Numeral} (hdigits : n.digits ≠ 0) {k : Nat} (h : k < n.order) :
    10 ^ k ≤ n.value := by
  have hpos := Decimal.length_digits_pos n.digits
  have hdigits : (10 : ℚ) ^ ((Decimal.digits n.digits).length - 1) ≤ n.digits := by
    exact_mod_cast Decimal.pow_length_digits_le hdigits
  have hk : (k : Int) ≤ n.exponent + ((Decimal.digits n.digits).length - 1 : Nat) := by
    unfold order at h
    omega
  calc (10 : ℚ) ^ k = 10 ^ (k : Int) := (zpow_natCast _ _).symm
    _ ≤ 10 ^ (n.exponent + ((Decimal.digits n.digits).length - 1 : Nat)) :=
      zpow_le_zpow_right₀ (by norm_num) hk
    _ = 10 ^ ((Decimal.digits n.digits).length - 1) * 10 ^ n.exponent := by
      rw [zpow_add₀ (by norm_num), zpow_natCast, mul_comm]
    _ ≤ n.value := by
      unfold value
      gcongr

/-- Zeros after the digits are worth a larger exponent. -/
theorem toDouble_mul_pow (negative : Bool) (digits k : Nat) (exponent : Int) :
    toDouble ⟨negative, digits * 10 ^ k, exponent⟩ = toDouble ⟨negative, digits, exponent + k⟩ := by
  by_cases hzero : digits = 0
  · simp [hzero, toDouble]
  -- neither the order nor the quotient that is rounded changes
  have horder : order ⟨negative, digits * 10 ^ k, exponent⟩ = order ⟨negative, digits, exponent + k⟩ := by
    simp only [order, Decimal.length_digits_mul_pow hzero]
    omega
  have hnearest : Double.nearestPattern (digits * 10 ^ k * (powerOfTen exponent).1)
      (powerOfTen exponent).2 =
      Double.nearestPattern (digits * (powerOfTen (exponent + k)).1) (powerOfTen (exponent + k)).2 := by
    refine Double.nearestPattern_congr (powerOfTen_pos _).2 (powerOfTen_pos _).2 ?_
    have h := powerOfTen_eq exponent
    have h' := powerOfTen_eq (exponent + k)
    rw [zpow_add₀ (by norm_num), zpow_natCast] at h'
    rw [← Nat.cast_inj (R := ℚ)]
    push_cast
    rw [h, h']
    ring
  unfold toDouble
  simp only [horder, Double.nearest, hnearest]
  simp [hzero]

theorem two_pow_1024_le : 2 ^ 1024 ≤ 10 ^ 310 := by decide +kernel

theorem two_mul_scale_le : 2 * Extended.scale ≤ 10 ^ 331 := by decide +kernel

section
variable {n : Numeral} {pattern : Nat} (hfinite : pattern < Double.infinitePattern)
  (hpos : pattern ≠ 0) (hle : n.value * Extended.scale ≤ Double.magnitude pattern)
  (hnear : 4 * (Double.magnitude pattern : ℚ) ≤ 4 * (n.value * Extended.scale) + 2 ^ Double.shift pattern)

include hpos hnear

/-- A numeral near to a double that is not zero is worth more than half the smallest double. -/
theorem half_lt_value : 1 < 2 * (n.value * Extended.scale) := by
  have hshift : ((2 ^ Double.shift pattern : ℕ) : ℚ) ≤ Double.magnitude pattern := by
    exact_mod_cast Double.pow_shift_le_magnitude hpos
  have hone : (1 : ℚ) ≤ 2 ^ Double.shift pattern := one_le_pow₀ (by norm_num)
  push_cast at hshift
  linarith

theorem digits_ne_zero_of_near : n.digits ≠ 0 := by
  intro hzero
  have := half_lt_value hpos hnear
  rw [value, hzero] at this
  norm_num at this

theorem neg_330_le_order : -330 ≤ n.order := by
  have hhalf := half_lt_value hpos hnear
  by_contra hlt
  have hsmall : n.value * 10 ^ 331 < 1 := value_mul_pow_lt_one (by omega)
  have hscale : (2 * Extended.scale : ℚ) ≤ 10 ^ 331 := by exact_mod_cast two_mul_scale_le
  have hvalue : 0 ≤ n.value := by
    unfold value
    positivity
  apply lt_irrefl (1 : ℚ)
  calc 1 < 2 * (n.value * Extended.scale) := hhalf
    _ = n.value * (2 * Extended.scale) := by ring
    _ ≤ n.value * 10 ^ 331 := mul_le_mul_of_nonneg_left hscale hvalue
    _ < 1 := hsmall

omit hpos hnear
include hfinite hle

theorem order_le_310 (hdigits : n.digits ≠ 0) : n.order ≤ 310 := by
  by_contra hlt
  have hlarge : (10 : ℚ) ^ 310 ≤ n.value := pow_le_value hdigits (by omega)
  have hpow : (2 : ℚ) ^ 1024 ≤ 10 ^ 310 := by exact_mod_cast two_pow_1024_le
  have hmagnitude : (Double.magnitude pattern : ℚ) < 2 ^ 1024 * Extended.scale := by
    exact_mod_cast Double.magnitude_lt_scale hfinite
  have hproduct : (2 : ℚ) ^ 1024 * Extended.scale ≤ n.value * Extended.scale :=
    mul_le_mul_of_nonneg_right (hpow.trans hlarge) (Nat.cast_nonneg _)
  exact absurd (lt_of_le_of_lt hle hmagnitude) (not_lt.2 hproduct)

end

/-- A numeral that falls short of a double by at most a quarter of its last place names it. -/
theorem toDouble_eq_of_near {n : Numeral} {x : Double} (hsign : n.negative = x.isNegative)
    (hfinite : x.pattern < Double.infinitePattern) (hpos : x.pattern ≠ 0)
    (hle : n.value * Extended.scale ≤ Double.magnitude x.pattern)
    (hnear : 4 * (Double.magnitude x.pattern : ℚ) ≤
      4 * (n.value * Extended.scale) + 2 ^ Double.shift x.pattern) : n.toDouble = x := by
  -- the order is within the bounds beyond which a numeral is zero or infinite
  have hzero := digits_ne_zero_of_near hpos hnear
  have hlow := neg_330_le_order hpos hnear
  have hhigh := order_le_310 hfinite hle hzero
  have hvalue : ((n.digits * (powerOfTen n.exponent).1 * Extended.scale : ℕ) : ℚ) =
      n.value * Extended.scale * (powerOfTen n.exponent).2 := by
    push_cast
    rw [powerOfTen_eq, value]
    ring
  have hden : (0 : ℚ) < (powerOfTen n.exponent).2 := by exact_mod_cast (powerOfTen_pos _).2
  have hpattern : Double.nearestPattern (n.digits * (powerOfTen n.exponent).1)
      (powerOfTen n.exponent).2 = x.pattern := by
    refine Double.nearestPattern_eq (powerOfTen_pos _).2 hfinite ?_ ?_
    · rw [← Nat.cast_le (α := ℚ), hvalue]
      push_cast
      gcongr
    · rw [← Nat.cast_le (α := ℚ), Nat.cast_add, Nat.cast_mul 4, Nat.cast_mul 4, hvalue]
      push_cast
      nlinarith
  unfold toDouble
  rw [if_neg (by omega), if_neg (by omega)]
  simp only [Double.nearest, hpattern, hsign, Double.ofPattern_pattern]

end Numeral

end DocStore
