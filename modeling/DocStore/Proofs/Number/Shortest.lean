/-
The shortest numeral names its double: it reads back as the double, sign of zero included. Grids
are tried down to one on which the point just below the value is near enough to be rounded to it,
so the search always ends with a numeral, and that numeral has at most 670 digits.
-/
import DocStore.Proofs.Number.Rounding

namespace DocStore.Double

/-! ## Points of a grid -/

/-- A grid point that is found reads back as the double. -/
theorem gridPoint?_spec {x : Double} {exponent : Int} {n : Numeral}
    (h : x.gridPoint? exponent = some n) : n.toDouble = x ∧ n.exponent = exponent := by
  unfold gridPoint? at h
  simp only at h
  split_ifs at h with hbelow habove habove
  · cases h
    exact ⟨habove.1, rfl⟩
  · cases h
    exact ⟨hbelow, rfl⟩
  · cases h
    exact ⟨habove, rfl⟩

variable {x : Double} (hfinite : x.pattern < infinitePattern) (hpos : x.pattern ≠ 0)

include hfinite hpos

/-- On a grid finer than a quarter of the last place, the point below the value names it. -/
theorem isSome_gridPoint? {exponent : Int}
    (hfine : 4 * ((10 : ℚ) ^ exponent * Extended.scale) ≤ 2 ^ shift x.pattern) :
    (x.gridPoint? exponent).isSome := by
  have htens := Numeral.powerOfTen_eq exponent
  obtain ⟨hnum, hden⟩ := Numeral.powerOfTen_pos exponent
  unfold gridPoint?
  simp only [Numeral.powerOfTen_neg]
  generalize (Numeral.powerOfTen exponent).1 = a at htens hnum ⊢
  generalize (Numeral.powerOfTen exponent).2 = b at htens hden ⊢
  have hbottom : 0 < Extended.scale * a := Nat.mul_pos Extended.scale_pos hnum
  have hfloor := Nat.div_mul_le_self (magnitude x.pattern * b) (Extended.scale * a)
  have hnext := Nat.lt_div_mul_add (a := magnitude x.pattern * b) hbottom
  generalize magnitude x.pattern * b / (Extended.scale * a) = q at hfloor hnext ⊢
  -- the point below the value falls short of it by less than one step of the grid
  have hb : (0 : ℚ) < b := by exact_mod_cast hden
  have hbelow : Numeral.toDouble ⟨x.isNegative, q, exponent⟩ = x := by
    have hfloor : (q : ℚ) * (Extended.scale * a) ≤ magnitude x.pattern * b := by exact_mod_cast hfloor
    have hnext : (magnitude x.pattern : ℚ) * b < q * (Extended.scale * a) + Extended.scale * a := by
      exact_mod_cast hnext
    rw [htens] at hfloor hnext
    refine Numeral.toDouble_eq_of_near rfl hfinite hpos ?_ ?_
    · rw [Numeral.value]
      apply le_of_mul_le_mul_right _ hb
      calc (q : ℚ) * 10 ^ exponent * Extended.scale * b
          = q * (Extended.scale * (10 ^ exponent * b)) := by ring
        _ ≤ magnitude x.pattern * b := hfloor
    · rw [Numeral.value]
      apply le_of_mul_le_mul_right _ hb
      calc 4 * (magnitude x.pattern : ℚ) * b
          ≤ 4 * (q * (Extended.scale * (10 ^ exponent * b)) + Extended.scale * (10 ^ exponent * b)) := by
            linarith
        _ = (4 * ((q : ℚ) * 10 ^ exponent * Extended.scale) +
              4 * (10 ^ exponent * Extended.scale)) * b := by ring
        _ ≤ (4 * ((q : ℚ) * 10 ^ exponent * Extended.scale) + 2 ^ shift x.pattern) * b :=
            mul_le_mul_of_nonneg_right (by linarith only [hfine]) hb.le
  rw [if_pos hbelow]
  split <;> rfl

omit hfinite hpos

/-! ## The search -/

theorem ten_pow_le (j : Nat) : (10 : ℚ) ^ (3 * j) ≤ 2 ^ (10 * j) := by
  rw [pow_mul, pow_mul]
  gcongr
  norm_num

theorem le_ten_pow (j : Nat) : (2 : ℚ) ^ (13 * j) ≤ 10 ^ (4 * j) := by
  rw [pow_mul, pow_mul]
  gcongr
  norm_num

/-- The power of ten at which the search ends is far below the power of two it starts from. -/
theorem finest_le {p : Int} (hlow : -1073 ≤ p) (hhigh : p ≤ 1024) :
    (10 : ℚ) ^ ((if 0 ≤ p then p * 31 / 100 else p * 30 / 100) + 1 - 39) ≤ 2 ^ (p - 55) := by
  have htail : (10 : ℚ) ^ (-37 : Int) ≤ 2 ^ (-120 : Int) := by norm_num
  split
  · -- ten to the third is below two to the tenth
    obtain ⟨j, hj⟩ : ∃ j : Nat, (j : Int) = (p * 31 / 100 + 1) / 3 :=
      ⟨((p * 31 / 100 + 1) / 3).toNat, by omega⟩
    calc (10 : ℚ) ^ (p * 31 / 100 + 1 - 39) ≤ 10 ^ (((3 * j : ℕ) : Int) + -37) :=
          zpow_le_zpow_right₀ (by norm_num) (by omega)
      _ = 10 ^ (3 * j) * 10 ^ (-37 : Int) := by rw [zpow_add₀ (by norm_num), zpow_natCast]
      _ ≤ 2 ^ (10 * j) * 2 ^ (-120 : Int) :=
          mul_le_mul (ten_pow_le j) htail (by positivity) (by positivity)
      _ = 2 ^ (((10 * j : ℕ) : Int) + -120) := by rw [zpow_add₀ (by norm_num), zpow_natCast]
      _ ≤ 2 ^ (p - 55) := zpow_le_zpow_right₀ (by norm_num) (by omega)
  · -- ten to the fourth is above two to the thirteenth
    obtain ⟨j, hj⟩ : ∃ j : Nat, (j : Int) = -(p * 30 / 100) / 4 :=
      ⟨(-(p * 30 / 100) / 4).toNat, by omega⟩
    have hinv : (10 : ℚ) ^ (-((4 * j : ℕ) : Int)) ≤ 2 ^ (-((13 * j : ℕ) : Int)) := by
      rw [zpow_neg, zpow_neg, zpow_natCast, zpow_natCast]
      exact inv_anti₀ (by positivity) (le_ten_pow j)
    calc (10 : ℚ) ^ (p * 30 / 100 + 1 - 39) ≤ 10 ^ (-((4 * j : ℕ) : Int) + -37) :=
          zpow_le_zpow_right₀ (by norm_num) (by omega)
      _ = 10 ^ (-((4 * j : ℕ) : Int)) * 10 ^ (-37 : Int) := zpow_add₀ (by norm_num) _ _
      _ ≤ 2 ^ (-((13 * j : ℕ) : Int)) * 2 ^ (-120 : Int) :=
          mul_le_mul hinv htail (by positivity) (by positivity)
      _ = 2 ^ (-((13 * j : ℕ) : Int) + -120) := (zpow_add₀ (by norm_num) _ _).symm
      _ ≤ 2 ^ (p - 55) := zpow_le_zpow_right₀ (by norm_num) (by omega)

/-- The decimal exponents that are tried, by the binary one of the double. -/
theorem coarsest_spec (hfinite : x.pattern < infinitePattern) (hpos : x.pattern ≠ 0) :
    -321 ≤ x.coarsest ∧
      4 * ((10 : ℚ) ^ (x.coarsest - 39) * Extended.scale) ≤ 2 ^ shift x.pattern := by
  have hmagnitude : magnitude x.pattern ≠ 0 :=
    (lt_of_lt_of_le (Nat.two_pow_pos _) (pow_shift_le_magnitude hpos)).ne'
  have hlog : (magnitude x.pattern).log2 < 53 + shift x.pattern :=
    (Nat.log2_lt hmagnitude).2 (magnitude_lt _)
  have hshift := shift_le hfinite
  unfold coarsest
  simp only
  generalize hp : ((magnitude x.pattern).log2 : Int) + 1 - 1074 = p
  have hlow : -1073 ≤ p := by omega
  refine ⟨by split <;> omega, ?_⟩
  calc 4 * ((10 : ℚ) ^ ((if 0 ≤ p then p * 31 / 100 else p * 30 / 100) + 1 - 39) * Extended.scale)
      ≤ 2 ^ (2 : Int) * (2 ^ (p - 55) * 2 ^ (1074 : Int)) := by
        rw [Extended.cast_scale, show (4 : ℚ) = 2 ^ (2 : Int) by norm_num]
        apply mul_le_mul_of_nonneg_left _ (by positivity)
        exact mul_le_mul_of_nonneg_right (finest_le hlow (by omega)) (zpow_nonneg (by norm_num) _)
    _ = 2 ^ (2 + (p - 55 + 1074)) := by
        rw [zpow_add₀ (by norm_num), zpow_add₀ (by norm_num) (p - 55)]
    _ ≤ 2 ^ (shift x.pattern : Int) := zpow_le_zpow_right₀ (by norm_num) (by omega)
    _ = 2 ^ shift x.pattern := zpow_natCast _ _

/-- The numeral of a finite double reads back as it, and its decimal exponent is bounded. -/
theorem shortest_spec (hfinite : x.isFinite = true) : x.shortest.toDouble = x ∧
    -360 ≤ x.shortest.exponent ∧ (x.pattern = 0 → x.shortest.exponent = 0) := by
  have hfinite : x.pattern < infinitePattern := by simpa [isFinite] using hfinite
  unfold shortest
  by_cases hpos : x.pattern = 0
  · rw [if_pos hpos]
    refine ⟨?_, by simp, fun _ => rfl⟩
    rw [Numeral.toDouble, if_pos (.inl rfl), ← hpos, ofPattern_pattern]
  · rw [if_neg hpos]
    obtain ⟨hlow, hfine⟩ := coarsest_spec hfinite hpos
    cases hfound : (List.range 40).findSome? fun (i : Nat) => x.gridPoint? (x.coarsest - i) with
    | none =>
      -- the last grid that is tried is fine enough
      have hlast := List.findSome?_eq_none_iff.1 hfound 39 (by simp)
      have hsome := isSome_gridPoint? hfinite hpos hfine
      rw [show x.gridPoint? (x.coarsest - 39) = none from hlast] at hsome
      cases hsome
    | some n =>
      obtain ⟨i, hi, hpoint⟩ := List.exists_of_findSome?_eq_some hfound
      obtain ⟨hread, hexponent⟩ := gridPoint?_spec hpoint
      have := List.mem_range.1 hi
      exact ⟨hread, by rw [Option.getD_some, hexponent]; omega, fun h => absurd h hpos⟩

theorem isFinite_infinite (negative : Bool) : (infinite negative).isFinite = false := by
  cases negative <;> rfl

/-- A numeral that names a finite double has not many digits, unless its exponent is very small. -/
theorem length_digits_le {n : Numeral} (hread : n.toDouble.isFinite = true) (hlow : -360 ≤ n.exponent) :
    (Decimal.digits n.digits).length ≤ 670 := by
  unfold Numeral.toDouble at hread
  split at hread
  · rename_i hzero
    rcases hzero with hzero | hsmall
    · rw [hzero]
      decide
    · unfold Numeral.order at hsmall
      omega
  · split at hread
    · rw [isFinite_infinite] at hread
      cases hread
    · rename_i hhigh
      unfold Numeral.order at hhigh
      omega

end DocStore.Double
