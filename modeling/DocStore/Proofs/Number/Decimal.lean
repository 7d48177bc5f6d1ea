/-
Decimal digits as texts: how many a number has, which one leads, and what zeros before and after
them do to the number they write.
-/
import DocStore.Number.Decimal
import Mathlib.Tactic

namespace DocStore.Decimal

/-! ## How many digits -/

theorem length_digits_le_iff {n k : Nat} (hk : 0 < k) : (digits n).length ≤ k ↔ n < 10 ^ k :=
  Nat.length_toDigits_le_iff (by decide) hk

theorem length_digits_pos (n : Nat) : 0 < (digits n).length := Nat.length_toDigits_pos

theorem lt_pow_length_digits (n : Nat) : n < 10 ^ (digits n).length :=
  (length_digits_le_iff (length_digits_pos n)).1 le_rfl

theorem pow_length_digits_le {n : Nat} (hn : n ≠ 0) : 10 ^ ((digits n).length - 1) ≤ n := by
  by_contra hlt
  have hone : 1 < (digits n).length := by
    by_contra hle
    rw [Nat.sub_eq_zero_of_le (Nat.not_lt.1 hle), pow_zero] at hlt
    omega
  have := (length_digits_le_iff (by omega)).2 (Nat.not_le.1 hlt)
  omega

/-- A number between two powers of ten next to each other has as many digits as the larger one
has zeros. -/
theorem length_digits_eq {n k : Nat} (hlow : 10 ^ k ≤ n) (hhigh : n < 10 ^ (k + 1)) :
    (digits n).length = k + 1 := by
  apply le_antisymm ((length_digits_le_iff k.succ_pos).2 hhigh)
  by_contra hlt
  have : n < 10 ^ k := lt_of_lt_of_le (lt_pow_length_digits n) (Nat.pow_le_pow_right (by decide) (by omega))
  omega

theorem length_digits_mul_pow {n : Nat} (hn : n ≠ 0) (k : Nat) :
    (digits (n * 10 ^ k)).length = (digits n).length + k := by
  have hpos := length_digits_pos n
  have hpow : 0 < 10 ^ k := by positivity
  have h := length_digits_eq (n := n * 10 ^ k) (k := (digits n).length - 1 + k)
    (by
      rw [pow_add]
      exact Nat.mul_le_mul_right _ (pow_length_digits_le hn))
    (by
      rw [show (digits n).length - 1 + k + 1 = (digits n).length + k by omega, pow_add]
      exact Nat.mul_lt_mul_of_pos_right (lt_pow_length_digits n) hpow)
  omega

theorem toNat_sub_lt_of_isDigit {c : Char} (h : c.isDigit) : c.toNat - '0'.toNat < 10 := by
  simp only [Char.isDigit, Bool.and_eq_true, decide_eq_true_eq] at h
  have : c.toNat ≤ 57 := h.2
  show c.toNat - 48 < 10
  omega

theorem value_append (a b : List Char) : value (a ++ b) = Nat.ofDigitChars 10 b (value a) :=
  Nat.ofDigitChars_append 0

/-- So many digits write no number beyond that power of ten. -/
theorem value_lt_pow {cs : List Char} (h : ∀ c ∈ cs, c.isDigit) : value cs < 10 ^ cs.length := by
  induction cs using List.reverseRecOn with
  | nil => decide
  | append_singleton cs c ih =>
    have hvalue := ih fun d hd => h d (List.mem_append_left _ hd)
    have hdigit := toNat_sub_lt_of_isDigit (h c (by simp))
    rw [value_append, Nat.ofDigitChars_cons, Nat.ofDigitChars_nil, List.length_append,
      List.length_singleton, pow_succ]
    omega

/-- Only zero is written with a zero in front. -/
theorem head?_digits_ne_zero {n : Nat} (hn : n ≠ 0) : (digits n).head? ≠ some '0' := by
  intro hhead
  obtain ⟨rest, hrest⟩ := List.head?_eq_some_iff.1 hhead
  have hvalue : value rest = n := by
    rw [← value_digits n, hrest]
    exact (value_replicate_append 1 rest).symm
  have hdigits : ∀ c ∈ rest, c.isDigit := fun c hc =>
    isDigit_of_mem_digits (n := n) (hrest ▸ List.mem_cons_of_mem _ hc)
  have hlt := value_lt_pow hdigits
  have hlow := pow_length_digits_le hn
  rw [hrest, List.length_cons, Nat.add_sub_cancel] at hlow
  omega

/-! ## Zeros around digits -/

/-- Zeros after digits multiply by powers of ten. -/
theorem value_append_replicate (cs : List Char) (count : Nat) :
    value (cs ++ List.replicate count '0') = value cs * 10 ^ count := by
  rw [value_append, Nat.ofDigitChars_replicate_zero, mul_comm]

theorem value_dropWhile_zero (cs : List Char) : value (cs.dropWhile (· == '0')) = value cs := by
  induction cs with
  | nil => rfl
  | cons c cs ih =>
    by_cases hc : c = '0'
    · subst hc
      rw [List.dropWhile_cons_of_pos (by rfl), ih]
      exact (value_replicate_append 1 cs).symm
    · rw [List.dropWhile_cons_of_neg (by simpa using hc)]

/-! ## Digits of a fixed width -/

theorem length_padded {width n : Nat} (h : n < 10 ^ width) (hwidth : 0 < width) :
    (padded width n).length = width := by
  have := (length_digits_le_iff hwidth).2 h
  rw [padded, List.length_append, List.length_replicate]
  omega

theorem isDigit_of_mem_padded {c : Char} {width n : Nat} (h : c ∈ padded width n) : c.isDigit := by
  rcases List.mem_append.1 h with h | h
  · rw [List.eq_of_mem_replicate h]
    rfl
  · exact isDigit_of_mem_digits h

/-! ## Runs of digits -/

/-- A text that does not go on with a digit. -/
def NoDigitFirst (cs : List Char) : Prop := ∀ c ∈ cs.head?, c.isDigit = false

theorem takeWhile_digits {run rest : List Char} (hdigits : ∀ c ∈ run, c.isDigit)
    (hrest : NoDigitFirst rest) : (run ++ rest).takeWhile Char.isDigit = run := by
  rw [List.takeWhile_append_of_pos hdigits]
  cases rest with
  | nil => simp
  | cons c rest => simp [hrest c rfl]

theorem dropWhile_digits {run rest : List Char} (hdigits : ∀ c ∈ run, c.isDigit)
    (hrest : NoDigitFirst rest) : (run ++ rest).dropWhile Char.isDigit = rest := by
  rw [List.dropWhile_append_of_pos hdigits]
  cases rest with
  | nil => rfl
  | cons c rest => simp [hrest c rfl]

end DocStore.Decimal
