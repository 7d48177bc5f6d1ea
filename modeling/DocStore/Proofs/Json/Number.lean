/-
Numbers read back from their written form. An integer of 64 bits, signed or unsigned, is read as
itself, and a finite double, which is written with a point or an exponent and so never taken for
an integer, is read as the double with the same bits.
-/
import DocStore.Json.Number
import DocStore.Proofs.Number.Shortest
import Mathlib.Data.List.TakeWhile

namespace DocStore.JsonNumber

open Decimal (NoDigitFirst takeWhile_digits dropWhile_digits)

/-! ## Reading a literal by its parts -/

/-- The number of a literal, by its parts. -/
def ofParts (negative : Bool) (whole : List Char) : List Char → Option Int → JsonNumber
  | [], none => ofInteger negative (Decimal.value whole)
  | fraction, exponent => float (numeral negative whole fraction (exponent.getD 0)).toDouble

theorem ofUnsigned?_append {negative : Bool} {whole tail fraction rest : List Char}
    {exponent : Option Int} (hwhole : ∀ c ∈ whole, c.isDigit) (hne : whole ≠ [])
    (hlead : whole.length = 1 ∨ whole.head? ≠ some '0') (htail : NoDigitFirst tail)
    (hfraction : readFraction tail = some (fraction, rest)) (hexponent : readExponent rest = some exponent) :
    ofUnsigned? negative (whole ++ tail) = some (ofParts negative whole fraction exponent) := by
  have hguard : (whole.isEmpty || (decide (1 < whole.length) && whole.head? == some '0')) = false := by
    rcases hlead with h | h <;> simp [hne, h]
  unfold ofUnsigned?
  rw [takeWhile_digits hwhole htail, dropWhile_digits hwhole htail]
  simp only [hguard, hfraction, Bool.false_eq_true, if_false]
  show (readExponent rest >>= _) = _
  rw [hexponent]
  cases fraction <;> cases exponent <;> rfl

theorem readFraction_point {fraction rest : List Char} (hdigits : ∀ c ∈ fraction, c.isDigit)
    (hne : fraction ≠ []) (hrest : NoDigitFirst rest) :
    readFraction ('.' :: (fraction ++ rest)) = some (fraction, rest) := by
  unfold readFraction
  simp only [takeWhile_digits hdigits hrest, dropWhile_digits hdigits hrest]
  simp [hne]

theorem readFraction_last {fraction : List Char} (hdigits : ∀ c ∈ fraction, c.isDigit)
    (hne : fraction ≠ []) : readFraction ('.' :: fraction) = some (fraction, []) := by
  have h := readFraction_point hdigits hne (fun c hc => nomatch hc : NoDigitFirst [])
  rwa [List.append_nil] at h

theorem readExponent_mark (exponent : Int) :
    readExponent ('e' :: (if exponent < 0 then '-' else '+') :: Decimal.digits exponent.natAbs) =
      some (some exponent) := by
  unfold readExponent readSignedDigits
  by_cases h : exponent < 0
  · simp [h, abs_of_neg h]
  · simp [h, abs_of_nonneg (not_lt.1 h)]

/-- Zeros that end a fraction are not significant. -/
theorem numeral_toDouble {negative : Bool} {whole fraction : List Char} (exponent : Int)
    (hlength : (whole ++ fraction).length ≤ countedDigits) :
    (numeral negative whole fraction exponent).toDouble =
      Numeral.toDouble ⟨negative, Decimal.value (whole ++ fraction), exponent - fraction.length⟩ := by
  have hsplit : fraction = (fraction.reverse.dropWhile (· == '0')).reverse ++
      List.replicate (fraction.reverse.takeWhile (· == '0')).length '0' := by
    have hzeros : (fraction.reverse.takeWhile (· == '0')).reverse =
        List.replicate (fraction.reverse.takeWhile (· == '0')).length '0' := by
      refine List.eq_replicate_iff.2 ⟨List.length_reverse, fun c hc => ?_⟩
      simpa using List.mem_takeWhile_imp (List.mem_reverse.1 hc)
    rw [← hzeros, ← List.reverse_append, List.takeWhile_append_dropWhile, List.reverse_reverse]
  unfold numeral
  generalize (fraction.reverse.dropWhile (· == '0')).reverse = significant at hsplit ⊢
  generalize (fraction.reverse.takeWhile (· == '0')).length = zeros at hsplit
  subst hsplit
  have hshort : ((whole ++ significant).dropWhile (· == '0')).length ≤ countedDigits := by
    refine le_trans (List.dropWhile_sublist _).length_le (le_trans ?_ hlength)
    simp only [List.length_append]
    omega
  simp only [if_pos hshort, Decimal.value_dropWhile_zero]
  rw [← List.append_assoc, Decimal.value_append_replicate, Numeral.toDouble_mul_pow]
  congr 2
  simp only [List.length_append, List.length_replicate]
  omega

/-! ## Integers -/

theorem not_minus_of_isDigit {c : Char} (h : c.isDigit) : c ≠ '-' := by
  rintro rfl
  cases h

/-- A literal without a sign in front is read as such. -/
theorem ofLiteral?_of_head {cs : List Char} (h : ∀ c ∈ cs.head?, c.isDigit) :
    ofLiteral? cs = ofUnsigned? false cs := by
  cases cs with
  | nil => rfl
  | cons c rest =>
    have := not_minus_of_isDigit (h c rfl)
    unfold ofLiteral?
    split
    · rename_i heq
      cases heq
      exact absurd rfl this
    · rfl

theorem isDigit_of_ofUnsigned? {negative : Bool} {cs : List Char} {n : JsonNumber}
    (h : ofUnsigned? negative cs = some n) : ∀ c ∈ cs.head?, c.isDigit := by
  cases cs with
  | nil => exact fun c hc => nomatch hc
  | cons c rest =>
    rintro d ⟨⟩
    by_contra hc
    rw [ofUnsigned?, List.takeWhile_cons_of_neg hc] at h
    cases h

theorem ofUnsigned?_digits (negative : Bool) (n : Nat) :
    ofUnsigned? negative (Decimal.digits n) = some (ofInteger negative n) := by
  have hlead : (Decimal.digits n).length = 1 ∨ (Decimal.digits n).head? ≠ some '0' := by
    by_cases hn : n = 0
    · subst hn
      exact .inl rfl
    · exact .inr (Decimal.head?_digits_ne_zero hn)
  have h : ofUnsigned? negative (Decimal.digits n ++ []) =
      some (ofParts negative (Decimal.digits n) [] none) :=
    ofUnsigned?_append (fun c => Decimal.isDigit_of_mem_digits) (Decimal.digits_ne_nil n) hlead
      (fun c hc => nomatch hc) rfl rfl
  rw [List.append_nil] at h
  rw [h, ofParts, Decimal.value_digits]

/-- An integer of 64 bits, signed or unsigned, is read back. -/
theorem ofLiteral?_intText {n : Int} (hlow : -2 ^ 63 ≤ n) (hhigh : n < 2 ^ 64) :
    ofLiteral? (intText n) = some (int n) := by
  unfold intText
  split
  · rename_i hneg
    show ofUnsigned? true _ = _
    rw [ofUnsigned?_digits, ofInteger, if_pos rfl, if_neg (by omega)]
    have : n.natAbs ≤ Double.signWeight := by
      show n.natAbs ≤ 2 ^ 63
      omega
    rw [if_pos this]
    congr 2
    omega
  · rename_i hpos
    have hhead : ∀ c ∈ (Decimal.digits n.natAbs).head?, c.isDigit := fun c hc =>
      Decimal.isDigit_of_mem_digits (List.mem_of_mem_head? hc)
    rw [ofLiteral?_of_head hhead, ofUnsigned?_digits, ofInteger, if_neg (by simp)]
    have : n.natAbs < UInt64.size := by
      show n.natAbs < 2 ^ 64
      omega
    rw [if_pos this]
    congr 2
    omega

/-! ## Doubles -/

/-- A literal with a fraction or an exponent is the double that its digits name. -/
theorem ofParts_eq {n : Numeral} {whole fraction : List Char} {exponent : Option Int}
    (hfloat : fraction ≠ [] ∨ exponent ≠ none) (hlength : (whole ++ fraction).length ≤ countedDigits)
    (hvalue : Numeral.toDouble ⟨n.negative, Decimal.value (whole ++ fraction),
      exponent.getD 0 - fraction.length⟩ = n.toDouble) :
    ofParts n.negative whole fraction exponent = float n.toDouble := by
  have hparts : ofParts n.negative whole fraction exponent =
      float (numeral n.negative whole fraction (exponent.getD 0)).toDouble := by
    cases fraction with
    | cons c rest => rfl
    | nil =>
      cases exponent with
      | some exponent => rfl
      | none => simp at hfloat
  rw [hparts, numeral_toDouble _ hlength, hvalue]

section
variable {n : Numeral} (hlength : (Decimal.digits n.digits).length ≤ 670)

include hlength

/-- Digits that all come after the point, behind some zeros. -/
theorem ofUnsigned?_below {places : Int} (hplaces : places = n.exponent + (Decimal.digits n.digits).length)
    (hlow : -5 < places) (hhigh : places ≤ 0) :
    ofUnsigned? n.negative (positional (Decimal.digits n.digits) places) = some (float n.toDouble) := by
  have hdigits : ∀ c ∈ List.replicate (-places).toNat '0' ++ Decimal.digits n.digits, c.isDigit := by
    intro c hc
    rcases List.mem_append.1 hc with hc | hc
    · rw [List.eq_of_mem_replicate hc]
      rfl
    · exact Decimal.isDigit_of_mem_digits hc
  have hpoint := readFraction_last hdigits (by simp [Decimal.digits_ne_nil])
  have hwhole : ∀ c ∈ ['0'], c.isDigit := by simp
  rw [positional, if_pos hhigh]
  refine (ofUnsigned?_append hwhole (by simp) (.inl rfl)
    (fun c hc => by cases hc; rfl) hpoint rfl).trans (congrArg some ?_)
  refine ofParts_eq (.inl (by simp [Decimal.digits_ne_nil])) ?_ ?_
  · simp only [List.length_append, List.length_replicate, List.length_singleton, countedDigits]
    omega
  · have hvalue : Decimal.value (['0'] ++ (List.replicate (-places).toNat '0' ++
        Decimal.digits n.digits)) = n.digits := by
      show Decimal.value (List.replicate 1 '0' ++ _) = _
      rw [Decimal.value_replicate_append, Decimal.value_replicate_append, Decimal.value_digits]
    have hexponent : (none : Option Int).getD 0 - ((List.replicate (-places).toNat '0' ++
        Decimal.digits n.digits).length : Int) = n.exponent := by
      simp only [List.length_append, List.length_replicate, Option.getD_none]
      omega
    rw [hvalue, hexponent]

/-- Digits that all come before the point, with zeros behind them if they are too few. -/
theorem ofUnsigned?_whole (hzero : n.digits = 0 → n.exponent = 0) {places : Int}
    (hplaces : places = n.exponent + (Decimal.digits n.digits).length) (hhigh : places ≤ 16)
    (hall : (Decimal.digits n.digits).length ≤ places.toNat) :
    ofUnsigned? n.negative (positional (Decimal.digits n.digits) places) = some (float n.toDouble) := by
  have hpos := Decimal.length_digits_pos n.digits
  rw [positional, if_neg (by omega)]
  simp only
  rw [List.take_of_length_le hall, List.drop_of_length_le hall]
  generalize hcount : places.toNat - (Decimal.digits n.digits).length = count
  -- the fraction is one zero
  have hpoint : readFraction ['.', '0'] = some (['0'], []) := rfl
  have hwhole : ∀ c ∈ Decimal.digits n.digits ++ List.replicate count '0', c.isDigit := by
    intro c hc
    rcases List.mem_append.1 hc with hc | hc
    · exact Decimal.isDigit_of_mem_digits hc
    · rw [List.eq_of_mem_replicate hc]
      rfl
  have hlead : (Decimal.digits n.digits ++ List.replicate count '0').length = 1 ∨
      (Decimal.digits n.digits ++ List.replicate count '0').head? ≠ some '0' := by
    by_cases h0 : n.digits = 0
    · have hexponent := hzero h0
      rw [hplaces, hexponent] at hcount
      left
      rw [show count = 0 by omega, h0]
      rfl
    · right
      rw [List.head?_append_of_ne_nil _ (Decimal.digits_ne_nil _)]
      exact Decimal.head?_digits_ne_zero h0
  refine (ofUnsigned?_append hwhole (by simp [Decimal.digits_ne_nil]) hlead
    (fun c hc => by cases hc; rfl) hpoint rfl).trans (congrArg some ?_)
  refine ofParts_eq (.inl (by simp)) ?_ ?_
  · simp only [List.length_append, List.length_replicate, List.length_singleton, countedDigits]
    omega
  · have hvalue : Decimal.value (Decimal.digits n.digits ++ List.replicate count '0' ++ ['0']) =
        n.digits * 10 ^ (count + 1) := by
      rw [List.append_assoc, ← List.replicate_succ', Decimal.value_append_replicate,
        Decimal.value_digits]
    have hexponent : (none : Option Int).getD 0 - ((['0'] : List Char).length : Int) +
        ((count + 1 : Nat) : Int) = n.exponent := by
      simp only [List.length_singleton, Option.getD_none]
      omega
    rw [hvalue, Numeral.toDouble_mul_pow, hexponent]

/-- Digits of which some come before the point and some after it. -/
theorem ofUnsigned?_within {places : Int}
    (hplaces : places = n.exponent + (Decimal.digits n.digits).length) (hlow : 0 < places)
    (hsome : places.toNat < (Decimal.digits n.digits).length) :
    ofUnsigned? n.negative (positional (Decimal.digits n.digits) places) = some (float n.toDouble) := by
  have hdigits : ∀ c ∈ Decimal.digits n.digits, c.isDigit := fun c => Decimal.isDigit_of_mem_digits
  have hcount : places.toNat - (Decimal.digits n.digits).length = 0 := by omega
  have hne : (Decimal.digits n.digits).drop places.toNat ≠ [] := by
    rw [ne_eq, List.drop_eq_nil_iff]
    omega
  have hnotEmpty : ((Decimal.digits n.digits).drop places.toNat).isEmpty = false := by
    simpa using hne
  rw [positional, if_neg (by omega)]
  simp only
  rw [hcount, List.replicate_zero, List.append_nil, hnotEmpty, if_neg (by simp)]
  have hpoint := readFraction_last (fun c hc => hdigits c (List.mem_of_mem_drop hc)) hne
  have hlead : ((Decimal.digits n.digits).take places.toNat).length = 1 ∨
      ((Decimal.digits n.digits).take places.toNat).head? ≠ some '0' := by
    by_cases h0 : n.digits = 0
    · -- zero has one digit, which is before the point
      have hone : (Decimal.digits n.digits).length = 1 := by
        rw [h0]
        rfl
      omega
    · right
      rw [List.head?_take, if_neg (by omega)]
      exact Decimal.head?_digits_ne_zero h0
  refine (ofUnsigned?_append (fun c hc => hdigits c (List.mem_of_mem_take hc)) ?_ hlead
    (fun c hc => by cases hc; rfl) hpoint rfl).trans (congrArg some ?_)
  · rw [ne_eq, List.take_eq_nil_iff]
    have := Decimal.digits_ne_nil n.digits
    rintro (h | h)
    · omega
    · exact this h
  · refine ofParts_eq (.inl hne) ?_ ?_
    · rw [List.take_append_drop]
      exact hlength.trans (by decide)
    · rw [List.take_append_drop, Decimal.value_digits]
      have hexponent : (none : Option Int).getD 0 -
          (((Decimal.digits n.digits).drop places.toNat).length : Int) = n.exponent := by
        simp only [List.length_drop, Option.getD_none]
        omega
      rw [hexponent]

/-- Digits with the point after the first of them, and an exponent. -/
theorem ofUnsigned?_scientific :
    ofUnsigned? n.negative (scientific (Decimal.digits n.digits)
      (n.exponent + (Decimal.digits n.digits).length - 1)) = some (float n.toDouble) := by
  have hdigits : ∀ c ∈ Decimal.digits n.digits, c.isDigit := fun c => Decimal.isDigit_of_mem_digits
  have hvalue := Decimal.value_digits n.digits
  have hne := Decimal.digits_ne_nil n.digits
  generalize Decimal.digits n.digits = digits at *
  have hmark : NoDigitFirst ('e' :: (if n.exponent + digits.length - 1 < 0 then '-' else '+') ::
      Decimal.digits (n.exponent + digits.length - 1).natAbs) := fun c hc => by cases hc; rfl
  have hexponent := readExponent_mark (n.exponent + digits.length - 1)
  unfold scientific
  match digits, hne with
  | [first], _ =>
    have hfirst : ∀ c ∈ [first], c.isDigit := hdigits
    refine (ofUnsigned?_append hfirst (by simp) (.inl rfl) hmark rfl hexponent).trans
      (congrArg some ?_)
    refine ofParts_eq (.inr (by simp)) (by simp [countedDigits]) ?_
    rw [List.append_nil, hvalue]
    simp
  | first :: second :: rest, _ =>
    have hfirst : ∀ c ∈ [first], c.isDigit := fun c hc => hdigits c (by simp_all)
    have hrest : ∀ c ∈ second :: rest, c.isDigit := fun c hc =>
      hdigits c (List.mem_cons_of_mem _ hc)
    have hpoint := readFraction_point hrest (by simp) hmark
    refine (ofUnsigned?_append hfirst (by simp) (.inl rfl)
      (fun c hc => by cases hc; rfl) hpoint hexponent).trans (congrArg some ?_)
    refine ofParts_eq (.inl (by simp)) ?_ ?_
    · exact hlength.trans (by decide)
    · rw [List.singleton_append, hvalue]
      have : (some (n.exponent + ((first :: second :: rest).length : Int) - 1)).getD 0 -
          ((second :: rest).length : Int) = n.exponent := by
        simp only [List.length_cons, Option.getD_some]
        omega
      rw [this]

/-- A numeral with a point or an exponent is the double nearest to it. -/
theorem ofLiteral?_numeralText (hzero : n.digits = 0 → n.exponent = 0) :
    ofLiteral? (numeralText n) = some (float n.toDouble) := by
  have hunsigned : ∀ unsigned, ofUnsigned? n.negative unsigned = some (float n.toDouble) →
      ofLiteral? (if n.negative then '-' :: unsigned else unsigned) = some (float n.toDouble) := by
    intro unsigned h
    cases hsign : n.negative with
    | true =>
      rw [hsign] at h
      exact h
    | false =>
      rw [hsign] at h
      rw [if_neg (by simp), ofLiteral?_of_head (isDigit_of_ofUnsigned? h), h]
  apply hunsigned
  split
  · rename_i hplaces
    by_cases hbelow : n.exponent + ((Decimal.digits n.digits).length : Int) ≤ 0
    · exact ofUnsigned?_below hlength rfl hplaces.1 hbelow
    · rcases Nat.lt_or_ge (n.exponent + ((Decimal.digits n.digits).length : Int)).toNat
        (Decimal.digits n.digits).length with hsome | hall
      · exact ofUnsigned?_within hlength rfl (not_le.1 hbelow) hsome
      · exact ofUnsigned?_whole hlength hzero rfl hplaces.2 hall
  · exact ofUnsigned?_scientific hlength

end

/-! ## Numbers of documents -/

/-- An integer of 64 bits, signed or unsigned, or a finite double. -/
def Readable : JsonNumber → Prop
  | int n => -2 ^ 63 ≤ n ∧ n < 2 ^ 64
  | float x => x.isFinite

/-- What is written for a number is read as the number. -/
theorem ofLiteral?_text {n : JsonNumber} (h : n.Readable) : ofLiteral? n.text = some n := by
  cases n with
  | int n => exact ofLiteral?_intText h.1 h.2
  | float x =>
    obtain ⟨hread, hlow, hzero⟩ := Double.shortest_spec h
    have hlength : (Decimal.digits x.shortest.digits).length ≤ 670 := by
      refine Double.length_digits_le ?_ hlow
      rw [hread]
      exact h
    refine (ofLiteral?_numeralText hlength fun hdigits => hzero ?_).trans (by rw [hread])
    -- no digits but zeros name one of the two zeros
    rw [← hread, Numeral.toDouble, if_pos (.inl hdigits)]
    exact Double.pattern_ofPattern_zero _

end DocStore.JsonNumber
