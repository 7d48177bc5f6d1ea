/-
The two stages in which tagged dates are read meet in the strict reader. A text that looks like a
tagged date is laid out like one, in decimal digits of any script. In a text laid out like a date the
reader of fields finds no white space to pass over and no number that ends before its separator, so
it takes exactly the spellings among them. Every spelling in turn is laid out like a date. Which
digits other scripts have does not matter, as long as no separator and no white space is among them.
-/
import DocStore.Proofs.Pattern
import DocStore.Proofs.Time.Calendar
import DocStore.Proofs.Time.Reading

namespace DocStore

open Decimal (NoDigitFirst)

/-! ## Classes of characters -/

theorem isDecimal_of_isDigit {c : Char} (h : c.isDigit) : isDecimal c = true := by
  simp only [Char.isDigit, Bool.and_eq_true, decide_eq_true_eq] at h
  have hlow : 48 ≤ c.toNat := h.1
  have hhigh : c.toNat ≤ 57 := h.2
  exact List.any_eq_true.2 ⟨0x30, by decide, decide_eq_true ⟨hlow, by omega⟩⟩

namespace Timestamp

theorem not_isSpace_of_isDecimal {c : Char} (h : isDecimal c = true) : isSpace c = false := by
  have hspaces : ∀ n ∈ spaces,
      (decimalZeros.any fun first => decide (first ≤ n ∧ n < first + 10)) = false := by
    decide
  by_contra hspace
  rw [Bool.not_eq_false, isSpace, List.contains_iff_mem] at hspace
  rw [isDecimal, hspaces _ hspace] at h
  cases h

/-! ## What is laid out like a date -/

/-- A text of so many decimal digits of any script. -/
structure Decimals (count : Nat) (text : List Char) : Prop where
  length_eq : text.length = count
  isDecimal : ∀ c ∈ text, isDecimal c = true

/-- Four decimal digits or more, which may stand behind a sign. -/
inductive ShapedYear : List Char → Prop
  | plain {run : List Char} (hlength : 4 ≤ run.length) (h : Decimals run.length run) :
    ShapedYear run
  | signed {sign : Char} {run : List Char} (hsign : sign = '+' ∨ sign = '-')
    (hlength : 4 ≤ run.length) (h : Decimals run.length run) : ShapedYear (sign :: run)

/-- Nothing, or one to nine decimal digits behind a point. -/
inductive ShapedFraction : List Char → Prop
  | missing : ShapedFraction []
  | point {run : List Char} (hpos : 1 ≤ run.length) (hlength : run.length ≤ 9)
    (h : Decimals run.length run) : ShapedFraction ('.' :: run)

/-- A text laid out like a date with a time of day. -/
inductive Shaped : List Char → Prop
  | intro {year month day hour minute second fraction : List Char}
    (hyear : ShapedYear year) (hmonth : Decimals 2 month) (hday : Decimals 2 day)
    (hhour : Decimals 2 hour) (hminute : Decimals 2 minute) (hsecond : Decimals 2 second)
    (hfraction : ShapedFraction fraction) :
    Shaped (year ++ '-' :: (month ++ '-' :: (day ++ 'T' :: (hour ++ ':' :: (minute ++
      ':' :: (second ++ (fraction ++ ['Z'])))))))

section
open Pattern

theorem decimal_times_matches_iff {count : Nat} {s : List Char} :
    (times count decimal).Matches s ↔ Decimals count s :=
  matches_times_one_iff.trans ⟨fun h => ⟨h.1, h.2⟩, fun h => ⟨h.1, h.2⟩⟩

theorem yearPattern_matches_iff {s : List Char} : yearPattern.Matches s ↔ ShapedYear s := by
  simp only [yearPattern, decimal, matches_sequence_cons_iff, matches_sequence_nil_iff,
    matches_optional_iff, matches_one_iff, matches_atLeast_one_iff]
  constructor
  · rintro ⟨_, _, ⟨sign, hsign, rfl⟩ | rfl, rfl, run, _, ⟨hlength, hrun⟩, rfl, rfl⟩ <;>
      rw [List.append_nil]
    · exact .signed (by simpa using hsign) hlength ⟨rfl, hrun⟩
    · exact .plain hlength ⟨rfl, hrun⟩
  · rintro (@⟨run, hlength, -, hrun⟩ | @⟨sign, run, hsign, hlength, -, hrun⟩)
    · exact ⟨[], _, .inr rfl, rfl, _, [], ⟨hlength, hrun⟩, by simp, rfl⟩
    · exact ⟨[sign], _, .inl ⟨sign, by simpa using hsign, rfl⟩, rfl, _, [], ⟨hlength, hrun⟩,
        by simp, rfl⟩

theorem fractionPattern_matches_iff {s : List Char} :
    fractionPattern.Matches s ↔ ShapedFraction s := by
  simp only [fractionPattern, decimal, matches_optional_iff, matches_sequence_cons_iff,
    matches_sequence_nil_iff, matches_literal_iff, matches_one_iff, matches_atMost_one_iff]
  constructor
  · rintro (⟨_, _, rfl, rfl, _, _, ⟨c, hc, rfl⟩, rfl, rest, _, ⟨hlength, hrest⟩, rfl, rfl⟩ | rfl)
    · rw [List.append_nil]
      exact .point (Nat.succ_pos _) (Nat.succ_le_succ hlength)
        ⟨rfl, List.forall_mem_cons.2 ⟨hc, hrest⟩⟩
    · exact .missing
  · rintro (_ | @⟨run, hpos, hlength, -, hrun⟩)
    · exact .inr rfl
    · obtain ⟨c, rest, rfl⟩ := List.exists_cons_of_length_pos hpos
      obtain ⟨hc, hrest⟩ := List.forall_mem_cons.1 hrun
      exact .inl ⟨_, _, rfl, rfl, _, _, ⟨c, hc, rfl⟩, rfl, rest, [],
        ⟨Nat.le_of_succ_le_succ hlength, hrest⟩, (List.append_nil _).symm, rfl⟩

/-- What looks like a tagged date is the tag and a text laid out like a date. -/
theorem taggedDate_accepts_iff {s : List Char} :
    taggedDate.accepts s = true ↔ ∃ text, Shaped text ∧ s = tag.toList ++ text := by
  simp only [accepts_iff, taggedDate, matches_sequence_cons_iff, matches_sequence_nil_iff,
    matches_word_iff, matches_literal_iff, decimal_times_matches_iff, yearPattern_matches_iff,
    fractionPattern_matches_iff]
  constructor
  · rintro ⟨_, _, rfl, rfl, year, _, hyear, rfl, _, _, rfl, rfl, month, _, hmonth, rfl, _, _, rfl,
      rfl, day, _, hday, rfl, _, _, rfl, rfl, hour, _, hhour, rfl, _, _, rfl, rfl, minute, _,
      hminute, rfl, _, _, rfl, rfl, second, _, hsecond, rfl, fraction, _, hfraction, rfl, _, _, rfl,
      rfl, rfl⟩
    exact ⟨_, .intro hyear hmonth hday hhour hminute hsecond hfraction, rfl⟩
  · rintro ⟨_, ⟨hyear, hmonth, hday, hhour, hminute, hsecond, hfraction⟩, rfl⟩
    exact ⟨_, _, rfl, rfl, _, _, hyear, rfl, _, _, rfl, rfl, _, _, hmonth, rfl, _, _, rfl, rfl, _,
      _, hday, rfl, _, _, rfl, rfl, _, _, hhour, rfl, _, _, rfl, rfl, _, _, hminute, rfl, _, _, rfl,
      rfl, _, _, hsecond, rfl, _, _, hfraction, rfl, _, _, rfl, rfl, rfl⟩

end

/-! ## Reading what is laid out like a date -/

/-- A text that does not go on with a decimal digit of any script. -/
def NoDecimalFirst (cs : List Char) : Prop := ∀ c ∈ cs.head?, isDecimal c = false

theorem noDecimalFirst_cons {c : Char} (h : isDecimal c = false) (cs : List Char) :
    NoDecimalFirst (c :: cs) := by
  rintro _ ⟨⟩
  exact h

theorem NoDecimalFirst.noDigitFirst {cs : List Char} (h : NoDecimalFirst cs) : NoDigitFirst cs := by
  intro c hc
  by_contra hdigit
  have := isDecimal_of_isDigit (Bool.not_eq_false _ ▸ hdigit)
  rw [h c hc] at this
  cases this

/-- A text has one longest run of decimal digits in front. -/
theorem eq_of_decimals_append {a b s t : List Char} (ha : ∀ c ∈ a, isDecimal c = true)
    (hb : ∀ c ∈ b, isDecimal c = true) (hs : NoDecimalFirst s) (ht : NoDecimalFirst t)
    (h : a ++ s = b ++ t) : a = b ∧ s = t := by
  induction a generalizing b with
  | nil =>
    cases b with
    | nil => exact ⟨rfl, h⟩
    | cons c b =>
      subst h
      cases (hs c rfl).symm.trans (hb c List.mem_cons_self)
  | cons c a ih =>
    cases b with
    | nil =>
      subst h
      cases (ht c rfl).symm.trans (ha c List.mem_cons_self)
    | cons d b =>
      obtain ⟨rfl, htail⟩ := List.cons.inj h
      obtain ⟨rfl, rfl⟩ := ih (List.forall_mem_cons.1 ha).2 (List.forall_mem_cons.1 hb).2 htail
      exact ⟨rfl, rfl⟩

theorem ShapedFraction.noDecimalFirst {text rest : List Char} (h : ShapedFraction text) :
    NoDecimalFirst (text ++ 'Z' :: rest) := by
  cases h with
  | missing => exact noDecimalFirst_cons (by decide) _
  | point => exact noDecimalFirst_cons (by decide) _

theorem Decimals.dropWhile_isSpace {count : Nat} {run : List Char} (h : Decimals count run)
    (hcount : 0 < count) (rest : List Char) : (run ++ rest).dropWhile isSpace = run ++ rest := by
  obtain ⟨c, cs, rfl⟩ := List.exists_cons_of_length_pos (h.length_eq.symm ▸ hcount)
  rw [List.cons_append, List.dropWhile_cons_of_neg]
  rw [not_isSpace_of_isDecimal (h.isDecimal c List.mem_cons_self)]
  exact Bool.false_ne_true

theorem Digits.decimals {count n : Nat} {text : List Char} (h : Digits count text n) :
    Decimals count text :=
  ⟨h.length_eq, fun c hc => isDecimal_of_isDigit (h.isDigit c hc)⟩

/-- A fraction that is spelled is laid out like one. -/
theorem SpellsFraction.shaped {text : List Char} {n : Nat} (h : SpellsFraction text n) :
    ShapedFraction text := by
  rcases h.missing_or_run with ⟨rfl, -⟩ | ⟨run, rfl, ⟨hpos, hlength⟩, hrun, -⟩
  · exact .missing
  · exact .point hpos hlength ⟨rfl, fun c hc => isDecimal_of_isDigit (hrun c hc)⟩

theorem SpellsYear.shaped {text : List Char} {y : Int} (h : SpellsYear text y) :
    ShapedYear text := by
  cases h with
  | plain h => exact .plain h.length_eq.ge (h.length_eq.symm ▸ h.decimals)
  | plus hcount h =>
    exact .signed (.inl rfl) (h.length_eq.symm ▸ hcount) (h.length_eq.symm ▸ h.decimals)
  | minus hcount h =>
    exact .signed (.inr rfl) (h.length_eq.symm ▸ hcount) (h.length_eq.symm ▸ h.decimals)

/-- A spelling is laid out like a date. -/
theorem Spells.shaped {text : List Char} {date : Calendar.Date} {hour minute second nanos : Nat}
    (h : Spells text date hour minute second nanos) : Shaped text := by
  obtain ⟨hyear, hmonth, hday, hhour, hminute, hsecond, hfraction⟩ := h
  exact .intro hyear.shaped hmonth.decimals hday.decimals hhour.decimals hminute.decimals
    hsecond.decimals hfraction.shaped

namespace Reader

variable {most count n : Nat} {cs run rest mid : List Char}

/-- A number takes digits from the front. -/
theorem number_eq_some (h : number most cs = some (n, rest)) :
    ∃ front, Digits front.length front n ∧ front.length ≤ most ∧ cs = front ++ rest := by
  unfold number at h
  simp only at h
  split_ifs at h
  cases h
  have hprefix := (List.takeWhile_prefix Char.isDigit).trans (List.take_prefix most cs)
  refine ⟨_, ⟨rfl, List.all_eq_true.1 List.all_takeWhile, rfl⟩, ?_,
    (List.prefix_iff_eq_append.1 hprefix).symm⟩
  exact (List.takeWhile_prefix _).length_le.trans (List.length_take_le ..)

/-- Digits up to a character that is none are read as their number. -/
theorem number_apply (h : Digits count run n) (hpos : 0 < count) (hcount : count ≤ most)
    (hlt : n < 2 ^ 63) (hrest : NoDigitFirst rest) : number most (run ++ rest) = some (n, rest) := by
  obtain ⟨rfl, hdigits, rfl⟩ := h
  have hfront : ((run ++ rest).take most).takeWhile Char.isDigit = run := by
    rw [List.take_append, List.take_of_length_le hcount, Decimal.takeWhile_digits hdigits]
    intro c hc
    rw [List.head?_take] at hc
    split_ifs at hc
    · cases hc
    · exact hrest c hc
  unfold number
  rw [hfront, if_pos ⟨hpos, hlt⟩, List.drop_left]

/-- In front of a run of decimal digits a number is the whole run, if it ends with the run. -/
theorem number_of_decimals (h : number most (run ++ rest) = some (n, mid))
    (hrun : Decimals count run) (hrest : NoDecimalFirst rest) (hmid : NoDecimalFirst mid) :
    Digits count run n ∧ count ≤ most ∧ mid = rest := by
  obtain ⟨front, hfront, hle, heq⟩ := number_eq_some h
  obtain ⟨rfl, rfl⟩ := eq_of_decimals_append hrun.isDecimal hfront.decimals.isDecimal hrest hmid heq
  obtain ⟨rfl, -⟩ := hrun
  exact ⟨hfront, hle, rfl⟩

theorem twoDigits_of_decimals (h : twoDigits (run ++ rest) = some (n, mid)) (hrun : Decimals 2 run)
    (hrest : NoDecimalFirst rest) (hmid : NoDecimalFirst mid) : Digits 2 run n ∧ mid = rest := by
  unfold twoDigits at h
  rw [hrun.dropWhile_isSpace (by decide)] at h
  obtain ⟨hdigits, -, hrest⟩ := number_of_decimals h hrun hrest hmid
  exact ⟨hdigits, hrest⟩

theorem twoDigits_apply (h : Digits 2 run n) (hrest : NoDigitFirst rest) :
    twoDigits (run ++ rest) = some (n, rest) := by
  unfold twoDigits
  rw [h.decimals.dropWhile_isSpace (by decide)]
  have hlt := Decimal.value_lt_pow h.isDigit
  rw [h.length_eq, h.value_eq] at hlt
  exact number_apply h (by decide) le_rfl (by omega) hrest

/-- The digits after a sign. -/
theorem signed_of_decimals (sign : Int) {y : Int}
    (h : yearField.signed sign (run ++ rest) = some (y, mid))
    (hrun : Decimals count run) (hrest : NoDecimalFirst rest) (hmid : NoDecimalFirst mid) :
    (∃ n, Digits count run n ∧ y = sign * n) ∧ mid = rest := by
  obtain ⟨n, _, hnumber, hpure⟩ := bind_eq_some_iff.1 h
  cases hpure
  obtain ⟨hdigits, -, hmid⟩ := number_of_decimals hnumber hrun hrest hmid
  exact ⟨⟨n, hdigits, rfl⟩, hmid⟩

theorem signed_apply (sign : Int) (h : Digits count run n) (hpos : 0 < count) (hlt : n < 2 ^ 63)
    (hrest : NoDigitFirst rest) : yearField.signed sign (run ++ rest) = some (sign * n, rest) := by
  have hcount : count ≤ (run ++ rest).length := by
    rw [List.length_append, h.length_eq]
    omega
  exact bind_apply (number_apply h hpos hcount hlt hrest) _

/-- A decimal digit is no sign, so a year that starts with one has up to four. -/
theorem yearField_of_decimals (hrun : Decimals count run) (hpos : 0 < count) (rest : List Char) :
    yearField (run ++ rest) = (do return ((← number 4) : Int) : Reader Int) (run ++ rest) := by
  unfold yearField
  rw [hrun.dropWhile_isSpace hpos]
  obtain ⟨c, cs, rfl⟩ := List.exists_cons_of_length_pos (hrun.length_eq.symm ▸ hpos)
  have hfirst := hrun.isDecimal c List.mem_cons_self
  split
  · rename_i heq
    cases heq
    exact absurd hfirst (by decide)
  · rename_i heq
    cases heq
    exact absurd hfirst (by decide)
  · rfl

theorem yearField_of_shaped {text : List Char} {y : Int}
    (h : yearField (text ++ rest) = some (y, mid)) (htext : ShapedYear text)
    (hrest : NoDecimalFirst rest) (hmid : NoDecimalFirst mid) : SpellsYear text y ∧ mid = rest := by
  cases htext with
  | plain hlength hrun =>
    rw [yearField_of_decimals hrun (by omega)] at h
    obtain ⟨n, _, hnumber, hpure⟩ := bind_eq_some_iff.1 h
    cases hpure
    obtain ⟨hdigits, hle, hmid⟩ := number_of_decimals hnumber hrun hrest hmid
    exact ⟨.plain (le_antisymm hle hlength ▸ hdigits), hmid⟩
  | signed hsign hlength hrun =>
    rcases hsign with rfl | rfl
    · obtain ⟨⟨n, hdigits, rfl⟩, hmid⟩ := signed_of_decimals 1 h hrun hrest hmid
      rw [one_mul]
      exact ⟨.plus hlength hdigits, hmid⟩
    · obtain ⟨⟨n, hdigits, rfl⟩, hmid⟩ := signed_of_decimals (-1) h hrun hrest hmid
      rw [neg_one_mul]
      exact ⟨.minus hlength hdigits, hmid⟩

theorem yearField_apply {text : List Char} {y : Int} (h : SpellsYear text y)
    (hlt : y.natAbs < 2 ^ 63) (hrest : NoDigitFirst rest) :
    yearField (text ++ rest) = some (y, rest) := by
  cases h with
  | plain hdigits =>
    rw [yearField_of_decimals hdigits.decimals (by decide)]
    exact bind_apply (number_apply hdigits (by decide) le_rfl hlt hrest) _
  | @plus count n text hcount hdigits =>
    have hsigned := signed_apply 1 hdigits (by omega) hlt hrest
    rwa [one_mul] at hsigned
  | @minus count n text hcount hdigits =>
    have hsigned := signed_apply (-1) hdigits (by omega) (by omega) hrest
    rwa [neg_one_mul] at hsigned

/-- What a fraction may be read from does not go on with a decimal digit. -/
theorem noDecimalFirst_of_fractionField (h : fractionField cs = some (n, 'Z' :: rest)) :
    NoDecimalFirst cs := by
  unfold fractionField at h
  split at h
  · exact noDecimalFirst_cons (by decide) _
  · cases h
    exact noDecimalFirst_cons (by decide) _

theorem point_apply (hlength : 1 ≤ run.length ∧ run.length ≤ 9) (hrun : ∀ c ∈ run, c.isDigit)
    (rest : List Char) : fractionField.point (run ++ 'Z' :: rest) =
      some (Decimal.value run * 10 ^ (9 - run.length), 'Z' :: rest) := by
  have hzone := noDecimalFirst_cons (c := 'Z') (by decide) rest
  have hlt : Decimal.value run < 2 ^ 63 := by
    have hpow : 10 ^ run.length ≤ 10 ^ 9 := Nat.pow_le_pow_right (by decide) hlength.2
    have := Decimal.value_lt_pow hrun
    omega
  have hcount : (run ++ 'Z' :: rest).length - ('Z' :: rest).length = run.length := by
    rw [List.length_append, Nat.add_sub_cancel]
  unfold fractionField.point
  rw [number_apply ⟨rfl, hrun, rfl⟩ hlength.1 hlength.2 hlt hzone.noDigitFirst]
  show some (_ * 10 ^ (9 - ((run ++ 'Z' :: rest).length - ('Z' :: rest).length)), _) = _
  rw [hcount, List.dropWhile_cons_of_neg (by decide)]

/-- Digits are read after a point only if all decimal digits there are. -/
theorem isDigit_of_point (h : fractionField.point (run ++ 'Z' :: rest) = some (n, 'Z' :: mid))
    (hrun : Decimals count run) : ∀ c ∈ run, c.isDigit := by
  obtain ⟨⟨m, left⟩, hnumber, hresult⟩ := Option.bind_eq_some_iff.1 h
  obtain ⟨-, hleft⟩ := Prod.mk.inj (Option.some.inj hresult)
  obtain ⟨front, hfront, -, heq⟩ := number_eq_some hnumber
  -- the digits that count and those that do not are the whole run
  have hdigits : ∀ c ∈ front ++ left.takeWhile Char.isDigit, c.isDigit :=
    List.forall_mem_append.2 ⟨hfront.isDigit, List.all_eq_true.1 List.all_takeWhile⟩
  have hsplit : (front ++ left.takeWhile Char.isDigit) ++ 'Z' :: mid = run ++ 'Z' :: rest := by
    rw [heq, List.append_assoc, ← hleft, List.takeWhile_append_dropWhile]
  have hzone := noDecimalFirst_cons (c := 'Z') (by decide)
  obtain ⟨rfl, -⟩ := eq_of_decimals_append (fun c hc => isDecimal_of_isDigit (hdigits c hc))
    hrun.isDecimal (hzone _) (hzone _) hsplit
  exact hdigits

theorem fractionField_of_shaped {text : List Char}
    (h : fractionField (text ++ 'Z' :: rest) = some (n, 'Z' :: mid)) (htext : ShapedFraction text) :
    SpellsFraction text n ∧ mid = rest := by
  cases htext with
  | missing =>
    cases h
    exact ⟨.missing, rfl⟩
  | @point run hpos hlength hrun =>
    have hpoint : fractionField.point (run ++ 'Z' :: rest) = some (n, 'Z' :: mid) := h
    have hdigits := isDigit_of_point hpoint hrun
    cases (point_apply ⟨hpos, hlength⟩ hdigits rest).symm.trans hpoint
    exact ⟨spellsFraction_of_run ⟨hpos, hlength⟩ hdigits, rfl⟩

theorem fractionField_apply {text : List Char} (h : SpellsFraction text n) (rest : List Char) :
    fractionField (text ++ 'Z' :: rest) = some (n, 'Z' :: rest) := by
  rcases h.missing_or_run with ⟨rfl, rfl⟩ | ⟨run, rfl, hlength, hrun, rfl⟩
  · rfl
  · exact point_apply hlength hrun rest

/-- Of the texts laid out like a date only spellings are read. -/
theorem spells_of_fields {text : List Char} {t? : Option Timestamp}
    (h : fields text = some (t?, [])) (htext : Shaped text) :
    ∃ date hour minute second nanos, Spells text date hour minute second nanos ∧
      ofCivil? date hour minute second nanos = t? := by
  obtain ⟨hyear, hmonth, hday, hhour, hminute, hsecond, hfraction⟩ := htext
  unfold fields at h
  simp only [bind_eq_some_iff, char_eq_some_iff] at h
  obtain ⟨y, _, hy, _, _, rfl, m, _, hm, _, _, rfl, d, _, hd, _, _, rfl, h, _, hh, _, _, rfl,
    i, _, hi, _, _, rfl, s, _, hs, n, _, hn, _, _, rfl, hcivil⟩ := h
  cases hcivil
  have hminus := noDecimalFirst_cons (c := '-') (by decide)
  have htime := noDecimalFirst_cons (c := 'T') (by decide)
  have hcolon := noDecimalFirst_cons (c := ':') (by decide)
  have hlast := noDecimalFirst_of_fractionField hn
  -- part by part, each up to its separator
  obtain ⟨hyear', hrest⟩ := yearField_of_shaped hy hyear (hminus _) (hminus _)
  cases hrest
  obtain ⟨hmonth', hrest⟩ := twoDigits_of_decimals hm hmonth (hminus _) (hminus _)
  cases hrest
  obtain ⟨hday', hrest⟩ := twoDigits_of_decimals hd hday (htime _) (htime _)
  cases hrest
  obtain ⟨hhour', hrest⟩ := twoDigits_of_decimals hh hhour (hcolon _) (hcolon _)
  cases hrest
  obtain ⟨hminute', hrest⟩ := twoDigits_of_decimals hi hminute (hcolon _) (hcolon _)
  cases hrest
  obtain ⟨hsecond', hrest⟩ := twoDigits_of_decimals hs hsecond hfraction.noDecimalFirst hlast
  cases hrest
  obtain ⟨hfraction', -⟩ := fractionField_of_shaped hn hfraction
  exact ⟨_, _, _, _, _, .intro hyear' hmonth' hday' hhour' hminute' hsecond' hfraction', rfl⟩

/-- A spelling is read as what it spells, unless its year is beyond all numbers. -/
theorem fields_apply {text : List Char} {date : Calendar.Date} {hour minute second nanos : Nat}
    (h : Spells text date hour minute second nanos) (hlt : date.year.natAbs < 2 ^ 63) :
    fields text = some (ofCivil? date hour minute second nanos, []) := by
  obtain ⟨hyear, hmonth, hday, hhour, hminute, hsecond, hfraction⟩ := h
  have hminus := noDecimalFirst_cons (c := '-') (by decide)
  have htime := noDecimalFirst_cons (c := 'T') (by decide)
  have hcolon := noDecimalFirst_cons (c := ':') (by decide)
  unfold fields
  rw [bind_apply (yearField_apply hyear hlt (hminus _).noDigitFirst), bind_apply (char_apply _ _),
    bind_apply (twoDigits_apply hmonth (hminus _).noDigitFirst), bind_apply (char_apply _ _),
    bind_apply (twoDigits_apply hday (htime _).noDigitFirst), bind_apply (char_apply _ _),
    bind_apply (twoDigits_apply hhour (hcolon _).noDigitFirst), bind_apply (char_apply _ _),
    bind_apply (twoDigits_apply hminute (hcolon _).noDigitFirst), bind_apply (char_apply _ _),
    bind_apply (twoDigits_apply hsecond hfraction.shaped.noDecimalFirst.noDigitFirst),
    bind_apply (fractionField_apply hfraction _), bind_apply (char_apply _ _)]
  rfl

end Reader

/-! ## Years of points in time -/

theorem ofParts?_seconds (t : Timestamp) : ofParts? t.seconds t.nanos = some t :=
  dif_pos ⟨t.first_le, t.lt_end, t.nanos_lt, t.leap⟩

theorem ofParts?_eq_some_iff {seconds : Int} {nanos : Nat} {t : Timestamp} :
    ofParts? seconds nanos = some t ↔ t.seconds = seconds ∧ t.nanos = nanos := by
  constructor
  · intro h
    unfold ofParts? at h
    split_ifs at h
    cases h
    exact ⟨rfl, rfl⟩
  · rintro ⟨rfl, rfl⟩
    exact t.ofParts?_seconds

/-- A date that is read as one of a point in time lies in the years of those. -/
theorem year_bounds_of_ofCivil? {date : Calendar.Date} {hour minute second nanos : Nat}
    {t : Timestamp} (h : ofCivil? date hour minute second nanos = some t) :
    -262143 ≤ date.year ∧ date.year ≤ 262142 := by
  unfold ofCivil? at h
  split at h
  · rename_i hcivil
    simp only [Bool.and_eq_true, decide_eq_true_eq] at hcivil
    obtain ⟨⟨⟨hvalid, hhour⟩, hminute⟩, hsecond⟩ := hcivil
    have hfirst := t.first_le
    have hend := t.lt_end
    have hday : (date.toDays - epochDay) * 86400 ≤ t.seconds ∧
        t.seconds < (date.toDays - epochDay + 1) * 86400 := by
      split at h <;> obtain ⟨hseconds, -⟩ := ofParts?_eq_some_iff.1 h <;> omega
    refine ⟨Calendar.Date.le_year hvalid ?_,
      Int.lt_add_one_iff.1 (Calendar.Date.year_lt hvalid ?_)⟩
    · omega
    · show _ < Calendar.daysBeforeYear 262143
      omega
  · cases h

/-! ## Both stages -/

/-- What looks like a tagged date and can be read field by field is what the strict reader takes,
and it is read as the same point in time. -/
theorem untag?_eq_readTagged? (s : String) : untag? s = readTagged? s := by
  refine Option.ext fun t => Iff.trans ?_ readTagged?_eq_some_iff.symm
  constructor
  · intro h
    unfold untag? at h
    split at h
    · rename_i haccepts
      obtain ⟨text, hshaped, hs⟩ := taggedDate_accepts_iff.1 haccepts
      rw [hs, List.drop_left] at h
      unfold parse? at h
      split at h
      · rename_i hfields
        subst h
        obtain ⟨date, hour, minute, second, nanos, hspells, hcivil⟩ :=
          Reader.spells_of_fields hfields hshaped
        exact ⟨text, date, hour, minute, second, nanos, hspells, hs, hcivil⟩
      · cases h
    · cases h
  · rintro ⟨text, date, hour, minute, second, nanos, hspells, hs, hcivil⟩
    have hyear := year_bounds_of_ofCivil? hcivil
    rw [untag?, if_pos (taggedDate_accepts_iff.2 ⟨text, hspells.shaped, hs⟩), hs, List.drop_left,
      parse?, Reader.fields_apply hspells (by omega)]
    exact hcivil

/-- Digits of other scripts look like a date and are read as none. -/
example : taggedDate.accepts "FLEXEL|\u0662\u0660\u0662\u0664-01-02T03:04:05Z".toList = true ∧
    untag? "FLEXEL|\u0662\u0660\u0662\u0664-01-02T03:04:05Z" = none := by
  decide +kernel

end Timestamp
end DocStore
