/-
The parts of a written point in time. Each part has its spellings, and there is a strict reader that
takes exactly those, up to a character that cannot go on with them: numbers of so many ASCII digits,
years in four digits or in four and more behind a sign, fractions of a second of one to nine digits.
What is written for a part is one of its spellings.
-/
import DocStore.Proofs.Number.Decimal
import DocStore.Time.Text

namespace DocStore.Timestamp

open Decimal (padded length_padded isDigit_of_mem_padded)

/-! ## Spellings -/

/-- A text of so many ASCII digits, which write the number `n`. -/
structure Digits (count : Nat) (text : List Char) (n : Nat) : Prop where
  length_eq : text.length = count
  isDigit : ∀ c ∈ text, c.isDigit
  value_eq : Decimal.value text = n

/-- A year in four digits, or in four digits or more behind a sign. -/
inductive SpellsYear : List Char → Int → Prop
  | plain {text : List Char} {n : Nat} (h : Digits 4 text n) : SpellsYear text n
  | plus {count n : Nat} {text : List Char} (hcount : 4 ≤ count) (h : Digits count text n) :
    SpellsYear ('+' :: text) n
  | minus {count n : Nat} {text : List Char} (hcount : 4 ≤ count) (h : Digits count text n) :
    SpellsYear ('-' :: text) (-n)

/-- The nanoseconds of a fraction of a second, which is missing or has one to nine digits behind a
point; so many zeros are thought behind them that there are nine. -/
inductive SpellsFraction : List Char → Nat → Prop
  | missing : SpellsFraction [] 0
  | point {text : List Char} {n : Nat} (hpos : 1 ≤ text.length)
    (h : Digits 9 (text ++ List.replicate (9 - text.length) '0') n) : SpellsFraction ('.' :: text) n

/-- A date and a time of day, `YYYY-MM-DDThh:mm:ss` with a fraction of a second, and `Z`. -/
inductive Spells : List Char → Calendar.Date → Nat → Nat → Nat → Nat → Prop
  | intro {year month day hour minute second fraction : List Char} {y : Int} {m d h i s n : Nat}
    (hyear : SpellsYear year y) (hmonth : Digits 2 month m) (hday : Digits 2 day d)
    (hhour : Digits 2 hour h) (hminute : Digits 2 minute i) (hsecond : Digits 2 second s)
    (hfraction : SpellsFraction fraction n) :
    Spells (year ++ '-' :: (month ++ '-' :: (day ++ 'T' :: (hour ++ ':' :: (minute ++
      ':' :: (second ++ (fraction ++ ['Z']))))))) ⟨y, m, d⟩ h i s n

/-- Digits start with a digit. -/
theorem Digits.exists_cons {count n : Nat} {text : List Char} (h : Digits count text n)
    (hcount : 0 < count) : ∃ c cs, text = c :: cs ∧ c.isDigit := by
  obtain ⟨c, cs, rfl⟩ := List.exists_cons_of_length_pos (h.length_eq.symm ▸ hcount)
  exact ⟨c, cs, rfl, h.isDigit c List.mem_cons_self⟩

/-- A year starts with a digit or a sign. -/
theorem SpellsYear.exists_cons {text : List Char} {y : Int} (h : SpellsYear text y) :
    ∃ c cs, text = c :: cs ∧ (c.isDigit ∨ c = '+' ∨ c = '-') := by
  cases h with
  | plain h =>
    obtain ⟨c, cs, hcs, hdigit⟩ := h.exists_cons (by decide)
    exact ⟨c, cs, hcs, .inl hdigit⟩
  | plus => exact ⟨_, _, rfl, .inr (.inl rfl)⟩
  | minus => exact ⟨_, _, rfl, .inr (.inr rfl)⟩

/-- The digits behind the point are brought to nanoseconds. -/
theorem spellsFraction_of_run {run : List Char} (hlength : 1 ≤ run.length ∧ run.length ≤ 9)
    (hrun : ∀ c ∈ run, c.isDigit) :
    SpellsFraction ('.' :: run) (Decimal.value run * 10 ^ (9 - run.length)) := by
  refine .point hlength.1 ⟨?_, fun c hc => ?_, Decimal.value_append_replicate ..⟩
  · rw [List.length_append, List.length_replicate]
    omega
  · rcases List.mem_append.1 hc with hc | hc
    · exact hrun c hc
    · exact List.eq_of_mem_replicate hc ▸ rfl

/-- A fraction is missing, or it is a run of digits behind a point. -/
theorem SpellsFraction.missing_or_run {text : List Char} {n : Nat} (h : SpellsFraction text n) :
    (text = [] ∧ n = 0) ∨ ∃ run, text = '.' :: run ∧ (1 ≤ run.length ∧ run.length ≤ 9) ∧
      (∀ c ∈ run, c.isDigit) ∧ n = Decimal.value run * 10 ^ (9 - run.length) := by
  cases h with
  | missing => exact .inl ⟨rfl, rfl⟩
  | @point run _ hpos h =>
    obtain ⟨hlength, hdigits, rfl⟩ := h
    rw [List.length_append, List.length_replicate] at hlength
    exact .inr ⟨run, rfl, ⟨hpos, by omega⟩, fun c hc => hdigits c (List.mem_append_left _ hc),
      Decimal.value_append_replicate ..⟩

theorem SpellsFraction.lt {text : List Char} {n : Nat} (h : SpellsFraction text n) :
    n < 1000000000 := by
  cases h with
  | missing => decide
  | point hpos h =>
    have hlt := Decimal.value_lt_pow h.isDigit
    rw [h.length_eq, h.value_eq] at hlt
    exact hlt

theorem Spells.nanos_lt {text : List Char} {date : Calendar.Date} {hour minute second nanos : Nat}
    (h : Spells text date hour minute second nanos) : nanos < 1000000000 := by
  obtain ⟨-, -, -, -, -, -, hfraction⟩ := h
  exact hfraction.lt

/-! ## The strict reader -/

namespace Reader

/-- Reads the text `cs`. -/
def chars : List Char → Reader Unit
  | [] => pure ()
  | c :: cs => do char c; chars cs

/-- Reads exactly `count` ASCII digits. -/
def digits (count : Nat) : Reader Nat := fun cs =>
  let front := cs.take count
  if front.length = count ∧ front.all Char.isDigit then some (Decimal.value front, cs.drop count)
  else none

/-- Reads all the ASCII digits in front. -/
def digitRun : Reader (List Char) := fun cs =>
  some (cs.takeWhile Char.isDigit, cs.dropWhile Char.isDigit)

/-- Reads a year: four digits, or a sign and at least four. -/
def year : Reader Int := fun cs =>
  match cs with
  | '+' :: rest => signed 1 rest
  | '-' :: rest => signed (-1) rest
  | _ => (do return ((← digits 4) : Int) : Reader Int) cs
where
  /-- Reads the digits after a sign. -/
  signed (sign : Int) : Reader Int := do
    let run ← digitRun
    if 4 ≤ run.length then return sign * Decimal.value run else failure

/-- Reads a fraction of a second in nanoseconds: nothing, or a point and one to nine digits. -/
def fraction : Reader Nat := fun cs =>
  match cs with
  | '.' :: rest => point rest
  | _ => some (0, cs)
where
  /-- Reads the digits after the point. -/
  point : Reader Nat := do
    let run ← digitRun
    if 1 ≤ run.length ∧ run.length ≤ 9 then
      return Decimal.value run * Nat.pow 10 (9 - run.length)
    else failure

/-- Reads the written form of a point in time. -/
def timestamp : Reader (Option Timestamp) := do
  let year ← year
  char '-'
  let month ← digits 2
  char '-'
  let day ← digits 2
  char 'T'
  let hour ← digits 2
  char ':'
  let minute ← digits 2
  char ':'
  let second ← digits 2
  let nanos ← fraction
  char 'Z'
  return ofCivil? ⟨year, month, day⟩ hour minute second nanos

end Reader

/-- The point in time that the strict reader takes from behind the tag, up to the end. -/
def readTagged? (s : String) : Option Timestamp :=
  match (do Reader.chars tag.toList; Reader.timestamp : Reader (Option Timestamp)) s.toList with
  | some (t?, []) => t?
  | _ => none

/-! ## What the strict reader takes -/

namespace Reader

variable {α β : Type} {cs rest : List Char}

/-- What reads in sequence. -/
theorem bind_apply {x : Reader α} {a : α} (h : x cs = some (a, rest)) (f : α → Reader β) :
    (x >>= f) cs = f a rest := by
  show (x cs >>= _) = _
  rw [h]
  rfl

theorem bind_eq_some_iff {x : Reader α} {f : α → Reader β} {result : β × List Char} :
    (x >>= f) cs = some result ↔ ∃ a mid, x cs = some (a, mid) ∧ f a mid = some result := by
  show (x cs).bind (fun read => f read.1 read.2) = _ ↔ _
  rw [Option.bind_eq_some_iff]
  exact Prod.exists

theorem char_eq_some_iff {c : Char} {u : Unit} : char c cs = some (u, rest) ↔ cs = c :: rest := by
  cases cs with
  | nil => simp [char]
  | cons d cs =>
    simp only [char, List.cons.injEq]
    split <;> simp_all [eq_comm]

theorem char_apply (c : Char) (rest : List Char) : char c (c :: rest) = some ((), rest) :=
  char_eq_some_iff.2 rfl

theorem chars_eq_some_iff {text : List Char} {u : Unit} :
    chars text cs = some (u, rest) ↔ cs = text ++ rest := by
  induction text generalizing cs with
  | nil =>
    show some ((), cs) = _ ↔ _
    simp
  | cons c text ih =>
    show (char c >>= fun _ => chars text) cs = _ ↔ _
    simp only [bind_eq_some_iff, char_eq_some_iff, ih, List.cons_append]
    exact ⟨fun ⟨_, _, hcs, hmid⟩ => hmid ▸ hcs, fun hcs => ⟨(), _, hcs, rfl⟩⟩

theorem chars_apply (text rest : List Char) : chars text (text ++ rest) = some ((), rest) :=
  chars_eq_some_iff.2 rfl

theorem digits_eq_some_iff {count n : Nat} :
    digits count cs = some (n, rest) ↔ ∃ text, Digits count text n ∧ cs = text ++ rest := by
  unfold digits
  constructor
  · intro h
    simp only at h
    split_ifs at h with hfront
    cases h
    exact ⟨cs.take count, ⟨hfront.1, List.all_eq_true.1 hfront.2, rfl⟩,
      (List.take_append_drop count cs).symm⟩
  · rintro ⟨text, ⟨rfl, hdigits, rfl⟩, rfl⟩
    simp only [List.take_left, List.drop_left]
    rw [if_pos ⟨trivial, List.all_eq_true.2 hdigits⟩]

theorem digitRun_eq_some_iff {run : List Char} : digitRun cs = some (run, rest) ↔
    (∀ c ∈ run, c.isDigit) ∧ Decimal.NoDigitFirst rest ∧ cs = run ++ rest := by
  constructor
  · intro h
    cases h
    refine ⟨List.all_eq_true.1 List.all_takeWhile, fun c hc => ?_,
      List.takeWhile_append_dropWhile.symm⟩
    have hhead := List.head?_dropWhile_not Char.isDigit cs
    rw [Option.mem_def.1 hc] at hhead
    simpa using hhead
  · rintro ⟨hdigits, hrest, rfl⟩
    rw [digitRun, Decimal.takeWhile_digits hdigits hrest, Decimal.dropWhile_digits hdigits hrest]

theorem signed_eq_some_iff {sign y : Int} (hrest : Decimal.NoDigitFirst rest) :
    year.signed sign cs = some (y, rest) ↔ ∃ count text n, 4 ≤ count ∧ Digits count text n ∧
      y = sign * n ∧ cs = text ++ rest := by
  unfold year.signed
  rw [bind_eq_some_iff]
  constructor
  · rintro ⟨run, mid, hrun, hread⟩
    obtain ⟨hdigits, -, rfl⟩ := digitRun_eq_some_iff.1 hrun
    split_ifs at hread with hlong
    · cases hread
      exact ⟨run.length, run, _, hlong, ⟨rfl, hdigits, rfl⟩, rfl, rfl⟩
    · cases hread
  · rintro ⟨count, text, n, hcount, ⟨rfl, hdigits, rfl⟩, rfl, rfl⟩
    refine ⟨text, rest, digitRun_eq_some_iff.2 ⟨hdigits, hrest, rfl⟩, ?_⟩
    rw [if_pos hcount]
    rfl

theorem noDigitFirst_minus (rest : List Char) : Decimal.NoDigitFirst ('-' :: rest) := by
  rintro _ ⟨⟩
  rfl

/-- A year is read up to a character that is no digit. -/
theorem year_eq_some_iff {y : Int} (hrest : Decimal.NoDigitFirst rest) :
    year cs = some (y, rest) ↔ ∃ text, SpellsYear text y ∧ cs = text ++ rest := by
  constructor
  · intro h
    unfold year at h
    split at h
    · obtain ⟨count, text, n, hcount, htext, rfl, rfl⟩ := (signed_eq_some_iff hrest).1 h
      rw [one_mul]
      exact ⟨_, .plus hcount htext, rfl⟩
    · obtain ⟨count, text, n, hcount, htext, rfl, rfl⟩ := (signed_eq_some_iff hrest).1 h
      rw [neg_one_mul]
      exact ⟨_, .minus hcount htext, rfl⟩
    · obtain ⟨n, mid, hread, hpure⟩ := bind_eq_some_iff.1 h
      cases hpure
      obtain ⟨text, htext, rfl⟩ := digits_eq_some_iff.1 hread
      exact ⟨text, .plain htext, rfl⟩
  · rintro ⟨text, hspelled, rfl⟩
    cases hspelled with
    | @plain _ n htext =>
      -- the first of four digits is no sign
      obtain ⟨c, cs, rfl, hdigit⟩ := htext.exists_cons (by decide)
      unfold year
      split
      · rename_i heq
        cases heq
        cases hdigit
      · rename_i heq
        cases heq
        cases hdigit
      · exact bind_eq_some_iff.2 ⟨n, _, digits_eq_some_iff.2 ⟨_, htext, rfl⟩, rfl⟩
    | @plus count n text hcount htext =>
      exact (signed_eq_some_iff hrest).2 ⟨count, text, n, hcount, htext, (one_mul _).symm, rfl⟩
    | @minus count n text hcount htext =>
      exact (signed_eq_some_iff hrest).2 ⟨count, text, n, hcount, htext, (neg_one_mul _).symm, rfl⟩

/-- A fraction is read up to the zone. -/
theorem fraction_eq_some_iff {n : Nat} : fraction cs = some (n, 'Z' :: rest) ↔
    ∃ text, SpellsFraction text n ∧ cs = text ++ 'Z' :: rest := by
  have hzone : Decimal.NoDigitFirst ('Z' :: rest) := by
    rintro _ ⟨⟩
    rfl
  constructor
  · intro h
    unfold fraction at h
    split at h
    · obtain ⟨run, mid, hrun, hread⟩ := bind_eq_some_iff.1 h
      obtain ⟨hdigits, -, rfl⟩ := digitRun_eq_some_iff.1 hrun
      split_ifs at hread with hlength
      · cases hread
        exact ⟨'.' :: run, spellsFraction_of_run hlength hdigits, rfl⟩
      · cases hread
    · cases h
      exact ⟨[], .missing, rfl⟩
  · rintro ⟨text, hspelled, rfl⟩
    rcases hspelled.missing_or_run with ⟨rfl, rfl⟩ | ⟨run, rfl, hlength, hrun, rfl⟩
    · rfl
    · refine bind_eq_some_iff.2 ⟨run, _, digitRun_eq_some_iff.2 ⟨hrun, hzone, rfl⟩, ?_⟩
      rw [if_pos hlength]
      rfl

/-- The written form of a point in time is read if it is a spelling. -/
theorem timestamp_eq_some_iff {t? : Option Timestamp} : timestamp cs = some (t?, rest) ↔
    ∃ spelling date hour minute second nanos, Spells spelling date hour minute second nanos ∧
      cs = spelling ++ rest ∧ ofCivil? date hour minute second nanos = t? := by
  unfold timestamp
  constructor
  · intro h
    simp only [bind_eq_some_iff, char_eq_some_iff, digits_eq_some_iff] at h
    obtain ⟨y, _, hyear, _, _, rfl, m, _, ⟨month, hmonth, rfl⟩, _, _, rfl, d, _, ⟨day, hday, rfl⟩,
      _, _, rfl, h, _, ⟨hour, hhour, rfl⟩, _, _, rfl, i, _, ⟨minute, hminute, rfl⟩, _, _, rfl,
      s, _, ⟨second, hsecond, rfl⟩, n, _, hfraction, _, _, rfl, hcivil⟩ := h
    obtain ⟨year, hyear', rfl⟩ := (year_eq_some_iff (noDigitFirst_minus _)).1 hyear
    obtain ⟨fraction, hfraction', rfl⟩ := fraction_eq_some_iff.1 hfraction
    cases hcivil
    exact ⟨_, _, _, _, _, _, .intro hyear' hmonth hday hhour hminute hsecond hfraction', by simp,
      rfl⟩
  · rintro ⟨_, _, _, _, _, _, ⟨hyear, hmonth, hday, hhour, hminute, hsecond, hfraction⟩, rfl, rfl⟩
    simp only [List.append_assoc, List.cons_append, List.nil_append]
    -- part by part, as they are spelled
    rw [bind_apply ((year_eq_some_iff (noDigitFirst_minus _)).2 ⟨_, hyear, rfl⟩),
      bind_apply (char_apply _ _), bind_apply (digits_eq_some_iff.2 ⟨_, hmonth, rfl⟩),
      bind_apply (char_apply _ _), bind_apply (digits_eq_some_iff.2 ⟨_, hday, rfl⟩),
      bind_apply (char_apply _ _), bind_apply (digits_eq_some_iff.2 ⟨_, hhour, rfl⟩),
      bind_apply (char_apply _ _), bind_apply (digits_eq_some_iff.2 ⟨_, hminute, rfl⟩),
      bind_apply (char_apply _ _), bind_apply (digits_eq_some_iff.2 ⟨_, hsecond, rfl⟩),
      bind_apply (fraction_eq_some_iff.2 ⟨_, hfraction, rfl⟩), bind_apply (char_apply _ _)]
    rfl

end Reader

/-- The strict reader takes the tag and a spelling behind it. -/
theorem readTagged?_eq_some_iff {s : String} {t : Timestamp} : readTagged? s = some t ↔
    ∃ spelling date hour minute second nanos, Spells spelling date hour minute second nanos ∧
      s.toList = tag.toList ++ spelling ∧ ofCivil? date hour minute second nanos = some t := by
  unfold readTagged?
  constructor
  · intro h
    split at h
    · rename_i hread
      subst h
      obtain ⟨_, rest, htag, htimestamp⟩ := Reader.bind_eq_some_iff.1 hread
      obtain ⟨spelling, date, hour, minute, second, nanos, hspells, rfl, hcivil⟩ :=
        Reader.timestamp_eq_some_iff.1 htimestamp
      rw [List.append_nil] at htag
      exact ⟨spelling, date, hour, minute, second, nanos, hspells,
        Reader.chars_eq_some_iff.1 htag, hcivil⟩
    · cases h
  · rintro ⟨spelling, date, hour, minute, second, nanos, hspells, hs, hcivil⟩
    have htimestamp : Reader.timestamp spelling = some (some t, []) :=
      Reader.timestamp_eq_some_iff.2
        ⟨_, _, _, _, _, _, hspells, (List.append_nil _).symm, hcivil⟩
    rw [hs, Reader.bind_apply (Reader.chars_apply _ _), htimestamp]

/-! ## What is written -/

theorem Digits.padded {width n : Nat} (hwidth : 0 < width) (h : n < 10 ^ width) :
    Digits width (padded width n) n :=
  ⟨length_padded h hwidth, fun _ => isDigit_of_mem_padded, Decimal.value_padded width n⟩

theorem le_length_padded (width n : Nat) : width ≤ (padded width n).length := by
  rw [Decimal.padded, List.length_append, List.length_replicate]
  omega

theorem spellsYear_yearText (y : Int) : SpellsYear (yearText y) y := by
  have hdigits : Digits (padded 4 y.natAbs).length (padded 4 y.natAbs) y.natAbs :=
    ⟨rfl, fun _ => isDigit_of_mem_padded, Decimal.value_padded 4 _⟩
  unfold yearText
  split_ifs with hplain hneg
  · have hlt : y.toNat < 10 ^ 4 := by omega
    have hyear := SpellsYear.plain (.padded (by decide) hlt)
    rwa [Int.toNat_of_nonneg hplain.1] at hyear
  · have hyear := SpellsYear.minus (le_length_padded 4 _) hdigits
    rwa [Int.ofNat_natAbs_of_nonpos hneg.le, neg_neg] at hyear
  · have hyear := SpellsYear.plus (le_length_padded 4 _) hdigits
    rwa [Int.natAbs_of_nonneg (not_lt.1 hneg)] at hyear

theorem spellsFraction_fractionText {nanos : Nat} (h : nanos < 1000000000) :
    SpellsFraction ('.' :: fractionText nanos) nanos := by
  have hpoint : ∀ width n, 0 < width → width ≤ 9 → n < 10 ^ width → n * 10 ^ (9 - width) = nanos →
      SpellsFraction ('.' :: padded width n) nanos := by
    intro width n hpos hle hn hnanos
    have hlength := length_padded hn hpos
    have hdigits : ∀ c ∈ padded width n, c.isDigit := fun _ => isDigit_of_mem_padded
    have hrun := spellsFraction_of_run (by omega) hdigits
    rwa [Decimal.value_padded, hlength, hnanos] at hrun
  -- three digits if the rest are zeros, and all nine otherwise
  unfold fractionText
  split
  · exact hpoint 3 _ (by decide) (by decide) (by omega) (by omega)
  · exact hpoint 9 _ (by decide) (by decide) h (by omega)

end DocStore.Timestamp
