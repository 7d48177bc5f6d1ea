/-
Day numbers and dates determine each other: the date of a day number exists in the calendar and
has that day number, and a date that exists in the calendar is the date of its day number.
-/
import DocStore.Time.Calendar
import Mathlib.Tactic

namespace DocStore.Calendar

/-! ## Years -/

/-- A day lies in its year. -/
theorem yearOfDay_spec (day : Int) :
    daysBeforeYear (yearOfDay day) ≤ day ∧ day < daysBeforeYear (yearOfDay day + 1) := by
  -- the guess is the year on average, and leap days are early or late by less than a year
  unfold yearOfDay
  simp only
  split_ifs with hlow hhigh
  · rw [Int.sub_add_cancel]
    refine ⟨?_, hlow⟩
    unfold daysBeforeYear
    omega
  · refine ⟨hhigh, ?_⟩
    unfold daysBeforeYear
    omega
  · exact ⟨not_lt.1 hlow, not_le.1 hhigh⟩

/-- Of two different years the earlier one ends before the later one begins. -/
theorem daysBeforeYear_succ_le {year later : Int} (h : year < later) :
    daysBeforeYear (year + 1) ≤ daysBeforeYear later := by
  unfold daysBeforeYear
  omega

/-- A day lies in one year only. -/
theorem yearOfDay_eq {year day : Int} (hfirst : daysBeforeYear year ≤ day)
    (hlast : day < daysBeforeYear (year + 1)) : yearOfDay day = year := by
  obtain ⟨hlow, hhigh⟩ := yearOfDay_spec day
  rcases lt_trichotomy (yearOfDay day) year with h | h | h
  · have := daysBeforeYear_succ_le h
    omega
  · exact h
  · have := daysBeforeYear_succ_le h
    omega

theorem sum_monthLengths (year : Int) :
    ((monthLengths year).sum : Int) = daysBeforeYear (year + 1) - daysBeforeYear year := by
  have hsum : (monthLengths year).sum = if isLeap year then 366 else 365 := by
    unfold monthLengths
    split <;> rfl
  rw [hsum]
  unfold daysBeforeYear
  by_cases h4 : year % 4 = 0
  · by_cases h100 : year % 100 = 0
    · by_cases h400 : year % 400 = 0
      · simp only [isLeap, h4, h100, h400]
        simp
        omega
      · simp only [isLeap, h4, h100]
        simp [h400]
        omega
    · simp only [isLeap, h4]
      simp [h100]
      omega
  · simp only [isLeap]
    simp [h4]
    omega

/-! ## Months -/

/-- A day of a year lies in its month. -/
theorem splitDay_spec {lengths : List Nat} {day : Nat} (h : day < lengths.sum) :
    ∃ length, lengths[(splitDay lengths day).1]? = some length ∧ (splitDay lengths day).2 < length ∧
      (lengths.take (splitDay lengths day).1).sum + (splitDay lengths day).2 = day := by
  induction lengths generalizing day with
  | nil => simp at h
  | cons length rest ih =>
    by_cases hday : day < length
    · exact ⟨length, by simp [splitDay, hday]⟩
    · rw [List.sum_cons] at h
      obtain ⟨last, hget, hlt, hsum⟩ := ih (show day - length < rest.sum by omega)
      refine ⟨last, ?_⟩
      simp only [splitDay, hday, if_false, List.getElem?_cons_succ, List.take_succ_cons,
        List.sum_cons]
      exact ⟨hget, hlt, by omega⟩

/-- A day of a month is found in that month. -/
theorem splitDay_take_sum_add {lengths : List Nat} {month within length : Nat}
    (hget : lengths[month]? = some length) (hlt : within < length) :
    splitDay lengths ((lengths.take month).sum + within) = (month, within) := by
  induction lengths generalizing month with
  | nil => simp at hget
  | cons first rest ih =>
    cases month with
    | zero =>
      obtain rfl : first = length := by simpa using hget
      simp [splitDay, hlt]
    | succ month =>
      rw [List.getElem?_cons_succ] at hget
      have hskip : (((first :: rest).take (month + 1)).sum + within) - first =
          (rest.take month).sum + within := by
        simp only [List.take_succ_cons, List.sum_cons]
        omega
      have hbeyond : ¬ ((first :: rest).take (month + 1)).sum + within < first := by
        simp only [List.take_succ_cons, List.sum_cons]
        omega
      rw [splitDay, if_neg hbeyond, hskip, ih hget]

theorem sum_take_add_lt {lengths : List Nat} {month within length : Nat}
    (hget : lengths[month]? = some length) (hlt : within < length) :
    (lengths.take month).sum + within < lengths.sum := by
  obtain ⟨hmonth, rfl⟩ := List.getElem?_eq_some_iff.1 hget
  have hsplit := List.sum_take_add_sum_drop lengths month
  have hdrop := List.drop_eq_getElem_cons hmonth
  rw [hdrop, List.sum_cons] at hsplit
  omega

theorem daysBeforeMonth_eq (year : Int) (month : Nat) :
    daysBeforeMonth year month = ((monthLengths year).take (month - 1)).sum := by
  rw [daysBeforeMonth, List.sum_eq_foldl]

/-! ## Dates -/

namespace Date

/-- The date of a day number exists and has that number. -/
theorem ofDays_spec (days : Int) :
    (ofDays days).isValid = true ∧ (ofDays days).toDays = days := by
  obtain ⟨hlow, hhigh⟩ := yearOfDay_spec days
  have hsum := sum_monthLengths (yearOfDay days)
  have hday : (days - daysBeforeYear (yearOfDay days)).toNat <
      (monthLengths (yearOfDay days)).sum := by
    omega
  obtain ⟨length, hget, hlt, hday⟩ := splitDay_spec hday
  constructor
  · simp [isValid, ofDays, hget]
    omega
  · simp only [toDays, ofDays, daysBeforeMonth_eq, Nat.add_sub_cancel]
    omega

/-- What a date of the calendar has: a month and a day of it, both counted from one. -/
theorem exists_length_of_isValid {date : Date} (h : date.isValid = true) :
    ∃ length, (monthLengths date.year)[date.month - 1]? = some length ∧
      1 ≤ date.month ∧ 1 ≤ date.day ∧ date.day ≤ length := by
  simp only [isValid, Bool.and_eq_true, decide_eq_true_eq] at h
  obtain ⟨⟨hmonth, hday⟩, hlast⟩ := h
  cases hget : (monthLengths date.year)[date.month - 1]? with
  | none =>
    rw [hget] at hlast
    cases hlast
  | some length =>
    rw [hget] at hlast
    exact ⟨length, rfl, hmonth, hday, of_decide_eq_true hlast⟩

theorem bounds_of_isValid {date : Date} (h : date.isValid) :
    1 ≤ date.month ∧ date.month ≤ 12 ∧ 1 ≤ date.day ∧ date.day ≤ 31 := by
  obtain ⟨length, hget, hmonth, hday, hlast⟩ := exists_length_of_isValid h
  have hlt : date.month - 1 < 12 := (List.getElem?_eq_some_iff.1 hget).1
  have hlong : ∀ l ∈ monthLengths date.year, l ≤ 31 := by
    unfold monthLengths
    split <;> decide
  have := hlong length (List.mem_of_getElem? hget)
  omega

/-- A date lies in its year. -/
theorem toDays_bounds {date : Date} (h : date.isValid = true) :
    daysBeforeYear date.year ≤ date.toDays ∧ date.toDays < daysBeforeYear (date.year + 1) := by
  obtain ⟨length, hget, hmonth, hday, hlast⟩ := exists_length_of_isValid h
  have hwithin := sum_take_add_lt hget (show date.day - 1 < length by omega)
  have hsum := sum_monthLengths date.year
  rw [toDays, daysBeforeMonth_eq]
  omega

/-- A day that is not before a year belongs to no earlier one. -/
theorem le_year {date : Date} (h : date.isValid = true) {year : Int}
    (hdays : daysBeforeYear year ≤ date.toDays) : year ≤ date.year := by
  obtain ⟨-, hhigh⟩ := toDays_bounds h
  by_contra hyear
  have := daysBeforeYear_succ_le (not_le.1 hyear)
  omega

/-- A day before a year belongs to an earlier one. -/
theorem year_lt {date : Date} (h : date.isValid = true) {year : Int}
    (hdays : date.toDays < daysBeforeYear year) : date.year < year := by
  obtain ⟨hlow, -⟩ := toDays_bounds h
  by_contra hyear
  have : daysBeforeYear year ≤ daysBeforeYear date.year := by
    unfold daysBeforeYear
    omega
  omega

/-- A date is found from its day number. -/
theorem ofDays_toDays {date : Date} (h : date.isValid = true) : ofDays date.toDays = date := by
  obtain ⟨length, hget, hmonth, hday, hlast⟩ := exists_length_of_isValid h
  obtain ⟨hlow, hhigh⟩ := toDays_bounds h
  have hyear := yearOfDay_eq hlow hhigh
  have hday' : (date.toDays - daysBeforeYear date.year).toNat =
      ((monthLengths date.year).take (date.month - 1)).sum + (date.day - 1) := by
    rw [toDays, daysBeforeMonth_eq]
    omega
  have hsplit := splitDay_take_sum_add hget (show date.day - 1 < length by omega)
  simp only [ofDays, hyear, hday', hsplit, Nat.sub_add_cancel hmonth, Nat.sub_add_cancel hday]

/-- The day after: the next of the month, or else the first of the next month, or of the year. -/
def next (date : Date) : Date :=
  if { date with day := date.day + 1 }.isValid then { date with day := date.day + 1 }
  else if date.month < 12 then ⟨date.year, date.month + 1, 1⟩
  else ⟨date.year + 1, 1, 1⟩

/-- Months and days of a month are counted from one, up to as many as there are. -/
theorem isValid_iff {date : Date} : date.isValid = true ↔ 1 ≤ date.month ∧ 1 ≤ date.day ∧
    ∃ length, (monthLengths date.year)[date.month - 1]? = some length ∧ date.day ≤ length := by
  constructor
  · intro h
    obtain ⟨length, hget, hmonth, hday, hlast⟩ := exists_length_of_isValid h
    exact ⟨hmonth, hday, length, hget, hlast⟩
  · rintro ⟨hmonth, hday, length, hget, hlast⟩
    simp [isValid, hmonth, hday, hget, hlast]

theorem isValid_first {year : Int} {month : Nat} (hpos : 1 ≤ month) (hle : month ≤ 12) :
    (⟨year, month, 1⟩ : Date).isValid = true := by
  have hlong : ∀ length ∈ monthLengths year, 1 ≤ length := by
    unfold monthLengths
    split <;> decide
  have hlt : month - 1 < (monthLengths year).length := by
    show month - 1 < 12
    omega
  exact isValid_iff.2 ⟨hpos, le_rfl, _, List.getElem?_eq_getElem hlt,
    hlong _ (List.getElem_mem hlt)⟩

/-- The day after a day has the next number. -/
theorem next_spec {date : Date} (h : date.isValid = true) :
    date.next.isValid = true ∧ date.next.toDays = date.toDays + 1 := by
  obtain ⟨hmonth, hmonth', -, -⟩ := bounds_of_isValid h
  obtain ⟨length, hget, -, hday, hlast⟩ := exists_length_of_isValid h
  have hmonths : ((monthLengths date.year).take date.month).sum =
      ((monthLengths date.year).take (date.month - 1)).sum + length := by
    obtain ⟨hlt, rfl⟩ := List.getElem?_eq_some_iff.1 hget
    rw [← List.sum_take_succ _ _ hlt, Nat.sub_add_cancel hmonth]
  unfold next
  split_ifs with hnext hyear
  · exact ⟨hnext, by simp only [toDays]; omega⟩
  all_goals
    have hend : date.day = length := by
      by_contra hne
      exact hnext (isValid_iff.2 ⟨hmonth, Nat.le_add_left .., length, hget, by simp; omega⟩)
    refine ⟨isValid_first (by omega) (by omega), ?_⟩
    simp only [toDays, daysBeforeMonth_eq, Nat.add_sub_cancel]
  · omega
  · -- the twelve months are the year
    have hall : (monthLengths date.year).take date.month = monthLengths date.year :=
      List.take_of_length_le (by show 12 ≤ _; omega)
    have hsum := sum_monthLengths date.year
    rw [hall] at hmonths
    simp only [Nat.sub_self, List.take_zero, List.sum_nil]
    omega

end Date

end DocStore.Calendar
