/-
The whole calendar is written without loss. A date of the calendar with a time of day, leap seconds
included, is one point in time; the tagged form of that point shows exactly these parts, with a sign
before a year that has not four digits and with as few groups of fraction digits as say it all; and
the tagged form is read back as the point in time, so no two of them share one.
-/
import DocStore.Proofs.Time.Text

namespace DocStore.Timestamp

open Decimal (padded)

/-! ## Dates with a time of day -/

/-- A date and a time of day, to the nanosecond. Second 60 is the leap second after second 59. -/
structure Moment where
  date : Calendar.Date
  hour : Nat
  minute : Nat
  second : Nat
  nanos : Nat
  deriving DecidableEq

namespace Moment

/-- The date is one of the calendar, in a year of points in time, and the time one of a day. -/
structure Exists (moment : Moment) : Prop where
  isValid : moment.date.isValid = true
  first_le : -262143 ≤ moment.date.year
  le_last : moment.date.year ≤ 262142
  hour_le : moment.hour ≤ 23
  minute_le : moment.minute ≤ 59
  second_le : moment.second ≤ 60
  nanos_lt : moment.nanos < 1000000000

/-- The seconds since 1970, to which a leap second adds nothing. -/
def seconds (moment : Moment) : Int :=
  (moment.date.toDays - epochDay) * 86400 + moment.hour * 3600 + moment.minute * 60 +
    min moment.second 59

/-- The nanoseconds since then, of which a leap second makes a second more. -/
def subsecond (moment : Moment) : Nat :=
  if moment.second = 60 then 1000000000 + moment.nanos else moment.nanos

/-- The written form: each part in its digits. -/
def text (moment : Moment) : String :=
  String.ofList (yearText moment.date.year ++ '-' :: padded 2 moment.date.month ++
    '-' :: padded 2 moment.date.day ++ 'T' :: padded 2 moment.hour ++
    ':' :: padded 2 moment.minute ++ ':' :: padded 2 moment.second ++
    '.' :: fractionText moment.nanos ++ ['Z'])

/-- The moment is the date and the time of day of a point in time. -/
def Names (moment : Moment) (t : Timestamp) : Prop :=
  t.seconds = moment.seconds ∧ t.nanos = moment.subsecond

section
variable {moment : Moment} (h : moment.Exists)

include h

/-- A date of the calendar with a time of day is one of a point in time. -/
theorem Exists.isNamed : ∃ t, moment.Names t := by
  obtain ⟨hvalid, hfirst, hlast, hhour, hminute, hsecond, hnanos⟩ := h
  obtain ⟨hlow, hhigh⟩ := Calendar.Date.toDays_bounds hvalid
  have hlow' : Calendar.daysBeforeYear (-262143) ≤ moment.date.toDays := by
    unfold Calendar.daysBeforeYear at hlow ⊢
    omega
  have hhigh' : moment.date.toDays < Calendar.daysBeforeYear 262143 := by
    unfold Calendar.daysBeforeYear at hhigh ⊢
    omega
  have hsubsecond : moment.subsecond < 2000000000 ∧
      (1000000000 ≤ moment.subsecond → moment.second = 60) := by
    unfold subsecond
    split <;> omega
  refine ⟨⟨moment.seconds, moment.subsecond, ?_, ?_, hsubsecond.1, fun hleap => ?_⟩, rfl, rfl⟩ <;>
    unfold seconds
  · omega
  · omega
  · have := hsubsecond.2 hleap
    omega

/-- What is written for a point in time is its date and its time of day. -/
theorem Exists.text_eq {t : Timestamp} (hnames : moment.Names t) : t.text = moment.text := by
  obtain ⟨hvalid, -, -, hhour, hminute, hsecond, hlt⟩ := h
  obtain ⟨hseconds, hnanos⟩ := hnames
  unfold seconds at hseconds
  unfold subsecond at hnanos
  have hdate : t.date = moment.date := by
    have hdays : t.seconds / 86400 + epochDay = moment.date.toDays := by omega
    rw [Timestamp.date, hdays, Calendar.Date.ofDays_toDays hvalid]
  have htime : t.secondOfDay = moment.hour * 3600 + moment.minute * 60 + min moment.second 59 := by
    unfold secondOfDay
    omega
  have hhour' : t.secondOfDay / 3600 = moment.hour := by omega
  have hminute' : t.secondOfDay / 60 % 60 = moment.minute := by omega
  have hsecond' : (if 1000000000 ≤ t.nanos then 60 else t.secondOfDay % 60) = moment.second := by
    split_ifs at hnanos ⊢ <;> omega
  have hfraction : t.nanos % 1000000000 = moment.nanos := by
    split at hnanos <;> omega
  simp only [Timestamp.text, Timestamp.chars, text, hdate, hhour', hminute', hsecond', hfraction]

end

end Moment

/-- Every point in time has a date of the calendar and a time of day. -/
theorem exists_moment (t : Timestamp) : ∃ moment : Moment, moment.Exists ∧ moment.Names t := by
  obtain ⟨hvalid, hdays⟩ := Calendar.Date.ofDays_spec (t.seconds / 86400 + epochDay)
  have hfirst := t.first_le
  have hend := t.lt_end
  have hnanos := t.nanos_lt
  have htime : (t.secondOfDay : Int) = t.seconds % 86400 := Int.toNat_of_nonneg (by omega)
  refine ⟨⟨t.date, t.secondOfDay / 3600, t.secondOfDay / 60 % 60, t.writtenSecond,
    t.nanos % 1000000000⟩, ⟨hvalid, ?_, ?_, ?_, ?_, ?_, ?_⟩, ?_, ?_⟩
  · refine Calendar.Date.le_year hvalid ?_
    rw [hdays]
    omega
  · refine Int.lt_add_one_iff.1 (Calendar.Date.year_lt hvalid ?_)
    rw [hdays]
    show _ < Calendar.daysBeforeYear 262143
    omega
  · show t.secondOfDay / 3600 ≤ 23
    omega
  · show t.secondOfDay / 60 % 60 ≤ 59
    omega
  · show t.writtenSecond ≤ 60
    unfold writtenSecond
    split <;> omega
  · exact Nat.mod_lt _ (by decide)
  · have hleap := t.leap
    unfold writtenSecond
    simp only [Moment.seconds, date, hdays]
    split_ifs <;> omega
  · unfold writtenSecond
    simp only [Moment.subsecond]
    split_ifs <;> omega

/-- A date and a time of day are read as the point in time that they name, if they exist. -/
theorem Moment.ofCivil?_eq_some_iff {moment : Moment} (hnanos : moment.nanos < 1000000000)
    {t : Timestamp} :
    ofCivil? moment.date moment.hour moment.minute moment.second moment.nanos = some t ↔
      moment.Exists ∧ moment.Names t := by
  have hparts : moment.second ≤ 60 →
      (if moment.second = 60 then
          ofParts? ((moment.date.toDays - epochDay) * 86400 + moment.hour * 3600 +
            moment.minute * 60 + 59) (moment.nanos + 1000000000)
        else ofParts? ((moment.date.toDays - epochDay) * 86400 + moment.hour * 3600 +
            moment.minute * 60 + moment.second) moment.nanos) =
        ofParts? moment.seconds moment.subsecond := by
    intro hsecond
    unfold seconds subsecond
    split_ifs <;> congr 1 <;> omega
  constructor
  · intro h
    have hyear := year_bounds_of_ofCivil? h
    unfold ofCivil? at h
    split at h
    · rename_i hcivil
      simp only [Bool.and_eq_true, decide_eq_true_eq] at hcivil
      obtain ⟨⟨⟨hvalid, hhour⟩, hminute⟩, hsecond⟩ := hcivil
      exact ⟨⟨hvalid, hyear.1, hyear.2, hhour, hminute, hsecond, hnanos⟩,
        ofParts?_eq_some_iff.1 ((hparts hsecond).symm.trans h)⟩
    · cases h
  · rintro ⟨⟨hvalid, -, -, hhour, hminute, hsecond, -⟩, hnames⟩
    rw [ofCivil?, if_pos (by simp [hvalid, hhour, hminute, hsecond])]
    exact (hparts hsecond).trans (ofParts?_eq_some_iff.2 hnames)

/-- The fraction has three digits where they suffice and nine otherwise, and zeros after the three
make them nanoseconds. -/
theorem fractionText_spec {nanos : Nat} (h : nanos < 1000000000) :
    (fractionText nanos).length = (if nanos % 1000000 = 0 then 3 else 9) ∧
      Decimal.value (fractionText nanos) * 10 ^ (9 - (fractionText nanos).length) = nanos := by
  unfold fractionText
  split
  · have hlength : (padded 3 (nanos / 1000000)).length = 3 :=
      Decimal.length_padded (by omega) (by decide)
    rw [hlength, Decimal.value_padded]
    omega
  · have hlength : (padded 9 nanos).length = 9 := Decimal.length_padded h (by decide)
    rw [hlength, Decimal.value_padded]
    omega

theorem tagged_eq (t : Timestamp) : t.tagged = tag ++ t.text := by
  rw [tagged, text, String.ofList_append, String.ofList_toList]

/-- The tagged form is read back as the point in time, so different points in time have different
ones. Every date of the calendar with a time of day is that of a point in time and every point in
time has one, which is what the tagged form shows, milliseconds standing for nanoseconds only where
nothing is lost. -/
theorem tagged_form_is_lossless :
    (∀ t : Timestamp, untag? t.tagged = some t) ∧
    (∀ s t : Timestamp, s.tagged = t.tagged → s = t) ∧
    (∀ t : Timestamp, ∃ moment : Moment, moment.Exists ∧ moment.Names t) ∧
    (∀ moment : Moment, moment.Exists → (∃ t, moment.Names t) ∧
      ∀ t, moment.Names t → t.tagged = "FLEXEL|" ++ moment.text) ∧
    ∀ nanos, nanos < 1000000000 →
      (fractionText nanos).length = (if nanos % 1000000 = 0 then 3 else 9) ∧
      Decimal.value (fractionText nanos) * 10 ^ (9 - (fractionText nanos).length) = nanos := by
  refine ⟨untag?_tagged, fun s t h => ?_, exists_moment, fun moment h => ⟨h.isNamed, ?_⟩,
    fun _ => fractionText_spec⟩
  · have hread := s.untag?_tagged
    rw [h, t.untag?_tagged] at hread
    exact (Option.some.inj hread).symm
  · intro t hnames
    rw [tagged_eq, h.text_eq hnames]
    rfl

/-- A nanosecond into the leap second that ends the last year. -/
def lastSecond : Moment := ⟨⟨262142, 12, 31⟩, 23, 59, 60, 1⟩

theorem lastSecond_is_lossless : lastSecond.Exists ∧ ∃ t : Timestamp, lastSecond.Names t ∧
    t.tagged = "FLEXEL|+262142-12-31T23:59:60.000000001Z" ∧
    untag? "FLEXEL|+262142-12-31T23:59:60.000000001Z" = some t := by
  have hexists : lastSecond.Exists := by constructor <;> decide
  obtain ⟨⟨t, hnames⟩, hshown⟩ := tagged_form_is_lossless.2.2.2.1 lastSecond hexists
  have htagged : t.tagged = "FLEXEL|+262142-12-31T23:59:60.000000001Z" :=
    (hshown t hnames).trans (by decide +kernel)
  exact ⟨hexists, t, hnames, htagged, htagged ▸ tagged_form_is_lossless.1 t⟩

end DocStore.Timestamp
