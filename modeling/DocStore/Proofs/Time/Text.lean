/-
Points in time are read back from their tagged form, leap seconds and years beyond four digits
included, and the form without the tag is taken for no date.
-/
import DocStore.Proofs.Time.Stages

namespace DocStore.Timestamp

open Decimal (padded)

/-! ## Reading points in time -/

/-- The second that is written for a point in time; a leap second is second 60. -/
def writtenSecond (t : Timestamp) : Nat :=
  if 1000000000 ≤ t.nanos then 60 else t.secondOfDay % 60

/-- A point in time is the one of its date and its time of day. -/
theorem ofCivil?_date (t : Timestamp) :
    ofCivil? t.date (t.secondOfDay / 3600) (t.secondOfDay / 60 % 60) t.writtenSecond
      (t.nanos % 1000000000) = some t := by
  obtain ⟨hvalid, hdays⟩ := Calendar.Date.ofDays_spec (t.seconds / 86400 + epochDay)
  have htime : (t.secondOfDay : Int) = t.seconds % 86400 := Int.toNat_of_nonneg (by omega)
  have hsecond : t.writtenSecond ≤ 60 := by
    unfold writtenSecond
    split <;> omega
  rw [ofCivil?, if_pos (by simp [date, hvalid, hsecond]; omega)]
  simp only [date, hdays]
  unfold writtenSecond
  split
  · rename_i hleap
    have hlast := t.leap hleap
    have hlt := t.nanos_lt
    rw [if_pos rfl]
    refine Eq.trans ?_ t.ofParts?_seconds
    congr 1 <;> omega
  · rw [if_neg (by omega)]
    refine Eq.trans ?_ t.ofParts?_seconds
    congr 1 <;> omega

theorem secondOfDay_lt (t : Timestamp) : t.secondOfDay < 86400 := by
  unfold secondOfDay
  omega

/-- What is written for a point in time spells its date and its time of day. -/
theorem spells_chars (t : Timestamp) : Spells t.chars t.date (t.secondOfDay / 3600)
    (t.secondOfDay / 60 % 60) t.writtenSecond (t.nanos % 1000000000) := by
  have hday : 1 ≤ t.date.month ∧ t.date.month ≤ 12 ∧ 1 ≤ t.date.day ∧ t.date.day ≤ 31 :=
    Calendar.Date.bounds_of_isValid (Calendar.Date.ofDays_spec _).1
  have htime := t.secondOfDay_lt
  have hsecond : t.writtenSecond < 100 := by
    unfold writtenSecond
    split <;> omega
  have htwo : ∀ {n}, n < 100 → Digits 2 (padded 2 n) n := fun h => .padded (by decide) h
  have hspells := Spells.intro (spellsYear_yearText t.date.year)
    (htwo (show t.date.month < 100 by omega)) (htwo (show t.date.day < 100 by omega))
    (htwo (show t.secondOfDay / 3600 < 100 by omega))
    (htwo (show t.secondOfDay / 60 % 60 < 100 by omega)) (htwo hsecond)
    (spellsFraction_fractionText (show t.nanos % 1000000000 < 1000000000 by omega))
  unfold chars
  simp only [List.append_assoc, List.cons_append] at hspells ⊢
  exact hspells

/-- A point in time is read back from its tagged form. -/
theorem untag?_tagged (t : Timestamp) : untag? t.tagged = some t := by
  rw [untag?_eq_readTagged?, readTagged?_eq_some_iff]
  exact ⟨_, _, _, _, _, _, t.spells_chars, String.toList_ofList, t.ofCivil?_date⟩

/-- A text that does not start like the tag is no tagged date. -/
theorem untag?_cons {c : Char} (hc : c ≠ 'F') (cs : List Char) :
    untag? (String.ofList (c :: cs)) = none := by
  rw [untag?, String.toList_ofList, if_neg]
  intro haccepts
  obtain ⟨text, -, hs⟩ := taggedDate_accepts_iff.1 haccepts
  exact hc (List.cons.inj hs).1

/-- Without the tag the written form is no date. -/
theorem untag?_text (t : Timestamp) : untag? t.text = none := by
  obtain ⟨c, cs, hcs, hfirst⟩ := (spellsYear_yearText t.date.year).exists_cons
  have hne : c ≠ 'F' := by
    rintro rfl
    revert hfirst
    decide
  have hchars : ∃ rest, t.chars = c :: rest := by
    simp only [chars, hcs, List.append_assoc, List.cons_append]
    exact ⟨_, rfl⟩
  obtain ⟨rest, hrest⟩ := hchars
  rw [text, hrest, untag?_cons hne]

end DocStore.Timestamp
