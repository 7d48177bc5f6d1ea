/-
The texts that are taken for dates. A text is a tagged date exactly if it is the tag followed by a
spelling of a date of the calendar with a time of day, to the last character, and then it is the
point in time of that date and time. A year is spelled in four digits, or in four or more behind a
sign; a fraction of a second in one to nine digits behind a point, zeros being added up to
nanoseconds; all digits are ASCII. What is read from a stored document differs from the document as
it stands in these texts only.
-/
import DocStore.Document.Codec
import DocStore.Proofs.Ranked
import DocStore.Proofs.Time.Moment

namespace DocStore.Timestamp

/-! ## Tagged texts -/

/-- The moment is one that exists, and the text is the tag and a spelling of it. -/
def Tags (s : String) (moment : Moment) : Prop :=
  moment.Exists ∧ ∃ spelling, s = "FLEXEL|" ++ String.ofList spelling ∧
    Spells spelling moment.date moment.hour moment.minute moment.second moment.nanos

/-- A text is read as a point in time exactly if it tags a date and a time of day that name it. -/
theorem untag?_eq_some_iff {s : String} {t : Timestamp} :
    untag? s = some t ↔ ∃ moment, Tags s moment ∧ moment.Names t := by
  have htext : ∀ spelling : List Char,
      s = "FLEXEL|" ++ String.ofList spelling ↔ s.toList = tag.toList ++ spelling := by
    intro spelling
    show s = tag ++ String.ofList spelling ↔ _
    rw [← String.toList_inj, String.toList_append, String.toList_ofList]
  rw [untag?_eq_readTagged?, readTagged?_eq_some_iff]
  simp only [Tags, htext]
  constructor
  · rintro ⟨spelling, date, hour, minute, second, nanos, hspells, hs, hcivil⟩
    have hnanos : (⟨date, hour, minute, second, nanos⟩ : Moment).nanos < 1000000000 :=
      hspells.nanos_lt
    obtain ⟨hexists, hnames⟩ := (Moment.ofCivil?_eq_some_iff hnanos).1 hcivil
    exact ⟨_, ⟨hexists, spelling, hs, hspells⟩, hnames⟩
  · rintro ⟨moment, ⟨hexists, spelling, hs, hspells⟩, hnames⟩
    have hcivil := (Moment.ofCivil?_eq_some_iff hexists.nanos_lt).2 ⟨hexists, hnames⟩
    exact ⟨spelling, _, _, _, _, _, hspells, hs, hcivil⟩

theorem untag?_eq_none_iff {s : String} : untag? s = none ↔ ∀ moment, ¬ Tags s moment := by
  constructor
  · intro h moment htags
    obtain ⟨t, hnames⟩ := htags.1.isNamed
    cases h.symm.trans (untag?_eq_some_iff.2 ⟨moment, htags, hnames⟩)
  · intro h
    rw [Option.eq_none_iff_forall_ne_some]
    intro t ht
    obtain ⟨moment, htags, -⟩ := untag?_eq_some_iff.1 ht
    exact h moment htags

example : untag? "FLEXEL|+02024-02-29T23:59:60.5Z" = ofParts? 1709251199 1500000000 := by
  decide +kernel

example : untag? "FLEXEL|2023-02-29T23:59:60.5Z" = none := by decide +kernel

end Timestamp

/-! ## Dates in documents -/

namespace Value

mutual

/-- The value with the dates that its strings tag in their place. -/
def revive : Value → Value
  | string s => reviveString s
  | array items => array (reviveItems items)
  | map fields => map (reviveFields fields)
  | other => other

def reviveItems : List Value → List Value
  | [] => []
  | item :: rest => item.revive :: reviveItems rest

def reviveFields : List (String × Value) → List (String × Value)
  | [] => []
  | (name, value) :: rest => (name, value.revive) :: reviveFields rest

end

theorem reviveFields_eq (fields : List (String × Value)) :
    reviveFields fields = fields.map (Prod.map id revive) := by
  induction fields with
  | nil => rfl
  | cons field rest ih => rw [reviveFields, ih]; rfl

theorem revive_ofFields (fields : List (String × Value)) :
    (ofFields fields).revive = ofFields (reviveFields fields) := by
  have hnames : ∀ name, utf8 (id name) = utf8 name := fun _ => rfl
  rw [ofFields, revive, reviveFields_eq, Ranked.map_ofList hnames, ← reviveFields_eq, ofFields]

mutual

/-- Reading dates where they are tagged is reading strings and reviving what was read. -/
theorem ofJson?_revive (json : Json) :
    ofJson? reviveString json = (ofJson? string json).map revive := by
  match json with
  | .null => rfl
  | .bool b => rfl
  | .number n =>
    have hnumber : (ofNumber n).revive = ofNumber n := by
      unfold ofNumber
      split
      · split <;> rfl
      · rfl
    simp only [ofJson?]
    split
    · rw [Option.map_some, hnumber]
    · rfl
  | .string s => cases s <;> rfl
  | .array items =>
    rw [ofJson?, ofJson?, ofJsonItems?_revive items, Option.map_map, Option.map_map]
    rfl
  | .object members =>
    rw [ofJson?, ofJson?, ofJsonMembers?_revive members, Option.map_map, Option.map_map]
    exact congrArg (Option.map · _) (funext fun fields => (revive_ofFields fields).symm)

theorem ofJsonItems?_revive (items : List Json) :
    ofJsonItems? reviveString items = (ofJsonItems? string items).map reviveItems := by
  match items with
  | [] => rfl
  | item :: rest =>
    rw [ofJsonItems?, ofJsonItems?, ofJson?_revive item, ofJsonItems?_revive rest]
    cases ofJson? string item with
    | none => rfl
    | some v => cases ofJsonItems? string rest <;> rfl

theorem ofJsonMembers?_revive (members : List (JsonString × Json)) :
    ofJsonMembers? reviveString members = (ofJsonMembers? string members).map reviveFields := by
  match members with
  | [] => rfl
  | (none, value) :: rest => rfl
  | (some name, value) :: rest =>
    rw [ofJsonMembers?, ofJsonMembers?, ofJson?_revive value, ofJsonMembers?_revive rest]
    cases ofJson? string value with
    | none => rfl
    | some v => cases ofJsonMembers? string rest <;> rfl

end

theorem reviveText?_eq (s : String) : reviveText? s = (ofText? s).map revive := by
  unfold reviveText? ofText?
  rw [Option.map_bind]
  exact congrArg (Option.bind _) (funext ofJson?_revive)

end Value

open Timestamp in
/-- Which strings are read as dates, and as which dates. A string is read as a date exactly if it
is the tag and a spelling of a date of the calendar with a time of day, and it is read as the point
in time that these name; every other string is no date. Days are counted one by one from the first
of January 1970. A stored document is read as it stands with its tagged dates in place of their
strings, at any depth, and every other string is left as it is. -/
theorem Codec.tagged_dates_are_spelled :
    (∀ (s : String) (t : Timestamp),
      untag? s = some t ↔ ∃ moment, Tags s moment ∧ moment.Names t) ∧
    (∀ s : String, untag? s = none ↔ ∀ moment, ¬ Tags s moment) ∧
    ((⟨1970, 1, 1⟩ : Calendar.Date).toDays = epochDay ∧ ∀ date : Calendar.Date,
      date.isValid = true → date.next.isValid = true ∧ date.next.toDays = date.toDays + 1) ∧
    (∀ bytes : Bytes, decode bytes = match (ofUtf8? bytes).bind Value.ofText? with
      | some value => .ok value.revive
      | none => .error .malformed) ∧
    ∀ s : String, (∀ moment, ¬ Tags s moment) ↔ (Value.string s).revive = .string s := by
  refine ⟨fun _ _ => untag?_eq_some_iff, fun _ => untag?_eq_none_iff,
    ⟨by decide, fun _ => Calendar.Date.next_spec⟩, fun bytes => ?_, fun s => ?_⟩
  · unfold decode
    cases hutf8 : ofUtf8? bytes with
    | none => rfl
    | some text =>
      simp only [Option.bind_some, Value.reviveText?_eq]
      cases Value.ofText? text <;> rfl
  · rw [← untag?_eq_none_iff]
    show _ ↔ Value.reviveString s = .string s
    unfold Value.reviveString
    cases untag? s <;> simp

end DocStore
