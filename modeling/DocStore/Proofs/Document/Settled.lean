/-
Documents stored and read again and again. A value settles after two rounds: the first one turns
tagged texts into dates, the second one turns those of them that lie below an array and are not
tagged there into their written form, and a written form is no tagged text. So the second round
changes nothing unless it meets such a text, and no later round changes anything. No round adds to
the depth, and none leaves a value without a stored form.
-/
import DocStore.Proofs.Document.ReadBack

namespace DocStore

namespace Value

/-! ## Settled leaves -/

variable {codec : Codec}

theorem leafReadBack_eq_self_iff {leaf : Bool × Value} :
    leafReadBack codec leaf.1 leaf.2 = leaf.2 ↔ Kept codec leaf := by
  refine ⟨fun h => ?_, leafReadBack_eq_self⟩
  obtain ⟨inArray, _ | _ | _ | _ | s | t | _ | _⟩ := leaf
  case string =>
    change reviveString s = string s at h
    unfold reviveString at h
    split at h
    · cases h
    · assumption
  case date =>
    rintro rfl
    by_contra htag
    simp [leafReadBack, htag] at h
  all_goals trivial

/-- A value is read back as itself if and only if its leaves are. -/
theorem readBack_eq_self_iff {inArray : Bool} {v : Value} :
    v.readBack codec inArray = v ↔ ∀ leaf ∈ v.leaves inArray, Kept codec leaf := by
  refine ⟨fun h leaf hleaf => ?_, readBack_eq_self inArray v⟩
  have hleaves := leaves_readBack codec inArray v
  rw [h] at hleaves
  -- the list of all leaves stays the same, so each leaf in it does
  have hsame := List.map_eq_map_iff.1 (hleaves.symm.trans (List.map_id _).symm) leaf hleaf
  exact leafReadBack_eq_self_iff.1 (congrArg Prod.snd hsame)

/-- The leaf is a tagged text below an array, where the codec does not tag dates. -/
def Unsettled (codec : Codec) (leaf : Bool × Value) : Prop :=
  codec.tagInArrays = false ∧ leaf.1 = true ∧ ∃ s, leaf.2 = string s ∧ Timestamp.untag? s ≠ none

/-- What was read back is kept the next time, unless it was unsettled. -/
theorem kept_leafReadBack_iff {leaf : Bool × Value} :
    Kept codec (leaf.1, leafReadBack codec leaf.1 leaf.2) ↔ ¬ Unsettled codec leaf := by
  obtain ⟨inArray, _ | _ | _ | _ | s | t | _ | _⟩ := leaf
  case string =>
    change Kept codec (inArray, reviveString s) ↔ _
    unfold reviveString
    cases huntag : Timestamp.untag? s with
    | none => simp [Kept, Unsettled, huntag]
    | some t =>
      cases inArray <;> cases htag : codec.tagInArrays <;> simp [Kept, Unsettled, huntag, htag]
  case date =>
    -- a date stays a date where it is tagged, and its written form is no tagged text
    cases inArray <;> cases htag : codec.tagInArrays <;>
      simp [leafReadBack, Kept, Unsettled, htag, Timestamp.untag?_text]
  all_goals simp [leafReadBack, Kept, Unsettled]

/-- Nothing that was read back is a tagged text. -/
theorem not_unsettled_leafReadBack (leaf : Bool × Value) :
    ¬ Unsettled codec (leaf.1, leafReadBack codec leaf.1 leaf.2) := by
  rintro ⟨-, -, s, hs, huntag⟩
  obtain ⟨inArray, _ | _ | _ | _ | r | t | _ | _⟩ := leaf
  case string =>
    change reviveString r = string s at hs
    unfold reviveString at hs
    split at hs
    · cases hs
    · cases hs
      contradiction
  case date =>
    simp only [leafReadBack] at hs
    split at hs
    · cases hs
      exact huntag (Timestamp.untag?_text t)
    · cases hs
  all_goals cases hs

/-- The leaves of a value that was read back are kept if the leaves before were settled. -/
theorem readBack_readBack_eq_iff {inArray : Bool} {v : Value} :
    (v.readBack codec inArray).readBack codec inArray = v.readBack codec inArray ↔
      ∀ leaf ∈ v.leaves inArray, ¬ Unsettled codec leaf := by
  rw [readBack_eq_self_iff, leaves_readBack, List.forall_mem_map]
  exact forall₂_congr fun _ _ => kept_leafReadBack_iff

/-- A value that was read back twice is settled. -/
theorem readBack_readBack_readBack (inArray : Bool) (v : Value) :
    ((v.readBack codec inArray).readBack codec inArray).readBack codec inArray =
      (v.readBack codec inArray).readBack codec inArray := by
  rw [readBack_readBack_eq_iff, leaves_readBack, List.forall_mem_map]
  exact fun leaf _ => not_unsettled_leafReadBack leaf

end Value

/-! ## Rounds -/

namespace Codec

open Value

/-- What a value is when it has been stored and read. -/
def restore (codec : Codec) (v : Value) : Except CodecError Value := do decode (← codec.encode v)

/-- What a value is after so many rounds of storing and reading. -/
def restoreTimes (codec : Codec) : Nat → Value → Except CodecError Value
  | 0, v => .ok v
  | n + 1, v => do codec.restoreTimes n (← codec.restore v)

/-- The value can be stored and read: its doubles are finite, and it is not nested too deeply. -/
structure Storable (v : Value) : Prop where
  canonical : v.Canonical
  finite : v.firstNonFinite? = none
  shallow : v.depth ≤ 127

variable (codec : Codec) {v : Value}

theorem restore_eq (h : Storable v) : codec.restore v = .ok (v.readBack codec false) := by
  rw [restore, encode_eq, h.finite]
  exact (decode_storedForm codec h.canonical h.finite).trans (if_pos h.shallow)

/-- What was read can be stored and read again. -/
theorem Storable.readBack (h : Storable v) : Storable (v.readBack codec false) where
  canonical := h.canonical.readBack codec false
  finite := (firstNonFinite?_readBack codec v).trans h.finite
  shallow := (depth_readBack codec false v).trans_le h.shallow

/-- The first of several rounds is followed by the others. -/
theorem restoreTimes_succ {once : Value} (h : codec.restore v = .ok once) (n : Nat) :
    codec.restoreTimes (n + 1) v = codec.restoreTimes n once := by
  rw [restoreTimes, h]
  rfl

/-- No round fails, and none makes a value deeper. -/
theorem restoreTimes_spec (h : Storable v) (n : Nat) :
    ∃ after, codec.restoreTimes n v = .ok after ∧ Storable after ∧ after.depth = v.depth := by
  induction n generalizing v with
  | zero => exact ⟨v, rfl, h, rfl⟩
  | succ n ih =>
    obtain ⟨after, hafter, hstorable, hdepth⟩ := ih (h.readBack codec)
    refine ⟨after, ?_, hstorable, hdepth.trans (depth_readBack codec false v)⟩
    rw [restoreTimes_succ codec (restore_eq codec h), hafter]

variable {codec}

theorem restoreTimes_of_settled (h : codec.restore v = .ok v) (n : Nat) :
    codec.restoreTimes n v = .ok v := by
  induction n with
  | zero => rfl
  | succ n ih => rw [restoreTimes_succ codec h, ih]

end Codec

/-- A value that can be stored and read can be so any number of times, and never gets deeper. The
second round changes it only if dates are not tagged in arrays and some text below an array is a
tagged date, and no later round changes anything. -/
theorem Codec.storing_settles (codec : Codec) {v : Value} (hv : v.Canonical)
    (hfinite : v.firstNonFinite? = none) (hdepth : v.depth ≤ 127) :
    (∃ once twice, codec.restore v = .ok once ∧ codec.restore once = .ok twice ∧
      (∀ n, codec.restoreTimes (n + 2) v = .ok twice) ∧
      (codec.tagInArrays = true → twice = once) ∧
      (codec.tagInArrays = false → (twice = once ↔
        ∀ s, (true, Value.string s) ∈ v.leaves false → Timestamp.untag? s = none))) ∧
    ∀ n, ∃ after, codec.restoreTimes n v = .ok after ∧
      (∃ bytes, codec.encode after = .ok bytes) ∧ after.depth ≤ v.depth := by
  have hstorable : Storable v := ⟨hv, hfinite, hdepth⟩
  have honce := restore_eq codec hstorable
  have htwice := restore_eq codec (hstorable.readBack codec)
  have hsettled := restore_eq codec ((hstorable.readBack codec).readBack codec)
  rw [Value.readBack_readBack_readBack] at hsettled
  refine ⟨⟨_, _, honce, htwice, fun n => ?_, fun htag => ?_, fun htag => ?_⟩, fun n => ?_⟩
  · rw [restoreTimes_succ codec honce, restoreTimes_succ codec htwice]
    exact restoreTimes_of_settled hsettled n
  · refine Value.readBack_readBack_eq_iff.2 fun leaf _ hleaf => ?_
    exact Bool.noConfusion (htag.symm.trans hleaf.1)
  · rw [Value.readBack_readBack_eq_iff]
    constructor
    · intro h s hs
      by_contra huntag
      exact h _ hs ⟨htag, rfl, s, rfl, huntag⟩
    · rintro h ⟨_, _⟩ hleaf ⟨-, rfl, s, rfl, huntag⟩
      exact huntag (h s hleaf)
  · obtain ⟨after, hafter, hagain, hsame⟩ := restoreTimes_spec codec hstorable n
    exact ⟨after, hafter, ⟨_, encode_eq_ok_iff.2 ⟨hagain.finite, rfl⟩⟩, hsame.le⟩

/-- A tagged text below an array, beside a date that is tagged and one that is not. -/
def historyDocument : Value :=
  .map [("at", .date Codec.leapSecond),
    ("history", .array [.string "FLEXEL|2016-12-31T23:59:60.5Z", .date Codec.leapSecond])]

/-- The text below the array becomes a date, then another text, and stays so. -/
theorem history_settles : ∃ once twice,
    (⟨false⟩ : Codec).restore historyDocument = .ok once ∧
    (⟨false⟩ : Codec).restore once = .ok twice ∧ twice ≠ once ∧
    ∀ n, (⟨false⟩ : Codec).restoreTimes (n + 2) historyDocument = .ok twice := by
  have hcanonical : historyDocument.Canonical :=
    ⟨(by decide : Ranked.Ascending utf8 _), trivial, ⟨trivial, trivial, trivial⟩, trivial⟩
  obtain ⟨⟨once, twice, honce, htwice, hlater, -, hchanged⟩, -⟩ :=
    Codec.storing_settles ⟨false⟩ hcanonical (by decide) (by decide)
  refine ⟨once, twice, honce, htwice, fun hsame => ?_, hlater⟩
  have htagged : Timestamp.untag? "FLEXEL|2016-12-31T23:59:60.5Z" = some Codec.leapSecond := by
    decide +kernel
  have hnone := (hchanged rfl).1 hsame "FLEXEL|2016-12-31T23:59:60.5Z" (by
    simp [historyDocument, Value.leaves, Value.fieldLeaves, Value.itemLeaves])
  rw [htagged] at hnone
  cases hnone

end DocStore
