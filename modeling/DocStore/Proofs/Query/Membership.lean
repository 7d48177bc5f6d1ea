/-
Membership of a field in a list. A field belongs to a list if it equals a member, null if it is
missing, or if it is an array with an item that equals one. The operators find every field that
belongs but one kind: an array that equals a member while none of its items does. Such an array is
matched by an equality with that member and not by membership in the list.
-/
import DocStore.Proofs.Query.Operator
import Mathlib.Tactic

namespace DocStore

namespace Value

/-- The value equals a member of the list. -/
def EqualsMember (members : List Value) (value : Value) : Prop :=
  ∃ member ∈ members, value.equal member = true

/-- The field equals a member, null if it is missing, or is an array and has an item that does. -/
def BelongsTo (members : List Value) (field : Option Value) : Prop :=
  EqualsMember members (field.getD .null) ∨
    ∃ items, field = some (.array items) ∧ ∃ item ∈ items, EqualsMember members item

/-- The field is an array that equals a member, and has no item that does. -/
def BelongsAsWholeOnly (members : List Value) (field : Option Value) : Prop :=
  ∃ items, field = some (.array items) ∧ EqualsMember members (.array items) ∧
    ¬ ∃ item ∈ items, EqualsMember members item

/-- Membership holds of what belongs to the list, save an array that does so as a whole only. -/
theorem isIn_iff (members : List Value) (field : Option Value) :
    isIn members field = true ↔ BelongsTo members field ∧ ¬ BelongsAsWholeOnly members field := by
  have hmember : ∀ value, isMember members value = true ↔ EqualsMember members value := fun _ =>
    List.any_eq_true
  rw [isIn_eq]
  cases hitems : itemsOf? field with
  | none =>
    -- what has no items belongs by itself or not at all
    have hno : ∀ items, field ≠ some (.array items) := by
      intro items h
      rw [itemsOf?_eq_some_iff.2 h] at hitems
      cases hitems
    constructor
    · intro h
      exact ⟨.inl ((hmember _).1 h), fun ⟨items, heq, _⟩ => hno items heq⟩
    · rintro ⟨h | ⟨items, heq, -⟩, -⟩
      · exact (hmember _).2 h
      · exact absurd heq (hno items)
  | some items =>
    obtain rfl := itemsOf?_eq_some_iff.1 hitems
    simp only [List.any_eq_true, hmember]
    constructor
    · intro h
      refine ⟨.inr ⟨items, rfl, h⟩, ?_⟩
      rintro ⟨_, ⟨⟩, -, hnone⟩
      exact hnone h
    · rintro ⟨hwhole | ⟨_, ⟨⟩, h⟩, hparts⟩
      · by_contra hnone
        exact hparts ⟨items, rfl, hwhole, hnone⟩
      · exact h

end Value

/-- Membership matches a field that belongs to the list, unless it is an array that does so as a
whole only, and the other operator what membership does not match. Only such an array is matched by
an equality with a member and not by membership. -/
theorem Expression.membership_overlooks_only_whole_arrays (doc : Value) (path : String)
    (members : List Value) :
    ((Expression.field path (.operators [.oneOf members])).matches doc = true ↔
      Value.BelongsTo members (doc.getPath? path) ∧
        ¬ Value.BelongsAsWholeOnly members (doc.getPath? path)) ∧
    ((Expression.field path (.operators [.noneOf members])).matches doc =
      !(Expression.field path (.operators [.oneOf members])).matches doc) ∧
    ∀ member ∈ members, (Expression.field path (.equals member)).matches doc = true →
      Value.BelongsAsWholeOnly members (doc.getPath? path) ∨
        (Expression.field path (.operators [.oneOf members])).matches doc = true ∧
        (Expression.field path (.operators [.noneOf members])).matches doc = false := by
  have hin : (Expression.field path (.operators [.oneOf members])).matches doc =
      Value.isIn members (doc.getPath? path) := by
    rw [matches_operator, Operator.holds]
  have hnotIn : (Expression.field path (.operators [.noneOf members])).matches doc =
      !Value.isIn members (doc.getPath? path) := by
    rw [matches_operator, Operator.holds]
  rw [hin, hnotIn]
  refine ⟨Value.isIn_iff members _, rfl, fun member hmember hequal => ?_⟩
  rw [Expression.matches, Condition.holds] at hequal
  by_cases hwhole : Value.BelongsAsWholeOnly members (doc.getPath? path)
  · exact .inl hwhole
  · have hmatch := (Value.isIn_iff members _).2 ⟨.inl ⟨member, hmember, hequal⟩, hwhole⟩
    exact .inr ⟨hmatch, by rw [hmatch]; rfl⟩

/-- A document with one field. -/
def tagsOf (tags : Value) : Value := .map [("tags", tags)]

/-- Asks for membership of that field. -/
def hasTagsIn (members : List Value) : Expression := .field "tags" (.operators [.oneOf members])

/-- Asks for the contrary. -/
def hasTagsNotIn (members : List Value) : Expression := .field "tags" (.operators [.noneOf members])

/-- An array that equals the one of `nestedTags` save for the representation of its numbers. -/
def wholeTags : Value := .array [.array [.float ⟨0x3FF0000000000000⟩], .int 2]

/-- A document whose field is an array with an array in it. -/
def nestedTags : Value := tagsOf (.array [.array [.int 1], .int 2])

/-- The array is found as an item of it is a member too. -/
theorem nestedArray_is_found :
    (Expression.field "tags" (.equals wholeTags)).matches nestedTags = true ∧
    ¬ Value.BelongsAsWholeOnly [wholeTags, .array [.int 1]] (nestedTags.getPath? "tags") ∧
    (hasTagsIn [wholeTags, .array [.int 1]]).matches nestedTags = true ∧
    (hasTagsNotIn [wholeTags, .array [.int 1]]).matches nestedTags = false := by
  have hequal : (Expression.field "tags" (.equals wholeTags)).matches nestedTags = true := by
    decide +kernel
  have hpath : nestedTags.getPath? "tags" = some (.array [.array [.int 1], .int 2]) := by rfl
  have hparts :
      ¬ Value.BelongsAsWholeOnly [wholeTags, .array [.int 1]] (nestedTags.getPath? "tags") := by
    rw [hpath]
    rintro ⟨_, ⟨⟩, -, hnone⟩
    exact hnone ⟨.array [.int 1], by simp, .array [.int 1], by simp, by decide +kernel⟩
  have hfound := (Expression.membership_overlooks_only_whole_arrays nestedTags "tags"
    [wholeTags, .array [.int 1]]).2.2 wholeTags List.mem_cons_self hequal
  exact ⟨hequal, hparts, hfound.resolve_left hparts⟩

/-- The empty array equals the only member of a list, and is not found in it. -/
theorem emptyArray_is_overlooked :
    Value.BelongsTo [.array []] ((tagsOf (.array [])).getPath? "tags") ∧
    (Expression.field "tags" (.equals (.array []))).matches (tagsOf (.array [])) = true ∧
    (hasTagsIn [.array []]).matches (tagsOf (.array [])) = false ∧
    (hasTagsNotIn [.array []]).matches (tagsOf (.array [])) = true := by
  refine ⟨.inl ⟨.array [], List.mem_cons_self, ?_⟩, ?_, ?_, ?_⟩ <;> decide +kernel

end DocStore
