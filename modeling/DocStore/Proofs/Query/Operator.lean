/-
One operator on one field. An expression that asks one operator of a field matches as the operator
holds, and membership looks at the items of an array and at the value itself of anything else.
-/
import DocStore.Query.Match

namespace DocStore

theorem Condition.holds_operator (field : Option Value) (operator : Operator) :
    Condition.holds field (.operators [operator]) = operator.holds field := by
  rw [Condition.holds, Operator.allHold, Operator.allHold, Bool.and_true]

theorem Condition.holds_equals (field : Option Value) (literal : Value) :
    Condition.holds field (.equals literal) = (field.getD .null).equal literal := by
  rw [Condition.holds]

theorem Expression.matches_operator (path : String) (operator : Operator) (doc : Value) :
    (Expression.field path (.operators [operator])).matches doc =
      operator.holds (doc.getPath? path) := by
  rw [Expression.matches, Condition.holds_operator]

namespace Value

theorem itemsOf?_eq_some_iff {field : Option Value} {items : List Value} :
    itemsOf? field = some items ↔ field = some (.array items) := by
  cases field with
  | none => simp [itemsOf?]
  | some value => cases value <;> simp [itemsOf?]

theorem isIn_eq (members : List Value) (field : Option Value) :
    isIn members field = match itemsOf? field with
      | some items => items.any (isMember members)
      | none => isMember members (field.getD .null) := by
  cases field with
  | none => rfl
  | some value => cases value <;> rfl

end Value

end DocStore
