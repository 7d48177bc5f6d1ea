/-
When a document matches a filter expression. A missing field equals null but is not smaller or
greater than anything. Operators on arrays look at their elements: membership holds if one
element is a member, and the operators that ask for an array hold of nothing else.
-/
import DocStore.Query.Expression
import DocStore.Document.Order

namespace DocStore

/-- Whether a value equals one of some members. -/
def Value.isMember (members : List Value) (value : Value) : Bool :=
  members.any fun member => value.equal member

/-- Whether a field is one of some members or, if it is an array, has such an element. -/
def Value.isIn (members : List Value) (field : Option Value) : Bool :=
  match field with
  | some (.array items) => items.any (Value.isMember members)
  | some value => value.isMember members
  | none => Value.null.isMember members

/-- The items of a field that is an array. -/
def Value.itemsOf? : Option Value → Option (List Value)
  | some (.array items) => some items
  | _ => none

mutual

/-- Whether a document matches. -/
def Expression.matches (doc : Value) : Expression → Bool
  | .all children => Expression.allMatch doc children
  | .any children => Expression.someMatch doc children
  | .field path condition => Condition.holds (doc.getPath? path) condition

/-- Whether a document matches every expression of a list. -/
def Expression.allMatch (doc : Value) : List Expression → Bool
  | [] => true
  | child :: rest => child.matches doc && Expression.allMatch doc rest

/-- Whether a document matches an expression of a list. -/
def Expression.someMatch (doc : Value) : List Expression → Bool
  | [] => false
  | child :: rest => child.matches doc || Expression.someMatch doc rest

/-- Whether a field, `none` if it is missing, meets a condition. -/
def Condition.holds (field : Option Value) : Condition → Bool
  | .equals literal => (field.getD .null).equal literal
  | .operators operators => Operator.allHold field operators

/-- Whether every operator of a list holds of a field. -/
def Operator.allHold (field : Option Value) : List Operator → Bool
  | [] => true
  | operator :: rest => operator.holds field && Operator.allHold field rest

/-- Whether an operator holds of a field. -/
def Operator.holds (field : Option Value) : Operator → Bool
  | .less limit => field.bind (·.compare? limit) == some .lt
  | .atMost limit => (field.bind (·.compare? limit)).any (· != .gt)
  | .greater limit => field.bind (·.compare? limit) == some .gt
  | .atLeast limit => (field.bind (·.compare? limit)).any (· != .lt)
  | .notEqual other => !(field.getD .null).equal other
  | .oneOf members => Value.isIn members field
  | .noneOf members => !Value.isIn members field
  | .hasAll members =>
    match Value.itemsOf? field with
    | some items => members.all fun wanted => items.any fun item => item.equal wanted
    | none => false
  | .remainder divisor remainder => field.any fun value => value.hasRemainder divisor remainder
  | .element test =>
    match Value.itemsOf? field with
    | some items => items.any fun item => test.holds item
    | none => false

/-- Whether an element of an array field passes a test. -/
def ElementTest.holds (item : Value) : ElementTest → Bool
  | .document expression => expression.matches item
  | .value operators => Operator.allHold (some item) operators

end

/-- The documents of a list that match, in order. -/
def Expression.select (expression : Expression) (docs : List Value) : List Value :=
  docs.filter expression.matches

end DocStore
