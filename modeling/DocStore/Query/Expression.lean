/-
Filter expressions: conjunctions and disjunctions of conditions on the fields of a document. A
condition asks for equality with a literal or lists operators, all of which must hold.
-/
import DocStore.Document.Value

namespace DocStore

mutual

/-- A filter expression. -/
inductive Expression where
  /-- Every child matches; with no children, everything does. -/
  | all (children : List Expression)
  /-- Some child matches; with no children, nothing does. -/
  | any (children : List Expression)
  /-- The value at the end of `path` meets `condition`. -/
  | field (path : String) (condition : Condition)

/-- What is asked of a field. -/
inductive Condition where
  | equals (literal : Value)
  | operators (operators : List Operator)

/-- An operator with its operand. -/
inductive Operator where
  | less (limit : Value)
  | atMost (limit : Value)
  | greater (limit : Value)
  | atLeast (limit : Value)
  | notEqual (other : Value)
  | oneOf (members : List Value)
  | noneOf (members : List Value)
  | hasAll (members : List Value)
  | remainder (divisor remainder : Value)
  | element (test : ElementTest)

/-- What is asked of an element of an array field. -/
inductive ElementTest where
  /-- The element, as a document, matches. -/
  | document (expression : Expression)
  /-- The operators hold of the element itself. -/
  | value (operators : List Operator)

end

instance : Inhabited Expression := ⟨.all []⟩

/-- The expression that every document matches. -/
def Expression.everything : Expression := .all []

/-- The name under which an operator is written. -/
def Operator.name : Operator → String
  | .less _ => "$lt"
  | .atMost _ => "$lte"
  | .greater _ => "$gt"
  | .atLeast _ => "$gte"
  | .notEqual _ => "$ne"
  | .oneOf _ => "$in"
  | .noneOf _ => "$nin"
  | .hasAll _ => "$all"
  | .remainder _ _ => "$mod"
  | .element _ => "$elemMatch"

/-- Why a document is no filter expression. -/
inductive QueryError where
  /-- An expression is not a mapping but a value of kind `found`. -/
  | notMapping (found : String)
  /-- A name begins with a dollar sign and is no operator where it stands. -/
  | unknownOperator (name : String)
  /-- The operand of an operator is not what it expects. -/
  | invalidOperand (name expected : String)
  /-- Operators and plain names stand side by side under `path`. -/
  | mixedOperators (path : String)
  deriving DecidableEq

def QueryError.message : QueryError → String
  | notMapping found => "query expression must be a mapping, found " ++ found
  | unknownOperator name => "unknown query operator: " ++ name
  | invalidOperand name expected => "operator " ++ name ++ " expects " ++ expected
  | mixedOperators path => "field '" ++ path ++ "' mixes operators with plain keys"

end DocStore
