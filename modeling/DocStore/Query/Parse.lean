/-
Reading filter expressions from documents. An expression is a mapping whose fields are taken
in order and joined; one field alone stands for itself. Reading is strict: a name that begins
with a dollar sign must be an operator known where it stands, and the first part that is wrong,
in order, is the error.
-/
import DocStore.Query.Expression
import DocStore.Document.Codec

namespace DocStore

/-- Whether a name is that of an operator rather than of a field. -/
def isOperatorName (name : String) : Bool := name.toList.head? == some '$'

/-- Whether a value is read as a set of operators: a mapping with an operator name. -/
def Value.isOperatorSet : Value → Bool
  | .map fields => fields.any fun field => isOperatorName field.1
  | _ => false

/-- Whether the fields of an element test are operators on the element itself: they all have
operator names, and none joins expressions. -/
def areElementOperators (fields : List (String × Value)) : Bool :=
  !fields.isEmpty &&
    fields.all fun field => isOperatorName field.1 && field.1 != "$and" && field.1 != "$or"

/-- The items of an operand that must be an array. -/
def parseMembers (name : String) : Value → Except QueryError (List Value)
  | .array items => return items
  | _ => throw (.invalidOperand name "an array")

namespace Expression

/-- The expression of clauses that must all match; one clause stands for itself. -/
def ofClauses : List Expression → Expression
  | [clause] => clause
  | clauses => .all clauses

mutual

/-- The expression that a document describes. -/
def parse : Value → Except QueryError Expression
  | .map fields => return ofClauses (← parseClauses fields)
  | other => throw (.notMapping other.kind)

/-- The clauses that fields describe. -/
def parseClauses : List (String × Value) → Except QueryError (List Expression)
  | [] => return []
  | (name, operand) :: rest => return (← parseClause name operand) :: (← parseClauses rest)

/-- The clause that one field describes. -/
def parseClause (name : String) (operand : Value) : Except QueryError Expression :=
  if name = "$and" then
    match operand with
    | .array items => return .all (← parseList items)
    | _ => throw (.invalidOperand name "an array of expressions")
  else if name = "$or" then
    match operand with
    | .array items => return .any (← parseList items)
    | _ => throw (.invalidOperand name "an array of expressions")
  else if isOperatorName name then throw (.unknownOperator name)
  else
    match operand with
    | .map fields =>
      if fields.any fun field => isOperatorName field.1 then
        if fields.all fun field => isOperatorName field.1 then
          return .field name (.operators (← parseOperators fields))
        else throw (.mixedOperators name)
      else return .field name (.equals (.map fields))
    | literal => return .field name (.equals literal)

/-- The expressions that items describe. -/
def parseList : List Value → Except QueryError (List Expression)
  | [] => return []
  | item :: rest => return (← parse item) :: (← parseList rest)

/-- The operators that fields describe. -/
def parseOperators : List (String × Value) → Except QueryError (List Operator)
  | [] => return []
  | (name, operand) :: rest => return (← parseOperator name operand) :: (← parseOperators rest)

/-- The operator that one field describes. -/
def parseOperator (name : String) (operand : Value) : Except QueryError Operator :=
  match name with
  | "$lt" => return .less operand
  | "$lte" => return .atMost operand
  | "$gt" => return .greater operand
  | "$gte" => return .atLeast operand
  | "$ne" => return .notEqual operand
  | "$in" => return .oneOf (← parseMembers name operand)
  | "$nin" => return .noneOf (← parseMembers name operand)
  | "$all" => return .hasAll (← parseMembers name operand)
  | "$mod" =>
    match operand with
    | .array [divisor, remainder] =>
      if divisor.isNumber && remainder.isNumber then return .remainder divisor remainder
      else throw (.invalidOperand name "[divisor, remainder]")
    | _ => throw (.invalidOperand name "[divisor, remainder]")
  | "$elemMatch" =>
    match operand with
    | .map fields =>
      if areElementOperators fields then return .element (.value (← parseOperators fields))
      else return .element (.document (ofClauses (← parseClauses fields)))
    | _ => throw (.invalidOperand name "a mapping")
  | _ => throw (.unknownOperator name)

end

/-- The expression that a JSON text describes, its tagged dates revived; `none` if the text is
no document. -/
def ofText? (s : String) : Option (Except QueryError Expression) :=
  (Value.reviveText? s).map parse

end Expression

end DocStore
