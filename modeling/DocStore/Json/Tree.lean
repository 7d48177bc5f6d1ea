/-
JSON texts as trees. An object keeps its members as written, in order and with repeated names,
since readers differ in what they make of those; so it is with strings that stand for no text
and numbers that exceed every double. A tree is read by an automaton over tokens with a stack of
the arrays and objects still open, and written without blanks.
-/
import DocStore.Json.Token

namespace DocStore

/-- A JSON text as a tree. -/
inductive Json where
  | null
  | bool (b : Bool)
  | number (n : JsonNumber)
  | string (s : JsonString)
  | array (items : List Json)
  | object (members : List (JsonString × Json))

namespace Json

/-! ## Writing -/

mutual

/-- The tokens of a tree. -/
def tokens : Json → List JsonToken
  | null => [.null]
  | bool b => [.bool b]
  | number n => [.number n]
  | string s => [.string s]
  | array items => .beginArray :: itemTokens items
  | object members => .beginObject :: memberTokens members

/-- The tokens of the items of an array up to its end. -/
def itemTokens : List Json → List JsonToken
  | [] => [.endArray]
  | [item] => item.tokens ++ [.endArray]
  | item :: rest => item.tokens ++ .comma :: itemTokens rest

/-- The tokens of the members of an object up to its end. -/
def memberTokens : List (JsonString × Json) → List JsonToken
  | [] => [.endObject]
  | [(name, value)] => .string name :: .colon :: value.tokens ++ [.endObject]
  | (name, value) :: rest => .string name :: .colon :: value.tokens ++ .comma :: memberTokens rest

end

/-- The text of a tree, without blanks. -/
def text (json : Json) : List Char := json.tokens.flatMap JsonToken.text

/-! ## Reading -/

/-- An array or object still open, with what it holds so far in reverse; an object also has the
name of the member whose value is being read. -/
inductive Frame where
  | array (items : List Json)
  | object (members : List (JsonString × Json)) (name : JsonString)

/-- What the reader expects next. -/
inductive Expect where
  | value
  | itemOrEnd
  | nameOrEnd
  | name (members : List (JsonString × Json))
  | colon (members : List (JsonString × Json)) (name : JsonString)
  | separator (complete : Json)

/-- The reader on the way: what it expects, and the arrays and objects open around it. -/
abbrev Reader := Expect × List Frame

/-- The reader after the first token of a value. -/
def Reader.begin? (stack : List Frame) : JsonToken → Option Reader
  | .null => some (.separator null, stack)
  | .bool b => some (.separator (bool b), stack)
  | .number n => some (.separator (number n), stack)
  | .string s => some (.separator (string s), stack)
  | .beginArray => some (.itemOrEnd, stack)
  | .beginObject => some (.nameOrEnd, stack)
  | _ => none

/-- A step of the reader. -/
def Reader.step (reader : Reader) (token : JsonToken) : Option Reader :=
  match reader with
  | (.value, stack) => begin? stack token
  | (.itemOrEnd, stack) =>
    if token = .endArray then some (.separator (array []), stack)
    else begin? (.array [] :: stack) token
  | (.nameOrEnd, stack) =>
    match token with
    | .endObject => some (.separator (object []), stack)
    | .string name => some (.colon [] name, stack)
    | _ => none
  | (.name members, stack) =>
    match token with
    | .string name => some (.colon members name, stack)
    | _ => none
  | (.colon members name, stack) =>
    match token with
    | .colon => some (.value, .object members name :: stack)
    | _ => none
  | (.separator value, .array items :: stack) =>
    match token with
    | .comma => some (.value, .array (value :: items) :: stack)
    | .endArray => some (.separator (array (value :: items).reverse), stack)
    | _ => none
  | (.separator value, .object members name :: stack) =>
    match token with
    | .comma => some (.name ((name, value) :: members), stack)
    | .endObject => some (.separator (object ((name, value) :: members).reverse), stack)
    | _ => none
  | (.separator _, []) => none

/-- The tree of a token list, if the tokens are those of one tree. -/
def ofTokens? (tokens : List JsonToken) : Option Json :=
  match tokens.foldlM Reader.step ((.value, []) : Reader) with
  | some (.separator json, []) => some json
  | _ => none

/-- The tree of a text. -/
def ofText? (s : String) : Option Json := do
  ofTokens? (← JsonToken.lex? s.toList)

/-! ## Depth -/

mutual

/-- How many arrays and objects are nested. -/
def depth : Json → Nat
  | array items => itemsDepth items + 1
  | object members => membersDepth members + 1
  | _ => 0

/-- The greatest depth of an item. -/
def itemsDepth : List Json → Nat
  | [] => 0
  | item :: rest => max item.depth (itemsDepth rest)

/-- The greatest depth of a member. -/
def membersDepth : List (JsonString × Json) → Nat
  | [] => 0
  | (_, value) :: rest => max value.depth (membersDepth rest)

end

/-- How many arrays and objects may nest in a document. -/
def maxDepth : Nat := 127

/-- The tree of a text that is nested no deeper than a document may be. -/
def ofDocument? (s : String) : Option Json :=
  (ofText? s).filter fun json => decide (json.depth ≤ maxDepth)

end Json

end DocStore
