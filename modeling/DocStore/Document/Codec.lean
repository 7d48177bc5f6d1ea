/-
The stored form of documents: JSON in UTF-8. A date is written as a tagged string and every
string that is a tagged date is read as the date. Writing stops tagging below an array unless
the codec is set to tag there too; reading revives dates everywhere. Doubles that are not
finite have no stored form.
-/
import DocStore.Document.Value
import DocStore.Json.Record
import DocStore.Time.Text

namespace DocStore

/-- How documents are written. -/
structure Codec where
  /-- Whether dates below arrays are tagged. -/
  tagInArrays : Bool := false
  deriving DecidableEq

/-- Why a document cannot be written or read. -/
inductive CodecError where
  /-- A double of the document is not finite. -/
  | nonFinite (x : Double)
  /-- The stored bytes are no document. -/
  | malformed
  deriving DecidableEq

/-- How a double that is not finite is named. -/
def Double.nonFiniteName (x : Double) : String :=
  if x.isNaN then "NaN" else if x.isNegative then "-inf" else "inf"

/-- The message of an error. Malformed bytes are reported without a description. -/
def CodecError.message : CodecError → String
  | nonFinite x => "cannot encode non-finite float " ++ x.nonFiniteName
  | malformed => "malformed stored document"

namespace Value

/-! ## Reading -/

/-- The value of a JSON number that is finite: an integer if it is one and fits, else a double. -/
def ofNumber : JsonNumber → Value
  | .int n =>
    if Int64.minValue.toInt ≤ n ∧ n ≤ Int64.maxValue.toInt then int (Int64.ofInt n)
    else float (Double.ofInt n)
  | .float x => float x

/-- The value of a string in a stored document: the date that it tags, if it does. -/
def reviveString (s : String) : Value :=
  match Timestamp.untag? s with
  | some t => date t
  | none => string s

mutual

/-- The value of a JSON tree whose strings are read by `leaf`, if its strings and names are texts
and its numbers are finite. -/
def ofJson? (leaf : String → Value) : Json → Option Value
  | .null => some null
  | .bool b => some (bool b)
  | .number n => if n.isFinite then some (ofNumber n) else none
  | .string s => s.map leaf
  | .array items => (ofJsonItems? leaf items).map array
  | .object members => (ofJsonMembers? leaf members).map ofFields

/-- The values of the items of an array. -/
def ofJsonItems? (leaf : String → Value) : List Json → Option (List Value)
  | [] => some []
  | item :: rest => return (← ofJson? leaf item) :: (← ofJsonItems? leaf rest)

/-- The fields of the members of an object. -/
def ofJsonMembers? (leaf : String → Value) :
    List (JsonString × Json) → Option (List (String × Value))
  | [] => some []
  | (name, value) :: rest =>
    return (← name, ← ofJson? leaf value) :: (← ofJsonMembers? leaf rest)

end

/-- The value of a text, its strings left as they are. -/
def ofText? (s : String) : Option Value := (Json.ofDocument? s).bind (ofJson? string)

/-- The value of a text, its tagged dates revived. -/
def reviveText? (s : String) : Option Value := (Json.ofDocument? s).bind (ofJson? reviveString)

end Value

namespace Codec

/-! ## Writing -/

mutual

/-- The JSON tree of a value. Dates are tagged while `tagging`, and written plainly otherwise. -/
def toJson (codec : Codec) (tagging : Bool) : Value → Except CodecError Json
  | .null => return .null
  | .bool b => return .bool b
  | .int i => return .number (.int i.toInt)
  | .float x => if x.isFinite then return .number (.float x) else throw (.nonFinite x)
  | .string s => return .string (some s)
  | .date t => return .string (some (if tagging then t.tagged else t.text))
  | .array items => return .array (← itemsToJson codec (tagging && codec.tagInArrays) items)
  | .map fields => return .object (← fieldsToJson codec tagging fields)

/-- The trees of the items of an array, or the first error. -/
def itemsToJson (codec : Codec) (tagging : Bool) : List Value → Except CodecError (List Json)
  | [] => return []
  | item :: rest => return (← codec.toJson tagging item) :: (← codec.itemsToJson tagging rest)

/-- The members of the fields of a mapping, or the first error. -/
def fieldsToJson (codec : Codec) (tagging : Bool) :
    List (String × Value) → Except CodecError (List (JsonString × Json))
  | [] => return []
  | (name, value) :: rest =>
    return (some name, ← codec.toJson tagging value) :: (← codec.fieldsToJson tagging rest)

end

/-- The stored form of a document, as a text. -/
def encodeText (codec : Codec) (value : Value) : Except CodecError String :=
  return String.ofList (← codec.toJson true value).text

/-- The stored form of a document. -/
def encode (codec : Codec) (value : Value) : Except CodecError Bytes :=
  return utf8 (← codec.encodeText value)

/-- The document stored as `bytes`. Reading does not depend on the codec's setting. -/
def decode (bytes : Bytes) : Except CodecError Value :=
  match (ofUtf8? bytes).bind Value.reviveText? with
  | some value => .ok value
  | none => .error .malformed

/-! ## The setting in JSON -/

/-- The JSON form of the setting. -/
def settingToJson (codec : Codec) : Json :=
  .object [(some "tagDatesInSequences", .bool codec.tagInArrays)]

/-- The setting of a JSON tree; a missing field is off. -/
def ofSetting? (json : Json) : Option Codec := do
  match ← json.record? ["tagDatesInSequences"] with
  | [some field] => return ⟨← field.bool?⟩
  | [none] => return ⟨false⟩
  | _ => none

end Codec

end DocStore
