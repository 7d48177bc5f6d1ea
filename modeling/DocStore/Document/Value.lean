/-
Documents: JSON values with 64-bit integers kept apart from doubles, and points in time. A
mapping is a list of fields; one whose field names ascend strictly in the order of their UTF-8
bytes, at every level, is canonical, and everything this library builds is.
-/
import DocStore.Ranked
import DocStore.Number.Rounding
import DocStore.Time.Timestamp

namespace DocStore

/-- A document or a part of one. -/
inductive Value where
  | null
  | bool (b : Bool)
  | int (i : Int64)
  | float (x : Double)
  | string (s : String)
  | date (t : Timestamp)
  | array (items : List Value)
  | map (fields : List (String × Value))
  deriving Inhabited

namespace Value

/-! ## The order of fields -/

/-- Whether the names of the fields ascend. -/
def AscendingFields (fields : List (String × Value)) : Prop := Ranked.Ascending utf8 fields

/-- The fields with one more, in its place by name; a field of the same name is replaced. -/
def insertField (name : String) (value : Value) (fields : List (String × Value)) :
    List (String × Value) :=
  Ranked.insert utf8 name value fields

/-- The mapping of some fields in any order; of fields with one name the last counts. -/
def ofFields (fields : List (String × Value)) : Value := map (Ranked.ofList utf8 fields)

mutual

/-- Whether the fields of every mapping ascend by name. -/
def Canonical : Value → Prop
  | array items => CanonicalItems items
  | map fields => AscendingFields fields ∧ CanonicalFields fields
  | _ => True

/-- Whether every item is canonical. -/
def CanonicalItems : List Value → Prop
  | [] => True
  | item :: rest => item.Canonical ∧ CanonicalItems rest

/-- Whether every field is canonical. -/
def CanonicalFields : List (String × Value) → Prop
  | [] => True
  | (_, value) :: rest => value.Canonical ∧ CanonicalFields rest

end

/-! ## Parts -/

/-- The empty mapping. -/
def empty : Value := map []

/-- The value with one more field. Only a mapping changes. -/
def insert (value : Value) (name : String) (field : Value) : Value :=
  match value with
  | map fields => map (insertField name field fields)
  | other => other

/-- The field of a mapping with a given name. -/
def get? (value : Value) (name : String) : Option Value :=
  match value with
  | map fields => fields.lookup name
  | _ => none

/-- The names of a path: what its points separate. -/
def pathNames (path : String) : List String :=
  (path.toList.splitOn '.').map String.ofList

/-- The value at the end of a path of names through nested mappings. -/
def getPath? (value : Value) (path : String) : Option Value :=
  (pathNames path).foldlM get? value

def isNull : Value → Bool
  | null => true
  | _ => false

def asString? : Value → Option String
  | string s => some s
  | _ => none

def asInt? : Value → Option Int64
  | int i => some i
  | _ => none

/-- A number as a double; an integer is rounded to the nearest one. -/
def asDouble? : Value → Option Double
  | int i => some (Double.ofInt i.toInt)
  | float x => some x
  | _ => none

def asArray? : Value → Option (List Value)
  | array items => some items
  | _ => none

def asMap? : Value → Option (List (String × Value))
  | map fields => some fields
  | _ => none

def isNumber : Value → Bool
  | int _ => true
  | float _ => true
  | _ => false

/-- The name of the kind of a value. -/
def kind : Value → String
  | null => "null"
  | bool _ => "bool"
  | int _ => "int"
  | float _ => "float"
  | string _ => "string"
  | date _ => "date"
  | array _ => "array"
  | map _ => "map"

mutual

/-- How many arrays and mappings are nested. -/
def depth : Value → Nat
  | array items => itemsDepth items + 1
  | map fields => fieldsDepth fields + 1
  | _ => 0

/-- The greatest depth of an item. -/
def itemsDepth : List Value → Nat
  | [] => 0
  | item :: rest => max item.depth (itemsDepth rest)

/-- The greatest depth of a field. -/
def fieldsDepth : List (String × Value) → Nat
  | [] => 0
  | (_, value) :: rest => max value.depth (fieldsDepth rest)

end

/-! ## Canonical values -/

theorem canonicalFields_iff {fields : List (String × Value)} :
    CanonicalFields fields ↔ ∀ field ∈ fields, field.2.Canonical := by
  induction fields with
  | nil => simp [CanonicalFields]
  | cons field rest ih => simp [CanonicalFields, ih]

theorem canonicalItems_iff {items : List Value} :
    CanonicalItems items ↔ ∀ item ∈ items, item.Canonical := by
  induction items with
  | nil => simp [CanonicalItems]
  | cons item rest ih => simp [CanonicalItems, ih]

/-- Inserting a canonical field into a canonical value leaves it canonical. -/
theorem Canonical.insert {value field : Value} (hv : value.Canonical) (hf : field.Canonical)
    (name : String) : (value.insert name field).Canonical := by
  cases value with
  | map fields =>
    refine ⟨hv.1.insert name field, canonicalFields_iff.2 fun entry he => ?_⟩
    rcases Ranked.mem_insert he with rfl | he
    · exact hf
    · exact canonicalFields_iff.1 hv.2 entry he
  | _ => exact hv

end Value

end DocStore
