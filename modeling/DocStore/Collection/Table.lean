/-
Tables: collections under keys that the documents themselves contain. The key of a document is
the text at the key field, or the written form of an integer or a boolean there.
-/
import DocStore.Collection.Documents

namespace DocStore

/-- A collection under the values of a field. -/
structure Table where
  collection : Collection
  keyField : String

namespace Table

/-- The key of a document under a field, if it has a usable one. -/
def key? (field : String) (item : Value) : Option String :=
  match item.getPath? field with
  | some (.string s) => some s
  | some (.int i) => some (String.ofList (JsonNumber.intText i.toInt))
  | some (.bool true) => some "true"
  | some (.bool false) => some "false"
  | _ => none

/-- Stores a document under its key, in place of the one there, and returns it. -/
def put (table : Table) (item : Value) : Op Value := do
  match key? table.keyField item with
  | none => throw (.invalidKey table.keyField)
  | some key =>
    table.collection.put (utf8 key) item
    Op.report (.put table.collection.path key)
    return item

def get (table : Table) (key : String) : Op (Option Value) := table.collection.get (utf8 key)

/-- All documents in ascending order of their keys. -/
def getAll (table : Table) : Op (List Value) := table.collection.query .everything

/-- Deletes the document under a key, if there is one. -/
def del (table : Table) (key : String) : Op Unit := do
  table.collection.delete (utf8 key)
  Op.report (.deleted table.collection.path key)

end Table

end DocStore
