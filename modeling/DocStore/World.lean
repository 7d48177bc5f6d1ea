/-
What operations on documents run in: the storage engine, the clock and the last key issued from
it, and the log. An operation ends in an answer or an error and leaves a world either way. It
logs an event only after the effect that the event reports.
-/
import DocStore.Store.Cursor
import DocStore.SequenceKey
import DocStore.Document.Codec
import DocStore.Query.Expression

namespace DocStore

/-- Why an operation fails. -/
inductive Error where
  | store (error : StoreError)
  | codec (error : CodecError)
  | query (error : QueryError)
  /-- The document has no text, integer or boolean at `field` to be its key. -/
  | invalidKey (field : String)
  deriving DecidableEq

def Error.message : Error → String
  | store error => error.message
  | codec error => "failed to decode stored document: " ++ error.message
  | query error => "malformed query expression: " ++ error.message
  | invalidKey field => "document has no usable key at field '" ++ field ++ "'"

/-- An end of a sequence. -/
inductive End where
  | oldest
  | newest
  deriving DecidableEq

/-- The name of an end in the log. -/
def End.name : End → String
  | oldest => "Oldest"
  | newest => "Newest"

/-- What the log reports. -/
inductive Event where
  | ready (pageSize : Nat) (exclusiveRemoval : Bool)
  | inserted (path : String) (key : SequenceKey)
  | removed (path : String) (fromEnd : End)
  | emptied (path : String) (count : Nat)
  | put (path key : String)
  | deleted (path key : String)
  deriving DecidableEq

/-- How much an event matters. -/
inductive Level where
  | debug
  | trace
  deriving DecidableEq

namespace Event

def level : Event → Level
  | ready _ _ => .debug
  | emptied _ _ => .debug
  | _ => .trace

def message : Event → String
  | ready _ _ => "database ready"
  | inserted _ _ => "inserted"
  | removed _ _ => "removed"
  | emptied _ _ => "emptied collection"
  | put _ _ => "put"
  | deleted _ _ => "deleted"

/-- The named fields of an event. -/
def fields : Event → List (String × String)
  | ready pageSize exclusiveRemoval =>
    [("scan_page_size", toString pageSize),
      ("exclusive_removal", if exclusiveRemoval then "true" else "false")]
  | inserted path key =>
    [("namespace", path), ("nanos", toString key.nanos.toNat),
      ("counter", toString key.counter.toNat)]
  | removed path fromEnd => [("namespace", path), ("end", fromEnd.name)]
  | emptied path count => [("namespace", path), ("count", toString count)]
  | put path key => [("namespace", path), ("key", key)]
  | deleted path key => [("namespace", path), ("key", key)]

end Event

/-- The state that operations share. -/
structure World where
  engine : Engine := {}
  /-- What the clock reads. -/
  clock : UInt64 := 0
  /-- The last key issued. -/
  lastKey : Option SequenceKey := none
  /-- The events so far, the latest first. -/
  log : List Event := []

/-- An operation. -/
abbrev Op := EStateM Error World

namespace Op

/-- Runs a computation on the storage engine. -/
def access {α : Type} (computation : Access α) : Op α := fun world =>
  match computation world.engine with
  | .ok answer engine => .ok answer { world with engine }
  | .error error engine => .error (.store error) { world with engine }

/-- Adds an event to the log. -/
def report (event : Event) : Op Unit := modify fun world => { world with log := event :: world.log }

/-- Issues the next key. -/
def issueKey : Op SequenceKey := fun world =>
  let key := SequenceKey.next world.lastKey world.clock
  .ok key { world with lastKey := some key }

/-- Takes the answer of the codec. -/
def coded {α : Type} (answer : Except CodecError α) : Op α :=
  match answer with
  | .ok a => pure a
  | .error error => throw (.codec error)

end Op

end DocStore
