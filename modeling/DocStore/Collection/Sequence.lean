/-
Sequences: collections under issued keys, so documents lie in the order of their insertion. A
queue takes from the oldest end and a stack from the newest. Taking reads the document at an
end and then deletes it, two calls between which other operations may come unless the database
removes exclusively.
-/
import DocStore.Collection.Documents

namespace DocStore

/-- A collection in order of insertion. -/
structure Sequence where
  collection : Collection
  /-- Whether only one operation at a time takes from the namespace. -/
  exclusive : Bool

namespace Sequence

/-- Stores an item under a key issued for it and returns it. -/
def store (sequence : Sequence) (key : SequenceKey) (item : Value) : Op Value := do
  sequence.collection.put key.toBytes item
  Op.report (.inserted sequence.collection.path key)
  return item

/-- Stores an item after all others and returns it. -/
def insert (sequence : Sequence) (item : Value) : Op Value := do
  let key ← Op.issueKey
  sequence.store key item

/-- The item at an end. -/
def peek (sequence : Sequence) (fromEnd : End) : Op (Option Value) := do
  match ← sequence.collection.first fromEnd with
  | some (_, item) => return some item
  | none => return none

/-- Deletes what was read at an end, and returns it. -/
def remove (sequence : Sequence) (fromEnd : End) (key : Bytes) (item : Value) : Op Value := do
  sequence.collection.delete key
  Op.report (.removed sequence.collection.path fromEnd)
  return item

/-- Takes the item at an end out of the sequence. -/
def take (sequence : Sequence) (fromEnd : End) : Op (Option Value) := do
  match ← sequence.collection.first fromEnd with
  | some (key, item) => return some (← sequence.remove fromEnd key item)
  | none => return none

end Sequence

end DocStore
