/-
The keys of queues and stacks. A key is a clock reading and a counter; a generator issues the
reading with counter zero when the clock has advanced past its last key, and counts on from
that key otherwise, so keys increase whatever the clock does. The bytes of a key order as the
key does.
-/
import DocStore.Bytes
import DocStore.Json.Record

namespace DocStore

/-- A key: nanoseconds since 1970, and a counter within one reading. -/
structure SequenceKey where
  nanos : UInt64
  counter : UInt32
  deriving DecidableEq

namespace SequenceKey

/-- Nanoseconds first, then the counter. -/
def compare (a b : SequenceKey) : Ordering :=
  (Ord.compare a.nanos.toNat b.nanos.toNat).then (Ord.compare a.counter.toNat b.counter.toNat)

/-- Eight bytes of nanoseconds and four of counter. -/
def toBytes (key : SequenceKey) : Bytes :=
  bigEndian 8 key.nanos.toNat ++ bigEndian 4 key.counter.toNat

/-- The key of twelve bytes. -/
def ofBytes? (bytes : Bytes) : Option SequenceKey :=
  if bytes.length = 12 then
    some ⟨UInt64.ofNat (ofBigEndian (bytes.take 8)), UInt32.ofNat (ofBigEndian (bytes.drop 8))⟩
  else none

/-- The key after `key` within its clock reading. An exhausted counter moves on to the next
nanosecond, of which the last one is its own successor. -/
def successor (key : SequenceKey) : SequenceKey :=
  if key.counter.toNat + 1 < UInt32.size then ⟨key.nanos, key.counter + 1⟩
  else if key.nanos.toNat + 1 < UInt64.size then ⟨key.nanos + 1, 0⟩
  else ⟨key.nanos, 0⟩

/-- The key issued at a clock reading after the key `last`. -/
def next (last : Option SequenceKey) (now : UInt64) : SequenceKey :=
  match last with
  | some key => if now ≤ key.nanos then key.successor else ⟨now, 0⟩
  | none => ⟨now, 0⟩

/-- The keys issued at some clock readings, one after another, after the key `last`. -/
def issue (last : Option SequenceKey) : List UInt64 → List SequenceKey
  | [] => []
  | now :: rest => next last now :: issue (some (next last now)) rest

/-- The JSON form of a key. -/
def toJson (key : SequenceKey) : Json :=
  .object [
    (some "nanos", .number (.int key.nanos.toNat)),
    (some "counter", .number (.int key.counter.toNat))]

/-- The key of a JSON tree, which must have both fields. -/
def ofJson? (json : Json) : Option SequenceKey := do
  match ← json.record? ["nanos", "counter"] with
  | [some nanos, some counter] =>
    return ⟨UInt64.ofNat (← nanos.natBelow? UInt64.size),
      UInt32.ofNat (← counter.natBelow? UInt32.size)⟩
  | _ => none

end SequenceKey

end DocStore
