/-
Ordered maps from byte strings to byte strings, kept as ascending lists of entries, and the
ranges of keys that can be taken out of them. The entries of a range are those whose keys its
two bounds admit; bounds that cross name no range.
-/
import DocStore.Ranked

namespace DocStore

/-- One end of a range of keys. -/
inductive Bound where
  | unbounded
  | included (key : Bytes)
  | excluded (key : Bytes)
  deriving DecidableEq

namespace Bound

/-- Whether a key lies above the bound, taken as a lower one. -/
def isBelow (lower : Bound) (key : Bytes) : Bool :=
  match lower with
  | unbounded => true
  | included lo => decide (lo ≤ key)
  | excluded lo => decide (lo < key)

/-- Whether a key lies below the bound, taken as an upper one. -/
def isAbove (upper : Bound) (key : Bytes) : Bool :=
  match upper with
  | unbounded => true
  | included hi => decide (key ≤ hi)
  | excluded hi => decide (key < hi)

/-- Whether a lower and an upper bound cross: the lower key is above the upper one, or both
exclude the same key. -/
def cross (lower upper : Bound) : Bool :=
  match lower, upper with
  | excluded lo, excluded hi => decide (hi ≤ lo)
  | included lo, included hi => decide (hi < lo)
  | included lo, excluded hi => decide (hi < lo)
  | excluded lo, included hi => decide (hi < lo)
  | _, _ => false

end Bound

/-- An ordered map: entries of a key and a value, in ascending order of their keys. -/
structure ByteMap where
  entries : List (Bytes × Bytes)
  ascending : Ranked.Ascending id entries

namespace ByteMap

def empty : ByteMap := ⟨[], List.Pairwise.nil⟩

instance : Inhabited ByteMap := ⟨empty⟩

def size (map : ByteMap) : Nat := map.entries.length

def get? (map : ByteMap) (key : Bytes) : Option Bytes := map.entries.lookup key

/-- The map with `value` under `key`, whatever was there before. -/
def insert (map : ByteMap) (key value : Bytes) : ByteMap :=
  ⟨Ranked.insert id key value map.entries, map.ascending.insert key value⟩

/-- The map without `key`, whether it was there or not. -/
def erase (map : ByteMap) (key : Bytes) : ByteMap :=
  ⟨map.entries.filter fun entry => entry.1 != key, map.ascending.filter _⟩

/-- The entries between two bounds in ascending order, `none` if the bounds cross. -/
def range? (map : ByteMap) (lower upper : Bound) : Option (List (Bytes × Bytes)) :=
  if lower.cross upper then none
  else some (map.entries.filter fun entry => lower.isBelow entry.1 && upper.isAbove entry.1)

end ByteMap

end DocStore
