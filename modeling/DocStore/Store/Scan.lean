/-
Scans: which entries of an ordered map to take, in which direction, how many, and with or
without their values.
-/
import DocStore.Store.ByteMap

namespace DocStore

/-- What a scan returns for one entry; the value only if the scan asked for values. -/
structure Entry where
  key : Bytes
  value : Option Bytes
  deriving DecidableEq, Inhabited

/-- What to scan. -/
structure ScanOptions where
  lower : Bound := .unbounded
  upper : Bound := .unbounded
  /-- Whether to go from the highest key down. -/
  reverse : Bool := false
  /-- How many entries to return at most. -/
  limit : Option Nat := none
  /-- Whether to return values. -/
  values : Bool := true
  deriving DecidableEq

namespace ScanOptions

/-- All entries, ascending. -/
def all : ScanOptions := {}

/-- The first entry alone, or the last one. -/
def first (reverse : Bool) : ScanOptions := { reverse, limit := some 1 }

def keysOnly (options : ScanOptions) : ScanOptions := { options with values := false }

/-- Whether a key lies between the bounds. -/
def contains (options : ScanOptions) (key : Bytes) : Bool :=
  options.lower.isBelow key && options.upper.isAbove key

/-- Whether the bounds leave no room between them, as their keys alone tell. -/
def isEmptyRange (options : ScanOptions) : Bool :=
  match options.lower, options.upper with
  | .included lo, .included hi => decide (hi < lo)
  | .included lo, .excluded hi => decide (hi ≤ lo)
  | .excluded lo, .excluded hi => decide (hi ≤ lo)
  | .excluded lo, .included hi => decide (hi ≤ lo)
  | _, _ => false

/-- The rest of a scan after `count` entries, the last of which had the key `last`. -/
def resume (options : ScanOptions) (last : Bytes) (count : Nat) : ScanOptions :=
  let rest := { options with limit := options.limit.map (· - count) }
  if options.reverse then { rest with upper := .excluded last }
  else { rest with lower := .excluded last }

end ScanOptions

/-- The entries that a scan returns. An empty range and a limit of zero are answered without
looking at the map. -/
def ByteMap.scan (map : ByteMap) (options : ScanOptions) : List Entry :=
  if options.isEmptyRange || options.limit == some 0 then []
  else
    let found := (map.range? options.lower options.upper).getD []
    let directed := if options.reverse then found.reverse else found
    let taken := match options.limit with
      | some limit => directed.take limit
      | none => directed
    taken.map fun entry => ⟨entry.1, if options.values then some entry.2 else none⟩

end DocStore
