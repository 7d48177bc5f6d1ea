/-
Records in JSON texts: an object with members of given names, or an array with their values in
that order. Members of other names are ignored, whatever their values; a name may be missing, but
not be repeated. All names of the object are texts.
-/
import DocStore.Json.Tree

namespace DocStore.Json

/-- The value of the one member of a given name: `none` outside if there are several, `none`
inside if there is none. -/
def member? (members : List (JsonString × Json)) (name : String) : Option (Option Json) :=
  match members.filter fun entry => entry.1 == some name with
  | [] => some none
  | [(_, value)] => some (some value)
  | _ => none

/-- The values of the named fields of a record, each if present. -/
def record? (names : List String) : Json → Option (List (Option Json))
  | object members =>
    if members.all fun entry => entry.1.isSome then names.mapM (member? members) else none
  | array items =>
    if items.length ≤ names.length then
      some (items.map some ++ List.replicate (names.length - items.length) none)
    else none
  | _ => none

/-- An integer that is no overflow of `limit`. -/
def natBelow? (limit : Nat) : Json → Option Nat
  | number (.int n) => if 0 ≤ n ∧ n < limit then some n.toNat else none
  | _ => none

def bool? : Json → Option Bool
  | bool b => some b
  | _ => none

end DocStore.Json
