/-
Lazy scans of a namespace, a page at a time. A page is fetched when the one before it is used
up, and starts strictly past the last key of that page, so writes made meanwhile ahead of the
cursor are seen. A page shorter than was asked for is the last one.
-/
import DocStore.Store.Namespace

namespace DocStore

/-- A scan under way. -/
structure Cursor where
  space : Namespace
  /-- How many entries a page has at most. -/
  pageSize : Nat
  /-- What is left of the page fetched last. -/
  pending : List Entry
  /-- What is left to scan after that page, `none` if it was the last one. -/
  rest : Option ScanOptions

namespace Cursor

/-- The scan of a namespace before its first page. A page has at least one entry. -/
def start (space : Namespace) (options : ScanOptions) (pageSize : Nat) : Cursor :=
  ⟨space, max 1 pageSize, [], some options⟩

/-- How many entries the next page is asked for. -/
def pageLimit (options : ScanOptions) (pageSize : Nat) : Nat :=
  match options.limit with
  | some limit => min limit pageSize
  | none => pageSize

/-- Fetches a page, and says what is left to scan after it. -/
def fetch (space : Namespace) (options : ScanOptions) (pageSize : Nat) :
    Access (List Entry × Option ScanOptions) := do
  let limit := pageLimit options pageSize
  if limit = 0 then return ([], none)
  let page ← space.scan { options with limit := some limit }
  match page.getLast? with
  | none => return ([], none)
  | some last =>
    return (page, if page.length < limit then none else some (options.resume last.key page.length))

/-- The next entry and the scan after it, `none` at the end. -/
def next (cursor : Cursor) : Access (Option (Entry × Cursor)) :=
  match cursor.pending with
  | entry :: pending => return some (entry, { cursor with pending })
  | [] =>
    match cursor.rest with
    | none => return none
    | some options => do
      match ← fetch cursor.space options cursor.pageSize with
      | ([], _) => return none
      | (entry :: pending, rest) => return some (entry, { cursor with pending, rest })

end Cursor

end DocStore
