/-
Collections: the encoded documents of one namespace, with what queues, stacks and tables have
in common. Queries, counts and clearing go through the documents in ascending order of their
keys, a page at a time, and stop at the first failure.
-/
import DocStore.World
import DocStore.Query.Match

namespace DocStore

/-- The documents of a namespace. -/
structure Collection where
  space : Namespace
  codec : Codec
  /-- How many entries a scan fetches at a time. -/
  pageSize : Nat

/-- The document of an entry. -/
def Entry.document (entry : Entry) : Except CodecError Value := Codec.decode (entry.value.getD [])

/-- Feeds the entries of a scan to `f`, at most `fuel - 1` of them. -/
def Cursor.foldFuel {σ : Type} (f : σ → Entry → Op σ) : Nat → Cursor → σ → Op σ
  | 0, _, acc => return acc
  | fuel + 1, cursor, acc => do
    match ← Op.access cursor.next with
    | none => return acc
    | some (entry, cursor) => do
      let acc ← f acc entry
      foldFuel f fuel cursor acc

/-- Feeds the entries of a scan to `f`, up to the end or the first failure. A scan meets each
entry of the store at most once, so the fuel suffices as long as `f` adds none. -/
def Cursor.fold {σ : Type} (cursor : Cursor) (acc : σ) (f : σ → Entry → Op σ) : Op σ := do
  let world ← get
  cursor.foldFuel f (world.engine.store.size + cursor.pending.length + 1) acc

namespace Collection

/-- The path of the namespace. -/
def path (collection : Collection) : String := collection.space.path

/-- The document under a key. -/
def get (collection : Collection) (key : Bytes) : Op (Option Value) := do
  match ← Op.access (collection.space.get key) with
  | some bytes => return some (← Op.coded (Codec.decode bytes))
  | none => return none

/-- Stores a document under a key. -/
def put (collection : Collection) (key : Bytes) (value : Value) : Op Unit := do
  let bytes ← Op.coded (collection.codec.encode value)
  Op.access (collection.space.put key bytes)

def delete (collection : Collection) (key : Bytes) : Op Unit :=
  Op.access (collection.space.delete key)

/-- The key and the document at an end of the collection. -/
def first (collection : Collection) (fromEnd : End) : Op (Option (Bytes × Value)) := do
  let entries ← Op.access (collection.space.scan (.first (fromEnd = .newest)))
  match entries.getLast? with
  | some entry => return some (entry.key, ← Op.coded entry.document)
  | none => return none

/-- A scan of the collection before its first page. -/
def cursor (collection : Collection) (options : ScanOptions) : Cursor :=
  .start collection.space options collection.pageSize

/-- The documents that match, in ascending order of their keys. -/
def query (collection : Collection) (expression : Expression) : Op (List Value) := do
  let found ← (collection.cursor .all).fold ([] : List Value) fun found entry => do
    let doc ← Op.coded entry.document
    return if expression.matches doc then doc :: found else found
  return found.reverse

/-- How many documents match, or how many there are. -/
def count (collection : Collection) (expression : Option Expression) : Op Nat :=
  let expression := expression.getD .everything
  (collection.cursor .all).fold 0 fun count entry => do
    let doc ← Op.coded entry.document
    return if expression.matches doc then count + 1 else count

/-- A scan of the keys of the collection before its first page. -/
def keyCursor (collection : Collection) : Cursor := collection.cursor ScanOptions.all.keysOnly

/-- Deletes every document, one at a time. Those deleted before a failure stay deleted. -/
def empty (collection : Collection) : Op Unit := do
  let removed ← collection.keyCursor.fold 0 fun removed entry => do
    collection.delete entry.key
    return removed + 1
  Op.report (.emptied collection.path removed)

end Collection

/-! ## Lazy queries -/

/-- A query that is answered document by document; it ends with its scan. -/
structure DocumentStream where
  expression : Expression
  cursor : Option Cursor

namespace DocumentStream

/-- What a lazy query yields. -/
inductive Item where
  | document (doc : Value)
  | failure (error : Error)
  | ended

/-- The lazy form of a query. -/
def ofCollection (collection : Collection) (expression : Expression) : DocumentStream :=
  ⟨expression, some (collection.cursor .all)⟩

/-- Looks for the next document that matches among at most `fuel - 1` entries. A document that
cannot be read is yielded as a failure and passed over; a failed scan is the last item. -/
def nextFuel (expression : Expression) : Nat → Cursor → World → (Item × Option Cursor) × World
  | 0, _, world => ((.ended, none), world)
  | fuel + 1, cursor, world =>
    match Op.access cursor.next world with
    | .error error world => ((.failure error, none), world)
    | .ok none world => ((.ended, none), world)
    | .ok (some (entry, cursor)) world =>
      match entry.document with
      | .error error => ((.failure (.codec error), some cursor), world)
      | .ok doc =>
        if expression.matches doc then ((.document doc, some cursor), world)
        else nextFuel expression fuel cursor world

/-- The next item, and the lazy query after it. -/
def next (stream : DocumentStream) : StateM World (Item × DocumentStream) := fun world =>
  match stream.cursor with
  | none => ((.ended, stream), world)
  | some cursor =>
    let fuel := world.engine.store.size + cursor.pending.length + 1
    let ((item, cursor), world) := nextFuel stream.expression fuel cursor world
    ((item, { stream with cursor }), world)

end DocumentStream

end DocStore
