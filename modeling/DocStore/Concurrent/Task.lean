/-
Operations on sequences as tasks that run in steps, so that several can run at once. A step
makes at most one call of the storage engine, issues at most one key, and takes or hands back
at most one lock; between its steps the steps of other tasks may come. A task that takes from
an exclusive sequence holds the lock of the namespace from before it reads until after its
answer is settled, and waits while another task holds it.
-/
import DocStore.Collection.Sequence

namespace DocStore

/-- What tasks share: the world, and the stems of the namespaces whose locks are held. -/
structure Shared where
  world : World
  held : List Bytes := []

/-- What a task ends with. -/
inductive TaskAnswer where
  | inserted (item : Value)
  | found (item : Option Value)
  | selected (docs : List Value)
  | emptied

/-- An operation under way. -/
inductive Task where
  /-- Has still to issue its key. -/
  | insert (sequence : Sequence) (item : Value)
  /-- Has still to store the item under its key. -/
  | place (sequence : Sequence) (item : Value) (key : SequenceKey)
  | peek (sequence : Sequence) (fromEnd : End)
  /-- Has still to get the lock, if the sequence is exclusive. -/
  | take (sequence : Sequence) (fromEnd : End)
  /-- Has still to read the end of the sequence. -/
  | read (sequence : Sequence) (fromEnd : End)
  /-- Has still to delete what it has read. -/
  | remove (sequence : Sequence) (fromEnd : End) (key : Bytes) (item : Value)
  /-- Has still to hand back the lock. -/
  | release (sequence : Sequence) (answer : Except Error TaskAnswer)
  /-- Has `found` so far, in reverse. -/
  | query (expression : Expression) (cursor : Cursor) (found : List Value)
  /-- Has deleted `removed` documents so far. -/
  | empty (collection : Collection) (cursor : Cursor) (removed : Nat)
  /-- Has still to delete `key`. -/
  | erase (collection : Collection) (cursor : Cursor) (removed : Nat) (key : Bytes)
  | finished (answer : Except Error TaskAnswer)

namespace Task

/-- A query before its first step. -/
def ofQuery (collection : Collection) (expression : Expression) : Task :=
  .query expression (collection.cursor .all) []

/-- The clearing of a collection before its first step. -/
def ofEmpty (collection : Collection) : Task := .empty collection collection.keyCursor 0

/-- The next document of a query, and the scan after it. -/
def nextDocument (cursor : Cursor) : Op (Option (Value × Cursor)) := do
  match ← Op.access cursor.next with
  | some (entry, cursor) => return some (← Op.coded entry.document, cursor)
  | none => return none

/-- The next key to clear, and the scan after it; the end is reported. -/
def nextKey (collection : Collection) (cursor : Cursor) (removed : Nat) :
    Op (Option (Bytes × Cursor)) := do
  match ← Op.access cursor.next with
  | some (entry, cursor) => return some (entry.key, cursor)
  | none =>
    Op.report (.emptied collection.path removed)
    return none

/-- A task that takes, after its answer is settled. -/
def settle (sequence : Sequence) (answer : Except Error TaskAnswer) : Task :=
  if sequence.exclusive then .release sequence answer else .finished answer

/-- The lock of a sequence. -/
def lock (sequence : Sequence) : Bytes := sequence.collection.space.stem

/-- Goes on with `next` after an operation, or with `failed` if it fails. -/
def after {α : Type} (shared : Shared) (operation : Op α) (next : α → Task)
    (failed : Except Error TaskAnswer → Task) : Task × Shared :=
  match operation shared.world with
  | .ok answer world => (next answer, { shared with world })
  | .error error world => (failed (.error error), { shared with world })

/-- A step of a task, `none` while it waits for a lock and when it is finished. -/
def step (task : Task) (shared : Shared) : Option (Task × Shared) :=
  match task with
  | .insert sequence item => some (after shared Op.issueKey (.place sequence item) .finished)
  | .place sequence item key =>
    some (after shared (sequence.store key item) (fun item => .finished (.ok (.inserted item)))
      .finished)
  | .peek sequence fromEnd =>
    some (after shared (sequence.peek fromEnd) (fun item => .finished (.ok (.found item)))
      .finished)
  | .take sequence fromEnd =>
    if sequence.exclusive then
      if lock sequence ∈ shared.held then none
      else some (.read sequence fromEnd, { shared with held := lock sequence :: shared.held })
    else some (.read sequence fromEnd, shared)
  | .read sequence fromEnd =>
    some (after shared (sequence.collection.first fromEnd)
      (fun
        | some (key, item) => .remove sequence fromEnd key item
        | none => settle sequence (.ok (.found none)))
      (settle sequence))
  | .remove sequence fromEnd key item =>
    some (after shared (sequence.remove fromEnd key item)
      (fun item => settle sequence (.ok (.found (some item)))) (settle sequence))
  | .release sequence answer =>
    some (.finished answer, { shared with held := shared.held.erase (lock sequence) })
  | .query expression cursor found =>
    some (after shared (nextDocument cursor)
      (fun
        | some (doc, cursor) =>
          .query expression cursor (if expression.matches doc then doc :: found else found)
        | none => .finished (.ok (.selected found.reverse)))
      .finished)
  | .empty collection cursor removed =>
    some (after shared (nextKey collection cursor removed)
      (fun
        | some (key, cursor) => .erase collection cursor removed key
        | none => .finished (.ok .emptied))
      .finished)
  | .erase collection cursor removed key =>
    some (after shared (collection.delete key)
      (fun _ => .empty collection cursor (removed + 1)) .finished)
  | .finished _ => none

/-- The answer of a finished task. -/
def answer? : Task → Option (Except Error TaskAnswer)
  | .finished answer => some answer
  | _ => none

end Task

end DocStore
