/-
Running sessions. A session holds a database, the world its operations run in, the lazy queries
that are open, and the faults that are set. Every command ends in an outcome and leaves the
session with the calls it made and the events it logged recorded.
-/
import DocStore.Session.Command

namespace DocStore

/-- A fault that is set, and how many calls of its kind there had been. -/
structure SetFault where
  kind : CallKind
  fault : Fault
  since : Nat

/-- How many of some calls are of a kind. -/
def CallKind.countIn (kind : CallKind) (calls : List Call) : Nat :=
  calls.countP fun call => call.kind == kind

/-- The plan of the faults that are set. -/
def FaultPlan.ofFaults (faults : List SetFault) : FaultPlan := fun calls call =>
  (faults.find? fun set => set.kind == call.kind).bind fun set =>
    let skipped := set.kind.countIn calls - set.since
    if skipped = set.fault.skip ∨ (set.fault.sticky ∧ set.fault.skip < skipped) then
      some set.fault.error
    else none

/-- How a session is set up. -/
structure Setup where
  config : Config := {}
  /-- What the clock reads first. -/
  clock : UInt64 := 0
  /-- Whether the clock is the session's own, for commands to set. -/
  settable : Bool := true
  /-- Whether the data survives a reopening. -/
  durable : Bool := true
  /-- Whether operations that run together give way to each other after a scan. -/
  interleaved : Bool := false

/-- A session. -/
structure Session where
  setup : Setup
  database : Database
  world : World
  streams : List (String × DocumentStream) := []
  faults : List SetFault := []

namespace Session

/-- The world after an operation that cannot fail. -/
def worldAfter {α : Type} (operation : Op α) (world : World) : World :=
  match operation world with
  | .ok _ world => world
  | .error _ world => world

/-- Opens a session on a world. -/
def openOn (setup : Setup) (world : World) : Session :=
  { setup
    database := ⟨setup.config, .root⟩
    world := worldAfter (Database.openRoot setup.config) world }

/-- Opens a session on an empty store. -/
def start (setup : Setup) : Session := openOn setup { clock := setup.clock }

/-- The session with other faults set. -/
def withFaults (session : Session) (faults : List SetFault) : Session :=
  { session with
    faults
    world := { session.world with
      engine := { session.world.engine with faults := .ofFaults faults } } }

/-- The session with its store changed from below. -/
def mapStore (session : Session) (change : ByteMap → ByteMap) : Session :=
  { session with
    world := { session.world with
      engine := { session.world.engine with store := change session.world.engine.store } } }

/-- The database at a namespace. -/
def databaseAt (session : Session) (space : Namespace) : Database :=
  { session.database with space }

/-- Runs an operation. -/
def perform {α : Type} (session : Session) (operation : Op α) (answer : α → Answer) :
    Outcome × Session :=
  match operation session.world with
  | .ok a world => (.answer (answer a), { session with world })
  | .error error world => (.failure error, { session with world })

/-- Goes on with the expression of a source. -/
def withQuery (session : Session) (source : QuerySource)
    (resume : Expression → Outcome × Session) : Outcome × Session :=
  match source.resolve? with
  | none => (.malformedQuery, session)
  | some (.error error) => (.failure (.query error), session)
  | some (.ok expression) => resume expression

/-- Collects the entries of a scan in reverse, at most `fuel - 1` of them. -/
def collect : Nat → Cursor → List Entry → Access (List Entry)
  | 0, _, found => return found
  | fuel + 1, cursor, found => do
    match ← cursor.next with
    | some (entry, cursor) => collect fuel cursor (entry :: found)
    | none => return found

/-- The entries of a scan of a namespace, a page at a time. -/
def collectStream (space : Namespace) (options : ScanOptions) (pageSize : Nat) :
    Access (List Entry) := do
  let engine ← get
  let found ← collect (engine.store.size + 1) (.start space options pageSize) []
  return found.reverse

/-- Takes up to `count` items of a lazy query, `none` for the query once it has ended. -/
def pull : Nat → DocumentStream → World →
    (List DocumentStream.Item × Option DocumentStream) × World
  | 0, stream, world => (([], some stream), world)
  | count + 1, stream, world =>
    match stream.next world with
    | ((.ended, _), world) => (([.ended], none), world)
    | ((item, stream), world) =>
      let ((items, stream), world) := pull count stream world
      ((item :: items, stream), world)

/-- Takes up to `count` items of the lazy query of an id. An ended query is forgotten. -/
def next (session : Session) (id : String) (count : Nat) : Outcome × Session :=
  match session.streams.lookup id with
  | none => (.answer (.items []), session)
  | some stream =>
    let ((items, stream), world) := pull count stream session.world
    let others := session.streams.filter fun entry => entry.1 != id
    let streams := match stream with
      | some stream => (id, stream) :: others
      | none => others
    (.answer (.items items), { session with world, streams })

/-- The operation of a removal. -/
def removalOp (session : Session) (removal : Removal) : Op (Option Value) :=
  let sequence := (session.databaseAt removal.space).sequence removal.name
  if removal.takes then sequence.take removal.fromEnd else sequence.peek removal.fromEnd

/-- The task of a removal. -/
def removalTask (session : Session) (removal : Removal) : Task :=
  let sequence := (session.databaseAt removal.space).sequence removal.name
  if removal.takes then .take sequence removal.fromEnd else .peek sequence removal.fromEnd

/-- Runs removals one after another. -/
def joinInOrder (session : Session) :
    List Removal → World → List (Except Error (Option Value)) × World
  | [], world => ([], world)
  | removal :: rest, world =>
    match session.removalOp removal world with
    | .ok item world =>
      let (answers, world) := joinInOrder session rest world
      (.ok item :: answers, world)
    | .error error world =>
      let (answers, world) := joinInOrder session rest world
      (.error error :: answers, world)

/-- What a finished task found. -/
def foundBy (task : Task) : Except Error (Option Value) :=
  match task.answer? with
  | some (.ok (.found item)) => .ok item
  | some (.error error) => .error error
  | _ => .ok none

/-- Runs removals together. -/
def join (session : Session) (removals : List Removal) : Outcome × Session :=
  if session.setup.interleaved then
    let (tasks, shared) := Task.runTurns (removals.map session.removalTask) ⟨session.world, []⟩
    (.answer (.joined (tasks.map foundBy)), { session with world := shared.world })
  else
    let (answers, world) := session.joinInOrder removals session.world
    (.answer (.joined answers), { session with world })

/-- Closes the database and opens it again. The lazy queries and the faults go; the data stays
if it is durable, and the clock stays, with the keys issued from it unless fresh ones are asked
for and the clock is the session's own. -/
def reopen (session : Session) (freshKeys : Bool) : Session :=
  let world := session.world
  openOn session.setup
    { engine := { store := if session.setup.durable then world.engine.store else .empty }
      clock := world.clock
      lastKey := if freshKeys && session.setup.settable then none else world.lastKey
      log := world.log }

/-- Runs a command. -/
def run (session : Session) (command : Command) : Outcome × Session :=
  match command with
  | .path space => (.answer (.text space.path), session)
  | .tablePath space keyField => (.answer (.texts [space.path, keyField]), session)
  | .config => (.answer (.config session.database.config), session)
  | .get space key => session.perform ((session.databaseAt space).get key) .found
  | .put space key value =>
    session.perform ((session.databaseAt space).put key value) fun _ => .done
  | .del space key => session.perform ((session.databaseAt space).del key) fun _ => .done
  | .query space source => session.withQuery source fun expression =>
    session.perform ((session.databaseAt space).query expression) .documents
  | .count space (some source) => session.withQuery source fun expression =>
    session.perform ((session.databaseAt space).documents.count expression) .count
  | .count space none => session.perform ((session.databaseAt space).documents.count none) .count
  | .empty space => session.perform (session.databaseAt space).documents.empty fun _ => .done
  | .insert space name item =>
    session.perform (((session.databaseAt space).sequence name).insert item) .document
  | .remove removal => session.perform (session.removalOp removal) .found
  | .tablePut space name keyField item =>
    session.perform (((session.databaseAt space).table name keyField).put item) .document
  | .tableAll space name keyField =>
    session.perform ((session.databaseAt space).table name keyField).getAll .documents
  | .tableDel space name keyField key =>
    session.perform (((session.databaseAt space).table name keyField).del key) fun _ => .done
  | .stream id space source => session.withQuery source fun expression =>
    let stream := DocumentStream.ofCollection (session.databaseAt space).documents expression
    let others := session.streams.filter fun entry => entry.1 != id
    (.answer .done, { session with streams := (id, stream) :: others })
  | .next id count => session.next id count
  | .join removals => session.join removals
  | .spacePut space key value => session.perform (Op.access (space.put key value)) fun _ => .done
  | .spaceGet space key => session.perform (Op.access (space.get key)) .bytes
  | .spaceDel space key => session.perform (Op.access (space.delete key)) fun _ => .done
  | .spaceScan space options => session.perform (Op.access (space.scan options)) .entries
  | .spaceStream space options pageSize =>
    session.perform (Op.access (collectStream space options pageSize)) .entries
  | .enginePut key value => (.answer .done, session.mapStore (·.insert key value))
  | .engineGet key => (.answer (.bytes (session.world.engine.store.get? key)), session)
  | .engineDel key => (.answer .done, session.mapStore (·.erase key))
  | .engineScan options => (.answer (.entries (session.world.engine.store.scan options)), session)
  | .engineSize => (.answer (.size session.world.engine.store.size), session)
  | .setClock nanos =>
    let clock := if session.setup.settable then nanos else session.world.clock
    (.answer .done, { session with world := { session.world with clock } })
  | .fault kind fault =>
    let others := session.faults.filter fun set => set.kind != kind
    let since := kind.countIn session.world.engine.calls
    (.answer .done, session.withFaults (⟨kind, fault, since⟩ :: others))
  | .clearFaults => (.answer .done, session.withFaults [])
  | .reopen freshKeys => (.answer .done, session.reopen freshKeys)

/-- What a command did besides its outcome: the calls it made and the events it logged, each in
order. -/
structure Record where
  outcome : Outcome
  calls : List Call
  events : List Event

/-- What a list kept latest first has gained since it had `count` elements, earliest first. -/
def gained {α : Type} (count : Nat) (list : List α) : List α :=
  (list.take (list.length - count)).reverse

/-- Runs a command and records what it did. -/
def step (session : Session) (command : Command) : Record × Session :=
  let (outcome, after) := session.run command
  (⟨outcome, gained session.world.engine.calls.length after.world.engine.calls,
    gained session.world.log.length after.world.log⟩, after)

end Session

end DocStore
