/-
Queries, counts, listings and lazy queries agree. On an engine whose calls are served what each of
them answers depends on nothing but what reading the documents of the namespace gives, one after
another in ascending order of their keys. The answers that are made at once fail with the first
document that cannot be read, whether or not those before it match; a lazy query yields that failure
in the place of the document and goes on. The size of a page is in none of the answers.
-/
import DocStore.Proofs.Collection.Walks
import DocStore.Proofs.Collection.ListRefinement
import DocStore.Session.Run

namespace DocStore

open DocumentStream (Item)

/-! ## The reference -/

/-- What reading a document gives. -/
abbrev Reading := Except CodecError Value

/-- Why a document cannot be read. -/
def Reading.error? : Reading → Option CodecError
  | .ok _ => none
  | .error error => some error

/-- What reading the documents of a namespace gives, in ascending order of their keys. -/
def Namespace.readings (space : Namespace) (store : ByteMap) : List Reading :=
  (space.view store).entries.map fun e => Codec.decode e.2

namespace Expression

/-- The documents that match, if all can be read, and else why the first that cannot be read
cannot. -/
def answer (expression : Expression) (readings : List Reading) : Except Error (List Value) :=
  match readings.findSome? Reading.error? with
  | some error => .error (.codec error)
  | none => .ok (expression.select (readings.filterMap Except.toOption))

/-- What a lazy query yields for a document, `none` if it is passed over. -/
def item? (expression : Expression) : Reading → Option Item
  | .ok doc => if expression.matches doc then some (.document doc) else none
  | .error error => some (.failure (.codec error))

end Expression

/-- What the readers of a collection answer, given what reading its documents gives. -/
structure Collection.Agrees (collection : Collection) (world : World) (readings : List Reading) :
    Prop where
  query : ∀ expression,
    ((collection.query expression).outcome world).1 = expression.answer readings
  count : ∀ expression,
    ((collection.count (some expression)).outcome world).1 =
      (expression.answer readings).map List.length
  countAll : ((collection.count none).outcome world).1 =
    ((collection.count (some .everything)).outcome world).1
  listing : ∀ keyField,
    ((Table.getAll ⟨collection, keyField⟩).outcome world).1 =
      ((collection.query .everything).outcome world).1
  /-- Polled any number of times, a lazy query yields the items of the readings and the end. -/
  polled : ∀ expression polls,
    (Session.pull polls (.ofCollection collection expression) world).1.1 =
      (readings.filterMap expression.item? ++ [Item.ended]).take polls
  /-- A lazy query yields the documents that the query answers, if it does not fail. -/
  polledOut : ∀ expression docs polls,
    ((collection.query expression).outcome world).1 = .ok docs → docs.length < polls →
    (Session.pull polls (.ofCollection collection expression) world).1.1 =
      docs.map .document ++ [Item.ended]

/-! ## Answers made at once -/

/-- Reading all documents stops at the first that cannot be read. -/
theorem mapM_readings (readings : List Reading) :
    readings.mapM id = match readings.findSome? Reading.error? with
      | some error => .error error
      | none => .ok (readings.filterMap Except.toOption) := by
  induction readings with
  | nil => rfl
  | cons reading rest ih =>
    rw [List.mapM_cons, ih]
    cases reading with
    | error error => rfl
    | ok doc =>
      rw [List.findSome?_cons_of_isNone rfl]
      cases rest.findSome? Reading.error? <;> rfl

namespace Expression

/-- If every document can be read, a lazy query yields those that match. -/
theorem items_of_answer {expression : Expression} {readings : List Reading} {docs : List Value}
    (h : expression.answer readings = .ok docs) :
    readings.filterMap expression.item? = docs.map .document := by
  unfold answer at h
  split at h
  · cases h
  · rename_i hread
    cases h
    induction readings with
    | nil => rfl
    | cons reading rest ih =>
      cases reading with
      | error error => cases hread
      | ok doc =>
        have hitems := ih (List.findSome?_eq_none_iff.2 fun r hr =>
          List.findSome?_eq_none_iff.1 hread r (List.mem_cons_of_mem _ hr))
        unfold select at hitems ⊢
        by_cases hmatch : expression.matches doc = true
        · simp [item?, hmatch, hitems, Except.toOption]
        · simp [item?, hmatch, hitems, Except.toOption]

end Expression

namespace Collection

variable (collection : Collection) {world : World} (hserved : world.engine.faults = .never)

theorem readAll_eq (world : World) :
    collection.readAll world = (collection.space.readings world.engine.store).mapM id := by
  unfold readAll Namespace.readings
  rw [List.mapM_map]
  rfl

include hserved

theorem outcome_query (expression : Expression) :
    ((collection.query expression).outcome world).1 =
      expression.answer (collection.space.readings world.engine.store) := by
  obtain ⟨after, -, hquery⟩ := collection.query_spec hserved expression
  rw [readAll_eq, mapM_readings] at hquery
  unfold Op.outcome Expression.answer
  rw [hquery]
  cases (collection.space.readings world.engine.store).findSome? Reading.error? <;> rfl

theorem outcome_count (expression : Option Expression) :
    ((collection.count expression).outcome world).1 =
      ((expression.getD .everything).answer (collection.space.readings world.engine.store)).map
        List.length := by
  obtain ⟨after, -, hcount⟩ := collection.count_spec hserved expression
  rw [readAll_eq, mapM_readings] at hcount
  unfold Op.outcome Expression.answer
  rw [hcount]
  cases (collection.space.readings world.engine.store).findSome? Reading.error? <;> rfl

end Collection

/-! ## Lazy queries -/

/-- What a lazy query yields for the entries that remain to a cursor, if nobody writes. -/
def Cursor.items (cursor : Cursor) (expression : Expression) (store : ByteMap) : List Item :=
  (cursor.remaining store).filterMap fun entry => expression.item? entry.document

namespace DocumentStream

/-- What a lazy query has still to yield, if nobody writes. -/
def items (stream : DocumentStream) (store : ByteMap) : List Item :=
  stream.cursor.elim [] fun cursor => cursor.items stream.expression store

/-- The next item of a lazy query is the first of those it has still to yield, or the end. -/
inductive NextOf (expression : Expression) (store : ByteMap) :
    List Item → Item × Option Cursor → Prop
  | ended : NextOf expression store [] (.ended, none)
  | item {item : Item} {rest : Cursor} (hlast : item ≠ .ended) (hsound : rest.Sound) :
    NextOf expression store (item :: rest.items expression store) (item, some rest)

theorem nextFuel_served (expression : Expression) {fuel : Nat} {cursor : Cursor} {world : World}
    (hsound : cursor.Sound) (hserved : world.engine.faults = .never)
    (hfuel : (cursor.remaining world.engine.store).length < fuel) :
    ∃ found after, nextFuel expression fuel cursor world = (found, after) ∧
      world.Unwritten after ∧
      NextOf expression world.engine.store (cursor.items expression world.engine.store) found := by
  -- on the fuel: a document that does not match leaves one entry less to go through
  induction fuel generalizing cursor world with
  | zero => omega
  | succ fuel ih =>
    rcases Cursor.next_served hsound hserved with
      ⟨engine, hnext, hsame, hend⟩ | ⟨entry, rest, engine, hnext, hsame, hyields⟩
    · refine ⟨(.ended, none), _, by simp only [nextFuel, Op.access_ok hnext], hsame, ?_⟩
      rw [Cursor.items, hend]
      exact .ended
    · rw [hyields.remaining, List.length_cons] at hfuel
      rw [Cursor.items, hyields.remaining]
      cases hread : entry.document with
      | error error =>
        refine ⟨(.failure (.codec error), some rest), _,
          by simp only [nextFuel, Op.access_ok hnext, hread], hsame, ?_⟩
        rw [List.filterMap_cons_some (by rw [hread]; rfl)]
        exact .item nofun hyields.sound
      | ok doc =>
        by_cases hmatch : expression.matches doc = true
        · refine ⟨(.document doc, some rest), _,
            by simp only [nextFuel, Op.access_ok hnext, hread, if_pos hmatch], hsame, ?_⟩
          rw [List.filterMap_cons_some (by rw [hread]; exact if_pos hmatch)]
          exact .item nofun hyields.sound
        · have hstore : engine.store = world.engine.store := hsame.store
          have hroom : (rest.remaining ({ world with engine } : World).engine.store).length < fuel := by
            rw [hstore]
            omega
          obtain ⟨found, after, hrun, hafter, hfound⟩ :=
            ih hyields.sound (hsame.faults.trans hserved) hroom
          refine ⟨found, after, ?_, trans_of World.Unwritten hsame hafter, ?_⟩
          · simp only [nextFuel, Op.access_ok hnext, hread, if_neg hmatch]
            exact hrun
          · rw [List.filterMap_cons_none (by rw [hread]; exact if_neg hmatch)]
            rw [hstore] at hfound
            exact hfound

/-- Polled any number of times a lazy query yields what it has still to yield, and then the end. -/
theorem pull_served {polls : Nat} {stream : DocumentStream} {world : World}
    (hsound : ∀ cursor, stream.cursor = some cursor → cursor.Sound)
    (hserved : world.engine.faults = .never) :
    (Session.pull polls stream world).1.1 =
      (stream.items world.engine.store ++ [Item.ended]).take polls := by
  induction polls generalizing stream world with
  | zero => rfl
  | succ polls ih =>
    obtain ⟨expression, cursor⟩ := stream
    cases cursor with
    | none => simp [Session.pull, DocumentStream.next, items]
    | some cursor =>
      obtain ⟨found, after, hrun, hafter, hfound⟩ := nextFuel_served expression (hsound cursor rfl)
        hserved (cursor.length_remaining_lt world.engine.store)
      have hnext : DocumentStream.next ⟨expression, some cursor⟩ world =
          ((found.1, ⟨expression, found.2⟩), after) := by
        simp only [DocumentStream.next, hrun]
      show _ = (cursor.items expression world.engine.store ++ [Item.ended]).take _
      generalize cursor.items expression world.engine.store = upcoming at hfound
      cases hfound with
      | ended => simp [Session.pull, hnext]
      | @item item rest hlast hrest =>
        have hpull : (Session.pull (polls + 1) ⟨expression, some cursor⟩ world).1.1 =
            item :: (Session.pull polls ⟨expression, some rest⟩ after).1.1 := by
          cases item with
          | ended => exact absurd rfl hlast
          | document doc => simp only [Session.pull, hnext]
          | failure error => simp only [Session.pull, hnext]
        rw [hpull, ih (fun _ h => by cases h; exact hrest) (hafter.faults.trans hserved),
          hafter.store]
        rfl

end DocumentStream

theorem Collection.polled_eq (collection : Collection) {world : World}
    (hserved : world.engine.faults = .never) (expression : Expression) (polls : Nat) :
    (Session.pull polls (.ofCollection collection expression) world).1.1 =
      ((collection.space.readings world.engine.store).filterMap expression.item? ++
        [Item.ended]).take polls := by
  have hentries : (collection.cursor .all).remaining world.engine.store =
      (collection.held world).entries.map Entry.ofStored :=
    (collection.held world).scan_all
  have hitems : (DocumentStream.ofCollection collection expression).items world.engine.store =
      (collection.space.readings world.engine.store).filterMap expression.item? := by
    show ((collection.cursor .all).remaining world.engine.store).filterMap _ = _
    rw [hentries, Namespace.readings, List.filterMap_map, List.filterMap_map]
    rfl
  rw [DocumentStream.pull_served ?_ hserved, hitems]
  rintro _ ⟨⟩
  exact Cursor.sound_start _ _ _

/-! ## Agreement -/

/-- Whatever bytes a namespace holds and whatever the size of a page, all readers of its documents
answer as one list of readings says, in which the size of a page does not occur. -/
theorem Collection.readers_agree (space : Namespace) (codec : Codec) {world : World}
    (hserved : world.engine.faults = .never) (pageSize : Nat) :
    Collection.Agrees ⟨space, codec, pageSize⟩ world (space.readings world.engine.store) where
  query := Collection.outcome_query _ hserved
  count expression := Collection.outcome_count _ hserved (some expression)
  countAll := (Collection.outcome_count _ hserved none).trans
    (Collection.outcome_count _ hserved (some .everything)).symm
  listing _ := rfl
  polled := Collection.polled_eq _ hserved
  polledOut expression docs polls hquery hpolls := by
    rw [Collection.outcome_query _ hserved] at hquery
    rw [Collection.polled_eq _ hserved, Expression.items_of_answer hquery]
    exact List.take_of_length_le (by simp; omega)

/-- The numbers 3 and 5 with a document between them that cannot be read, and the number 1 in a
namespace below. -/
def interrupted : World where
  engine.store :=
    (((ByteMap.empty.insert (Namespace.root.dataKey [2]) [0x35]).insert
      (Namespace.root.dataKey [0]) [0x33]).insert (Namespace.root.dataKey [1, 1]) [0x78]).insert
      ((Namespace.root.sub "q").dataKey [1]) [0x31]

theorem interrupted_readers_agree : interrupted.engine.faults = .never ∧
    ∃ error, Codec.decode [0x78] = .error error ∧
      ((Collection.query ⟨.root, {}, 1⟩ (.any [])).outcome interrupted).1 = .error (.codec error) ∧
      (Session.pull 9 (.ofCollection ⟨.root, {}, 2⟩ .everything) interrupted).1.1 =
        [.document (.int 3), .failure (.codec error), .document (.int 5), .ended] := by
  have hserved : interrupted.engine.faults = .never := rfl
  have hagree := Collection.readers_agree .root {} hserved
  obtain ⟨error, hread⟩ : ∃ error, Codec.decode [0x78] = .error error := ⟨_, rfl⟩
  have hentries : (Namespace.root.view interrupted.engine.store).entries =
      [([0], [0x33]), ([1, 1], [0x78]), ([2], [0x35])] := rfl
  have hreadings : Namespace.root.readings interrupted.engine.store =
      [.ok (.int 3), .error error, .ok (.int 5)] := by
    rw [Namespace.readings, hentries, ← hread]
    rfl
  refine ⟨hserved, error, hread, ?_, ?_⟩
  · rw [(hagree 1).query, hreadings]
    rfl
  · rw [(hagree 2).polled, hreadings]
    rfl

end DocStore
