/-
Tables are maps. A namespace that is written only through tables, each with a key field, a codec and
a page size of its own, answers every request as one map from texts to documents does, in the byte
order of the texts: a put sets the document under the text of its key to what the stored document
reads back as, and a put that fails changes nothing. The key is looked at before the document is
encoded.
-/
import DocStore.Proofs.Collection.ListRefinement
import DocStore.Proofs.Collection.Readable
import DocStore.Proofs.Ranked

namespace DocStore

/-! ## The map -/

/-- A map from texts to documents, its entries in the byte order of the texts. -/
structure DocumentMap where
  entries : List (String × Value)
  ascending : Ranked.Ascending utf8 entries

namespace DocumentMap

def empty : DocumentMap := ⟨[], .nil⟩

def get? (map : DocumentMap) (key : String) : Option Value := map.entries.lookup key

/-- The map with a document under a key, whatever was there before. -/
def insert (map : DocumentMap) (key : String) (doc : Value) : DocumentMap :=
  ⟨Ranked.insert utf8 key doc map.entries, map.ascending.insert key doc⟩

/-- The map without a key, whether it was there or not. -/
def erase (map : DocumentMap) (key : String) : DocumentMap :=
  ⟨map.entries.filter fun e => e.1 != key, map.ascending.filter _⟩

/-- The documents in the order of their keys. -/
def documents (map : DocumentMap) : List Value := map.entries.map Prod.snd

theorem get?_insert (map : DocumentMap) (key other : String) (doc : Value) :
    (map.insert key doc).get? other = if other = key then some doc else map.get? other :=
  Ranked.lookup_insert (fun _ _ => Namespace.utf8_inj) key other doc map.entries

theorem get?_erase (map : DocumentMap) (key other : String) :
    (map.erase key).get? other = if other = key then none else map.get? other :=
  Ranked.lookup_filter_ne key other map.entries

end DocumentMap

/-- The text that a value is as a key: a text itself, and the written form of an integer or of a
boolean. -/
def Value.keyText? : Value → Option String
  | string s => some s
  | int i => some (toString i.toInt)
  | bool b => some (toString b)
  | _ => none

/-- What a map answers to a request of a table, and the map after it. -/
def TableRequest.onMap (codec : Codec) (keyField : String) (request : TableRequest)
    (map : DocumentMap) : Except Error Answer × DocumentMap :=
  match request with
  | put item =>
    match (item.getPath? keyField).bind Value.keyText?, codec.encode item with
    | none, _ => (.error (.invalidKey keyField), map)
    | some _, .error error => (.error (.codec error), map)
    | some key, .ok bytes =>
      (.ok (.document item), (Codec.decode bytes).toOption.elim map (map.insert key))
  | get key => (.ok (.found (map.get? key)), map)
  | getAll => (.ok (.documents map.documents), map)
  | del key => (.ok .done, map.erase key)
  | query expression => (.ok (.documents (expression.select map.documents)), map)
  | count (some expression) => (.ok (.count (expression.select map.documents).length), map)
  | count none => (.ok (.count map.documents.length), map)
  | empty => (.ok .done, .empty)

/-! ## The table -/

/-- What happens while a table is in use. -/
inductive TableStep where
  /-- The clock is set, forwards or back. -/
  | clock (now : UInt64)
  /-- The table is asked something, through a handle with a configuration and a key field of its
  own. -/
  | here (config : Config) (keyField : String) (request : TableRequest)
  /-- Some other part of the store is asked something. -/
  | elsewhere (database : Database) (request : Request)

namespace TableStep

/-- The handle and the request, if the step is a request to the table. -/
def here? : TableStep → Option (Config × String × TableRequest)
  | here config keyField request => some (config, keyField, request)
  | _ => none

/-- Runs steps one after another, and collects what the table of a given name answers. -/
def runAll (parent : Namespace) (name : String) :
    List TableStep → World → List (Except Error Answer) × World
  | [], world => ([], world)
  | clock now :: rest, world => runAll parent name rest { world with clock := now }
  | here config keyField request :: rest, world =>
    let handle := Database.table ⟨config, parent⟩ name keyField
    let (answer, world) := (request.run handle).outcome world
    let (answers, world) := runAll parent name rest world
    (answer :: answers, world)
  | elsewhere database request :: rest, world =>
    let (_, world) := (request.run database).outcome world
    runAll parent name rest world

end TableStep

/-- What a map answers to requests through handles, one after another, and the map after them. -/
def TableRequest.allOnMap :
    List (Config × String × TableRequest) → DocumentMap → List (Except Error Answer) × DocumentMap
  | [], map => ([], map)
  | (config, keyField, request) :: rest, map =>
    let (answer, map) := request.onMap config.codec keyField map
    let (answers, map) := allOnMap rest map
    (answer :: answers, map)

/-! ## Keys -/

theorem JsonNumber.ofList_intText (n : Int) : String.ofList (intText n) = toString n := by
  unfold intText
  cases n with
  | ofNat n =>
    rw [if_neg (show ¬ Int.ofNat n < 0 from Int.not_lt.2 (Int.natCast_nonneg n))]
    rfl
  | negSucc n =>
    rw [if_pos (Int.negSucc_lt_zero n), String.ofList_cons]
    rfl

/-- The key of a document is the text of the value at the key field. -/
theorem Table.key?_eq (keyField : String) (item : Value) :
    key? keyField item = (item.getPath? keyField).bind Value.keyText? := by
  unfold key?
  rcases item.getPath? keyField with _ | value
  · rfl
  · cases value with
    | int i => exact congrArg some (JsonNumber.ofList_intText i.toInt)
    | bool b => cases b <;> rfl
    | _ => rfl

namespace Table

variable {table : Table} {world : World} {item : Value}

theorem put_of_key?_eq_none (hkey : key? table.keyField item = none) :
    table.put item world = .error (.invalidKey table.keyField) world := by
  unfold put
  rw [hkey]
  rfl

/-- A put under a key comes out as one of the collection. -/
theorem put_spec {key : String} (hkey : key? table.keyField item = some key) :
    table.collection.Put world (utf8 key) item item (table.put item world) := by
  unfold put
  rw [hkey]
  exact table.collection.put_reported world (utf8 key) item _ item

end Table

/-! ## What ties them together -/

/-- The documents of a namespace read as a map. -/
structure Namespace.Maps (space : Namespace) (world : World) (map : DocumentMap) : Prop where
  served : world.engine.faults = .never
  entries : (space.view world.engine.store).entries.map (Prod.map id Codec.decode) =
    map.entries.map (Prod.map utf8 .ok)

namespace Namespace.Maps

variable {space : Namespace} {world after : World} {map : DocumentMap} (h : space.Maps world map)

include h

theorem of_view (hfaults : after.engine.faults = world.engine.faults)
    (hview : space.view after.engine.store = space.view world.engine.store) : space.Maps after map := by
  refine ⟨hfaults.trans h.served, ?_⟩
  rw [hview]
  exact h.entries

theorem of_unwritten (hsame : world.Unwritten after) : space.Maps after map :=
  h.of_view hsame.faults (by rw [hsame.store])

theorem get? (key : String) :
    ((space.view world.engine.store).get? (utf8 key)).map Codec.decode = (map.get? key).map .ok := by
  have hstored := Ranked.lookup_map (g := Codec.decode) Function.injective_id (utf8 key)
    (space.view world.engine.store).entries
  have hmapped := Ranked.lookup_map (g := Except.ok (ε := CodecError)) (fun _ _ => utf8_inj) key map.entries
  rw [h.entries] at hstored
  exact hstored.symm.trans hmapped

/-- Storing a document sets it in the map. -/
theorem insert {key : String} {bytes : Bytes} {doc : Value} (hdoc : Codec.decode bytes = .ok doc)
    (hafter : world.Became (world.engine.store.insert (space.dataKey (utf8 key)) bytes) after) :
    space.Maps after (map.insert key doc) := by
  refine ⟨hafter.faults.trans h.served, ?_⟩
  rw [hafter.store, view_insert]
  -- the text and its bytes have the same place in the order
  calc
    _ = Ranked.insert id (utf8 key) (Codec.decode bytes) (map.entries.map (Prod.map utf8 .ok)) := by
      rw [← h.entries]
      exact Ranked.map_insert (fun _ => rfl) _ _ _
    _ = _ := by
      rw [hdoc]
      exact (Ranked.map_insert (fun _ => rfl) _ _ _).symm

/-- Deleting a document removes it from the map. -/
theorem erase {key : String}
    (hafter : world.Became (world.engine.store.erase (space.dataKey (utf8 key))) after) :
    space.Maps after (map.erase key) := by
  refine ⟨hafter.faults.trans h.served, ?_⟩
  rw [hafter.store, view_erase]
  -- different texts have different bytes
  have hne : ∀ e : String × Value, (utf8 e.1 != utf8 key) = (e.1 != key) := by
    intro e
    rw [bne, bne, Bool.eq_iff_iff]
    simp only [Bool.not_eq_true', beq_eq_false_iff_ne, ne_eq]
    exact not_congr ⟨utf8_inj, congrArg utf8⟩
  calc
    _ = (map.entries.map (Prod.map utf8 (Except.ok (ε := CodecError)))).filter
        fun e => e.1 != utf8 key := by
      rw [← h.entries, List.filter_map]
      rfl
    _ = _ := by
      rw [List.filter_map]
      exact congrArg _ (List.filter_congr fun e _ => hne e)

end Namespace.Maps

theorem Namespace.Maps.readAll {collection : Collection} {world : World} {map : DocumentMap}
    (h : collection.space.Maps world map) :
    collection.readAll world = .ok map.documents := by
  refine (mapM_eq_ok_iff _ _ _).2 ?_
  have hdocs := congrArg (List.map Prod.snd) h.entries
  rw [List.map_map, List.map_map] at hdocs
  rw [DocumentMap.documents, List.map_map]
  exact hdocs

/-- All documents of a table are those of the map. -/
theorem Table.getAll_onMap {table : Table} {world : World} {map : DocumentMap}
    (h : table.collection.space.Maps world map) :
    ∃ after, world.Unwritten after ∧ table.getAll world = .ok map.documents after := by
  obtain ⟨after, hsame, hquery⟩ := table.collection.query_spec h.served .everything
  rw [h.readAll] at hquery
  simp only [Expression.select_everything] at hquery
  exact ⟨after, hsame, hquery⟩

/-! ## One request -/

/-- An operation ends as a map does: with the map's answer, and reading as the map after it. -/
def Namespace.EndsAsMap (space : Namespace) (ended : Except Error Answer × World)
    (mapped : Except Error Answer × DocumentMap) : Prop :=
  ended.1 = mapped.1 ∧ space.Maps ended.2 mapped.2

section
variable {table : Table} {world : World} {map : DocumentMap}
  (h : table.collection.space.Maps world map)

include h

theorem TableRequest.put_onMap {item : Value}
    (hdecodes : ∀ bytes, table.collection.codec.encode item = .ok bytes →
      ∃ doc, Codec.decode bytes = .ok doc) :
    table.collection.space.EndsAsMap ((run table (.put item)).outcome world)
      (onMap table.collection.codec table.keyField (.put item) map) := by
  unfold onMap
  simp only
  rw [← Table.key?_eq]
  cases hkey : Table.key? table.keyField item with
  | none =>
    -- nothing is encoded
    have hput : table.put item world = _ := Table.put_of_key?_eq_none hkey
    rw [Op.outcome_of_error (show run table (.put item) world = _ from bind_error hput _)]
    exact ⟨rfl, h⟩
  | some key =>
    have hspec : table.collection.Put world _ _ _ _ := Table.put_spec hkey
    cases hput : table.put item world with
    | error error after =>
      rw [Op.outcome_of_error (show run table (.put item) world = _ from bind_error hput _)]
      rw [hput] at hspec
      cases hspec with
      | refused hencode =>
        rw [hencode]
        exact ⟨rfl, h⟩
      | fault hencode hfaults => exact absurd h.served hfaults
    | ok answer after =>
      rw [Op.outcome_of_ok (show run table (.put item) world = _ from bind_ok hput _)]
      rw [hput] at hspec
      cases hspec with
      | stored hencode hafter =>
        obtain ⟨doc, hdoc⟩ := hdecodes _ hencode
        rw [hencode]
        simp only [hdoc]
        exact ⟨rfl, h.insert hdoc hafter⟩

theorem TableRequest.get_onMap (key : String) :
    table.collection.space.EndsAsMap ((run table (.get key)).outcome world)
      (onMap table.collection.codec table.keyField (.get key) map) := by
  obtain ⟨after, hsame, hget⟩ := table.collection.get_spec h.served (utf8 key)
  have hfound : ((table.collection.held world).get? (utf8 key)).map Codec.decode =
      (map.get? key).map .ok := h.get? key
  have hanswer : table.get key world = .ok (map.get? key) after := by
    rw [hfound] at hget
    cases hmap : map.get? key with
    | none =>
      rw [hmap] at hget
      exact hget
    | some doc =>
      rw [hmap] at hget
      exact hget
  rw [Op.outcome_of_ok (show run table (.get key) world = _ from bind_ok hanswer _)]
  exact ⟨rfl, h.of_unwritten hsame⟩

theorem TableRequest.del_onMap (key : String) :
    table.collection.space.EndsAsMap ((run table (.del key)).outcome world)
      (onMap table.collection.codec table.keyField (.del key) map) := by
  obtain ⟨after, hafter, hdelete⟩ := table.collection.delete_served h.served (utf8 key)
  have hdel : table.del key world =
      .ok () { after with log := .deleted table.collection.path key :: after.log } :=
    bind_ok hdelete _
  rw [Op.outcome_of_ok (show run table (.del key) world = _ from bind_ok hdel _)]
  exact ⟨rfl, h.erase ⟨hafter.store, hafter.faults, hafter.clock, hafter.lastKey⟩⟩

/-- A table answers a request as the map does, and goes on reading as the map. -/
theorem TableRequest.run_onMap (request : TableRequest)
    (hdecodes : ∀ item bytes, request = .put item →
      table.collection.codec.encode item = .ok bytes → ∃ doc, Codec.decode bytes = .ok doc) :
    table.collection.space.EndsAsMap ((request.run table).outcome world)
      (request.onMap table.collection.codec table.keyField map) := by
  cases request with
  | put item => exact put_onMap h fun bytes => hdecodes item bytes rfl
  | get key => exact get_onMap h key
  | del key => exact del_onMap h key
  | getAll =>
    obtain ⟨after, hsame, hdocs⟩ := Table.getAll_onMap h
    rw [Op.outcome_of_ok (show run table .getAll world = _ from bind_ok hdocs _)]
    exact ⟨rfl, h.of_unwritten hsame⟩
  | query expression =>
    obtain ⟨after, hsame, hquery⟩ := table.collection.query_spec h.served expression
    rw [h.readAll] at hquery
    rw [Op.outcome_of_ok (show run table (.query expression) world = _ from bind_ok hquery _)]
    exact ⟨rfl, h.of_unwritten hsame⟩
  | count expression =>
    obtain ⟨after, hsame, hcount⟩ := table.collection.count_spec h.served expression
    rw [h.readAll] at hcount
    rw [Op.outcome_of_ok (show run table (.count expression) world = _ from bind_ok hcount _)]
    cases expression with
    | some expression => exact ⟨rfl, h.of_unwritten hsame⟩
    | none =>
      refine ⟨?_, h.of_unwritten hsame⟩
      rw [Option.getD_none, Expression.select_everything]
      rfl
  | empty =>
    obtain ⟨store, after, hafter, hempty, hrun⟩ := table.collection.empty_spec h.served
    rw [Op.outcome_of_ok (show run table .empty world = _ from bind_ok hrun _)]
    refine ⟨rfl, hafter.faults.trans h.served, ?_⟩
    rw [hafter.store, hempty]
    rfl

end

/-! ## Whole runs -/

/-- A run on a namespace that reads as a map is the run of the map, whatever the clock does and
whatever is asked of other parts of the store meanwhile. -/
theorem TableStep.runAll_onMap (parent : Namespace) (name : String) (hspace : (parent.sub name).Fits)
    (steps : List TableStep)
    (hother : ∀ database request, elsewhere database request ∈ steps →
      (request.space database).Fits ∧ parent.sub name ≠ request.space database)
    (hdecodes : ∀ config keyField item bytes, here config keyField (.put item) ∈ steps →
      config.codec.encode item = .ok bytes → ∃ doc, Codec.decode bytes = .ok doc)
    {world : World} {map : DocumentMap} (h : (parent.sub name).Maps world map) :
    (runAll parent name steps world).1 =
        (TableRequest.allOnMap (steps.filterMap here?) map).1 ∧
      (parent.sub name).Maps (runAll parent name steps world).2
        (TableRequest.allOnMap (steps.filterMap here?) map).2 := by
  induction steps generalizing world map with
  | nil => exact ⟨rfl, h⟩
  | cons step rest ih =>
    have ih := @ih (fun database request hmem => hother database request (List.mem_cons_of_mem _ hmem))
      (fun config keyField item bytes hmem =>
        hdecodes config keyField item bytes (List.mem_cons_of_mem _ hmem))
    cases step with
    | clock now => exact ih ⟨h.served, h.entries⟩
    | here config keyField request =>
      have hstep := request.run_onMap
        (show (Database.table ⟨config, parent⟩ name keyField).collection.space.Maps _ _ from h)
        fun item bytes heq => hdecodes config keyField item bytes (heq ▸ List.mem_cons_self)
      have hrest := ih hstep.2
      exact ⟨congrArg₂ List.cons hstep.1 hrest.1, hrest.2⟩
    | elsewhere database request =>
      obtain ⟨hfits, hne⟩ := hother database request List.mem_cons_self
      have hspares := request.spares hspace hfits hne
      refine ih ?_
      -- drawing a key does not show in the namespace
      have hdrawn : (parent.sub name).Maps (world.drawn request.issuesKey) map := by
        cases request.issuesKey with
        | true => exact ⟨h.served, h.entries⟩
        | false => exact h
      cases hrun : request.run database world with
      | ok answer after =>
        have hsame := hspares.of_ok hrun
        exact hdrawn.of_view hsame.faults hsame.view
      | error error after =>
        have hsame := hspares.of_error hrun
        exact hdrawn.of_view hsame.faults hsame.view

/-- From an empty namespace on, a table on an engine whose calls are served is one map: every answer
is the map's, and what the namespace holds in the end reads as the map in the end. The handles may
have any key field, codec and page size each, and other parts of the store may be asked anything. -/
theorem Database.table_refines_map (parent : Namespace) (name : String)
    (hspace : (parent.sub name).Fits) (steps : List TableStep)
    (hother : ∀ database request, .elsewhere database request ∈ steps →
      (request.space database).Fits ∧ parent.sub name ≠ request.space database)
    (hdecodes : ∀ config keyField item bytes, .here config keyField (.put item) ∈ steps →
      config.codec.encode item = .ok bytes → ∃ doc, Codec.decode bytes = .ok doc)
    (world : World) (hserved : world.engine.faults = .never)
    (hempty : (parent.sub name).view world.engine.store = .empty) :
    (TableStep.runAll parent name steps world).1 =
        (TableRequest.allOnMap (steps.filterMap TableStep.here?) .empty).1 ∧
      ((parent.sub name).view (TableStep.runAll parent name steps world).2.engine.store).entries.map
          (fun e => (e.1, Codec.decode e.2)) =
        (TableRequest.allOnMap (steps.filterMap TableStep.here?) .empty).2.entries.map
          fun e => (utf8 e.1, .ok e.2) := by
  have hstart : (parent.sub name).Maps world .empty := by
    refine ⟨hserved, ?_⟩
    rw [hempty]
    rfl
  have hrun := TableStep.runAll_onMap parent name hspace steps hother hdecodes hstart
  exact ⟨hrun.1, hrun.2.entries⟩

/-! ## Puts of documents that are not nested too deeply -/

/-- A document with a key that is not nested too deeply and has a stored form is set to what it reads
back as. -/
theorem TableRequest.put_onMap_of_shallow {codec : Codec} {keyField key : String} {item : Value}
    (hkey : (item.getPath? keyField).bind Value.keyText? = some key) (hdoc : item.Shallow)
    (hfinite : item.firstNonFinite? = none) (map : DocumentMap) :
    (put item).onMap codec keyField map =
      (.ok (.document item), map.insert key (item.readBack codec false)) := by
  have hdecode := codec.decode_storedForm hdoc.canonical hfinite
  rw [if_pos hdoc.depth] at hdecode
  have hencode : codec.encode item = _ := Codec.encode_eq_ok_iff.2 ⟨hfinite, rfl⟩
  simp only [onMap, hkey, hencode, hdecode]
  rfl

def keyedByInt (i : Int64) : Value := .map [("id", .int i)]

def keyedByText (s : String) : Value := .map [("at", .map [("key", .string s)])]

def unwritable : Value := .map [("id", .bool true), ("x", .float ⟨0x7FF0000000000000⟩)]

/-- A table under two key fields. The text 9 replaces what is under the integer 9, and two documents
are refused: one has no key, the other has one but no stored form. -/
def nineTwice : List TableStep :=
  [.here {} "id" (.put (keyedByInt 9)), .here { pageSize := 0 } "id" (.put (keyedByInt 10)),
    .elsewhere ⟨{}, .root⟩ (.sequence "b" (.insert .null)),
    .here {} "at.key" (.put (keyedByText "9")), .here {} "at" (.put unwritable),
    .here {} "id" (.put unwritable), .here {} "id" (.get "9"), .here {} "id" .getAll,
    .here {} "id" (.del "10"), .here {} "id" (.count none), .here {} "id" .empty,
    .here {} "id" (.get "9")]

theorem nineTwice_is_mapped :
    (TableStep.runAll .root "a" nineTwice {}).1 =
      [.ok (.document (keyedByInt 9)), .ok (.document (keyedByInt 10)),
        .ok (.document (keyedByText "9")), .error (.invalidKey "at"),
        .error (.codec (.nonFinite ⟨0x7FF0000000000000⟩)), .ok (.found (some (keyedByText "9"))),
        .ok (.documents [keyedByInt 10, keyedByText "9"]), .ok .done, .ok (.count 1), .ok .done,
        .ok (.found none)] := by
  have hascending : Ranked.Ascending utf8 [("id", Value.bool true),
      ("x", .float ⟨0x7FF0000000000000⟩)] := by decide
  have hint : ∀ i, (keyedByInt i).Shallow := fun i =>
    ⟨⟨List.pairwise_singleton _ _, trivial, trivial⟩, Nat.le_of_ble_eq_true rfl⟩
  have htext : (keyedByText "9").Shallow :=
    ⟨⟨List.pairwise_singleton _ _, ⟨List.pairwise_singleton _ _, trivial, trivial⟩, trivial⟩,
      Nat.le_of_ble_eq_true rfl⟩
  have hunwritable : unwritable.Shallow :=
    ⟨⟨hascending, trivial, trivial, trivial⟩, Nat.le_of_ble_eq_true rfl⟩
  refine (Database.table_refines_map .root "a" (by decide) nineTwice ?_ ?_ {} rfl rfl).1.trans ?_
  · intro database request hmem
    simp only [nineTwice, List.mem_cons, reduceCtorEq, TableStep.elsewhere.injEq, List.not_mem_nil,
      or_false, false_or] at hmem
    obtain ⟨rfl, rfl⟩ := hmem
    decide
  · intro config keyField item bytes hmem hencode
    simp only [nineTwice, List.mem_cons, reduceCtorEq, TableStep.here.injEq, TableRequest.put.injEq,
      List.not_mem_nil, and_false, or_false, false_or] at hmem
    rcases hmem with ⟨-, -, rfl⟩ | ⟨-, -, rfl⟩ | ⟨-, -, rfl⟩ | ⟨-, -, rfl⟩ | ⟨-, -, rfl⟩
    · exact (hint 9).decodes hencode
    · exact (hint 10).decodes hencode
    · exact htext.decodes hencode
    · exact hunwritable.decodes hencode
    · exact hunwritable.decodes hencode
  · -- what the map answers
    have huntagged : Timestamp.untag? "9" = none := by decide +kernel
    have hreads : (keyedByText "9").readBack {} false = keyedByText "9" := by
      simp [keyedByText, Value.readBack, Value.fieldsReadBack, Value.leafReadBack,
        Value.reviveString, huntagged]
    have hnine : ∀ codec map, (TableRequest.put (keyedByInt 9)).onMap codec "id" map =
        (.ok (.document (keyedByInt 9)), map.insert "9" (keyedByInt 9)) := fun codec =>
      TableRequest.put_onMap_of_shallow (by decide +kernel) (hint 9) rfl
    have hten : ∀ codec map, (TableRequest.put (keyedByInt 10)).onMap codec "id" map =
        (.ok (.document (keyedByInt 10)), map.insert "10" (keyedByInt 10)) := fun codec =>
      TableRequest.put_onMap_of_shallow (by decide +kernel) (hint 10) rfl
    have hagain : ∀ codec map, (TableRequest.put (keyedByText "9")).onMap codec "at.key" map =
        (.ok (.document (keyedByText "9")), map.insert "9" (keyedByText "9")) := by
      intro codec map
      have hreads : (keyedByText "9").readBack codec false = keyedByText "9" := by
        simp [keyedByText, Value.readBack, Value.fieldsReadBack, Value.leafReadBack,
          Value.reviveString, huntagged]
      have hkey : ((keyedByText "9").getPath? "at.key").bind Value.keyText? = some "9" := by
        decide +kernel
      rw [TableRequest.put_onMap_of_shallow hkey htext rfl, hreads]
    have hfilter : nineTwice.filterMap TableStep.here? =
        [({}, "id", .put (keyedByInt 9)), ({ pageSize := 0 }, "id", .put (keyedByInt 10)),
          ({}, "at.key", .put (keyedByText "9")), ({}, "at", .put unwritable),
          ({}, "id", .put unwritable), ({}, "id", .get "9"), ({}, "id", .getAll),
          ({}, "id", .del "10"), ({}, "id", .count none), ({}, "id", .empty),
          ({}, "id", .get "9")] := rfl
    rw [hfilter]
    simp only [TableRequest.allOnMap, hnine, hten, hagain]
    rfl

end DocStore
