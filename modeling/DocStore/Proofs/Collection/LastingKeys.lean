/-
Documents that are read from a table and put back. The key of a document that is read back is the
one that it is stored under, so that it can be put back and replaces itself. A key that is a tagged
date is the exception: a document under such a key is read back with the date in its place, which is
no key, and is refused. Whatever is put back, the table keeps its keys.
-/
import DocStore.Proofs.Collection.MapRefinement
import DocStore.Proofs.Document.ReadBack

namespace DocStore

/-! ## Keys read back -/

/-- The key that a document is read back with from under a key: the same one, unless it is a tagged
date. -/
def Table.keyReadBack? (key : String) : Option String :=
  match Timestamp.untag? key with
  | some _ => none
  | none => some key

theorem Table.keyReadBack?_eq_some_iff {key own : String} :
    keyReadBack? key = some own ↔ Timestamp.untag? key = none ∧ key = own := by
  unfold keyReadBack?
  cases Timestamp.untag? key <;> simp

/-- The written form of an integer is no tagged date. -/
theorem JsonNumber.untag?_intText (n : Int) :
    Timestamp.untag? (String.ofList (intText n)) = none := by
  unfold intText
  split
  · exact Timestamp.untag?_cons (by decide) _
  · obtain ⟨c, cs, hcs⟩ := List.exists_cons_of_ne_nil (Decimal.digits_ne_nil n.natAbs)
    rw [hcs]
    refine Timestamp.untag?_cons ?_ cs
    rintro rfl
    cases Decimal.isDigit_of_mem_digits (hcs ▸ List.mem_cons_self : 'F' ∈ Decimal.digits n.natAbs)

namespace Value

theorem keyText?_readBack (codec : Codec) {value : Value} {key : String}
    (h : value.keyText? = some key) :
    (value.readBack codec false).keyText? = Table.keyReadBack? key := by
  cases value with
  | string s =>
    cases h
    show (reviveString key).keyText? = _
    unfold reviveString Table.keyReadBack?
    cases Timestamp.untag? key <;> rfl
  | int i =>
    have huntag := JsonNumber.untag?_intText i.toInt
    rw [JsonNumber.ofList_intText] at huntag
    cases h
    exact (Table.keyReadBack?_eq_some_iff.2 ⟨huntag, rfl⟩).symm
  | bool b =>
    have huntag : Timestamp.untag? (toString b) = none := by cases b <;> decide +kernel
    cases h
    exact (Table.keyReadBack?_eq_some_iff.2 ⟨huntag, rfl⟩).symm
  | _ => cases h

/-- The document is one that is read back from under a key. -/
structure ReadUnder (keyField key : String) (doc : Value) : Prop where
  shallow : doc.Shallow
  finite : doc.firstNonFinite? = none
  key : Table.key? keyField doc = Table.keyReadBack? key

theorem readUnder_readBack {keyField key : String} {item : Value} (hshallow : item.Shallow)
    (hfinite : item.firstNonFinite? = none) (hkey : Table.key? keyField item = some key)
    (codec : Codec) : (item.readBack codec false).ReadUnder keyField key := by
  refine ⟨⟨hshallow.canonical.readBack codec false, ?_⟩, ?_, ?_⟩
  · rw [depth_readBack]
    exact hshallow.depth
  · rw [firstNonFinite?_readBack, hfinite]
  · rw [Table.key?_eq] at hkey ⊢
    obtain ⟨value, hpath, htext⟩ := Option.bind_eq_some_iff.1 hkey
    rw [getPath?_readBack, hpath]
    exact keyText?_readBack codec htext

end Value

/-! ## Maps -/

namespace DocumentMap

def keys (map : DocumentMap) : List String := map.entries.map Prod.fst

/-- Every document is one that is read back from under the key that it is under. -/
def IsReadBack (keyField : String) (map : DocumentMap) : Prop :=
  ∀ e ∈ map.entries, e.2.ReadUnder keyField e.1

/-- A request keeps documents under the keys that they are read back from, if it puts through the
key field. -/
theorem IsReadBack.onMap {keyField : String} {map : DocumentMap} (h : map.IsReadBack keyField)
    (codec : Codec) (field : String) (request : TableRequest)
    (hput : ∀ item, request = .put item → field = keyField ∧ item.Shallow) :
    (request.onMap codec field map).2.IsReadBack keyField := by
  cases request with
  | put item =>
    obtain ⟨rfl, hshallow⟩ := hput item rfl
    cases hkey : (item.getPath? field).bind Value.keyText? with
    | none =>
      simp only [TableRequest.onMap, hkey]
      exact h
    | some key =>
      cases hfinite : item.firstNonFinite? with
      | some x =>
        have hencode := codec.encode_eq item
        rw [hfinite] at hencode
        simp only [TableRequest.onMap, hkey, hencode]
        exact h
      | none =>
        rw [TableRequest.put_onMap_of_shallow hkey hshallow hfinite]
        intro e he
        rcases Ranked.mem_insert he with rfl | he
        · exact Value.readUnder_readBack hshallow hfinite ((Table.key?_eq _ _).trans hkey) codec
        · exact h e he
  | del key => exact fun e he => h e (List.mem_of_mem_filter he)
  | empty => exact fun e he => absurd he List.not_mem_nil
  | count expression => cases expression <;> exact h
  | _ => exact h

/-- So does a run of requests. -/
theorem IsReadBack.allOnMap {keyField : String} (requests : List (Config × String × TableRequest))
    (hputs : ∀ config field item, (config, field, .put item) ∈ requests →
      field = keyField ∧ item.Shallow) {map : DocumentMap} (h : map.IsReadBack keyField) :
    (TableRequest.allOnMap requests map).2.IsReadBack keyField := by
  induction requests generalizing map with
  | nil => exact h
  | cons first rest ih =>
    obtain ⟨config, field, request⟩ := first
    refine ih (fun config field item hmem => hputs config field item (List.mem_cons_of_mem _ hmem))
      (h.onMap config.codec field request ?_)
    rintro item rfl
    exact hputs config field item List.mem_cons_self

end DocumentMap

/-- What a table answers to putting a document back: the document, or that it has no key. -/
def Table.putBack (keyField : String) (doc : Value) : Except Error Answer :=
  match key? keyField doc with
  | some _ => .ok (.document doc)
  | none => .error (.invalidKey keyField)

namespace DocumentMap

variable {keyField : String} {map : DocumentMap}

/-- A document that is put back is stored, or refused if it has no key, and the keys stay. -/
theorem put_back {key : String} {doc : Value} (hkey : key ∈ map.keys)
    (hdoc : doc.ReadUnder keyField key) (codec : Codec) :
    ((TableRequest.put doc).onMap codec keyField map).1 = Table.putBack keyField doc ∧
      ((TableRequest.put doc).onMap codec keyField map).2.keys = map.keys := by
  unfold Table.putBack
  cases hown : Table.key? keyField doc with
  | none =>
    rw [Table.key?_eq] at hown
    simp [TableRequest.onMap, hown]
  | some own =>
    obtain ⟨-, rfl⟩ := Table.keyReadBack?_eq_some_iff.1 (hdoc.key.symm.trans hown)
    rw [TableRequest.put_onMap_of_shallow ((Table.key?_eq keyField doc).symm.trans hown)
      hdoc.shallow hdoc.finite]
    exact ⟨rfl, map.ascending.keys_insert_of_mem hkey _⟩

theorem allOnMap_put_back (back : List (Config × Value))
    (hback : ∀ b ∈ back, ∃ key ∈ map.keys, b.2.ReadUnder keyField key) :
    (TableRequest.allOnMap (back.map fun b => (b.1, keyField, .put b.2)) map).1 =
        back.map (fun b => Table.putBack keyField b.2) ∧
      (TableRequest.allOnMap (back.map fun b => (b.1, keyField, .put b.2)) map).2.keys =
        map.keys := by
  induction back generalizing map with
  | nil => exact ⟨rfl, rfl⟩
  | cons first rest ih =>
    obtain ⟨config, doc⟩ := first
    obtain ⟨key, hmem, hdoc⟩ := hback _ List.mem_cons_self
    obtain ⟨hanswer, hkeys⟩ := put_back hmem hdoc config.codec
    have hrest := @ih ((TableRequest.put doc).onMap config.codec keyField map).2 fun b hb => by
      rw [hkeys]
      exact hback b (List.mem_cons_of_mem _ hb)
    exact ⟨congrArg₂ List.cons hanswer hrest.1, hrest.2.trans hkeys⟩

end DocumentMap

/-! ## Tables -/

/-- The keys under which a namespace holds something. -/
def Namespace.keys (space : Namespace) (world : World) : List Bytes :=
  (space.view world.engine.store).entries.map Prod.fst

theorem Namespace.Maps.keys_eq {space : Namespace} {world : World} {map : DocumentMap}
    (h : space.Maps world map) : space.keys world = map.keys.map utf8 := by
  have hkeys := congrArg (List.map Prod.fst) h.entries
  rw [List.map_map, List.map_map] at hkeys
  rw [keys, DocumentMap.keys, List.map_map]
  exact hkeys

namespace Table

/-- The document has the key, and when it is put it replaces what is under the key and nothing
else. -/
def PutsBack (table : Table) (key : String) (doc : Value) (world : World) : Prop :=
  key? table.keyField doc = some key ∧
    ∃ after, table.put doc world = .ok doc after ∧
      table.collection.space.keys after = table.collection.space.keys world ∧
      ∀ other, other ≠ utf8 key →
        (table.collection.held after).get? other = (table.collection.held world).get? other

variable {table : Table} {world after : World} {key : String} {doc : Value}

theorem put_served (hserved : world.engine.faults = .never)
    (hkey : key? table.keyField doc = some key) (hfinite : doc.firstNonFinite? = none) :
    ∃ bytes after, table.put doc world = .ok doc after ∧
      world.Became (world.engine.store.insert (table.collection.space.dataKey (utf8 key)) bytes)
        after := by
  have hspec : table.collection.Put world _ _ _ _ := put_spec hkey
  have hencode : table.collection.codec.encode doc = _ := Codec.encode_eq_ok_iff.2 ⟨hfinite, rfl⟩
  cases hput : table.put doc world <;> rw [hput] at hspec <;> cases hspec
  case stored _ hafter => exact ⟨_, _, rfl, hafter⟩
  case refused herror =>
    rw [hencode] at herror
    cases herror
  case fault hfaults _ => exact absurd hserved hfaults

/-- A document that is put back under a key of the table replaces what is there. -/
theorem putsBack_of_readUnder (hserved : world.engine.faults = .never)
    (hdoc : doc.ReadUnder table.keyField key) (hmem : utf8 key ∈ table.collection.space.keys world)
    (huntag : Timestamp.untag? key = none) : table.PutsBack key doc world := by
  have hkey : key? table.keyField doc = some key :=
    hdoc.key.trans (keyReadBack?_eq_some_iff.2 ⟨huntag, rfl⟩)
  obtain ⟨bytes, after, hput, hafter⟩ := put_served hserved hkey hdoc.finite
  have hview : table.collection.space.view after.engine.store =
      (table.collection.space.view world.engine.store).insert (utf8 key) bytes := by
    rw [hafter.store, Namespace.view_insert]
  refine ⟨hkey, after, hput, ?_, fun other hother => ?_⟩
  · rw [Namespace.keys, hview]
    exact (table.collection.space.view world.engine.store).ascending.keys_insert_of_mem hmem bytes
  · rw [Collection.held, hview, ByteMap.get?_insert_of_ne _ _ hother]
    rfl

/-- A put that succeeds has found a key and stored the document under it. -/
theorem of_put_ok {item answer : Value} (hput : table.put item world = .ok answer after) :
    ∃ key, key? table.keyField item = some key ∧ item.firstNonFinite? = none ∧
      world.Became (world.engine.store.insert (table.collection.space.dataKey (utf8 key))
        (table.collection.codec.storedForm item)) after := by
  cases hkey : key? table.keyField item with
  | none =>
    rw [put_of_key?_eq_none hkey] at hput
    cases hput
  | some key =>
    have hspec : table.collection.Put world _ _ _ _ := put_spec hkey
    rw [hput] at hspec
    cases hspec with
    | stored hencode hafter =>
      obtain ⟨hfinite, rfl⟩ := Codec.encode_eq_ok_iff.1 hencode
      exact ⟨key, rfl, hfinite, hafter⟩

/-- What has been stored is found under its key, as it is read back. -/
theorem get_of_put {item answer : Value} (hserved : world.engine.faults = .never)
    (hshallow : item.Shallow) (hput : table.put item world = .ok answer after) :
    ∃ key read, key? table.keyField item = some key ∧ item.firstNonFinite? = none ∧
      table.get key after = .ok (some (item.readBack table.collection.codec false)) read ∧
      read.engine.faults = .never ∧ utf8 key ∈ table.collection.space.keys read := by
  obtain ⟨key, hkey, hfinite, hafter⟩ := of_put_ok hput
  have hserved' : after.engine.faults = .never := hafter.faults.trans hserved
  have hheld : (table.collection.held after).get? (utf8 key) =
      some (table.collection.codec.storedForm item) := by
    rw [Collection.held, hafter.store, Namespace.view_insert, ByteMap.get?_insert_self]
  have hdecode := table.collection.codec.decode_storedForm hshallow.canonical hfinite
  rw [if_pos hshallow.depth] at hdecode
  obtain ⟨read, hsame, hget⟩ := table.collection.get_spec hserved' (utf8 key)
  rw [hheld, Option.map_some, hdecode] at hget
  refine ⟨key, read, hkey, hfinite, hget, hsame.faults.trans hserved', ?_⟩
  rw [Namespace.keys, hsame.store]
  exact List.mem_map.2 ⟨_, (ByteMap.get?_eq_some_iff _ _ _).1 hheld, rfl⟩

/-- What has been stored under a key is found under it. It can be put back if the key is no tagged
date, and has no key any more if it is one. -/
theorem put_then_get {item answer : Value} (hserved : world.engine.faults = .never)
    (hshallow : item.Shallow) (hput : table.put item world = .ok answer after) :
    ∃ key doc read, key? table.keyField item = some key ∧
      table.get key after = .ok (some doc) read ∧
      (Timestamp.untag? key = none → table.PutsBack key doc read) ∧
      (Timestamp.untag? key ≠ none → key? table.keyField doc = none ∧
        table.put doc read = .error (.invalidKey table.keyField) read) := by
  obtain ⟨key, read, hkey, hfinite, hget, hserved', hmem⟩ := get_of_put hserved hshallow hput
  have hdoc := Value.readUnder_readBack hshallow hfinite hkey table.collection.codec
  refine ⟨key, _, read, hkey, hget, putsBack_of_readUnder hserved' hdoc hmem, fun huntag => ?_⟩
  have hnone : key? table.keyField (item.readBack table.collection.codec false) = none := by
    rw [hdoc.key, Option.eq_none_iff_forall_ne_some]
    exact fun own hown => huntag (keyReadBack?_eq_some_iff.1 hown).1
  exact ⟨hnone, put_of_key?_eq_none hnone⟩

end Table

/-! ## Whole runs -/

/-- All documents of a table can be read, each with the key that it is under unless that is a tagged
date. Whichever of them are put back, through any handles, those with a key are stored, the others
are refused, and the table keeps its keys. -/
def Database.KeepsKeys (parent : Namespace) (name keyField : String) (world : World) : Prop :=
  ∀ config, ∃ (keys : List String) (docs : List Value) (read : World),
    (Database.table ⟨config, parent⟩ name keyField).getAll world = .ok docs read ∧
    (parent.sub name).keys world = keys.map utf8 ∧
    docs.map (Table.key? keyField) = keys.map Table.keyReadBack? ∧
    ∀ back : List (Config × Value), (∀ b ∈ back, b.2 ∈ docs) →
      (TableStep.runAll parent name (back.map fun b => .here b.1 keyField (.put b.2)) read).1 =
        back.map (fun b => Table.putBack keyField b.2) ∧
      (parent.sub name).keys
          (TableStep.runAll parent name (back.map fun b => .here b.1 keyField (.put b.2)) read).2 =
        (parent.sub name).keys world

/-- A table that reads as a map keeps its keys, if the documents are ones that are read back. -/
theorem Database.keepsKeys_of_maps {parent : Namespace} {name keyField : String} {world : World}
    {map : DocumentMap} (hspace : (parent.sub name).Fits) (h : (parent.sub name).Maps world map)
    (hmap : map.IsReadBack keyField) : KeepsKeys parent name keyField world := by
  intro config
  obtain ⟨read, hsame, hdocs⟩ := Table.getAll_onMap
    (show (Database.table ⟨config, parent⟩ name keyField).collection.space.Maps world map from h)
  have hread : (parent.sub name).Maps read map := h.of_unwritten hsame
  refine ⟨map.keys, map.documents, read, hdocs, h.keys_eq, ?_, fun back hback => ?_⟩
  · rw [DocumentMap.documents, DocumentMap.keys, List.map_map, List.map_map]
    exact List.map_congr_left fun e he => (hmap e he).key
  · have hunder : ∀ b ∈ back, ∃ key ∈ map.keys, b.2.ReadUnder keyField key := by
      intro b hb
      obtain ⟨e, he, hdoc⟩ := List.mem_map.1 (hback b hb)
      exact ⟨e.1, List.mem_map.2 ⟨e, he, rfl⟩, hdoc ▸ hmap e he⟩
    have hrun := TableStep.runAll_onMap parent name hspace
      (back.map fun b => .here b.1 keyField (.put b.2)) ?_ ?_ hread
    · have hrequests : (back.map fun b => TableStep.here b.1 keyField (.put b.2)).filterMap
          TableStep.here? = back.map fun b => (b.1, keyField, .put b.2) := by
        rw [List.filterMap_map]
        exact congrFun List.filterMap_eq_map back
      have hkept := DocumentMap.allOnMap_put_back back hunder
      rw [hrequests] at hrun
      exact ⟨hrun.1.trans hkept.1, by rw [hrun.2.keys_eq, hkept.2, h.keys_eq]⟩
    · intro database request hmem
      obtain ⟨b, -, hstep⟩ := List.mem_map.1 hmem
      cases hstep
    · intro config keyField item bytes hmem hencode
      obtain ⟨b, hb, hstep⟩ := List.mem_map.1 hmem
      cases hstep
      obtain ⟨key, -, hdoc⟩ := hunder b hb
      exact hdoc.shallow.decodes hencode

/-- A document that was put is read back with the key it was put under, and replaces itself when it
is put back, unless its key is a tagged date: then it is read back with no key and is refused. So a
table that was written through one key field keeps its keys, whichever of its documents are put
back. -/
theorem Database.documents_keep_their_keys :
    (∀ (table : Table) (item answer : Value) (world after : World), world.engine.faults = .never →
      item.Shallow → table.put item world = .ok answer after →
        ∃ key doc read, Table.key? table.keyField item = some key ∧
          table.get key after = .ok (some doc) read ∧
          (Timestamp.untag? key = none → table.PutsBack key doc read) ∧
          (Timestamp.untag? key ≠ none → Table.key? table.keyField doc = none ∧
            table.put doc read = .error (.invalidKey table.keyField) read)) ∧
    ∀ (parent : Namespace) (name keyField : String) (steps : List TableStep) (world : World),
      (parent.sub name).Fits →
      (∀ database request, .elsewhere database request ∈ steps →
        (request.space database).Fits ∧ parent.sub name ≠ request.space database) →
      (∀ config field item, .here config field (.put item) ∈ steps →
        field = keyField ∧ item.Shallow) →
      world.engine.faults = .never → (parent.sub name).view world.engine.store = .empty →
        KeepsKeys parent name keyField (TableStep.runAll parent name steps world).2 := by
  refine ⟨fun table item answer world after => Table.put_then_get, ?_⟩
  intro parent name keyField steps world hspace hother hputs hserved hempty
  have hstart : (parent.sub name).Maps world .empty := by
    refine ⟨hserved, ?_⟩
    rw [hempty]
    rfl
  have hrun := TableStep.runAll_onMap parent name hspace steps hother
    (fun config field item bytes hmem hencode => (hputs config field item hmem).2.decodes hencode)
    hstart
  refine keepsKeys_of_maps hspace hrun.2 (DocumentMap.IsReadBack.allOnMap _ ?_ nofun)
  intro config field item hmem
  obtain ⟨step, hstep, hhere⟩ := List.mem_filterMap.1 hmem
  cases step with
  | here config' field' request =>
    cases hhere
    exact hputs config field item hstep
  | clock now => cases hhere
  | elsewhere database request => cases hhere

/-- A document under a boolean, with a date that is read back as a text. -/
def seen : Value := .map [("id", .bool true), ("seen", .array [.date Codec.leapSecond])]

/-- A document under a text that is a tagged date. -/
def keyedByTag : Value := .map [("id", .string "FLEXEL|1970-01-01T00:00:00.000Z")]

/-- The start of 1970. -/
def epoch : Timestamp := ⟨0, 0, by decide, by decide, by decide, by decide⟩

/-- Puts through handles with several settings, and other requests between them. -/
def seenSteps : List TableStep :=
  [.here {} "id" (.put (keyedByInt 9)), .here { codec := ⟨true⟩ } "id" (.put seen),
    .here {} "id" (.put keyedByTag), .elsewhere ⟨{}, .root⟩ (.sequence "b" (.insert .null)),
    .here {} "seen" (.del "9"), .here {} "id" (.put seen), .here { pageSize := 1 } "id" .getAll]

theorem shallow_keyedByTag : keyedByTag.Shallow :=
  ⟨⟨List.pairwise_singleton _ _, trivial, trivial⟩, Nat.le_of_ble_eq_true rfl⟩

theorem seen_is_put_back :
    (∃ after read doc, (Database.table ⟨{}, .root⟩ "a" "id").put seen {} = .ok seen after ∧
      (Database.table ⟨{}, .root⟩ "a" "id").get "true" after = .ok (some doc) read ∧
      (Database.table ⟨{}, .root⟩ "a" "id").PutsBack "true" doc read) ∧
    Database.KeepsKeys .root "a" "id" (TableStep.runAll .root "a" seenSteps {}).2 := by
  have hascending : Ranked.Ascending utf8 [("id", Value.bool true),
      ("seen", .array [.date Codec.leapSecond])] := by decide
  have hseen : seen.Shallow :=
    ⟨⟨hascending, trivial, ⟨trivial, trivial⟩, trivial⟩, Nat.le_of_ble_eq_true rfl⟩
  have hnine : (keyedByInt 9).Shallow :=
    ⟨⟨List.pairwise_singleton _ _, trivial, trivial⟩, Nat.le_of_ble_eq_true rfl⟩
  constructor
  · have hkey : Table.key? "id" seen = some "true" := by decide +kernel
    have huntag : Timestamp.untag? "true" = none := by decide +kernel
    obtain ⟨-, after, hput, -⟩ :=
      @Table.put_served (Database.table ⟨{}, .root⟩ "a" "id") {} _ seen rfl hkey rfl
    obtain ⟨key, doc, read, hkey', hget, hback, -⟩ :=
      Database.documents_keep_their_keys.1 _ _ _ _ _ rfl hseen hput
    cases hkey.symm.trans hkey'
    exact ⟨after, read, doc, hput, hget, hback huntag⟩
  · refine Database.documents_keep_their_keys.2 .root "a" "id" seenSteps {} (by decide) ?_ ?_ rfl
      rfl
    · intro database request hmem
      simp only [seenSteps, List.mem_cons, reduceCtorEq, TableStep.elsewhere.injEq,
        List.not_mem_nil, or_false, false_or] at hmem
      obtain ⟨rfl, rfl⟩ := hmem
      decide
    · intro config field item hmem
      simp only [seenSteps, List.mem_cons, reduceCtorEq, TableStep.here.injEq,
        TableRequest.put.injEq, List.not_mem_nil, and_false, or_false, false_or] at hmem
      rcases hmem with ⟨-, rfl, rfl⟩ | ⟨-, rfl, rfl⟩ | ⟨-, rfl, rfl⟩ | ⟨-, rfl, rfl⟩
      · exact ⟨rfl, hnine⟩
      · exact ⟨rfl, hseen⟩
      · exact ⟨rfl, shallow_keyedByTag⟩
      · exact ⟨rfl, hseen⟩

/-- The tagged date is read back as the date, and the document has no key any more. -/
theorem taggedKey_is_lost :
    Table.key? "id" keyedByTag = some "FLEXEL|1970-01-01T00:00:00.000Z" ∧
    ∃ after read, (Database.table ⟨{}, .root⟩ "t" "id").put keyedByTag {} = .ok keyedByTag after ∧
      (Database.table ⟨{}, .root⟩ "t" "id").get "FLEXEL|1970-01-01T00:00:00.000Z" after =
        .ok (some (.map [("id", .date epoch)])) read ∧
      Table.key? "id" (.map [("id", .date epoch)]) = none ∧
      (Database.table ⟨{}, .root⟩ "t" "id").put (.map [("id", .date epoch)]) read =
        .error (.invalidKey "id") read := by
  have hkey : Table.key? "id" keyedByTag = some "FLEXEL|1970-01-01T00:00:00.000Z" := by
    decide +kernel
  have huntag : Timestamp.untag? "FLEXEL|1970-01-01T00:00:00.000Z" = some epoch := by decide +kernel
  have hreads : keyedByTag.readBack {} false = .map [("id", .date epoch)] := by
    simp [keyedByTag, Value.readBack, Value.fieldsReadBack, Value.leafReadBack, Value.reviveString,
      huntag]
  obtain ⟨-, after, hput, -⟩ :=
    @Table.put_served (Database.table ⟨{}, .root⟩ "t" "id") {} _ keyedByTag rfl hkey rfl
  obtain ⟨key, read, hkey', -, hget, -⟩ := Table.get_of_put rfl shallow_keyedByTag hput
  cases hkey.symm.trans hkey'
  exact ⟨hkey, after, read, hput, hget.trans (by rw [← hreads]; rfl), rfl, rfl⟩

end DocStore
