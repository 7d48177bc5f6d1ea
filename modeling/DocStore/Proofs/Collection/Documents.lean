/-
What the operations on the documents of a namespace do, call by call and fault by fault. Each of
them answers from the view of the namespace, or fails because a call met a fault or a document
could not be read; besides the store they change nothing but the record of calls and events.
-/
import DocStore.Collection.Sequence
import DocStore.Proofs.Store.Cursor

namespace DocStore

/-! ## Worlds after an operation -/

/-- The world `after` is `before`, now holding `store`, with more calls and events recorded. -/
structure World.Became (before : World) (store : ByteMap) (after : World) : Prop where
  store : after.engine.store = store
  faults : after.engine.faults = before.engine.faults
  clock : after.clock = before.clock
  lastKey : after.lastKey = before.lastKey

theorem World.Became.trans {a b c : World} {store store' : ByteMap} (hab : a.Became store b)
    (hbc : b.Became store' c) : a.Became store' c :=
  ⟨hbc.store, hbc.faults.trans hab.faults, hbc.clock.trans hab.clock, hbc.lastKey.trans hab.lastKey⟩

/-- Only calls and events have been recorded. -/
def World.Unwritten (before after : World) : Prop := before.Became before.engine.store after

instance : Std.Refl World.Unwritten := ⟨fun _ => ⟨rfl, rfl, rfl, rfl⟩⟩

instance : IsTrans World World.Unwritten :=
  ⟨fun _ _ _ hab hbc => ⟨hbc.store.trans hab.store, hbc.faults.trans hab.faults,
    hbc.clock.trans hab.clock, hbc.lastKey.trans hab.lastKey⟩⟩

theorem World.Became.of_unwritten {a b c : World} {store : ByteMap} (hab : a.Unwritten b)
    (hbc : b.Became store c) : a.Became store c := hab.trans hbc

/-- The world after one key has been drawn from the generator. -/
def World.issued (world : World) : World :=
  { world with lastKey := some (SequenceKey.next world.lastKey world.clock) }

namespace Op

variable {α : Type}

theorem access_ok {x : Access α} {world : World} {a : α} {engine : Engine}
    (h : x world.engine = .ok a engine) : Op.access x world = .ok a { world with engine } := by
  unfold access
  rw [h]

theorem access_error {x : Access α} {world : World} {error : StoreError} {engine : Engine}
    (h : x world.engine = .error error engine) :
    Op.access x world = .error (.store error) { world with engine } := by
  unfold access
  rw [h]

theorem keeps_access {R : World → World → Prop} {S : Engine → Engine → Prop} {x : Access α}
    (hx : Keeps S x) (hR : ∀ (world : World) engine, S world.engine engine → R world { world with engine }) :
    Keeps R (Op.access x) := by
  constructor
  · intro world a after h
    cases hrun : x world.engine with
    | ok b engine =>
      rw [access_ok hrun] at h
      cases h
      exact hR world engine (hx.of_ok hrun)
    | error error engine =>
      rw [access_error hrun] at h
      cases h
  · intro world error after h
    cases hrun : x world.engine with
    | ok b engine =>
      rw [access_ok hrun] at h
      cases h
    | error error engine =>
      rw [access_error hrun] at h
      cases h
      exact hR world engine (hx.of_error hrun)

theorem coded_ok {answer : Except CodecError α} {a : α} (h : answer = .ok a) (world : World) :
    Op.coded answer world = .ok a world := by
  rw [h]
  rfl

theorem coded_error {answer : Except CodecError α} {error : CodecError} (h : answer = .error error)
    (world : World) : Op.coded answer world = .error (.codec error) world := by
  rw [h]
  rfl

theorem keeps_coded {R : World → World → Prop} [Std.Refl R] (answer : Except CodecError α) :
    Keeps R (Op.coded answer) := by
  unfold coded
  split
  · exact Keeps.pure _
  · exact Keeps.throw _

theorem keeps_report {R : World → World → Prop} {event : Event}
    (h : ∀ world : World, R world { world with log := event :: world.log }) :
    Keeps R (Op.report event) := by
  constructor
  · intro world a after hrun
    cases hrun
    exact h world
  · intro world error after hrun
    cases hrun

/-- An operation that only reads the engine writes nothing. -/
theorem unwritten_access {x : Access α} (hx : Keeps Engine.Unwritten x) :
    Keeps World.Unwritten (Op.access x) :=
  keeps_access hx fun _ _ h => ⟨h.store, h.faults, rfl, rfl⟩

theorem unwritten_report (event : Event) : Keeps World.Unwritten (Op.report event) :=
  keeps_report fun _ => ⟨rfl, rfl, rfl, rfl⟩

end Op

/-! ## The document at an end -/

@[simp] theorem Entry.document_some (key bytes : Bytes) :
    Entry.document ⟨key, some bytes⟩ = Codec.decode bytes := rfl

/-- The element at an end of a list. -/
def End.pick {α : Type} : End → List α → Option α
  | oldest, list => list.head?
  | newest, list => list.getLast?

/-- A list without the element at an end. -/
def End.drop {α : Type} : End → List α → List α
  | oldest, list => list.tail
  | newest, list => list.dropLast

theorem End.pick_eq_none_iff {α : Type} (fromEnd : End) (list : List α) :
    fromEnd.pick list = none ↔ list = [] := by
  cases fromEnd <;> simp [pick]

theorem End.pick_map {α β : Type} (f : α → β) (fromEnd : End) (list : List α) :
    fromEnd.pick (list.map f) = (fromEnd.pick list).map f := by
  cases fromEnd <;> simp [pick]

theorem End.drop_map {α β : Type} (f : α → β) (fromEnd : End) (list : List α) :
    fromEnd.drop (list.map f) = (fromEnd.drop list).map f := by
  cases fromEnd <;> simp [drop]

/-- The element at an end has the others on one side of it. -/
theorem End.exists_append_of_pick {α : Type} {fromEnd : End} {list : List α} {a : α}
    (h : fromEnd.pick list = some a) :
    ∃ before after, list = before ++ a :: after ∧ fromEnd.drop list = before ++ after := by
  cases fromEnd with
  | oldest =>
    obtain ⟨rest, rfl⟩ := List.head?_eq_some_iff.1 h
    exact ⟨[], rest, rfl, rfl⟩
  | newest =>
    obtain ⟨before, rfl⟩ := List.getLast?_eq_some_iff.1 h
    exact ⟨before, [], rfl, by simp [drop]⟩

theorem End.mem_of_pick {α : Type} {fromEnd : End} {list : List α} {a : α}
    (h : fromEnd.pick list = some a) : a ∈ list := by
  obtain ⟨before, after, rfl, -⟩ := exists_append_of_pick h
  simp

/-- The entry at an end of a map. -/
def ByteMap.atEnd (map : ByteMap) (fromEnd : End) : Option (Bytes × Bytes) := fromEnd.pick map.entries

theorem ByteMap.scan_atEnd (map : ByteMap) (fromEnd : End) :
    map.scan (.first (fromEnd = .newest)) =
      ((map.atEnd fromEnd).map fun e => (⟨e.1, some e.2⟩ : Entry)).toList := by
  rw [scan_first]
  cases fromEnd <;> rfl

namespace Collection

variable (collection : Collection) (world : World)

/-- What the namespace of the collection holds. -/
def held : ByteMap := collection.space.view world.engine.store

theorem unwritten_first (fromEnd : End) : Keeps World.Unwritten (collection.first fromEnd) := by
  unfold first
  refine Keeps.bind (Op.unwritten_access (collection.space.keeps_scan _)) fun entries => ?_
  split
  · exact Keeps.bind (Op.keeps_coded _) fun _ => Keeps.pure _
  · exact Keeps.pure _

/-- How looking at an end of a collection can come out. -/
inductive First (fromEnd : End) : EStateM.Result Error World (Option (Bytes × Value)) → Prop
  | fault {error : StoreError} {after : World} (hfaults : world.engine.faults ≠ .never) :
    First fromEnd (.error (.store error) after)
  | nothing {after : World} (hnone : (collection.held world).atEnd fromEnd = none) :
    First fromEnd (.ok none after)
  | unreadable {key bytes : Bytes} {error : CodecError} {after : World}
    (hend : (collection.held world).atEnd fromEnd = some (key, bytes))
    (hdecode : Codec.decode bytes = .error error) : First fromEnd (.error (.codec error) after)
  | found {key bytes : Bytes} {doc : Value} {after : World}
    (hend : (collection.held world).atEnd fromEnd = some (key, bytes))
    (hdecode : Codec.decode bytes = .ok doc) : First fromEnd (.ok (some (key, doc)) after)

theorem first_spec (fromEnd : End) :
    First collection world fromEnd (collection.first fromEnd world) := by
  have hscan := collection.space.scan_eq world.engine (.first (fromEnd = .newest))
  unfold first
  cases hfault : world.engine.fault? (.scan (collection.space.dataScan (.first (fromEnd = .newest)))) with
  | some error =>
    rw [hfault] at hscan
    rw [bind_error (Op.access_error hscan)]
    refine .fault fun hnever => ?_
    rw [Engine.fault?_of_never hnever] at hfault
    cases hfault
  | none =>
    rw [hfault] at hscan
    rw [bind_ok (Op.access_ok hscan), ByteMap.scan_atEnd]
    cases hend : (collection.held world).atEnd fromEnd with
    | none =>
      unfold held at hend
      rw [hend]
      exact .nothing hend
    | some e =>
      obtain ⟨key, bytes⟩ := e
      have hview := hend
      unfold held at hview
      rw [hview]
      simp only [Option.map_some, Option.toList_some, List.getLast?_singleton, Entry.document_some]
      cases hdecode : Codec.decode bytes with
      | ok doc =>
        rw [bind_ok (Op.coded_ok rfl _)]
        exact .found hend hdecode
      | error error =>
        rw [bind_error (Op.coded_error rfl _)]
        exact .unreadable hend hdecode

/-! ## Writes -/

/-- How storing a document, and then answering `answer`, can come out. -/
inductive Put {α : Type} (key : Bytes) (value : Value) (answer : α) :
    EStateM.Result Error World α → Prop
  | refused {error : CodecError} (hencode : collection.codec.encode value = .error error) :
    Put key value answer (.error (.codec error) world)
  | fault {bytes : Bytes} {error : StoreError} {after : World}
    (hencode : collection.codec.encode value = .ok bytes) (hfaults : world.engine.faults ≠ .never)
    (hsame : world.Unwritten after) : Put key value answer (.error (.store error) after)
  | stored {bytes : Bytes} {after : World} (hencode : collection.codec.encode value = .ok bytes)
    (hafter : world.Became (world.engine.store.insert (collection.space.dataKey key) bytes) after) :
    Put key value answer (.ok answer after)

theorem put_spec (key : Bytes) (value : Value) :
    Put collection world key value () (collection.put key value world) := by
  unfold put
  cases hencode : collection.codec.encode value with
  | error error =>
    rw [bind_error (Op.coded_error rfl world)]
    exact .refused hencode
  | ok bytes =>
    rw [bind_ok (Op.coded_ok rfl world)]
    have hput := collection.space.put_eq world.engine key bytes
    cases hfault : world.engine.fault? (.put (collection.space.dataKey key) bytes) with
    | some error =>
      rw [hfault] at hput
      rw [Op.access_error hput]
      refine .fault hencode (fun hnever => ?_) ⟨rfl, rfl, rfl, rfl⟩
      rw [Engine.fault?_of_never hnever] at hfault
      cases hfault
    | none =>
      rw [hfault] at hput
      rw [Op.access_ok hput]
      exact .stored hencode ⟨rfl, rfl, rfl, rfl⟩

/-- A put that is reported and answered comes out as the put does. -/
theorem put_reported {α : Type} (key : Bytes) (value : Value) (event : Event) (answer : α) :
    Put collection world key value answer
      ((do collection.put key value; Op.report event; return answer : Op α) world) := by
  have hspec := collection.put_spec world key value
  cases hput : collection.put key value world with
  | error error after =>
    rw [hput] at hspec
    rw [bind_error hput]
    cases hspec with
    | refused hencode => exact .refused hencode
    | fault hencode hfaults hsame => exact .fault hencode hfaults hsame
  | ok u after =>
    rw [hput] at hspec
    rw [bind_ok hput]
    cases hspec with
    | stored hencode hafter =>
      exact .stored hencode ⟨hafter.store, hafter.faults, hafter.clock, hafter.lastKey⟩

/-- How deleting a document, and then answering `answer`, can come out. -/
inductive Deleted {α : Type} (key : Bytes) (answer : α) : EStateM.Result Error World α → Prop
  | fault {error : StoreError} {after : World} (hfaults : world.engine.faults ≠ .never)
    (hsame : world.Unwritten after) : Deleted key answer (.error (.store error) after)
  | erased {after : World}
    (hafter : world.Became (world.engine.store.erase (collection.space.dataKey key)) after) :
    Deleted key answer (.ok answer after)

theorem delete_spec (key : Bytes) :
    Deleted collection world key () (collection.delete key world) := by
  have hdelete := collection.space.delete_eq world.engine key
  unfold delete
  cases hfault : world.engine.fault? (.delete (collection.space.dataKey key)) with
  | some error =>
    rw [hfault] at hdelete
    rw [Op.access_error hdelete]
    refine .fault (fun hnever => ?_) ⟨rfl, rfl, rfl, rfl⟩
    rw [Engine.fault?_of_never hnever] at hfault
    cases hfault
  | none =>
    rw [hfault] at hdelete
    rw [Op.access_ok hdelete]
    exact .erased ⟨rfl, rfl, rfl, rfl⟩

end Collection

/-! ## Sequences -/

namespace Sequence

variable (sequence : Sequence) (world : World)

theorem unwritten_peek (fromEnd : End) : Keeps World.Unwritten (sequence.peek fromEnd) := by
  refine Keeps.bind (sequence.collection.unwritten_first fromEnd) fun found => ?_
  split
  · exact Keeps.pure _
  · exact Keeps.pure _

theorem store_spec (key : SequenceKey) (item : Value) :
    sequence.collection.Put world key.toBytes item item (sequence.store key item world) :=
  sequence.collection.put_reported world key.toBytes item _ item

theorem remove_spec (fromEnd : End) (key : Bytes) (item : Value) :
    sequence.collection.Deleted world key item (sequence.remove fromEnd key item world) := by
  have hspec := sequence.collection.delete_spec world key
  unfold remove
  cases hdelete : sequence.collection.delete key world with
  | error error after =>
    rw [hdelete] at hspec
    rw [bind_error hdelete]
    cases hspec with
    | fault hfaults hsame => exact .fault hfaults hsame
  | ok u after =>
    rw [hdelete] at hspec
    rw [bind_ok hdelete]
    cases hspec with
    | erased hafter => exact .erased ⟨hafter.store, hafter.faults, hafter.clock, hafter.lastKey⟩

end Sequence

end DocStore
