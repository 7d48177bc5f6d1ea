/-
Stored documents stay readable as long as none of them is nested too deeply to be read. In a store
whose documents can all be read every request leaves them so, and none fails over a document but
a write, over its own. The depth matters: a document nested more deeply is stored all the same, and
fails whatever reads it from then on.
-/
import DocStore.Proofs.Collection.Request
import DocStore.Proofs.Collection.Walks
import DocStore.Proofs.Document.RoundTrip

namespace DocStore

/-- The engine serves every call, and every document in the store can be read. -/
structure World.Readable (world : World) : Prop where
  served : world.engine.faults = .never
  decodes : ∀ e ∈ world.engine.store.entries, ∃ doc, Codec.decode e.2 = .ok doc

namespace World.Readable

variable {world after : World}

theorem of_became (h : world.Readable) {store : ByteMap} (hafter : world.Became store after)
    (hstore : ∀ e ∈ store.entries, ∃ doc, Codec.decode e.2 = .ok doc) : after.Readable := by
  refine ⟨hafter.faults.trans h.served, ?_⟩
  rw [hafter.store]
  exact hstore

theorem of_unwritten (h : world.Readable) (hsame : world.Unwritten after) : after.Readable :=
  h.of_became hsame h.decodes

theorem of_erase (h : world.Readable) {key : Bytes}
    (hafter : world.Became (world.engine.store.erase key) after) : after.Readable :=
  h.of_became hafter fun e he => h.decodes e ((ByteMap.mem_erase_iff _ _ _).1 he).1

theorem of_insert (h : world.Readable) {key bytes : Bytes} {doc : Value}
    (hdoc : Codec.decode bytes = .ok doc)
    (hafter : world.Became (world.engine.store.insert key bytes) after) : after.Readable := by
  refine h.of_became hafter fun e he => ?_
  rcases (ByteMap.mem_insert_iff _ _ _ _).1 he with rfl | ⟨he, -⟩
  · exact ⟨doc, hdoc⟩
  · exact h.decodes e he

/-- The documents of a namespace can be read. -/
theorem held (h : world.Readable) (collection : Collection) :
    ∀ e ∈ (collection.held world).entries, ∃ doc, Codec.decode e.2 = .ok doc := fun e he =>
  h.decodes (collection.space.dataKey e.1, e.2) ((Namespace.mem_view_iff _ _ _).1 he)

theorem readAll (h : world.Readable) (collection : Collection) :
    ∃ docs, collection.readAll world = .ok docs := by
  unfold Collection.readAll
  have hheld := h.held collection
  generalize (collection.held world).entries = entries at hheld
  induction entries with
  | nil => exact ⟨[], rfl⟩
  | cons e rest ih =>
    obtain ⟨doc, hdoc⟩ := hheld e List.mem_cons_self
    obtain ⟨docs, hdocs⟩ := ih fun e he => hheld e (List.mem_cons_of_mem _ he)
    exact ⟨doc :: docs, by rw [List.mapM_cons, hdoc, hdocs]; rfl⟩

end World.Readable

/-! ## Operations -/

/-- The operation leaves documents readable, and fails over a document at most by `refusal`. -/
structure Op.Serves {α : Type} (refusal : Option CodecError) (x : Op α) : Prop where
  of_ok : ∀ {world a after}, world.Readable → x world = .ok a after → after.Readable
  of_error : ∀ {world error after}, world.Readable → x world = .error error after →
    after.Readable ∧ ∀ fault, error = .codec fault → refusal = some fault

namespace Op.Serves

variable {α β : Type} {refusal : Option CodecError}

protected theorem pure (a : α) : Serves refusal (pure a : Op α) := by
  constructor
  · rintro world _ _ h ⟨⟩
    exact h
  · rintro world _ _ h ⟨⟩

protected theorem throw {error : Error} (herror : ∀ fault, error ≠ .codec fault) :
    Serves refusal (throw error : Op α) := by
  constructor
  · rintro world _ _ h ⟨⟩
  · rintro world _ _ h ⟨⟩
    exact ⟨h, fun fault heq => absurd heq (herror fault)⟩

protected theorem bind {x : Op α} {f : α → Op β} (hx : Serves refusal x)
    (hf : ∀ a, Serves refusal (f a)) : Serves refusal (x >>= f) := by
  constructor
  · intro world b after h hrun
    cases hx' : x world with
    | ok a middle =>
      rw [bind_ok hx'] at hrun
      exact (hf a).of_ok (hx.of_ok h hx') hrun
    | error error middle =>
      rw [bind_error hx'] at hrun
      cases hrun
  · intro world error after h hrun
    cases hx' : x world with
    | ok a middle =>
      rw [bind_ok hx'] at hrun
      exact (hf a).of_error (hx.of_ok h hx') hrun
    | error error middle =>
      rw [bind_error hx'] at hrun
      cases hrun
      exact hx.of_error h hx'

/-- What writes nothing and answers in readable worlds. -/
theorem of_unwritten {x : Op α} (hsame : Keeps World.Unwritten x)
    (hok : ∀ world, world.Readable → ∃ a after, x world = .ok a after) : Serves refusal x := by
  constructor
  · intro world a after h hrun
    exact h.of_unwritten (hsame.of_ok hrun)
  · intro world error after h hrun
    obtain ⟨a, other, hother⟩ := hok world h
    rw [hother] at hrun
    cases hrun

theorem report (event : Event) : Serves refusal (Op.report event) :=
  of_unwritten (Op.unwritten_report event) fun _ _ => ⟨(), _, rfl⟩

theorem issueKey : Serves refusal Op.issueKey := by
  constructor
  · rintro world _ _ h ⟨⟩
    exact ⟨h.served, h.decodes⟩
  · rintro world _ _ h ⟨⟩

end Op.Serves

section
variable {refusal : Option CodecError}

/-- A computation on the engine fails over no document. -/
theorem Op.serves_access {α : Type} {x : Access α} (hx : Keeps Engine.Unwritten x) :
    (Op.access x).Serves refusal := by
  have hsame := Op.unwritten_access hx
  constructor
  · intro world a after h hrun
    exact h.of_unwritten (hsame.of_ok hrun)
  · intro world error after h hrun
    refine ⟨h.of_unwritten (hsame.of_error hrun), ?_⟩
    rintro fault rfl
    cases hengine : x world.engine with
    | ok a engine =>
      rw [Op.access_ok hengine] at hrun
      cases hrun
    | error error engine =>
      rw [Op.access_error hengine] at hrun
      cases hrun

theorem Cursor.serves_fold {σ : Type} {f : σ → Entry → Op σ}
    (hf : ∀ acc entry, (f acc entry).Serves refusal) (cursor : Cursor) (acc : σ) :
    (cursor.fold acc f).Serves refusal := by
  have hfuel : ∀ fuel (cursor : Cursor) acc, (cursor.foldFuel f fuel acc).Serves refusal := by
    intro fuel
    induction fuel with
    | zero => exact fun _ acc => .pure acc
    | succ fuel ih =>
      intro cursor acc
      unfold Cursor.foldFuel
      refine .bind (Op.serves_access cursor.keeps_next) fun step => ?_
      split
      · exact .pure _
      · exact .bind (hf _ _) fun acc => ih _ acc
  exact ⟨fun h hrun => (hfuel _ cursor acc).of_ok h hrun,
    fun h hrun => (hfuel _ cursor acc).of_error h hrun⟩

end

/-! ## Collections -/

/-- Why a document has no stored form, if it has none. -/
def Value.refusal? (doc : Value) : Option CodecError := doc.firstNonFinite?.map .nonFinite

/-- A document that can be read back from its stored form, if it has one. -/
structure Value.Shallow (doc : Value) : Prop where
  canonical : doc.Canonical
  depth : doc.depth ≤ Json.maxDepth

theorem Value.Shallow.decodes {doc : Value} (hdoc : doc.Shallow) {codec : Codec} {bytes : Bytes}
    (hencode : codec.encode doc = .ok bytes) : ∃ read, Codec.decode bytes = .ok read := by
  obtain ⟨hfinite, rfl⟩ := Codec.encode_eq_ok_iff.1 hencode
  have hdecode := codec.decode_storedForm hdoc.canonical hfinite
  rw [if_pos hdoc.depth] at hdecode
  exact ⟨_, hdecode⟩

namespace Collection

section
variable (collection : Collection) {refusal : Option CodecError}

theorem serves_get (key : Bytes) : (collection.get key).Serves refusal := by
  refine .of_unwritten (unwritten_get key) fun world h => ?_
  obtain ⟨after, -, hget⟩ := collection.get_spec h.served key
  cases hheld : (collection.held world).get? key with
  | none =>
    rw [hheld] at hget
    exact ⟨_, _, hget⟩
  | some bytes =>
    obtain ⟨doc, hdoc⟩ := h.held collection (key, bytes) ((ByteMap.get?_eq_some_iff _ _ _).1 hheld)
    rw [hheld, Option.map_some, hdoc] at hget
    exact ⟨_, _, hget⟩

theorem serves_query (expression : Expression) : (collection.query expression).Serves refusal := by
  refine .of_unwritten (unwritten_query expression) fun world h => ?_
  obtain ⟨docs, hdocs⟩ := h.readAll collection
  obtain ⟨after, -, hquery⟩ := collection.query_spec h.served expression
  rw [hdocs] at hquery
  exact ⟨_, _, hquery⟩

theorem serves_count (expression : Option Expression) :
    (collection.count expression).Serves refusal := by
  refine .of_unwritten (unwritten_count expression) fun world h => ?_
  obtain ⟨docs, hdocs⟩ := h.readAll collection
  obtain ⟨after, -, hcount⟩ := collection.count_spec h.served expression
  rw [hdocs] at hcount
  exact ⟨_, _, hcount⟩

theorem serves_first (fromEnd : End) : (collection.first fromEnd).Serves refusal := by
  refine .of_unwritten (collection.unwritten_first fromEnd) fun world h => ?_
  have hspec := collection.first_spec world fromEnd
  cases hfirst : collection.first fromEnd world with
  | ok found after => exact ⟨found, after, rfl⟩
  | error error after =>
    rw [hfirst] at hspec
    cases hspec with
    | fault hfaults => exact absurd h.served hfaults
    | unreadable hend hdecode =>
      obtain ⟨doc, hdoc⟩ := h.held collection _ (End.mem_of_pick hend)
      rw [hdoc] at hdecode
      cases hdecode

theorem serves_delete (key : Bytes) : (collection.delete key).Serves refusal := by
  constructor
  · intro world u after h hrun
    have hspec := collection.delete_spec world key
    rw [hrun] at hspec
    cases hspec with
    | erased hafter => exact h.of_erase hafter
  · intro world error after h hrun
    have hspec := collection.delete_spec world key
    rw [hrun] at hspec
    cases hspec with
    | fault hfaults => exact absurd h.served hfaults

/-- Storing a document that is not nested too deeply fails over it if it has no stored form, and
stores bytes that can be read otherwise. -/
theorem serves_put (key : Bytes) {doc : Value} (hdoc : doc.Shallow) :
    (collection.put key doc).Serves doc.refusal? := by
  have hencode := collection.codec.encode_eq doc
  constructor
  · intro world u after h hrun
    have hspec := collection.put_spec world key doc
    rw [hrun] at hspec
    cases hspec with
    | stored hstored hafter =>
      obtain ⟨read, hdecode⟩ := hdoc.decodes hstored
      exact h.of_insert hdecode hafter
  · intro world error after h hrun
    have hspec := collection.put_spec world key doc
    rw [hrun] at hspec
    cases hspec with
    | refused hrefused =>
      refine ⟨h, ?_⟩
      rintro _ ⟨⟩
      rw [hencode] at hrefused
      unfold Value.refusal?
      cases hfinite : doc.firstNonFinite? <;> rw [hfinite] at hrefused <;> cases hrefused
      rfl
    | fault hstored hfaults => exact absurd h.served hfaults

theorem serves_empty : collection.empty.Serves refusal := by
  refine .bind (Cursor.serves_fold (fun removed entry => ?_) _ _) fun removed => .report _
  exact .bind (collection.serves_delete _) fun _ => .pure _

end

end Collection

/-! ## Requests -/

/-- The document that a request would store, if it is a write. -/
def SequenceRequest.written? : SequenceRequest → Option Value
  | insert item => some item
  | _ => none

def TableRequest.written? : TableRequest → Option Value
  | put item => some item
  | _ => none

def Request.written? : Request → Option Value
  | put _ value => some value
  | sequence _ request => request.written?
  | table _ _ request => request.written?
  | _ => none

theorem SequenceRequest.serves (sequence : Sequence) (request : SequenceRequest)
    (hdoc : ∀ doc, request.written? = some doc → doc.Shallow) :
    (request.run sequence).Serves (request.written?.bind Value.refusal?) := by
  cases request with
  | insert item =>
    refine .bind (.bind .issueKey fun key => ?_) fun _ => .pure _
    exact .bind (sequence.collection.serves_put _ (hdoc item rfl)) fun _ =>
      .bind (.report _) fun _ => .pure _
  | peek fromEnd =>
    refine .bind (.bind (sequence.collection.serves_first fromEnd) fun found => ?_) fun _ => .pure _
    split <;> exact .pure _
  | take fromEnd =>
    refine .bind (.bind (sequence.collection.serves_first fromEnd) fun found => ?_) fun _ => .pure _
    split
    · exact .bind (.bind (sequence.collection.serves_delete _) fun _ =>
        .bind (.report _) fun _ => .pure _) fun _ => .pure _
    · exact .pure _
  | query expression => exact .bind (sequence.collection.serves_query expression) fun _ => .pure _
  | count expression => exact .bind (sequence.collection.serves_count expression) fun _ => .pure _
  | empty => exact .bind sequence.collection.serves_empty fun _ => .pure _

theorem TableRequest.serves (table : Table) (request : TableRequest)
    (hdoc : ∀ doc, request.written? = some doc → doc.Shallow) :
    (request.run table).Serves (request.written?.bind Value.refusal?) := by
  cases request with
  | put item =>
    refine .bind ?_ fun _ => .pure _
    unfold Table.put
    split
    · exact .throw fun _ => nofun
    · exact .bind (table.collection.serves_put _ (hdoc item rfl)) fun _ =>
        .bind (.report _) fun _ => .pure _
  | get key => exact .bind (table.collection.serves_get _) fun _ => .pure _
  | getAll => exact .bind (table.collection.serves_query _) fun _ => .pure _
  | del key =>
    exact .bind (.bind (table.collection.serves_delete _) fun _ => .report _) fun _ => .pure _
  | query expression => exact .bind (table.collection.serves_query expression) fun _ => .pure _
  | count expression => exact .bind (table.collection.serves_count expression) fun _ => .pure _
  | empty => exact .bind table.collection.serves_empty fun _ => .pure _

/-- Where every document can be read a request leaves it so, and fails over a document only if it
would store one that has no stored form. -/
theorem Request.serves (database : Database) (request : Request)
    (hdoc : ∀ doc, request.written? = some doc → doc.Shallow) :
    (request.run database).Serves (request.written?.bind Value.refusal?) := by
  cases request with
  | get key => exact .bind (database.documents.serves_get _) fun _ => .pure _
  | put key value => exact .bind (database.documents.serves_put _ (hdoc value rfl)) fun _ => .pure _
  | del key => exact .bind (database.documents.serves_delete _) fun _ => .pure _
  | query expression => exact .bind (database.documents.serves_query expression) fun _ => .pure _
  | sequence name request => exact request.serves (database.sequence name) hdoc
  | table name keyField request => exact request.serves (database.table name keyField) hdoc

/-! ## Runs -/

/-- What happens to a store. -/
inductive StoreStep where
  /-- The clock is set, forwards or back. -/
  | clock (now : UInt64)
  /-- A part of a database, of any configuration, is asked something. -/
  | ask (database : Database) (request : Request)

namespace StoreStep

/-- The document that a step would store, if it is a write. -/
def written? : StoreStep → Option Value
  | clock _ => none
  | ask _ request => request.written?

/-- The world after a step, whether what is asked succeeds or fails. -/
def run (world : World) : StoreStep → World
  | clock now => { world with clock := now }
  | ask database request =>
    match request.run database world with
    | .ok _ after => after
    | .error _ after => after

theorem readable_run {world : World} (h : world.Readable) {step : StoreStep}
    (hdoc : ∀ doc, step.written? = some doc → doc.Shallow) : (step.run world).Readable := by
  cases step with
  | clock now => exact ⟨h.served, h.decodes⟩
  | ask database request =>
    have hserves := request.serves database hdoc
    simp only [run]
    cases hrun : request.run database world with
    | ok answer after => exact hserves.of_ok h hrun
    | error error after => exact (hserves.of_error h hrun).1

/-- Steps after which documents can be read, if they could before. -/
theorem readable_foldl {world : World} (h : world.Readable) {steps : List StoreStep}
    (hdocs : ∀ step ∈ steps, ∀ doc, step.written? = some doc → doc.Shallow) :
    (steps.foldl run world).Readable := by
  induction steps generalizing world with
  | nil => exact h
  | cons step rest ih =>
    exact ih (readable_run h (hdocs step List.mem_cons_self))
      fun next hnext => hdocs next (List.mem_cons_of_mem _ hnext)

end StoreStep

/-- In a store that starts empty and whose engine serves every call, all documents can be read
after any steps that write none that is nested too deeply, and what is asked then fails over a
document only if it would write one that has no stored form. -/
theorem Database.stored_documents_stay_readable (steps : List StoreStep)
    (hdocs : ∀ step ∈ steps, ∀ doc, step.written? = some doc → doc.Shallow) (world : World)
    (hserved : world.engine.faults = .never) (hempty : world.engine.store = .empty) :
    (∀ e ∈ (steps.foldl StoreStep.run world).engine.store.entries,
      ∃ doc, Codec.decode e.2 = .ok doc) ∧
    ∀ (database : Database) (request : Request) (error : CodecError) (after : World),
      (∀ doc, request.written? = some doc → doc.Shallow) →
      request.run database (steps.foldl StoreStep.run world) = .error (.codec error) after →
      ∃ doc x, request.written? = some doc ∧ doc.firstNonFinite? = some x ∧
        error = .nonFinite x := by
  have hstart : world.Readable := by
    refine ⟨hserved, ?_⟩
    rw [hempty]
    exact nofun
  have hfinal := StoreStep.readable_foldl hstart hdocs
  refine ⟨hfinal.decodes, ?_⟩
  intro database request error after hdoc hrun
  have hrefusal := ((request.serves database hdoc).of_error hfinal hrun).2 error rfl
  obtain ⟨doc, hwritten, hrefused⟩ := Option.bind_eq_some_iff.1 hrefusal
  obtain ⟨x, hx, rfl⟩ := Option.map_eq_some_iff.1 hrefused
  exact ⟨doc, x, hwritten, hx, rfl⟩

/-! ## How deep a document may be -/

/-- Arrays, one within the other, the innermost one empty. -/
def Value.nested : Nat → Value
  | 0 => .array []
  | n + 1 => .array [nested n]

namespace Value

theorem depth_nested (n : Nat) : (nested n).depth = n + 1 := by
  induction n with
  | zero => rfl
  | succ n ih => simp [nested, depth, itemsDepth, ih]

theorem canonical_nested (n : Nat) : (nested n).Canonical := by
  induction n with
  | zero => trivial
  | succ n ih => exact ⟨ih, trivial⟩

theorem leaves_nested (inArray : Bool) (n : Nat) : (nested n).leaves inArray = [] := by
  induction n generalizing inArray with
  | zero => rfl
  | succ n ih => simp [nested, leaves, itemLeaves, ih]

end Value

theorem Value.shallow_nested {n : Nat} (h : n < Json.maxDepth) : (nested n).Shallow :=
  ⟨canonical_nested n, by rw [depth_nested]; exact h⟩

/-- The deepest document that can be read, one that has no stored form, and a removal. -/
def deepestSteps : List StoreStep :=
  [.clock 7, .ask ⟨{}, .root⟩ (.sequence "q" (.insert (.nested 126))),
    .ask ⟨{ pageSize := 0 }, .root⟩ (.put "k" (.float ⟨0x7FF0000000000000⟩)),
    .ask ⟨{}, .root⟩ (.put "k" (.nested 126)), .ask ⟨{}, .root⟩ (.sequence "q" (.take .newest))]

theorem deepestSteps_stay_readable :
    (∀ step ∈ deepestSteps, ∀ doc, step.written? = some doc → doc.Shallow) ∧
    ∀ e ∈ (deepestSteps.foldl StoreStep.run {}).engine.store.entries,
      ∃ doc, Codec.decode e.2 = .ok doc := by
  have hdocs : ∀ step ∈ deepestSteps, ∀ doc, step.written? = some doc → doc.Shallow := by
    have hnested : (Value.nested 126).Shallow := Value.shallow_nested (by decide)
    intro step hstep doc hdoc
    simp only [deepestSteps, List.mem_cons, List.not_mem_nil, or_false] at hstep
    rcases hstep with rfl | rfl | rfl | rfl | rfl
    · cases hdoc
    · cases hdoc
      exact hnested
    · cases hdoc
      exact ⟨trivial, by decide⟩
    · cases hdoc
      exact hnested
    · cases hdoc
  exact ⟨hdocs, (Database.stored_documents_stay_readable deepestSteps hdocs {} rfl rfl).1⟩

/-- A document that is nested too deeply is inserted into an empty sequence, and every attempt to
take it out fails. -/
theorem Sequence.take_of_deep (sequence : Sequence) {world : World}
    (hserved : world.engine.faults = .never)
    (hempty : sequence.collection.space.view world.engine.store = .empty) {doc : Value}
    (hcanonical : doc.Canonical) (hfinite : doc.firstNonFinite? = none)
    (hdeep : Json.maxDepth < doc.depth) (fromEnd : End) :
    ∃ queued after, sequence.insert doc world = .ok doc queued ∧
      sequence.take fromEnd queued = .error (.codec .malformed) after := by
  have hencode := sequence.collection.codec.encode_eq doc
  have hdecode := sequence.collection.codec.decode_storedForm hcanonical hfinite
  rw [hfinite] at hencode
  rw [if_neg (by omega)] at hdecode
  have hstore := sequence.store_spec world.issued (SequenceKey.next world.lastKey world.clock) doc
  have hinsert : sequence.insert doc world =
      sequence.store (SequenceKey.next world.lastKey world.clock) doc world.issued := rfl
  cases hrun : sequence.store (SequenceKey.next world.lastKey world.clock) doc world.issued with
  | error error after =>
    rw [hrun] at hstore
    cases hstore with
    | refused hrefused =>
      rw [hencode] at hrefused
      cases hrefused
    | fault hstored hfaults => exact absurd hserved hfaults
  | ok answer queued =>
    rw [hrun] at hstore
    cases hstore with
    | stored hstored hafter =>
      rw [hencode] at hstored
      cases hstored
      -- the document is alone in the sequence, so it is what either end finds
      have hend : (sequence.collection.held queued).atEnd fromEnd =
          some ((SequenceKey.next world.lastKey world.clock).toBytes,
            sequence.collection.codec.storedForm doc) := by
        unfold Collection.held
        rw [hafter.store, Namespace.view_insert]
        show ((sequence.collection.space.view world.engine.store).insert _ _).atEnd fromEnd = _
        rw [hempty]
        cases fromEnd <;> rfl
      have hfirst := sequence.collection.first_spec queued fromEnd
      cases hlook : sequence.collection.first fromEnd queued with
      | ok found after =>
        rw [hlook] at hfirst
        cases hfirst with
        | nothing hnone =>
          rw [hend] at hnone
          cases hnone
        | found hfound hread =>
          rw [hend] at hfound
          cases hfound
          rw [hdecode] at hread
          cases hread
      | error error after =>
        rw [hlook] at hfirst
        cases hfirst with
        | fault hfaults => exact absurd (hafter.faults.trans hserved) hfaults
        | unreadable hfound hread =>
          rw [hend] at hfound
          cases hfound
          rw [hdecode] at hread
          cases hread
          exact ⟨queued, after, hinsert.trans hrun, bind_error hlook _⟩

/-- The 128 arrays are enqueued, and no attempt to dequeue them succeeds. -/
theorem nestedArrays_block_their_queue : ∃ queued after,
    (Request.sequence "q" (.insert (.nested 127))).run ⟨{}, .root⟩ {} =
      .ok (.document (.nested 127)) queued ∧
    (Request.sequence "q" (.take .oldest)).run ⟨{}, .root⟩ queued =
      .error (.codec .malformed) after := by
  have hfinite : (Value.nested 127).firstNonFinite? = none := by
    rw [Value.firstNonFinite?, Value.leaves_nested]
    rfl
  have hdeep : Json.maxDepth < (Value.nested 127).depth := by
    rw [Value.depth_nested]
    decide
  have hempty : ((⟨{}, .root⟩ : Database).sequence "q").collection.space.view
      ({} : World).engine.store = .empty := rfl
  obtain ⟨queued, after, hinsert, htake⟩ := Sequence.take_of_deep
    ((⟨{}, .root⟩ : Database).sequence "q") rfl hempty (Value.canonical_nested 127) hfinite hdeep
    .oldest
  exact ⟨queued, after, bind_ok hinsert _, bind_error htake _⟩

end DocStore
