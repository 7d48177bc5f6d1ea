/-
Operations that fail. Whatever fails in an operation, a call of the engine, a document that cannot
be read, or one that has no key or no stored form, the operation leaves the store and the log as they
were, and a call that fails is the last one made. What refuses a document does so before any call.
So an item that could not be taken stays at its end, and taking again meets it again.

An operation reads, then writes at most once, then reports: that is the shape of all of them but
clearing, and the reason why nothing has been written when something fails.
-/
import DocStore.Proofs.Collection.Walks
import DocStore.Proofs.Collection.Request
import DocStore.Proofs.Store.Calls

namespace DocStore

/-! ## Failures -/

/-- The error says that a document was refused: it has no usable key, or no stored form. -/
def Error.IsRefusal : Error → Prop
  | .invalidKey _ => True
  | .codec (.nonFinite _) => True
  | _ => False

/-- The calls of an operation that ends in an error: the one that failed, if the error is the engine's,
was the last, and all others were served. -/
def Engine.EndsIn (before : Engine) (error : Error) (after : Engine) : Prop :=
  match error with
  | .store fault => before.Failed fault after
  | _ => before.Served after

/-- An operation has failed and changed nothing. -/
structure World.Failed (before : World) (error : Error) (after : World) : Prop where
  store : after.engine.store = before.engine.store
  log : after.log = before.log
  calls : before.engine.EndsIn error after.engine
  refused : error.IsRefusal → after.engine.calls = before.engine.calls

/-- An operation has read and not written. -/
structure World.Looked (before after : World) : Prop where
  engine : before.engine.Looked after.engine
  log : after.log = before.log

theorem World.Looked.refl (world : World) : world.Looked world := ⟨.refl _, rfl⟩

theorem World.Looked.trans {a b c : World} (hab : a.Looked b) (hbc : b.Looked c) : a.Looked c :=
  ⟨hab.engine.trans hbc.engine, hbc.log.trans hab.log⟩

/-- An operation has failed, changed nothing and refused nothing. -/
structure World.FailedLate (before : World) (error : Error) (after : World) : Prop where
  failed : before.Failed error after
  accepted : ¬ error.IsRefusal

theorem Engine.EndsIn.of_served {before after : Engine} {error : Error}
    (herror : ∀ fault, error ≠ .store fault) (h : before.Served after) : before.EndsIn error after := by
  cases error with
  | store fault => exact absurd rfl (herror fault)
  | codec error => exact h
  | query error => exact h
  | invalidKey field => exact h

theorem Engine.EndsIn.of_looked {a b c : Engine} {error : Error} (hab : a.Looked b)
    (hbc : b.EndsIn error c) : a.EndsIn error c := by
  cases error with
  | store fault => exact Engine.Failed.of_looked hab hbc
  | codec error => exact hab.served.trans hbc
  | query error => exact hab.served.trans hbc
  | invalidKey field => exact hab.served.trans hbc

theorem World.FailedLate.of_looked {a b c : World} {error : Error} (hab : a.Looked b)
    (hbc : b.FailedLate error c) : a.FailedLate error c where
  failed := {
    store := hbc.failed.store.trans hab.engine.store
    log := hbc.failed.log.trans hab.log
    calls := hbc.failed.calls.of_looked hab.engine
    refused := fun h => absurd h hbc.accepted }
  accepted := hbc.accepted

/-! ## Reading, writing and reporting -/

/-- Every call was served. -/
def World.Served (before after : World) : Prop := before.engine.Served after.engine

theorem World.Served.of_silent {a b c : World} (hab : a.Served b) (hbc : c.engine = b.engine) :
    a.Served c := by
  unfold Served at *
  rw [hbc]
  exact hab

namespace Op

variable {α β : Type}

/-- The operation only reads, and refuses nothing. -/
def Reads (x : Op α) : Prop := Ends World.Looked World.FailedLate x

/-- The operation writes last, and refuses nothing. -/
def Writes (x : Op α) : Prop := Ends World.Served World.FailedLate x

/-- The operation refuses first and writes last. -/
def Attempts (x : Op α) : Prop := Ends World.Served World.Failed x

/-- The operation does not fail, and leaves the engine alone. -/
def Silent (x : Op α) : Prop := Ends (fun before after => after.engine = before.engine)
  (fun _ _ _ => False) x

theorem silent_pure (a : α) : Silent (pure a : Op α) := by
  constructor
  · rintro world _ _ ⟨⟩
    rfl
  · rintro world _ _ ⟨⟩

theorem silent_report (event : Event) : Silent (Op.report event) := by
  constructor
  · rintro world _ _ ⟨⟩
    rfl
  · rintro world _ _ ⟨⟩

theorem Silent.bind {x : Op α} {f : α → Op β} (hx : Silent x) (hf : ∀ a, Silent (f a)) :
    Silent (x >>= f) :=
  Ends.bind hx hf (fun _ _ _ hab hbc => hbc.trans hab) (fun _ _ _ h => h) fun _ _ _ _ _ h => h

protected theorem Reads.pure (a : α) : Reads (pure a : Op α) := Ends.pure World.Looked.refl a

protected theorem Reads.bind {x : Op α} {f : α → Op β} (hx : Reads x) (hf : ∀ a, Reads (f a)) :
    Reads (x >>= f) :=
  Ends.bind hx hf (fun _ _ _ hab hbc => hab.trans hbc) (fun _ _ _ h => h)
    fun _ _ _ _ hab hbc => hbc.of_looked hab

theorem Reads.writes {x : Op α} (hx : Reads x) : Writes x :=
  Ends.mono hx (fun _ _ h => h.engine.served) fun _ _ _ h => h

/-- What reads and then writes, writes last. -/
theorem Reads.bind_writes {x : Op α} {f : α → Op β} (hx : Reads x) (hf : ∀ a, Writes (f a)) :
    Writes (x >>= f) :=
  Ends.bind hx hf (fun _ _ _ hab hbc => hab.engine.served.trans hbc) (fun _ _ _ h => h)
    fun _ _ _ _ hab hbc => hbc.of_looked hab

theorem Writes.attempts {x : Op α} (hx : Writes x) : Attempts x :=
  Ends.mono hx (fun _ _ h => h) fun _ _ _ h => h.failed

theorem Writes.bind_silent {x : Op α} {f : α → Op β} (hx : Writes x) (hf : ∀ a, Silent (f a)) :
    Writes (x >>= f) :=
  Ends.bind hx hf (fun _ _ _ hab hbc => World.Served.of_silent hab hbc) (fun _ _ _ h => h)
    fun _ _ _ _ _ h => h.elim

theorem Attempts.bind_silent {x : Op α} {f : α → Op β} (hx : Attempts x) (hf : ∀ a, Silent (f a)) :
    Attempts (x >>= f) :=
  Ends.bind hx hf (fun _ _ _ hab hbc => World.Served.of_silent hab hbc) (fun _ _ _ h => h)
    fun _ _ _ _ _ h => h.elim

/-- Making an answer of what is found is silent. -/
theorem Attempts.map {x : Op α} (hx : Attempts x) (f : α → β) : Attempts (x >>= fun a => pure (f a)) :=
  hx.bind_silent fun _ => silent_pure _

/-! ## The parts of operations -/

theorem access_eq_ok {x : Access α} {world after : World} {a : α} (h : Op.access x world = .ok a after) :
    ∃ engine, x world.engine = .ok a engine ∧ after = { world with engine } := by
  cases hrun : x world.engine with
  | ok b engine =>
    rw [access_ok hrun] at h
    cases h
    exact ⟨engine, rfl, rfl⟩
  | error error engine =>
    rw [access_error hrun] at h
    cases h

theorem access_eq_error {x : Access α} {world after : World} {error : Error}
    (h : Op.access x world = .error error after) :
    ∃ fault engine, x world.engine = .error fault engine ∧ error = .store fault ∧
      after = { world with engine } := by
  cases hrun : x world.engine with
  | ok b engine =>
    rw [access_ok hrun] at h
    cases h
  | error fault engine =>
    rw [access_error hrun] at h
    cases h
    exact ⟨fault, engine, rfl, rfl, rfl⟩

theorem failedLate_access {Good : Engine → Engine → Prop} {x : Access α} (hx : Ends Good Engine.Failed x)
    {world after : World} {error : Error} (h : Op.access x world = .error error after) :
    world.FailedLate error after := by
  obtain ⟨fault, engine, hrun, rfl, rfl⟩ := access_eq_error h
  have hfailed := hx.of_error hrun
  exact ⟨⟨hfailed.store_eq, rfl, hfailed, False.elim⟩, id⟩

theorem reads_access {x : Access α} (hx : x.Looks) : Reads (Op.access x) := by
  refine ⟨fun h => ?_, failedLate_access hx⟩
  obtain ⟨engine, hrun, rfl⟩ := access_eq_ok h
  exact ⟨hx.of_ok hrun, rfl⟩

theorem writes_access {x : Access α} (hx : Ends Engine.Served Engine.Failed x) :
    Writes (Op.access x) := by
  refine ⟨fun h => ?_, failedLate_access hx⟩
  obtain ⟨engine, hrun, rfl⟩ := access_eq_ok h
  exact hx.of_ok hrun

/-- Reading a document fails at most because its bytes are malformed. -/
theorem reads_decode (bytes : Bytes) : Reads (Op.coded (Codec.decode bytes)) := by
  unfold Codec.decode
  split
  · exact .pure _
  · constructor
    · rintro world _ _ ⟨⟩
    · rintro world _ _ ⟨⟩
      exact ⟨⟨rfl, rfl, .refl, False.elim⟩, id⟩

theorem attempts_throw {error : Error} (herror : ∀ fault, error ≠ .store fault) :
    Attempts (throw error : Op α) := by
  constructor
  · rintro world _ _ ⟨⟩
  · rintro world _ _ ⟨⟩
    exact ⟨rfl, rfl, .of_served herror .refl, fun _ => rfl⟩

/-- A document that has no stored form is refused before any call. -/
theorem attempts_coded {answer : Except CodecError α} {f : α → Op β} (hf : ∀ a, Attempts (f a)) :
    Attempts (Op.coded answer >>= f) := by
  cases answer with
  | ok a => exact hf a
  | error error =>
    have hthrow : Op.coded (Except.error error) >>= f = throw (.codec error) := rfl
    rw [hthrow]
    exact attempts_throw nofun

/-- Drawing a key is no call. -/
theorem attempts_issueKey {f : SequenceKey → Op β} (hf : ∀ key, Attempts (f key)) :
    Attempts (Op.issueKey >>= f) := by
  constructor
  · intro world b after h
    have hrun : f (SequenceKey.next world.lastKey world.clock) world.issued = .ok b after := h
    have hserved : world.issued.Served after := (hf _).of_ok hrun
    exact hserved
  · intro world error after h
    have hrun : f (SequenceKey.next world.lastKey world.clock) world.issued = .error error after := h
    obtain ⟨hstore, hlog, hcalls, hrefused⟩ := (hf _).of_error hrun
    exact ⟨hstore, hlog, hcalls, hrefused⟩

end Op

theorem Cursor.reads_fold {σ : Type} {f : σ → Entry → Op σ} (hf : ∀ acc entry, (f acc entry).Reads)
    (cursor : Cursor) (acc : σ) : (cursor.fold acc f).Reads := by
  have hfuel : ∀ fuel (cursor : Cursor) acc, (cursor.foldFuel f fuel acc).Reads := by
    intro fuel
    induction fuel with
    | zero => exact fun _ acc => .pure acc
    | succ fuel ih =>
      intro cursor acc
      unfold Cursor.foldFuel
      refine .bind (Op.reads_access cursor.looks_next) fun step => ?_
      split
      · exact .pure _
      · exact .bind (hf _ _) fun acc => ih _ acc
  exact ⟨fun h => (hfuel _ cursor acc).of_ok h, fun h => (hfuel _ cursor acc).of_error h⟩

/-! ## Operations -/

namespace Collection

variable (collection : Collection)

theorem reads_get (key : Bytes) : (collection.get key).Reads := by
  refine .bind (Op.reads_access (collection.space.looks_get key)) fun found => ?_
  split
  · exact .bind (Op.reads_decode _) fun _ => .pure _
  · exact .pure _

theorem reads_first (fromEnd : End) : (collection.first fromEnd).Reads := by
  refine .bind (Op.reads_access (collection.space.looks_scan _)) fun entries => ?_
  split
  · exact .bind (Op.reads_decode _) fun _ => .pure _
  · exact .pure _

theorem reads_query (expression : Expression) : (collection.query expression).Reads :=
  .bind (Cursor.reads_fold (fun _ _ => .bind (Op.reads_decode _) fun _ => .pure _) _ _) fun _ =>
    .pure _

theorem reads_count (expression : Option Expression) : (collection.count expression).Reads :=
  Cursor.reads_fold (fun _ _ => .bind (Op.reads_decode _) fun _ => .pure _) _ _

theorem attempts_put (key : Bytes) (value : Value) : (collection.put key value).Attempts :=
  Op.attempts_coded fun bytes => (Op.writes_access (collection.space.put_ends key bytes)).attempts

theorem writes_delete (key : Bytes) : (collection.delete key).Writes :=
  Op.writes_access (collection.space.delete_ends key)

end Collection

namespace Sequence

variable (sequence : Sequence)

theorem attempts_insert (item : Value) : (sequence.insert item).Attempts :=
  Op.attempts_issueKey fun _ => .bind_silent (sequence.collection.attempts_put _ item) fun _ =>
    .bind (Op.silent_report _) fun _ => Op.silent_pure _

theorem reads_peek (fromEnd : End) : (sequence.peek fromEnd).Reads := by
  refine .bind (sequence.collection.reads_first fromEnd) fun found => ?_
  split
  · exact .pure _
  · exact .pure _

theorem writes_take (fromEnd : End) : (sequence.take fromEnd).Writes := by
  refine (sequence.collection.reads_first fromEnd).bind_writes fun found => ?_
  split
  · refine .bind_silent (.bind_silent (sequence.collection.writes_delete _) fun _ => ?_) fun _ =>
      Op.silent_pure _
    exact .bind (Op.silent_report _) fun _ => Op.silent_pure _
  · exact (Op.Reads.pure _).writes

end Sequence

namespace Table

variable (table : Table)

theorem attempts_put (item : Value) : (table.put item).Attempts := by
  unfold put
  split
  · exact Op.attempts_throw nofun
  · exact .bind_silent (table.collection.attempts_put _ item) fun _ =>
      .bind (Op.silent_report _) fun _ => Op.silent_pure _

theorem writes_del (key : String) : (table.del key).Writes :=
  .bind_silent (table.collection.writes_delete _) fun _ => Op.silent_report _

end Table

/-! ## Requests -/

/-- Whether the request clears a collection. -/
def SequenceRequest.clears : SequenceRequest → Bool
  | empty => true
  | _ => false

/-- Whether the request clears a table. -/
def TableRequest.clears : TableRequest → Bool
  | empty => true
  | _ => false

/-- Whether the request clears one of the database's collections. -/
def Request.clears : Request → Bool
  | sequence _ request => request.clears
  | table _ _ request => request.clears
  | _ => false

theorem SequenceRequest.attempts (sequence : Sequence) {request : SequenceRequest}
    (h : request.clears = false) : (request.run sequence).Attempts := by
  cases request with
  | insert item => exact (sequence.attempts_insert item).map _
  | peek fromEnd => exact (sequence.reads_peek fromEnd).writes.attempts.map _
  | take fromEnd => exact (sequence.writes_take fromEnd).attempts.map _
  | query expression => exact (sequence.collection.reads_query expression).writes.attempts.map _
  | count expression => exact (sequence.collection.reads_count expression).writes.attempts.map _
  | empty => cases h

theorem TableRequest.attempts (table : Table) {request : TableRequest} (h : request.clears = false) :
    (request.run table).Attempts := by
  cases request with
  | put item => exact (table.attempts_put item).map _
  | get key => exact (table.collection.reads_get _).writes.attempts.map _
  | getAll => exact (table.collection.reads_query _).writes.attempts.map _
  | del key => exact (table.writes_del key).attempts.map _
  | query expression => exact (table.collection.reads_query expression).writes.attempts.map _
  | count expression => exact (table.collection.reads_count expression).writes.attempts.map _
  | empty => cases h

theorem Request.attempts (database : Database) {request : Request} (h : request.clears = false) :
    (request.run database).Attempts := by
  cases request with
  | get key => exact (database.documents.reads_get _).writes.attempts.map _
  | put key value => exact (database.documents.attempts_put _ value).map _
  | del key => exact (database.documents.writes_delete _).attempts.map _
  | query expression => exact (database.documents.reads_query expression).writes.attempts.map _
  | sequence name request => exact request.attempts _ h
  | table name keyField request => exact request.attempts _ h

/-! ## Taking again -/

/-- A scan has been called, and nothing else. -/
def Engine.Scanned (before after : Engine) : Prop :=
  ∃ options, after.calls = .scan options :: before.calls

theorem Namespace.keeps_scanned (space : Namespace) (options : ScanOptions) :
    Keeps Engine.Scanned (space.scan options) := by
  unfold Namespace.scan Engine.scan
  refine Keeps.bind_same ?_ fun _ => .pure _
  exact Engine.keeps_perform (fun _ => ⟨_, rfl⟩) fun _ => ⟨_, rfl⟩

/-- Looking at an end makes one call, a scan. -/
theorem Collection.keeps_scanned (collection : Collection) (fromEnd : End) :
    Keeps (fun before after : World => before.engine.Scanned after.engine)
      (collection.first fromEnd) := by
  unfold first
  refine Keeps.bind_same (Op.keeps_access (collection.space.keeps_scanned _) fun _ _ h => h) fun _ => ?_
  split
  · exact Keeps.bind (Op.keeps_coded _) fun _ => Keeps.pure _
  · exact Keeps.pure _

theorem Collection.calls_of_delete_fault (collection : Collection) (key : Bytes) {world after : World}
    {error : Error} (h : collection.delete key world = .error error after) :
    (∃ fault, error = .store fault) ∧
      after.engine.calls = .delete (collection.space.dataKey key) :: world.engine.calls := by
  have hdelete := collection.space.delete_eq world.engine key
  unfold delete at h
  cases hmet : world.engine.fault? (.delete (collection.space.dataKey key)) with
  | some met =>
    rw [hmet] at hdelete
    rw [Op.access_error hdelete] at h
    cases h
    exact ⟨⟨met, rfl⟩, rfl⟩
  | none =>
    rw [hmet] at hdelete
    rw [Op.access_ok hdelete] at h
    cases h

namespace Sequence

variable (sequence : Sequence) (fromEnd : End)

/-- Taking meets what lies at the end of the sequence: it takes it out if it can be read, and there is
nothing to take if nothing lies there. -/
def Meets (world : World) (lying : Option (Bytes × Bytes)) : Prop :=
  match lying with
  | none => ∃ after, sequence.take fromEnd world = .ok none after
  | some (key, bytes) =>
    match Codec.decode bytes with
    | .error error => ∃ after, sequence.take fromEnd world = .error (.codec error) after
    | .ok doc => ∃ after, sequence.take fromEnd world = .ok (some doc) after ∧
      after.engine.store = world.engine.store.erase (sequence.collection.space.dataKey key)

/-- An item that could not be taken is left where it was. -/
structure LeftInPlace (before : World) (error : Error) (after : World) : Prop where
  /-- The end of the sequence is what it was. -/
  kept : (sequence.collection.held after).atEnd fromEnd = (sequence.collection.held before).atEnd fromEnd
  /-- An item that cannot be read lies there. -/
  unreadable : ∀ fault, error = .codec fault →
    ∃ key bytes, (sequence.collection.held before).atEnd fromEnd = some (key, bytes) ∧
      Codec.decode bytes = .error fault
  /-- An item that could not be deleted lies there. -/
  undeleted : ∀ fault stored calls, error = .store fault →
    after.engine.calls = .delete stored :: calls →
    ∃ key bytes doc, (sequence.collection.held before).atEnd fromEnd = some (key, bytes) ∧
      Codec.decode bytes = .ok doc ∧ stored = sequence.collection.space.dataKey key
  /-- Taking again meets it, once the engine serves every call. -/
  again : ∀ working : World, working.engine.store = after.engine.store →
    working.engine.faults = .never →
    sequence.Meets fromEnd working ((sequence.collection.held before).atEnd fromEnd)

variable {sequence fromEnd}

/-- On an engine that serves every call, taking meets what lies at the end. -/
theorem meets_of_served {world : World} (hserved : world.engine.faults = .never) :
    sequence.Meets fromEnd world ((sequence.collection.held world).atEnd fromEnd) := by
  have hspec := sequence.collection.first_spec world fromEnd
  have hsame := sequence.collection.unwritten_first fromEnd
  unfold Meets
  cases hfirst : sequence.collection.first fromEnd world with
  | error error after =>
    rw [hfirst] at hspec
    cases hspec with
    | fault hfaults => exact absurd hserved hfaults
    | unreadable hend hdecode =>
      rw [hend]
      simp only [hdecode]
      exact ⟨after, bind_error hfirst _⟩
  | ok found after =>
    have hafter := hsame.of_ok hfirst
    rw [hfirst] at hspec
    cases hspec with
    | nothing hnone =>
      rw [hnone]
      exact ⟨after, bind_ok hfirst _⟩
    | @found key bytes doc _ hend hdecode =>
      obtain ⟨last, hlast, hdelete⟩ :=
        sequence.collection.delete_served (hafter.faults.trans hserved) key
      have hremove : sequence.remove fromEnd key doc after =
          .ok doc { last with log := .removed sequence.collection.path fromEnd :: last.log } :=
        bind_ok hdelete _
      rw [hend]
      simp only [hdecode]
      refine ⟨_, (bind_ok hfirst _).trans (bind_ok hremove _), ?_⟩
      rw [← hafter.store]
      exact hlast.store

/-- Taking fails when looking at the end does, or deleting what lies there. -/
theorem take_fails {world after : World} {error : Error}
    (h : sequence.take fromEnd world = .error error after) :
    sequence.collection.first fromEnd world = .error error after ∨
      ∃ key item middle, sequence.collection.first fromEnd world = .ok (some (key, item)) middle ∧
        sequence.collection.delete key middle = .error error after := by
  cases hfirst : sequence.collection.first fromEnd world with
  | error met middle =>
    have hrun : sequence.take fromEnd world = .error met middle := bind_error hfirst _
    rw [hrun] at h
    cases h
    exact .inl rfl
  | ok found middle =>
    rcases found with _ | ⟨key, item⟩
    · have hrun : sequence.take fromEnd world = .ok none middle := bind_ok hfirst _
      rw [hrun] at h
      cases h
    · refine .inr ⟨key, item, middle, rfl, ?_⟩
      cases hdelete : sequence.collection.delete key middle with
      | error met last =>
        have hremove : sequence.remove fromEnd key item middle = .error met last := bind_error hdelete _
        have hrun : sequence.take fromEnd world = .error met last :=
          (bind_ok hfirst _).trans (bind_error hremove _)
        rw [hrun] at h
        cases h
        rfl
      | ok u last =>
        have hremove : sequence.remove fromEnd key item middle =
            .ok item { last with log := .removed sequence.collection.path fromEnd :: last.log } :=
          bind_ok hdelete _
        have hrun : sequence.take fromEnd world = .ok (some item)
            { last with log := .removed sequence.collection.path fromEnd :: last.log } :=
          (bind_ok hfirst _).trans (bind_ok hremove _)
        rw [hrun] at h
        cases h

theorem leftInPlace {world after : World} {error : Error}
    (h : sequence.take fromEnd world = .error error after) :
    sequence.LeftInPlace fromEnd world error after := by
  have hstore := ((sequence.writes_take fromEnd).of_error h).failed.store
  have hheld : ∀ other : World, other.engine.store = world.engine.store →
      sequence.collection.held other = sequence.collection.held world := fun _ => congrArg _
  refine ⟨by rw [hheld after hstore], ?_, ?_, ?_⟩
  · rintro fault rfl
    rcases take_fails h with hfirst | ⟨key, item, middle, hfirst, hdelete⟩
    · have hspec := sequence.collection.first_spec world fromEnd
      rw [hfirst] at hspec
      cases hspec with
      | unreadable hend hdecode => exact ⟨_, _, hend, hdecode⟩
    · obtain ⟨⟨met, hmet⟩, -⟩ := sequence.collection.calls_of_delete_fault key hdelete
      cases hmet
  · rintro fault stored calls rfl hcalls
    rcases take_fails h with hfirst | ⟨key, item, middle, hfirst, hdelete⟩
    · obtain ⟨options, hscan⟩ := (sequence.collection.keeps_scanned fromEnd).of_error hfirst
      rw [hscan] at hcalls
      cases hcalls
    · obtain ⟨-, hdeleted⟩ := sequence.collection.calls_of_delete_fault key hdelete
      rw [hdeleted] at hcalls
      cases hcalls
      have hspec := sequence.collection.first_spec world fromEnd
      rw [hfirst] at hspec
      cases hspec with
      | found hend hdecode => exact ⟨_, _, _, hend, hdecode, rfl⟩
  · intro working hworking hserved
    rw [← hheld working (hworking.trans hstore)]
    exact meets_of_served hserved

end Sequence

/-- A request that fails, whatever the faults of the engine, has changed neither the store nor the log,
and made no call after a failing one; if a document was refused it made none at all. A request that
succeeds has met no fault. An item that could not be taken is left in place. -/
theorem Database.failed_request_changes_nothing (database : Database) {request : Request}
    (hrequest : request.clears = false) (world : World) :
    (∀ answer after, request.run database world = .ok answer after → world.Served after) ∧
    ∀ error after, request.run database world = .error error after →
      world.Failed error after ∧
      ∀ name fromEnd, request = .sequence name (.take fromEnd) →
        (database.sequence name).LeftInPlace fromEnd world error after := by
  have hattempts := request.attempts database hrequest
  refine ⟨fun answer after h => hattempts.of_ok h, fun error after h => ⟨hattempts.of_error h, ?_⟩⟩
  rintro name fromEnd rfl
  refine Sequence.leftInPlace ?_
  cases htake : (database.sequence name).take fromEnd world with
  | error met last =>
    have hrun : (Request.sequence name (.take fromEnd)).run database world = .error met last :=
      bind_error htake _
    rw [hrun] at h
    cases h
    rfl
  | ok found last =>
    have hrun : (Request.sequence name (.take fromEnd)).run database world = .ok (.found found) last :=
      bind_ok htake _
    rw [hrun] at h
    cases h

/-- A queue of one document, on an engine that fails whatever deletes. -/
def undeletable : World where
  engine := {
    store := ByteMap.empty.insert ((Namespace.root.sub "q").dataKey [0]) [0x30]
    faults := fun _ call => if call.kind = .delete then some .closed else none }

theorem undeletable_is_left : (Request.sequence "q" (.take .oldest)).clears = false ∧
    ∃ after, (Request.sequence "q" (.take .oldest)).run ⟨{}, .root⟩ undeletable =
        .error (.store .closed) after ∧
      after.engine.store.entries = undeletable.engine.store.entries ∧
      ∃ last, ((⟨{}, .root⟩ : Database).sequence "q").take .oldest
        { after with engine := { after.engine with faults := .never } } = .ok (some (.int 0)) last := by
  have hdecode : Codec.decode [0x30] = .ok (.int 0) := by rfl
  obtain ⟨after, hrun⟩ : ∃ after, (Request.sequence "q" (.take .oldest)).run ⟨{}, .root⟩ undeletable =
      .error (.store .closed) after := ⟨_, rfl⟩
  obtain ⟨hfailed, hleft⟩ :=
    (Database.failed_request_changes_nothing ⟨{}, .root⟩ rfl undeletable).2 _ _ hrun
  have hmeets := (hleft "q" .oldest rfl).again
    { after with engine := { after.engine with faults := .never } } rfl rfl
  have hend : (((⟨{}, .root⟩ : Database).sequence "q").collection.held undeletable).atEnd .oldest =
      some ([0], [0x30]) := rfl
  rw [hend] at hmeets
  simp only [Sequence.Meets, hdecode] at hmeets
  obtain ⟨last, hlast, -⟩ := hmeets
  exact ⟨rfl, after, hrun, by rw [hfailed.store], last, hlast⟩

end DocStore
