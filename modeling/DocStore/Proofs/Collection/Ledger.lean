/-
The log of a queue or a stack accounts for what it holds. An insertion is reported with its key and
a removal once, a clearing reports how many documents it has deleted, and whatever fails reports
nothing, though a failed insertion has drawn a key. So at every point of a run, whichever calls have
failed, there are as many documents as insertions were reported, less the removals and less what the
clearings have counted. The keys of the insertions increase, so none of them has replaced a
document, and every document that is held lies under one of them. Only a clearing that is stopped
halfway deletes without a report.
-/
import DocStore.Proofs.Collection.Failure
import DocStore.Proofs.Collection.ListRefinement

namespace DocStore

/-! ## What a log says -/

namespace Event

/-- The key of a reported insertion. -/
def insertedKey? : Event → Option SequenceKey
  | inserted _ key => some key
  | _ => none

/-- Whether a removal is reported. -/
def isRemoval : Event → Bool
  | removed _ _ => true
  | _ => false

/-- How many documents a reported clearing has deleted. -/
def emptiedCount : Event → Nat
  | emptied _ count => count
  | _ => 0

end Event

/-- The keys of the reported insertions. -/
def insertedKeys (events : List Event) : List SequenceKey := events.filterMap Event.insertedKey?

/-- How many removals are reported. -/
def removals (events : List Event) : Nat := events.countP Event.isRemoval

/-- How many documents the reported clearings have deleted. -/
def emptiedTotal (events : List Event) : Nat := (events.map Event.emptiedCount).sum

theorem removals_cons (event : Event) (events : List Event) :
    removals (event :: events) = removals events + event.isRemoval.toNat := by
  rw [removals, List.countP_cons, ← removals]
  cases event.isRemoval <;> rfl

theorem emptiedTotal_cons (event : Event) (events : List Event) :
    emptiedTotal (event :: events) = event.emptiedCount + emptiedTotal events := List.sum_cons

/-! ## What an operation reports -/

namespace Op

variable {α β : Type} {events : List Event}

/-- The operation reports the events, the latest first, if it succeeds, and none if it fails. -/
def Reports (events : List Event) (x : Op α) : Prop :=
  Ends (fun before after => after.log = events ++ before.log)
    (fun before _ after => after.log = before.log) x

theorem reports_access (x : Access α) : Reports [] (Op.access x) := by
  constructor
  · intro world a after h
    obtain ⟨engine, -, rfl⟩ := access_eq_ok h
    rfl
  · intro world error after h
    obtain ⟨fault, engine, -, -, rfl⟩ := access_eq_error h
    rfl

theorem reports_coded (answer : Except CodecError α) : Reports [] (Op.coded answer) := by
  cases answer with
  | ok a =>
    constructor
    · rintro world _ _ ⟨⟩
      rfl
    · rintro world _ _ ⟨⟩
  | error error =>
    constructor
    · rintro world _ _ ⟨⟩
    · rintro world _ _ ⟨⟩
      rfl

theorem reports_report (event : Event) : Reports [event] (Op.report event) := by
  constructor
  · rintro world _ _ ⟨⟩
    rfl
  · rintro world _ _ ⟨⟩

theorem Reports.bind {x : Op α} {f : α → Op β} (hx : Reports [] x)
    (hf : ∀ a, Reports events (f a)) : Reports events (x >>= f) :=
  Ends.bind hx hf (fun _ _ _ hab hbc => hbc.trans (congrArg _ hab)) (fun _ _ _ h => h)
    fun _ _ _ _ hab hbc => hbc.trans hab

end Op

theorem Collection.reports_put (collection : Collection) (key : Bytes) (value : Value) :
    (collection.put key value).Reports [] :=
  .bind (Op.reports_coded _) fun _ => Op.reports_access _

namespace Sequence

variable (sequence : Sequence)

theorem reports_store (key : SequenceKey) (item : Value) :
    (sequence.store key item).Reports [.inserted sequence.collection.path key] :=
  .bind (sequence.collection.reports_put _ item) fun _ =>
    .bind_pure (Op.reports_report _) fun _ => ⟨item, rfl⟩

theorem reports_remove (fromEnd : End) (key : Bytes) (item : Value) :
    (sequence.remove fromEnd key item).Reports [.removed sequence.collection.path fromEnd] :=
  .bind (Op.reports_access _) fun _ => .bind_pure (Op.reports_report _) fun _ => ⟨item, rfl⟩

/-! ## What a request does -/

/-- What a request does to a sequence and to the log, if it is no clearing that is stopped halfway;
`issues` says whether it draws a key. -/
inductive Effect (before : World) : Bool → World → Prop
  /-- It has written nothing. -/
  | looked {after : World} (hsame : before.Unwritten after) (hlog : after.log = before.log) :
    Effect before false after
  /-- It has drawn a key for nothing. -/
  | drew {after : World} (hsame : before.issued.Unwritten after) (hlog : after.log = before.log) :
    Effect before true after
  | inserted {after : World} {key : SequenceKey} {bytes : Bytes}
    (hkey : before.issued.lastKey = some key)
    (hafter : before.issued.Became
      (before.engine.store.insert (sequence.collection.space.dataKey key.toBytes) bytes) after)
    (hlog : after.log = .inserted sequence.collection.path key :: before.log) :
    Effect before true after
  | removed {after : World} {fromEnd : End} {key bytes : Bytes}
    (hend : (sequence.collection.held before).atEnd fromEnd = some (key, bytes))
    (hafter : before.Became
      (before.engine.store.erase (sequence.collection.space.dataKey key)) after)
    (hlog : after.log = .removed sequence.collection.path fromEnd :: before.log) :
    Effect before false after
  | emptied {after : World} (hempty : sequence.collection.held after = .empty)
    (hlast : after.lastKey = before.lastKey)
    (hlog : after.log =
      .emptied sequence.collection.path (sequence.collection.held before).size :: before.log) :
    Effect before false after

/-- An answer made of what an operation returns leaves its effect as it is. -/
theorem Effect.map {sequence : Sequence} {world : World} {issues : Bool} {α β : Type} {x : Op α}
    (h : sequence.Effect world issues (x.outcome world).2) (f : α → β) :
    sequence.Effect world issues ((x >>= fun a => pure (f a)).outcome world).2 := by
  rw [Op.outcome_map]
  exact h

variable (world : World)

theorem effect_of_reads {α : Type} {x : Op α} (hsame : Keeps World.Unwritten x) (hreads : x.Reads) :
    sequence.Effect world false (x.outcome world).2 := by
  cases hrun : x world with
  | ok a after =>
    rw [Op.outcome_of_ok hrun]
    exact .looked (hsame.of_ok hrun) (hreads.of_ok hrun).log
  | error error after =>
    rw [Op.outcome_of_error hrun]
    exact .looked (hsame.of_error hrun) (hreads.of_error hrun).failed.log

theorem insert_effect (item : Value) :
    sequence.Effect world true ((sequence.insert item).outcome world).2 := by
  have hspec := sequence.store_spec world.issued (SequenceKey.next world.lastKey world.clock) item
  have hreports := sequence.reports_store (SequenceKey.next world.lastKey world.clock) item
  have hinsert : sequence.insert item world =
      sequence.store (SequenceKey.next world.lastKey world.clock) item world.issued := rfl
  cases hstore : sequence.store (SequenceKey.next world.lastKey world.clock) item world.issued with
  | error error after =>
    rw [hstore] at hspec
    rw [Op.outcome_of_error (hinsert.trans hstore)]
    have hlog : after.log = world.issued.log := hreports.of_error hstore
    refine .drew ?_ hlog
    cases hspec with
    | refused hencode => exact refl_of World.Unwritten _
    | fault hencode hfaults hsame => exact hsame
  | ok answer after =>
    rw [hstore] at hspec
    rw [Op.outcome_of_ok (hinsert.trans hstore)]
    have hlog : after.log = _ :: world.issued.log := hreports.of_ok hstore
    cases hspec with
    | stored hencode hafter => exact .inserted rfl hafter hlog

theorem take_effect (fromEnd : End) :
    sequence.Effect world false ((sequence.take fromEnd).outcome world).2 := by
  have hspec := sequence.collection.first_spec world fromEnd
  have hsame := sequence.collection.unwritten_first fromEnd
  have hreads := sequence.collection.reads_first fromEnd
  cases hfirst : sequence.collection.first fromEnd world with
  | error error middle =>
    have htake : sequence.take fromEnd world = .error error middle := bind_error hfirst _
    rw [Op.outcome_of_error htake]
    exact .looked (hsame.of_error hfirst) (hreads.of_error hfirst).failed.log
  | ok found middle =>
    have hmiddle := hsame.of_ok hfirst
    have hlog := (hreads.of_ok hfirst).log
    rcases found with _ | ⟨key, item⟩
    · have htake : sequence.take fromEnd world = .ok none middle := bind_ok hfirst _
      rw [Op.outcome_of_ok htake]
      exact .looked hmiddle hlog
    · have hremoved := sequence.remove_spec middle fromEnd key item
      have hreports := sequence.reports_remove fromEnd key item
      rw [hfirst] at hspec
      cases hremove : sequence.remove fromEnd key item middle with
      | error error after =>
        have htake : sequence.take fromEnd world = .error error after :=
          (bind_ok hfirst _).trans (bind_error hremove _)
        rw [Op.outcome_of_error htake]
        rw [hremove] at hremoved
        cases hremoved with
        | fault hfaults hafter =>
          exact .looked (trans_of World.Unwritten hmiddle hafter)
            ((hreports.of_error hremove).trans hlog)
      | ok answer after =>
        have htake : sequence.take fromEnd world = .ok (some answer) after :=
          (bind_ok hfirst _).trans (bind_ok hremove _)
        rw [Op.outcome_of_ok htake]
        rw [hremove] at hremoved
        cases hremoved with
        | erased hafter =>
          rw [hmiddle.store] at hafter
          cases hspec with
          | found hend hdecode =>
            exact .removed hend (hafter.of_unwritten hmiddle)
              ((hreports.of_ok hremove).trans (congrArg _ hlog))

/-- Clearing to the end is reported with the number of documents. -/
theorem empty_effect
    (hcleared : ∀ error, (sequence.collection.empty.outcome world).1 ≠ .error error) :
    sequence.Effect world false (sequence.collection.empty.outcome world).2 := by
  obtain ⟨gone, engine, hcut, ⟨rfl, hrun⟩ | ⟨call, fault, -, -, hrun⟩⟩ :=
    sequence.collection.empty_cases world
  · rw [Op.outcome_of_ok hrun]
    exact .emptied hcut.empty rfl rfl
  · exact absurd (congrArg Prod.fst (Op.outcome_of_error hrun)) (hcleared _)

end Sequence

theorem SequenceRequest.effect (sequence : Sequence) (world : World) (request : SequenceRequest)
    (hcleared : ∀ error, request = .empty →
      ((request.run sequence).outcome world).1 ≠ .error error) :
    sequence.Effect world request.issuesKey ((request.run sequence).outcome world).2 := by
  cases request with
  | insert item => exact (sequence.insert_effect world item).map _
  | peek fromEnd =>
    exact (sequence.effect_of_reads world (sequence.unwritten_peek fromEnd)
      (sequence.reads_peek fromEnd)).map _
  | take fromEnd => exact (sequence.take_effect world fromEnd).map _
  | query expression =>
    exact (sequence.effect_of_reads world (Collection.unwritten_query expression)
      (sequence.collection.reads_query expression)).map _
  | count expression =>
    exact (sequence.effect_of_reads world (Collection.unwritten_count expression)
      (sequence.collection.reads_count expression)).map _
  | empty =>
    refine (sequence.empty_effect world fun error herror => hcleared error rfl ?_).map _
    have hmap := Op.outcome_map sequence.collection.empty (fun _ => Answer.done) world
    rw [herror] at hmap
    exact congrArg Prod.fst hmap

/-! ## The account -/

/-- The events account for what the collection holds, and no key that they report is above the last
one issued, of at most `issued`. -/
structure Collection.Accounted (collection : Collection) (world : World) (issued : Nat)
    (events : List Event) : Prop where
  counter : SequenceKey.CounterBelow world.lastKey issued
  latest : ∀ key ∈ insertedKeys events, ∃ last, world.lastKey = some last ∧ key.rank ≤ last.rank
  balance : (collection.held world).size + removals events + emptiedTotal events =
    (insertedKeys events).length
  increasing : (insertedKeys events).Pairwise fun later earlier => earlier.rank < later.rank
  included : ∀ e ∈ (collection.held world).entries, ∃ key ∈ insertedKeys events, e.1 = key.toBytes

namespace Collection.Accounted

variable {collection : Collection} {world after : World} {issued : Nat} {events : List Event}
  (h : collection.Accounted world issued events)

include h

theorem of_unwritten (hsame : world.Unwritten after) :
    collection.Accounted after issued events := by
  have hheld : collection.held after = collection.held world :=
    congrArg collection.space.view hsame.store
  refine ⟨?_, ?_, ?_, h.increasing, ?_⟩
  · rw [hsame.lastKey]; exact h.counter
  · rw [hsame.lastKey]; exact h.latest
  · rw [hheld]; exact h.balance
  · rw [hheld]; exact h.included

theorem setClock (now : UInt64) :
    collection.Accounted { world with clock := now } issued events :=
  ⟨h.counter, h.latest, h.balance, h.increasing, h.included⟩

/-- A key that is drawn is above all keys reported so far. -/
theorem lt_next (hroom : issued < 2 ^ 32) : ∀ key ∈ insertedKeys events,
    key.rank < (SequenceKey.next world.lastKey world.clock).rank := by
  intro key hkey
  obtain ⟨last, hlast, hle⟩ := h.latest key hkey
  exact Nat.lt_of_le_of_lt hle ((SequenceKey.next_spec h.counter hroom world.clock).1 last hlast)

theorem drawKey (hroom : issued < 2 ^ 32) : collection.Accounted world.issued (issued + 1) events :=
  ⟨(SequenceKey.next_spec h.counter hroom world.clock).2,
    fun key hkey => ⟨_, rfl, Nat.le_of_lt (h.lt_next hroom key hkey)⟩, h.balance, h.increasing,
    h.included⟩

/-- A document that is stored under a key above all others adds to what is held, and its report to
what is reported. -/
theorem insert {path : String} {key : SequenceKey} {bytes : Bytes}
    (hlast : world.lastKey = some key)
    (habove : ∀ earlier ∈ insertedKeys events, earlier.rank < key.rank)
    (hafter : world.Became
      (world.engine.store.insert (collection.space.dataKey key.toBytes) bytes) after) :
    collection.Accounted after issued (.inserted path key :: events) := by
  have hkeys : insertedKeys (.inserted path key :: events) = key :: insertedKeys events := rfl
  have hentries : (collection.held after).entries =
      (collection.held world).entries ++ [(key.toBytes, bytes)] := by
    rw [held, hafter.store, Namespace.view_insert]
    refine ByteMap.entries_insert_of_forall_lt (fun e he => ?_) bytes
    obtain ⟨earlier, hearlier, heq⟩ := h.included e he
    rw [heq, SequenceKey.toBytes_lt_iff]
    exact habove earlier hearlier
  refine ⟨?_, ?_, ?_, ?_, ?_⟩
  · rw [hafter.lastKey]
    exact h.counter
  · rw [hafter.lastKey, hkeys]
    refine List.forall_mem_cons.2 ⟨⟨key, hlast, le_rfl⟩, fun earlier hearlier => ?_⟩
    exact ⟨key, hlast, (habove earlier hearlier).le⟩
  · have hbalance := h.balance
    rw [ByteMap.size] at hbalance ⊢
    rw [hentries, hkeys, List.length_append, List.length_singleton, List.length_cons, removals_cons,
      emptiedTotal_cons]
    simp only [Event.isRemoval, Event.emptiedCount, Bool.toNat_false]
    omega
  · rw [hkeys]
    exact List.pairwise_cons.2 ⟨habove, h.increasing⟩
  · intro e he
    rw [hkeys]
    rw [hentries, List.mem_append, List.mem_singleton] at he
    rcases he with he | rfl
    · obtain ⟨earlier, hearlier, heq⟩ := h.included e he
      exact ⟨earlier, List.mem_cons_of_mem _ hearlier, heq⟩
    · exact ⟨key, List.mem_cons_self, rfl⟩

/-- A document that is deleted at an end leaves one less. -/
theorem erase {path : String} {fromEnd : End} {key bytes : Bytes}
    (hend : (collection.held world).atEnd fromEnd = some (key, bytes))
    (hafter : world.Became (world.engine.store.erase (collection.space.dataKey key)) after) :
    collection.Accounted after issued (.removed path fromEnd :: events) := by
  have hkeys : insertedKeys (.removed path fromEnd :: events) = insertedKeys events := rfl
  obtain ⟨front, back, hsplit, -⟩ := End.exists_append_of_pick hend
  have hentries : (collection.held after).entries = front ++ back := by
    rw [held, hafter.store, Namespace.view_erase]
    exact ByteMap.entries_erase_of_eq hsplit
  refine ⟨?_, ?_, ?_, h.increasing, ?_⟩
  · rw [hafter.lastKey]
    exact h.counter
  · rw [hafter.lastKey]
    exact h.latest
  · have hbalance := h.balance
    rw [ByteMap.size, hsplit, List.length_append, List.length_cons] at hbalance
    rw [ByteMap.size, hentries, hkeys, List.length_append, removals_cons, emptiedTotal_cons]
    simp only [Event.isRemoval, Event.emptiedCount, Bool.toNat_true]
    omega
  · intro e he
    refine h.included e ?_
    rw [hentries] at he
    rw [hsplit]
    rcases List.mem_append.1 he with he | he
    · exact List.mem_append_left _ he
    · exact List.mem_append_right _ (List.mem_cons_of_mem _ he)

/-- Clearing leaves nothing and reports how much there was. -/
theorem clear {path : String} (hempty : collection.held after = .empty)
    (hlast : after.lastKey = world.lastKey) : collection.Accounted after issued
      (.emptied path (collection.held world).size :: events) := by
  have hkeys : insertedKeys (.emptied path (collection.held world).size :: events) =
      insertedKeys events := rfl
  refine ⟨?_, ?_, ?_, h.increasing, ?_⟩
  · rw [hlast]
    exact h.counter
  · rw [hlast]
    exact h.latest
  · rw [hempty, hkeys, ← h.balance]
    rw [removals_cons, emptiedTotal_cons]
    simp only [Event.isRemoval, Event.emptiedCount, Bool.toNat_false, ByteMap.size, ByteMap.empty,
      List.length_nil]
    omega
  · rw [hempty]
    exact List.forall_mem_nil _

end Collection.Accounted

/-- A request leaves the account in order, with what it reports added to it. -/
theorem Sequence.Effect.accounted {sequence : Sequence} {world after : World} {issues : Bool}
    (heffect : sequence.Effect world issues after) {issued : Nat} {events : List Event}
    (h : sequence.collection.Accounted world issued events)
    (hroom : issued + issues.toNat ≤ 2 ^ 32) : ∃ reported, after.log = reported ++ world.log ∧
      sequence.collection.Accounted after (issued + issues.toNat) (reported ++ events) := by
  cases heffect with
  | looked hsame hlog => exact ⟨[], hlog, h.of_unwritten hsame⟩
  | drew hsame hlog => exact ⟨[], hlog, (h.drawKey hroom).of_unwritten hsame⟩
  | inserted hkey hafter hlog =>
    cases hkey
    exact ⟨[_], hlog, (h.drawKey hroom).insert rfl (h.lt_next hroom) hafter⟩
  | removed hend hafter hlog => exact ⟨[_], hlog, h.erase hend hafter⟩
  | emptied hempty hlast hlog => exact ⟨[_], hlog, h.clear hempty hlast⟩

/-! ## Whole runs -/

/-- The account stays in order along a run on the sequence alone. -/
theorem SequenceStep.runAll_accounted (database : Database) (name : String)
    {steps : List SequenceStep} (hhere : ∀ part request, elsewhere part request ∉ steps)
    {world : World} {issued : Nat} {events : List Event}
    (h : (database.sequence name).collection.Accounted world issued events)
    (hroom : issued + steps.countP issuesKey ≤ 2 ^ 32)
    (hcleared : ∀ error, (SequenceRequest.empty, Except.error error) ∉
      (steps.filterMap here?).zip (runAll database name steps world).1)
    {done : List SequenceStep} (hdone : done <+: steps) :
    ∃ reported, (runAll database name done world).2.log = reported ++ world.log ∧
      (database.sequence name).collection.Accounted (runAll database name done world).2
        (issued + done.countP issuesKey) (reported ++ events) := by
  induction steps generalizing done world issued events with
  | nil =>
    rw [List.prefix_nil.1 hdone]
    exact ⟨[], rfl, h⟩
  | cons step rest ih =>
    rcases List.prefix_cons_iff.1 hdone with rfl | ⟨more, rfl, hmore⟩
    · exact ⟨[], rfl, h⟩
    have ih := @ih fun part request hmem => hhere part request (List.mem_cons_of_mem _ hmem)
    rw [countP_issuesKey_cons, ← Nat.add_assoc] at hroom ⊢
    cases step with
    | clock now => exact ih (h.setClock now) hroom hcleared hmore
    | here request =>
      have heffect := request.effect (database.sequence name) world fun error hempty herror =>
        hcleared error (List.mem_cons.2 (.inl (Prod.ext hempty.symm herror.symm)))
      obtain ⟨reported, hlog, hafter⟩ := heffect.accounted h (by
        have : request.issuesKey.toNat = (here request).issuesKey.toNat := rfl
        omega)
      obtain ⟨later, hlater, hend⟩ := ih hafter hroom
        (fun error hmem => hcleared error (List.mem_cons_of_mem _ hmem)) hmore
      refine ⟨later ++ reported, ?_, ?_⟩
      · rw [List.append_assoc, ← hlog]
        exact hlater
      · rw [List.append_assoc]
        exact hend
    | elsewhere part request => exact absurd List.mem_cons_self (hhere part request)

/-- From a fresh generator and an empty namespace on, the log of a queue or stack accounts for what
it holds after every step, whichever calls of the engine fail and whatever the clock does, if no
clearing has been stopped: there are as many documents as insertions have been reported, less the
removals and less what the clearings have counted. The keys of the insertions increase, in the order
in which they were reported, and every document lies under the bytes of one of them. -/
theorem Database.log_accounts_for_store (database : Database) (name : String)
    (steps : List SequenceStep) (hhere : ∀ part request, .elsewhere part request ∉ steps)
    (hkeys : steps.countP SequenceStep.issuesKey < 2 ^ 32) (world : World)
    (hfresh : world.lastKey = none)
    (hempty : (database.sequence name).collection.held world = .empty)
    (hcleared : ∀ error, (SequenceRequest.empty, Except.error error) ∉
      (steps.filterMap SequenceStep.here?).zip (SequenceStep.runAll database name steps world).1)
    (done : List SequenceStep) (hdone : done <+: steps) :
    ∃ events, (SequenceStep.runAll database name done world).2.log = events ++ world.log ∧
      (((database.sequence name).collection.held
          (SequenceStep.runAll database name done world).2).size : Int) =
        (insertedKeys events).length - removals events - emptiedTotal events ∧
      (insertedKeys events).reverse.Pairwise (fun a b => a.compare b = .lt) ∧
      (insertedKeys events).Nodup ∧
      ∀ e ∈ ((database.sequence name).collection.held
          (SequenceStep.runAll database name done world).2).entries,
        ∃ key ∈ insertedKeys events, SequenceKey.ofBytes? e.1 = some key := by
  have hstart : (database.sequence name).collection.Accounted world 0 [] := by
    refine ⟨?_, nofun, ?_, .nil, ?_⟩
    · rw [hfresh]
      exact SequenceKey.counterBelow_none 0
    · rw [hempty]
      rfl
    · rw [hempty]
      exact List.forall_mem_nil _
  obtain ⟨events, hlog, hend⟩ :=
    SequenceStep.runAll_accounted database name hhere hstart (by omega) hcleared hdone
  rw [List.append_nil] at hend
  refine ⟨events, hlog, ?_, ?_, ?_, fun e he => ?_⟩
  · have hbalance := hend.balance
    omega
  · rw [List.pairwise_reverse]
    exact hend.increasing.imp fun h => (SequenceKey.compare_eq_lt_iff _ _).2 h
  · refine hend.increasing.imp fun hlt heq => ?_
    rw [heq] at hlt
    exact Nat.lt_irrefl _ hlt
  · obtain ⟨key, hkey, heq⟩ := hend.included e he
    exact ⟨key, hkey, heq ▸ key.ofBytes?_toBytes⟩

/-- An engine that does not store a two, and does not delete what has the key of the fifth item. -/
def faltering : World where
  engine := { faults := fun _ call =>
    match call with
    | .put _ value => if value = [0x32] then some .closed else none
    | .delete key =>
      if key = (Namespace.root.sub "a").dataKey (SequenceKey.toBytes ⟨7, 4⟩) then some .closed
      else none
    | _ => none }

/-- A queue on it, in which a key is drawn for nothing and an attempt to take fails. -/
def falteringSteps : List SequenceStep :=
  [.clock 7, .here (.insert (.int 1)), .here (.insert (.int 2)), .clock 3, .here (.insert (.int 3)),
    .here (.take .oldest), .here (.insert (.int 4)), .here .empty, .here (.insert (.int 5)),
    .here (.take .newest), .here (.count none)]

theorem falteringSteps_are_accounted :
    (SequenceStep.runAll ⟨{}, .root⟩ "a" falteringSteps faltering).2.log =
      [.inserted "a" ⟨7, 4⟩, .emptied "a" 2, .inserted "a" ⟨7, 3⟩, .removed "a" .oldest,
        .inserted "a" ⟨7, 2⟩, .inserted "a" ⟨7, 0⟩] ∧
    ((((⟨{}, .root⟩ : Database).sequence "a").collection.held
      (SequenceStep.runAll ⟨{}, .root⟩ "a" falteringSteps faltering).2).size : Int) = 4 - 1 - 2 := by
  have hcleared : ((falteringSteps.filterMap SequenceStep.here?).zip
      (SequenceStep.runAll ⟨{}, .root⟩ "a" falteringSteps faltering).1).all (fun answered =>
        !answered.1.clears || answered.2.isOk) = true := by
    decide +kernel
  obtain ⟨events, hlog, hbalance, -⟩ :=
    Database.log_accounts_for_store ⟨{}, .root⟩ "a" falteringSteps (by simp [falteringSteps])
      (by decide) faltering rfl rfl
      (fun _ hmem => Bool.false_ne_true (List.all_eq_true.1 hcleared _ hmem))
      falteringSteps (List.prefix_refl _)
  have hreported : (SequenceStep.runAll ⟨{}, .root⟩ "a" falteringSteps faltering).2.log =
      [.inserted "a" ⟨7, 4⟩, .emptied "a" 2, .inserted "a" ⟨7, 3⟩, .removed "a" .oldest,
        .inserted "a" ⟨7, 2⟩, .inserted "a" ⟨7, 0⟩] := by
    decide +kernel
  obtain rfl := (hlog.trans (List.append_nil _)).symm.trans hreported
  exact ⟨hreported, hbalance⟩

end DocStore
