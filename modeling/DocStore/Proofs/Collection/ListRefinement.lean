/-
Queues and stacks are lists. A namespace that is written only as a sequence answers every request
as one list does: an insertion appends what the stored document reads back as, a queue takes the
first element and a stack the last one, and queries select in order. The clock may stand still or
go back, and operations on other namespaces may draw keys in between: what carries the proof is
that the last key issued is never below a stored one, and every key issued is above it.
-/
import DocStore.Proofs.Collection.Request
import DocStore.Proofs.Collection.Clearing
import DocStore.Proofs.Series
import DocStore.Proofs.SequenceKey

namespace DocStore

/-! ## The list -/

/-- What a list answers to a request, and the list after it. -/
def SequenceRequest.onList (codec : Codec) (request : SequenceRequest) (docs : List Value) :
    Except Error Answer × List Value :=
  match request with
  | insert item =>
    match codec.encode item with
    | .ok bytes => (.ok (.document item), docs ++ (Codec.decode bytes).toOption.toList)
    | .error error => (.error (.codec error), docs)
  | peek fromEnd => (.ok (.found (fromEnd.pick docs)), docs)
  | take fromEnd => (.ok (.found (fromEnd.pick docs)), fromEnd.drop docs)
  | query expression => (.ok (.documents (expression.select docs)), docs)
  | count (some expression) => (.ok (.count (expression.select docs).length), docs)
  | count none => (.ok (.count docs.length), docs)
  | empty => (.ok .done, [])

/-- What a list answers to requests, one after another, and the list after them. -/
def SequenceRequest.allOnList (codec : Codec) :
    List SequenceRequest → List Value → List (Except Error Answer) × List Value
  | [], docs => ([], docs)
  | request :: rest, docs =>
    let (answer, docs) := request.onList codec docs
    let (answers, docs) := allOnList codec rest docs
    (answer :: answers, docs)

/-! ## The sequence -/

/-- The answer of an operation, or its error, and the world after it. -/
def Op.outcome {α : Type} (operation : Op α) (world : World) : Except Error α × World :=
  match operation world with
  | .ok answer world => (.ok answer, world)
  | .error error world => (.error error, world)

section
variable {α : Type} {operation : Op α} {world after : World}

theorem Op.outcome_of_ok {answer : α} (h : operation world = .ok answer after) :
    operation.outcome world = (.ok answer, after) := by
  unfold outcome
  rw [h]

theorem Op.outcome_of_error {error : Error} (h : operation world = .error error after) :
    operation.outcome world = (.error error, after) := by
  unfold outcome
  rw [h]

end

/-- An answer made of what an operation returns changes nothing else about how it comes out. -/
theorem Op.outcome_map {α β : Type} (x : Op α) (f : α → β) (world : World) :
    (x >>= fun a => pure (f a)).outcome world = ((x.outcome world).1.map f, (x.outcome world).2) := by
  cases h : x world with
  | ok a after =>
    have hmap : (x >>= fun a => pure (f a)) world = .ok (f a) after := bind_ok h _
    rw [outcome_of_ok h, outcome_of_ok hmap]
    rfl
  | error error after =>
    have hmap : (x >>= fun a => pure (f a)) world = .error error after := bind_error h _
    rw [outcome_of_error h, outcome_of_error hmap]
    rfl

/-- What happens while a sequence is in use. -/
inductive SequenceStep where
  /-- The clock is set, forwards or back. -/
  | clock (now : UInt64)
  /-- The sequence is asked something. -/
  | here (request : SequenceRequest)
  /-- Some part of the same database is asked something. -/
  | elsewhere (part : Namespace) (request : Request)

namespace SequenceStep

/-- The request to the sequence, if the step is one. -/
def here? : SequenceStep → Option SequenceRequest
  | here request => some request
  | _ => none

/-- Whether the step draws a key from the generator. -/
def issuesKey : SequenceStep → Bool
  | clock _ => false
  | here request => request.issuesKey
  | elsewhere _ request => request.issuesKey

theorem countP_issuesKey_cons (step : SequenceStep) (steps : List SequenceStep) :
    (step :: steps).countP issuesKey = step.issuesKey.toNat + steps.countP issuesKey := by
  rw [List.countP_cons, Nat.add_comm]
  cases step.issuesKey <;> rfl

/-- Runs steps one after another, and collects what the sequence of a given name answers. -/
def runAll (database : Database) (name : String) :
    List SequenceStep → World → List (Except Error Answer) × World
  | [], world => ([], world)
  | clock now :: rest, world => runAll database name rest { world with clock := now }
  | here request :: rest, world =>
    let (answer, world) := (request.run (database.sequence name)).outcome world
    let (answers, world) := runAll database name rest world
    (answer :: answers, world)
  | elsewhere part request :: rest, world =>
    let (_, world) := (request.run { database with space := part }).outcome world
    runAll database name rest world

end SequenceStep

/-! ## What ties them together -/

/-- The documents of a namespace read as a list, and no key of it is above the last one issued,
of at most `issued`. -/
structure Namespace.Lists (space : Namespace) (world : World) (issued : Nat) (docs : List Value) :
    Prop where
  served : world.engine.faults = .never
  counter : SequenceKey.CounterBelow world.lastKey issued
  below : ∀ e ∈ (space.view world.engine.store).entries,
    ∃ last, world.lastKey = some last ∧ e.1 ≤ last.toBytes
  docs : (space.view world.engine.store).entries.map (fun e => Codec.decode e.2) = docs.map .ok

namespace Namespace.Lists

variable {space : Namespace} {world after : World} {issued : Nat} {docs : List Value}
  (h : space.Lists world issued docs)

include h

theorem of_spares (hspares : world.Spares space after) : space.Lists after issued docs := by
  refine ⟨hspares.faults.trans h.served, ?_, ?_, ?_⟩
  · rw [hspares.lastKey]; exact h.counter
  · rw [hspares.lastKey, hspares.view]; exact h.below
  · rw [hspares.view]; exact h.docs

theorem of_unwritten (hsame : world.Unwritten after) : space.Lists after issued docs :=
  h.of_spares (.of_unwritten _ _ hsame)

theorem setClock (now : UInt64) : space.Lists { world with clock := now } issued docs :=
  ⟨h.served, h.counter, h.below, h.docs⟩

variable (hroom : issued < 2 ^ 32)

include hroom

/-- A key that is drawn is above all keys of the namespace. -/
theorem lt_next : ∀ e ∈ (space.view world.engine.store).entries,
    e.1 < (SequenceKey.next world.lastKey world.clock).toBytes := by
  intro e he
  obtain ⟨last, hlast, hle⟩ := h.below e he
  refine List.lt_of_le_of_lt hle ?_
  rw [SequenceKey.toBytes_lt_iff]
  exact (SequenceKey.next_spec h.counter hroom world.clock).1 last hlast

theorem drawKey : space.Lists world.issued (issued + 1) docs := by
  refine ⟨h.served, (SequenceKey.next_spec h.counter hroom world.clock).2, ?_, h.docs⟩
  exact fun e he => ⟨_, rfl, List.le_of_lt (h.lt_next hroom e he)⟩

end Namespace.Lists

/-! ## One request -/

namespace Namespace.Lists

section
variable {collection : Collection} {world : World} {issued : Nat} {docs : List Value}
  (h : collection.space.Lists world issued docs)

include h

/-- Whatever is at an end of the collection is at that end of the list. -/
theorem pick (fromEnd : End) :
    ((collection.held world).atEnd fromEnd).map (fun e => Codec.decode e.2) =
      (fromEnd.pick docs).map .ok := by
  rw [← End.pick_map, ← h.docs, End.pick_map]
  rfl

theorem first (fromEnd : End) : ∃ after, world.Unwritten after ∧
    (fromEnd.pick docs = none ∧ collection.first fromEnd world = .ok none after ∨
      ∃ key bytes doc, (collection.held world).atEnd fromEnd = some (key, bytes) ∧
        fromEnd.pick docs = some doc ∧ collection.first fromEnd world = .ok (some (key, doc)) after) := by
  have hsame := collection.unwritten_first fromEnd
  have hpick := h.pick fromEnd
  have hspec := collection.first_spec world fromEnd
  cases hfirst : collection.first fromEnd world with
  | error error after =>
    rw [hfirst] at hspec
    cases hspec with
    | fault hfaults => exact absurd h.served hfaults
    | unreadable hend hdecode =>
      rw [hend, Option.map_some, hdecode] at hpick
      cases hdoc : fromEnd.pick docs <;> rw [hdoc] at hpick <;> cases hpick
  | ok found after =>
    rw [hfirst] at hspec
    refine ⟨after, hsame.of_ok hfirst, ?_⟩
    cases hspec with
    | nothing hnone =>
      rw [hnone] at hpick
      exact .inl ⟨Option.map_eq_none_iff.1 hpick.symm, rfl⟩
    | found hend hdecode =>
      rw [hend, Option.map_some, hdecode] at hpick
      obtain ⟨doc, hdoc, heq⟩ := Option.map_eq_some_iff.1 hpick.symm
      cases heq
      exact .inr ⟨_, _, _, hend, hdoc, rfl⟩

theorem readAll : collection.readAll world = .ok docs := (mapM_eq_ok_iff _ _ _).2 h.docs

/-- Deleting what is at an end deletes it from that end of the list. -/
theorem erase {fromEnd : End} {key bytes : Bytes} {after : World}
    (hend : (collection.held world).atEnd fromEnd = some (key, bytes))
    (hafter : world.Became (world.engine.store.erase (collection.space.dataKey key)) after) :
    collection.space.Lists after issued (fromEnd.drop docs) := by
  obtain ⟨before, rest, hheld, hdrop⟩ := End.exists_append_of_pick hend
  have hentries : (collection.space.view after.engine.store).entries =
      fromEnd.drop (collection.held world).entries := by
    rw [hafter.store, Namespace.view_erase, hdrop]
    exact ByteMap.entries_erase_of_eq hheld
  refine ⟨hafter.faults.trans h.served, ?_, ?_, ?_⟩
  · rw [hafter.lastKey]
    exact h.counter
  · -- what is left was there before
    intro e he
    rw [hafter.lastKey]
    refine h.below e ?_
    show e ∈ (collection.held world).entries
    rw [hentries, hdrop] at he
    rw [hheld]
    rcases List.mem_append.1 he with he | he
    · exact List.mem_append_left _ he
    · exact List.mem_append_right _ (List.mem_cons_of_mem _ he)
  · rw [hentries, ← End.drop_map]
    show fromEnd.drop ((collection.space.view world.engine.store).entries.map _) = _
    rw [h.docs, End.drop_map]

/-- Storing a document under a key above all others appends it to the list. -/
theorem insert {key bytes : Bytes} {doc : Value} {after : World} {last : SequenceKey}
    (habove : ∀ e ∈ (collection.held world).entries, e.1 < key) (hlast : world.lastKey = some last)
    (hkey : key ≤ last.toBytes) (hdoc : Codec.decode bytes = .ok doc)
    (hafter : world.Became (world.engine.store.insert (collection.space.dataKey key) bytes) after) :
    collection.space.Lists after issued (docs ++ [doc]) := by
  have hentries : (collection.space.view after.engine.store).entries =
      (collection.held world).entries ++ [(key, bytes)] := by
    rw [hafter.store, Namespace.view_insert]
    exact ByteMap.entries_insert_of_forall_lt habove bytes
  refine ⟨hafter.faults.trans h.served, ?_, ?_, ?_⟩
  · rw [hafter.lastKey]
    exact h.counter
  · intro e he
    rw [hafter.lastKey]
    rw [hentries, List.mem_append, List.mem_singleton] at he
    rcases he with he | rfl
    · exact h.below e he
    · exact ⟨last, hlast, hkey⟩
  · rw [hentries, List.map_append, List.map_append]
    show (collection.space.view world.engine.store).entries.map _ ++ [Codec.decode bytes] = _
    rw [h.docs, hdoc]
    rfl

end

end Namespace.Lists

/-- An operation ends as a list does: with the list's answer, and reading as the list after it. -/
def Namespace.EndsAs (space : Namespace) (issued : Nat) (ended : Except Error Answer × World)
    (listed : Except Error Answer × List Value) : Prop :=
  ended.1 = listed.1 ∧ space.Lists ended.2 issued listed.2

section
variable {sequence : Sequence} {world : World} {issued : Nat} {docs : List Value}
  (h : sequence.collection.space.Lists world issued docs)

include h

theorem SequenceRequest.insert_onList (hroom : issued < 2 ^ 32) {item : Value}
    (hdecodes : ∀ bytes, sequence.collection.codec.encode item = .ok bytes →
      ∃ doc, Codec.decode bytes = .ok doc) :
    sequence.collection.space.EndsAs (issued + 1) ((run sequence (.insert item)).outcome world)
      (onList sequence.collection.codec (.insert item) docs) := by
  have hdrawn := h.drawKey hroom
  have habove := h.lt_next hroom
  have hspec := sequence.store_spec world.issued (SequenceKey.next world.lastKey world.clock) item
  have hrun : run sequence (.insert item) world =
      (sequence.store (SequenceKey.next world.lastKey world.clock) item >>= fun item =>
        pure (Answer.document item)) world.issued := rfl
  unfold onList
  cases hstore : sequence.store (SequenceKey.next world.lastKey world.clock) item world.issued with
  | error error after =>
    rw [bind_error hstore] at hrun
    rw [Op.outcome_of_error hrun]
    rw [hstore] at hspec
    cases hspec with
    | refused hencode =>
      simp only [hencode]
      exact ⟨rfl, hdrawn⟩
    | fault hencode hfaults => exact absurd h.served hfaults
  | ok answer after =>
    rw [bind_ok hstore] at hrun
    rw [Op.outcome_of_ok hrun]
    rw [hstore] at hspec
    cases hspec with
    | stored hencode hafter =>
      obtain ⟨doc, hdoc⟩ := hdecodes _ hencode
      simp only [hencode, hdoc]
      exact ⟨rfl, hdrawn.insert habove rfl (List.le_refl _) hdoc hafter⟩

theorem SequenceRequest.take_onList (fromEnd : End) :
    sequence.collection.space.EndsAs issued ((run sequence (.take fromEnd)).outcome world)
      (onList sequence.collection.codec (.take fromEnd) docs) := by
  obtain ⟨middle, hsame, ⟨hnone, hfirst⟩ | ⟨key, bytes, doc, hend, hdoc, hfirst⟩⟩ := h.first fromEnd
  · have htake : sequence.take fromEnd world = .ok none middle := bind_ok hfirst _
    rw [Op.outcome_of_ok (show run sequence (.take fromEnd) world = _ from bind_ok htake _)]
    refine ⟨by rw [onList, hnone], ?_⟩
    have hnil := (fromEnd.pick_eq_none_iff docs).1 hnone
    have hdrop : fromEnd.drop docs = docs := by
      rw [hnil]
      cases fromEnd <;> rfl
    rw [onList, hdrop]
    exact h.of_unwritten hsame
  · have hspec := sequence.remove_spec middle fromEnd key doc
    cases hremove : sequence.remove fromEnd key doc middle with
    | error error after =>
      rw [hremove] at hspec
      cases hspec with
      | fault hfaults => exact absurd (hsame.faults.trans h.served) hfaults
    | ok item after =>
      have htake : sequence.take fromEnd world = .ok (some item) after :=
        (bind_ok hfirst _).trans (bind_ok hremove _)
      rw [Op.outcome_of_ok (show run sequence (.take fromEnd) world = _ from bind_ok htake _)]
      rw [hremove] at hspec
      cases hspec with
      | erased hafter =>
        refine ⟨by rw [onList, hdoc], ?_⟩
        rw [hsame.store] at hafter
        exact h.erase hend (hafter.of_unwritten hsame)

/-- A sequence answers a request as the list does, and goes on reading as the list. -/
theorem SequenceRequest.run_onList (hroom : issued < 2 ^ 32) (request : SequenceRequest)
    (hdecodes : ∀ item bytes, request = .insert item →
      sequence.collection.codec.encode item = .ok bytes → ∃ doc, Codec.decode bytes = .ok doc) :
    sequence.collection.space.EndsAs (issued + request.issuesKey.toNat)
      ((request.run sequence).outcome world) (request.onList sequence.collection.codec docs) := by
  cases request with
  | insert item => exact insert_onList h hroom fun bytes => hdecodes item bytes rfl
  | peek fromEnd =>
    obtain ⟨after, hsame, ⟨hnone, hfirst⟩ | ⟨key, bytes, doc, hend, hdoc, hfirst⟩⟩ := h.first fromEnd
    · have hpeek : sequence.peek fromEnd world = .ok none after := bind_ok hfirst _
      rw [Op.outcome_of_ok (show run sequence (.peek fromEnd) world = _ from bind_ok hpeek _)]
      exact ⟨by rw [onList, hnone], h.of_unwritten hsame⟩
    · have hpeek : sequence.peek fromEnd world = .ok (some doc) after := bind_ok hfirst _
      rw [Op.outcome_of_ok (show run sequence (.peek fromEnd) world = _ from bind_ok hpeek _)]
      exact ⟨by rw [onList, hdoc], h.of_unwritten hsame⟩
  | take fromEnd => exact take_onList h fromEnd
  | query expression =>
    obtain ⟨after, hsame, hquery⟩ := sequence.collection.query_spec h.served expression
    rw [h.readAll] at hquery
    rw [Op.outcome_of_ok (show run sequence (.query expression) world = _ from bind_ok hquery _)]
    exact ⟨rfl, h.of_unwritten hsame⟩
  | count expression =>
    obtain ⟨after, hsame, hcount⟩ := sequence.collection.count_spec h.served expression
    rw [h.readAll] at hcount
    rw [Op.outcome_of_ok (show run sequence (.count expression) world = _ from bind_ok hcount _)]
    cases expression with
    | some expression => exact ⟨rfl, h.of_unwritten hsame⟩
    | none =>
      refine ⟨?_, h.of_unwritten hsame⟩
      rw [Option.getD_none, Expression.select_everything]
      rfl
  | empty =>
    obtain ⟨store, after, hafter, hempty, hrun⟩ := sequence.collection.empty_spec h.served
    rw [Op.outcome_of_ok (show run sequence .empty world = _ from bind_ok hrun _)]
    refine ⟨rfl, hafter.faults.trans h.served, ?_, ?_, ?_⟩
    · rw [hafter.lastKey]
      exact h.counter
    · rw [hafter.store, hempty]
      exact fun e he => nomatch he
    · rw [hafter.store, hempty]
      rfl

end

/-! ## Whole runs -/

/-- A run on a namespace that reads as a list is the run of the list, whatever the clock does and
whatever is asked of the other parts of the database meanwhile. -/
theorem SequenceStep.runAll_onList (database : Database) (name : String)
    (hspace : (database.space.sub name).Fits) (steps : List SequenceStep)
    (hother : ∀ part request, elsewhere part request ∈ steps →
      (request.space { database with space := part }).Fits ∧
        database.space.sub name ≠ request.space { database with space := part })
    (hdecodes : ∀ item bytes, here (.insert item) ∈ steps →
      database.config.codec.encode item = .ok bytes → ∃ doc, Codec.decode bytes = .ok doc)
    {world : World} {issued : Nat} {docs : List Value}
    (hroom : issued + steps.countP issuesKey < 2 ^ 32)
    (h : (database.space.sub name).Lists world issued docs) :
    (runAll database name steps world).1 =
        (SequenceRequest.allOnList database.config.codec (steps.filterMap here?) docs).1 ∧
      (database.space.sub name).Lists (runAll database name steps world).2
        (issued + steps.countP issuesKey)
        (SequenceRequest.allOnList database.config.codec (steps.filterMap here?) docs).2 := by
  induction steps generalizing world issued docs with
  | nil => exact ⟨rfl, h⟩
  | cons step rest ih =>
    have ih := @ih (fun part request hmem => hother part request (List.mem_cons_of_mem _ hmem))
      (fun item bytes hmem => hdecodes item bytes (List.mem_cons_of_mem _ hmem))
    rw [countP_issuesKey_cons, ← Nat.add_assoc] at hroom ⊢
    cases step with
    | clock now => exact ih hroom (h.setClock now)
    | here request =>
      have hstep := request.run_onList (show (database.sequence name).collection.space.Lists _ _ _ from h)
        (by omega) fun item bytes heq => hdecodes item bytes (heq ▸ List.mem_cons_self)
      have hrest := ih hroom hstep.2
      exact ⟨congrArg₂ List.cons hstep.1 hrest.1, hrest.2⟩
    | elsewhere part request =>
      obtain ⟨hfits, hne⟩ := hother part request List.mem_cons_self
      have hspares := request.spares hspace hfits hne
      refine ih hroom ?_
      -- whatever it does there, here it has at most drawn a key
      have hdrawn : (database.space.sub name).Lists (world.drawn request.issuesKey)
          (issued + request.issuesKey.toNat) docs := by
        cases hissues : request.issuesKey with
        | true => exact h.drawKey (by omega)
        | false => exact h
      cases hrun : request.run { database with space := part } world with
      | ok answer after => exact hdrawn.of_spares (hspares.of_ok hrun)
      | error error after => exact hdrawn.of_spares (hspares.of_error hrun)

/-- From an empty namespace on, a queue or stack on an engine whose calls are served is one list:
every answer is the list's, and what the namespace holds in the end reads as the list in the end.
The clock may be set at will, other parts of the database may be asked anything, also for keys,
and pages may have any size. -/
theorem Database.sequence_refines_list (database : Database) (name : String)
    (hspace : (database.space.sub name).Fits) (steps : List SequenceStep)
    (hother : ∀ part request, .elsewhere part request ∈ steps →
      (request.space { database with space := part }).Fits ∧
        database.space.sub name ≠ request.space { database with space := part })
    (hkeys : steps.countP SequenceStep.issuesKey < 2 ^ 32)
    (hdecodes : ∀ item bytes, .here (.insert item) ∈ steps →
      database.config.codec.encode item = .ok bytes → ∃ doc, Codec.decode bytes = .ok doc)
    (world : World) (hfresh : world.lastKey = none) (hserved : world.engine.faults = .never)
    (hempty : (database.space.sub name).view world.engine.store = .empty) :
    (SequenceStep.runAll database name steps world).1 =
        (SequenceRequest.allOnList database.config.codec (steps.filterMap SequenceStep.here?) []).1 ∧
      ((database.space.sub name).view
          (SequenceStep.runAll database name steps world).2.engine.store).entries.map
            (fun e => Codec.decode e.2) =
        (SequenceRequest.allOnList database.config.codec (steps.filterMap SequenceStep.here?) []).2.map
          .ok := by
  have hstart : (database.space.sub name).Lists world 0 [] := by
    refine ⟨hserved, ?_, ?_, ?_⟩
    · rw [hfresh]
      exact SequenceKey.counterBelow_none 0
    · rw [hempty]
      exact fun e he => nomatch he
    · rw [hempty]
      rfl
  have hrun := SequenceStep.runAll_onList database name hspace steps hother hdecodes (by omega) hstart
  exact ⟨hrun.1, hrun.2.docs⟩

/-- A queue under a clock that stands still and then goes back. A neighbour draws a key, and an
item that cannot be stored is refused, before both ends are taken from. -/
def crowdedSteps : List SequenceStep :=
  [.clock 7, .here (.insert (.int 1)), .here (.insert (.int 2)),
    .elsewhere .root (.sequence "b" (.insert (.int 9))), .clock 3, .here (.insert (.int 3)),
    .here (.insert (.float ⟨0x7FF0000000000000⟩)), .here (.take .oldest), .here (.take .newest),
    .here (.count none), .here .empty, .here (.peek .newest)]

theorem crowdedSteps_are_listed :
    (SequenceStep.runAll ⟨{}, .root⟩ "a" crowdedSteps {}).1 =
      [.ok (.document (.int 1)), .ok (.document (.int 2)), .ok (.document (.int 3)),
        .error (.codec (.nonFinite ⟨0x7FF0000000000000⟩)), .ok (.found (some (.int 1))),
        .ok (.found (some (.int 3))), .ok (.count 1), .ok .done, .ok (.found none)] :=
  (Database.sequence_refines_list ⟨{}, .root⟩ "a" (by decide) crowdedSteps
    (by
      intro part request h
      simp only [crowdedSteps, List.mem_cons, reduceCtorEq, SequenceStep.elsewhere.injEq,
        List.not_mem_nil, or_false, false_or] at h
      obtain ⟨rfl, rfl⟩ := h
      decide)
    (by decide)
    (by
      intro item bytes h hencode
      simp only [crowdedSteps, List.mem_cons, reduceCtorEq, SequenceStep.here.injEq,
        SequenceRequest.insert.injEq, List.not_mem_nil, or_false, false_or] at h
      rcases h with rfl | rfl | rfl | rfl
      · cases hencode; exact ⟨_, rfl⟩
      · cases hencode; exact ⟨_, rfl⟩
      · cases hencode; exact ⟨_, rfl⟩
      · cases hencode)
    {} rfl rfl rfl).1.trans rfl

end DocStore
