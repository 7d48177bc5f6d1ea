/-
Lazy queries under concurrent writes. A lazy query is a stream of the entries of its collection of
which those that do not match are passed over. Anything may be called on the store between two of
its scans, also while it is looking for one item: what it makes of the polls of its stream is as
consistent as the stream. An item that is looked for without a break is what some polls in a row
make. After its end or a failed scan the query yields nothing and makes no call.
-/
import DocStore.Proofs.Collection.Walks
import DocStore.Proofs.Store.Stream

namespace DocStore

open DocumentStream (Item)

/-! ## Items -/

/-- What a lazy query makes of a poll of its scan; a document that does not match is passed over. -/
def Poll.item? (expression : Expression) (poll : Poll) : Option Item :=
  match poll.outcome with
  | .ended => some .ended
  | .failed error => some (.failure (.store error))
  | .entry e =>
    match e.document with
    | .error error => some (.failure (.codec error))
    | .ok doc => if expression.matches doc then some (.document doc) else none

/-- Whether nothing is yielded after an item. -/
def DocumentStream.Item.IsLast : Item → Prop
  | .ended => True
  | .failure (.store _) => True
  | _ => False

/-- An item of a lazy query, with the engine before and after it. -/
structure Pull where
  item : Item
  before : Engine
  after : Engine

/-- The items of a lazy query as steps follow one another. -/
def StreamStep.pulls : List StreamStep → DocumentStream → World → List Pull
  | [], _, _ => []
  | .poll :: rest, stream, world =>
    let ((item, stream), after) := stream.next world
    ⟨item, world.engine, after.engine⟩ :: pulls rest stream after
  | .call space made :: rest, stream, world =>
    pulls rest stream { world with engine := space.afterCall made world.engine }

/-- The steps of a run in which each poll of another one has become one or more in a row. -/
inductive StreamStep.Refines : List StreamStep → List StreamStep → Prop
  | nil : Refines [] []
  | call (space : Namespace) (made : Call) {rest finer : List StreamStep} (h : Refines rest finer) :
    Refines (.call space made :: rest) (.call space made :: finer)
  | poll (more : Nat) {rest finer : List StreamStep} (h : Refines rest finer) :
    Refines (.poll :: rest) (.poll :: (List.replicate more .poll ++ finer))

/-- Polls in a row that make an item: the last of them makes it, those before it are passed over. -/
inductive Pull.MadeBy (expression : Expression) : List Poll → Pull → Prop
  | last {outcome : PollOutcome} {item : Item} {before after : Engine}
    (hitem : Poll.item? expression ⟨outcome, before, after⟩ = some item) :
    MadeBy expression [⟨outcome, before, after⟩] ⟨item, before, after⟩
  | passed {outcome : PollOutcome} {item : Item} {before middle after : Engine} {polls : List Poll}
    (hpassed : Poll.item? expression ⟨outcome, before, middle⟩ = none)
    (hstore : middle.store = before.store) (h : MadeBy expression polls ⟨item, middle, after⟩) :
    MadeBy expression (⟨outcome, before, middle⟩ :: polls) ⟨item, before, after⟩

/-! ## Poll by poll -/

/-- The key and the document of an entry that can be read and matches. -/
def Entry.match? (expression : Expression) (entry : Entry) : Option (Bytes × Value) :=
  match entry.document with
  | .error _ => none
  | .ok doc => if expression.matches doc then some (entry.key, doc) else none

theorem Entry.match?_eq_some_iff {expression : Expression} {entry : Entry} {key : Bytes}
    {doc : Value} : entry.match? expression = some (key, doc) ↔
      entry.key = key ∧ entry.document = .ok doc ∧ expression.matches doc = true := by
  unfold match?
  constructor
  · intro h
    split at h
    · cases h
    · split at h
      · cases h
        exact ⟨rfl, ‹_›, ‹_›⟩
      · cases h
  · rintro ⟨rfl, hdoc, hmatch⟩
    rw [hdoc]
    exact if_pos hmatch

namespace Poll

variable {expression : Expression} {space : Namespace} {poll : Poll} {polls : List Poll} {item : Item}

/-- The key and the document that a lazy query yields at a poll of its scan, if it does. -/
def match? (expression : Expression) (poll : Poll) : Option (Bytes × Value) :=
  poll.yielded?.bind (Entry.match? expression)

/-- A document is yielded where one is made of a poll. -/
theorem item?_eq_document_iff {doc : Value} :
    poll.item? expression = some (.document doc) ↔ ∃ key, poll.match? expression = some (key, doc) := by
  unfold item? match? yielded?
  rcases poll.outcome with e | error | _
  · cases hdoc : e.document with
    | error error => simp [Entry.match?, hdoc]
    | ok read => by_cases hmatch : expression.matches read = true <;> simp [Entry.match?, hdoc, hmatch]
  · simp
  · simp

theorem match?_of_entry {e : Entry} {doc : Value} (hentry : poll.outcome = .entry e)
    (hdoc : e.document = .ok doc) (hmatch : expression.matches doc = true) :
    poll.match? expression = some (e.key, doc) := by
  unfold match? yielded?
  rw [hentry]
  exact Entry.match?_eq_some_iff.2 ⟨rfl, hdoc, hmatch⟩

/-- Whether a namespace holds a document that matches under a key when it is polled. -/
def FindsMatch (poll : Poll) (space : Namespace) (expression : Expression) (key : Bytes) : Prop :=
  ∃ bytes doc, (space.view poll.before.store).get? key = some bytes ∧
    Codec.decode bytes = .ok doc ∧ expression.matches doc = true

/-- What a lazy query over a namespace makes of the polls of its scan is consistent, whatever has
happened between any two of them. -/
structure ConsistentQuery (space : Namespace) (expression : Expression) (polls : List Poll) :
    Prop where
  /-- The keys of the documents that are yielded ascend. -/
  ordered : (polls.filterMap (match? expression)).Pairwise fun a b => a.1 < b.1
  /-- A document that is yielded matches, and was in the namespace when its page was fetched. -/
  fetched : ∀ before p after key doc, polls = before ++ p :: after →
    p.match? expression = some (key, doc) → expression.matches doc = true ∧
      ∃ fetch bytes, fetch? (before ++ [p]) = some fetch ∧
        (space.view fetch.before.store).get? key = some bytes ∧ Codec.decode bytes = .ok doc
  /-- When the query ends and no scan has failed it has yielded one document under each key that
  held one that matches at every poll. -/
  complete : ∀ before last after, polls = before ++ last :: after →
    last.item? expression = some .ended →
    (∀ p ∈ before, ∀ error, p.item? expression ≠ some (.failure (.store error))) →
    ∀ key, (∀ p ∈ before ++ [last], p.FindsMatch space expression key) →
    ((before.filterMap (match? expression)).map Prod.fst).count key = 1
  /-- After its end or a failed scan the query yields nothing and makes no call. -/
  afterLast : ∀ before last after item, polls = before ++ last :: after →
    last.item? expression = some item → item.IsLast →
    ∀ p ∈ after, p.item? expression = some .ended ∧ p.after = p.before

theorem outcome_of_ended (h : poll.item? expression = some .ended) : poll.outcome = .ended := by
  unfold item? at h
  split at h
  · assumption
  · cases h
  · split at h
    · cases h
    · split at h <;> cases h

theorem item?_of_ended (h : poll.outcome = .ended) : poll.item? expression = some .ended := by
  unfold item?
  rw [h]

theorem item?_of_failed {error : StoreError} (h : poll.outcome = .failed error) :
    poll.item? expression = some (.failure (.store error)) := by
  unfold item?
  rw [h]

/-- The last item is made of no entry. -/
theorem outcome_ne_entry_of_isLast (h : poll.item? expression = some item) (hlast : item.IsLast) :
    ∀ e, poll.outcome ≠ .entry e := by
  intro e hentry
  unfold item? at h
  rw [hentry] at h
  simp only at h
  split at h
  · cases h
    exact hlast
  · split at h
    · cases h
      exact hlast
    · cases h

theorem matches_eq (polls : List Poll) : polls.filterMap (match? expression) =
    (polls.filterMap yielded?).filterMap (Entry.match? expression) :=
  (List.filterMap_filterMap ..).symm

/-- A lazy query is as consistent as its scan. -/
theorem Consistent.query (h : Consistent space .all polls) (expression : Expression) :
    ConsistentQuery space expression polls := by
  have hordered : (polls.filterMap (match? expression)).Pairwise fun a b => a.1 < b.1 := by
    rw [matches_eq]
    refine h.ordered.filterMap _ fun a b hab x hx y hy => ?_
    rw [← (Entry.match?_eq_some_iff.1 hx).1, ← (Entry.match?_eq_some_iff.1 hy).1]
    exact of_decide_eq_true hab
  refine ⟨hordered, ?_, ?_, ?_⟩
  · intro before p after key doc hsplit hmatch
    obtain ⟨e, hentry, he⟩ := Option.bind_eq_some_iff.1 hmatch
    obtain ⟨rfl, hdoc, hmatches⟩ := Entry.match?_eq_some_iff.1 he
    obtain ⟨fetch, hfetch, ⟨bytes, hbytes, heq⟩, -⟩ :=
      h.fetched before p after e hsplit (outcome_of_yielded hentry)
    have hdecode : Codec.decode bytes = .ok doc := by
      rw [heq] at hdoc
      exact hdoc
    exact ⟨hmatches, fetch, bytes, hfetch, hbytes, hdecode⟩
  · intro before last after hsplit hended hserved key hstays
    subst hsplit
    have hfinds : ∀ p ∈ before ++ [last], p.Finds space key := by
      intro p hp
      obtain ⟨bytes, -, hbytes, -⟩ := hstays p hp
      exact Option.isSome_iff_exists.2 ⟨bytes, hbytes⟩
    obtain ⟨p, hp, fetch, hfetch, bytes, hbytes, hentry⟩ := h.exists_entry (outcome_of_ended hended)
      (fun p hp error hfailed => hserved p hp error (item?_of_failed hfailed)) rfl hfinds
    -- what the page held under the key is what matched then
    obtain ⟨held, doc, hheld, hdoc, hmatches⟩ := hstays fetch (List.mem_append_left _ hfetch)
    obtain rfl := Option.some.inj (hheld.symm.trans hbytes)
    have hmatch : p.match? expression = some (key, doc) := match?_of_entry hentry hdoc hmatches
    rw [List.filterMap_append] at hordered
    refine List.count_eq_one_of_mem ?_ (List.mem_map.2 ⟨_, List.mem_filterMap.2 ⟨p, hp, hmatch⟩, rfl⟩)
    refine List.pairwise_map.2 ((List.pairwise_append.1 hordered).1.imp fun {a b} hab heq => ?_)
    rw [heq] at hab
    exact List.lt_irrefl _ hab
  · intro before last after item hsplit hitem hlast p hp
    obtain ⟨hended, hsame⟩ :=
      h.afterLast before last after hsplit (outcome_ne_entry_of_isLast hitem hlast) p hp
    exact ⟨item?_of_ended hended, hsame⟩

/-- With pages of one, what is stored while the first item is looked for is found as this item. -/
example : ((StreamStep.polls
    [.poll, .call .root (.put [2] (utf8 "\x7b\"a\":0\x7d")), .poll, .poll]
    (some ((⟨.root, {}, 1⟩ : Collection).cursor .all))
    { store := ByteMap.empty.insert (Namespace.root.dataKey [1]) (utf8 "0") }).filterMap
      (match? (.field "a" (.equals (.int 0))))).map Prod.fst = [[2]] := by
  decide +kernel

end Poll

/-! ## One item -/

/-- A lazy query whose scan is at `stream` yields an item and goes on at `next`, as the scan does
after some polls. -/
structure DocumentStream.Pulls (expression : Expression) (stream : Option Cursor) (engine : Engine)
    (item : Item) (next : Option Cursor) (after : Engine) : Prop where
  sound : ∀ cursor, next = some cursor → cursor.Sound
  last : item.IsLast → next = none
  polls : ∃ more group, Pull.MadeBy expression group ⟨item, engine, after⟩ ∧
    ∀ finer, StreamStep.polls (.poll :: (List.replicate more .poll ++ finer)) stream engine =
      group ++ StreamStep.polls finer next after

namespace DocumentStream

variable {expression : Expression} {stream next : Option Cursor} {engine after : Engine} {item : Item}

/-- One poll makes an item. -/
theorem pulls_of_poll {outcome : PollOutcome}
    (hpoll : Cursor.poll stream engine = ((outcome, next), after))
    (hitem : Poll.item? expression ⟨outcome, engine, after⟩ = some item)
    (hsound : ∀ cursor, next = some cursor → cursor.Sound) (hlast : item.IsLast → next = none) :
    Pulls expression stream engine item next after := by
  refine ⟨hsound, hlast, 0, _, .last hitem, fun finer => ?_⟩
  rw [StreamStep.polls_poll hpoll]
  rfl

/-- One poll is passed over, and the polls after it make an item. -/
theorem pulls_of_passed {outcome : PollOutcome} {rest : Option Cursor} {middle : Engine}
    (hpoll : Cursor.poll stream engine = ((outcome, rest), middle))
    (hpassed : Poll.item? expression ⟨outcome, engine, middle⟩ = none)
    (hstore : middle.store = engine.store) (h : Pulls expression rest middle item next after) :
    Pulls expression stream engine item next after := by
  obtain ⟨more, group, hgroup, hpolls⟩ := h.polls
  refine ⟨h.sound, h.last, more + 1, _, .passed hpassed hstore hgroup, fun finer => ?_⟩
  rw [StreamStep.polls_poll hpoll, List.cons_append, ← hpolls finer]
  rfl

/-- With enough fuel a lazy query looks for its next item as long as there are entries. -/
theorem nextFuel_spec (expression : Expression) {fuel : Nat} {cursor : Cursor} {world : World}
    (hsound : cursor.Sound) (hfuel : (cursor.remaining world.engine.store).length < fuel) :
    ∃ item next after,
      nextFuel expression fuel cursor world = ((item, next), { world with engine := after }) ∧
        Pulls expression (some cursor) world.engine item next after := by
  have hover : ∀ cursor, (none : Option Cursor) = some cursor → cursor.Sound := by
    rintro _ ⟨⟩
  induction fuel generalizing cursor world with
  | zero => omega
  | succ fuel ih =>
    rcases cursor.next_spec hsound world.engine with
      ⟨error, engine, hnext, -⟩ | ⟨engine, hnext, -⟩ | ⟨e, rest, engine, hnext, hyields⟩
    · refine ⟨.failure (.store error), none, engine, ?_, ?_⟩
      · simp only [nextFuel, Op.access_error hnext]
      · have hpoll : Cursor.poll (some cursor) world.engine = ((.failed error, none), engine) := by
          simp only [Cursor.poll, hnext]
        exact pulls_of_poll hpoll rfl hover fun _ => rfl
    · refine ⟨.ended, none, engine, ?_, ?_⟩
      · simp only [nextFuel, Op.access_ok hnext]
      · have hpoll : Cursor.poll (some cursor) world.engine = ((.ended, none), engine) := by
          simp only [Cursor.poll, hnext]
        exact pulls_of_poll hpoll rfl hover fun _ => rfl
    · have hpoll : Cursor.poll (some cursor) world.engine = ((.entry e, some rest), engine) := by
        simp only [Cursor.poll, hnext]
      have hrest : ∀ cursor, some rest = some cursor → cursor.Sound := by
        rintro _ ⟨⟩
        exact hyields.sound
      cases hdoc : e.document with
      | error error =>
        refine ⟨.failure (.codec error), some rest, engine, ?_, ?_⟩
        · simp only [nextFuel, Op.access_ok hnext, hdoc]
        · exact pulls_of_poll hpoll (by simp only [Poll.item?, hdoc]) hrest False.elim
      | ok doc =>
        by_cases hmatch : expression.matches doc = true
        · refine ⟨.document doc, some rest, engine, ?_, ?_⟩
          · simp only [nextFuel, Op.access_ok hnext, hdoc, if_pos hmatch]
          · exact pulls_of_poll hpoll (by simp only [Poll.item?, hdoc, if_pos hmatch]) hrest False.elim
        · -- the document is passed over: one entry less remains
          have hstore : engine.store = world.engine.store := (cursor.keeps_next.of_ok hnext).store
          have hless : (rest.remaining engine.store).length < fuel := by
            rw [hyields.remaining, List.length_cons] at hfuel
            rw [hstore]
            omega
          obtain ⟨item, next, after, hrun, hpulls⟩ :=
            @ih rest { world with engine } hyields.sound hless
          refine ⟨item, next, after, ?_, ?_⟩
          · simp only [nextFuel, Op.access_ok hnext, hdoc, if_neg hmatch]
            exact hrun
          · have hpassed : Poll.item? expression ⟨.entry e, world.engine, engine⟩ = none := by
              simp only [Poll.item?, hdoc, if_neg hmatch]
            exact pulls_of_passed hpoll hpassed hstore hpulls

theorem next_spec {stream : DocumentStream}
    (hsound : ∀ cursor, stream.cursor = some cursor → cursor.Sound) (world : World) :
    ∃ item next after,
      stream.next world = ((item, { stream with cursor := next }), { world with engine := after }) ∧
        Pulls stream.expression stream.cursor world.engine item next after := by
  obtain ⟨expression, stream⟩ := stream
  rcases stream with _ | cursor
  · exact ⟨.ended, none, world.engine, rfl, pulls_of_poll rfl rfl nofun fun _ => rfl⟩
  · obtain ⟨item, next, after, hrun, hpulls⟩ :=
      nextFuel_spec expression (hsound cursor rfl) (cursor.length_remaining_lt world.engine.store)
    refine ⟨item, next, after, ?_, hpulls⟩
    simp only [DocumentStream.next, hrun]

end DocumentStream

/-! ## Runs -/

namespace StreamStep

variable {steps : List StreamStep} {stream : DocumentStream} {world : World}

/-- The items of a lazy query are made by the polls of its scan, group by group. -/
theorem pulls_madeBy (steps : List StreamStep) (world : World)
    (hsound : ∀ cursor, stream.cursor = some cursor → cursor.Sound) :
    ∃ finer groups, Refines steps finer ∧ polls finer stream.cursor world.engine = groups.flatten ∧
      List.Forall₂ (Pull.MadeBy stream.expression) groups (pulls steps stream world) := by
  induction steps generalizing stream world with
  | nil => exact ⟨[], [], .nil, rfl, .nil⟩
  | cons step rest ih =>
    cases step with
    | call space made =>
      obtain ⟨finer, groups, hrefines, hpolls, hpulls⟩ :=
        @ih stream { world with engine := space.afterCall made world.engine } hsound
      exact ⟨_, groups, .call space made hrefines, hpolls, hpulls⟩
    | poll =>
      -- the polls that make the item take the place of the one step
      obtain ⟨item, next, after, hnext, hitem⟩ := stream.next_spec hsound world
      obtain ⟨more, group, hgroup, hfirst⟩ := hitem.polls
      obtain ⟨finer, groups, hrefines, hpolls, hpulls⟩ :=
        @ih { stream with cursor := next } { world with engine := after } hitem.sound
      refine ⟨_, group :: groups, .poll more hrefines, ?_, ?_⟩
      · rw [hfirst finer, List.flatten_cons]
        exact congrArg (group ++ ·) hpolls
      · rw [pulls, hnext]
        exact .cons hgroup hpulls

theorem pulls_of_none (hover : stream.cursor = none) :
    ∀ p ∈ pulls steps stream world, p.item = .ended ∧ p.after = p.before := by
  obtain ⟨expression, _⟩ := stream
  obtain rfl : _ = none := hover
  induction steps generalizing world with
  | nil => exact nofun
  | cons step rest ih =>
    cases step with
    | poll =>
      intro p hp
      rcases List.mem_cons.1 hp with rfl | hp
      · exact ⟨rfl, rfl⟩
      · exact ih p hp
    | call space made => exact ih

/-- After the end or a failed scan nothing is yielded, and no call is made. -/
theorem pulls_after_last (hsound : ∀ cursor, stream.cursor = some cursor → cursor.Sound)
    {before after : List Pull} {last : Pull}
    (hsplit : pulls steps stream world = before ++ last :: after) (hlast : last.item.IsLast) :
    ∀ p ∈ after, p.item = .ended ∧ p.after = p.before := by
  induction steps generalizing stream world before with
  | nil => simp [pulls] at hsplit
  | cons step rest ih =>
    cases step with
    | call space made => exact ih hsound hsplit
    | poll =>
      obtain ⟨item, next, middle, hnext, hitem⟩ := stream.next_spec hsound world
      rw [pulls, hnext] at hsplit
      rcases List.cons_eq_append_iff.1 hsplit with ⟨rfl, heq⟩ | ⟨before, rfl, hrest⟩
      · cases heq
        exact pulls_of_none (hitem.last hlast)
      · exact @ih { stream with cursor := next } _ hitem.sound _ hrest

end StreamStep

/-! ## Documents that stay -/

section
variable {expression : Expression} {polls : List Poll} {pull : Pull}

namespace Pull.MadeBy

/-- A poll of a group makes the item or is passed over. -/
theorem item?_eq (h : MadeBy expression polls pull) :
    ∀ p ∈ polls, p.item? expression = none ∨ p.item? expression = some pull.item := by
  induction h with
  | last hitem =>
    rintro p hp
    rw [List.mem_singleton.1 hp]
    exact .inr hitem
  | passed hpassed hstore h ih =>
    rintro p hp
    rcases List.mem_cons.1 hp with rfl | hp
    · exact .inl hpassed
    · exact ih p hp

/-- Within a group nothing is written. -/
theorem store_eq (h : MadeBy expression polls pull) :
    ∀ p ∈ polls, p.before.store = pull.before.store := by
  induction h with
  | last hitem =>
    rintro p hp
    rw [List.mem_singleton.1 hp]
  | passed hpassed hstore h ih =>
    rintro p hp
    rcases List.mem_cons.1 hp with rfl | hp
    · rfl
    · exact (ih p hp).trans hstore

theorem exists_append (h : MadeBy expression polls pull) :
    ∃ passed last, polls = passed ++ [last] ∧ (∀ p ∈ passed, p.item? expression = none) ∧
      last.item? expression = some pull.item := by
  induction h with
  | last hitem => exact ⟨[], _, rfl, nofun, hitem⟩
  | passed hpassed hstore h ih =>
    obtain ⟨passed, last, rfl, hnone, hlast⟩ := ih
    refine ⟨_ :: passed, last, rfl, ?_, hlast⟩
    rintro p hp
    rcases List.mem_cons.1 hp with rfl | hp
    · exact hpassed
    · exact hnone p hp

end Pull.MadeBy

end

theorem exists_of_forall₂ {α β : Type} {R : α → β → Prop} {as : List α} {bs : List β}
    (h : List.Forall₂ R as bs) : ∀ a ∈ as, ∃ b ∈ bs, R a b := by
  induction h with
  | nil => exact nofun
  | cons hab h ih =>
    intro x hx
    rcases List.mem_cons.1 hx with rfl | hx
    · exact ⟨_, List.mem_cons_self, hab⟩
    · obtain ⟨b, hb, hxb⟩ := ih x hx
      exact ⟨b, List.mem_cons_of_mem _ hb, hxb⟩

/-- The polls up to the one that makes an item are passed over or make the items before it, and
find the store as it was when these were asked for. -/
theorem Pull.exists_polls {expression : Expression} {groups : List (List Poll)}
    {before after : List Pull} {last : Pull}
    (hmade : List.Forall₂ (Pull.MadeBy expression) groups (before ++ last :: after)) :
    ∃ polls final later, groups.flatten = polls ++ final :: later ∧
      final.item? expression = some last.item ∧
      (∀ p ∈ polls, ∀ item, p.item? expression = some item → ∃ pull ∈ before, pull.item = item) ∧
      ∀ p ∈ polls ++ [final], ∃ pull ∈ before ++ [last], p.before.store = pull.before.store := by
  obtain ⟨group, later, hgroup, -, hlater⟩ :=
    List.forall₂_cons_right_iff.1 (List.forall₂_drop_append _ _ _ hmade)
  have hearlier := List.forall₂_take_append _ _ _ hmade
  rw [← List.take_append_drop before.length groups, hlater]
  generalize groups.take before.length = earlier at hearlier
  obtain ⟨passed, final, rfl, hpassed, hfinal⟩ := hgroup.exists_append
  -- a poll belongs to the group of an item before, or to that of this one
  have hpulls : ∀ p ∈ earlier.flatten, ∃ pull ∈ before, ∃ polls, p ∈ polls ∧
      MadeBy expression polls pull := by
    intro p hp
    obtain ⟨polls, hmem, hp⟩ := List.mem_flatten.1 hp
    obtain ⟨pull, hpull, hmade⟩ := exists_of_forall₂ hearlier polls hmem
    exact ⟨pull, hpull, polls, hp, hmade⟩
  refine ⟨earlier.flatten ++ passed, final, later.flatten, by simp, hfinal, ?_, ?_⟩
  · intro p hp item hitem
    rcases List.mem_append.1 hp with hp | hp
    · obtain ⟨pull, hpull, polls, hp, hmade⟩ := hpulls p hp
      rcases hmade.item?_eq p hp with hnone | hsome
      · rw [hitem] at hnone
        cases hnone
      · rw [hitem] at hsome
        exact ⟨pull, hpull, (Option.some.inj hsome).symm⟩
    · rw [hpassed p hp] at hitem
      cases hitem
  · intro p hp
    rw [List.append_assoc] at hp
    rcases List.mem_append.1 hp with hp | hp
    · obtain ⟨pull, hpull, polls, hp, hmade⟩ := hpulls p hp
      exact ⟨pull, List.mem_append_left _ hpull, hmade.store_eq p hp⟩
    · exact ⟨last, List.mem_append_right _ List.mem_cons_self, hgroup.store_eq p hp⟩

/-- A document that matches and is there whenever an item is asked for, up to the end, is yielded. -/
theorem Pull.exists_document {space : Namespace} {expression : Expression} {groups : List (List Poll)}
    {before after : List Pull} {last : Pull} {key bytes : Bytes} {doc : Value}
    (hconsistent : Poll.Consistent space .all groups.flatten)
    (hmade : List.Forall₂ (Pull.MadeBy expression) groups (before ++ last :: after))
    (hended : last.item = .ended) (hserved : ∀ p ∈ before, ∀ error, p.item ≠ .failure (.store error))
    (hdoc : Codec.decode bytes = .ok doc) (hmatch : expression.matches doc = true)
    (hstays : ∀ p ∈ before ++ [last], (space.view p.before.store).get? key = some bytes) :
    ∃ p ∈ before, p.item = .document doc := by
  -- what holds whenever an item is asked for holds at every poll
  obtain ⟨polls, final, later, hpolls, hfinal, hitems, hstores⟩ := exists_polls hmade
  rw [hpolls] at hconsistent
  have hunfailed : ∀ p ∈ polls, ∀ error, p.outcome ≠ .failed error := by
    intro p hp error hfailed
    obtain ⟨pull, hpull, hitem⟩ := hitems p hp _ (Poll.item?_of_failed hfailed)
    exact hserved pull hpull error hitem
  have hheld : ∀ p ∈ polls ++ [final], (space.view p.before.store).get? key = some bytes := by
    intro p hp
    obtain ⟨pull, hpull, hstore⟩ := hstores p hp
    rw [hstore]
    exact hstays pull hpull
  have hfinds : ∀ p ∈ polls ++ [final], p.Finds space key := fun p hp =>
    Option.isSome_iff_exists.2 ⟨bytes, hheld p hp⟩
  obtain ⟨p, hp, fetch, hfetch, held, hfound, hentry⟩ := hconsistent.exists_entry
    (Poll.outcome_of_ended (hended ▸ hfinal)) hunfailed rfl hfinds
  obtain rfl := Option.some.inj (hfound.symm.trans (hheld fetch (List.mem_append_left _ hfetch)))
  exact hitems p hp _ (Poll.item?_eq_document_iff.2 ⟨_, Poll.match?_of_entry hentry hdoc hmatch⟩)

/-- What a lazy query of a collection yields is consistent, whatever has happened meanwhile: between
any two polls of its scan, and, in what follows, between any two items that it is asked for. -/
structure DocumentStream.Consistent (collection : Collection) (expression : Expression)
    (steps : List StreamStep) (world : World) : Prop where
  /-- Each poll of its scan fetches one page at most. -/
  callsOnce : ∀ p ∈ StreamStep.polls steps (some (collection.cursor .all)) world.engine, p.CallsOnce
  /-- What it makes of these polls is consistent, also if it is looking for one item meanwhile. -/
  scanned : Poll.ConsistentQuery collection.space expression
    (StreamStep.polls steps (some (collection.cursor .all)) world.engine)
  /-- The items are made by the polls of a consistent stream of all entries of the collection. -/
  made : ∃ finer groups, StreamStep.Refines steps finer ∧
    StreamStep.polls finer (some (collection.cursor .all)) world.engine = groups.flatten ∧
    Poll.Consistent collection.space .all groups.flatten ∧
    List.Forall₂ (Pull.MadeBy expression) groups
      (StreamStep.pulls steps (.ofCollection collection expression) world)
  /-- When the query ends and no scan has failed it has yielded each document that matches and was
  there whenever an item was asked for. -/
  complete : ∀ before last after,
    StreamStep.pulls steps (.ofCollection collection expression) world = before ++ last :: after →
    last.item = .ended → (∀ p ∈ before, ∀ error, p.item ≠ .failure (.store error)) →
    ∀ key bytes doc, Codec.decode bytes = .ok doc → expression.matches doc = true →
    (∀ p ∈ before ++ [last], (collection.space.view p.before.store).get? key = some bytes) →
    ∃ p ∈ before, p.item = .document doc
  /-- After its end or a failed scan the query yields nothing and makes no call. -/
  afterLast : ∀ before last after,
    StreamStep.pulls steps (.ofCollection collection expression) world = before ++ last :: after →
    last.item.IsLast → ∀ p ∈ after, p.item = .ended ∧ p.after = p.before

/-- Streams of a namespace and lazy queries of a collection are consistent, whatever is called on
the store between their polls, and whichever of their own calls fail. -/
theorem Collection.streams_are_consistent (collection : Collection) {options : ScanOptions}
    (hlimit : options.limit = none) (steps : List StreamStep) (world : World) :
    Poll.Consistent collection.space options
        (StreamStep.polls steps (some (collection.cursor options)) world.engine) ∧
      ∀ expression, DocumentStream.Consistent collection expression steps world := by
  refine ⟨StreamStep.consistent_polls _ hlimit _ _ _, fun expression => ?_⟩
  have hsound : ∀ cursor, (DocumentStream.ofCollection collection expression).cursor = some cursor →
      cursor.Sound := by
    rintro _ ⟨⟩
    exact Cursor.sound_start _ _ _
  obtain ⟨finer, groups, hrefines, hpolls, hmade⟩ := StreamStep.pulls_madeBy steps world hsound
  have hconsistent : Poll.Consistent collection.space .all groups.flatten := by
    rw [← hpolls]
    exact StreamStep.consistent_polls _ rfl _ _ _
  refine ⟨StreamStep.callsOnce_of_mem_polls, (StreamStep.consistent_polls _ rfl _ _ _).query expression,
    ⟨finer, groups, hrefines, hpolls, hconsistent, hmade⟩, ?_, ?_⟩
  · intro before last after hsplit hended hserved key bytes doc hdoc hmatch hstays
    rw [hsplit] at hmade
    exact Pull.exists_document hconsistent hmade hended hserved hdoc hmatch hstays
  · exact fun before last after hsplit hlast => StreamStep.pulls_after_last hsound hsplit hlast

/-- The polls of a stream of three documents, with pages of one. After the first document has been
yielded the second is deleted, and one is stored behind the cursor. -/
def deletedAhead : List Poll :=
  StreamStep.polls
    [.poll, .call .root (.delete [2]), .call .root (.put [0] [0x30]), .poll, .poll, .poll]
    (some ((⟨.root, {}, 0⟩ : Collection).cursor .all))
    { store := [1, 2, 3].foldl (fun store n => store.insert (Namespace.root.dataKey [n]) [0x30])
        ByteMap.empty }

theorem deletedAhead_is_consistent :
    (deletedAhead.filterMap Poll.yielded?).map Entry.key = [[1], [3]] ∧
      (((deletedAhead.take 2).filterMap Poll.yielded?).map Entry.key).count [3] = 1 := by
  have hconsistent : Poll.Consistent .root .all deletedAhead :=
    (Collection.streams_are_consistent ⟨.root, {}, 0⟩ rfl _ { engine := _ }).1
  have hlength : 2 < deletedAhead.length := by decide +kernel
  have hsplit : deletedAhead = deletedAhead.take 2 ++ deletedAhead[2] :: deletedAhead.drop 3 := by
    rw [← List.drop_eq_getElem_cons hlength, List.take_append_drop]
  have hserved : ∀ p ∈ deletedAhead.take 2, p.yielded?.isSome = true := by decide +kernel
  have hstays : ∀ p ∈ deletedAhead.take 3, p.Finds .root [3] := by decide +kernel
  rw [List.take_succ_eq_append_getElem hlength] at hstays
  refine ⟨by decide +kernel, hconsistent.complete _ _ _ hsplit rfl ?_ [3] rfl hstays⟩
  intro p hp error hfailed
  have hentry := hserved p hp
  rw [Poll.yielded?, hfailed] at hentry
  cases hentry

end DocStore
