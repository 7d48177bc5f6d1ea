/-
What one step of a task can do. A step draws a key, or stores an item under the key drawn before,
or takes the lock, or finds an entry that is stored at that moment, or deletes what was found, or
hands back the lock; or a clearing deletes a key it has met. Every other step writes nothing, and
so does every step that fails.
-/
import DocStore.Concurrent.Task
import DocStore.Proofs.Collection.Documents

namespace DocStore.Task

/-! ## Steps -/

/-- The sequence that a task works on. -/
def sequence? : Task → Option Sequence
  | insert sequence _ => some sequence
  | place sequence _ _ => some sequence
  | peek sequence _ => some sequence
  | take sequence _ => some sequence
  | read sequence _ => some sequence
  | remove sequence _ _ _ => some sequence
  | release sequence _ => some sequence
  | _ => none

/-- The collection that a task clears. -/
def clears? : Task → Option Collection
  | empty collection _ _ => some collection
  | erase collection _ _ _ => some collection
  | _ => none

/-- Whether a task only looks, or clears. -/
def IsLooking : Task → Prop
  | peek _ _ => True
  | query _ _ _ => True
  | empty _ _ _ => True
  | erase _ _ _ _ => True
  | _ => False

/-- The task works on nothing that the earlier one did not work on. -/
structure Continues (earlier task : Task) : Prop where
  sequence : ∀ sequence, task.sequence? = some sequence → earlier.sequence? = some sequence
  clears : ∀ collection, task.clears? = some collection → earlier.clears? = some collection

theorem Continues.refl (task : Task) : task.Continues task := ⟨fun _ h => h, fun _ h => h⟩

theorem Continues.trans {a b c : Task} (hab : a.Continues b) (hbc : b.Continues c) : a.Continues c :=
  ⟨fun s h => hab.sequence s (hbc.sequence s h), fun s h => hab.clears s (hbc.clears s h)⟩

theorem continues_finished (task : Task) (answer : Except Error TaskAnswer) :
    task.Continues (finished answer) :=
  ⟨fun _ h => (by cases h), fun _ h => (by cases h)⟩

/-- The answer that nothing was taken: there was nothing, or a failure. -/
def IsEmptyHanded (answer : Except Error TaskAnswer) : Prop :=
  answer = .ok (.found none) ∨ ∃ error, answer = .error error

/-- The steps of a task, with all they can change. -/
inductive Moves (shared : Shared) : Task → Task → Shared → Prop
  | issue {sequence : Sequence} {item : Value} :
    Moves shared (insert sequence item)
      (place sequence item (SequenceKey.next shared.world.lastKey shared.world.clock))
      { shared with world := shared.world.issued }
  | put {sequence : Sequence} {item : Value} {key : SequenceKey} {bytes : Bytes} {world : World}
    (hencode : sequence.collection.codec.encode item = .ok bytes)
    (hafter : shared.world.Became (shared.world.engine.store.insert
      (sequence.collection.space.dataKey key.toBytes) bytes) world) :
    Moves shared (place sequence item key) (finished (.ok (.inserted item))) { shared with world }
  | refused {sequence : Sequence} {item : Value} {key : SequenceKey} {error : Error} {world : World}
    (hsame : shared.world.Unwritten world) :
    Moves shared (place sequence item key) (finished (.error error)) { shared with world }
  | enter {sequence : Sequence} {fromEnd : End}
    (hfree : sequence.exclusive = true → lock sequence ∉ shared.held) :
    Moves shared (take sequence fromEnd) (read sequence fromEnd)
      { shared with held := if sequence.exclusive then lock sequence :: shared.held else shared.held }
  | found {sequence : Sequence} {fromEnd : End} {key bytes : Bytes} {item : Value} {world : World}
    (hstored : shared.world.engine.store.get? (sequence.collection.space.dataKey key) = some bytes)
    (hdecode : Codec.decode bytes = .ok item) (hsame : shared.world.Unwritten world) :
    Moves shared (read sequence fromEnd) (remove sequence fromEnd key item) { shared with world }
  | missed {sequence : Sequence} {fromEnd : End} {answer : Except Error TaskAnswer} {world : World}
    (hempty : IsEmptyHanded answer) (hsame : shared.world.Unwritten world) :
    Moves shared (read sequence fromEnd) (settle sequence answer) { shared with world }
  | kept {sequence : Sequence} {fromEnd : End} {key : Bytes} {item : Value} {error : Error}
    {world : World} (hsame : shared.world.Unwritten world) :
    Moves shared (remove sequence fromEnd key item) (settle sequence (.error error))
      { shared with world }
  | took {sequence : Sequence} {fromEnd : End} {key : Bytes} {item : Value} {world : World}
    (hafter : shared.world.Became
      (shared.world.engine.store.erase (sequence.collection.space.dataKey key)) world) :
    Moves shared (remove sequence fromEnd key item) (settle sequence (.ok (.found (some item))))
      { shared with world }
  | handBack {sequence : Sequence} {answer : Except Error TaskAnswer} :
    Moves shared (release sequence answer) (finished answer)
      { shared with held := shared.held.erase (lock sequence) }
  | cleared {collection : Collection} {cursor : Cursor} {removed : Nat} {key : Bytes} {world : World}
    (hafter : shared.world.Became
      (shared.world.engine.store.erase (collection.space.dataKey key)) world) :
    Moves shared (erase collection cursor removed key) (empty collection cursor (removed + 1))
      { shared with world }
  | look {before after : Task} {world : World} (hbefore : before.IsLooking)
    (hafter : after.IsLooking ∨ ∃ answer, after = finished answer) (hcontinues : before.Continues after)
    (hsame : shared.world.Unwritten world) : Moves shared before after { shared with world }

section
variable {α : Type} {shared : Shared} {operation : Op α} {next : α → Task}
  {failed : Except Error TaskAnswer → Task} {world : World}

theorem after_ok {answer : α} (h : operation shared.world = .ok answer world) :
    after shared operation next failed = (next answer, { shared with world }) := by
  unfold after
  rw [h]

theorem after_error {error : Error} (h : operation shared.world = .error error world) :
    after shared operation next failed = (failed (.error error), { shared with world }) := by
  unfold after
  rw [h]

/-- A task that looks by an operation that writes nothing goes on looking or is finished. -/
theorem moves_of_keeps {before task : Task} {shared' : Shared}
    (h : some (after shared operation next .finished) = some (task, shared'))
    (hbefore : before.IsLooking) (hkeeps : Keeps World.Unwritten operation)
    (hnext : ∀ answer, ((next answer).IsLooking ∨ ∃ last, next answer = finished last) ∧
      before.Continues (next answer)) :
    Moves shared before task shared' := by
  cases hrun : operation shared.world with
  | ok answer world =>
    rw [after_ok hrun] at h
    cases h
    exact .look hbefore (hnext answer).1 (hnext answer).2 (hkeeps.of_ok hrun)
  | error error world =>
    rw [after_error hrun] at h
    cases h
    exact .look hbefore (.inr ⟨_, rfl⟩) (continues_finished _ _) (hkeeps.of_error hrun)

end

theorem keeps_nextDocument (cursor : Cursor) : Keeps World.Unwritten (nextDocument cursor) := by
  refine Keeps.bind (Op.unwritten_access cursor.keeps_next) fun step => ?_
  split
  · exact Keeps.bind (Op.keeps_coded _) fun _ => Keeps.pure _
  · exact Keeps.pure _

theorem keeps_nextKey (collection : Collection) (cursor : Cursor) (removed : Nat) :
    Keeps World.Unwritten (nextKey collection cursor removed) := by
  refine Keeps.bind (Op.unwritten_access cursor.keeps_next) fun step => ?_
  split
  · exact Keeps.pure _
  · exact Keeps.bind (Op.unwritten_report _) fun _ => Keeps.pure _

/-- A step moves in one of these ways. -/
theorem moves_of_step {task next : Task} {shared shared' : Shared}
    (h : task.step shared = some (next, shared')) : Moves shared task next shared' := by
  cases task with
  | insert sequence item =>
    cases h
    exact .issue
  | place sequence item key =>
    have hspec := sequence.store_spec shared.world key item
    cases hstore : sequence.store key item shared.world with
    | error error world =>
      rw [step, after_error hstore] at h
      cases h
      rw [hstore] at hspec
      cases hspec with
      | refused hencode => exact .refused (refl_of World.Unwritten _)
      | fault hencode hfaults hsame => exact .refused hsame
    | ok answer world =>
      rw [step, after_ok hstore] at h
      cases h
      rw [hstore] at hspec
      cases hspec with
      | stored hencode hafter => exact .put hencode hafter
  | peek sequence fromEnd =>
    refine moves_of_keeps h trivial (sequence.unwritten_peek fromEnd) fun answer => ?_
    exact ⟨.inr ⟨_, rfl⟩, continues_finished _ _⟩
  | take sequence fromEnd =>
    have hmoves := @Moves.enter shared sequence fromEnd
    by_cases hexclusive : sequence.exclusive = true
    · rw [step, if_pos hexclusive] at h
      rw [if_pos hexclusive] at hmoves
      split at h
      · cases h
      · rename_i hfree
        cases h
        exact hmoves fun _ => hfree
    · rw [step, if_neg hexclusive] at h
      rw [if_neg hexclusive] at hmoves
      cases h
      exact hmoves fun h => absurd h hexclusive
  | read sequence fromEnd =>
    have hsame := sequence.collection.unwritten_first fromEnd
    have hspec := sequence.collection.first_spec shared.world fromEnd
    cases hfirst : sequence.collection.first fromEnd shared.world with
    | error error world =>
      rw [step, after_error hfirst] at h
      cases h
      exact .missed (.inr ⟨error, rfl⟩) (hsame.of_error hfirst)
    | ok found world =>
      rw [step, after_ok hfirst] at h
      cases h
      rw [hfirst] at hspec
      cases hspec with
      | nothing hnone => exact .missed (.inl rfl) (hsame.of_ok hfirst)
      | found hend hdecode =>
        refine .found ?_ hdecode (hsame.of_ok hfirst)
        rw [← Namespace.get?_view, ByteMap.get?_eq_some_iff]
        exact End.mem_of_pick hend
  | remove sequence fromEnd key item =>
    have hspec := sequence.remove_spec shared.world fromEnd key item
    cases hremove : sequence.remove fromEnd key item shared.world with
    | error error world =>
      rw [step, after_error hremove] at h
      cases h
      rw [hremove] at hspec
      cases hspec with
      | fault hfaults hsame => exact .kept hsame
    | ok answer world =>
      rw [step, after_ok hremove] at h
      cases h
      rw [hremove] at hspec
      cases hspec with
      | erased hafter => exact .took hafter
  | release sequence answer =>
    cases h
    exact .handBack
  | query expression cursor found =>
    refine moves_of_keeps h trivial (keeps_nextDocument cursor) fun answer => ?_
    cases answer with
    | none => exact ⟨.inr ⟨_, rfl⟩, continues_finished _ _⟩
    | some found => exact ⟨.inl trivial, ⟨fun _ h => (by cases h), fun _ h => (by cases h)⟩⟩
  | empty collection cursor removed =>
    refine moves_of_keeps h trivial (keeps_nextKey collection cursor removed) fun answer => ?_
    cases answer with
    | none => exact ⟨.inr ⟨_, rfl⟩, continues_finished _ _⟩
    | some found => exact ⟨.inl trivial, ⟨fun _ h => (by cases h), fun _ h => h⟩⟩
  | erase collection cursor removed key =>
    have hspec := collection.delete_spec shared.world key
    cases hdelete : collection.delete key shared.world with
    | error error world =>
      rw [step, after_error hdelete] at h
      cases h
      rw [hdelete] at hspec
      cases hspec with
      | fault hfaults hsame => exact .look trivial (.inr ⟨_, rfl⟩) (continues_finished _ _) hsame
    | ok answer world =>
      rw [step, after_ok hdelete] at h
      cases h
      rw [hdelete] at hspec
      cases hspec with
      | erased hafter => exact .cleared hafter
  | finished answer => cases h

/-! ## What a step leaves alone -/

theorem continues_settle (sequence : Sequence) (answer : Except Error TaskAnswer) {task : Task}
    (h : task.sequence? = some sequence) : task.Continues (settle sequence answer) := by
  unfold settle
  split
  · refine ⟨fun s hs => ?_, fun _ hc => by cases hc⟩
    cases hs
    exact h
  · exact continues_finished _ _

/-- A task goes on with the sequence or the clearing it has begun with. -/
theorem Moves.continues {shared shared' : Shared} {before after : Task}
    (h : Moves shared before after shared') : before.Continues after := by
  cases h with
  | issue => exact ⟨fun _ h => h, fun _ h => by cases h⟩
  | put => exact continues_finished _ _
  | refused => exact continues_finished _ _
  | enter => exact ⟨fun _ h => h, fun _ h => by cases h⟩
  | found => exact ⟨fun _ h => h, fun _ h => by cases h⟩
  | missed => exact continues_settle _ _ rfl
  | kept => exact continues_settle _ _ rfl
  | took => exact continues_settle _ _ rfl
  | handBack => exact continues_finished _ _
  | cleared => exact ⟨fun _ h => (by cases h), fun _ h => h⟩
  | look _ _ hcontinues => exact hcontinues

theorem settle_ne_place (other sequence : Sequence) (answer : Except Error TaskAnswer) (item : Value)
    (key : SequenceKey) : settle other answer ≠ place sequence item key := by
  unfold settle
  split <;> exact nofun

theorem settle_ne_remove (other sequence : Sequence) (answer : Except Error TaskAnswer) (fromEnd : End)
    (key : Bytes) (item : Value) : settle other answer ≠ remove sequence fromEnd key item := by
  unfold settle
  split <;> exact nofun

theorem settle_inj {sequence : Sequence} {answer other : Except Error TaskAnswer}
    (h : settle sequence answer = settle sequence other) : answer = other := by
  unfold settle at h
  split at h
  · cases h; rfl
  · cases h; rfl

/-- A step draws a key for an item to be stored, or leaves the generator alone and no task about to
store. -/
theorem Moves.draws_or_not {shared shared' : Shared} {before after : Task}
    (h : Moves shared before after shared') :
    (∃ sequence item, before = insert sequence item ∧
        after = place sequence item (SequenceKey.next shared.world.lastKey shared.world.clock) ∧
        shared' = { shared with world := shared.world.issued }) ∨
      shared'.world.lastKey = shared.world.lastKey ∧ (∀ sequence item, before ≠ insert sequence item) ∧
        ∀ sequence item key, after ≠ place sequence item key := by
  cases h with
  | issue => exact .inl ⟨_, _, rfl, rfl, rfl⟩
  | put hencode hafter => exact .inr ⟨hafter.lastKey, nofun, nofun⟩
  | refused hsame => exact .inr ⟨hsame.lastKey, nofun, nofun⟩
  | enter => exact .inr ⟨rfl, nofun, nofun⟩
  | found _ _ hsame => exact .inr ⟨hsame.lastKey, nofun, nofun⟩
  | missed _ hsame => exact .inr ⟨hsame.lastKey, nofun, fun _ _ _ => settle_ne_place _ _ _ _ _⟩
  | kept hsame => exact .inr ⟨hsame.lastKey, nofun, fun _ _ _ => settle_ne_place _ _ _ _ _⟩
  | took hafter => exact .inr ⟨hafter.lastKey, nofun, fun _ _ _ => settle_ne_place _ _ _ _ _⟩
  | handBack => exact .inr ⟨rfl, nofun, nofun⟩
  | cleared hafter => exact .inr ⟨hafter.lastKey, nofun, nofun⟩
  | look hbefore hafter _ hsame =>
    refine .inr ⟨hsame.lastKey, ?_, ?_⟩
    · rintro sequence item rfl
      exact hbefore
    · rintro sequence item key rfl
      rcases hafter with hafter | ⟨answer, hafter⟩
      · exact hafter
      · cases hafter

/-- A task is about to remove only what it has just found in the store. -/
theorem Moves.found_of_remove {shared shared' : Shared} {before : Task} {sequence : Sequence}
    {fromEnd : End} {key : Bytes} {item : Value}
    (h : Moves shared before (remove sequence fromEnd key item) shared') :
    before = read sequence fromEnd ∧ shared'.world.engine.store = shared.world.engine.store ∧
      ∃ bytes, shared.world.engine.store.get? (sequence.collection.space.dataKey key) = some bytes ∧
        Codec.decode bytes = .ok item := by
  generalize hafter : remove sequence fromEnd key item = after at h
  cases h with
  | found hstored hdecode hsame =>
    cases hafter
    exact ⟨rfl, hsame.store, _, hstored, hdecode⟩
  | missed => exact absurd hafter.symm (settle_ne_remove _ _ _ _ _ _)
  | kept => exact absurd hafter.symm (settle_ne_remove _ _ _ _ _ _)
  | took => exact absurd hafter.symm (settle_ne_remove _ _ _ _ _ _)
  | look _ hlook =>
    subst hafter
    rcases hlook with hlook | ⟨answer, hlook⟩
    · exact hlook.elim
    · cases hlook
  | _ => cases hafter

/-- The step stores the item of its task. -/
def Stores (before after : Task) (sequence : Sequence) (key : SequenceKey) (item : Value) : Prop :=
  before = place sequence item key ∧ after = finished (.ok (.inserted item))

/-- The step deletes what its task has found, to deliver it. -/
def Delivers (before after : Task) (sequence : Sequence) (key : Bytes) (item : Value) : Prop :=
  (∃ fromEnd, before = remove sequence fromEnd key item) ∧
    after = settle sequence (.ok (.found (some item)))

/-- A step stores an item under its key, or delivers and deletes, or clears, or leaves the store as
it is. -/
inductive Writes (store : ByteMap) (before after : Task) : ByteMap → Prop
  | put {sequence : Sequence} {key : SequenceKey} {item : Value} {bytes : Bytes}
    (hstores : Stores before after sequence key item)
    (hencode : sequence.collection.codec.encode item = .ok bytes) :
    Writes store before after (store.insert (sequence.collection.space.dataKey key.toBytes) bytes)
  | took {sequence : Sequence} {key : Bytes} {item : Value}
    (hdelivers : Delivers before after sequence key item) :
    Writes store before after (store.erase (sequence.collection.space.dataKey key))
  | cleared {collection : Collection} {key : Bytes} (hclears : before.clears? = some collection) :
    Writes store before after (store.erase (collection.space.dataKey key))
  | nothing (hunstored : ∀ sequence key item, ¬ Stores before after sequence key item)
    (hkept : ∀ sequence key item, ¬ Delivers before after sequence key item) :
    Writes store before after store

/-- A task that is at neither of the two steps that write for a sequence writes nothing. -/
theorem Writes.of_ne {store : ByteMap} {before after : Task}
    (hplace : ∀ sequence item key, before ≠ place sequence item key)
    (hremove : ∀ sequence fromEnd key item, before ≠ remove sequence fromEnd key item) :
    Writes store before after store :=
  .nothing (fun _ _ _ h => hplace _ _ _ h.1) fun _ _ _ ⟨⟨_, h⟩, _⟩ => hremove _ _ _ _ h

/-- The step that stores an item leaves what is stored of it in the store. -/
theorem Writes.stored {store later : ByteMap} {before after : Task} (h : Writes store before after later)
    {sequence : Sequence} {key : SequenceKey} {item : Value}
    (hstores : Stores before after sequence key item) :
    ∃ bytes, sequence.collection.codec.encode item = .ok bytes ∧
      later.get? (sequence.collection.space.dataKey key.toBytes) = some bytes := by
  obtain ⟨rfl, rfl⟩ := hstores
  cases h with
  | put hstores hencode =>
    cases hstores.1
    exact ⟨_, hencode, ByteMap.get?_insert_self _ _ _⟩
  | took hdelivers =>
    obtain ⟨⟨_, hbefore⟩, -⟩ := hdelivers
    cases hbefore
  | cleared hclears => cases hclears
  | nothing hunstored => exact absurd ⟨rfl, rfl⟩ (hunstored sequence key item)

/-- What is stored stays, unless it is stored over, cleared or delivered. -/
theorem Writes.kept_or_delivered {store later : ByteMap} {before after : Task}
    (h : Writes store before after later) {raw bytes : Bytes} (hstored : store.get? raw = some bytes)
    (hput : ∀ sequence key item, Stores before after sequence key item →
      raw ≠ sequence.collection.space.dataKey key.toBytes)
    (hclear : ∀ collection key, before.clears? = some collection → raw ≠ collection.space.dataKey key) :
    later.get? raw = some bytes ∨ ∃ sequence key doc, Delivers before after sequence key doc ∧
      raw = sequence.collection.space.dataKey key ∧ later.get? raw = none := by
  cases h with
  | put hstores =>
    rw [ByteMap.get?_insert_of_ne _ _ (hput _ _ _ hstores)]
    exact .inl hstored
  | @took sequence key doc hdelivers =>
    by_cases heq : raw = sequence.collection.space.dataKey key
    · refine .inr ⟨sequence, key, doc, hdelivers, heq, ?_⟩
      rw [heq]
      exact ByteMap.get?_erase_self _ _
    · rw [ByteMap.get?_erase_of_ne _ heq]
      exact .inl hstored
  | cleared hclears =>
    rw [ByteMap.get?_erase_of_ne _ (hclear _ _ hclears)]
    exact .inl hstored
  | nothing => exact .inl hstored

theorem Moves.writes {shared shared' : Shared} {before after : Task}
    (h : Moves shared before after shared') :
    Writes shared.world.engine.store before after shared'.world.engine.store := by
  cases h with
  | put hencode hafter =>
    rw [hafter.store]
    exact .put ⟨rfl, rfl⟩ hencode
  | took hafter =>
    rw [hafter.store]
    exact .took ⟨⟨_, rfl⟩, rfl⟩
  | cleared hafter =>
    rw [hafter.store]
    exact .cleared rfl
  | issue => exact .of_ne nofun nofun
  | enter => exact .of_ne nofun nofun
  | handBack => exact .of_ne nofun nofun
  | found _ _ hsame =>
    rw [hsame.store]
    exact .of_ne nofun nofun
  | missed _ hsame =>
    rw [hsame.store]
    exact .of_ne nofun nofun
  | refused hsame =>
    rw [hsame.store]
    refine .nothing (fun _ _ _ ⟨_, hafter⟩ => ?_) fun _ _ _ ⟨⟨_, hbefore⟩, _⟩ => ?_
    · cases hafter
    · cases hbefore
  | kept hsame =>
    rw [hsame.store]
    refine .nothing (fun _ _ _ ⟨hbefore, _⟩ => ?_) fun _ _ _ ⟨⟨_, hbefore⟩, hafter⟩ => ?_
    · cases hbefore
    · cases hbefore
      cases settle_inj hafter
  | look hbefore _ _ hsame =>
    rw [hsame.store]
    refine .of_ne ?_ ?_
    · rintro sequence item key rfl
      exact hbefore
    · rintro sequence fromEnd key item rfl
      exact hbefore

/-! ## Locks -/

/-- The lock that a task holds. -/
def holds? : Task → Option Bytes
  | read sequence _ => if sequence.exclusive then some (lock sequence) else none
  | remove sequence _ _ _ => if sequence.exclusive then some (lock sequence) else none
  | release sequence _ => some (lock sequence)
  | _ => none

theorem holds?_settle (sequence : Sequence) (answer : Except Error TaskAnswer) :
    (settle sequence answer).holds? = if sequence.exclusive then some (lock sequence) else none := by
  unfold settle
  split <;> rfl

theorem IsLooking.holds? {task : Task} (h : task.IsLooking) : task.holds? = none := by
  cases task <;> first | rfl | exact h.elim

/-- A step leaves all locks as they are, or takes one that is free, or hands its own back. -/
theorem Moves.locks {shared shared' : Shared} {before after : Task}
    (h : Moves shared before after shared') :
    after.holds? = before.holds? ∧ shared'.held = shared.held ∨
      (∃ stem, before.holds? = none ∧ after.holds? = some stem ∧ stem ∉ shared.held ∧
        shared'.held = stem :: shared.held) ∨
      ∃ stem, before.holds? = some stem ∧ after.holds? = none ∧
        shared'.held = shared.held.erase stem := by
  cases h with
  | @enter sequence fromEnd hfree =>
    by_cases hexclusive : sequence.exclusive = true
    · exact .inr (.inl ⟨lock sequence, rfl, if_pos hexclusive, hfree hexclusive, if_pos hexclusive⟩)
    · exact .inl ⟨if_neg hexclusive, if_neg hexclusive⟩
  | handBack => exact .inr (.inr ⟨_, rfl, rfl, rfl⟩)
  | missed => exact .inl ⟨holds?_settle _ _, rfl⟩
  | kept => exact .inl ⟨holds?_settle _ _, rfl⟩
  | took => exact .inl ⟨holds?_settle _ _, rfl⟩
  | look hbefore hafter =>
    refine .inl ⟨?_, rfl⟩
    rw [hbefore.holds?]
    rcases hafter with hafter | ⟨answer, rfl⟩
    · exact hafter.holds?
    · rfl
  | _ => exact .inl ⟨rfl, rfl⟩

end DocStore.Task
