/-
How a take ends. A task that takes changes the store in one step at most, the one by which it
delivers; after that step it has only to hand back its lock and to return the document, and if it
returns anything else, it has changed nothing. Where nobody clears a namespace, what was stored in
it is either there still or has been deleted by a take.
-/
import DocStore.Proofs.Concurrent.Deliveries

namespace DocStore

/-- Whether a task is called that clears. -/
def Happening.clears : Happening → Bool
  | .call _ (.empty _ _ _) => true
  | _ => false

namespace Run

/-! ## After the delivery -/

/-- The task `i` has a document in hand: it has to hand back the lock, or it has returned. -/
def HasTaken (run : Run) (i : Nat) (space : Namespace) (doc : Value) : Prop :=
  (∃ sequence, run.tasks[i]? = some (.release sequence (.ok (.found (some doc)))) ∧
      sequence.collection.space = space ∧ sequence.exclusive = true) ∨
    run.tasks[i]? = some (.finished (.ok (.found (some doc))))

theorem Reached.hasTaken {config : Config} {run : Run} (h : Reached config run) :
    ∀ n i space key doc, run.TookAt n i space key doc → run.HasTaken i space doc := by
  apply h.invariant
  · intro world _ _ n i space key doc hn
    simp [Run.start, TookAt, StepAt] at hn
  · intro run task _ _ ih n i space key doc hn
    rcases ih n i space key doc (tookAt_called_iff.1 hn) with ⟨sequence, hi, hspace⟩ | hi
    · exact .inl ⟨sequence, task_called_iff.2 (.inl hi), hspace⟩
    · exact .inr (task_called_iff.2 (.inl hi))
  · intro run i before after shared _ htask hmoves ih n j space key doc hn
    rcases tookAt_stepped_iff.1 hn with hold | ⟨-, rfl, sequence, ⟨-, rfl⟩, rfl⟩
    · by_cases hij : j = i
      · subst hij
        rcases ih n j space key doc hold with ⟨sequence, hj, -⟩ | hj
        · rw [hj] at htask
          cases htask
          cases hmoves with
          | handBack => exact .inr ((task_stepped_iff hj).2 (.inr ⟨rfl, rfl⟩))
          | look hlook => exact hlook.elim
        · rw [hj] at htask
          cases htask
          exact absurd hmoves not_moves_finished
      · rcases ih n j space key doc hold with ⟨sequence, hj, hspace⟩ | hj
        · exact .inl ⟨sequence, (task_stepped_iff htask).2 (.inl ⟨hij, hj⟩), hspace⟩
        · exact .inr ((task_stepped_iff htask).2 (.inl ⟨hij, hj⟩))
    · have hj := task_stepped_self htask (Task.settle sequence (.ok (.found (some doc)))) shared
      by_cases hexclusive : sequence.exclusive = true
      · exact .inl ⟨sequence, hj.trans (by rw [Task.settle, if_pos hexclusive]), rfl, hexclusive⟩
      · exact .inr (hj.trans (by rw [Task.settle, if_neg hexclusive]))
  · exact fun run now ih => ih

/-- A task takes one document only. -/
theorem Reached.took_once {config : Config} {run : Run} (h : Reached config run) :
    ∀ n m i space space' key key' doc doc', run.TookAt n i space key doc →
      run.TookAt m i space' key' doc' → n = m := by
  apply h.invariant
  · intro world _ _ n m i space space' key key' doc doc' hn
    simp [Run.start, TookAt, StepAt] at hn
  · exact fun run _ _ _ ih n m i space space' key key' doc doc' hn hm =>
      ih n m i _ _ _ _ _ _ (tookAt_called_iff.1 hn) (tookAt_called_iff.1 hm)
  · intro run i before after shared hrun htask _ ih n m j space space' key key' doc doc' hn hm
    -- a task that is about to delete has not done so before
    have hnew : ∀ n space key doc sequence key' doc', run.TookAt n i space key doc →
        ¬ Task.Delivers before after sequence key' doc' := by
      rintro n space key doc sequence key' doc' hold ⟨⟨fromEnd, rfl⟩, -⟩
      rcases hrun.hasTaken n i space key doc hold with ⟨_, hi, -⟩ | hi
      · rw [htask] at hi
        cases hi
      · rw [htask] at hi
        cases hi
    rcases tookAt_stepped_iff.1 hn with hold | ⟨rfl, rfl, sequence, hdelivers, -⟩
    · rcases tookAt_stepped_iff.1 hm with hold' | ⟨-, rfl, sequence, hdelivers, -⟩
      · exact ih n m j _ _ _ _ _ _ hold hold'
      · exact absurd hdelivers (hnew n _ _ _ _ _ _ hold)
    · rcases tookAt_stepped_iff.1 hm with hold | ⟨rfl, -⟩
      · exact absurd hdelivers (hnew m _ _ _ _ _ _ hold)
      · rfl
  · exact fun run now ih => ih

/-! ## A take and its steps -/

/-- The steps of the task `i` have left the store as it was. -/
def Unchanged (run : Run) (i : Nat) : Prop :=
  ∀ (n : Nat) before after store store',
    run.past[n]? = some (.step i before after store store') → store' = store

/-- Where a take may be: it has changed nothing, or it has a document in hand that it has found in
its namespace. -/
inductive TakeStands (run : Run) (i : Nat) (sequence : Sequence) (fromEnd : End) : Task → Prop
  | take (hquiet : run.Unchanged i) : TakeStands run i sequence fromEnd (.take sequence fromEnd)
  | read (hquiet : run.Unchanged i) : TakeStands run i sequence fromEnd (.read sequence fromEnd)
  | remove {key : Bytes} {doc : Value} (hquiet : run.Unchanged i) :
    TakeStands run i sequence fromEnd (.remove sequence fromEnd key doc)
  | emptyHanded {answer : Except Error TaskAnswer} {task : Task} (hquiet : run.Unchanged i)
    (hempty : Task.IsEmptyHanded answer)
    (htask : task = .release sequence answer ∨ task = .finished answer) :
    TakeStands run i sequence fromEnd task
  | holding {n : Nat} {key : Bytes} {doc : Value} {task : Task}
    (htook : run.TookAt n i sequence.collection.space key doc)
    (htask : task = .release sequence (.ok (.found (some doc))) ∨
      task = .finished (.ok (.found (some doc)))) :
    TakeStands run i sequence fromEnd task

theorem settle_eq_or (sequence : Sequence) (answer : Except Error TaskAnswer) :
    Task.settle sequence answer = .release sequence answer ∨
      Task.settle sequence answer = .finished answer := by
  unfold Task.settle
  split
  · exact .inl rfl
  · exact .inr rfl

section
variable {run : Run} {i j : Nat} {before after : Task} {shared : Shared}

theorem unchanged_called {task : Task} : (run.called task).Unchanged i ↔ run.Unchanged i := by
  unfold Unchanged called
  simp only [getElem?_append_singleton_iff, reduceCtorEq, and_false, or_false]

theorem Unchanged.stepped (h : run.Unchanged i)
    (hstore : i = j → shared.world.engine.store = run.store) :
    (run.stepped j before after shared).Unchanged i := by
  intro n b a store store' hn
  rcases getElem?_append_singleton_iff.1 hn with hn | ⟨-, heq⟩
  · exact h n b a store store' hn
  · cases heq
    exact hstore rfl

/-- One step of a take. -/
theorem TakeStands.moves {sequence : Sequence} {fromEnd : End}
    (h : run.TakeStands i sequence fromEnd before) (hmoves : Task.Moves run.shared before after shared) :
    (run.stepped i before after shared).TakeStands i sequence fromEnd after := by
  cases h with
  | take hquiet =>
    cases hmoves with
    | enter => exact .read (hquiet.stepped fun _ => rfl)
    | look hlook => exact hlook.elim
  | read hquiet =>
    cases hmoves with
    | found _ _ hsame => exact .remove (hquiet.stepped fun _ => hsame.store)
    | missed hempty hsame =>
      exact .emptyHanded (hquiet.stepped fun _ => hsame.store) hempty (settle_eq_or _ _)
    | look hlook => exact hlook.elim
  | remove hquiet =>
    cases hmoves with
    | kept hsame =>
      exact .emptyHanded (hquiet.stepped fun _ => hsame.store) (.inr ⟨_, rfl⟩) (settle_eq_or _ _)
    | took hafter =>
      refine .holding (tookAt_stepped_iff.2 (.inr ⟨rfl, rfl, sequence, ⟨⟨fromEnd, rfl⟩, rfl⟩, rfl⟩)) ?_
      exact settle_eq_or _ _
    | look hlook => exact hlook.elim
  | emptyHanded hquiet hempty htask =>
    rcases htask with rfl | rfl
    · cases hmoves with
      | handBack => exact .emptyHanded (hquiet.stepped fun _ => rfl) hempty (.inr rfl)
      | look hlook => exact hlook.elim
    · exact absurd hmoves not_moves_finished
  | holding htook htask =>
    rcases htask with rfl | rfl
    · cases hmoves with
      | handBack => exact .holding (tookAt_stepped_iff.2 (.inl htook)) (.inr rfl)
      | look hlook => exact hlook.elim
    · exact absurd hmoves not_moves_finished

/-- What other tasks do, and calls, do not change where a take stands. -/
theorem TakeStands.mono {later : Run} {sequence : Sequence} {fromEnd : End} {task : Task}
    (h : run.TakeStands i sequence fromEnd task) (hquiet : run.Unchanged i → later.Unchanged i)
    (htook : ∀ n space key doc, run.TookAt n i space key doc → later.TookAt n i space key doc) :
    later.TakeStands i sequence fromEnd task := by
  cases h with
  | take h => exact .take (hquiet h)
  | read h => exact .read (hquiet h)
  | remove h => exact .remove (hquiet h)
  | emptyHanded h hempty htask => exact .emptyHanded (hquiet h) hempty htask
  | holding h htask => exact .holding (htook _ _ _ _ h) htask

end

/-- Every take that has been called stands in one of these places. -/
theorem Reached.takeStands {config : Config} {run : Run} (h : Reached config run) :
    ∀ n i sequence fromEnd, run.CallAt n i (.take sequence fromEnd) →
      ∃ task, run.tasks[i]? = some task ∧ run.TakeStands i sequence fromEnd task := by
  apply h.invariant
  · intro world _ _ n i sequence fromEnd hn
    simp [Run.start, CallAt] at hn
  · intro run task hrun _ ih n i sequence fromEnd hn
    rcases callAt_called_iff.1 hn with hn | ⟨-, rfl, heq⟩
    · obtain ⟨t, hi, hstands⟩ := ih n i sequence fromEnd hn
      exact ⟨t, task_called_iff.2 (.inl hi),
        hstands.mono unchanged_called.2 fun _ _ _ _ => tookAt_called_iff.2⟩
    · refine ⟨_, task_called_iff.2 (.inr ⟨rfl, heq⟩), .take (unchanged_called.2 ?_)⟩
      intro m before after store store' hm
      have := hrun.orderly.exists_task m _ before after ⟨store, store', hm⟩
      omega
  · intro run j before after shared _ htask hmoves ih n i sequence fromEnd hn
    obtain ⟨t, hi, hstands⟩ := ih n i sequence fromEnd (callAt_stepped_iff.1 hn)
    by_cases hij : i = j
    · subst hij
      rw [htask] at hi
      cases hi
      exact ⟨_, (task_stepped_iff htask).2 (.inr ⟨rfl, rfl⟩), hstands.moves hmoves⟩
    · refine ⟨t, (task_stepped_iff htask).2 (.inl ⟨hij, hi⟩), hstands.mono ?_ ?_⟩
      · exact fun hquiet => hquiet.stepped fun heq => absurd heq hij
      · exact fun _ _ _ _ htook => tookAt_stepped_iff.2 (.inl htook)
  · intro run now ih n i sequence fromEnd hn
    obtain ⟨t, hi, hstands⟩ := ih n i sequence fromEnd hn
    exact ⟨t, hi, hstands.mono id fun _ _ _ _ htook => htook⟩

/-- What a take returns it has deleted in its namespace. -/
theorem Reached.took_of_returned {config : Config} {run : Run} (h : Reached config run) {c i : Nat}
    {sequence : Sequence} {fromEnd : End} {doc : Value} (hcall : run.CallAt c i (.take sequence fromEnd))
    (hreturned : run.tasks[i]? = some (.finished (.ok (.found (some doc))))) :
    ∃ n key, run.TookAt n i sequence.collection.space key doc := by
  obtain ⟨task, hi, hstands⟩ := h.takeStands c i sequence fromEnd hcall
  rw [hreturned] at hi
  cases hi
  cases hstands with
  | emptyHanded hquiet hempty htask =>
    rcases htask with heq | heq
    · cases heq
    · cases heq
      rcases hempty with hnone | ⟨error, herror⟩
      · cases hnone
      · cases herror
  | holding htook htask =>
    rcases htask with heq | heq
    · cases heq
    · cases heq
      exact ⟨_, _, htook⟩

/-- The task `i` has returned what it has taken from under the key. -/
structure Returned (run : Run) (i : Nat) (space : Namespace) (key : Bytes) (doc : Value) : Prop where
  took : ∃ n, run.TookAt n i space key doc
  returned : run.tasks[i]? = some (.finished (.ok (.found (some doc))))

/-- What a take returns has been stored under one key. -/
theorem Reached.key_of_returned {config : Config} {run : Run} (h : Reached config run)
    (hroom : run.issued < 2 ^ 32) {c i : Nat} {sequence : Sequence} {fromEnd : End} {doc : Value}
    (hcall : run.CallAt c i (.take sequence fromEnd))
    (hreturned : run.tasks[i]? = some (.finished (.ok (.found (some doc))))) :
    ∃! key : SequenceKey, run.Returned i sequence.collection.space key.toBytes doc ∧
      ∃ n item, run.PutAt n sequence.collection.space key item ∧ ReadsBack config item doc := by
  obtain ⟨n, bytes, htook⟩ := h.took_of_returned hcall hreturned
  obtain ⟨m, key, item, -, hput, rfl, hreads⟩ := (h.traced hroom).took n i _ _ _ htook
  refine ⟨key, ⟨⟨⟨n, htook⟩, hreturned⟩, m, item, hput, hreads⟩, ?_⟩
  rintro other ⟨hother, -⟩
  obtain ⟨n', htook'⟩ := hother.took
  cases h.took_once n n' i _ _ _ _ _ _ htook htook'
  exact (SequenceKey.toBytes_inj (htook.unique htook').2).symm

/-- A take that fails has deleted nothing. -/
theorem Reached.unchanged_of_failed {config : Config} {run : Run} (h : Reached config run) {c i : Nat}
    {sequence : Sequence} {fromEnd : End} {error : Error}
    (hcall : run.CallAt c i (.take sequence fromEnd))
    (hfailed : run.tasks[i]? = some (.finished (.error error))) : run.Unchanged i := by
  obtain ⟨task, hi, hstands⟩ := h.takeStands c i sequence fromEnd hcall
  rw [hfailed] at hi
  cases hi
  cases hstands with
  | emptyHanded hquiet => exact hquiet
  | holding htook htask =>
    rcases htask with heq | heq
    · cases heq
    · cases heq

/-! ## What stays -/

/-- Nobody has been called to clear the namespace. -/
def NeverCleared (run : Run) (space : Namespace) : Prop :=
  ∀ n i collection, run.CallAt n i (.ofEmpty collection) → collection.space ≠ space

theorem neverCleared_of_all {run : Run} (h : run.past.all (fun happening => !happening.clears) = true)
    (space : Namespace) : run.NeverCleared space := by
  intro n i collection hcall
  have := List.all_eq_true.1 h _ (List.mem_of_getElem? hcall)
  cases this

/-- As the `n`th happening the task `i` deletes what is stored under a key, to deliver it. -/
def DeletedAt (run : Run) (n i : Nat) (space : Namespace) (key : Bytes) (doc : Value) : Prop :=
  ∃ before after store store' sequence, run.past[n]? = some (.step i before after store store') ∧
    Task.Delivers before after sequence key doc ∧ sequence.collection.space = space ∧
    store.get? (space.dataKey key) ≠ none ∧ store'.get? (space.dataKey key) = none

theorem DeletedAt.tookAt {run : Run} {n i : Nat} {space : Namespace} {key : Bytes} {doc : Value}
    (h : run.DeletedAt n i space key doc) : run.TookAt n i space key doc := by
  obtain ⟨before, after, store, store', sequence, hn, hdelivers, hspace, -⟩ := h
  exact ⟨before, after, sequence, ⟨store, store', hn⟩, hdelivers, hspace⟩

/-- The item is stored under the key. -/
def IsStored (config : Config) (run : Run) (space : Namespace) (key : SequenceKey) (item : Value) :
    Prop :=
  ∃ bytes, run.store.get? (space.dataKey key.toBytes) = some bytes ∧
    config.codec.encode item = .ok bytes

/-- The item is stored under the key, or a take has deleted it. -/
def StoredOrDeleted (config : Config) (run : Run) (space : Namespace) (key : SequenceKey)
    (item : Value) : Prop :=
  IsStored config run space key item ∨ ∃ n i doc, run.DeletedAt n i space key.toBytes doc

section
variable {config : Config} {run : Run} {i : Nat} {before after : Task} {shared : Shared}
  {space : Namespace} {key : SequenceKey} {item : Value}

theorem NeverCleared.of_called {task : Task} (h : (run.called task).NeverCleared space) :
    run.NeverCleared space :=
  fun n i collection hn => h n i collection (callAt_called_iff.2 (.inl hn))

theorem NeverCleared.of_stepped (h : (run.stepped i before after shared).NeverCleared space) :
    run.NeverCleared space :=
  fun n i collection hn => h n i collection (callAt_stepped_iff.2 hn)

theorem DeletedAt.append {n j : Nat} {doc : Value} {bytes : Bytes} {later : Run}
    {happening : Happening} (h : run.DeletedAt n j space bytes doc)
    (hpast : later.past = run.past ++ [happening]) : later.DeletedAt n j space bytes doc := by
  obtain ⟨b, a, store, store', sequence, hn, hrest⟩ := h
  refine ⟨b, a, store, store', sequence, ?_, hrest⟩
  rw [hpast]
  exact getElem?_append_singleton_iff.2 (.inl hn)

/-- A step keeps what is stored, unless it delivers it. -/
theorem StoredOrDeleted.stepped (h : StoredOrDeleted config run space key item)
    (hput : ∃ n, run.PutAt n space key item) (hkeyed : run.Keyed) (htraced : run.Traced config)
    (horderly : run.Orderly config) (hnever : run.NeverCleared space)
    (htask : run.tasks[i]? = some before) (hmoves : Task.Moves run.shared before after shared) :
    StoredOrDeleted config (run.stepped i before after shared) space key item := by
  obtain ⟨n, hput⟩ := hput
  have hfits := htraced.put_fits n space key item hput
  rcases h with ⟨bytes, hstored, hencode⟩ | ⟨m, j, doc, hdeleted⟩
  · have hwritten := hmoves.writes.kept_or_delivered hstored ?_ ?_
    · rcases hwritten with hkept | ⟨sequence, taken, doc, hdelivers, heq, hnone⟩
      · exact .inl ⟨bytes, hkept, hencode⟩
      · have hbefore : before.sequence? = some sequence := by
          obtain ⟨⟨_, hremove⟩, -⟩ := hdelivers
          rw [hremove]
          rfl
        have hother := (horderly.sequence htask hbefore).2.2
        obtain ⟨rfl, rfl⟩ := Namespace.dataKey_inj hfits hother heq
        refine .inr ⟨_, i, doc, before, after, _, _, sequence,
          getElem?_append_singleton_iff.2 (.inr ⟨rfl, rfl⟩), hdelivers, rfl, ?_, hnone⟩
        rw [hstored]
        exact nofun
    · -- insertions in progress have other keys
      exact fun sequence issued value hstores =>
        htraced.put_ne_put hkeyed horderly htask hstores.1 hput
    · -- and whoever clears, clears elsewhere
      intro collection taken hclears
      obtain ⟨hother, m, hcall⟩ := horderly.clears htask hclears
      exact Namespace.dataKey_ne hother hfits (Ne.symm (hnever m i collection hcall)) _ _
  · exact .inr ⟨m, j, doc, hdeleted.append rfl⟩

end

/-- Where nobody clears, whatever was stored is there or has been deleted by a take. -/
theorem Reached.storedOrDeleted {config : Config} {run : Run} (h : Reached config run)
    (hroom : run.issued < 2 ^ 32) {space : Namespace} : run.NeverCleared space →
      ∀ n key item, run.PutAt n space key item → StoredOrDeleted config run space key item := by
  apply h.invariant_within hroom
  · intro world _ _ _ n key item hn
    simp [Run.start, PutAt, StepAt] at hn
  · intro run task _ ih hnever n key item hn
    rcases ih hnever.of_called n key item (putAt_called_iff.1 hn) with hstored | ⟨m, j, doc, hdeleted⟩
    · exact .inl hstored
    · exact .inr ⟨m, j, doc, hdeleted.append rfl⟩
  · intro run i before after shared hrun hroom htask hmoves ih hnever n key item hn
    rcases putAt_stepped_iff.1 hn with hold | ⟨-, sequence, hstores, rfl⟩
    · exact (ih hnever.of_stepped n key item hold).stepped ⟨n, hold⟩ (hrun.keyed hroom)
        (hrun.traced hroom) hrun.orderly hnever.of_stepped htask hmoves
    · obtain ⟨bytes, hencode, hstored⟩ := hmoves.writes.stored hstores
      have hcodec := (hrun.orderly.sequence htask (by rw [hstores.1]; rfl)).2.1
      exact .inl ⟨bytes, hstored, hcodec ▸ hencode⟩
  · exact fun run now ih => ih

end Run

end DocStore
