/-
Keys in a run. The generator gives every insertion a key of its own, above all keys given before,
as long as it has given fewer than its counter has values. So no two insertions in progress have
the same key, none has a key under which something has been stored, and under a key something is
stored at most once.
-/
import DocStore.Proofs.Concurrent.Run
import DocStore.Proofs.SequenceKey

namespace DocStore

/-- Whether a key is drawn from the generator. -/
def Happening.issuesKey : Happening → Bool
  | .step _ (.insert _ _) _ _ _ => true
  | _ => false

namespace Run

/-- How many keys have been issued. -/
def issued (run : Run) : Nat := run.past.countP Happening.issuesKey

/-- An item is stored in a namespace under a key as the `n`th happening. -/
def PutAt (run : Run) (n : Nat) (space : Namespace) (key : SequenceKey) (item : Value) : Prop :=
  ∃ i before after sequence, run.StepAt n i before after ∧
    Task.Stores before after sequence key item ∧ sequence.collection.space = space

/-- No key is above the last one issued, and no key is in use twice. -/
structure Keyed (run : Run) : Prop where
  counter : SequenceKey.CounterBelow run.lastKey run.issued
  pending_le : ∀ (i : Nat) sequence item key, run.tasks[i]? = some (.place sequence item key) →
    ∃ last, run.lastKey = some last ∧ key.rank ≤ last.rank
  put_le : ∀ n space key item, run.PutAt n space key item →
    ∃ last, run.lastKey = some last ∧ key.rank ≤ last.rank
  distinct : ∀ (i j : Nat) sequence item sequence' item' key,
    run.tasks[i]? = some (.place sequence item key) →
    run.tasks[j]? = some (.place sequence' item' key) → i = j
  fresh : ∀ (i : Nat) sequence item key, run.tasks[i]? = some (.place sequence item key) →
    ∀ n space item', ¬ run.PutAt n space key item'
  once : ∀ n m space space' key item item', run.PutAt n space key item →
    run.PutAt m space' key item' → n = m

section
variable {run : Run} {n j : Nat} {space : Namespace} {key : SequenceKey} {item : Value}
  {b a : Task} {shared : Shared}

theorem PutAt.lt (h : run.PutAt n space key item) : n < run.past.length := by
  obtain ⟨i, before, after, sequence, h, -⟩ := h
  exact h.lt

/-- What is stored once is one item in one namespace. -/
theorem PutAt.unique {space' : Namespace} {item' : Value} (h : run.PutAt n space key item)
    (h' : run.PutAt n space' key item') : space = space' ∧ item = item' := by
  obtain ⟨i, before, after, sequence, ⟨_, _, h⟩, ⟨rfl, rfl⟩, rfl⟩ := h
  obtain ⟨j, before', after', sequence', ⟨_, _, h'⟩, ⟨rfl, rfl⟩, rfl⟩ := h'
  rw [h] at h'
  cases h'
  exact ⟨rfl, rfl⟩

theorem putAt_called_iff {task : Task} :
    (run.called task).PutAt n space key item ↔ run.PutAt n space key item := by
  unfold PutAt
  simp only [stepAt_called_iff]

theorem putAt_stepped_iff : (run.stepped j b a shared).PutAt n space key item ↔
    run.PutAt n space key item ∨ n = run.past.length ∧
      ∃ sequence, Task.Stores b a sequence key item ∧ sequence.collection.space = space := by
  unfold PutAt
  simp only [stepAt_stepped_iff]
  constructor
  · rintro ⟨i, before, after, sequence, h | ⟨hn, -, rfl, rfl⟩, hstores, hspace⟩
    · exact .inl ⟨i, before, after, sequence, h, hstores, hspace⟩
    · exact .inr ⟨hn, sequence, hstores, hspace⟩
  · rintro (⟨i, before, after, sequence, h, hstores, hspace⟩ | ⟨hn, sequence, hstores, hspace⟩)
    · exact ⟨i, before, after, sequence, .inl h, hstores, hspace⟩
    · exact ⟨j, b, a, sequence, .inr ⟨hn, rfl, rfl, rfl⟩, hstores, hspace⟩

theorem issued_called (run : Run) (task : Task) : (run.called task).issued = run.issued := by
  simp [issued, called, Happening.issuesKey]

theorem issued_le_stepped : run.issued ≤ (run.stepped j b a shared).issued := by
  unfold issued stepped
  rw [List.countP_append]
  exact Nat.le_add_right _ _

end

/-- What holds at the start and is kept by calls, by steps and by the clock holds as long as the
counter does not run out. -/
theorem Reached.invariant_within {config : Config} {P : Run → Prop} {run : Run}
    (h : Reached config run) (hroom : run.issued < 2 ^ 32)
    (hstart : ∀ world : World, world.engine.store = .empty → world.lastKey = none → P (Run.start world))
    (hcall : ∀ run (invocation : Invocation), Reached config run → P run →
      P (run.called (invocation.task config)))
    (hstep : ∀ run i before after shared, Reached config run → run.issued < 2 ^ 32 →
      run.tasks[i]? = some before → Task.Moves run.shared before after shared → P run →
        P (run.stepped i before after shared))
    (hclock : ∀ run now, P run → P (run.atClock now)) : P run := by
  revert hroom
  apply h.invariant
  · exact fun world hempty hfresh _ => hstart world hempty hfresh
  · intro run invocation hrun _ ih hroom
    rw [issued_called] at hroom
    exact hcall run invocation hrun (ih hroom)
  · intro run i before after shared hrun htask hmoves ih hroom
    have hbefore : run.issued < 2 ^ 32 := Nat.lt_of_le_of_lt issued_le_stepped hroom
    exact hstep run i before after shared hrun hbefore htask hmoves (ih hbefore)
  · exact fun run now ih hroom => hclock run now (ih hroom)

/-! ## One step -/

namespace Keyed

variable {run : Run} (h : run.Keyed)

include h

theorem called {task : Task} (hplace : ∀ sequence item key, task ≠ .place sequence item key) :
    (run.called task).Keyed := by
  have hpending : ∀ (i : Nat) sequence item key,
      (run.called task).tasks[i]? = some (.place sequence item key) →
        run.tasks[i]? = some (.place sequence item key) := by
    intro i sequence item key hi
    rcases task_called_iff.1 hi with hi | ⟨-, heq⟩
    · exact hi
    · exact absurd heq.symm (hplace sequence item key)
  refine ⟨?_, ?_, ?_, ?_, ?_, ?_⟩
  · rw [issued_called]
    exact h.counter
  · exact fun i sequence item key hi => h.pending_le i sequence item key (hpending _ _ _ _ hi)
  · exact fun n space key item hn => h.put_le n space key item (putAt_called_iff.1 hn)
  · exact fun i j sequence item sequence' item' key hi hj =>
      h.distinct i j sequence item sequence' item' key (hpending _ _ _ _ hi) (hpending _ _ _ _ hj)
  · exact fun i sequence item key hi n space item' hn =>
      h.fresh i sequence item key (hpending _ _ _ _ hi) n space item' (putAt_called_iff.1 hn)
  · exact fun n m space space' key item item' hn hm =>
      h.once n m space space' key item item' (putAt_called_iff.1 hn) (putAt_called_iff.1 hm)

/-- A key that is drawn is above all keys in use. -/
theorem issue {i : Nat} {sequence : Sequence} {item : Value}
    (htask : run.tasks[i]? = some (.insert sequence item)) (hroom : run.issued < 2 ^ 32) :
    (run.stepped i (.insert sequence item)
      (.place sequence item (SequenceKey.next run.lastKey run.shared.world.clock))
      { run.shared with world := run.shared.world.issued }).Keyed := by
  obtain ⟨habove, hcounter⟩ := SequenceKey.next_spec h.counter hroom run.shared.world.clock
  have hissued : (run.stepped i (.insert sequence item)
      (.place sequence item (SequenceKey.next run.lastKey run.shared.world.clock))
      { run.shared with world := run.shared.world.issued }).issued = run.issued + 1 := by
    simp [issued, stepped, Happening.issuesKey]
  have hput : ∀ n space key item', (run.stepped i (.insert sequence item)
      (.place sequence item (SequenceKey.next run.lastKey run.shared.world.clock))
      { run.shared with world := run.shared.world.issued }).PutAt n space key item' →
      run.PutAt n space key item' := by
    intro n space key item' hn
    rcases putAt_stepped_iff.1 hn with hn | ⟨-, _, ⟨heq, -⟩, -⟩
    · exact hn
    · cases heq
  -- so no key in use is the new one
  have hbelow : ∀ key : SequenceKey, (∃ last, run.lastKey = some last ∧ key.rank ≤ last.rank) →
      key.rank < (SequenceKey.next run.lastKey run.shared.world.clock).rank := by
    rintro key ⟨last, hlast, hle⟩
    exact Nat.lt_of_le_of_lt hle (habove last hlast)
  refine ⟨?_, ?_, ?_, ?_, ?_, ?_⟩
  · rw [hissued]
    exact hcounter
  · intro j sequence' item' key hj
    rcases (task_stepped_iff htask).1 hj with ⟨-, hj⟩ | ⟨-, heq⟩
    · exact ⟨_, rfl, Nat.le_of_lt (hbelow key (h.pending_le j _ _ _ hj))⟩
    · cases heq
      exact ⟨_, rfl, Nat.le_refl _⟩
  · exact fun n space key item' hn =>
      ⟨_, rfl, Nat.le_of_lt (hbelow key (h.put_le n space key item' (hput _ _ _ _ hn)))⟩
  · intro j k sequence' item' sequence'' item'' key hj hk
    rcases (task_stepped_iff htask).1 hj with ⟨-, hold⟩ | ⟨rfl, heq⟩
    · rcases (task_stepped_iff htask).1 hk with ⟨-, hold'⟩ | ⟨rfl, heq⟩
      · exact h.distinct j k _ _ _ _ key hold hold'
      · cases heq
        exact absurd (hbelow _ (h.pending_le j _ _ _ hold)) (Nat.lt_irrefl _)
    · cases heq
      rcases (task_stepped_iff htask).1 hk with ⟨-, hold⟩ | ⟨rfl, -⟩
      · exact absurd (hbelow _ (h.pending_le k _ _ _ hold)) (Nat.lt_irrefl _)
      · rfl
  · intro j sequence' item' key hj n space item'' hn
    rcases (task_stepped_iff htask).1 hj with ⟨-, hj⟩ | ⟨-, heq⟩
    · exact h.fresh j _ _ _ hj n space item'' (hput _ _ _ _ hn)
    · cases heq
      exact Nat.lt_irrefl _ (hbelow _ (h.put_le n space _ item'' (hput _ _ _ _ hn)))
  · exact fun n m space space' key item' item'' hn hm =>
      h.once n m space space' key item' item'' (hput _ _ _ _ hn) (hput _ _ _ _ hm)

/-- Any other step can only put under the key of its own task. -/
theorem other {i : Nat} {before after : Task} {shared : Shared}
    (htask : run.tasks[i]? = some before) (hlast : shared.world.lastKey = run.lastKey)
    (hinsert : ∀ sequence item, before ≠ .insert sequence item)
    (hplace : ∀ sequence item key, after ≠ .place sequence item key) :
    (run.stepped i before after shared).Keyed := by
  have hpending : ∀ (j : Nat) sequence item key,
      (run.stepped i before after shared).tasks[j]? = some (.place sequence item key) →
        j ≠ i ∧ run.tasks[j]? = some (.place sequence item key) := by
    intro j sequence item key hj
    rcases (task_stepped_iff htask).1 hj with hj | ⟨-, heq⟩
    · exact hj
    · exact absurd heq.symm (hplace sequence item key)
  have hissued : (run.stepped i before after shared).issued = run.issued := by
    have : Happening.issuesKey (.step i before after run.store shared.world.engine.store) = false := by
      unfold Happening.issuesKey
      split
      · rename_i heq
        cases heq
        exact absurd rfl (hinsert _ _)
      · rfl
    simp [issued, stepped, this]
  refine ⟨?_, ?_, ?_, ?_, ?_, ?_⟩
  · rw [hissued]
    show SequenceKey.CounterBelow shared.world.lastKey _
    rw [hlast]
    exact h.counter
  · intro j sequence item key hj
    show ∃ last, shared.world.lastKey = some last ∧ _
    rw [hlast]
    exact h.pending_le j sequence item key (hpending _ _ _ _ hj).2
  · intro n space key item hn
    show ∃ last, shared.world.lastKey = some last ∧ _
    rw [hlast]
    rcases putAt_stepped_iff.1 hn with hn | ⟨-, sequence, ⟨rfl, -⟩, -⟩
    · exact h.put_le n space key item hn
    · -- the key has been pending until now
      exact h.pending_le i sequence item key htask
  · intro j k sequence item sequence' item' key hj hk
    exact h.distinct j k _ _ _ _ key (hpending _ _ _ _ hj).2 (hpending _ _ _ _ hk).2
  · intro j sequence item key hj n space item' hn
    obtain ⟨hne, hold⟩ := hpending _ _ _ _ hj
    rcases putAt_stepped_iff.1 hn with hn | ⟨-, sequence', ⟨rfl, -⟩, -⟩
    · exact h.fresh j _ _ _ hold n space item' hn
    · exact hne (h.distinct j i _ _ _ _ key hold htask)
  · intro n m space space' key item item' hn hm
    rcases putAt_stepped_iff.1 hn with hold | ⟨rfl, sequence, ⟨rfl, -⟩, -⟩
    · rcases putAt_stepped_iff.1 hm with hold' | ⟨-, sequence', ⟨rfl, -⟩, -⟩
      · exact h.once n m space space' key item item' hold hold'
      · exact absurd hold (h.fresh i _ _ _ htask n space item)
    · rcases putAt_stepped_iff.1 hm with hold | ⟨rfl, -⟩
      · exact absurd hold (h.fresh i _ _ _ htask m space' item')
      · rfl

end Keyed

/-! ## Every run -/

theorem Reached.keyed {config : Config} {run : Run} (h : Reached config run)
    (hroom : run.issued < 2 ^ 32) : run.Keyed := by
  apply h.invariant_within hroom
  · intro world _ hfresh
    refine ⟨?_, ?_, ?_, ?_, ?_, ?_⟩
    · show SequenceKey.CounterBelow world.lastKey _
      rw [hfresh]
      exact SequenceKey.counterBelow_none _
    all_goals simp [Run.start, PutAt, StepAt]
  · exact fun run invocation _ ih => ih.called invocation.task_ne_place
  · intro run i before after shared _ hroom htask hmoves ih
    rcases hmoves.draws_or_not with ⟨sequence, item, rfl, rfl, rfl⟩ | ⟨hlast, hinsert, hplace⟩
    · exact ih.issue htask hroom
    · exact ih.other htask hlast hinsert hplace
  · exact fun run now h => ⟨h.counter, h.pending_le, h.put_le, h.distinct, h.fresh, h.once⟩

end Run

end DocStore
