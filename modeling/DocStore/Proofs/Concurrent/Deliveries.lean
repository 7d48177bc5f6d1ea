/-
What is delivered in a run. Whatever the store holds has been put there by an insertion; a task
that takes has found what it is about to delete, so what it delivers was inserted before; and a
key from under which something has been delivered is never in the store again, since no other
insertion has that key.
-/
import DocStore.Proofs.Concurrent.Keys

namespace DocStore

namespace Run

/-- As the `n`th happening the task `i` deletes what it has found under a key, to deliver it. -/
def TookAt (run : Run) (n i : Nat) (space : Namespace) (key : Bytes) (doc : Value) : Prop :=
  ∃ before after sequence, run.StepAt n i before after ∧
    Task.Delivers before after sequence key doc ∧ sequence.collection.space = space

/-- What is stored of the item reads back as `doc`. -/
def ReadsBack (config : Config) (item doc : Value) : Prop :=
  ∃ bytes, config.codec.encode item = .ok bytes ∧ Codec.decode bytes = .ok doc

/-- Before the `n`th happening an item that reads back as `doc` has been stored in the namespace
under the key. -/
def InsertedBefore (config : Config) (run : Run) (n : Nat) (space : Namespace) (key : Bytes)
    (doc : Value) : Prop :=
  ∃ m issued item, m < n ∧ run.PutAt m space issued item ∧ key = issued.toBytes ∧
    ReadsBack config item doc

/-- All that is stored, found and delivered goes back to insertions. -/
structure Traced (config : Config) (run : Run) : Prop where
  put_fits : ∀ n space key item, run.PutAt n space key item → space.Fits
  stored : ∀ raw bytes, run.store.get? raw = some bytes → ∃ n space key item,
    run.PutAt n space key item ∧ raw = space.dataKey key.toBytes ∧
      config.codec.encode item = .ok bytes
  found : ∀ (i : Nat) sequence fromEnd key doc,
    run.tasks[i]? = some (.remove sequence fromEnd key doc) →
      InsertedBefore config run run.past.length sequence.collection.space key doc
  took : ∀ n i space key doc, run.TookAt n i space key doc →
    InsertedBefore config run n space key doc
  gone : ∀ n i space key doc, run.TookAt n i space key doc →
    run.store.get? (space.dataKey key) = none

section
variable {config : Config} {run : Run} {n i j : Nat} {space : Namespace} {key : Bytes} {doc : Value}
  {b a : Task} {shared : Shared}

theorem TookAt.lt (h : run.TookAt n i space key doc) : n < run.past.length := by
  obtain ⟨before, after, sequence, h, -⟩ := h
  exact h.lt

/-- One step takes from under one key. -/
theorem TookAt.unique {space' : Namespace} {key' : Bytes} {doc' : Value}
    (h : run.TookAt n i space key doc) (h' : run.TookAt n j space' key' doc') :
    i = j ∧ key = key' := by
  obtain ⟨before, after, sequence, ⟨_, _, h⟩, ⟨⟨fromEnd, rfl⟩, -⟩, -⟩ := h
  obtain ⟨before', after', sequence', ⟨_, _, h'⟩, ⟨⟨fromEnd', rfl⟩, -⟩, -⟩ := h'
  rw [h] at h'
  cases h'
  exact ⟨rfl, rfl⟩

theorem tookAt_called_iff {task : Task} :
    (run.called task).TookAt n i space key doc ↔ run.TookAt n i space key doc := by
  unfold TookAt
  simp only [stepAt_called_iff]

theorem tookAt_stepped_iff : (run.stepped j b a shared).TookAt n i space key doc ↔
    run.TookAt n i space key doc ∨ n = run.past.length ∧ i = j ∧
      ∃ sequence, Task.Delivers b a sequence key doc ∧ sequence.collection.space = space := by
  unfold TookAt
  simp only [stepAt_stepped_iff]
  constructor
  · rintro ⟨before, after, sequence, h | ⟨hn, hi, rfl, rfl⟩, hdelivers, hspace⟩
    · exact .inl ⟨before, after, sequence, h, hdelivers, hspace⟩
    · exact .inr ⟨hn, hi, sequence, hdelivers, hspace⟩
  · rintro (⟨before, after, sequence, h, hdelivers, hspace⟩ | ⟨hn, hi, sequence, hdelivers, hspace⟩)
    · exact ⟨before, after, sequence, .inl h, hdelivers, hspace⟩
    · exact ⟨b, a, sequence, .inr ⟨hn, hi, rfl, rfl⟩, hdelivers, hspace⟩

theorem InsertedBefore.mono {later : Run} {m : Nat} (h : InsertedBefore config run n space key doc)
    (hnm : n ≤ m)
    (hput : ∀ n space key item, run.PutAt n space key item → later.PutAt n space key item) :
    InsertedBefore config later m space key doc := by
  obtain ⟨l, issued, item, hl, hput', hkey, hreads⟩ := h
  exact ⟨l, issued, item, by omega, hput _ _ _ _ hput', hkey, hreads⟩

end

namespace Traced

variable {config : Config} {run : Run} (h : run.Traced config)

include h

theorem called (invocation : Invocation) :
    (run.called (invocation.task config)).Traced config := by
  have hput : ∀ n space key item, run.PutAt n space key item →
      (run.called (invocation.task config)).PutAt n space key item :=
    fun _ _ _ _ => putAt_called_iff.2
  refine ⟨?_, ?_, ?_, ?_, ?_⟩
  · exact fun n space key item hn => h.put_fits n space key item (putAt_called_iff.1 hn)
  · intro raw bytes hraw
    obtain ⟨n, space, key, item, hn, hkey, hencode⟩ := h.stored raw bytes hraw
    exact ⟨n, space, key, item, hput _ _ _ _ hn, hkey, hencode⟩
  · intro i sequence fromEnd key doc hi
    rcases task_called_iff.1 hi with hi | ⟨-, heq⟩
    · exact (h.found i sequence fromEnd key doc hi).mono (by simp [Run.called]) hput
    · exact absurd heq.symm (invocation.task_ne_remove _ _ _ _)
  · exact fun n i space key doc hn =>
      (h.took n i space key doc (tookAt_called_iff.1 hn)).mono (Nat.le_refl _) hput
  · exact fun n i space key doc hn => h.gone n i space key doc (tookAt_called_iff.1 hn)

/-- The one insertion that has left its item under a stored key. -/
theorem stored_at {space : Namespace} (hspace : space.Fits) {key bytes : Bytes} {doc : Value}
    (hstored : run.store.get? (space.dataKey key) = some bytes)
    (hdecode : Codec.decode bytes = .ok doc) :
    InsertedBefore config run run.past.length space key doc := by
  obtain ⟨n, other, issued, item, hput, hraw, hencode⟩ := h.stored _ _ hstored
  obtain ⟨rfl, rfl⟩ := Namespace.dataKey_inj hspace (h.put_fits _ _ _ _ hput) hraw
  exact ⟨n, issued, item, hput.lt, hput, rfl, bytes, hencode, hdecode⟩

variable (hkeyed : run.Keyed) (horderly : run.Orderly config) {i : Nat} {before after : Task}
  {shared : Shared} (htask : run.tasks[i]? = some before)
  (hmoves : Task.Moves run.shared before after shared)

include hkeyed horderly htask

/-- An insertion in progress does not store under a key that has been stored under. -/
theorem put_ne_put {sequence : Sequence} {issued : SequenceKey} {value : Value}
    (hbefore : before = .place sequence value issued) {n : Nat} {space : Namespace} {key : SequenceKey}
    {item : Value} (hput : run.PutAt n space key item) :
    space.dataKey key.toBytes ≠ sequence.collection.space.dataKey issued.toBytes := by
  intro heq
  have hfits := (horderly.sequence htask (by rw [hbefore]; rfl)).2.2
  obtain ⟨-, hbytes⟩ := Namespace.dataKey_inj (h.put_fits _ _ _ _ hput) hfits heq
  cases SequenceKey.toBytes_inj hbytes
  subst hbefore
  exact hkeyed.fresh i _ _ _ htask n _ _ hput

/-- Nor under a key from under which something was taken. -/
theorem put_ne_took {sequence : Sequence} {issued : SequenceKey} {value : Value}
    (hbefore : before = .place sequence value issued) {n j : Nat} {space : Namespace} {key : Bytes}
    {doc : Value} (htook : run.TookAt n j space key doc) :
    space.dataKey key ≠ sequence.collection.space.dataKey issued.toBytes := by
  obtain ⟨m, issued', item, -, hput, rfl, -⟩ := h.took n j space key doc htook
  exact h.put_ne_put hkeyed horderly htask hbefore hput

include hmoves

theorem stepped : (run.stepped i before after shared).Traced config := by
  have hput : ∀ n space key item, run.PutAt n space key item →
      (run.stepped i before after shared).PutAt n space key item :=
    fun _ _ _ _ hn => putAt_stepped_iff.2 (.inl hn)
  refine ⟨?_, ?_, ?_, ?_, ?_⟩
  · intro n space key item hn
    rcases putAt_stepped_iff.1 hn with hn | ⟨-, sequence, ⟨rfl, -⟩, rfl⟩
    · exact h.put_fits n space key item hn
    · exact (horderly.sequence htask rfl).2.2
  · intro raw bytes hraw
    have hold : run.store.get? raw = some bytes → ∃ n space key item,
        (run.stepped i before after shared).PutAt n space key item ∧
          raw = space.dataKey key.toBytes ∧ config.codec.encode item = .ok bytes := by
      intro hraw
      obtain ⟨n, space, key, item, hn, hkey, hencode⟩ := h.stored raw bytes hraw
      exact ⟨n, space, key, item, hput _ _ _ _ hn, hkey, hencode⟩
    have hwrites := hmoves.writes
    change shared.world.engine.store.get? raw = some bytes at hraw
    generalize shared.world.engine.store = store' at hraw hwrites
    -- a deletion leaves only what was there before
    cases hwrites with
    | @put sequence key item value hstores hencode =>
      rw [ByteMap.get?_insert] at hraw
      split at hraw
      · rename_i hkey
        cases hraw
        have hcodec := (horderly.sequence htask (by rw [hstores.1]; rfl)).2.1
        exact ⟨_, _, key, item, putAt_stepped_iff.2 (.inr ⟨rfl, sequence, hstores, rfl⟩), hkey,
          hcodec ▸ hencode⟩
      · exact hold hraw
    | took => exact hold (ByteMap.get?_of_get?_erase hraw)
    | cleared => exact hold (ByteMap.get?_of_get?_erase hraw)
    | nothing => exact hold hraw
  · intro j sequence fromEnd key doc hj
    rcases (task_stepped_iff htask).1 hj with ⟨-, hj⟩ | ⟨-, rfl⟩
    · exact (h.found j sequence fromEnd key doc hj).mono (by simp [Run.stepped]) hput
    · obtain ⟨rfl, -, bytes, hstored, hdecode⟩ := hmoves.found_of_remove
      have hfits := (horderly.sequence htask rfl).2.2
      exact (h.stored_at hfits hstored hdecode).mono (by simp [Run.stepped]) hput
  · intro n j space key doc hn
    rcases tookAt_stepped_iff.1 hn with hn | ⟨rfl, rfl, sequence, ⟨⟨fromEnd, rfl⟩, -⟩, rfl⟩
    · exact (h.took n j space key doc hn).mono (Nat.le_refl _) hput
    · exact (h.found j sequence fromEnd key doc htask).mono (Nat.le_refl _) hput
  · intro n j space key doc hn
    have hwrites := hmoves.writes
    show shared.world.engine.store.get? (space.dataKey key) = none
    generalize shared.world.engine.store = store' at hwrites
    rcases tookAt_stepped_iff.1 hn with hn | ⟨-, rfl, sequence, hdelivers, rfl⟩
    · have hgone := h.gone n j space key doc hn
      cases hwrites with
      | put hstores hencode =>
        -- no insertion brings a key back
        rw [ByteMap.get?_insert_of_ne _ _ (h.put_ne_took hkeyed horderly htask hstores.1 hn)]
        exact hgone
      | took => exact ByteMap.get?_erase_eq_none hgone _
      | cleared => exact ByteMap.get?_erase_eq_none hgone _
      | nothing => exact hgone
    · obtain ⟨⟨fromEnd, rfl⟩, hafter⟩ := hdelivers
      cases hwrites with
      | put hstores => cases hstores.1
      | took hother =>
        obtain ⟨⟨_, hbefore⟩, -⟩ := hother
        cases hbefore
        exact ByteMap.get?_erase_self _ _
      | cleared hclears => cases hclears
      | nothing _ hkept => exact absurd ⟨⟨fromEnd, rfl⟩, hafter⟩ (hkept sequence key doc)

end Traced

theorem Reached.traced {config : Config} {run : Run} (h : Reached config run)
    (hroom : run.issued < 2 ^ 32) : run.Traced config := by
  apply h.invariant_within hroom
  · intro world hempty _
    refine ⟨?_, ?_, ?_, ?_, ?_⟩
    · simp [Run.start, PutAt, StepAt]
    · intro raw bytes hraw
      change world.engine.store.get? raw = some bytes at hraw
      rw [hempty] at hraw
      cases hraw
    all_goals simp [Run.start, TookAt, StepAt]
  · exact fun run invocation _ ih => ih.called invocation
  · exact fun run i before after shared hrun hroom htask hmoves ih =>
      ih.stepped (hrun.keyed hroom) hrun.orderly htask hmoves
  · exact fun run now h => ⟨h.put_fits, h.stored, h.found, h.took, h.gone⟩

/-- What has been taken is not found again. -/
theorem Traced.not_found_again {config : Config} {run : Run} (h : run.Traced config) {n i : Nat}
    {sequence : Sequence} {fromEnd : End} {key : Bytes} {doc doc' : Value} {before : Task}
    {shared : Shared} (htook : run.TookAt n i sequence.collection.space key doc) :
    ¬ Task.Moves run.shared before (.remove sequence fromEnd key doc') shared := by
  intro hmoves
  obtain ⟨-, -, bytes, hstored, -⟩ := hmoves.found_of_remove
  have hgone := h.gone n i _ key doc htook
  rw [show run.store.get? _ = _ from hstored] at hgone
  cases hgone

/-- What is taken from under a key is what was stored under it. -/
theorem Traced.doc_of_took {config : Config} {run : Run} (h : run.Traced config) (hkeyed : run.Keyed)
    {n m i : Nat} {space : Namespace} {key : SequenceKey} {item doc : Value}
    (hput : run.PutAt n space key item) (htook : run.TookAt m i space key.toBytes doc) :
    ReadsBack config item doc := by
  obtain ⟨l, issued, other, -, hother, hkey, hreads⟩ := h.took m i _ _ _ htook
  cases SequenceKey.toBytes_inj hkey
  cases hkeyed.once n l _ _ _ _ _ hput hother
  obtain ⟨-, rfl⟩ := hput.unique hother
  exact hreads

/-- What is taken from under one key is taken from one namespace. -/
theorem Traced.space_of_took {config : Config} {run : Run} (h : run.Traced config)
    (hkeyed : run.Keyed) {n m i j : Nat} {space space' : Namespace} {key : Bytes} {doc doc' : Value}
    (htook : run.TookAt n i space key doc)
    (htook' : run.TookAt m j space' key doc') : space = space' := by
  obtain ⟨k, issued, item, -, hput, rfl, -⟩ := h.took n i space key doc htook
  obtain ⟨l, issued', item', -, hput', hkey, -⟩ := h.took m j space' _ doc' htook'
  cases SequenceKey.toBytes_inj hkey
  cases hkeyed.once k l _ _ _ _ _ hput hput'
  exact (hput.unique hput').1

end Run

end DocStore
