/-
Removal without locks. Two tasks may find the same document before either deletes it, and then both
return it. But a task that is called after a document has been taken does not find it any more, so
the two have overlapped; and since nothing but a take deletes, a document is lost by nobody.
-/
import DocStore.Proofs.Concurrent.Takes

namespace DocStore

namespace Run

/-! ## Finding before taking -/

/-- The task `j` has made a step before anything was taken from under the key. -/
def SteppedFirst (run : Run) (j : Nat) (space : Namespace) (key : Bytes) : Prop :=
  ∃ m before after, run.StepAt m j before after ∧
    ∀ n i doc, run.TookAt n i space key doc → m < n

/-- Whoever takes, or is about to, has made a step before anybody took the same. -/
structure FoundFirst (run : Run) : Prop where
  finding : ∀ (j : Nat) sequence fromEnd key doc,
    run.tasks[j]? = some (.remove sequence fromEnd key doc) →
      run.SteppedFirst j sequence.collection.space key
  taking : ∀ n j space key doc, run.TookAt n j space key doc → run.SteppedFirst j space key

section
variable {run : Run} {j : Nat} {space : Namespace} {key : Bytes}

theorem SteppedFirst.called (h : run.SteppedFirst j space key) (task : Task) :
    (run.called task).SteppedFirst j space key := by
  obtain ⟨m, before, after, hstep, hfirst⟩ := h
  refine ⟨m, before, after, stepAt_called_iff.2 hstep, fun n i doc hn => ?_⟩
  exact hfirst n i doc (tookAt_called_iff.1 hn)

theorem SteppedFirst.stepped (h : run.SteppedFirst j space key) (i : Nat) (before after : Task)
    (shared : Shared) : (run.stepped i before after shared).SteppedFirst j space key := by
  obtain ⟨m, b, a, hstep, hfirst⟩ := h
  refine ⟨m, b, a, stepAt_stepped_iff.2 (.inl hstep), fun n k doc hn => ?_⟩
  rcases tookAt_stepped_iff.1 hn with hn | ⟨rfl, -⟩
  · exact hfirst n k doc hn
  · exact hstep.lt

end

theorem FoundFirst.called {config : Config} {run : Run} (h : run.FoundFirst) (invocation : Invocation) :
    (run.called (invocation.task config)).FoundFirst := by
  constructor
  · intro j sequence fromEnd key doc hj
    rcases task_called_iff.1 hj with hj | ⟨-, heq⟩
    · exact (h.finding j sequence fromEnd key doc hj).called _
    · exact absurd heq.symm (invocation.task_ne_remove _ _ _ _)
  · exact fun n j space key doc hn => (h.taking n j space key doc (tookAt_called_iff.1 hn)).called _

theorem FoundFirst.stepped {config : Config} {run : Run} (h : run.FoundFirst)
    (htraced : run.Traced config) {i : Nat} {before after : Task} {shared : Shared}
    (htask : run.tasks[i]? = some before) (hmoves : Task.Moves run.shared before after shared) :
    (run.stepped i before after shared).FoundFirst := by
  constructor
  · intro j sequence fromEnd key doc hj
    rcases (task_stepped_iff htask).1 hj with ⟨-, hj⟩ | ⟨rfl, rfl⟩
    · exact (h.finding j sequence fromEnd key doc hj).stepped i before after shared
    · refine ⟨_, _, _, stepAt_stepped_iff.2 (.inr ⟨rfl, rfl, rfl, rfl⟩), fun n k doc' hn => ?_⟩
      rcases tookAt_stepped_iff.1 hn with hold | ⟨-, -, other, ⟨⟨_, rfl⟩, -⟩, -⟩
      · exact absurd hmoves (htraced.not_found_again hold)
      · cases hmoves.found_of_remove.1
  · intro n j space key doc hn
    rcases tookAt_stepped_iff.1 hn with hn | ⟨-, rfl, sequence, ⟨⟨fromEnd, rfl⟩, -⟩, rfl⟩
    · exact (h.taking n j space key doc hn).stepped i before after shared
    · exact (h.finding j sequence fromEnd key doc htask).stepped j _ after shared

theorem Reached.foundFirst {config : Config} {run : Run} (h : Reached config run)
    (hroom : run.issued < 2 ^ 32) : run.FoundFirst := by
  apply h.invariant_within hroom
  · intro world _ _
    constructor <;> simp [Run.start, TookAt, StepAt]
  · exact fun run invocation _ ih => ih.called invocation
  · exact fun run i before after shared hrun hroom htask hmoves ih =>
      ih.stepped (hrun.traced hroom) htask hmoves
  · exact fun run now h => ⟨h.finding, h.taking⟩

/-! ## Overlap -/

/-- The task `i` returns before the task `j` makes its first step. -/
def ReturnedBefore (run : Run) (i j : Nat) : Prop :=
  ∃ n before answer, run.StepAt n i before (.finished answer) ∧
    ∀ m b a, run.StepAt m j b a → n < m

/-- A task that returns a document does not start after another one has returned it. -/
theorem Reached.not_returnedBefore {config : Config} {run : Run} (h : Reached config run)
    (hroom : run.issued < 2 ^ 32) {i j : Nat} {space space' : Namespace} {key : Bytes}
    {doc doc' : Value} (hi : run.Returned i space key doc) (hj : run.Returned j space' key doc') :
    ¬ run.ReturnedBefore i j := by
  rintro ⟨n, before, answer, hreturns, hstarts⟩
  obtain ⟨m, htook⟩ := hi.took
  obtain ⟨m', htook'⟩ := hj.took
  cases (h.traced hroom).space_of_took (h.keyed hroom) htook htook'
  obtain ⟨l, b, a, hstep, hfirst⟩ := (h.foundFirst hroom).taking m' j space key doc' htook'
  have hfinds : l < m := hfirst m i doc htook
  have htakes : m ≤ n := by
    obtain ⟨b, a, sequence, hstep, -⟩ := htook
    exact h.orderly.last n m i before answer b a hreturns hstep
  have hlate : n < l := hstarts l b a hstep
  omega

/-- Without locks, what has been taken has been returned. -/
theorem Reached.returned_of_took {config : Config} (hshared : config.exclusiveRemoval = false)
    {run : Run} (h : Reached config run) {n i : Nat} {space : Namespace} {key : Bytes} {doc : Value}
    (htook : run.TookAt n i space key doc) : run.Returned i space key doc := by
  rcases h.hasTaken n i space key doc htook with ⟨sequence, hi, -, hexclusive⟩ | hi
  · have hsequence := (h.orderly.sequence hi rfl).1
    rw [hexclusive, hshared] at hsequence
    cases hsequence
  · exact ⟨⟨n, htook⟩, hi⟩

/-! ## No loss -/

/-- Without exclusive removal, as long as the generator has keys to give, and whatever calls of the
store fail: where nobody clears, a document that has been stored is still there, or a task that has
returned it has deleted it; what a take returns was inserted in its namespace before the take deleted
it; and of two takes that return what was stored under one key neither has returned before the other
has started. -/
theorem shared_removal_loses_nothing {config : Config} (hshared : config.exclusiveRemoval = false)
    {run : Run} (h : Reached config run) (hroom : run.issued < 2 ^ 32) :
    (∀ space, run.NeverCleared space → ∀ n key item, run.PutAt n space key item →
      IsStored config run space key item ∨
        ∃ m i doc, run.DeletedAt m i space key.toBytes doc ∧
          run.Returned i space key.toBytes doc ∧ ReadsBack config item doc) ∧
    (∀ c i sequence fromEnd doc, run.CallAt c i (.take sequence fromEnd) →
      run.tasks[i]? = some (.finished (.ok (.found (some doc)))) →
      ∃ n key, run.TookAt n i sequence.collection.space key doc ∧
        InsertedBefore config run n sequence.collection.space key doc) ∧
    (∀ i j space space' key doc doc', run.Returned i space key doc →
      run.Returned j space' key doc' → ¬ run.ReturnedBefore i j ∧ ¬ run.ReturnedBefore j i) := by
  have htraced := h.traced hroom
  refine ⟨?_, ?_, ?_⟩
  · intro space hnever n key item hput
    rcases h.storedOrDeleted hroom hnever n key item hput with hstored | ⟨m, i, doc, hdeleted⟩
    · exact .inl hstored
    · have htook := hdeleted.tookAt
      exact .inr ⟨m, i, doc, hdeleted, h.returned_of_took hshared htook,
        htraced.doc_of_took (h.keyed hroom) hput htook⟩
  · intro c i sequence fromEnd doc hcall hreturned
    obtain ⟨n, key, htook⟩ := h.took_of_returned hcall hreturned
    exact ⟨n, key, htook, htraced.took n i _ key doc htook⟩
  · intro i j space space' key doc doc' hi hj
    exact ⟨h.not_returnedBefore hroom hi hj, h.not_returnedBefore hroom hj hi⟩

/-- One document and two takes that both read before either deletes. -/
def crossedTurns : List Turn :=
  [.call (.insert .root "a" (.int 1)), .step 0, .step 0, .call (.take .root "a" .oldest),
    .call (.take .root "a" .newest), .step 1, .step 2, .step 1, .step 2, .step 1, .step 2]

def crossed : Run := play {} crossedTurns

theorem crossed_overlap :
    crossed.Returned 1 ⟨["a"]⟩ (SequenceKey.toBytes ⟨0, 0⟩) (.int 1) ∧
      crossed.Returned 2 ⟨["a"]⟩ (SequenceKey.toBytes ⟨0, 0⟩) (.int 1) ∧
      (¬ crossed.ReturnedBefore 1 2 ∧ ¬ crossed.ReturnedBefore 2 1) := by
  have hfirst : crossed.Returned 1 ⟨["a"]⟩ (SequenceKey.toBytes ⟨0, 0⟩) (.int 1) :=
    ⟨⟨9, _, _, _, ⟨_, _, rfl⟩, ⟨⟨_, rfl⟩, rfl⟩, rfl⟩, rfl⟩
  have hsecond : crossed.Returned 2 ⟨["a"]⟩ (SequenceKey.toBytes ⟨0, 0⟩) (.int 1) :=
    ⟨⟨10, _, _, _, ⟨_, _, rfl⟩, ⟨⟨_, rfl⟩, rfl⟩, rfl⟩, rfl⟩
  exact ⟨hfirst, hsecond, (@shared_removal_loses_nothing {} rfl crossed (reached_play _ _)
    (by decide)).2.2 1 2 _ _ _ _ _ hfirst hsecond⟩

end Run

end DocStore
