/-
Exclusive removal delivers at most once. A task that takes from an exclusive sequence holds the
lock of the namespace from before it reads until after it has deleted, so nobody else delivers
what it has found; and what has been delivered is not found again. Hence a document is returned by
one take at most, and where nobody clears, it is in one place: stored, in the hands of the holder
of the lock, or returned.
-/
import DocStore.Proofs.Concurrent.Takes

namespace DocStore

namespace Run

/-! ## Locks -/

/-- The locks that tasks hold are taken, and by one task each. -/
structure Locked (run : Run) : Prop where
  held : ∀ (i : Nat) task stem, run.tasks[i]? = some task → task.holds? = some stem →
    stem ∈ run.shared.held
  one : ∀ (i j : Nat) task other stem, run.tasks[i]? = some task → run.tasks[j]? = some other →
    task.holds? = some stem → other.holds? = some stem → i = j

theorem Locked.stepped {run : Run} (h : run.Locked) {i : Nat} {before after : Task} {shared : Shared}
    (htask : run.tasks[i]? = some before) (hmoves : Task.Moves run.shared before after shared) :
    (run.stepped i before after shared).Locked := by
  rcases hmoves.locks with ⟨hsame, hheld⟩ | ⟨stem, hnone, htaken, hfree, hheld⟩ |
    ⟨stem, hold, hnone, hheld⟩
  · -- every task holds what it held
    have hbefore : ∀ (j : Nat) task, (run.stepped i before after shared).tasks[j]? = some task →
        ∃ task', run.tasks[j]? = some task' ∧ task'.holds? = task.holds? := by
      intro j task hj
      rcases (task_stepped_iff htask).1 hj with ⟨-, hj⟩ | ⟨rfl, rfl⟩
      · exact ⟨task, hj, rfl⟩
      · exact ⟨before, htask, hsame.symm⟩
    constructor
    · intro j task stem hj hholds
      obtain ⟨task', hj, hsame⟩ := hbefore j task hj
      show stem ∈ shared.held
      rw [hheld]
      exact h.held j task' stem hj (hsame.trans hholds)
    · intro j k task other stem hj hk hholds hother
      obtain ⟨task', hj, hsame⟩ := hbefore j task hj
      obtain ⟨other', hk, hsame'⟩ := hbefore k other hk
      exact h.one j k task' other' stem hj hk (hsame.trans hholds) (hsame'.trans hother)
  · -- the lock that is taken was held by nobody
    have hothers : ∀ (j : Nat) task, run.tasks[j]? = some task → task.holds? ≠ some stem :=
      fun j task hj hholds => hfree (h.held j task stem hj hholds)
    constructor
    · intro j task stem' hj hholds
      show stem' ∈ shared.held
      rw [hheld]
      rcases (task_stepped_iff htask).1 hj with ⟨-, hj⟩ | ⟨rfl, rfl⟩
      · exact List.mem_cons_of_mem _ (h.held j task stem' hj hholds)
      · rw [htaken] at hholds
        cases hholds
        exact List.mem_cons_self
    · intro j k task other stem' hj hk hholds hother
      rcases (task_stepped_iff htask).1 hj with ⟨-, hold⟩ | ⟨rfl, rfl⟩
      · rcases (task_stepped_iff htask).1 hk with ⟨-, hk⟩ | ⟨rfl, rfl⟩
        · exact h.one j k task other stem' hold hk hholds hother
        · rw [htaken] at hother
          cases hother
          exact absurd hholds (hothers j task hold)
      · rcases (task_stepped_iff htask).1 hk with ⟨-, hk⟩ | ⟨rfl, -⟩
        · rw [htaken] at hholds
          cases hholds
          exact absurd hother (hothers k other hk)
        · rfl
  · -- the lock that is handed back is held by nobody else
    constructor
    · intro j task stem' hj hholds
      show stem' ∈ shared.held
      rw [hheld]
      rcases (task_stepped_iff htask).1 hj with ⟨hne, hj⟩ | ⟨rfl, rfl⟩
      · have hstem : stem' ≠ stem := by
          rintro rfl
          exact hne (h.one j i task before stem' hj htask hholds hold)
        exact (List.mem_erase_of_ne hstem).2 (h.held j task stem' hj hholds)
      · rw [hnone] at hholds
        cases hholds
    · intro j k task other stem' hj hk hholds hother
      rcases (task_stepped_iff htask).1 hj with ⟨-, hj⟩ | ⟨rfl, rfl⟩
      · rcases (task_stepped_iff htask).1 hk with ⟨-, hk⟩ | ⟨rfl, rfl⟩
        · exact h.one j k task other stem' hj hk hholds hother
        · rw [hnone] at hother
          cases hother
      · rw [hnone] at hholds
        cases hholds

theorem Reached.locked {config : Config} {run : Run} (h : Reached config run) : run.Locked := by
  apply h.invariant
  · intro world _ _
    constructor <;> simp [Run.start]
  · intro run invocation _ _ ih
    constructor
    · intro i task stem hi hholds
      rcases task_called_iff.1 hi with hi | ⟨-, rfl⟩
      · exact ih.held i task stem hi hholds
      · rw [invocation.holds?_task] at hholds
        cases hholds
    · intro i j task other stem hi hj hholds hother
      rcases task_called_iff.1 hi with hi | ⟨-, rfl⟩
      · rcases task_called_iff.1 hj with hj | ⟨-, rfl⟩
        · exact ih.one i j task other stem hi hj hholds hother
        · rw [invocation.holds?_task] at hother
          cases hother
      · rw [invocation.holds?_task] at hholds
        cases hholds
  · exact fun run i before after shared _ htask hmoves ih => ih.stepped htask hmoves
  · exact fun run now ih => ⟨ih.held, ih.one⟩

/-! ## One delivery -/

/-- Nothing is taken from under one key twice, nor is about to be. -/
structure TakenOnce (run : Run) : Prop where
  untaken : ∀ (j : Nat) sequence fromEnd key doc,
    run.tasks[j]? = some (.remove sequence fromEnd key doc) →
      ∀ n i doc', ¬ run.TookAt n i sequence.collection.space key doc'
  once : ∀ n m i j space key doc doc', run.TookAt n i space key doc → run.TookAt m j space key doc' →
    n = m

theorem Reached.takenOnce {config : Config} (hexclusive : config.exclusiveRemoval = true) {run : Run}
    (h : Reached config run) (hroom : run.issued < 2 ^ 32) : run.TakenOnce := by
  apply h.invariant_within hroom
  · intro world _ _
    constructor <;> simp [Run.start, TookAt, StepAt]
  · intro run invocation _ ih
    constructor
    · intro j sequence fromEnd key doc hj n i doc' hn
      rcases task_called_iff.1 hj with hj | ⟨-, heq⟩
      · exact ih.untaken j sequence fromEnd key doc hj n i doc' (tookAt_called_iff.1 hn)
      · exact absurd heq.symm (invocation.task_ne_remove _ _ _ _)
    · exact fun n m i j space key doc doc' hn hm =>
        ih.once n m i j space key doc doc' (tookAt_called_iff.1 hn) (tookAt_called_iff.1 hm)
  · intro run i before after shared hrun hroom htask hmoves ih
    constructor
    · intro j sequence fromEnd key doc hj n k doc' hn
      rcases (task_stepped_iff htask).1 hj with ⟨hne, hold⟩ | ⟨rfl, rfl⟩
      · rcases tookAt_stepped_iff.1 hn with hn | ⟨-, rfl, other, ⟨⟨fromEnd', rfl⟩, -⟩, hspace⟩
        · exact ih.untaken j sequence fromEnd key doc hold n k doc' hn
        · -- both would hold the lock of the namespace
          have hholds : ∀ (s : Sequence) e k v (i : Nat), run.tasks[i]? = some (.remove s e k v) →
              (Task.remove s e k v).holds? = some s.collection.space.stem :=
            fun s e k v i hi => if_pos ((hrun.orderly.sequence hi rfl).1.trans hexclusive)
          refine hne (hrun.locked.one j k _ _ _ hold htask (hholds _ _ _ _ _ hold) ?_)
          rw [← hspace]
          exact hholds _ _ _ _ _ htask
      · rcases tookAt_stepped_iff.1 hn with hold | ⟨-, -, other, ⟨⟨_, rfl⟩, -⟩, -⟩
        · exact absurd hmoves ((hrun.traced hroom).not_found_again hold)
        · cases hmoves.found_of_remove.1
    · intro n m j k space key doc doc' hn hm
      rcases tookAt_stepped_iff.1 hn with hold | ⟨rfl, rfl, sequence, ⟨⟨fromEnd, rfl⟩, -⟩, rfl⟩
      · rcases tookAt_stepped_iff.1 hm with hold' | ⟨-, rfl, sequence, ⟨⟨fromEnd, rfl⟩, -⟩, rfl⟩
        · exact ih.once n m j k space key doc doc' hold hold'
        · exact absurd hold (ih.untaken k sequence fromEnd key doc' htask n j doc)
      · rcases tookAt_stepped_iff.1 hm with hold | ⟨rfl, -⟩
        · exact absurd hold (ih.untaken j sequence fromEnd key doc htask m k doc')
        · rfl
  · exact fun run now h => ⟨h.untaken, h.once⟩

/-! ## Where a document is -/

/-- The task `i` has in hand what it has taken from under the key: it has not returned yet, and it
is the one that holds the lock of the namespace. -/
structure InHand (run : Run) (i : Nat) (space : Namespace) (key : Bytes) (doc : Value) : Prop where
  took : ∃ n, run.TookAt n i space key doc
  unreturned : ∃ sequence, run.tasks[i]? = some (.release sequence (.ok (.found (some doc))))
  locked : space.stem ∈ run.shared.held
  holder : ∀ (j : Nat) task, run.tasks[j]? = some task → (task.holds? = some space.stem ↔ j = i)

/-- The places where a document that has been stored can be. -/
inductive Place where
  | stored
  | inHand (i : Nat)
  | returned (i : Nat)

/-- The item that has been stored under the key is in that place, there as what it reads back as. -/
def IsAt (config : Config) (run : Run) (space : Namespace) (key : SequenceKey) (item : Value) :
    Place → Prop
  | .stored => IsStored config run space key item
  | .inHand i => ∃ doc, ReadsBack config item doc ∧ run.InHand i space key.toBytes doc
  | .returned i => ∃ doc, ReadsBack config item doc ∧ run.Returned i space key.toBytes doc

section
variable {config : Config} {run : Run} {n i : Nat} {space : Namespace} {key : Bytes} {doc : Value}

/-- What has been taken is in hand or has been returned. -/
theorem Reached.inHand_or_returned (h : Reached config run) (htook : run.TookAt n i space key doc) :
    run.InHand i space key doc ∨ run.Returned i space key doc := by
  rcases h.hasTaken n i space key doc htook with ⟨sequence, hi, rfl, -⟩ | hi
  · have hholds : (Task.release sequence (.ok (.found (some doc)))).holds? =
        some sequence.collection.space.stem := rfl
    refine .inl ⟨⟨n, htook⟩, ⟨sequence, hi⟩, h.locked.held i _ _ hi hholds, fun j task hj => ?_⟩
    constructor
    · exact fun hother => h.locked.one j i _ _ _ hj hi hother hholds
    · rintro rfl
      rw [hi] at hj
      cases hj
      exact hholds
  · exact .inr ⟨⟨n, htook⟩, hi⟩

theorem InHand.not_returned (h : run.InHand i space key doc) {space' : Namespace} {key' : Bytes}
    {doc' : Value} : ¬ run.Returned i space' key' doc' := by
  intro h'
  obtain ⟨sequence, hi⟩ := h.unreturned
  rw [h'.returned] at hi
  cases hi

end

section
variable {config : Config} (hexclusive : config.exclusiveRemoval = true) {run : Run}
  (h : Reached config run) (hroom : run.issued < 2 ^ 32)

include hexclusive h hroom

/-- No two tasks take from under the same key. -/
theorem Reached.taker_unique {n m i j : Nat} {space space' : Namespace} {key : Bytes}
    {doc doc' : Value} (htook : run.TookAt n i space key doc)
    (htook' : run.TookAt m j space' key doc') : i = j := by
  cases (h.traced hroom).space_of_took (h.keyed hroom) htook htook'
  cases (h.takenOnce hexclusive hroom).once n m i j space key doc doc' htook htook'
  exact (htook.unique htook').1

/-- Where nobody clears, a document is in one place. -/
theorem Reached.place_unique {space : Namespace} (hnever : run.NeverCleared space) {n : Nat}
    {key : SequenceKey} {item : Value} (hput : run.PutAt n space key item) :
    ∃! place, IsAt config run space key item place := by
  have htraced := h.traced hroom
  have hgone : ∀ {m i doc}, run.TookAt m i space key.toBytes doc →
      ¬ IsStored config run space key item := by
    rintro m i doc htook ⟨bytes, hstored, -⟩
    rw [htraced.gone m i space _ doc htook] at hstored
    cases hstored
  rcases h.storedOrDeleted hroom hnever n key item hput with hstored | ⟨m, i, doc, hdeleted⟩
  · refine ⟨.stored, hstored, fun place hplace => ?_⟩
    cases place with
    | stored => rfl
    | inHand j =>
      obtain ⟨doc, -, hhand⟩ := hplace
      exact absurd hstored (hgone hhand.took.choose_spec)
    | returned j =>
      obtain ⟨doc, -, hreturned⟩ := hplace
      exact absurd hstored (hgone hreturned.took.choose_spec)
  · have htook := hdeleted.tookAt
    have hreads := htraced.doc_of_took (h.keyed hroom) hput htook
    have hplaces : ∀ place, IsAt config run space key item place →
        place = .inHand i ∨ place = .returned i := by
      intro place hplace
      cases place with
      | stored => exact absurd hplace (hgone htook)
      | inHand j =>
        obtain ⟨doc', -, hhand⟩ := hplace
        obtain ⟨m', htook'⟩ := hhand.took
        exact .inl (by rw [h.taker_unique hexclusive hroom htook htook'])
      | returned j =>
        obtain ⟨doc', -, hreturned⟩ := hplace
        obtain ⟨m', htook'⟩ := hreturned.took
        exact .inr (by rw [h.taker_unique hexclusive hroom htook htook'])
    rcases h.inHand_or_returned htook with hhand | hreturned
    · refine ⟨.inHand i, ⟨doc, hreads, hhand⟩, fun place hplace => ?_⟩
      rcases hplaces place hplace with rfl | rfl
      · rfl
      · obtain ⟨doc', -, hreturned⟩ := hplace
        exact absurd hreturned hhand.not_returned
    · refine ⟨.returned i, ⟨doc, hreads, hreturned⟩, fun place hplace => ?_⟩
      rcases hplaces place hplace with rfl | rfl
      · obtain ⟨doc', -, hhand⟩ := hplace
        exact absurd hreturned hhand.not_returned
      · rfl

end

/-! ## Delivery at most once -/

/-- With exclusive removal, as long as the generator has keys to give, and whatever calls of the
store fail: two takes never return what was stored under the same key, and what a take returns was
stored under one; where nobody clears, a document that has been stored is still there, or is in the
hands of the one task that holds the lock, or has been returned by one take, and in one of these
places only; and a take that fails has changed nothing. -/
theorem exclusive_delivers_once {config : Config} (hexclusive : config.exclusiveRemoval = true)
    {run : Run} (h : Reached config run) (hroom : run.issued < 2 ^ 32) :
    (∀ i j space space' key doc doc', run.Returned i space key doc →
      run.Returned j space' key doc' → i = j) ∧
    (∀ c i sequence fromEnd doc, run.CallAt c i (.take sequence fromEnd) →
      run.tasks[i]? = some (.finished (.ok (.found (some doc)))) →
      ∃! key : SequenceKey, run.Returned i sequence.collection.space key.toBytes doc ∧
        ∃ n item, run.PutAt n sequence.collection.space key item ∧ ReadsBack config item doc) ∧
    (∀ space, run.NeverCleared space → ∀ n key item, run.PutAt n space key item →
      ∃! place, IsAt config run space key item place) ∧
    (∀ c i sequence fromEnd error, run.CallAt c i (.take sequence fromEnd) →
      run.tasks[i]? = some (.finished (.error error)) → run.Unchanged i) := by
  refine ⟨?_, ?_, ?_, ?_⟩
  · intro i j space space' key doc doc' hi hj
    obtain ⟨n, htook⟩ := hi.took
    obtain ⟨m, htook'⟩ := hj.took
    exact h.taker_unique hexclusive hroom htook htook'
  · exact fun c i sequence fromEnd doc hcall hreturned => h.key_of_returned hroom hcall hreturned
  · exact fun space hnever n key item hput => h.place_unique hexclusive hroom hnever hput
  · exact fun c i sequence fromEnd error hcall hfailed => h.unchanged_of_failed hcall hfailed

/-- Two documents and two takes from both ends. The second waits while the first has the lock, and
has just deleted when the schedule ends. -/
def contendedTurns : List Turn :=
  [.call (.insert .root "a" (.int 1)), .call (.insert .root "a" (.int 2)), .step 0, .step 1, .step 1,
    .step 0, .call (.take .root "a" .oldest), .call (.take .root "a" .newest), .step 2, .step 3,
    .step 2, .step 2, .step 2, .step 3, .step 3, .step 3]

def contended : Run := play { exclusiveRemoval := true } contendedTurns

theorem contended_in_one_place :
    contended.tasks[2]? = some (.finished (.ok (.found (some (.int 1))))) ∧
      contended.shared.held = [Namespace.stem ⟨["a"]⟩] ∧
      (∃! place, IsAt { exclusiveRemoval := true } contended ⟨["a"]⟩ ⟨0, 0⟩ (.int 1) place) ∧
      ∃! place, IsAt { exclusiveRemoval := true } contended ⟨["a"]⟩ ⟨0, 1⟩ (.int 2) place := by
  have hplace := (@exclusive_delivers_once { exclusiveRemoval := true } rfl contended (reached_play _ _)
    (by decide)).2.2.1 ⟨["a"]⟩ (neverCleared_of_all rfl _)
  refine ⟨rfl, rfl, hplace 5 _ _ ?_, hplace 4 _ _ ?_⟩
  · exact ⟨0, _, _, _, ⟨_, _, rfl⟩, ⟨rfl, rfl⟩, rfl⟩
  · exact ⟨1, _, _, _, ⟨_, _, rfl⟩, ⟨rfl, rfl⟩, rfl⟩

end Run

end DocStore
