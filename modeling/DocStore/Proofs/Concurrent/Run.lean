/-
Runs of tasks in any order. A run begins with an empty store and a generator that has issued no
key; from then on tasks are called, tasks make steps while others are between theirs, and the
clock is set. What has happened is kept in order, so that one can say of two happenings which
came first.
-/
import DocStore.Database
import DocStore.Proofs.Concurrent.Moves
import DocStore.Proofs.Store.View

namespace DocStore

/-- What can happen to a task. -/
inductive Happening where
  | call (i : Nat) (task : Task)
  /-- The task `i` makes a step, and the store changes from `store` to `store'`. -/
  | step (i : Nat) (before after : Task) (store store' : ByteMap)

/-- The tasks called so far, what they share, and what has happened, the earliest first. -/
structure Run where
  tasks : List Task
  shared : Shared
  past : List Happening

/-! ## Calls -/

/-- A call on a handle of a database: of the queue or stack of a given name below some namespace, or
of the documents of a namespace. -/
inductive Invocation where
  | insert (parent : Namespace) (name : String) (item : Value)
  | peek (parent : Namespace) (name : String) (fromEnd : End)
  | take (parent : Namespace) (name : String) (fromEnd : End)
  | query (space : Namespace) (expression : Expression)
  | empty (space : Namespace)

namespace Invocation

/-- The namespace that is called upon. -/
def space : Invocation → Namespace
  | insert parent name _ => parent.sub name
  | peek parent name _ => parent.sub name
  | take parent name _ => parent.sub name
  | query space _ => space
  | empty space => space

/-- The task of the call. -/
def task (config : Config) : Invocation → Task
  | insert parent name item => .insert (Database.sequence ⟨config, parent⟩ name) item
  | peek parent name fromEnd => .peek (Database.sequence ⟨config, parent⟩ name) fromEnd
  | take parent name fromEnd => .take (Database.sequence ⟨config, parent⟩ name) fromEnd
  | query space expression => .ofQuery (Database.documents ⟨config, space⟩) expression
  | empty space => .ofEmpty (Database.documents ⟨config, space⟩)

theorem sequence {config : Config} {invocation : Invocation} {sequence : Sequence}
    (h : (invocation.task config).sequence? = some sequence) :
    sequence.exclusive = config.exclusiveRemoval ∧ sequence.collection.codec = config.codec ∧
      sequence.collection.space = invocation.space := by
  cases invocation <;> cases h <;> exact ⟨rfl, rfl, rfl⟩

theorem clears {config : Config} {invocation : Invocation} {collection : Collection}
    (h : (invocation.task config).clears? = some collection) :
    invocation.task config = .ofEmpty collection ∧ collection.space = invocation.space := by
  cases invocation <;> cases h
  exact ⟨rfl, rfl⟩

theorem task_ne_place {config : Config} (invocation : Invocation) (sequence : Sequence) (item : Value)
    (key : SequenceKey) : invocation.task config ≠ .place sequence item key := by
  cases invocation <;> exact nofun

theorem task_ne_remove {config : Config} (invocation : Invocation) (sequence : Sequence) (fromEnd : End)
    (key : Bytes) (doc : Value) : invocation.task config ≠ .remove sequence fromEnd key doc := by
  cases invocation <;> exact nofun

theorem holds?_task {config : Config} (invocation : Invocation) :
    (invocation.task config).holds? = none := by
  cases invocation <;> rfl

end Invocation

namespace Run

/-! ## Reachable runs -/

def store (run : Run) : ByteMap := run.shared.world.engine.store

def lastKey (run : Run) : Option SequenceKey := run.shared.world.lastKey

def start (world : World) : Run := ⟨[], ⟨world, []⟩, []⟩

/-- The run after a call. -/
def called (run : Run) (task : Task) : Run :=
  { run with tasks := run.tasks ++ [task], past := run.past ++ [.call run.tasks.length task] }

/-- The run after a step of the task `i`. -/
def stepped (run : Run) (i : Nat) (before after : Task) (shared : Shared) : Run :=
  ⟨run.tasks.set i after, shared,
    run.past ++ [.step i before after run.store shared.world.engine.store]⟩

/-- The run after the clock has been set. -/
def atClock (run : Run) (now : UInt64) : Run :=
  { run with shared := { run.shared with world := { run.shared.world with clock := now } } }

/-- What can come next. -/
inductive Next (config : Config) (run : Run) : Run → Prop
  | call {invocation : Invocation} (hfits : invocation.space.Fits) :
    Next config run (run.called (invocation.task config))
  | step {i : Nat} {before after : Task} {shared : Shared} (htask : run.tasks[i]? = some before)
    (hstep : before.step run.shared = some (after, shared)) :
    Next config run (run.stepped i before after shared)
  | clock (now : UInt64) : Next config run (run.atClock now)

/-- The runs on a fresh database, whatever calls of its engine fail. -/
inductive Reached (config : Config) : Run → Prop
  | start {world : World} (hempty : world.engine.store = .empty) (hfresh : world.lastKey = none) :
    Reached config (start world)
  | next {run later : Run} (hrun : Reached config run) (hnext : Next config run later) :
    Reached config later

/-- What holds at the start and is kept by calls, by steps and by the clock holds of every run. -/
theorem Reached.invariant {config : Config} {P : Run → Prop}
    (hstart : ∀ world : World, world.engine.store = .empty → world.lastKey = none → P (Run.start world))
    (hcall : ∀ run (invocation : Invocation), Reached config run → invocation.space.Fits → P run →
      P (run.called (invocation.task config)))
    (hstep : ∀ run i before after shared, Reached config run → run.tasks[i]? = some before →
      Task.Moves run.shared before after shared → P run → P (run.stepped i before after shared))
    (hclock : ∀ run now, P run → P (run.atClock now)) {run : Run} (h : Reached config run) : P run := by
  induction h with
  | start hempty hfresh => exact hstart _ hempty hfresh
  | next hrun hnext ih =>
    cases hnext with
    | call hfits => exact hcall _ _ hrun hfits ih
    | step htask hmove => exact hstep _ _ _ _ _ hrun htask (Task.moves_of_step hmove) ih
    | clock now => exact hclock _ now ih

/-! ## Schedules -/

/-- What a schedule asks for. -/
inductive Turn where
  | call (invocation : Invocation)
  | step (i : Nat)
  | clock (now : UInt64)

/-- The run after a turn. One that cannot be taken is passed over. -/
def turn (config : Config) (run : Run) : Turn → Run
  | .call invocation =>
    if invocation.space.Fits then run.called (invocation.task config) else run
  | .step i =>
    match run.tasks[i]? with
    | some before =>
      match before.step run.shared with
      | some (after, shared) => run.stepped i before after shared
      | none => run
    | none => run
  | .clock now => run.atClock now

/-- The run of a schedule on a fresh database. -/
def play (config : Config) (turns : List Turn) : Run := turns.foldl (turn config) (start {})

theorem Reached.turn {config : Config} {run : Run} (h : Reached config run) (t : Turn) :
    Reached config (run.turn config t) := by
  cases t with
  | call invocation =>
    simp only [Run.turn]
    split
    · rename_i hfits
      exact h.next (.call hfits)
    · exact h
  | step i =>
    simp only [Run.turn]
    split
    · rename_i before htask
      split
      · rename_i after shared hstep
        exact h.next (.step htask hstep)
      · exact h
    · exact h
  | clock now => exact h.next (.clock now)

theorem reached_play (config : Config) (turns : List Turn) : Reached config (play config turns) := by
  have hturns : ∀ run, Reached config run → Reached config (turns.foldl (turn config) run) := by
    induction turns with
    | nil => exact fun run h => h
    | cons t rest ih => exact fun run h => ih _ (h.turn t)
  exact hturns _ (.start rfl rfl)

/-! ## Tasks and happenings -/

theorem getElem?_append_singleton_iff {α : Type} {list : List α} {n : Nat} {a b : α} :
    (list ++ [a])[n]? = some b ↔ list[n]? = some b ∨ n = list.length ∧ b = a := by
  rw [List.getElem?_append]
  split
  · rename_i hlt
    constructor
    · exact .inl
    · rintro (h | ⟨rfl, -⟩)
      · exact h
      · omega
  · rename_i hge
    rw [List.getElem?_eq_none (by omega : list.length ≤ n)]
    constructor
    · intro h
      obtain ⟨hlen, hb⟩ := List.getElem?_eq_some_iff.1 h
      have hn : n = list.length := by simp at hlen; omega
      subst hn
      exact .inr ⟨rfl, by simpa using hb.symm⟩
    · rintro (h | ⟨rfl, rfl⟩)
      · cases h
      · simp

/-- The task `i` makes the step from `before` to `after` as the `n`th happening. -/
def StepAt (run : Run) (n i : Nat) (before after : Task) : Prop :=
  ∃ store store', run.past[n]? = some (.step i before after store store')

/-- The task `i` is called as the `n`th happening. -/
def CallAt (run : Run) (n i : Nat) (task : Task) : Prop := run.past[n]? = some (.call i task)

section
variable {run : Run} {n i j : Nat} {task before after b a : Task} {shared : Shared}

theorem StepAt.lt (h : run.StepAt n i before after) : n < run.past.length := by
  obtain ⟨store, store', h⟩ := h
  exact (List.getElem?_eq_some_iff.1 h).1

theorem callAt_called_iff {other : Task} : (run.called other).CallAt n i task ↔
    run.CallAt n i task ∨ n = run.past.length ∧ i = run.tasks.length ∧ task = other := by
  unfold CallAt called
  rw [getElem?_append_singleton_iff, Happening.call.injEq]

theorem stepAt_called_iff {other : Task} :
    (run.called other).StepAt n i before after ↔ run.StepAt n i before after := by
  unfold StepAt called
  simp only [getElem?_append_singleton_iff, reduceCtorEq, and_false, or_false]

theorem callAt_stepped_iff : (run.stepped j b a shared).CallAt n i task ↔ run.CallAt n i task := by
  unfold CallAt stepped
  simp only [getElem?_append_singleton_iff, reduceCtorEq, and_false, or_false]

theorem stepAt_stepped_iff : (run.stepped j b a shared).StepAt n i before after ↔
    run.StepAt n i before after ∨ n = run.past.length ∧ i = j ∧ before = b ∧ after = a := by
  unfold StepAt stepped
  simp only [getElem?_append_singleton_iff, Happening.step.injEq]
  constructor
  · rintro ⟨store, store', h | ⟨hn, hi, hb, ha, -⟩⟩
    · exact .inl ⟨store, store', h⟩
    · exact .inr ⟨hn, hi, hb, ha⟩
  · rintro (⟨store, store', h⟩ | ⟨hn, hi, hb, ha⟩)
    · exact ⟨store, store', .inl h⟩
    · exact ⟨_, _, .inr ⟨hn, hi, hb, ha, rfl, rfl⟩⟩

theorem task_called_iff {other : Task} : (run.called other).tasks[i]? = some task ↔
    run.tasks[i]? = some task ∨ i = run.tasks.length ∧ task = other :=
  getElem?_append_singleton_iff

theorem task_stepped_iff (hb : run.tasks[j]? = some b) :
    (run.stepped j b a shared).tasks[i]? = some task ↔
      i ≠ j ∧ run.tasks[i]? = some task ∨ i = j ∧ task = a := by
  have hlen := (List.getElem?_eq_some_iff.1 hb).1
  unfold stepped
  by_cases hij : i = j
  · subst hij
    simp [List.getElem?_set_self hlen, eq_comm]
  · simp [List.getElem?_set_ne (Ne.symm hij), hij]

theorem task_stepped_self (hb : run.tasks[j]? = some b) (a : Task) (shared : Shared) :
    (run.stepped j b a shared).tasks[j]? = some a :=
  (task_stepped_iff hb).2 (.inr ⟨rfl, rfl⟩)

end

/-! ## The order of happenings -/

/-- Every task goes back to a call, and makes no step after it is finished. -/
structure Orderly (config : Config) (run : Run) : Prop where
  origin : ∀ i task, run.tasks[i]? = some task → ∃ n, ∃ invocation : Invocation,
    run.CallAt n i (invocation.task config) ∧ invocation.space.Fits ∧
      (invocation.task config).Continues task
  exists_task : ∀ n i before after, run.StepAt n i before after → i < run.tasks.length
  stays : ∀ n i before answer, run.StepAt n i before (.finished answer) →
    run.tasks[i]? = some (.finished answer)
  last : ∀ n m i before answer b a, run.StepAt n i before (.finished answer) → run.StepAt m i b a →
    m ≤ n

theorem not_moves_finished {shared shared' : Shared} {answer : Except Error TaskAnswer} {after : Task} :
    ¬ Task.Moves shared (.finished answer) after shared' := by
  intro h
  cases h with
  | look hbefore => exact hbefore

theorem Reached.orderly {config : Config} {run : Run} (h : Reached config run) :
    run.Orderly config := by
  apply h.invariant
  · intro world _ _
    refine ⟨?_, ?_, ?_, ?_⟩ <;> simp [Run.start, StepAt, CallAt]
  · intro run invocation _ hfits ih
    refine ⟨?_, ?_, ?_, ?_⟩
    · intro i t ht
      rcases task_called_iff.1 ht with ht | ⟨rfl, rfl⟩
      · obtain ⟨n, first, hn, hfirst, hcontinues⟩ := ih.origin i t ht
        exact ⟨n, first, callAt_called_iff.2 (.inl hn), hfirst, hcontinues⟩
      · exact ⟨_, invocation, callAt_called_iff.2 (.inr ⟨rfl, rfl, rfl⟩), hfits, .refl _⟩
    · intro n i before after hstep
      have := ih.exists_task n i before after (stepAt_called_iff.1 hstep)
      simp only [called, List.length_append, List.length_singleton]
      omega
    · intro n i before answer hstep
      exact task_called_iff.2 (.inl (ih.stays n i before answer (stepAt_called_iff.1 hstep)))
    · intro n m i before answer b a hn hm
      exact ih.last n m i before answer b a (stepAt_called_iff.1 hn) (stepAt_called_iff.1 hm)
  · intro run j b a shared _ htask hmoves ih
    have hunfinished : ∀ answer, b ≠ .finished answer := by
      rintro answer rfl
      exact not_moves_finished hmoves
    have hlen := (List.getElem?_eq_some_iff.1 htask).1
    refine ⟨?_, ?_, ?_, ?_⟩
    · intro i t ht
      rcases (task_stepped_iff htask).1 ht with ⟨-, ht⟩ | ⟨rfl, rfl⟩
      · obtain ⟨n, first, hn, hfirst, hcontinues⟩ := ih.origin i t ht
        exact ⟨n, first, callAt_stepped_iff.2 hn, hfirst, hcontinues⟩
      · obtain ⟨n, first, hn, hfirst, hcontinues⟩ := ih.origin i b htask
        exact ⟨n, first, callAt_stepped_iff.2 hn, hfirst, hcontinues.trans hmoves.continues⟩
    · intro n i before after hstep
      simp only [stepped, List.length_set]
      rcases stepAt_stepped_iff.1 hstep with hstep | ⟨-, rfl, -, -⟩
      · exact ih.exists_task n i before after hstep
      · exact hlen
    · intro n i before answer hstep
      rcases stepAt_stepped_iff.1 hstep with hold | ⟨-, rfl, -, rfl⟩
      · -- the task that steps is not finished, so it is another one
        refine (task_stepped_iff htask).2 (.inl ⟨?_, ih.stays n i before answer hold⟩)
        rintro rfl
        have hfinished := ih.stays n i before answer hold
        rw [htask] at hfinished
        exact hunfinished answer (Option.some.inj hfinished)
      · exact (task_stepped_iff htask).2 (.inr ⟨rfl, rfl⟩)
    · intro n m i before answer b' a' hn hm
      rcases stepAt_stepped_iff.1 hm with hm | ⟨rfl, rfl, -, -⟩
      · rcases stepAt_stepped_iff.1 hn with hn | ⟨rfl, -, -, -⟩
        · exact ih.last n m i before answer b' a' hn hm
        · exact Nat.le_of_lt hm.lt
      · rcases stepAt_stepped_iff.1 hn with hn | ⟨rfl, -, -, -⟩
        · have hfinished := ih.stays n i before answer hn
          rw [htask] at hfinished
          exact absurd (Option.some.inj hfinished) (hunfinished answer)
        · exact Nat.le_refl _
  · intro run now ih
    exact ⟨ih.origin, ih.exists_task, ih.stays, ih.last⟩

/-! ## What tasks work on -/

namespace Orderly

variable {config : Config} {run : Run} (h : run.Orderly config) {i : Nat} {task : Task}
  (htask : run.tasks[i]? = some task)

include h htask

/-- The sequence of a task is set up as its database is. -/
theorem sequence {sequence : Sequence} (hsequence : task.sequence? = some sequence) :
    sequence.exclusive = config.exclusiveRemoval ∧ sequence.collection.codec = config.codec ∧
      sequence.collection.space.Fits := by
  obtain ⟨n, invocation, -, hfits, hcontinues⟩ := h.origin i task htask
  obtain ⟨hexclusive, hcodec, hspace⟩ := Invocation.sequence (hcontinues.sequence _ hsequence)
  exact ⟨hexclusive, hcodec, hspace ▸ hfits⟩

/-- A task that clears a collection has been called to. -/
theorem clears {collection : Collection} (hclears : task.clears? = some collection) :
    collection.space.Fits ∧ ∃ n, run.CallAt n i (.ofEmpty collection) := by
  obtain ⟨n, invocation, hn, hfits, hcontinues⟩ := h.origin i task htask
  obtain ⟨heq, hspace⟩ := Invocation.clears (hcontinues.clears _ hclears)
  exact ⟨hspace ▸ hfits, n, heq ▸ hn⟩

end Orderly

end Run

end DocStore
