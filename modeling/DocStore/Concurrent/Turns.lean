/-
One way of running tasks together: they take turns in a fixed order, and a turn ends when a scan
of the task has succeeded, or it has to wait for a lock, or it is finished. So when no locks are
in play all tasks read before any of them deletes, and tasks on one exclusive sequence run one by
one.
-/
import DocStore.Concurrent.Task

namespace DocStore.Task

/-- Whether the next step of a task fetches from the store by a scan. -/
def scansNext : Task → Bool
  | .peek _ _ => true
  | .read _ _ => true
  | .query _ cursor _ => cursor.pending.isEmpty && cursor.rest.isSome
  | .empty _ cursor _ => cursor.pending.isEmpty && cursor.rest.isSome
  | _ => false

/-- Whether a task has an answer and the answer is that the store failed. -/
def storeFailed : Task → Bool
  | .release _ (.error (.store _)) => true
  | .finished (.error (.store _)) => true
  | _ => false

/-- A turn of a task, of at most `steps` steps. -/
def turn : Nat → Task → Shared → Task × Shared
  | 0, task, shared => (task, shared)
  | steps + 1, task, shared =>
    match task.step shared with
    | none => (task, shared)
    | some (next, shared) =>
      if task.scansNext && !next.storeFailed then (next, shared) else turn steps next shared

/-- One turn of every task, in order. -/
def round (steps : Nat) : List Task → Shared → List Task × Shared
  | [], shared => ([], shared)
  | task :: rest, shared =>
    let (task, shared) := turn steps task shared
    let (rest, shared) := round steps rest shared
    (task :: rest, shared)

/-- Rounds of turns. -/
def rounds (steps : Nat) : Nat → List Task → Shared → List Task × Shared
  | 0, tasks, shared => (tasks, shared)
  | count + 1, tasks, shared =>
    let (tasks, shared) := round steps tasks shared
    rounds steps count tasks shared

/-- Runs tasks that peek or take to their ends. Such a task makes at most three steps in a turn,
and every round but the first finishes a task that has read before. -/
def runTurns (tasks : List Task) (shared : Shared) : List Task × Shared :=
  rounds 3 (tasks.length + 2) tasks shared

end DocStore.Task
