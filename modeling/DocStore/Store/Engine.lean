/-
The storage engine: an ordered map behind four calls, each of which may fail without effect.
Which calls fail is up to a fault plan, and every call is recorded, also one that fails.
-/
import DocStore.Store.Scan

namespace DocStore

/-- A call of the storage engine. -/
inductive Call where
  | get (key : Bytes)
  | put (key value : Bytes)
  | delete (key : Bytes)
  | scan (options : ScanOptions)
  deriving DecidableEq

/-- The kinds of calls. -/
inductive CallKind where
  | get
  | put
  | delete
  | scan
  deriving DecidableEq

def Call.kind : Call → CallKind
  | get _ => .get
  | put _ _ => .put
  | delete _ => .delete
  | scan _ => .scan

/-- Why a call fails. -/
inductive StoreError where
  | backend (cause : String)
  | closed
  deriving DecidableEq

def StoreError.message : StoreError → String
  | backend cause => "storage backend error: " ++ cause
  | closed => "storage engine is closed"

/-- The error, if any, that a call meets after some calls before it, the latest first. -/
abbrev FaultPlan := List Call → Call → Option StoreError

/-- The plan by which no call fails. -/
def FaultPlan.never : FaultPlan := fun _ _ => none

/-- The storage engine: what it holds, which calls fail, and the calls so far, the latest
first. -/
structure Engine where
  store : ByteMap := .empty
  faults : FaultPlan := .never
  calls : List Call := []

/-- A computation that calls the storage engine. -/
abbrev Access := EStateM StoreError Engine

namespace Engine

/-- Records a call and, unless it fails, lets it have its effect. -/
def perform {α : Type} (call : Call) (effect : ByteMap → α × ByteMap) : Access α := fun engine =>
  let called := { engine with calls := call :: engine.calls }
  match engine.faults engine.calls call with
  | some error => .error error called
  | none =>
    let (answer, store) := effect engine.store
    .ok answer { called with store }

def get (key : Bytes) : Access (Option Bytes) :=
  perform (.get key) fun store => (store.get? key, store)

def put (key value : Bytes) : Access Unit :=
  perform (.put key value) fun store => ((), store.insert key value)

def delete (key : Bytes) : Access Unit :=
  perform (.delete key) fun store => ((), store.erase key)

def scan (options : ScanOptions) : Access (List Entry) :=
  perform (.scan options) fun store => (store.scan options, store)

end Engine

end DocStore
