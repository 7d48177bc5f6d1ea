/-
Calls in a row, up to one that fails. What a computation on the engine has done to it is a series of
calls each of which was served, and if the computation fails then one more call, which met a fault: no
call follows a failing one. A computation that writes nothing along the way leaves the store as it was.
-/
import DocStore.Proofs.Store.Cursor

namespace DocStore

/-! ## Served and failing calls -/

namespace Engine

/-- The engine after some calls each of which was served. -/
inductive Served (before : Engine) : Engine → Prop
  | refl : Served before before
  | call {middle : Engine} (h : Served before middle) {call : Call}
    (hserved : middle.fault? call = none) (store : ByteMap) :
    Served before (middle.called call store)

theorem Served.trans {a b c : Engine} (hab : a.Served b) (hbc : b.Served c) : a.Served c := by
  induction hbc with
  | refl => exact hab
  | call h hserved store ih => exact .call ih hserved store

/-- Calls have been served, and the store is as it was. -/
structure Looked (before after : Engine) : Prop where
  served : before.Served after
  store : after.store = before.store

theorem Looked.refl (engine : Engine) : engine.Looked engine := ⟨.refl, rfl⟩

theorem Looked.trans {a b c : Engine} (hab : a.Looked b) (hbc : b.Looked c) : a.Looked c :=
  ⟨hab.served.trans hbc.served, hbc.store.trans hab.store⟩

/-- The last call has met a fault. Those before it were served, and the store is as it was. -/
def Failed (before : Engine) (fault : StoreError) (after : Engine) : Prop :=
  ∃ middle call, before.Looked middle ∧ middle.fault? call = some fault ∧
    after = middle.called call middle.store

theorem Failed.of_looked {a b c : Engine} {fault : StoreError} (hab : a.Looked b)
    (hbc : b.Failed fault c) : a.Failed fault c := by
  obtain ⟨middle, call, hmiddle, hfault, rfl⟩ := hbc
  exact ⟨middle, call, hab.trans hmiddle, hfault, rfl⟩

theorem Failed.store_eq {before after : Engine} {fault : StoreError} (h : before.Failed fault after) :
    after.store = before.store := by
  obtain ⟨middle, call, hmiddle, -, rfl⟩ := h
  exact hmiddle.store

variable {α : Type}

theorem perform_ends (call : Call) (effect : ByteMap → α × ByteMap) :
    Ends Served Failed (perform call effect) := by
  constructor
  · intro engine a after h
    cases hfault : engine.fault? call with
    | none =>
      rw [perform_of_served hfault] at h
      cases h
      exact .call .refl hfault _
    | some fault =>
      rw [perform_of_fault hfault] at h
      cases h
  · intro engine fault after h
    cases hfault : engine.fault? call with
    | none =>
      rw [perform_of_served hfault] at h
      cases h
    | some met =>
      rw [perform_of_fault hfault] at h
      cases h
      exact ⟨engine, call, .refl engine, hfault, rfl⟩

end Engine

/-! ## Computations that only look -/

/-- The computation on the engine only looks at the store, up to a call that fails. -/
def Access.Looks {α : Type} (x : Access α) : Prop := Ends Engine.Looked Engine.Failed x

namespace Access.Looks

variable {α β : Type}

protected theorem pure (a : α) : Looks (pure a : Access α) := Ends.pure Engine.Looked.refl a

protected theorem bind {x : Access α} {f : α → Access β} (hx : Looks x) (hf : ∀ a, Looks (f a)) :
    Looks (x >>= f) :=
  Ends.bind hx hf (fun _ _ _ hab hbc => hab.trans hbc) (fun _ _ _ h => h)
    fun _ _ _ _ hab hbc => hbc.of_looked hab

/-- A computation that keeps the store and makes its calls one by one only looks. -/
theorem of_keeps {x : Access α} (hsame : Keeps Engine.Unwritten x)
    (hends : Ends Engine.Served Engine.Failed x) : Looks x :=
  ⟨fun h => ⟨hends.of_ok h, (hsame.of_ok h).store⟩, hends.of_error⟩

end Access.Looks

namespace Namespace

variable (space : Namespace)

theorem looks_get (key : Bytes) : (space.get key).Looks := by
  refine .of_keeps (space.keeps_get key) ?_
  unfold Namespace.get Engine.get
  exact Engine.perform_ends _ _

theorem looks_scan (options : ScanOptions) : (space.scan options).Looks := by
  unfold Namespace.scan Engine.scan
  refine .bind (.of_keeps ?_ (Engine.perform_ends _ _)) fun _ => .pure _
  exact Engine.keeps_perform (fun _ => ⟨rfl, rfl⟩) fun _ => ⟨rfl, rfl⟩

theorem put_ends (key value : Bytes) : Ends Engine.Served Engine.Failed (space.put key value) := by
  unfold Namespace.put Engine.put
  exact Engine.perform_ends _ _

theorem delete_ends (key : Bytes) : Ends Engine.Served Engine.Failed (space.delete key) := by
  unfold Namespace.delete Engine.delete
  exact Engine.perform_ends _ _

end Namespace

theorem Engine.Fetched.looked {space : Namespace} {before after : Engine}
    (h : Fetched space before after) : before.Looked after := by
  cases h with
  | refl => exact .refl before
  | scan hserved => exact ⟨.call .refl hserved _, rfl⟩

theorem Engine.FetchFailed.failed {space : Namespace} {before after : Engine} {fault : StoreError}
    (h : FetchFailed space before fault after) : before.Failed fault after := by
  cases h with
  | scan hfault => exact ⟨before, _, .refl before, hfault, rfl⟩

theorem Cursor.looks_next (cursor : Cursor) : cursor.next.Looks :=
  cursor.next_ends.mono (fun _ _ h => h.looked) fun _ _ _ h => h.failed

end DocStore
