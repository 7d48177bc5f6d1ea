/-
Calls as they run. A call of a namespace meets the fault that the plan has for it, and then has no
effect, or it is served: it is answered from the view of the namespace and has its effect on the
store.
-/
import DocStore.Proofs.Effect
import DocStore.Proofs.Store.View

namespace DocStore

namespace Engine

/-- The engine after a call that leaves it holding `store`. -/
def called (engine : Engine) (call : Call) (store : ByteMap) : Engine :=
  { engine with store, calls := call :: engine.calls }

@[simp] theorem store_called (engine : Engine) (call : Call) (store : ByteMap) :
    (engine.called call store).store = store := rfl

/-- The error, if any, that the next call meets if it is `call`. -/
def fault? (engine : Engine) (call : Call) : Option StoreError := engine.faults engine.calls call

theorem fault?_of_never {engine : Engine} (h : engine.faults = .never) (call : Call) :
    engine.fault? call = none := by
  unfold fault?
  rw [h]
  rfl

theorem perform_of_fault {α : Type} {call : Call} {engine : Engine} {error : StoreError}
    (h : engine.fault? call = some error) (effect : ByteMap → α × ByteMap) :
    Engine.perform call effect engine = .error error (engine.called call engine.store) := by
  unfold Engine.perform
  unfold fault? at h
  simp only [h]
  rfl

theorem perform_of_served {α : Type} {call : Call} {engine : Engine} (h : engine.fault? call = none)
    (effect : ByteMap → α × ByteMap) :
    Engine.perform call effect engine =
      .ok (effect engine.store).1 (engine.called call (effect engine.store).2) := by
  unfold Engine.perform
  unfold fault? at h
  simp only [h]
  rfl

/-- Whatever an effect leaves in the store, it keeps if it keeps the store related to what it was. -/
theorem keeps_perform {α : Type} {R : Engine → Engine → Prop} {call : Call}
    {effect : ByteMap → α × ByteMap} (hfault : ∀ engine, R engine (engine.called call engine.store))
    (hserved : ∀ engine, R engine (engine.called call (effect engine.store).2)) :
    Keeps R (Engine.perform call effect) := by
  constructor
  · intro engine a after h
    cases hf : engine.fault? call with
    | none =>
      rw [perform_of_served hf] at h
      cases h
      exact hserved engine
    | some error =>
      rw [perform_of_fault hf] at h
      cases h
  · intro engine error after h
    cases hf : engine.fault? call with
    | none =>
      rw [perform_of_served hf] at h
      cases h
    | some error =>
      rw [perform_of_fault hf] at h
      cases h
      exact hfault engine

/-- The engine has been called, but what it holds is the same, and so are its faults. -/
structure Unwritten (before after : Engine) : Prop where
  store : after.store = before.store
  faults : after.faults = before.faults

instance : Std.Refl Unwritten := ⟨fun _ => ⟨rfl, rfl⟩⟩

instance : IsTrans Engine Unwritten :=
  ⟨fun _ _ _ hab hbc => ⟨hbc.store.trans hab.store, hbc.faults.trans hab.faults⟩⟩

end Engine

namespace Namespace

theorem keeps_get (space : Namespace) (key : Bytes) : Keeps Engine.Unwritten (space.get key) := by
  unfold Namespace.get Engine.get
  exact Engine.keeps_perform (fun _ => ⟨rfl, rfl⟩) fun _ => ⟨rfl, rfl⟩

theorem keeps_scan (space : Namespace) (options : ScanOptions) :
    Keeps Engine.Unwritten (space.scan options) := by
  unfold Namespace.scan Engine.scan
  exact Keeps.bind (Engine.keeps_perform (fun _ => ⟨rfl, rfl⟩) fun _ => ⟨rfl, rfl⟩) fun _ =>
    Keeps.pure _

variable (space : Namespace) (engine : Engine)

theorem get_eq (key : Bytes) : space.get key engine =
    match engine.fault? (.get (space.dataKey key)) with
    | some error => .error error (engine.called (.get (space.dataKey key)) engine.store)
    | none => .ok ((space.view engine.store).get? key)
      (engine.called (.get (space.dataKey key)) engine.store) := by
  unfold Namespace.get Engine.get
  cases h : engine.fault? (.get (space.dataKey key)) with
  | some error => exact Engine.perform_of_fault h _
  | none => rw [Engine.perform_of_served h, get?_view]

theorem put_eq (key value : Bytes) : space.put key value engine =
    match engine.fault? (.put (space.dataKey key) value) with
    | some error => .error error (engine.called (.put (space.dataKey key) value) engine.store)
    | none => .ok () (engine.called (.put (space.dataKey key) value)
      (engine.store.insert (space.dataKey key) value)) := by
  unfold Namespace.put Engine.put
  cases h : engine.fault? (.put (space.dataKey key) value) with
  | some error => exact Engine.perform_of_fault h _
  | none => exact Engine.perform_of_served h _

theorem delete_eq (key : Bytes) : space.delete key engine =
    match engine.fault? (.delete (space.dataKey key)) with
    | some error => .error error (engine.called (.delete (space.dataKey key)) engine.store)
    | none => .ok () (engine.called (.delete (space.dataKey key))
      (engine.store.erase (space.dataKey key))) := by
  unfold Namespace.delete Engine.delete
  cases h : engine.fault? (.delete (space.dataKey key)) with
  | some error => exact Engine.perform_of_fault h _
  | none => exact Engine.perform_of_served h _

theorem scan_eq (options : ScanOptions) : space.scan options engine =
    match engine.fault? (.scan (space.dataScan options)) with
    | some error => .error error (engine.called (.scan (space.dataScan options)) engine.store)
    | none => .ok ((space.view engine.store).scan options)
      (engine.called (.scan (space.dataScan options)) engine.store) := by
  unfold Namespace.scan Engine.scan
  cases h : engine.fault? (.scan (space.dataScan options)) with
  | some error => exact bind_error (Engine.perform_of_fault h _) _
  | none =>
    rw [bind_ok (Engine.perform_of_served h _)]
    show EStateM.Result.ok _ _ = _
    rw [scan_dataScan]

end Namespace

end DocStore
