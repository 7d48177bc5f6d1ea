/-
Namespaces are isolated. A tree of namespaces over one engine is a family of independent ordered
maps, one for each path: whatever calls are made on whichever namespaces, every answer is the one
that the map of that path gives alone, a call that fails has no effect in either, and the engine
goes on holding exactly what the maps hold.
-/
import DocStore.Proofs.Store.Engine

namespace DocStore

/-! ## Calls and what they answer -/

/-- What a call answers. -/
inductive Reply where
  | value (found : Option Bytes)
  | done
  | entries (found : List Entry)

/-- What a map answers to a call, and the map after it. -/
def ByteMap.reply (map : ByteMap) : Call → Reply × ByteMap
  | .get key => (.value (map.get? key), map)
  | .put key value => (.done, map.insert key value)
  | .delete key => (.done, map.erase key)
  | .scan options => (.entries (map.scan options), map)

namespace Namespace

/-- A call on the namespace, its keys and bounds seen from inside. -/
def call (space : Namespace) : Call → Access Reply
  | .get key => return .value (← space.get key)
  | .put key value => do
    space.put key value
    return .done
  | .delete key => do
    space.delete key
    return .done
  | .scan options => return .entries (← space.scan options)

/-- The call that the engine receives for a call on the namespace. -/
def storedCall (space : Namespace) : Call → Call
  | .get key => .get (space.dataKey key)
  | .put key value => .put (space.dataKey key) value
  | .delete key => .delete (space.dataKey key)
  | .scan options => .scan (space.dataScan options)

/-- Makes calls on namespaces of one engine, one after another. -/
def callAll : List (Namespace × Call) → Engine → List (Except StoreError Reply) × Engine
  | [], engine => ([], engine)
  | (space, call) :: rest, engine =>
    match space.call call engine with
    | .ok reply engine =>
      let (replies, engine) := callAll rest engine
      (.ok reply :: replies, engine)
    | .error error engine =>
      let (replies, engine) := callAll rest engine
      (.error error :: replies, engine)

end Namespace

/-! ## Independent maps -/

/-- One ordered map for each namespace. The calls are recorded, and fail, as those of an engine
do. -/
structure MapFamily where
  map : Namespace → ByteMap
  faults : FaultPlan
  calls : List Call

namespace MapFamily

/-- The maps of what an engine holds of each namespace. -/
def ofEngine (engine : Engine) : MapFamily :=
  ⟨fun space => space.view engine.store, engine.faults, engine.calls⟩

/-- A call on the map of one namespace. The other maps are not looked at and stay as they are. -/
def call (family : MapFamily) (space : Namespace) (call : Call) : Except StoreError Reply × MapFamily :=
  let stored := space.storedCall call
  let called := { family with calls := stored :: family.calls }
  match family.faults family.calls stored with
  | some error => (.error error, called)
  | none =>
    let (reply, map) := (family.map space).reply call
    (.ok reply, { called with map := Function.update family.map space map })

/-- Makes calls on the maps, one after another. -/
def callAll : List (Namespace × Call) → MapFamily → List (Except StoreError Reply) × MapFamily
  | [], family => ([], family)
  | (space, call) :: rest, family =>
    let (reply, family) := family.call space call
    let (replies, family) := callAll rest family
    (reply :: replies, family)

/-- The family holds what the engine holds of every namespace whose names fit, and meets the same
faults. -/
structure Mirrors (family : MapFamily) (engine : Engine) : Prop where
  map : ∀ space : Namespace, space.Fits → family.map space = space.view engine.store
  faults : family.faults = engine.faults
  calls : family.calls = engine.calls

theorem mirrors_ofEngine (engine : Engine) : (ofEngine engine).Mirrors engine :=
  ⟨fun _ _ => rfl, rfl, rfl⟩

end MapFamily

/-! ## One call -/

namespace Namespace

/-- A call on a namespace is answered from the view of the namespace, and has its effect on the
stored forms of its keys. -/
theorem call_eq (space : Namespace) (call : Call) (engine : Engine) :
    space.call call engine = match engine.fault? (space.storedCall call) with
      | some error => .error error (engine.called (space.storedCall call) engine.store)
      | none => .ok ((space.view engine.store).reply call).1
        (engine.called (space.storedCall call) (engine.store.reply (space.storedCall call)).2) := by
  cases call with
  | get key =>
    have hget := space.get_eq engine key
    simp only [storedCall]
    cases hfault : engine.fault? (.get (space.dataKey key)) <;> rw [hfault] at hget
    · exact bind_ok hget _
    · exact bind_error hget _
  | put key value =>
    have hput := space.put_eq engine key value
    simp only [storedCall]
    cases hfault : engine.fault? (.put (space.dataKey key) value) <;> rw [hfault] at hput
    · exact bind_ok hput _
    · exact bind_error hput _
  | delete key =>
    have hdelete := space.delete_eq engine key
    simp only [storedCall]
    cases hfault : engine.fault? (.delete (space.dataKey key)) <;> rw [hfault] at hdelete
    · exact bind_ok hdelete _
    · exact bind_error hdelete _
  | scan options =>
    have hscan := space.scan_eq engine options
    simp only [storedCall]
    cases hfault : engine.fault? (.scan (space.dataScan options)) <;> rw [hfault] at hscan
    · exact bind_ok hscan _
    · exact bind_error hscan _

/-- What a call on a namespace changes in the store, it changes in the view of the namespace. -/
theorem view_reply (space : Namespace) (call : Call) (store : ByteMap) :
    space.view (store.reply (space.storedCall call)).2 = ((space.view store).reply call).2 := by
  cases call with
  | put key value => exact view_insert space store key value
  | delete key => exact view_erase space store key
  | _ => rfl

/-- A call on a namespace changes no other view. -/
theorem view_reply_of_ne {space other : Namespace} (hspace : space.Fits) (hother : other.Fits)
    (hne : other ≠ space) (call : Call) (store : ByteMap) :
    other.view (store.reply (space.storedCall call)).2 = other.view store := by
  cases call with
  | put key value => exact view_insert_of_ne hspace hother hne store key value
  | delete key => exact view_erase_of_ne hspace hother hne store key
  | _ => rfl

end Namespace

/-- One call keeps the maps in step with the engine, and both give the same answer. -/
theorem MapFamily.call_mirrors {family : MapFamily} {engine : Engine} (h : family.Mirrors engine)
    {space : Namespace} (hspace : space.Fits) (call : Call) :
    (∃ reply after, space.call call engine = .ok reply after ∧
        (family.call space call).1 = .ok reply ∧ (family.call space call).2.Mirrors after) ∨
      ∃ error after, space.call call engine = .error error after ∧
        (family.call space call).1 = .error error ∧ (family.call space call).2.Mirrors after := by
  have hfault : family.faults family.calls (space.storedCall call) =
      engine.fault? (space.storedCall call) := by
    rw [h.faults, h.calls]
    rfl
  have hcall := space.call_eq call engine
  unfold MapFamily.call
  simp only [hfault]
  cases hf : engine.fault? (space.storedCall call) with
  | none =>
    rw [hf] at hcall
    refine .inl ⟨_, _, hcall, by rw [h.map space hspace], ?_, h.faults, congrArg _ h.calls⟩
    intro other hother
    by_cases hne : other = space
    · subst hne
      simp [h.map other hother, Namespace.view_reply]
    · simp [hne, h.map other hother, Namespace.view_reply_of_ne hspace hother hne]
  | some error =>
    rw [hf] at hcall
    exact .inr ⟨error, _, hcall, rfl, h.map, h.faults, congrArg _ h.calls⟩

/-! ## Whole runs -/

theorem MapFamily.callAll_mirrors (calls : List (Namespace × Call)) (hfits : ∀ c ∈ calls, c.1.Fits)
    {family : MapFamily} {engine : Engine} (h : family.Mirrors engine) :
    (Namespace.callAll calls engine).1 = (family.callAll calls).1 ∧
      (family.callAll calls).2.Mirrors (Namespace.callAll calls engine).2 := by
  induction calls generalizing family engine with
  | nil => exact ⟨rfl, h⟩
  | cons c rest ih =>
    obtain ⟨space, call⟩ := c
    have hspace : space.Fits := hfits _ List.mem_cons_self
    have hrest : ∀ c ∈ rest, c.1.Fits := fun c hc => hfits c (List.mem_cons_of_mem _ hc)
    unfold Namespace.callAll MapFamily.callAll
    rcases MapFamily.call_mirrors h hspace call with
      ⟨reply, after, hcall, hreply, hnext⟩ | ⟨error, after, hcall, hreply, hnext⟩
    · obtain ⟨hreplies, hmirrors⟩ := ih hrest hnext
      simp only [hcall, hreply, hreplies]
      exact ⟨trivial, hmirrors⟩
    · obtain ⟨hreplies, hmirrors⟩ := ih hrest hnext
      simp only [hcall, hreply, hreplies]
      exact ⟨trivial, hmirrors⟩

/-- Calls on any namespaces of an engine are answered as by a family of independent maps, one for
each path, and leave the engine holding of every namespace what its map holds. What a scan of a
namespace meets in the store are stored forms of exactly the keys that it returns. -/
theorem Namespace.callAll_eq_independent_maps (calls : List (Namespace × Call))
    (hfits : ∀ c ∈ calls, c.1.Fits) (engine : Engine) :
    (Namespace.callAll calls engine).1 = ((MapFamily.ofEngine engine).callAll calls).1 ∧
      (∀ space : Namespace, space.Fits → space.view (Namespace.callAll calls engine).2.store =
        ((MapFamily.ofEngine engine).callAll calls).2.map space) ∧
      ∀ (space : Namespace) (store : ByteMap) (options : ScanOptions),
        ∀ e ∈ store.scan (space.dataScan options), space.dataKey (space.relative e).key = e.key := by
  obtain ⟨hreplies, hmirrors⟩ :=
    MapFamily.callAll_mirrors calls hfits (MapFamily.mirrors_ofEngine engine)
  refine ⟨hreplies, fun space hspace => (hmirrors.map space hspace).symm, ?_⟩
  intro space store options e he
  exact space.dataKey_relative_key he

/-- A key under the root, under a nameless child, and under a child of that one whose name looks
like a tag; then two scans and a removal between them. -/
def nestedCalls : List (Namespace × Call) :=
  [(⟨[]⟩, .put [0] [1]), (⟨[""]⟩, .put [0] [2]), (⟨["", "\x01"]⟩, .put [0] [3]),
    (⟨[""]⟩, .scan .all), (⟨[""]⟩, .delete [0]), (⟨["", "\x01"]⟩, .scan (.first true)), (⟨[]⟩, .get [0])]

theorem nestedCalls_are_independent :
    (∀ c ∈ nestedCalls, c.1.Fits) ∧
      (Namespace.callAll nestedCalls {}).1 = ((MapFamily.ofEngine {}).callAll nestedCalls).1 ∧
      (Namespace.callAll nestedCalls {}).1 = [.ok .done, .ok .done, .ok .done,
        .ok (.entries [⟨[0], some [2]⟩]), .ok .done, .ok (.entries [⟨[0], some [3]⟩]),
        .ok (.value (some [1]))] :=
  ⟨by decide, (Namespace.callAll_eq_independent_maps nestedCalls (by decide) {}).1, rfl⟩

end DocStore
