/-
Clearing a collection. Its entries are deleted in ascending order of their keys, each by one call,
while the scan goes on past keys that are gone already. A call that fails is the last one, and what
had not been deleted before it is left as it was; if none fails the collection ends up empty. The
rest of the store is never touched.
-/
import DocStore.Proofs.Collection.Walks
import DocStore.Proofs.Store.Calls

namespace DocStore

/-! ## Deletions -/

/-- The key that a call deletes. -/
def Call.deleted? : Call → Option Bytes
  | delete key => some key
  | _ => none

namespace Engine

/-- The keys that were to be deleted, in the order of the calls. -/
def deletions (engine : Engine) : List Bytes := engine.calls.reverse.filterMap Call.deleted?

theorem deletions_called (engine : Engine) (call : Call) (store : ByteMap) :
    (engine.called call store).deletions = engine.deletions ++ call.deleted?.toList := by
  unfold deletions called
  rw [List.reverse_cons, List.filterMap_append]
  cases h : call.deleted? <;> simp [h]

end Engine

/-- Without its first entry a namespace holds the others. -/
theorem Namespace.entries_view_erase {space : Namespace} {store : ByteMap} {e : Bytes × Bytes}
    {rest : List (Bytes × Bytes)} (h : (space.view store).entries = e :: rest) :
    (space.view (store.erase (space.dataKey e.1))).entries = rest := by
  rw [view_erase]
  exact ByteMap.entries_erase_of_eq (show _ = [] ++ e :: rest from h)

namespace Engine

/-- The first `gone` entries of a namespace have been deleted one by one, by calls that were served,
and nothing else in the store has changed. -/
structure Cut (space : Namespace) (gone : Nat) (before after : Engine) : Prop where
  within : gone ≤ (space.view before.store).size
  served : before.Served after
  deletions : after.deletions = before.deletions ++
    ((space.view before.store).entries.take gone).map fun e => space.dataKey e.1
  left : (space.view after.store).entries = (space.view before.store).entries.drop gone
  others : ∀ raw, space.ownKey? raw = none → after.store.get? raw = before.store.get? raw
  faults : after.faults = before.faults

namespace Cut

variable {space : Namespace} {gone : Nat} {before middle after : Engine}

theorem refl (space : Namespace) (engine : Engine) : Cut space 0 engine engine where
  within := Nat.zero_le _
  served := .refl
  deletions := (List.append_nil _).symm
  left := rfl
  others _ _ := rfl
  faults := rfl

/-- Fetching deletes nothing. -/
theorem fetched (h : Cut space gone before middle) (hfetched : middle.Fetched space after) :
    Cut space gone before after where
  within := h.within
  served := h.served.trans hfetched.looked.served
  deletions := by
    rw [← h.deletions]
    cases hfetched with
    | refl => rfl
    | scan hserved => exact (deletions_called _ _ _).trans (List.append_nil _)
  left := by rw [hfetched.unwritten.store, h.left]
  others raw hraw := by rw [hfetched.unwritten.store, h.others raw hraw]
  faults := hfetched.unwritten.faults.trans h.faults

/-- The next key is deleted. -/
theorem delete (h : Cut space gone before middle) {e : Bytes × Bytes} {rest : List (Bytes × Bytes)}
    (hleft : (space.view middle.store).entries = e :: rest)
    (hserved : middle.fault? (.delete (space.dataKey e.1)) = none) :
    Cut space (gone + 1) before
      (middle.called (.delete (space.dataKey e.1)) (middle.store.erase (space.dataKey e.1))) := by
  have hdrop : (space.view before.store).entries.drop gone = e :: rest := h.left.symm.trans hleft
  have hnext : (space.view before.store).entries[gone]? = some e := by
    rw [← List.head?_drop, hdrop, List.head?_cons]
  refine ⟨?_, h.served.trans (.call .refl hserved _), ?_, ?_, ?_, h.faults⟩
  · exact (List.getElem?_eq_some_iff.1 hnext).1
  · rw [deletions_called, h.deletions, List.take_add_one, hnext, List.map_append, List.append_assoc]
    rfl
  · rw [store_called, Namespace.entries_view_erase hleft, ← List.tail_drop, hdrop, List.tail_cons]
  · intro raw hraw
    rw [← h.others raw hraw]
    refine ByteMap.get?_erase_of_ne _ fun heq => ?_
    rw [(space.ownKey?_eq_some_iff raw e.1).2 heq] at hraw
    cases hraw

/-- No entry is left once all have been deleted. -/
theorem empty (h : Cut space (space.view before.store).size before after) :
    space.view after.store = .empty :=
  ByteMap.eq_of_entries (h.left.trans List.drop_length)

/-- The views of other namespaces, above and below, are what they were. -/
theorem view_of_ne (h : Cut space gone before after) (hspace : space.Fits) {other : Namespace}
    (hother : other.Fits) (hne : other ≠ space) : other.view after.store = other.view before.store := by
  apply ByteMap.eq_of_get?
  intro key
  rw [Namespace.get?_view, Namespace.get?_view]
  apply h.others
  refine Option.eq_none_iff_forall_ne_some.2 fun own hown => ?_
  exact Namespace.dataKey_ne hspace hother hne own key ((space.ownKey?_eq_some_iff _ _).1 hown)

end Cut

end Engine

/-! ## Clearing -/

/-- A call that is made to clear a namespace, given the entries that are left in it. -/
inductive Namespace.Clears (space : Namespace) (left : List (Bytes × Bytes)) : Call → Prop
  | scan (options : ScanOptions) : Clears space left (.scan (space.dataScan options))
  | delete {e : Bytes × Bytes} (hnext : left.head? = some e) :
    Clears space left (.delete (space.dataKey e.1))

namespace Collection

variable (collection : Collection) {before : World}

/-- How deleting all entries, and counting them, can come out. -/
inductive Cleared (before : World) : EStateM.Result Error World Nat → Prop
  | emptied {engine : Engine}
    (hcut : before.engine.Cut collection.space (collection.held before).size engine) :
    Cleared before (.ok (collection.held before).size { before with engine })
  | stopped {gone : Nat} {engine : Engine} {call : Call} {fault : StoreError}
    (hcut : before.engine.Cut collection.space gone engine)
    (hcall : collection.space.Clears (collection.space.view engine.store).entries call)
    (hfault : engine.fault? call = some fault) :
    Cleared before (.error (.store fault) { before with engine := engine.called call engine.store })

/-- A fold that deletes every key it meets, and has still before it all keys that are left, clears the
collection. -/
theorem foldFuel_delete {fuel gone : Nat} {cursor : Cursor} {engine : Engine} (hsound : cursor.Sound)
    (hspace : cursor.space = collection.space) (hcut : before.engine.Cut collection.space gone engine)
    (hkeys : cursor.remaining engine.store =
      (collection.space.view engine.store).entries.map fun e => ⟨e.1, none⟩)
    (hfuel : (collection.space.view engine.store).size < fuel) :
    collection.Cleared before (cursor.foldFuel (fun removed entry => do
      collection.delete entry.key
      return removed + 1) fuel gone { before with engine }) := by
  -- on the fuel: every entry that is deleted leaves one less to delete
  induction fuel generalizing cursor engine gone with
  | zero => omega
  | succ fuel ih =>
    have hends := hspace ▸ cursor.next_ends
    rcases cursor.next_spec hsound engine with
      ⟨fault, last, hnext, -⟩ | ⟨last, hnext, hend⟩ | ⟨entry, rest, last, hnext, hyields⟩
    · rw [Cursor.foldFuel_of_fault fuel hnext]
      obtain ⟨hfault⟩ := hends.of_error hnext
      exact .stopped hcut (.scan _) hfault
    · rw [Cursor.foldFuel_of_end fuel hnext]
      have hlast := hcut.fetched (hends.of_ok hnext)
      have hall : gone = (collection.held before).size := by
        rw [hkeys, List.map_eq_nil_iff, hcut.left, List.drop_eq_nil_iff] at hend
        exact Nat.le_antisymm hcut.within hend
      rw [hall] at hlast ⊢
      exact .emptied hlast
    · have hfetched := hends.of_ok hnext
      have hstore := hfetched.unwritten.store
      have hlast := hcut.fetched hfetched
      rw [hyields.remaining] at hkeys
      obtain ⟨e, entries, hleft, rfl, hrest⟩ := List.map_eq_cons_iff.1 hkeys.symm
      have hsize : entries.length < fuel := by
        rw [ByteMap.size, hleft, List.length_cons] at hfuel
        omega
      rw [← hstore] at hleft
      have hdelete := collection.space.delete_eq last e.1
      cases hfault : last.fault? (.delete (collection.space.dataKey e.1)) with
      | some fault =>
        rw [hfault] at hdelete
        rw [Cursor.foldFuel_of_error fuel hnext (bind_error (Op.access_error hdelete) _)]
        exact .stopped hlast (.delete (by rw [hleft, List.head?_cons])) hfault
      | none =>
        rw [hfault] at hdelete
        rw [Cursor.foldFuel_of_ok fuel hnext (bind_ok (Op.access_ok hdelete) _)]
        have hentries := Namespace.entries_view_erase hleft
        refine ih hyields.sound (hyields.space.trans hspace) (hlast.delete hleft hfault) ?_
          (show (collection.space.view _).entries.length < fuel from hentries ▸ hsize)
        -- the cursor has still before it all keys that are left
        rw [Engine.store_called, hentries, hrest, hstore, ← hspace, ← hyields.space]
        exact Cursor.remaining_erase hyields.past _

theorem fold_delete (before : World) :
    collection.Cleared before (collection.keyCursor.fold 0 (fun removed entry => do
      collection.delete entry.key
      return removed + 1) before) := by
  have hkeys : collection.keyCursor.remaining before.engine.store =
      (collection.held before).entries.map fun e => ⟨e.1, none⟩ :=
    (collection.held before).scan_all_keysOnly
  have hfuel := collection.keyCursor.length_remaining_lt before.engine.store
  rw [hkeys, List.length_map] at hfuel
  exact collection.foldFuel_delete (Cursor.sound_start _ _ _) rfl (.refl _ _) hkeys hfuel

theorem empty_cases (world : World) : ∃ gone engine,
    world.engine.Cut collection.space gone engine ∧
      ((gone = (collection.held world).size ∧ collection.empty world = .ok () { world with
          engine
          log := .emptied collection.path (collection.held world).size :: world.log }) ∨
        ∃ call fault, collection.space.Clears (collection.space.view engine.store).entries call ∧
          engine.fault? call = some fault ∧ collection.empty world =
            .error (.store fault) { world with engine := engine.called call engine.store }) := by
  have hcleared := collection.fold_delete world
  cases hfold : collection.keyCursor.fold 0 (fun removed entry => do
      collection.delete entry.key
      return removed + 1) world with
  | ok removed after =>
    rw [hfold] at hcleared
    cases hcleared with
    | emptied hcut => exact ⟨_, _, hcut, .inl ⟨rfl, bind_ok hfold _⟩⟩
  | error error after =>
    rw [hfold] at hcleared
    cases hcleared with
    | stopped hcut hcall hfault =>
      exact ⟨_, _, hcut, .inr ⟨_, _, hcall, hfault, bind_error hfold _⟩⟩

/-- On an engine that serves every call the namespace ends up empty. -/
theorem empty_spec {world : World} (hserved : world.engine.faults = .never) :
    ∃ store after, world.Became store after ∧ collection.space.view store = .empty ∧
      collection.empty world = .ok () after := by
  obtain ⟨gone, engine, hcut, ⟨rfl, hrun⟩ | ⟨call, fault, -, hfault, -⟩⟩ := collection.empty_cases world
  · refine ⟨_, _, ?_, hcut.empty, hrun⟩
    exact ⟨rfl, hcut.faults, rfl, rfl⟩
  · rw [Engine.fault?_of_never (hcut.faults.trans hserved)] at hfault
    cases hfault

/-- Clearing deletes the entries of a collection in ascending order of their keys, each once, whatever
their values are and whichever calls fail. If no call does, the collection is empty afterwards, and how
many entries it had is reported. Otherwise the failing call is the last one, what had not been deleted
before it is left as it was, and nothing is reported. The rest of the store is what it was. -/
theorem empty_removes_ascending_prefix (world : World) : ∃ gone engine,
    world.engine.Cut collection.space gone engine ∧
      (∀ other : Namespace, collection.space.Fits → other.Fits → other ≠ collection.space →
        other.view engine.store = other.view world.engine.store) ∧
      ((gone = (collection.held world).size ∧ collection.space.view engine.store = .empty ∧
          collection.empty world = .ok () { world with
            engine
            log := .emptied collection.path (collection.held world).size :: world.log }) ∨
        ∃ call fault, collection.space.Clears (collection.space.view engine.store).entries call ∧
          engine.fault? call = some fault ∧ collection.empty world =
            .error (.store fault) { world with engine := engine.called call engine.store }) := by
  obtain ⟨gone, engine, hcut, hrun⟩ := collection.empty_cases world
  refine ⟨gone, engine, hcut, fun other hspace => hcut.view_of_ne hspace, ?_⟩
  rcases hrun with ⟨rfl, hrun⟩ | hrun
  · exact .inl ⟨rfl, hcut.empty, hrun⟩
  · exact .inr hrun

/-- Three entries that cannot be read, on an engine that does not delete the last one. -/
def lastStays : World where
  engine := {
    store := ⟨[[1], [2], [3]].map fun key => ((Namespace.root.sub "q").dataKey key, [0xff]),
      by decide +kernel⟩
    faults := fun _ call =>
      if call = .delete ((Namespace.root.sub "q").dataKey [3]) then some .closed else none }

example : (match (⟨Namespace.root.sub "q", {}, 2⟩ : Collection).empty lastStays with
    | .ok _ _ => none
    | .error error after => some (error, after.engine.deletions.length, after.engine.store.entries)) =
    some (.store .closed, 3, [((Namespace.root.sub "q").dataKey [3], [0xff])]) := by
  rfl

end Collection

end DocStore
