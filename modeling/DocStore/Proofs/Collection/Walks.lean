/-
Going through all documents of a namespace. On an engine whose calls are served a query selects
from the documents in the order of their keys and fails at the first that cannot be read, and a count
counts them, whatever the size of a page.
-/
import DocStore.Proofs.Collection.Documents

namespace DocStore

/-! ## Folds -/

namespace Cursor

variable {σ : Type}

section
variable {f : σ → Entry → Op σ} {cursor rest : Cursor} {world after : World} {engine : Engine}
  {entry : Entry} (fuel : Nat) {acc : σ}

theorem foldFuel_of_end (hnext : cursor.next world.engine = .ok none engine) :
    cursor.foldFuel f (fuel + 1) acc world = .ok acc { world with engine } :=
  bind_ok (Op.access_ok hnext) _

theorem foldFuel_of_fault {fault : StoreError} (hnext : cursor.next world.engine = .error fault engine) :
    cursor.foldFuel f (fuel + 1) acc world = .error (.store fault) { world with engine } :=
  bind_error (Op.access_error hnext) _

theorem foldFuel_of_ok {next : σ} (hnext : cursor.next world.engine = .ok (some (entry, rest)) engine)
    (hstep : f acc entry { world with engine } = .ok next after) :
    cursor.foldFuel f (fuel + 1) acc world = rest.foldFuel f fuel next after :=
  (bind_ok (Op.access_ok hnext) _).trans (bind_ok hstep _)

theorem foldFuel_of_error {error : Error}
    (hnext : cursor.next world.engine = .ok (some (entry, rest)) engine)
    (hstep : f acc entry { world with engine } = .error error after) :
    cursor.foldFuel f (fuel + 1) acc world = .error error after :=
  (bind_ok (Op.access_ok hnext) _).trans (bind_error hstep _)

end

/-- On an engine that serves every call a cursor reports its end or yields an entry, and writes
nothing. -/
theorem next_served {cursor : Cursor} {world : World} (hsound : cursor.Sound)
    (hserved : world.engine.faults = .never) :
    (∃ engine, cursor.next world.engine = .ok none engine ∧ world.Unwritten { world with engine } ∧
        cursor.remaining world.engine.store = []) ∨
      ∃ entry rest engine, cursor.next world.engine = .ok (some (entry, rest)) engine ∧
        world.Unwritten { world with engine } ∧ cursor.Yields world.engine.store entry rest := by
  have hsame := Op.unwritten_access cursor.keeps_next
  rcases cursor.next_spec hsound world.engine with
    ⟨error, engine, -, hfaults⟩ | ⟨engine, hnext, hend⟩ | ⟨entry, rest, engine, hnext, hyields⟩
  · exact absurd hserved hfaults
  · exact .inl ⟨engine, hnext, hsame.of_ok (Op.access_ok hnext), hend⟩
  · exact .inr ⟨entry, rest, engine, hnext, hsame.of_ok (Op.access_ok hnext), hyields⟩

/-- A fold that only computes goes through all that remains, up to its first error. -/
theorem foldFuel_coded {g : σ → Entry → Except CodecError σ} {fuel : Nat} {cursor : Cursor}
    {world : World} (hsound : cursor.Sound) (hserved : world.engine.faults = .never)
    (hfuel : (cursor.remaining world.engine.store).length < fuel) (acc : σ) :
    ∃ after, world.Unwritten after ∧
      cursor.foldFuel (fun acc entry => Op.coded (g acc entry)) fuel acc world =
        match (cursor.remaining world.engine.store).foldlM g acc with
        | .ok acc => .ok acc after
        | .error error => .error (.codec error) after := by
  -- on the fuel: every step leaves one entry less to go through
  induction fuel generalizing cursor world acc with
  | zero => omega
  | succ fuel ih =>
    rcases next_served hsound hserved with
      ⟨engine, hnext, hsame, hend⟩ | ⟨entry, rest, engine, hnext, hsame, hyields⟩
    · rw [foldFuel_of_end fuel hnext, hend]
      exact ⟨_, hsame, rfl⟩
    · rw [hyields.remaining, List.length_cons] at hfuel
      rw [hyields.remaining, List.foldlM_cons]
      cases hg : g acc entry with
      | error error =>
        rw [foldFuel_of_error fuel hnext (Op.coded_error hg _)]
        exact ⟨_, hsame, rfl⟩
      | ok next =>
        rw [foldFuel_of_ok fuel hnext (Op.coded_ok hg _)]
        have hstore := hsame.store
        obtain ⟨after, hafter, hrun⟩ := ih hyields.sound (hsame.faults.trans hserved)
          (by rw [hstore]; omega) next
        rw [hstore] at hrun
        exact ⟨after, trans_of World.Unwritten hsame hafter, hrun⟩

theorem fold_coded {g : σ → Entry → Except CodecError σ} {cursor : Cursor} {world : World}
    (hsound : cursor.Sound) (hserved : world.engine.faults = .never) (acc : σ) :
    ∃ after, world.Unwritten after ∧
      cursor.fold acc (fun acc entry => Op.coded (g acc entry)) world =
        match (cursor.remaining world.engine.store).foldlM g acc with
        | .ok acc => .ok acc after
        | .error error => .error (.codec error) after :=
  foldFuel_coded hsound hserved (cursor.length_remaining_lt world.engine.store) acc

end Cursor

/-! ## Queries and counts -/

theorem Op.coded_map {α β : Type} (answer : Except CodecError α) (f : α → β) :
    (do
      let a ← Op.coded answer
      return f a) = Op.coded (answer.map f) := by
  cases answer <;> rfl

/-- The entry of a scan of all documents. -/
def Entry.ofStored (e : Bytes × Bytes) : Entry := ⟨e.1, some e.2⟩

theorem foldlM_document {σ : Type} (step : σ → Value → σ) (entries : List (Bytes × Bytes)) (acc : σ) :
    (entries.map Entry.ofStored).foldlM (fun acc entry => entry.document.map (step acc)) acc =
      (entries.mapM fun e => Codec.decode e.2).map fun docs => docs.foldl step acc := by
  induction entries generalizing acc with
  | nil => rfl
  | cons e rest ih =>
    rw [List.map_cons, List.foldlM_cons, List.mapM_cons]
    show (Codec.decode e.2).map (step acc) >>= _ = _
    cases Codec.decode e.2 with
    | error error => rfl
    | ok doc =>
      show (rest.map Entry.ofStored).foldlM _ (step acc doc) = _
      rw [ih]
      show _ = Except.map _ ((rest.mapM fun e => Codec.decode e.2) >>= fun docs => pure (doc :: docs))
      cases rest.mapM fun e => Codec.decode e.2 <;> rfl

@[simp] theorem Expression.select_everything (docs : List Value) : everything.select docs = docs :=
  List.filter_eq_self.2 fun _ _ => by simp [everything, Expression.matches, allMatch]

theorem foldl_select (p : Value → Bool) (docs found : List Value) :
    docs.foldl (fun found doc => if p doc then doc :: found else found) found =
      (docs.filter p).reverse ++ found := by
  induction docs generalizing found with
  | nil => rfl
  | cons doc docs ih =>
    rw [List.foldl_cons, ih]
    by_cases h : p doc = true <;> simp [h]

theorem foldl_count (p : Value → Bool) (docs : List Value) (count : Nat) :
    docs.foldl (fun count doc => if p doc then count + 1 else count) count =
      count + (docs.filter p).length := by
  induction docs generalizing count with
  | nil => rfl
  | cons doc docs ih =>
    rw [List.foldl_cons, ih]
    by_cases h : p doc = true
    · simp [h]; omega
    · simp [h]

namespace Collection

variable (collection : Collection) {world : World} (hserved : world.engine.faults = .never)

/-- The documents of the collection in ascending order of their keys, or why the first unreadable
one of them cannot be read. -/
def readAll (collection : Collection) (world : World) : Except CodecError (List Value) :=
  (collection.held world).entries.mapM fun e => Codec.decode e.2

include hserved

/-- A fold that only looks at the documents goes through those that `readAll` reads. -/
theorem fold_documents {σ : Type} (step : σ → Value → σ) (acc : σ) :
    ∃ after, world.Unwritten after ∧
      (collection.cursor .all).fold acc (fun acc entry => do
        let doc ← Op.coded entry.document
        return step acc doc) world =
      match collection.readAll world with
      | .ok docs => .ok (docs.foldl step acc) after
      | .error error => .error (.codec error) after := by
  obtain ⟨after, hafter, hfold⟩ := Cursor.fold_coded
    (g := fun acc (entry : Entry) => entry.document.map (step acc))
    (Cursor.sound_start collection.space .all collection.pageSize) hserved acc
  refine ⟨after, hafter, ?_⟩
  have hentries : (Cursor.start collection.space .all collection.pageSize).remaining
      world.engine.store = (collection.held world).entries.map Entry.ofStored :=
    (collection.held world).scan_all
  simp only [Op.coded_map]
  show Cursor.fold (Cursor.start _ _ _) _ _ _ = _
  rw [hfold, hentries, foldlM_document]
  unfold readAll
  cases (collection.held world).entries.mapM fun e => Codec.decode e.2 <;> rfl

theorem query_spec (expression : Expression) :
    ∃ after, world.Unwritten after ∧ collection.query expression world =
      match collection.readAll world with
      | .ok docs => .ok (expression.select docs) after
      | .error error => .error (.codec error) after := by
  obtain ⟨after, hafter, hfold⟩ := collection.fold_documents hserved
    (fun found doc => if expression.matches doc then doc :: found else found) []
  refine ⟨after, hafter, ?_⟩
  unfold query
  cases hread : collection.readAll world with
  | error error =>
    rw [hread] at hfold
    rw [bind_error hfold]
  | ok docs =>
    rw [hread] at hfold
    rw [bind_ok hfold, foldl_select, List.append_nil, List.reverse_reverse]
    rfl

theorem count_spec (expression : Option Expression) :
    ∃ after, world.Unwritten after ∧ collection.count expression world =
      match collection.readAll world with
      | .ok docs => .ok ((expression.getD .everything).select docs).length after
      | .error error => .error (.codec error) after := by
  obtain ⟨after, hafter, hfold⟩ := collection.fold_documents hserved
    (fun count doc => if (expression.getD .everything).matches doc then count + 1 else count) 0
  refine ⟨after, hafter, ?_⟩
  unfold count
  rw [hfold]
  cases collection.readAll world with
  | error error => rfl
  | ok docs => simp only [foldl_count, Nat.zero_add, Expression.select]

/-! ## Single documents -/

theorem get_spec (key : Bytes) : ∃ after, world.Unwritten after ∧ collection.get key world =
    match ((collection.held world).get? key).map Codec.decode with
    | none => .ok none after
    | some (.ok doc) => .ok (some doc) after
    | some (.error error) => .error (.codec error) after := by
  have hget := collection.space.get_eq world.engine key
  rw [Engine.fault?_of_never hserved] at hget
  let called := world.engine.called (.get (collection.space.dataKey key)) world.engine.store
  refine ⟨{ world with engine := called }, ⟨rfl, rfl, rfl, rfl⟩, ?_⟩
  refine (bind_ok (Op.access_ok hget) _).trans ?_
  unfold held
  cases (collection.space.view world.engine.store).get? key with
  | none => rfl
  | some bytes =>
    simp only [Option.map_some]
    cases hdecode : Codec.decode bytes with
    | ok doc => exact bind_ok (Op.coded_ok rfl _) _
    | error error => exact bind_error (Op.coded_error rfl _) _

omit hserved in
theorem delete_served {world : World} (hserved : world.engine.faults = .never) (key : Bytes) :
    ∃ after, world.Became (world.engine.store.erase (collection.space.dataKey key)) after ∧
      collection.delete key world = .ok () after := by
  have hspec := collection.delete_spec world key
  cases hdelete : collection.delete key world <;> rw [hdelete] at hspec <;> cases hspec
  · exact ⟨_, ‹_›, rfl⟩
  · exact absurd hserved ‹_›

end Collection

end DocStore
