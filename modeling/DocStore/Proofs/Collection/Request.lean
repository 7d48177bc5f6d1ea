/-
Requests: whole operations of a database, each on one namespace. Whatever a request answers and
however it fails, the views of all other namespaces stay as they were, and of what operations
share it changes nothing but the last key issued.
-/
import DocStore.Database
import DocStore.Proofs.Collection.Documents
import DocStore.Session.Command

namespace DocStore

/-! ## Requests -/

/-- What is asked of a queue or a stack. -/
inductive SequenceRequest where
  | insert (item : Value)
  | peek (fromEnd : End)
  | take (fromEnd : End)
  | query (expression : Expression)
  | count (expression : Option Expression)
  | empty

/-- What is asked of a table. -/
inductive TableRequest where
  | put (item : Value)
  | get (key : String)
  | getAll
  | del (key : String)
  | query (expression : Expression)
  | count (expression : Option Expression)
  | empty

/-- What is asked of a part of a database: of its own documents, or of one of its collections. -/
inductive Request where
  | get (key : String)
  | put (key : String) (value : Value)
  | del (key : String)
  | query (expression : Expression)
  | sequence (name : String) (request : SequenceRequest)
  | table (name keyField : String) (request : TableRequest)

def SequenceRequest.run (sequence : Sequence) : SequenceRequest → Op Answer
  | insert item => return .document (← sequence.insert item)
  | peek fromEnd => return .found (← sequence.peek fromEnd)
  | take fromEnd => return .found (← sequence.take fromEnd)
  | query expression => return .documents (← sequence.collection.query expression)
  | count expression => return .count (← sequence.collection.count expression)
  | empty => do
    sequence.collection.empty
    return .done

/-- Whether the request draws a key from the generator. -/
def SequenceRequest.issuesKey : SequenceRequest → Bool
  | insert _ => true
  | _ => false

def TableRequest.run (table : Table) : TableRequest → Op Answer
  | put item => return .document (← table.put item)
  | get key => return .found (← table.get key)
  | getAll => return .documents (← table.getAll)
  | del key => do
    table.del key
    return .done
  | query expression => return .documents (← table.collection.query expression)
  | count expression => return .count (← table.collection.count expression)
  | empty => do
    table.collection.empty
    return .done

namespace Request

def run (database : Database) : Request → Op Answer
  | get key => return .found (← database.get key)
  | put key value => do
    database.put key value
    return .done
  | del key => do
    database.del key
    return .done
  | query expression => return .documents (← database.query expression)
  | sequence name request => request.run (database.sequence name)
  | table name keyField request => request.run (database.table name keyField)

/-- The namespace that a request is about. -/
def space (database : Database) : Request → Namespace
  | sequence name _ => database.space.sub name
  | table name _ _ => database.space.sub name
  | _ => database.space

/-- Whether the request draws a key from the generator. -/
def issuesKey : Request → Bool
  | sequence _ request => request.issuesKey
  | _ => false

end Request

/-! ## What others see of an operation -/

/-- Nothing of a namespace has changed, nor has anything that operations on it share. -/
structure World.Spares (space : Namespace) (before after : World) : Prop where
  view : space.view after.engine.store = space.view before.engine.store
  faults : after.engine.faults = before.engine.faults
  clock : after.clock = before.clock
  lastKey : after.lastKey = before.lastKey

/-- The world after a key has been drawn, or none. -/
def World.drawn (world : World) (issues : Bool) : World := if issues then world.issued else world

namespace World.Spares

variable {space : Namespace}

instance : Std.Refl (World.Spares space) := ⟨fun _ => ⟨rfl, rfl, rfl, rfl⟩⟩

instance : IsTrans World (World.Spares space) :=
  ⟨fun _ _ _ hab hbc => ⟨hbc.view.trans hab.view, hbc.faults.trans hab.faults,
    hbc.clock.trans hab.clock, hbc.lastKey.trans hab.lastKey⟩⟩

theorem of_unwritten (before after : World) (h : before.Unwritten after) : before.Spares space after :=
  ⟨congrArg _ h.store, h.faults, h.clock, h.lastKey⟩

end World.Spares

/-- A fold keeps what its steps keep, if a cursor keeps it. -/
theorem Cursor.keeps_fold {σ : Type} {R : World → World → Prop} [Std.Refl R] [IsTrans World R]
    (hR : ∀ a b, World.Unwritten a b → R a b) {f : σ → Entry → Op σ}
    (hf : ∀ acc entry, Keeps R (f acc entry)) (cursor : Cursor) (acc : σ) :
    Keeps R (cursor.fold acc f) := by
  have hfuel : ∀ fuel (cursor : Cursor) acc, Keeps R (cursor.foldFuel f fuel acc) := by
    intro fuel
    induction fuel with
    | zero => exact fun _ acc => Keeps.pure acc
    | succ fuel ih =>
      intro cursor acc
      unfold Cursor.foldFuel
      refine Keeps.bind ((Op.unwritten_access cursor.keeps_next).mono hR) fun step => ?_
      split
      · exact Keeps.pure _
      · exact Keeps.bind (hf _ _) fun acc => ih _ acc
  exact ⟨fun h => (hfuel _ cursor acc).of_ok h, fun h => (hfuel _ cursor acc).of_error h⟩

section Elsewhere

variable {space : Namespace} (hspace : space.Fits) {collection : Collection}
  (hother : collection.space.Fits) (hne : space ≠ collection.space)

namespace Collection

theorem unwritten_get (key : Bytes) : Keeps World.Unwritten (collection.get key) := by
  unfold get
  refine Keeps.bind (Op.unwritten_access (collection.space.keeps_get key)) fun found => ?_
  split
  · exact Keeps.bind (Op.keeps_coded _) fun _ => Keeps.pure _
  · exact Keeps.pure _

theorem unwritten_query (expression : Expression) :
    Keeps World.Unwritten (collection.query expression) := by
  refine Keeps.bind (Cursor.keeps_fold (fun _ _ h => h) (fun found entry => ?_) _ _) fun _ =>
    Keeps.pure _
  exact Keeps.bind (Op.keeps_coded _) fun _ => Keeps.pure _

theorem unwritten_count (expression : Option Expression) :
    Keeps World.Unwritten (collection.count expression) := by
  refine Cursor.keeps_fold (fun _ _ h => h) (fun count entry => ?_) _ _
  exact Keeps.bind (Op.keeps_coded _) fun _ => Keeps.pure _

include hspace hother hne

theorem spares_put (key : Bytes) (value : Value) :
    Keeps (World.Spares space) (collection.put key value) := by
  constructor
  · intro world u after h
    have hspec := collection.put_spec world key value
    rw [h] at hspec
    cases hspec with
    | stored hencode hafter =>
      refine ⟨?_, hafter.faults, hafter.clock, hafter.lastKey⟩
      rw [hafter.store, Namespace.view_insert_of_ne hother hspace hne]
  · intro world error after h
    have hspec := collection.put_spec world key value
    rw [h] at hspec
    cases hspec with
    | refused hencode => exact refl_of (World.Spares space) _
    | fault hencode hfaults hsame => exact .of_unwritten _ _ hsame

theorem spares_delete (key : Bytes) : Keeps (World.Spares space) (collection.delete key) := by
  constructor
  · intro world u after h
    have hspec := collection.delete_spec world key
    rw [h] at hspec
    cases hspec with
    | erased hafter =>
      refine ⟨?_, hafter.faults, hafter.clock, hafter.lastKey⟩
      rw [hafter.store, Namespace.view_erase_of_ne hother hspace hne]
  · intro world error after h
    have hspec := collection.delete_spec world key
    rw [h] at hspec
    cases hspec with
    | fault hfaults hsame => exact .of_unwritten _ _ hsame

theorem spares_empty : Keeps (World.Spares space) collection.empty := by
  refine Keeps.bind (Cursor.keeps_fold World.Spares.of_unwritten (fun removed entry => ?_) _ _)
    fun removed => (Op.unwritten_report _).mono World.Spares.of_unwritten
  exact Keeps.bind (spares_delete hspace hother hne _) fun _ => Keeps.pure _

end Collection

namespace Sequence

variable {sequence : Sequence}

include hspace

theorem spares_store (hother : sequence.collection.space.Fits)
    (hne : space ≠ sequence.collection.space) (key : SequenceKey) (item : Value) :
    Keeps (World.Spares space) (sequence.store key item) := by
  refine Keeps.bind (Collection.spares_put hspace hother hne _ _) fun _ => ?_
  refine Keeps.bind ((Op.unwritten_report _).mono World.Spares.of_unwritten) fun _ => ?_
  exact Keeps.pure _

theorem spares_remove (hother : sequence.collection.space.Fits)
    (hne : space ≠ sequence.collection.space) (fromEnd : End) (key : Bytes) (item : Value) :
    Keeps (World.Spares space) (sequence.remove fromEnd key item) := by
  refine Keeps.bind (Collection.spares_delete hspace hother hne _) fun _ => ?_
  refine Keeps.bind ((Op.unwritten_report _).mono World.Spares.of_unwritten) fun _ => ?_
  exact Keeps.pure _

theorem spares_take (hother : sequence.collection.space.Fits)
    (hne : space ≠ sequence.collection.space) (fromEnd : End) :
    Keeps (World.Spares space) (sequence.take fromEnd) := by
  refine Keeps.bind ((sequence.collection.unwritten_first fromEnd).mono World.Spares.of_unwritten)
    fun found => ?_
  split
  · exact Keeps.bind (spares_remove hspace hother hne _ _ _) fun _ => Keeps.pure _
  · exact Keeps.pure _

end Sequence

end Elsewhere

/-! ## Requests on other namespaces -/

/-- The operation draws a key or none, and otherwise spares a namespace. -/
def SparesAfterDrawing {α : Type} (space : Namespace) (issues : Bool) (x : Op α) : Prop :=
  Keeps (fun before after => (before.drawn issues).Spares space after) x

theorem SparesAfterDrawing.of_spares {α : Type} {space : Namespace} {x : Op α}
    (h : Keeps (World.Spares space) x) : SparesAfterDrawing space false x := h

theorem SparesAfterDrawing.of_issueKey {α : Type} {space : Namespace} {f : SequenceKey → Op α}
    (h : ∀ key, Keeps (World.Spares space) (f key)) :
    SparesAfterDrawing space true (Op.issueKey >>= f) := by
  constructor
  · intro world a after hrun
    have hf : f (SequenceKey.next world.lastKey world.clock) world.issued = .ok a after := hrun
    exact (h _).of_ok hf
  · intro world error after hrun
    have hf : f (SequenceKey.next world.lastKey world.clock) world.issued = .error error after := hrun
    exact (h _).of_error hf

variable {space : Namespace} (hspace : space.Fits)

include hspace

theorem SequenceRequest.spares {sequence : Sequence} (hother : sequence.collection.space.Fits)
    (hne : space ≠ sequence.collection.space) (request : SequenceRequest) :
    SparesAfterDrawing space request.issuesKey (request.run sequence) := by
  have hread := @World.Spares.of_unwritten space
  cases request with
  | insert item =>
    show SparesAfterDrawing space true (sequence.insert item >>= fun item => pure (Answer.document item))
    unfold Sequence.insert
    rw [bind_assoc]
    refine .of_issueKey fun key => ?_
    exact Keeps.bind (Sequence.spares_store hspace hother hne key item) fun _ => Keeps.pure _
  | peek fromEnd =>
    exact .of_spares (Keeps.bind ((sequence.unwritten_peek fromEnd).mono hread) fun _ => Keeps.pure _)
  | take fromEnd =>
    exact .of_spares (Keeps.bind (Sequence.spares_take hspace hother hne fromEnd) fun _ => Keeps.pure _)
  | query expression =>
    exact .of_spares (Keeps.bind ((Collection.unwritten_query expression).mono hread) fun _ =>
      Keeps.pure _)
  | count expression =>
    exact .of_spares (Keeps.bind ((Collection.unwritten_count expression).mono hread) fun _ =>
      Keeps.pure _)
  | empty =>
    exact .of_spares (Keeps.bind (Collection.spares_empty hspace hother hne) fun _ => Keeps.pure _)

theorem TableRequest.spares {table : Table} (hother : table.collection.space.Fits)
    (hne : space ≠ table.collection.space) (request : TableRequest) :
    Keeps (World.Spares space) (request.run table) := by
  have hread := @World.Spares.of_unwritten space
  cases request with
  | put item =>
    refine Keeps.bind ?_ fun _ => Keeps.pure _
    unfold Table.put
    split
    · exact Keeps.throw _
    · refine Keeps.bind (Collection.spares_put hspace hother hne _ _) fun _ => ?_
      exact Keeps.bind ((Op.unwritten_report _).mono hread) fun _ => Keeps.pure _
  | get key => exact Keeps.bind ((Collection.unwritten_get _).mono hread) fun _ => Keeps.pure _
  | getAll => exact Keeps.bind ((Collection.unwritten_query _).mono hread) fun _ => Keeps.pure _
  | del key =>
    refine Keeps.bind (Keeps.bind (Collection.spares_delete hspace hother hne _) fun _ => ?_) fun _ =>
      Keeps.pure _
    exact (Op.unwritten_report _).mono hread
  | query expression =>
    exact Keeps.bind ((Collection.unwritten_query expression).mono hread) fun _ => Keeps.pure _
  | count expression =>
    exact Keeps.bind ((Collection.unwritten_count expression).mono hread) fun _ => Keeps.pure _
  | empty => exact Keeps.bind (Collection.spares_empty hspace hother hne) fun _ => Keeps.pure _

/-- A request spares every namespace but its own. -/
theorem Request.spares {database : Database} (request : Request)
    (hother : (request.space database).Fits) (hne : space ≠ request.space database) :
    SparesAfterDrawing space request.issuesKey (request.run database) := by
  have hread := @World.Spares.of_unwritten space
  cases request with
  | get key =>
    exact .of_spares (Keeps.bind ((Collection.unwritten_get _).mono hread) fun _ => Keeps.pure _)
  | put key value =>
    exact .of_spares (Keeps.bind (Collection.spares_put hspace hother hne _ _) fun _ => Keeps.pure _)
  | del key =>
    exact .of_spares (Keeps.bind (Collection.spares_delete hspace hother hne _) fun _ => Keeps.pure _)
  | query expression =>
    exact .of_spares (Keeps.bind ((Collection.unwritten_query expression).mono hread) fun _ =>
      Keeps.pure _)
  | sequence name request => exact request.spares hspace hother hne
  | table name keyField request => exact .of_spares (request.spares hspace hother hne)

end DocStore
