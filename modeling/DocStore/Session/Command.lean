/-
Sessions: a database driven by commands, one after another, and what each of them answers.
Commands name a namespace by the names on the way to it from the root. Besides the operations
on documents there are commands that reach the engine and the clock below them, and some that
make calls of the engine fail.
-/
import DocStore.Query.Parse
import DocStore.Concurrent.Turns
import DocStore.Database

namespace DocStore

/-- A filter expression as it comes in. -/
inductive QuerySource where
  /-- A JSON text, its tagged dates to be revived. -/
  | text (s : String)
  /-- A document that describes the expression. -/
  | value (v : Value)
  /-- The expression itself. -/
  | tree (e : Expression)

/-- The expression of a source, `none` if it is a text that is no document. -/
def QuerySource.resolve? : QuerySource → Option (Except QueryError Expression)
  | text s => Expression.ofText? s
  | value v => some (Expression.parse v)
  | tree e => some (.ok e)

/-- An operation that looks at or takes from an end of a sequence. -/
structure Removal where
  space : Namespace
  name : String
  fromEnd : End
  /-- Whether the item is taken out. -/
  takes : Bool

/-- A fault to come: after `skip` calls of a kind the next one fails, and so do all others after
it if the fault is sticky. -/
structure Fault where
  error : StoreError
  skip : Nat
  sticky : Bool

/-- A command of a session. -/
inductive Command where
  | path (space : Namespace)
  | tablePath (space : Namespace) (keyField : String)
  | config
  | get (space : Namespace) (key : String)
  | put (space : Namespace) (key : String) (value : Value)
  | del (space : Namespace) (key : String)
  | query (space : Namespace) (source : QuerySource)
  | count (space : Namespace) (source : Option QuerySource)
  | empty (space : Namespace)
  | insert (space : Namespace) (name : String) (item : Value)
  | remove (removal : Removal)
  | tablePut (space : Namespace) (name keyField : String) (item : Value)
  | tableAll (space : Namespace) (name keyField : String)
  | tableDel (space : Namespace) (name keyField key : String)
  /-- Opens a lazy query under an id, in place of the one there. -/
  | stream (id : String) (space : Namespace) (source : QuerySource)
  /-- Takes up to `count` items of a lazy query. -/
  | next (id : String) (count : Nat)
  /-- Runs removals together. -/
  | join (removals : List Removal)
  | spacePut (space : Namespace) (key value : Bytes)
  | spaceGet (space : Namespace) (key : Bytes)
  | spaceDel (space : Namespace) (key : Bytes)
  | spaceScan (space : Namespace) (options : ScanOptions)
  /-- Collects a scan that fetches `pageSize` entries at a time. -/
  | spaceStream (space : Namespace) (options : ScanOptions) (pageSize : Nat)
  | enginePut (key value : Bytes)
  | engineGet (key : Bytes)
  | engineDel (key : Bytes)
  | engineScan (options : ScanOptions)
  | engineSize
  | setClock (nanos : UInt64)
  | fault (kind : CallKind) (fault : Fault)
  | clearFaults
  /-- Closes the database and opens it again. -/
  | reopen (freshKeys : Bool)

/-- What a command answers. -/
inductive Answer where
  | done
  | text (s : String)
  | texts (ss : List String)
  | config (config : Config)
  | document (value : Value)
  | found (value : Option Value)
  | documents (values : List Value)
  | count (n : Nat)
  | items (items : List DocumentStream.Item)
  | joined (answers : List (Except Error (Option Value)))
  | bytes (value : Option Bytes)
  | entries (entries : List Entry)
  | size (n : Nat)

/-- How a command ends. -/
inductive Outcome where
  | answer (answer : Answer)
  | failure (error : Error)
  /-- The text of an expression is no document. -/
  | malformedQuery

end DocStore
