/-
Databases: a namespace and a configuration, from which further namespaces and collections are
opened by name. Opening does not touch the store.
-/
import DocStore.Collection.Sequence
import DocStore.Collection.Table

namespace DocStore

/-- How a database works. -/
structure Config where
  /-- How many entries a scan fetches at a time; zero counts as one. -/
  pageSize : Nat := 64
  codec : Codec := {}
  /-- Whether only one operation at a time takes from a sequence. -/
  exclusiveRemoval : Bool := false

/-- A database, or a part of one. -/
structure Database where
  config : Config
  space : Namespace

namespace Database

/-- Opens the root of a database. -/
def openRoot (config : Config) : Op Database := do
  Op.report (.ready config.pageSize config.exclusiveRemoval)
  return ⟨config, .root⟩

/-- The part of a given name. -/
def sub (database : Database) (name : String) : Database :=
  { database with space := database.space.sub name }

/-- The documents of a namespace. -/
def collectionAt (database : Database) (space : Namespace) : Collection :=
  ⟨space, database.config.codec, database.config.pageSize⟩

/-- The database's own documents, which are in none of its collections. -/
def documents (database : Database) : Collection := database.collectionAt database.space

/-- The queue or stack of a given name; they are the same sequence. -/
def sequence (database : Database) (name : String) : Sequence :=
  ⟨database.collectionAt (database.space.sub name), database.config.exclusiveRemoval⟩

/-- The table of a given name. -/
def table (database : Database) (name keyField : String) : Table :=
  ⟨database.collectionAt (database.space.sub name), keyField⟩

def get (database : Database) (key : String) : Op (Option Value) :=
  database.documents.get (utf8 key)

def put (database : Database) (key : String) (value : Value) : Op Unit :=
  database.documents.put (utf8 key) value

def del (database : Database) (key : String) : Op Unit := database.documents.delete (utf8 key)

def query (database : Database) (expression : Expression) : Op (List Value) :=
  database.documents.query expression

end Database

end DocStore
