/-
Namespaces: a tree of named key spaces within one ordered map. A namespace has a stem of bytes.
Its own keys are stored under the stem and a zero byte; a child's stem is the parent's, a one
byte, the length of the child's name and the name. So the keys of a namespace lie below those
of all its children, and no stem of a child begins the stem of another.
-/
import DocStore.Store.Engine

namespace DocStore

/-- A namespace, given by the names on the way to it from the root. -/
structure Namespace where
  names : List String
  deriving DecidableEq

namespace Namespace

def root : Namespace := ⟨[]⟩

/-- The child of a given name. -/
def sub (space : Namespace) (name : String) : Namespace := ⟨space.names ++ [name]⟩

/-- What a child's name adds to the stem. -/
def nameStem (name : String) : Bytes :=
  let bytes := utf8 name
  1 :: bigEndian 4 (min bytes.length (UInt32.size - 1)) ++ bytes

/-- The bytes with which all keys of the namespace and of its children begin. -/
def stem (space : Namespace) : Bytes := space.names.flatMap nameStem

/-- The names joined by slashes. Nothing is put before the first name that is not empty. -/
def path (space : Namespace) : String :=
  space.names.foldl (fun path name => if path.isEmpty then name else path ++ "/" ++ name) ""

/-- The stored form of a key of the namespace. -/
def dataKey (space : Namespace) (key : Bytes) : Bytes := space.stem ++ 0 :: key

/-- The stored form of a bound on the keys of the namespace; an absent one is `otherwise`. -/
def dataBound (space : Namespace) (bound otherwise : Bound) : Bound :=
  match bound with
  | .included key => .included (space.dataKey key)
  | .excluded key => .excluded (space.dataKey key)
  | .unbounded => otherwise

/-- The scan of the whole store that finds what `options` asks of the namespace. -/
def dataScan (space : Namespace) (options : ScanOptions) : ScanOptions :=
  { options with
    lower := space.dataBound options.lower (.included (space.stem ++ [0]))
    upper := space.dataBound options.upper (.excluded (space.stem ++ [1])) }

/-- An entry of the namespace as it looks from inside. -/
def relative (space : Namespace) (entry : Entry) : Entry :=
  { entry with key := entry.key.drop (space.stem.length + 1) }

def get (space : Namespace) (key : Bytes) : Access (Option Bytes) := Engine.get (space.dataKey key)

def put (space : Namespace) (key value : Bytes) : Access Unit :=
  Engine.put (space.dataKey key) value

def delete (space : Namespace) (key : Bytes) : Access Unit := Engine.delete (space.dataKey key)

/-- The namespace's own entries that `options` asks for; its children are never visited. -/
def scan (space : Namespace) (options : ScanOptions) : Access (List Entry) := do
  let entries ← Engine.scan (space.dataScan options)
  return entries.map space.relative

end Namespace

end DocStore
