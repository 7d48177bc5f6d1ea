/-
The image of an ordered map in a file: a line for each entry, with the key and the value in
hexadecimal and a blank between them.
-/
import DocStore.Hex
import DocStore.Store.ByteMap

namespace DocStore.ByteMap

/-- The line of an entry. -/
def imageLine (entry : Bytes × Bytes) : List Char :=
  Hex.chars entry.1 ++ ' ' :: Hex.chars entry.2 ++ ['\n']

/-- The image of a map. -/
def image (map : ByteMap) : String := String.ofList (map.entries.flatMap imageLine)

/-- The entry of a line. -/
def ofImageLine? (line : List Char) : Option (Bytes × Bytes) :=
  match line.splitOn ' ' with
  | [key, value] => do return (← Hex.ofChars? key, ← Hex.ofChars? value)
  | _ => none

/-- The map of an image, `none` if a line is no entry. -/
def ofImage? (image : String) : Option ByteMap := do
  let lines := (image.toList.splitOn '\n').filter fun line => !line.isEmpty
  let entries ← lines.mapM ofImageLine?
  return entries.foldl (fun map entry => map.insert entry.1 entry.2) empty

end DocStore.ByteMap
