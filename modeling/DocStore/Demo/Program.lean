/-
The demonstration program: it stores a document and two stacks in a part of a database and
prints what it finds there. What it prints before a failure is printed.
-/
import DocStore.Database
import DocStore.Demo.CommandLine

namespace DocStore.Demo

mutual

/-- A value with the name of its kind around it. -/
def describe : Value → List Char
  | .null => "Null".toList
  | .bool b => "Bool(".toList ++ (if b then "true" else "false").toList ++ [')']
  | .int i => "Int(".toList ++ JsonNumber.intText i.toInt ++ [')']
  | .float x =>
    "Float(".toList ++
      (if x.isFinite then JsonNumber.numeralText x.shortest else x.nonFiniteName.toList) ++ [')']
  | .string s => "String(".toList ++ JsonToken.quoted s ++ [')']
  | .date t => "Date(".toList ++ t.chars ++ [')']
  | .array items => "Array([".toList ++ describeItems items ++ [']', ')']
  | .map fields => "Map(\x7b".toList ++ describeFields fields ++ ['}', ')']

/-- Values with commas between them. -/
def describeItems : List Value → List Char
  | [] => []
  | [item] => describe item
  | item :: rest => describe item ++ ',' :: ' ' :: describeItems rest

/-- Fields with commas between them. -/
def describeFields : List (String × Value) → List Char
  | [] => []
  | [(name, value)] => JsonToken.quoted name ++ ':' :: ' ' :: describe value
  | (name, value) :: rest =>
    JsonToken.quoted name ++ ':' :: ' ' :: describe value ++ ',' :: ' ' :: describeFields rest

end

/-- A value that may be missing, described. -/
def describeFound : Option Value → String
  | some value => String.ofList ("Some(".toList ++ describe value ++ [')'])
  | none => "None"

/-- A computation that works on a world and prints lines, kept latest first. -/
abbrev Script := EStateM Error (World × List String)

namespace Script

/-- Runs an operation. -/
def perform {α : Type} (operation : Op α) : Script α := fun (world, lines) =>
  match operation world with
  | .ok a world => .ok a (world, lines)
  | .error error world => .error error (world, lines)

/-- Prints a line. -/
def print (line : String) : Script Unit := modify fun (world, lines) => (world, line :: lines)

end Script

/-- Takes the newest items of a sequence until none is left, at most `fuel` of them, and prints
each. -/
def popAll (sequence : Sequence) : Nat → Script Unit
  | 0 => return ()
  | fuel + 1 => do
    match ← Script.perform (sequence.take .newest) with
    | some item =>
      Script.print ("  popped " ++ String.ofList (describe item))
      popAll sequence fuel
    | none => return ()

/-- What the program does. -/
def script (config : Config) : Script Unit := do
  let database ← Script.perform (Database.openRoot config)
  let test := database.sub "test"
  Script.perform (test.put "name" (.string "World"))
  let numbers := test.sequence "stack-a"
  let flags := test.sequence "stack-b"
  discard (Script.perform (numbers.insert (.int 7)))
  discard (Script.perform (flags.insert (.bool true)))
  discard (Script.perform (flags.insert (.bool true)))
  discard (Script.perform (flags.insert (.bool false)))
  let name ← Script.perform (test.get "name")
  Script.print ("name    = " ++ describeFound name)
  let numberCount ← Script.perform (numbers.collection.count none)
  Script.print ("stack-a = " ++ toString numberCount ++ " item(s)")
  let flagCount ← Script.perform (flags.collection.count none)
  Script.print ("stack-b = " ++ toString flagCount ++ " item(s)")
  popAll flags (flagCount + 1)

/-- How a run of the program ends. -/
structure Ending where
  /-- The lines it has printed, in order. -/
  lines : List String
  exitCode : UInt32
  store : ByteMap
  /-- The events it has logged, in order. -/
  events : List Event

/-- Runs the program on what a store holds, at a clock reading. -/
def run (settings : Settings) (store : ByteMap) (clock : UInt64) : Ending :=
  let config := { pageSize := settings.pageSize, exclusiveRemoval := settings.exclusiveRemoval }
  let ended (exitCode : UInt32) (state : World × List String) : Ending :=
    ⟨state.2.reverse, exitCode, state.1.engine.store, state.1.log.reverse⟩
  match script config ({ engine := { store }, clock }, []) with
  | .ok _ state => ended 0 state
  | .error _ state => ended 1 state

end DocStore.Demo
