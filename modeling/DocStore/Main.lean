/-
The demonstration program as an executable: it reads the command line and the environment, loads
the database file if one is named, runs, and stores the file again. Events that the log filter
lets through go to the standard error.
-/
import DocStore.Demo.Help
import DocStore.Demo.Program
import DocStore.Store.Image
import Std.Time.DateTime.Timestamp

namespace DocStore.Demo

/-- The environment variables that the program looks at, as they are. -/
def environment : BaseIO (String → Option String) := do
  let names := ["FLEXEL_DB_PATH", "FLEXEL_SCAN_PAGE_SIZE", "FLEXEL_EXCLUSIVE_REMOVAL",
    "FLEXEL_LOG", "NO_COLOR", "CLICOLOR_FORCE"]
  let values ← names.mapM fun name => return (name, ← IO.getEnv name)
  return fun name => (values.lookup name).join

/-- Whether a log filter, which is the name of a level, lets an event through. -/
def passes (filter : String) (event : Event) : Bool :=
  match event.level with
  | .debug => filter.toLower == "debug" || filter.toLower == "trace"
  | .trace => filter.toLower == "trace"

/-- The line of an event on the standard error. -/
def eventLine (event : Event) : String :=
  let level := match event.level with
    | .debug => "DEBUG"
    | .trace => "TRACE"
  level ++ " " ++ event.message ++
    String.join (event.fields.map fun field => " " ++ field.1 ++ "=" ++ field.2)

/-- Loads a database file, which is created if it is missing; `none` if that fails. -/
def load (path : String) : IO (Option ByteMap) := do
  try
    IO.FS.withFile path .append fun _ => pure ()
    return ByteMap.ofImage? (← IO.FS.readFile path)
  catch _ => return none

/-- Runs the program with some settings and returns its exit code. -/
def execute (settings : Settings) : IO UInt32 := do
  let store? ← match settings.path with
    | some path => load path
    | none => pure (some ByteMap.empty)
  match store? with
  | none =>
    IO.eprintln "Error: the database file cannot be opened"
    return 1
  | some store =>
    let now ← Std.Time.Timestamp.now
    let nanos := now.toNanosecondsSinceUnixEpoch.val.toNat
    let ending := run settings store (UInt64.ofNat nanos)
    for event in ending.events do
      if passes settings.log event then IO.eprintln (eventLine event)
    for line in ending.lines do IO.println line
    if let some path := settings.path then IO.FS.writeFile path ending.store.image
    return ending.exitCode

end DocStore.Demo

/-- The entry point of the executable. -/
def main (args : List String) : IO UInt32 := do
  let environment ← DocStore.Demo.environment
  match DocStore.Demo.readSettings args environment with
  | .ok settings => DocStore.Demo.execute settings
  | .error halt =>
    let (text, exitCode) := halt.response environment
    IO.print text
    return exitCode
