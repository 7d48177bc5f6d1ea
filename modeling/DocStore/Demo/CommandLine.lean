/-
The command line of the demonstration program. Options are read from left to right and each may
be given once; what is not given is looked up in the environment and else has a default. Asking
for help or the version ends the reading where it stands, as does the first mistake.
-/
import DocStore.Number.Decimal

namespace DocStore.Demo

/-- What the program is asked to do. -/
structure Settings where
  /-- The database file; without one the store lives in memory. -/
  path : Option String := none
  pageSize : Nat := 64
  exclusiveRemoval : Bool := false
  log : String := "info"
  deriving DecidableEq

/-- Why the program does not run. -/
inductive Halt where
  | help
  | version
  | misuse
  deriving DecidableEq

/-- The options that have a value. -/
inductive Setting where
  | path
  | pageSize
  | log
  deriving DecidableEq

/-- The options given so far. -/
structure Given where
  path : Option String := none
  pageSize : Option Nat := none
  exclusiveRemoval : Option Bool := none
  log : Option String := none

/-- A number of 64 bits in decimal, perhaps with a plus sign. -/
def readSize? (s : String) : Option Nat :=
  let digits := match s.toList with
    | '+' :: rest => rest
    | cs => cs
  (Decimal.read? digits).filter (· < UInt64.size)

namespace Given

/-- Whether a setting has been given. -/
def has (given : Given) : Setting → Bool
  | .path => given.path.isSome
  | .pageSize => given.pageSize.isSome
  | .log => given.log.isSome

/-- Gives a setting its value. A path is not empty and a page size is a number. -/
def set (given : Given) (setting : Setting) (value : String) : Except Halt Given :=
  if given.has setting then throw .misuse
  else
    match setting with
    | .path => if value.isEmpty then throw .misuse else return { given with path := some value }
    | .pageSize =>
      match readSize? value with
      | some n => return { given with pageSize := some n }
      | none => throw .misuse
    | .log => return { given with log := some value }

/-- Asks for exclusive removal. -/
def setExclusive (given : Given) (on : Bool) : Except Halt Given :=
  if given.exclusiveRemoval.isSome then throw .misuse
  else return { given with exclusiveRemoval := some on }

end Given

/-- Whether an argument is an option and cannot be the value of one. -/
def looksLikeOption (arg : String) : Bool :=
  match arg.toList with
  | '-' :: _ :: _ => true
  | _ => false

/-- The setting of a long name. -/
def Setting.ofName? : String → Option Setting
  | "db-path" => some .path
  | "scan-page-size" => some .pageSize
  | "log" => some .log
  | _ => none

/-- What one argument is. -/
inductive Argument where
  | setting (setting : Setting) (attached : Option String)
  | exclusive
  | halt (halt : Halt)
  /-- Ends the options. -/
  | last

/-- Reads one argument by itself. -/
def Argument.ofString (arg : String) : Argument :=
  match arg.toList with
  | ['-', '-'] => .last
  | '-' :: '-' :: long =>
    let name := String.ofList (long.takeWhile (· != '='))
    let attached := match long.dropWhile (· != '=') with
      | _ :: value => some (String.ofList value)
      | [] => none
    match name, attached with
    | "help", none => .halt .help
    | "version", none => .halt .version
    | "exclusive-removal", none => .exclusive
    | _, _ =>
      match Setting.ofName? name with
      | some named => .setting named attached
      | none => .halt .misuse
  | '-' :: 'h' :: _ => .halt .help
  | '-' :: 'V' :: _ => .halt .version
  | ['-', 'd'] => .setting .path none
  | '-' :: 'd' :: '=' :: value => .setting .path (some (String.ofList value))
  | '-' :: 'd' :: value => .setting .path (some (String.ofList value))
  | _ => .halt .misuse

/-- Reads arguments from left to right. -/
def readArguments : List String → Given → Except Halt Given
  | [], given => return given
  | arg :: rest, given =>
    match Argument.ofString arg with
    | .halt halt => throw halt
    | .exclusive => do readArguments rest (← given.setExclusive true)
    | .setting setting (some value) => do readArguments rest (← given.set setting value)
    | .setting setting none =>
      match rest with
      | value :: rest =>
        if looksLikeOption value then throw .misuse
        else do readArguments rest (← given.set setting value)
      | [] => throw .misuse
    | .last => if rest.isEmpty then return given else throw .misuse

/-- Takes a setting that was not given from the environment. -/
def fromEnvironment (environment : String → Option String) (given : Given)
    (setting : Setting) (name : String) : Except Halt Given :=
  if given.has setting then return given
  else
    match environment name with
    | some value => given.set setting value
    | none => return given

/-- Takes the wish for exclusive removal from the environment if it was not given. -/
def exclusiveFromEnvironment (environment : String → Option String) (given : Given) :
    Except Halt Given :=
  if given.exclusiveRemoval.isSome then return given
  else
    match environment "FLEXEL_EXCLUSIVE_REMOVAL" with
    | some "true" => given.setExclusive true
    | some "false" => given.setExclusive false
    | some _ => throw .misuse
    | none => return given

/-- The settings of a command line and an environment. -/
def readSettings (args : List String) (environment : String → Option String) :
    Except Halt Settings := do
  let given ← readArguments args {}
  let given ← fromEnvironment environment given .path "FLEXEL_DB_PATH"
  let given ← fromEnvironment environment given .pageSize "FLEXEL_SCAN_PAGE_SIZE"
  let given ← exclusiveFromEnvironment environment given
  let given ← fromEnvironment environment given .log "FLEXEL_LOG"
  return {
    path := given.path
    pageSize := given.pageSize.getD 64
    exclusiveRemoval := given.exclusiveRemoval.getD false
    log := given.log.getD "info" }

end DocStore.Demo
