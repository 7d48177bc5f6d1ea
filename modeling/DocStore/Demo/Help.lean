/-
What the demonstration program prints when it is asked for help or its version. The help names
each option with its variable of the environment and the variable's present value. Titles and
options are set off by control sequences, which only an output that wants them gets.
-/
import DocStore.Demo.CommandLine
import DocStore.Demo.PlainText

namespace DocStore.Demo

/-! ## Styles -/

/-- Whether an environment asks for styled output even where the output is no terminal. -/
def forcesStyle (environment : String → Option String) : Bool :=
  let isSet (name : String) : Bool := !((environment name).getD "").isEmpty
  isSet "CLICOLOR_FORCE" && !isSet "NO_COLOR"

/-- A text in bold. -/
def bold (s : String) : String := "\x1b[1m" ++ s ++ "\x1b[0m"

/-- A title, in bold and underlined. -/
def title (s : String) : String := "\x1b[1m\x1b[4m" ++ s ++ "\x1b[0m"

/-! ## The help -/

/-- The note about an environment variable, with its present value. Further lines of the value
are indented as the note is. -/
def environmentNote (environment : String → Option String) (name : String) : String :=
  let value := (environment name).getD ""
  let indented := value.toList.flatMap fun c =>
    if c = '\n' then '\n' :: List.replicate 10 ' ' else [c]
  "[env: " ++ name ++ "=" ++ String.ofList indented ++ "]"

/-- The help in an environment, styled. -/
def helpText (environment : String → Option String) : String :=
  let note := environmentNote environment
  "Exercise Flexel collections\n\n" ++
  title "Usage:" ++ " " ++ bold "flexel-demo" ++ " [OPTIONS]\n\n" ++
  title "Options:" ++ "\n" ++
  "  " ++ bold "-d" ++ ", " ++ bold "--db-path" ++ " <FILE>\n" ++
  "          Database file. Omit to use an in-memory store " ++
    note "FLEXEL_DB_PATH" ++ "\n" ++
  "      " ++ bold "--scan-page-size" ++ " <SCAN_PAGE_SIZE>\n" ++
  "          Entries fetched per engine call while scanning " ++
    note "FLEXEL_SCAN_PAGE_SIZE" ++ " [default: 64]\n" ++
  "      " ++ bold "--exclusive-removal" ++ "\n" ++
  "          Serialize pop/dequeue per namespace " ++
    note "FLEXEL_EXCLUSIVE_REMOVAL" ++ "\n" ++
  "      " ++ bold "--log" ++ " <LOG>\n" ++
  "          Log filter (error, warn, info, debug, trace or an EnvFilter directive) " ++
    note "FLEXEL_LOG" ++ " [default: info]\n" ++
  "  " ++ bold "-h" ++ ", " ++ bold "--help" ++ "\n" ++
  "          Print help\n" ++
  "  " ++ bold "-V" ++ ", " ++ bold "--version" ++ "\n" ++
  "          Print version\n"

/-- What the program prints in an environment when it does not run, and its exit code. The output
is taken for no terminal. -/
def Halt.response (environment : String → Option String) : Halt → String × UInt32
  | help =>
    let text := helpText environment
    (if forcesStyle environment then text else PlainText.ofString text, 0)
  | version => ("flexel-demo 0.1.0\n", 0)
  | misuse => ("", 2)

end DocStore.Demo
