/-
Plain text: what an output that is no terminal gets of a text. Control characters that are no
blanks are dropped, and so are control sequences, each from its escape character to the end of
what that begins. A blank interrupts a short sequence: the text from there up to the next control
character is kept, and the sequence goes on after it unless the text went beyond ASCII.
-/

namespace DocStore.Demo.PlainText

/-- Which part of a text is being read. -/
inductive Mode where
  | text
  /-- After an escape character. -/
  | escape
  /-- In an escape of more than one character. -/
  | escapeTail
  /-- In a control sequence, which ends with a letter or a sign like one. -/
  | sequence
  /-- In a command to the terminal, which a bell ends. -/
  | command
  /-- At the head of a control string for a device. -/
  | device
  /-- In the parameters of a control string for a device. -/
  | deviceParameters
  /-- In what follows those parameters. -/
  | deviceTail
  /-- In the body of a control string, which a terminator ends. -/
  | string
  deriving DecidableEq

/-- Whether a control character is a blank. -/
def isBlankControl (c : Char) : Bool := c == '\t' || c == '\n' || c == '\x0c' || c == '\r'

/-- Whether a character is kept where no sequence is open. -/
def isText (c : Char) : Bool := isBlankControl c || (decide (32 ≤ c.toNat) && c != '\x7f')

/-- Whether a character ends the body of a control string: its UTF-8 form has the byte of the
terminator. -/
def terminates (c : Char) : Bool := (String.utf8EncodeChar c).contains 0x9C

/-- The part begun by the character after an escape character. -/
def Mode.afterEscape (c : Char) : Mode :=
  if c = '[' then .sequence
  else if c = ']' then .command
  else if c = 'P' then .device
  else if c = 'X' ∨ c = '^' ∨ c = '_' then .string
  else if ' ' ≤ c ∧ c ≤ '/' then .escapeTail
  else if '0' ≤ c ∧ c ≤ '~' then .text
  else .escape

/-- The part after a character, and whether the character is kept. -/
def Mode.step (mode : Mode) (c : Char) : Mode × Bool :=
  match mode with
  | .text => (.text, isText c)
  | .escape => (afterEscape c, isBlankControl c)
  | .escapeTail => (if '0' ≤ c ∧ c ≤ '~' then .text else .escapeTail, isBlankControl c)
  | .sequence => (if '@' ≤ c ∧ c ≤ '~' then .text else .sequence, isBlankControl c)
  | .command => (if c = '\x07' then .text else .command, false)
  | .device =>
    (if ' ' ≤ c ∧ c ≤ '/' then .deviceTail
      else if '0' ≤ c ∧ c ≤ '?' then .deviceParameters
      else if '@' ≤ c ∧ c ≤ '~' then .string
      else .device, false)
  | .deviceParameters =>
    (if ' ' ≤ c ∧ c ≤ '/' then .deviceTail
      else if '<' ≤ c ∧ c ≤ '~' then .string
      else .deviceParameters, false)
  | .deviceTail => (if '0' ≤ c ∧ c ≤ '~' then .string else .deviceTail, false)
  | .string => (if terminates c then .text else .string, false)

/-- Where the reading of a text stands. -/
structure State where
  mode : Mode := .text
  /-- Whether the character before was kept, so that a sequence still open is interrupted. -/
  kept : Bool := false
  deriving DecidableEq

/-- Reads one character. An escape character begins a new sequence anywhere, and two control
characters cancel any. -/
def State.step (state : State) (c : Char) : State :=
  if c = '\x1b' then ⟨.escape, false⟩
  else if c = '\x18' ∨ c = '\x1a' then ⟨.text, false⟩
  else if state.kept && isText c then ⟨if c.toNat < 128 then state.mode else .text, true⟩
  else
    let (mode, kept) := state.mode.step c
    ⟨mode, kept⟩

/-- The characters that are kept of the rest of a text. -/
def keep (state : State) : List Char → List Char
  | [] => []
  | c :: rest =>
    let next := state.step c
    if next.kept then c :: keep next rest else keep next rest

/-- A text without its control sequences. -/
def ofString (s : String) : String := String.ofList (keep {} s.toList)

end DocStore.Demo.PlainText
