/-
The tokens of JSON texts, how each is written, and the lexer, an automaton that takes a text
character by character. Blanks separate tokens and are dropped; a run of letters, digits, signs
and points is one literal; escapes in strings are resolved, a pair of surrogates to the one
character it stands for. A string with a surrogate outside such a pair is a string all the same,
but stands for no text.
-/
import DocStore.Hex
import DocStore.Json.Number

namespace DocStore

/-- What a quoted string stands for: a text, or `none` if it has a surrogate without its pair. -/
abbrev JsonString := Option String

/-- A token of a JSON text. -/
inductive JsonToken where
  | beginArray
  | endArray
  | beginObject
  | endObject
  | comma
  | colon
  | null
  | bool (b : Bool)
  | number (n : JsonNumber)
  | string (s : JsonString)
  deriving DecidableEq

namespace JsonToken

/-! ## Writing -/

/-- The hexadecimal digit of a number below sixteen, in lower case. -/
def hexDigit (n : Nat) : Char := Nat.digitChar n

/-- A character inside a quoted string. Only the quote, the backslash and the control
characters below the blank are escaped. -/
def escaped (c : Char) : List Char :=
  if c = '"' then ['\\', '"']
  else if c = '\\' then ['\\', '\\']
  else if c = '\x08' then ['\\', 'b']
  else if c = '\t' then ['\\', 't']
  else if c = '\n' then ['\\', 'n']
  else if c = '\x0c' then ['\\', 'f']
  else if c = '\r' then ['\\', 'r']
  else if c.toNat < 32 then ['\\', 'u', '0', '0', hexDigit (c.toNat / 16), hexDigit (c.toNat % 16)]
  else [c]

/-- A string in quotes. -/
def quoted (s : String) : List Char := '"' :: s.toList.flatMap escaped ++ ['"']

/-- A string that stands for no text, in quotes: a leading surrogate alone. -/
def unpaired : List Char := ['"', '\\', 'u', 'd', '8', '0', '0', '"']

/-- The written form of a token. -/
def text : JsonToken → List Char
  | beginArray => ['[']
  | endArray => [']']
  | beginObject => ['{']
  | endObject => ['}']
  | comma => [',']
  | colon => [':']
  | null => ['n', 'u', 'l', 'l']
  | bool true => ['t', 'r', 'u', 'e']
  | bool false => ['f', 'a', 'l', 's', 'e']
  | number n => n.text
  | string (some s) => quoted s
  | string none => unpaired

/-! ## Reading -/

/-- The token of a run of literal characters. -/
def ofWord? (word : List Char) : Option JsonToken :=
  match word with
  | ['n', 'u', 'l', 'l'] => some null
  | ['t', 'r', 'u', 'e'] => some (bool true)
  | ['f', 'a', 'l', 's', 'e'] => some (bool false)
  | _ => (JsonNumber.ofLiteral? word).map number

/-- The token that one character makes by itself. -/
def ofPunctuation? : Char → Option JsonToken
  | '[' => some beginArray
  | ']' => some endArray
  | '{' => some beginObject
  | '}' => some endObject
  | ',' => some comma
  | ':' => some colon
  | _ => none

def isBlank (c : Char) : Bool := c == ' ' || c == '\t' || c == '\n' || c == '\r'

/-- Whether a character can belong to a literal. -/
def isWordChar (c : Char) : Bool := c.isAlphanum || c == '-' || c == '+' || c == '.'

/-- What a backslash and a character other than `u` stand for. -/
def unescape? : Char → Option Char
  | '"' => some '"'
  | '\\' => some '\\'
  | '/' => some '/'
  | 'b' => some '\x08'
  | 'f' => some '\x0c'
  | 'n' => some '\n'
  | 'r' => some '\r'
  | 't' => some '\t'
  | _ => none

/-- The part of a string read so far, in reverse, `none` if it stands for no text. -/
abbrev Begun := Option (List Char)

/-- The part with one character more. -/
def Begun.push (begun : Begun) (c : Char) : Begun := begun.map (c :: ·)

/-- Where the lexer stands. A word begun is kept in reverse. -/
inductive Mode where
  | between
  | word (begun : List Char)
  | string (begun : Begun)
  | escape (begun : Begun)
  | hex (begun : Begun) (lead : Option Nat) (missing : Nat) (unit : Nat)
  | trail (begun : Begun) (lead : Nat)
  | trailEscape (begun : Begun) (lead : Nat)
  deriving DecidableEq

/-- Where the lexer is after a complete code unit: a leading surrogate waits for its trailing
one, and a unit that is no part of a pair leaves the string without a text. -/
def closeUnit (begun : Begun) (lead : Option Nat) (unit : Nat) : Mode :=
  let isTrail := decide (0xDC00 ≤ unit ∧ unit < 0xE000)
  match lead with
  | none =>
    if 0xD800 ≤ unit ∧ unit < 0xDC00 then .trail begun unit
    else if isTrail then .string none
    else .string (begun.push (Char.ofNat unit))
  | some lead =>
    if isTrail then
      .string (begun.push (Char.ofNat (0x10000 + (lead - 0xD800) * 0x400 + (unit - 0xDC00))))
    else .string none

/-- A step between tokens: the tokens that end with the character, and where the lexer is then. -/
def stepBetween (c : Char) : Option (List JsonToken × Mode) :=
  if isBlank c then some ([], .between)
  else if c = '"' then some ([], .string (some []))
  else if isWordChar c then some ([], .word [c])
  else (ofPunctuation? c).map fun token => ([token], .between)

/-- A step inside a string. -/
def stepString (begun : Begun) (c : Char) : Option (List JsonToken × Mode) :=
  if c = '"' then some ([.string (begun.map fun cs => String.ofList cs.reverse)], .between)
  else if c = '\\' then some ([], .escape begun)
  else if c.toNat < 32 then none
  else some ([], .string (begun.push c))

/-- A step after a backslash, unless it begins a code unit. -/
def stepEscape (begun : Begun) (c : Char) : Option (List JsonToken × Mode) :=
  (unescape? c).map fun d => ([], .string (begun.push d))

/-- A step of the lexer. -/
def step (mode : Mode) (c : Char) : Option (List JsonToken × Mode) :=
  match mode with
  | .between => stepBetween c
  | .word begun =>
    if isWordChar c then some ([], .word (c :: begun))
    else do
      let token ← ofWord? begun.reverse
      let (tokens, mode) ← stepBetween c
      return (token :: tokens, mode)
  | .string begun => stepString begun c
  | .escape begun => if c = 'u' then some ([], .hex begun none 3 0) else stepEscape begun c
  | .hex begun lead missing unit => do
    let unit := unit * 16 + (← Hex.digit? c)
    match missing with
    | 0 => return ([], closeUnit begun lead unit)
    | missing + 1 => return ([], .hex begun lead missing unit)
  | .trail begun lead => if c = '\\' then some ([], .trailEscape begun lead) else stepString none c
  | .trailEscape begun lead =>
    if c = 'u' then some ([], .hex begun (some lead) 3 0) else stepEscape none c

/-- The tokens that the end of the text completes, if the text may end here. -/
def finish? : Mode → Option (List JsonToken)
  | .between => some []
  | .word begun => (ofWord? begun.reverse).map fun token => [token]
  | _ => none

/-- The lexer on the way: the tokens so far in reverse, and where it stands. -/
abbrev Lexer := List JsonToken × Mode

/-- Feeds one character to the lexer. -/
def Lexer.feed (lexer : Lexer) (c : Char) : Option Lexer :=
  (step lexer.2 c).map fun (tokens, mode) => (tokens.reverse ++ lexer.1, mode)

/-- The tokens of a text, `none` if it has a part that is no token. -/
def lex? (cs : List Char) : Option (List JsonToken) := do
  let (done, mode) ← cs.foldlM Lexer.feed (([], .between) : Lexer)
  let last ← finish? mode
  return done.reverse ++ last

end JsonToken

end DocStore
