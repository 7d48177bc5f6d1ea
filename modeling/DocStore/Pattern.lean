/-
Patterns of texts. A pattern is followed character by character: what it leaves of itself after a
character is again a pattern, and it accepts a text if what is left of it at the end takes nothing
more. What can no longer be met is the pattern `never`, and stays so.
-/

namespace DocStore

/-- A pattern of texts. -/
inductive Pattern where
  | never
  | nothing
  | one (allowed : Char → Bool)
  | next (first second : Pattern)
  | either (left right : Pattern)
  | many (item : Pattern)

namespace Pattern

/-! ## Kinds of patterns -/

/-- The character `c`. -/
def literal (c : Char) : Pattern := one (· == c)

/-- The text `cs`. -/
def word : List Char → Pattern
  | [] => nothing
  | c :: cs => next (literal c) (word cs)

/-- One pattern after the other. -/
def sequence : List Pattern → Pattern
  | [] => nothing
  | p :: ps => next p (sequence ps)

/-- A pattern that may be missing. -/
def optional (p : Pattern) : Pattern := either p nothing

/-- A pattern `count` times. -/
def times : Nat → Pattern → Pattern
  | 0, _ => nothing
  | count + 1, p => next p (times count p)

/-- A pattern `least` times or more. -/
def atLeast (least : Nat) (p : Pattern) : Pattern := next (times least p) (many p)

/-- A pattern up to `most` times. -/
def atMost : Nat → Pattern → Pattern
  | 0, _ => nothing
  | most + 1, p => optional (next p (atMost most p))

/-! ## Following a text -/

/-- Whether the empty text is one of the pattern. -/
def takesNothing : Pattern → Bool
  | never => false
  | nothing => true
  | one _ => false
  | next p q => p.takesNothing && q.takesNothing
  | either p q => p.takesNothing || q.takesNothing
  | many _ => true

/-- One pattern after the other, where the first may be known to be met or to fail. -/
def andThen : Pattern → Pattern → Pattern
  | never, _ => never
  | nothing, q => q
  | p, q => next p q

/-- One of two patterns, where one may be known to fail. -/
def orElse : Pattern → Pattern → Pattern
  | never, q => q
  | p, never => p
  | p, q => either p q

/-- What is left of a pattern after the character `c`. -/
def after (c : Char) : Pattern → Pattern
  | never => never
  | nothing => never
  | one allowed => if allowed c then nothing else never
  | next p q =>
    if p.takesNothing then orElse (andThen (p.after c) q) (q.after c) else andThen (p.after c) q
  | either p q => orElse (p.after c) (q.after c)
  | many p => andThen (p.after c) (many p)

/-- Whether a text is one of the pattern, from its first character to its last. -/
def accepts (p : Pattern) (cs : List Char) : Bool :=
  (cs.foldl (fun left c => left.after c) p).takesNothing

end Pattern

/-! ## Decimal digits of all scripts -/

/-- The zeros of all scripts. Each is followed by the other nine digits of its script. -/
def decimalZeros : List Nat := [
  0x30, 0x660, 0x6F0, 0x7C0, 0x966, 0x9E6, 0xA66, 0xAE6, 0xB66, 0xBE6, 0xC66, 0xCE6, 0xD66, 0xDE6,
  0xE50, 0xED0, 0xF20, 0x1040, 0x1090, 0x17E0, 0x1810, 0x1946, 0x19D0, 0x1A80, 0x1A90, 0x1B50,
  0x1BB0, 0x1C40, 0x1C50, 0xA620, 0xA8D0, 0xA900, 0xA9D0, 0xA9F0, 0xAA50, 0xABF0, 0xFF10, 0x104A0,
  0x10D30, 0x10D40, 0x11066, 0x110F0, 0x11136, 0x111D0, 0x112F0, 0x11450, 0x114D0, 0x11650, 0x116C0,
  0x116D0, 0x116DA, 0x11730, 0x118E0, 0x11950, 0x11BF0, 0x11C50, 0x11D50, 0x11DA0, 0x11F50, 0x16130,
  0x16A60, 0x16AC0, 0x16B50, 0x16D70, 0x1CCF0, 0x1D7CE, 0x1D7D8, 0x1D7E2, 0x1D7EC, 0x1D7F6, 0x1E140,
  0x1E2F0, 0x1E4F0, 0x1E5F1, 0x1E950, 0x1FBF0]

/-- Whether a character is a decimal digit of some script. -/
def isDecimal (c : Char) : Bool :=
  decimalZeros.any fun first => decide (first ≤ c.toNat ∧ c.toNat < first + 10)

end DocStore
