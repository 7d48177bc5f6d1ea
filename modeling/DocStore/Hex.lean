/-
Byte strings in hexadecimal, two lower-case digits a byte.
-/
import DocStore.Bytes

namespace DocStore.Hex

/-- The two digits of a byte. -/
def byteChars (byte : UInt8) : List Char :=
  [Nat.digitChar (byte.toNat / 16), Nat.digitChar (byte.toNat % 16)]

/-- The digits of a byte string. -/
def chars (bytes : Bytes) : List Char := bytes.flatMap byteChars

/-- The hexadecimal form of a byte string. -/
def encode (bytes : Bytes) : String := String.ofList (chars bytes)

/-- The value of a digit in either case. -/
def digit? (c : Char) : Option Nat :=
  if c.isDigit then some (c.toNat - '0'.toNat)
  else if 'a' ≤ c ∧ c ≤ 'f' then some (c.toNat - 'a'.toNat + 10)
  else if 'A' ≤ c ∧ c ≤ 'F' then some (c.toNat - 'A'.toNat + 10)
  else none

/-- The byte string of some digits, which must be even in number. -/
def ofChars? : List Char → Option Bytes
  | [] => some []
  | [_] => none
  | high :: low :: rest => do
    return UInt8.ofNat ((← digit? high) * 16 + (← digit? low)) :: (← ofChars? rest)

/-- The byte string of a hexadecimal form. -/
def decode? (s : String) : Option Bytes := ofChars? s.toList

end DocStore.Hex
