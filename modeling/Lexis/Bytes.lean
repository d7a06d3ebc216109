/-!
# Byte strings

Every text of this library is a list of bytes: a source need not be valid UTF-8, and spans count
bytes. This module holds the type, ASCII literals, and the digits of numbers.
-/
namespace Lexis

abbrev Bytes := List UInt8

/-- The byte of an ASCII character. -/
def byte (c : Char) : UInt8 := c.toNat.toUInt8

/-- The bytes of an ASCII text. -/
def ascii (s : String) : Bytes := s.toList.map byte

/-- The digits of `n` in a base of at most 16, letters in lower case. -/
def digits (base n : Nat) : Bytes := (Nat.toDigits base n).map byte

def decimal (n : Nat) : Bytes := digits 10 n

/-- A decimal with a leading `-` for negative numbers and no sign for the others. -/
def signedDecimal : Int → Bytes
  | .ofNat n => decimal n
  | .negSucc n => byte '-' :: decimal (n + 1)

/-- Hexadecimal digits, padded with zeros on the left to at least `width`. -/
def hex (width n : Nat) : Bytes :=
  let ds := digits 16 n
  List.replicate (width - ds.length) (byte '0') ++ ds

/-- The value of a decimal digit. -/
def decimalDigit? (b : UInt8) : Option Nat :=
  if byte '0' ≤ b ∧ b ≤ byte '9' then some (b.toNat - 48) else none

/-- The value of a letter taken as a digit above 9, the same for both cases. -/
def letterDigit? (b : UInt8) : Option Nat :=
  if byte 'a' ≤ b ∧ b ≤ byte 'z' then some (b.toNat - 87)
  else if byte 'A' ≤ b ∧ b ≤ byte 'Z' then some (b.toNat - 55)
  else none

/-- The value of a digit in any base up to 36. -/
def digit? (b : UInt8) : Option Nat := decimalDigit? b <|> letterDigit? b

def hexDigit? (b : UInt8) : Option Nat := (digit? b).filter (· < 16)

/-- The number that a run of hexadecimal digits denotes. -/
def ofHex? (s : Bytes) : Option Nat :=
  s.foldlM (fun n b => (hexDigit? b).map (16 * n + ·)) 0

/-- The texts with `sep` between each two. -/
def joinWith (sep : Bytes) (texts : List Bytes) : Bytes := (texts.intersperse sep).flatten

/-- The order of dictionaries, byte by byte. -/
def sortBytes (texts : List Bytes) : List Bytes := texts.mergeSort fun a b => decide (a ≤ b)

end Lexis
