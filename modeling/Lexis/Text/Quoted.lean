import Lexis.Text.Printable
import Lexis.Text.Utf8

/-!
# Quoted texts

`quote` writes a text between double quotes so that it can be shown on one line: printable
characters as they are, the others by an escape, stray bytes as `\xNN`. `unquote?` reads such a
text, and every other spelling of the same escapes.
-/
namespace Lexis

/-- The letter after the backslash in the escape of a control character. -/
def controlLetter? (c : Char) : Option Char :=
  match c.toNat with
  | 0x07 => some 'a'
  | 0x08 => some 'b'
  | 0x09 => some 't'
  | 0x0A => some 'n'
  | 0x0B => some 'v'
  | 0x0C => some 'f'
  | 0x0D => some 'r'
  | _ => none

/-- How a character is written between the quote marks `mark`. -/
def escapeChar (mark c : Char) : Bytes :=
  if c = mark ∨ c = '\\' then [byte '\\', byte c]
  else if isPrintable c then Utf8.encode c
  else match controlLetter? c with
    | some l => [byte '\\', byte l]
    | none =>
      if c.toNat < 0x20 ∨ c.toNat = 0x7F then ascii "\\x" ++ hex 2 c.toNat
      else if c.toNat < 0x10000 then ascii "\\u" ++ hex 4 c.toNat
      else ascii "\\U" ++ hex 8 c.toNat

/-- How one unit of a text is written between double quotes. -/
def escapeRune : Rune → Bytes
  | .char c => escapeChar '"' c
  | .stray b => ascii "\\x" ++ hex 2 b.toNat

/-- A text between double quotes (`Quote`). -/
def quote (s : Bytes) : Bytes :=
  byte '"' :: (Utf8.runes s).flatMap escapeRune ++ [byte '"']

/-- A character between single quotes (`QuoteRune`). -/
def quoteChar (c : Char) : Bytes := byte '\'' :: escapeChar '\'' c ++ [byte '\'']

/-- The byte that a one-letter escape stands for inside double quotes. -/
def escapeLetter? (b : UInt8) : Option UInt8 :=
  if b = byte 'a' then some 0x07
  else if b = byte 'b' then some 0x08
  else if b = byte 't' then some 0x09
  else if b = byte 'n' then some 0x0A
  else if b = byte 'v' then some 0x0B
  else if b = byte 'f' then some 0x0C
  else if b = byte 'r' then some 0x0D
  else if b = byte '\\' ∨ b = byte '"' then some b
  else none

/-- The character of a code point, unless it is a surrogate or too large. -/
def charOfNat? (n : Nat) : Option Char := if n.isValidChar then some (Char.ofNat n) else none

/-- The bytes that an escape means and the number of bytes it takes after the backslash. -/
def readEscape? : Bytes → Option (Bytes × Nat)
  | [] => none
  | b :: rest =>
    if b = byte 'x' then
      if rest.length < 2 then none else (ofHex? (rest.take 2)).map fun n => ([n.toUInt8], 3)
    else if b = byte 'u' then
      if rest.length < 4 then none
      else ((ofHex? (rest.take 4)).bind charOfNat?).map fun c => (Utf8.encode c, 5)
    else if b = byte 'U' then
      if rest.length < 8 then none
      else ((ofHex? (rest.take 8)).bind charOfNat?).map fun c => (Utf8.encode c, 9)
    else if byte '0' ≤ b ∧ b ≤ byte '7' then
      match rest with
      | b1 :: b2 :: _ =>
        if byte '0' ≤ b1 ∧ b1 ≤ byte '7' ∧ byte '0' ≤ b2 ∧ b2 ≤ byte '7' then
          let n := (b.toNat - 48) * 64 + (b1.toNat - 48) * 8 + (b2.toNat - 48)
          if n ≤ 255 then some ([n.toUInt8], 3) else none
        else none
      | _ => none
    else (escapeLetter? b).map fun v => ([v], 1)

/-- What stands between an opening double quote and the closing one, which ends the text; `skip`
bytes are already read. A raw newline and an unknown escape are refused, and a stray byte reads as
U+FFFD. -/
def unquoteFrom : Nat → Bytes → Option Bytes
  | _, [] => none
  | skip + 1, _ :: rest => unquoteFrom skip rest
  | 0, b :: rest =>
    if b = byte '"' then if rest = [] then some [] else none
    else if b = byte '\n' then none
    else if b = byte '\\' then do
      let (bs, n) ← readEscape? rest
      let tail ← unquoteFrom n rest
      return bs ++ tail
    else do
      let r := Utf8.decode b rest
      let tail ← unquoteFrom (r.width - 1) rest
      return Utf8.encode r.toChar ++ tail

/-- The text that a double-quoted text means (`Unquote`). -/
def unquote? : Bytes → Option Bytes
  | [] => none
  | b :: rest => if b = byte '"' then unquoteFrom 0 rest else none

end Lexis
