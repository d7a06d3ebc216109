import Lexis.Number.FloatLayout
import Lexis.Text.Quoted

/-!
# Values

What a token carries: the decoded value of a literal, the raw text of any other token, or nothing.
A value can be shown (`render`), and its content can be taken out for a report (`payload?`).
-/
namespace Lexis

inductive Value where
  | absent
  | int (n : UInt64)
  | float (x : Binary64)
  | char (code : Int32)
  | string (text : Bytes)
  | byte (b : UInt8)
  | raw (text : Bytes)
  | numbered (code : Int) (h : code < 0 ∨ 6 < code)
  deriving DecidableEq, Repr

/-- The content of a value that is not absent. -/
inductive Payload where
  | word (n : UInt64)
  | float (x : Binary64)
  | byte (b : UInt8)
  | text (s : Bytes)
  deriving DecidableEq, Repr

namespace Value

instance : Inhabited Value := ⟨absent⟩

/-- The value of a given kind whose content is empty or zero. -/
def ofCode (code : Int) : Value :=
  if h : code < 0 ∨ 6 < code then .numbered code h
  else [absent, int 0, float .zero, char 0, string [], byte 0, raw []].getD code.toNat absent

def kindName : Value → Bytes
  | absent => ascii "Absent"
  | int _ => ascii "Int"
  | float _ => ascii "Float"
  | char _ => ascii "Char"
  | string _ => ascii "String"
  | byte _ => ascii "Byte"
  | raw _ => ascii "Raw"
  | numbered code _ => ascii "ValueKind(" ++ signedDecimal code ++ ascii ")"

def isAbsent : Value → Bool
  | absent => true
  | _ => false

/-- The character of a code point; U+FFFD for a number that is none. -/
def charOf (code : Int32) : Char :=
  if 0 ≤ code.toInt then (charOfNat? code.toInt.toNat).getD Utf8.replacement else Utf8.replacement

/-- The content seen as one word, zero where there is none. A negative code point has the high bits
set. -/
def word : Value → UInt64
  | int n => n
  | char code => code.toInt64.toUInt64
  | byte b => b.toUInt64
  | _ => 0

/-- The low 32 bits of the word, with a sign (`Char`). -/
def wordAsChar (v : Value) : Int32 := v.word.toUInt32.toInt32

/-- The low 8 bits of the word (`Byte`). -/
def wordAsByte (v : Value) : UInt8 := v.word.toUInt8

def asFloat : Value → Binary64
  | float x => x
  | _ => .zero

def text : Value → Bytes
  | string s | raw s => s
  | _ => []

/-- The content for a report (`Interface`): a character is a text there. -/
def payload? : Value → Option Payload
  | int n => some (.word n)
  | float x => some (.float x)
  | char code => some (.text (Utf8.encode (charOf code)))
  | byte b => some (.byte b)
  | string s | raw s => some (.text s)
  | absent | numbered _ _ => none

/-- How a trace shows a value (`Value.String`). -/
def render : Value → Bytes
  | int n => decimal n.toNat
  | float x => FloatLayout.compact.write x
  | char code => quoteChar (charOf code)
  | byte b => ascii "0x" ++ hex 2 b.toNat
  | string s | raw s => quote s
  | absent | numbered _ _ => ascii "<absent>"

end Value
end Lexis
