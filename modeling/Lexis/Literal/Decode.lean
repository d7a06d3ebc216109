import Lexis.Diagnostic
import Lexis.Number.FloatText
import Lexis.Value

/-!
# Values of literals

`Literal.decode` gives the value of a lexeme: the word of an integer, the nearest binary64 number of
a float, the text of a string without its quotes. A lexeme that is bad has an error beside its value.
A class that has no name cannot be decoded at all, which is a fault of the caller and no property of
the lexeme.
-/
namespace Lexis

/-- The class of a literal is none of the named ones. -/
structure UnknownClass where
  code : Int
  deriving DecidableEq, Repr

def UnknownClass.message (e : UnknownClass) : Bytes :=
  ascii "should not reach here: literal class=" ++ signedDecimal e.code

/-- An error of decoding. Only one with a tag (an `Error`) can be reported. -/
inductive Failure where
  | tagged (tag : Tag) (reason : Reason)
  | untagged (reason : Reason)
  deriving DecidableEq, Repr

def Failure.message : Failure → Bytes
  | tagged tag reason => tag.explain (some reason)
  | untagged reason => reason.message

/-- The tag for a lexeme that is too short for its prefix. -/
def LiteralClass.malformedTag : LiteralClass → Tag
  | int | float => .malformedNumber
  | _ => .malformedLiteral

namespace Literal

/-- The digits of an integer behind its prefix. -/
def decodeInt (radix : Radix) (digits : Bytes) : Value × Option Failure :=
  match radix.base? with
  | none => (.absent, some (.tagged .malformedNumber (.unsupportedRadix radix)))
  | some base =>
    match Word.parse base digits with
    | .ok n => (.int n, none)
    | .error e => (.absent, some (.tagged .malformedNumber (.badInt digits radix e)))

def decodeFloat (lexeme : Bytes) : Value × Option Failure :=
  match FloatText.parse lexeme with
  | .ok x => (.float x, none)
  | .error e => (.absent, some (.tagged .malformedNumber (.badFloat lexeme e)))

/-- The text behind an opening quote, without a closing one. -/
def stringBody (body : Bytes) : Bytes :=
  if body.getLast? = some (byte '"') then body.dropLast else body

/-- The value of a lexeme, and the error beside it (`Decode`). -/
def decode (l : Literal) (lexeme : Bytes) : Except UnknownClass (Value × Option Failure) :=
  if l.prefixLen < 0 ∨ (lexeme.length : Int) < l.prefixLen then
    .ok (.absent,
      some (.tagged l.category.malformedTag (.prefixOutOfRange l.prefixLen lexeme)))
  else
    let body := lexeme.drop l.prefixLen.toNat
    match l.category with
    | .int => .ok (decodeInt l.radix body)
    | .float => .ok (decodeFloat lexeme)
    | .str => .ok (.string (stringBody body), none)
    | .raw => .ok (.raw lexeme, none)
    | .char | .byte => .ok (.absent, some (.tagged .unsupportedLiteral (.unsupported l)))
    | .numbered code _ => .error ⟨code⟩

/-- The value that decoding returns, absent where it returns nothing. -/
def value (l : Literal) (lexeme : Bytes) : Value :=
  ((l.decode lexeme).toOption.map Prod.fst).getD .absent

end Literal
end Lexis
