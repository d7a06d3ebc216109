import Lexis.Literal
import Lexis.Token
import Lexis.Text.Quoted

/-!
# Diagnostics

A diagnostic is an anomaly that a scan reports and continues past. It has a tag, a place, and where
a literal could not be decoded, the reason.
-/
namespace Lexis

/-- What is wrong (`ErrorTag`). -/
inductive Tag where
  | unterminatedBlockComment
  | unterminatedString
  | unterminatedHeader
  | malformedNumber
  | malformedLiteral
  | unsupportedLiteral
  | other (name : Bytes)
  deriving DecidableEq, Repr

def Tag.name : Tag → Bytes
  | unterminatedBlockComment => ascii "UnterminatedBlockComment"
  | unterminatedString => ascii "UnterminatedString"
  | unterminatedHeader => ascii "UnterminatedHeader"
  | malformedNumber => ascii "MalformedNumber"
  | malformedLiteral => ascii "MalformedLiteral"
  | unsupportedLiteral => ascii "UnsupportedLiteral"
  | other name => name

/-- Why a lexeme has no value. -/
inductive Reason where
  | prefixOutOfRange (prefixLen : Int) (lexeme : Bytes)
  | unsupportedRadix (radix : Radix)
  | badInt (digits : Bytes) (radix : Radix) (error : NumberError)
  | badFloat (lexeme : Bytes) (error : NumberError)
  | unsupported (literal : Literal)
  | plain (text : Bytes)
  deriving DecidableEq, Repr

/-- The kind of failure at the bottom of a reason. -/
inductive Cause where
  | number (error : NumberError)
  | unsupported
  deriving DecidableEq, Repr

namespace Reason

/-- The failure that a reason goes back to, if it is one of the known ones. -/
def cause? : Reason → Option Cause
  | badInt _ _ error | badFloat _ error => some (.number error)
  | unsupported _ => some .unsupported
  | prefixOutOfRange _ _ | unsupportedRadix _ | plain _ => none

def message : Reason → Bytes
  | prefixOutOfRange prefixLen lexeme =>
    ascii "prefix length " ++ signedDecimal prefixLen ++ ascii " out of range for " ++ quote lexeme
  | unsupportedRadix radix => ascii "unsupported radix: " ++ radix.name
  | badInt digits radix error =>
    ascii "strconv.ParseUint(" ++ quote digits ++ ascii ", " ++ signedDecimal radix.base
      ++ ascii "): strconv.ParseUint: parsing " ++ quote digits ++ ascii ": " ++ error.message
  | badFloat lexeme error =>
    ascii "strconv.ParseFloat(" ++ quote lexeme ++ ascii "): strconv.ParseFloat: parsing "
      ++ quote lexeme ++ ascii ": " ++ error.message
  | unsupported literal =>
    literal.name ++ ascii ": literal decoding is not implemented for this kind"
  | plain text => text

end Reason

/-- A tag with an optional reason behind it (`Error.Error`). -/
def Tag.explain (tag : Tag) (reason : Option Reason) : Bytes :=
  match reason with
  | none => tag.name
  | some r => tag.name ++ ascii ": " ++ r.message

structure Diagnostic where
  tag : Tag
  span : Span
  line : Int
  reason : Option Reason
  deriving DecidableEq, Repr

def Diagnostic.render (d : Diagnostic) : Bytes :=
  signedDecimal d.line ++ ascii ":" ++ d.span.render ++ ascii ": " ++ d.tag.explain d.reason

end Lexis
