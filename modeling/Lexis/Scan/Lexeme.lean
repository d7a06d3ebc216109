import Lexis.Diagnostic
import Lexis.Kind
import Lexis.Scan.Cursor

/-!
# Lexemes

The grammar of the language, by the first character of a lexeme. `classify` says what starts with
that character: its kind, where it ends, and whether its closing mark is missing. One character of
lookahead decides everywhere.

* `length_rest_classify_le`: no lexeme reaches beyond the text.
-/
namespace Lexis

/-- Choices beyond the plain grammar. -/
structure Options where
  /-- Runs of whitespace are tokens and not skipped (`EmitWhitespace`). -/
  emitWhitespace : Bool := false
  /-- Identifiers continue with decimal digits (`IdentDigits`). -/
  identDigits : Bool := false
  /-- A colon and a percent sign are known (`CPunct`). -/
  colonPercent : Bool := false
  deriving DecidableEq, Repr, Inhabited

/-- The characters between tokens (`isWhitespace`). -/
def isBlank (c : Char) : Bool := c = ' ' || c = '\t' || c = '\r' || c = '\n'

def isLetter (c : Char) : Bool := ('a' ≤ c && c ≤ 'z') || ('A' ≤ c && c ≤ 'Z')

def isIdentStart (c : Char) : Bool := isLetter c || c = '_'

def Options.isIdentPart (o : Options) (c : Char) : Bool :=
  isIdentStart c || (o.identDigits && Radix.decimal.isDigit c)

/-- What was recognised: a kind, the refinement of a literal, the cursor behind it, and what it
lacks. -/
structure Lexeme where
  kind : Kind
  literal : Literal := .empty
  stop : Cursor
  missing : Option Tag := none
  deriving DecidableEq, Repr

namespace Lexeme

/-- The kind of a character that is a token whatever follows; two of them depend on the options
(`cPunct`). -/
def single? (o : Options) : Char → Option Kind
  | ';' => some .semiColon
  | ',' => some .comma
  | '.' => some .dot
  | '(' => some .leftParen
  | ')' => some .rightParen
  | '\x7b' => some .leftBrace
  | '\x7d' => some .rightBrace
  | '[' => some .leftBracket
  | ']' => some .rightBracket
  | '#' => some .pound
  | '*' => some .star
  | '&' => some .and
  | '|' => some .or
  | '^' => some .caret
  | '~' => some .tilde
  | ':' => if o.colonPercent then some .colon else none
  | '%' => if o.colonPercent then some .percent else none
  | _ => none

/-- Two characters if `second` comes next, otherwise one. -/
def pair (second : Char) (long short : Kind) (c : Cursor) : Lexeme :=
  if c.peek = some second then { kind := long, stop := c.advance } else { kind := short, stop := c }

/-- The digits of a number behind its first digit or its marker, and the fraction of a decimal. -/
def number (radix : Radix) (c : Cursor) : Lexeme :=
  let digits := c.advanceWhile radix.isDigit
  match radix with
  | .binary | .hexadecimal => { kind := .literal, literal := .int radix 2, stop := digits }
  | .decimal =>
    if digits.peek = some '.' then
      { kind := .literal, literal := .float
        stop := digits.advance.advanceWhile Radix.decimal.isDigit }
    else { kind := .literal, literal := .int radix 0, stop := digits }
  | _ => { kind := .literal, literal := .int radix 0, stop := digits }

/-- A number that starts with zero: the next character gives the radix. -/
def zeroNumber (c : Cursor) : Lexeme :=
  match c.peek with
  | some 'b' => number .binary c.advance
  | some 'x' => number .hexadecimal c.advance
  | some d => if Radix.octal.isDigit d then number .octal c else number .decimal c
  | none => number .decimal c

/-- A string up to and including the next quote (`stringLiteral`). There are no escapes. -/
def string (c : Cursor) : Lexeme :=
  let body := c.advanceWhile (· ≠ '"')
  if body.atEnd then
    { kind := .literal, literal := .str, stop := body, missing := some .unterminatedString }
  else { kind := .literal, literal := .str, stop := body.advance }

/-- The cursor behind the next `*` that a `/` follows, or the end and `false`. -/
def closeComment (c : Cursor) : Cursor × Bool :=
  match _h : c.read with
  | (none, stop) => (stop, false)
  | (some ch, d) => if ch = '*' ∧ d.peek = some '/' then (d.advance, true) else closeComment d
termination_by c.rest.length
decreasing_by exact Cursor.length_rest_read_lt _h

def blockComment (c : Cursor) : Lexeme :=
  let (stop, closed) := closeComment c
  { kind := .blockComment, stop
    missing := if closed then none else some .unterminatedBlockComment }

/-- A slash, or a comment. -/
def slash (c : Cursor) : Lexeme :=
  match c.peek with
  | some '/' => { kind := .lineComment, stop := c.advanceWhile (· ≠ '\n') }
  | some '*' => blockComment c.advance
  | _ => { kind := .slash, stop := c }

def minus (c : Cursor) : Lexeme :=
  match c.peek with
  | some '-' => { kind := .minusMinus, stop := c.advance }
  | some '>' => { kind := .arrow, stop := c.advance }
  | _ => { kind := .minus, stop := c }

/-- The target of an include up to, and without, the closing `>`. -/
def header (c : Cursor) : Lexeme :=
  let stop := c.advanceWhile (· ≠ '>')
  { kind := .header, stop, missing := if stop.atEnd then some .unterminatedHeader else none }

/-- A comparison, or a header where a letter follows. -/
def less (c : Cursor) : Lexeme :=
  match c.peek with
  | some ch => if isLetter ch then header c else pair '=' .ltEqual .lt c
  | none => pair '=' .ltEqual .lt c

/-- The lexeme that starts with `first`, where `c` is the cursor behind that character: the choice
that `next` makes by the character it has consumed. -/
def classify (o : Options) (first : Char) (c : Cursor) : Lexeme :=
  match first with
  | '/' => slash c
  | '0' => zeroNumber c
  | '"' => string c
  | '-' => minus c
  | '<' => less c
  | '+' => pair '+' .plusPlus .plus c
  | '>' => pair '=' .gtEqual .gt c
  | '=' => pair '=' .equalEqual .equal c
  | '!' => pair '=' .bangEqual .bang c
  | _ =>
    if Radix.decimal.isDigit first then number .decimal c
    else if isIdentStart first then { kind := .ident, stop := c.advanceWhile o.isIdentPart }
    else { kind := (single? o first).getD .unknown, stop := c }

/-! ## No lexeme reaches beyond the text -/

open Cursor

theorem length_rest_pair_le (second : Char) (long short : Kind) (c : Cursor) :
    (pair second long short c).stop.rest.length ≤ c.rest.length := by
  unfold pair
  split
  · exact length_rest_advance_le c
  · exact Nat.le_refl _

theorem length_rest_number_le (radix : Radix) (c : Cursor) :
    (number radix c).stop.rest.length ≤ c.rest.length := by
  have h := length_rest_advanceWhile_le radix.isDigit c
  unfold number
  split
  · exact h
  · exact h
  · dsimp only
    split
    · exact Nat.le_trans (length_rest_advanceWhile_le _ _)
        (Nat.le_trans (length_rest_advance_le _) h)
    · exact h
  · exact h

theorem length_rest_zeroNumber_le (c : Cursor) :
    (zeroNumber c).stop.rest.length ≤ c.rest.length := by
  unfold zeroNumber
  split
  · exact Nat.le_trans (length_rest_number_le _ _) (length_rest_advance_le c)
  · exact Nat.le_trans (length_rest_number_le _ _) (length_rest_advance_le c)
  · split <;> exact length_rest_number_le _ _
  · exact length_rest_number_le _ _

theorem length_rest_string_le (c : Cursor) : (string c).stop.rest.length ≤ c.rest.length := by
  have h := length_rest_advanceWhile_le (· ≠ '"') c
  unfold string
  dsimp only
  split
  · exact h
  · exact Nat.le_trans (length_rest_advance_le _) h

theorem length_rest_closeComment_le (c : Cursor) :
    (closeComment c).1.rest.length ≤ c.rest.length := by
  fun_induction closeComment c with
  | case1 c stop h =>
    rw [← (read_eq_iff.1 h).2]
    exact length_rest_advance_le c
  | case2 c ch d h =>
    have hlt := length_rest_read_lt h
    exact Nat.le_trans (length_rest_advance_le d) (Nat.le_of_lt hlt)
  | case3 c ch d h hn ih =>
    have hlt := length_rest_read_lt h
    exact Nat.le_trans ih (Nat.le_of_lt hlt)

theorem length_rest_slash_le (c : Cursor) : (slash c).stop.rest.length ≤ c.rest.length := by
  unfold slash
  split
  · exact length_rest_advanceWhile_le _ c
  · exact Nat.le_trans (length_rest_closeComment_le _) (length_rest_advance_le c)
  · exact Nat.le_refl _

theorem length_rest_minus_le (c : Cursor) : (minus c).stop.rest.length ≤ c.rest.length := by
  unfold minus
  split
  · exact length_rest_advance_le c
  · exact length_rest_advance_le c
  · exact Nat.le_refl _

theorem length_rest_less_le (c : Cursor) : (less c).stop.rest.length ≤ c.rest.length := by
  unfold less
  split
  · split
    · exact length_rest_advanceWhile_le _ c
    · exact length_rest_pair_le _ _ _ c
  · exact length_rest_pair_le _ _ _ c

theorem length_rest_classify_le (o : Options) (first : Char) (c : Cursor) :
    (classify o first c).stop.rest.length ≤ c.rest.length := by
  unfold classify
  split
  · exact length_rest_slash_le c
  · exact length_rest_zeroNumber_le c
  · exact length_rest_string_le c
  · exact length_rest_minus_le c
  · exact length_rest_less_le c
  · exact length_rest_pair_le _ _ _ c
  · exact length_rest_pair_le _ _ _ c
  · exact length_rest_pair_le _ _ _ c
  · exact length_rest_pair_le _ _ _ c
  · split
    · exact length_rest_number_le _ c
    · split
      · exact length_rest_advanceWhile_le _ c
      · exact Nat.le_refl _

end Lexeme
end Lexis
