import Lexis.Number.Binary64
import Lexis.Number.Radix

/-!
# Reading floating-point numbers

A number is written in decimal with an optional exponent of ten, or in hexadecimal with an exponent
of two, or by name (`inf`, `infinity`, `nan` in any case). `parse` gives the nearest binary64
number. An underscore may stand between two digits, or between the hexadecimal marker and a digit.
-/
namespace Lexis
namespace FloatText

/-- A byte with an ASCII letter made small. -/
def lower (b : UInt8) : UInt8 := if byte 'A' ≤ b ∧ b ≤ byte 'Z' then b + 32 else b

/-- The sign of a text and what follows it. -/
def splitSign : Bytes → Option Bool × Bytes
  | [] => (none, [])
  | b :: rest =>
    if b = byte '+' then (some false, rest)
    else if b = byte '-' then (some true, rest)
    else (none, b :: rest)

/-- A number that is written by its name. -/
def named? (s : Bytes) : Option Binary64 :=
  let (sign, body) := splitSign s
  let name := body.map lower
  if name = ascii "inf" ∨ name = ascii "infinity" then
    some (Binary64.infinity.withSign (sign.getD false))
  else if name = ascii "nan" ∧ sign.isNone then some Binary64.nan
  else none

/-! ## Digits and exponents -/

/-- A written number: `mantissa · base ^ exponent`, where the base is two or ten. -/
structure Written where
  negative : Bool
  mantissa : Nat
  base : Nat
  exponent : Int
  deriving DecidableEq, Repr

/-- The number that digits denote in a base. -/
def ofDigits (base : Nat) (ds : Bytes) : Nat :=
  ds.foldl (fun n b => base * n + (digit? b).getD 0) 0

def isDigitIn (hexadecimal : Bool) (b : UInt8) : Bool :=
  if hexadecimal then (hexDigit? b).isSome else (decimalDigit? b).isSome

/-- The value of the digits of an exponent. Digits beyond a value of ten thousand are passed over:
such a number is out of range or rounds to zero anyway. -/
def exponentValue (ds : Bytes) : Nat :=
  ds.foldl (fun e b => if e < 10000 then 10 * e + (decimalDigit? b).getD 0 else e) 0

/-- What follows the mark of an exponent: an optional sign, a digit, then digits and underscores. -/
def exponent? (s : Bytes) : Option Int :=
  let (sign, body) := splitSign s
  match body with
  | [] => none
  | b :: _ =>
    if (decimalDigit? b).isSome && body.all fun b => (decimalDigit? b).isSome || b = byte '_' then
      let e : Int := exponentValue (body.filter (· ≠ byte '_'))
      some (if sign = some true then -e else e)
    else none

/-- The exponent part behind the digits. Only a decimal number may do without. -/
def exponentPart? (hexadecimal : Bool) : Bytes → Option Int
  | [] => if hexadecimal then none else some 0
  | b :: rest => if lower b = (if hexadecimal then byte 'p' else byte 'e') then exponent? rest else none

/-- Splits off the marker of a hexadecimal number. -/
def splitMarker : Bytes → Bool × Bytes
  | b0 :: b1 :: rest =>
    if b0 = byte '0' ∧ lower b1 = byte 'x' then (true, rest) else (false, b0 :: b1 :: rest)
  | s => (false, s)

/-- Reads a number without regard to where its underscores stand. -/
def written? (s : Bytes) : Option Written :=
  let (sign, unsigned) := splitSign s
  let (hexadecimal, body) := splitMarker unsigned
  let inMantissa := fun b => isDigitIn hexadecimal b || b = byte '_' || b = byte '.'
  let mantissa := (body.takeWhile inMantissa).filter (· ≠ byte '_')
  let ds := mantissa.filter (· ≠ byte '.')
  let places := ((mantissa.dropWhile (· ≠ byte '.')).drop 1).length
  if mantissa.count (byte '.') ≤ 1 ∧ ds ≠ [] then
    (exponentPart? hexadecimal (body.dropWhile inMantissa)).map fun e =>
      if hexadecimal then
        ⟨sign = some true, ofDigits 16 ds, 2, e - 4 * places⟩
      else
        ⟨sign = some true, ofDigits 10 ds, 10, e - places⟩
  else none

/-! ## Underscores -/

/-- The kind of the byte before, as the rule for underscores sees it. -/
inductive Last where
  | digit
  | underscore
  | other
  deriving DecidableEq, Repr

/-- Each underscore follows a digit and is followed by one. -/
def underscoresFrom (hexadecimal : Bool) : Last → Bytes → Bool
  | last, [] => last ≠ .underscore
  | last, b :: rest =>
    if isDigitIn hexadecimal b then underscoresFrom hexadecimal .digit rest
    else if b = byte '_' then last = .digit && underscoresFrom hexadecimal .underscore rest
    else last ≠ .underscore && underscoresFrom hexadecimal .other rest

/-- Whether the underscores of a number stand between digits. The marker counts as a digit. -/
def underscoresOk (s : Bytes) : Bool :=
  let (hexadecimal, body) := splitMarker (splitSign s).2
  underscoresFrom hexadecimal (if hexadecimal then .digit else .other) body

/-! ## The nearest number -/

/-- The binary64 number nearest to a written one. -/
def Written.value (w : Written) : Except NumberError Binary64 :=
  match Binary64.ofRatio? (w.mantissa * w.base.pow w.exponent.toNat)
      (w.base.pow (-w.exponent).toNat) with
  | some x => .ok (x.withSign w.negative)
  | none => .error .outOfRange

/-- The number that a text denotes (`ParseFloat`). -/
def parse (s : Bytes) : Except NumberError Binary64 :=
  match named? s with
  | some x => .ok x
  | none =>
    match written? s with
    | some w => if underscoresOk s then w.value else .error .malformed
    | none => .error .malformed

end FloatText
end Lexis
