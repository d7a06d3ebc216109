import Lexis.Number.Shortest

/-!
# Writing floating-point numbers

A layout says how the shortest decimal of a number is written: which exponents of the first digit
are written in plain positional form, whether a whole number keeps `.0`, and the names of the values
that are not finite.
-/
namespace Lexis

structure FloatLayout where
  least : Int      -- the least exponent of the first digit that is written positionally
  bound : Int      -- the exponent from which on it is not
  pointZero : Bool -- whether a positional whole number ends in `.0`
  nan : Bytes
  infinity : Bytes
  negativeInfinity : Bytes

namespace FloatLayout

/-- An exponent mark with a sign and at least two digits. -/
def exponentText (e : Int) : Bytes :=
  let ds := decimal e.natAbs
  byte 'e' :: (if e < 0 then byte '-' else byte '+') :: (if ds.length < 2 then byte '0' :: ds else ds)

/-- One digit, the others behind a point if there are any, and an exponent. -/
def scientific (ds : Bytes) (e : Int) : Bytes :=
  match ds with
  | [] => []
  | [d] => d :: exponentText e
  | d :: more => d :: byte '.' :: more ++ exponentText e

/-- The digits `ds` with the first one at `10 ^ e`, filled up with zeros. -/
def positional (layout : FloatLayout) (ds : Bytes) (e : Int) : Bytes :=
  if e < 0 then
    ascii "0." ++ List.replicate ((-e).toNat - 1) (byte '0') ++ ds
  else
    let whole := e.toNat + 1
    if ds.length ≤ whole then
      ds ++ List.replicate (whole - ds.length) (byte '0') ++ if layout.pointZero then ascii ".0" else []
    else ds.take whole ++ byte '.' :: ds.drop whole

/-- The text of a number in a layout. -/
def write (layout : FloatLayout) (x : Binary64) : Bytes :=
  if x.isNan then layout.nan
  else if !x.isFinite then if x.negative then layout.negativeInfinity else layout.infinity
  else
    let d := Decimal.shortest x
    let ds := decimal d.digits
    let e : Int := d.exponent + ds.length - 1
    let magnitude :=
      if layout.least ≤ e ∧ e < layout.bound then layout.positional ds e else scientific ds e
    if x.negative then byte '-' :: magnitude else magnitude

/-- Compact numbers: six digits before the point at most, four zeros behind it at most. -/
def compact : FloatLayout where
  least := -4
  bound := 6
  pointZero := false
  nan := ascii "NaN"
  infinity := ascii "+Inf"
  negativeInfinity := ascii "-Inf"

end FloatLayout
end Lexis
