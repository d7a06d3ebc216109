import Lexis.Bytes

/-!
# Binary64 numbers

A floating-point number is its 64 bits. A finite one is `significand · 2 ^ exponent` with a sign;
`ofRatio?` goes the other way, from an exact ratio of naturals to the nearest number, ties to the
even significand.
-/
namespace Lexis

/-- A floating-point number of 64 bits: sign, 11 bits of exponent, 52 bits of fraction. -/
structure Binary64 where
  bits : UInt64
  deriving DecidableEq, Repr

namespace Binary64

def zero : Binary64 := ⟨0⟩
def infinity : Binary64 := ⟨0x7FF0000000000000⟩
def nan : Binary64 := ⟨0x7FF8000000000001⟩

def negative (x : Binary64) : Bool := Nat.pow 2 63 ≤ x.bits.toNat

def exponentField (x : Binary64) : Nat := x.bits.toNat / Nat.pow 2 52 % Nat.pow 2 11

def fractionField (x : Binary64) : Nat := x.bits.toNat % Nat.pow 2 52

def isFinite (x : Binary64) : Bool := x.exponentField ≠ 2047

def isNan (x : Binary64) : Bool := x.exponentField = 2047 && x.fractionField ≠ 0

/-- The least exponent, that of the subnormal numbers. -/
def leastExponent : Int := -1074

/-- The whole number that the fraction bits stand for, with the implicit bit of normal numbers. -/
def significand (x : Binary64) : Nat :=
  if x.exponentField = 0 then x.fractionField else Nat.pow 2 52 + x.fractionField

def exponent (x : Binary64) : Int :=
  if x.exponentField = 0 then leastExponent else x.exponentField - 1075

/-- The same number with the sign bit set or not. -/
def withSign (x : Binary64) (negative : Bool) : Binary64 :=
  ⟨(x.bits.toNat % Nat.pow 2 63 + if negative then Nat.pow 2 63 else 0).toUInt64⟩

/-! ## Rounding -/

/-- The whole number nearest to `n / d`; of two equally near ones the even one. -/
def roundHalfEven (n d : Nat) : Nat :=
  let k := n / d
  let r := n % d
  if 2 * r < d then k
  else if d < 2 * r then k + 1
  else if k % 2 = 0 then k else k + 1

/-- The ratio `n / d` divided by `2 ^ e`, as a ratio of naturals. -/
def scale (n d : Nat) (e : Int) : Nat × Nat := (n * Nat.pow 2 (-e).toNat, d * Nat.pow 2 e.toNat)

/-- The exponent `e` with `2 ^ e ≤ n / d < 2 ^ (e + 1)`, for positive `n` and `d`. -/
def binaryExponent (n d : Nat) : Int :=
  let e : Int := n.log2 - d.log2
  let (a, b) := scale n d e
  if b ≤ a then e else e - 1

/-- The exponent at which the ratio has 53 bits before the point, or the least one. -/
def roundingExponent (n d : Nat) : Int := max leastExponent (binaryExponent n d - 52)

/-- The non-negative number nearest to `n / d`, ties to the even significand; none if that is too
large. A significand that rounds up to `2 ^ 53` carries into the exponent by plain addition. -/
def ofRatio? (n d : Nat) : Option Binary64 :=
  if n = 0 then some zero
  else
    let e := roundingExponent n d
    let (a, b) := scale n d e
    let bits := (e - leastExponent).toNat * Nat.pow 2 52 + roundHalfEven a b
    if bits < infinity.bits.toNat then some ⟨bits.toUInt64⟩ else none

end Binary64
end Lexis
