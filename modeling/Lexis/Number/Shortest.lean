import Lexis.Number.Binary64

/-!
# Shortest decimals

The shortest decimal of a number has the fewest digits among all decimals that round to it; of
several with that many digits it is the nearest, and of two equally near ones the even one. Tried
are grids of 1, 2, … 17 digits, and on each grid the two neighbours of the number, all in exact
arithmetic.
-/
namespace Lexis

/-- The decimal `digits · 10 ^ exponent`. -/
structure Decimal where
  digits : Nat
  exponent : Int
  deriving DecidableEq, Repr

namespace Decimal

/-- The same decimal without zeros at the end, which `fuel` bounds. -/
def trim : Nat → Decimal → Decimal
  | 0, d => d
  | fuel + 1, d =>
    if d.digits ≠ 0 ∧ d.digits % 10 = 0 then trim fuel ⟨d.digits / 10, d.exponent + 1⟩ else d

/-- A ratio of naturals. -/
structure Ratio where
  num : Nat
  den : Nat
  deriving DecidableEq, Repr

/-- The ratio `n · 2 ^ e`. -/
def Ratio.ofBinary (n : Nat) (e : Int) : Ratio := ⟨n * Nat.pow 2 e.toNat, Nat.pow 2 (-e).toNat⟩

/-- The ratio of a decimal. -/
def ratio (d : Decimal) : Ratio :=
  ⟨d.digits * Nat.pow 10 d.exponent.toNat, Nat.pow 10 (-d.exponent).toNat⟩

def Ratio.le (a b : Ratio) : Bool := a.num * b.den ≤ b.num * a.den

def Ratio.lt (a b : Ratio) : Bool := a.num * b.den < b.num * a.den

/-- The distance of two ratios. -/
def Ratio.dist (a b : Ratio) : Ratio :=
  let x := a.num * b.den
  let y := b.num * a.den
  ⟨(x - y) + (y - x), a.den * b.den⟩

/-- The ratios that round to a number: from `low` to `high`, the ends included when `closed`. -/
structure Interval where
  low : Ratio
  high : Ratio
  closed : Bool

def Interval.contains (i : Interval) (r : Ratio) : Bool :=
  if i.closed then i.low.le r && r.le i.high else i.low.lt r && r.lt i.high

/-- The interval of a positive finite number. Below a power of two the neighbours are half as far. -/
def roundingInterval (x : Binary64) : Interval :=
  let m := x.significand
  let e := x.exponent
  let below := if m = Nat.pow 2 52 ∧ Binary64.leastExponent < e then 1 else 2
  { low := .ofBinary (4 * m - below) (e - 2)
    high := .ofBinary (4 * m + 2) (e - 2)
    closed := m % 2 = 0 }

/-- The exponent of the first digit of a positive ratio. -/
def leadingExponent (r : Ratio) : Int :=
  if r.den ≤ r.num then (decimal (r.num / r.den)).length - 1
  else -((decimal (r.den / r.num)).length : Int)

/-- The number of units of `10 ^ e` in a ratio, rounded down. -/
def floorUnits (r : Ratio) (e : Int) : Nat :=
  r.num * Nat.pow 10 (-e).toNat / (r.den * Nat.pow 10 e.toNat)

/-- The better of the two neighbours of `r` on the grid of `10 ^ e` that lie in the interval. -/
def onGrid? (i : Interval) (r : Ratio) (e : Int) : Option Decimal :=
  let n := floorUnits r e
  let down : Decimal := ⟨n, e⟩
  let up : Decimal := ⟨n + 1, e⟩
  match i.contains down.ratio, i.contains up.ratio with
  | false, false => none
  | true, false => some down
  | false, true => some up
  | true, true =>
    let a := r.dist down.ratio
    let b := r.dist up.ratio
    if a.lt b then some down
    else if b.lt a then some up
    else if n % 2 = 0 then some down else some up

/-- The shortest decimal of the magnitude of a finite number. -/
def shortest (x : Binary64) : Decimal :=
  if x.significand = 0 then ⟨0, 0⟩
  else
    let r := Ratio.ofBinary x.significand x.exponent
    let i := roundingInterval x
    let top := leadingExponent r
    let found := (List.range 17).findSome? fun (n : Nat) => onGrid? i r (top - n)
    trim 18 (found.getD ⟨floorUnits r (top - 16), top - 16⟩)

end Decimal
end Lexis
