import Lexis.Bytes

/-!
# Radices and words

The four radices in which integers are written. A number beside them is a radix that has a name but
no digits.

A run of digits in a radix is read from the left into a 64-bit word. The first thing that goes wrong
decides: a byte that is no digit of the radix, or a digit with which the number no longer fits. That
it does not fit is seen from words alone: the word before the digit is at or above a cutoff, or the
sum with the digit has wrapped around.

* `Word.push?_eq`: these two tests together are exact.
-/
namespace Lexis

inductive Radix where
  | binary | octal | decimal | hexadecimal
  | numbered (base : Int) (h : base ≠ 2 ∧ base ≠ 8 ∧ base ≠ 10 ∧ base ≠ 16)
  deriving DecidableEq, Repr

namespace Radix

def base : Radix → Int
  | binary => 2
  | octal => 8
  | decimal => 10
  | hexadecimal => 16
  | numbered base _ => base

def ofBase (base : Int) : Radix :=
  if h : base ≠ 2 ∧ base ≠ 8 ∧ base ≠ 10 ∧ base ≠ 16 then .numbered base h
  else if base = 2 then .binary
  else if base = 8 then .octal
  else if base = 10 then .decimal
  else .hexadecimal

def name : Radix → Bytes
  | binary => ascii "binary"
  | octal => ascii "octal"
  | decimal => ascii "decimal"
  | hexadecimal => ascii "hexadecimal"
  | numbered base _ => ascii "Radix(" ++ signedDecimal base ++ ascii ")"

/-- The base of a radix that numbers can be read in. -/
def base? : Radix → Option Nat
  | binary => some 2
  | octal => some 8
  | decimal => some 10
  | hexadecimal => some 16
  | numbered _ _ => none

def isValid (r : Radix) : Bool := r.base?.isSome

def isDigit (r : Radix) (c : Char) : Bool :=
  match r with
  | binary => c = '0' || c = '1'
  | octal => '0' ≤ c && c ≤ '7'
  | decimal => '0' ≤ c && c ≤ '9'
  | hexadecimal => ('0' ≤ c && c ≤ '9') || ('a' ≤ c && c ≤ 'f') || ('A' ≤ c && c ≤ 'F')
  | numbered _ _ => false

theorem ofBase_base (r : Radix) : ofBase r.base = r := by
  cases r with
  | numbered base h => simp [ofBase, Radix.base, h]
  | _ => rfl

theorem base_ofBase (base : Int) : (ofBase base).base = base := by
  unfold ofBase
  split
  · rfl
  · split
    · simp [Radix.base, *]
    · split
      · simp [Radix.base, *]
      · split
        · simp [Radix.base, *]
        · simp only [Radix.base]; omega

end Radix

/-! ## Words -/

/-- Why a number cannot be read. -/
inductive NumberError where
  | malformed
  | outOfRange
  deriving DecidableEq, Repr

def NumberError.message : NumberError → Bytes
  | malformed => ascii "invalid syntax"
  | outOfRange => ascii "value out of range"

namespace Word

/-- One more than the largest word. -/
def limit : Nat := Nat.pow 2 64

/-- The least word whose product with the base is too large for one. -/
def cutoff (base : Nat) : UInt64 := 0xFFFFFFFFFFFFFFFF / base.toUInt64 + 1

/-- The word `n` with one more digit behind it, if that is a word. -/
def push? (base : Nat) (n : UInt64) (d : Nat) : Option UInt64 :=
  if cutoff base ≤ n then none
  else
    let product := n * base.toUInt64
    let sum := product + d.toUInt64
    if sum < product then none else some sum

/-- Reads further digits behind a number `n` that is already read. -/
def readDigits (base : Nat) : UInt64 → Bytes → Except NumberError UInt64
  | n, [] => .ok n
  | n, b :: rest =>
    match digit? b with
    | none => .error .malformed
    | some d =>
      if base ≤ d then .error .malformed
      else match push? base n d with
        | none => .error .outOfRange
        | some n => readDigits base n rest

/-- The word that a non-empty run of digits denotes (`ParseUint`). -/
def parse (base : Nat) (s : Bytes) : Except NumberError UInt64 :=
  match s with
  | [] => .error .malformed
  | _ => readDigits base 0 s

theorem toNat_toUInt64 {n : Nat} (h : n < limit) : n.toUInt64.toNat = n :=
  UInt64.toNat_ofNat_of_lt' h

theorem toNat_cutoff {base : Nat} (hbase : 1 < base) (hmax : base < limit) :
    (cutoff base).toNat = (limit - 1) / base + 1 := by
  have hone : (limit - 1) / base ≤ (limit - 1) / 2 := Nat.div_le_div_left hbase (by decide)
  have hhalf : (limit - 1) / 2 + 1 < 2 ^ 64 := by decide
  have hmaxWord : (0xFFFFFFFFFFFFFFFF : UInt64).toNat = limit - 1 := rfl
  rw [cutoff, UInt64.toNat_add, UInt64.toNat_div, toNat_toUInt64 hmax, hmaxWord]
  exact Nat.mod_eq_of_lt (by simp only [UInt64.toNat_one]; omega)

/-- Below the cutoff, and only there, the product is a word. -/
theorem cutoff_le_iff {base : Nat} (hbase : 1 < base) (hmax : base < limit) (n : UInt64) :
    cutoff base ≤ n ↔ limit ≤ base * n.toNat := by
  rw [UInt64.le_iff_toNat_le, toNat_cutoff hbase hmax, Nat.succ_le_iff,
    Nat.div_lt_iff_lt_mul (by omega), Nat.mul_comm base]
  have hpos : 0 < limit := Nat.two_pow_pos 64
  omega

theorem toNat_mul {base : Nat} (hmax : base < limit) {n : UInt64} (h : base * n.toNat < limit) :
    (n * base.toUInt64).toNat = base * n.toNat := by
  rw [UInt64.toNat_mul, toNat_toUInt64 hmax, Nat.mul_comm]
  exact Nat.mod_eq_of_lt h

/-- A sum that is smaller than one of its parts went beyond a word, and no other sum did. -/
theorem add_lt_iff (m d : UInt64) : m + d < m ↔ limit ≤ m.toNat + d.toNat := by
  have hm : m.toNat < 2 ^ 64 := m.toNat_lt
  have hd : d.toNat < 2 ^ 64 := d.toNat_lt
  rw [UInt64.lt_iff_toNat_lt, UInt64.toNat_add, show limit = 2 ^ 64 from rfl]
  omega

/-- A digit is refused iff the exact number is no word. -/
theorem push?_eq {base d : Nat} (hbase : 1 < base) (hmax : base < limit) (hd : d < base)
    (n : UInt64) :
    push? base n d = if limit ≤ base * n.toNat + d then none
      else some (.ofNat (base * n.toNat + d)) := by
  have hdigit := toNat_toUInt64 (Nat.lt_trans hd hmax)
  unfold push?
  by_cases hproduct : limit ≤ base * n.toNat
  · rw [if_pos ((cutoff_le_iff hbase hmax n).2 hproduct), if_pos (Nat.le_add_right_of_le hproduct)]
  · rw [if_neg (mt (cutoff_le_iff hbase hmax n).1 hproduct)]
    have hmul := toNat_mul hmax (Nat.lt_of_not_le hproduct)
    dsimp only
    simp only [add_lt_iff, hmul, hdigit]
    split
    · rfl
    · next hsum =>
      congr 1
      apply UInt64.toNat_inj.1
      rw [UInt64.toNat_add, hmul, hdigit, UInt64.toNat_ofNat']

end Word
end Lexis
