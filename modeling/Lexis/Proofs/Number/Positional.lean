import Mathlib.Data.List.Induction
import Mathlib.Data.Nat.Digits.Defs
import Lexis.Proofs.Number.Rejection
import Lexis.Proofs.Text.Quoting

/-!
# Positional notation

What a run of digits denotes is a sum of powers of the base (`numeral`); how it is read is a loop
over words from the left that stops at the first digit with which the number no longer fits. The two
are held against each other: behind the digits `p` the loop stands at the word of `numeral base p`,
and each further digit moves both by the same rule or is refused.

* `numeral_concat`: one more digit.
* `Word.readDigits_eq_ok_iff`, `Word.readDigits_eq_outOfRange_iff`: what the loop makes of the
  digits that follow, in terms of the number that all of them denote.
* `Word.parse_eq_ok_iff`, `Word.parse_eq_outOfRange_iff`: the same for a whole run.
* `numeral_digits`: the digits of a number denote it.
-/
namespace Lexis

open Grammar

/-- The value of a digit: its place among all digits, small letters or capital ones. -/
def digitValue (b : UInt8) : Nat := (ascii "0123456789abcdef").idxOf (FloatText.lower b)

/-- The number that a text of digits denotes in a base, the last digit being that of the units. -/
def numeral (base : Nat) (s : Bytes) : Nat := Nat.ofDigits base (s.reverse.map digitValue)

variable {base n : Nat} {b : UInt8} {p s t : Bytes}

/-! ## What digits denote -/

@[simp] theorem numeral_nil (base : Nat) : numeral base [] = 0 := rfl

theorem numeral_append (base : Nat) (s t : Bytes) :
    numeral base (s ++ t) = base ^ t.length * numeral base s + numeral base t := by
  unfold numeral
  rw [List.reverse_append, List.map_append, Nat.ofDigits_append, List.length_map,
    List.length_reverse, Nat.add_comm]

theorem numeral_concat (base : Nat) (s : Bytes) (b : UInt8) :
    numeral base (s ++ [b]) = base * numeral base s + digitValue b := by
  rw [numeral_append]
  simp [numeral]

/-- More digits do not make a number smaller. -/
theorem numeral_le_append (hbase : 0 < base) (s t : Bytes) :
    numeral base s ≤ numeral base (s ++ t) := by
  have hpow : 0 < base ^ t.length := Nat.pow_pos hbase
  have hle := Nat.le_mul_of_pos_left (numeral base s) hpow
  rw [numeral_append]
  omega

theorem numeral_zeros (base k : Nat) (s : Bytes) :
    numeral base (List.replicate k (byte '0') ++ s) = numeral base s := by
  have hzero : digitValue (byte '0') = 0 := by decide
  unfold numeral
  rw [List.reverse_append, List.map_append, List.reverse_replicate, List.map_replicate, hzero,
    Nat.ofDigits_append_replicate_zero]

/-- Small letters and capital ones denote the same. -/
theorem numeral_lower (base : Nat) (s : Bytes) :
    numeral base (s.map FloatText.lower) = numeral base s := by
  have key : ∀ b, FloatText.lower (FloatText.lower b) = FloatText.lower b :=
    forall_byte (by decide +kernel)
  unfold numeral
  rw [← List.map_reverse, List.map_map]
  congr 2
  funext b
  simp [digitValue, key]

theorem digitValue_eq {d : Nat} (h : digit? b = some d) (hd : d < 16) : digitValue b = d := by
  have key : ∀ b, (digit? b).all fun d => 16 ≤ d || digitValue b = d :=
    forall_byte (by decide +kernel)
  have hb := key b
  rw [h, Option.all_some, Bool.or_eq_true, decide_eq_true_eq, decide_eq_true_eq] at hb
  omega

theorem Word.exists_of_isDigit (h : Word.isDigit base b) : ∃ d, digit? b = some d ∧ d < base := by
  unfold Word.isDigit at h
  cases hd : digit? b with
  | none => simp [hd] at h
  | some d => exact ⟨d, rfl, by simpa [hd] using h⟩

/-- Digits that are added up from the left denote the same number. -/
theorem FloatText.ofDigits_eq_numeral (hbase : base ≤ 16) (hs : s.all (Word.isDigit base)) :
    FloatText.ofDigits base s = numeral base s := by
  induction s using List.reverseRecOn with
  | nil => rfl
  | append_singleton s b ih =>
    rw [List.all_append, List.all_cons, List.all_nil, Bool.and_true, Bool.and_eq_true] at hs
    obtain ⟨hs, hb⟩ := hs
    obtain ⟨d, hd, hlt⟩ := Word.exists_of_isDigit hb
    rw [numeral_concat, ← ih hs, digitValue_eq hd (by omega)]
    simp [FloatText.ofDigits, hd]

theorem all_isDigit_digits (hbase : 1 < base) (hmax : base ≤ 16) (n : Nat) :
    (digits base n).all (Word.isDigit base) := by
  rw [List.all_eq_true]
  intro b hb
  obtain ⟨d, hd, rfl⟩ := mem_digits hbase hb
  simp [Word.isDigit, digit?_digitChar (Nat.lt_of_lt_of_le hd hmax), hd]

/-- The digits of a number denote it. -/
theorem numeral_digits (hbase : 1 < base) (hmax : base ≤ 16) (n : Nat) :
    numeral base (digits base n) = n := by
  rw [← FloatText.ofDigits_eq_numeral hmax (all_isDigit_digits hbase hmax n),
    ofDigits_digits hbase hmax]

/-! ## Reading words -/

namespace Word

theorem numeral_nil_lt (base : Nat) : numeral base [] < limit := Nat.two_pow_pos 64

/-- Behind the digits `p` the loop stands at the number that they denote: one step of it. -/
theorem readDigits_cons (hpos : 1 < base) (hbase : base ≤ 16) (hp : numeral base p < limit)
    (s : Bytes) (b : UInt8) :
    readDigits base (.ofNat (numeral base p)) (b :: s) =
      if isDigit base b then
        if limit ≤ numeral base (p ++ [b]) then .error .outOfRange
        else readDigits base (.ofNat (numeral base (p ++ [b]))) s
      else .error .malformed := by
  have hmax : base < limit := Nat.lt_of_le_of_lt hbase (by decide)
  rw [readDigits, numeral_concat]
  cases hd : digit? b with
  | none => simp [isDigit, hd]
  | some d =>
    by_cases hlt : d < base
    · have hword := push?_eq hpos hmax hlt (.ofNat (numeral base p))
      rw [UInt64.toNat_ofNat_of_lt' hp] at hword
      simp only [isDigit, hd, Option.any_some, hlt, decide_true, if_true, hword,
        digitValue_eq hd (by omega), Nat.not_le.2 hlt, if_false]
      by_cases hsum : limit ≤ base * numeral base p + d <;> simp [hsum]
    · have hle : base ≤ d := by omega
      simp [isDigit, hd, hlt, hle]

theorem readDigits_eq_ok_iff (hpos : 1 < base) (hbase : base ≤ 16)
    (hp : numeral base p < limit) {w : UInt64} :
    readDigits base (.ofNat (numeral base p)) s = .ok w ↔
      s.all (isDigit base) ∧ numeral base (p ++ s) < limit ∧ w = .ofNat (numeral base (p ++ s)) := by
  induction s generalizing p with
  | nil => simp [readDigits, hp, eq_comm]
  | cons b s ih =>
    have hassoc : p ++ b :: s = p ++ [b] ++ s := by simp
    rw [readDigits_cons hpos hbase hp, List.all_cons, Bool.and_eq_true, hassoc]
    by_cases hb : isDigit base b
    · rw [if_pos hb]
      by_cases hfits : limit ≤ numeral base (p ++ [b])
      · -- The number is too large already, and more digits do not make it smaller.
        have hle := numeral_le_append (Nat.lt_trans Nat.zero_lt_one hpos) (p ++ [b]) s
        rw [if_pos hfits]
        constructor
        · intro h
          cases h
        · intro h
          omega
      · rw [if_neg hfits, ih (by omega)]
        simp [hb]
    · simp [hb]

theorem readDigits_eq_outOfRange_iff (hpos : 1 < base) (hbase : base ≤ 16)
    (hp : numeral base p < limit) :
    readDigits base (.ofNat (numeral base p)) s = .error .outOfRange ↔
      ∃ q, q <+: s ∧ q.all (isDigit base) ∧ limit ≤ numeral base (p ++ q) := by
  have hnil : ¬ limit ≤ numeral base (p ++ []) := by
    rw [List.append_nil]
    omega
  induction s generalizing p with
  | nil =>
    simp only [readDigits, reduceCtorEq, List.prefix_nil, false_iff]
    rintro ⟨q, rfl, -, hq⟩
    exact hnil hq
  | cons b s ih =>
    rw [readDigits_cons hpos hbase hp]
    have hmore : (∃ q, q <+: b :: s ∧ q.all (isDigit base) ∧ limit ≤ numeral base (p ++ q)) ↔
        isDigit base b ∧ ∃ q, q <+: s ∧ q.all (isDigit base) ∧
          limit ≤ numeral base (p ++ [b] ++ q) := by
      constructor
      · rintro ⟨q, hq, hall, hle⟩
        rcases List.prefix_cons_iff.1 hq with rfl | ⟨q, rfl, hq'⟩
        · exact absurd hle hnil
        · rw [List.all_cons, Bool.and_eq_true] at hall
          exact ⟨hall.1, q, hq', hall.2, by simpa using hle⟩
      · rintro ⟨hb, q, hq, hall, hle⟩
        refine ⟨b :: q, List.cons_prefix_cons.2 ⟨rfl, hq⟩, ?_, by simpa using hle⟩
        rw [List.all_cons, hb, hall]
        rfl
    rw [hmore]
    by_cases hb : isDigit base b
    · by_cases hfits : limit ≤ numeral base (p ++ [b])
      · simp only [hb, hfits, if_true, true_and, true_iff]
        exact ⟨[], List.nil_prefix, rfl, by simpa using hfits⟩
      · have hlt : numeral base (p ++ [b]) < limit := by omega
        simp only [hb, hfits, if_true, if_false, true_and]
        exact ih hlt (by simpa using hlt)
    · simp [hb]

theorem parse_of_ne_nil (h : s ≠ []) :
    parse base s = readDigits base (.ofNat (numeral base [])) s := by
  cases s with
  | nil => exact absurd rfl h
  | cons b s => rfl

/-- A run of digits has a value iff it is not empty, holds digits only and denotes a number that
fits into a word. -/
theorem parse_eq_ok_iff (hpos : 1 < base) (hbase : base ≤ 16) {w : UInt64} :
    parse base s = .ok w ↔
      s ≠ [] ∧ s.all (isDigit base) ∧ numeral base s < limit ∧ w = .ofNat (numeral base s) := by
  by_cases hs : s = []
  · simp [hs, parse]
  · rw [parse_of_ne_nil hs, readDigits_eq_ok_iff hpos hbase (numeral_nil_lt base)]
    simp [hs]

/-- A run is too large iff the digits at its front denote a number that is. -/
theorem parse_eq_outOfRange_iff (hpos : 1 < base) (hbase : base ≤ 16) :
    parse base s = .error .outOfRange ↔
      ∃ p, p <+: s ∧ p.all (isDigit base) ∧ limit ≤ numeral base p := by
  by_cases hs : s = []
  · subst hs
    simp only [parse, List.prefix_nil, Except.error.injEq, reduceCtorEq, false_iff]
    rintro ⟨p, rfl, -, hp⟩
    exact absurd hp (Nat.not_le.2 (numeral_nil_lt base))
  · rw [parse_of_ne_nil hs, readDigits_eq_outOfRange_iff hpos hbase (numeral_nil_lt base)]
    simp

end Word
end Lexis
