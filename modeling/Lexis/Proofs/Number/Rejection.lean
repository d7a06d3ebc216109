import Mathlib.Data.List.TakeWhile
import Lexis.Number.FloatText
import Lexis.Proofs.Scan.Grammar

/-!
# Numbers that are rejected

A number can be malformed or too large. The numbers of the grammar are never malformed, but for an
integer that has no digits behind its prefix:

* `Word.parse_error`: a run of digits is rejected as malformed iff it is empty.
* `FloatText.parse_of_plain`: digits around one point are a number with as many places as there are
  digits behind it.
* `FloatText.parse_error`: they are rejected for their size only.
-/
namespace Lexis

open Grammar

/-! ## Words -/

namespace Word

def isDigit (base : Nat) (b : UInt8) : Bool := (digit? b).any (· < base)

theorem readDigits_error {base : Nat} {n : UInt64} {s : Bytes} {e : NumberError}
    (hs : s.all (isDigit base)) (h : readDigits base n s = .error e) : e = .outOfRange := by
  fun_induction readDigits base n s with
  | case1 => cases h
  | case2 n b rest hb => simp [isDigit, hb] at hs
  | case3 n b rest d hb hle =>
    simp [isDigit, hb] at hs
    omega
  | case4 => exact (Except.error.inj h).symm
  | case5 n b rest d _ _ m _ ih =>
    rw [List.all_cons, Bool.and_eq_true] at hs
    exact ih hs.2 h

/-- A run of digits is malformed if it is empty, and otherwise too large. -/
theorem parse_error {base : Nat} {s : Bytes} {e : NumberError} (hs : s.all (isDigit base))
    (h : parse base s = .error e) : e = if s = [] then .malformed else .outOfRange := by
  unfold parse at h
  split at h
  · exact (Except.error.inj h).symm
  · next hne =>
    rw [if_neg hne]
    exact readDigits_error hs h

end Word

/-! ## Floating-point numbers -/

namespace FloatText

/-- A byte of a number without sign, marker and exponent. -/
def plain (b : UInt8) : Bool := digit b || b = byte '.'

theorem plain_cases {b : UInt8} (h : plain b) :
    (isDigitIn false b || b = byte '_' || b = byte '.') ∧ b ≠ byte '_' ∧ b ≠ byte '+' ∧
      b ≠ byte '-' ∧ lower b ≠ byte 'x' := by
  have key : ∀ b, plain b → (isDigitIn false b || b = byte '_' || b = byte '.') ∧ b ≠ byte '_' ∧
      b ≠ byte '+' ∧ b ≠ byte '-' ∧ lower b ≠ byte 'x' := forall_byte (by decide +kernel)
  exact key b h

variable {s : Bytes}

theorem splitSign_of_plain (hs : s.all plain) : splitSign s = (none, s) := by
  cases s with
  | nil => rfl
  | cons b rest =>
    simp only [List.all_cons, Bool.and_eq_true] at hs
    obtain ⟨-, -, h1, h2, -⟩ := plain_cases hs.1
    simp [splitSign, h1, h2]

theorem splitMarker_of_plain (hs : s.all plain) : splitMarker s = (false, s) := by
  unfold splitMarker
  split
  · next b0 b1 rest =>
    simp only [List.all_cons, Bool.and_eq_true] at hs
    obtain ⟨-, -, -, -, h⟩ := plain_cases hs.2.1
    simp [h]
  · rfl

theorem underscoresFrom_of_plain {last : Last} (hs : s.all plain) (hl : last ≠ .underscore) :
    underscoresFrom false last s := by
  induction s generalizing last with
  | nil => simpa [underscoresFrom] using hl
  | cons b rest ih =>
    simp only [List.all_cons, Bool.and_eq_true] at hs
    obtain ⟨-, h, -⟩ := plain_cases hs.1
    unfold underscoresFrom
    split
    · exact ih hs.2 (by decide)
    · rw [ih hs.2 (by decide)]
      simpa using hl

theorem underscoresOk_of_plain (hs : s.all plain) : underscoresOk s := by
  unfold underscoresOk
  rw [splitSign_of_plain hs, splitMarker_of_plain hs]
  exact underscoresFrom_of_plain hs (by decide)

/-- Digits around a point are read as one number, the digits behind the point being its places. -/
theorem written?_of_plain (hs : s.all plain) (hp : s.count (byte '.') ≤ 1) (hd : s.any digit) :
    written? s = some ⟨false, ofDigits 10 (s.filter (· ≠ byte '.')), 10,
      0 - ((s.dropWhile (· ≠ byte '.')).drop 1).length⟩ := by
  have hmem : ∀ b ∈ s, plain b := List.all_eq_true.1 hs
  have htake : s.takeWhile (fun b => isDigitIn false b || b = byte '_' || b = byte '.') = s :=
    List.takeWhile_eq_self_iff.2 fun b hb => (plain_cases (hmem b hb)).1
  have hdrop : s.dropWhile (fun b => isDigitIn false b || b = byte '_' || b = byte '.') = [] :=
    List.dropWhile_eq_nil_iff.2 fun b hb => (plain_cases (hmem b hb)).1
  have hfilter : s.filter (· ≠ byte '_') = s :=
    List.filter_eq_self.2 fun b hb => decide_eq_true (plain_cases (hmem b hb)).2.1
  have hne : s.filter (· ≠ byte '.') ≠ [] := by
    obtain ⟨b, hb, hbd⟩ := List.any_eq_true.1 hd
    have hpoint : b ≠ byte '.' := by
      rintro rfl
      cases hbd
    exact List.ne_nil_of_mem (List.mem_filter.2 ⟨hb, decide_eq_true hpoint⟩)
  unfold written?
  rw [splitSign_of_plain hs]
  dsimp only
  rw [splitMarker_of_plain hs]
  dsimp only
  rw [htake, hdrop, hfilter, if_pos ⟨hp, hne⟩]
  rfl

/-- Digits and a point are no name. -/
theorem named?_of_plain (hs : s.all plain) : named? s = none := by
  have key : ∀ b, plain b → lower b ≠ byte 'n' := forall_byte (by decide +kernel)
  have hname : ∀ t, byte 'n' ∈ t → s.map lower ≠ t := by
    rintro t ht rfl
    obtain ⟨b, hb, hlower⟩ := List.mem_map.1 ht
    exact key b (List.all_eq_true.1 hs b hb) hlower
  unfold named?
  rw [splitSign_of_plain hs]
  dsimp only
  rw [if_neg, if_neg]
  · rintro ⟨h, -⟩
    exact hname _ (by decide) h
  · rintro (h | h)
    · exact hname _ (by decide) h
    · exact hname _ (by decide) h

/-- So only its size is left to say whether it has a value. -/
theorem parse_of_plain (hs : s.all plain) (hp : s.count (byte '.') ≤ 1) (hd : s.any digit) :
    parse s = Written.value ⟨false, ofDigits 10 (s.filter (· ≠ byte '.')), 10,
      0 - ((s.dropWhile (· ≠ byte '.')).drop 1).length⟩ := by
  unfold parse
  rw [named?_of_plain hs, written?_of_plain hs hp hd]
  exact if_pos (underscoresOk_of_plain hs)

/-- Digits around at most one point are rejected for their size only. -/
theorem parse_error {e : NumberError} (hs : s.all plain) (hp : s.count (byte '.') ≤ 1)
    (hd : s.any digit) (h : parse s = .error e) : e = .outOfRange := by
  rw [parse_of_plain hs hp hd] at h
  unfold Written.value at h
  split at h
  · cases h
  · exact (Except.error.inj h).symm

end FloatText
end Lexis
