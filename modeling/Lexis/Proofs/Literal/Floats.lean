import Lexis.Proofs.Literal.Integers
import Lexis.Proofs.Number.Rounding

/-!
# Floating-point numbers

Digits around a point denote an exact rational, and the value of such a literal is the finite number
nearest to it. It has no sign, and where the rational lies too far behind the largest finite number
there is no value at all. A scan finds no other floating-point numbers.

* `FloatText.parse_of_lt_limit`, `FloatText.parse_of_limit_le`: the two sides of the limit.
* `Recognises.isFinite_and_negative`: the value of any lexeme that is such a number.
* `wholeDecimal_iff`: which digits may stand before the point.
-/
namespace Lexis

open Grammar Cursor Binary64

/-- The rational that digits denote, some before a point and some behind it. -/
def decimalValue (whole fraction : Bytes) : ℚ :=
  numeral 10 whole + numeral 10 fraction / 10 ^ fraction.length

variable {o : Options} {source t u : Bytes}

/-! ## Reading digits around a point -/

theorem numeral_append_div (t u : Bytes) :
    (numeral 10 (t ++ u) : ℚ) / (10 ^ u.length : ℕ) = decimalValue t u := by
  have hpow : (10 : ℚ) ^ u.length ≠ 0 := by positivity
  rw [decimalValue, numeral_append]
  push_cast
  field_simp

theorem decimalValue_decimal (n : Nat) : decimalValue (decimal n) [] = n := by
  have hnumeral : numeral 10 (decimal n) = n := numeral_digits (by decide) (by decide) n
  rw [decimalValue, hnumeral, numeral_nil, Nat.cast_zero, zero_div, add_zero]

theorem Binary64.withSign_false {x : Binary64} (h : x.negative = false) : x.withSign false = x := by
  rw [negative_eq_false_iff] at h
  have hmod : x.bits.toNat % Nat.pow 2 63 = x.bits.toNat := Nat.mod_eq_of_lt h
  rw [withSign, hmod, if_neg Bool.false_ne_true, Nat.add_zero]
  cases x
  exact congrArg _ UInt64.ofNat_toNat

theorem Binary64.isNan_eq_false {x : Binary64} (h : x.isFinite) : x.isNan = false := by
  rw [isFinite_iff] at h
  simp [isNan, h]

namespace FloatText

/-- A number with a point is the ratio of all its digits and a power of ten. -/
theorem parse_point (h : WholeDecimal t) (hu : u.all digit) :
    parse (t ++ byte '.' :: u) = (ofRatio? (numeral 10 (t ++ u)) (10 ^ u.length)).elim
      (.error .outOfRange) fun x => .ok (x.withSign false) := by
  have key : ∀ b, digit b → Word.isDigit 10 b ∧ b ≠ byte '.' := forall_byte (by decide +kernel)
  have hpoint : ∀ v : Bytes, v.all digit → ∀ b ∈ v, decide (b ≠ byte '.') = true :=
    fun v hv b hb => decide_eq_true (key b (List.all_eq_true.1 hv b hb)).2
  have ht := h.all_digit
  have hfilter : (t ++ byte '.' :: u).filter (· ≠ byte '.') = t ++ u := by
    rw [List.filter_append, List.filter_cons_of_neg (by decide), List.filter_eq_self.2 (hpoint t ht),
      List.filter_eq_self.2 (hpoint u hu)]
  have hdrop : (t ++ byte '.' :: u).dropWhile (· ≠ byte '.') = byte '.' :: u := by
    rw [List.dropWhile_append_of_pos (hpoint t ht), List.dropWhile_cons_of_neg (by decide)]
  have hdigits : (t ++ u).all (Word.isDigit 10) := by
    rw [List.all_append, all_of_imp (fun b hb => (key b hb).1) ht,
      all_of_imp (fun b hb => (key b hb).1) hu]
    rfl
  rw [parse_of_plain (h.all_plain hu) (h.count_point hu) (h.any_digit u), hfilter, hdrop,
    List.drop_one, List.tail_cons, ofDigits_eq_numeral (by decide) hdigits]
  unfold Written.value
  have hpos : (0 - (u.length : Int)).toNat = 0 := by omega
  have hneg : (-(0 - (u.length : Int))).toNat = u.length := by omega
  rw [hpos, hneg, Nat.pow_eq, Nat.pow_eq, Nat.pow_zero, Nat.mul_one]
  cases ofRatio? (numeral 10 (t ++ u)) (10 ^ u.length) with
  | none => rfl
  | some x => rfl

/-- Below the limit the value is the nearest number. -/
theorem parse_of_lt_limit (h : WholeDecimal t) (hu : u.all digit)
    (hlt : decimalValue t u < 2 ^ 1024 - 2 ^ 970) :
    ∃ x, parse (t ++ byte '.' :: u) = .ok x ∧ x.negative = false ∧
      Nearest (decimalValue t u) x := by
  have hpow : 0 < 10 ^ u.length := Nat.pow_pos (by decide)
  rw [← numeral_append_div] at hlt ⊢
  obtain ⟨x, hx, hsign, hnearest⟩ := ofRatio?_eq_some hpow hlt
  refine ⟨x, ?_, hsign, hnearest⟩
  rw [parse_point h hu, hx, Option.elim_some, withSign_false hsign]

/-- From the limit on there is none. -/
theorem parse_of_limit_le (h : WholeDecimal t) (hu : u.all digit)
    (hle : 2 ^ 1024 - 2 ^ 970 ≤ decimalValue t u) :
    parse (t ++ byte '.' :: u) = .error .outOfRange := by
  have hpow : 0 < 10 ^ u.length := Nat.pow_pos (by decide)
  rw [← numeral_append_div] at hle
  rw [parse_point h hu, ofRatio?_eq_none hpow hle, Option.elim_none]

end FloatText

/-! ## Lexemes -/

/-- The value of a lexeme is finite and has no sign, if it is a floating-point number. -/
theorem Recognises.isFinite_and_negative {d : Cursor} {x : Lexeme} {f : Form} {y : Binary64}
    (h : Recognises o d x f t) (hy : (Step.ofLexeme d x).token.value = .float y) :
    y.isFinite ∧ y.negative = false := by
  rcases h.gives with habsent | hgives
  · rw [habsent] at hy
    cases hy
  · rw [hy] at hgives
    cases hgives with
    | float hc hparse =>
      have hspells := h.longest.spells
      cases hspells with
      | float hd hu =>
        rcases lt_or_ge (decimalValue _ _) (2 ^ 1024 - 2 ^ 970) with hlt | hle
        · obtain ⟨x, hx, hsign, hnearest⟩ := FloatText.parse_of_lt_limit hd hu hlt
          cases hx.symm.trans hparse
          exact ⟨hnearest.finite, hsign⟩
        · cases (FloatText.parse_of_limit_le hd hu hle).symm.trans hparse
      | _ => cases hc

theorem isFinite_and_negative_of_mem_tokenize {k : Token} {y : Binary64}
    (h : k ∈ (tokenize source o).1) (hy : k.value = .float y) :
    y.isFinite ∧ y.negative = false := by
  obtain ⟨s, hs, rfl⟩ := List.mem_map.1 h
  refine forall_mem_steps
    (P := fun s => ∀ y, s.token.value = .float y → y.isFinite ∧ y.negative = false) ?_ ?_
    (inside_start source) s hs y hy
  · intro d _ y hy
    cases hy
  · intro d x f t _ hr y hy
    exact hr.isFinite_and_negative hy

/-- Digits may stand before a point unless a zero stands before an octal digit. -/
theorem wholeDecimal_iff : WholeDecimal t ↔
    t ≠ [] ∧ t.all digit ∧ ∀ b u, t = byte '0' :: b :: u → octalDigit b = false := by
  constructor
  · intro h
    refine ⟨?_, h.all_digit, ?_⟩
    · obtain ⟨b, u, rfl, -⟩ := h.exists_cons
      exact List.cons_ne_nil b u
    · rintro b u rfl
      cases h with
      | nonzero hb => exact absurd hb (by decide)
      | padded hb => exact ((classes_apart b).2.2.2.1 hb).2.2.2
  · rintro ⟨hne, ht, hzero⟩
    obtain ⟨b, u, rfl⟩ := List.exists_cons_of_ne_nil hne
    rw [List.all_cons, Bool.and_eq_true] at ht
    obtain ⟨hb, hu⟩ := ht
    by_cases hz : b = byte '0'
    · subst hz
      cases u with
      | nil => exact .zero
      | cons x u =>
        have hhigh := (classes_apart x).2.2.2.2.2.2.1
        rw [List.all_cons, Bool.and_eq_true] at hu
        exact .padded (hhigh hu.1 (hzero x u rfl)) hu.2
    · exact .nonzero ((classes_apart b).2.2.2.2.2.2.2 hb hz) hu

/-- Digits around a point are scanned as one literal: its value is the nearest number, or there is
none and the size is reported. No scan has a floating-point number that is not finite or has a
sign. -/
theorem tokenize_float (o : Options) :
    (∀ whole fraction : Bytes, whole ≠ [] → whole.all digit → fraction.all digit →
      (∀ b u, whole = byte '0' :: b :: u → octalDigit b = false) →
      let text := whole ++ byte '.' :: fraction
      let q := decimalValue whole fraction
      (q < 2 ^ 1024 - 2 ^ 970 → ∃ x, Nearest q x ∧ x.negative = false ∧
        (∀ y, Nearest q y → y.negative = false → y = x) ∧
        tokenize text o = ([⟨.literal, .float, .float x, ⟨0, text.length⟩⟩, .eofOf text], [])) ∧
      (2 ^ 1024 - 2 ^ 970 ≤ q → ∃ r, r.cause? = some (.number .outOfRange) ∧
        tokenize text o = ([⟨.literal, .float, .absent, ⟨0, text.length⟩⟩, .eofOf text],
          [⟨.malformedNumber, ⟨0, text.length⟩, 1, some r⟩]))) ∧
    ∀ source k x, k ∈ (tokenize source o).1 → k.value = .float x →
      x.isFinite ∧ x.isNan = false ∧ x.negative = false := by
  refine ⟨fun whole fraction hne hwhole hfraction hzero => ?_, fun source k x hk hx => ?_⟩
  · have hd := wholeDecimal_iff.2 ⟨hne, hwhole, hzero⟩
    have hspells : Spells o .float (whole ++ byte '.' :: fraction) := .float hd hfraction
    have hdecode := Literal.float_decode_eq (whole ++ byte '.' :: fraction)
    unfold Literal.decodeFloat at hdecode
    constructor
    · intro hlt
      obtain ⟨x, hx, hsign, hnearest⟩ := FloatText.parse_of_lt_limit hd hfraction hlt
      rw [hx] at hdecode
      exact ⟨x, hnearest, hsign, fun y hy hysign => hy.unique hnearest hysign hsign,
        tokenize_of_value hspells rfl hdecode⟩
    · intro hle
      rw [FloatText.parse_of_limit_le hd hfraction hle] at hdecode
      exact ⟨_, rfl, tokenize_of_rejected hspells rfl hdecode⟩
  · obtain ⟨hfinite, hsign⟩ := isFinite_and_negative_of_mem_tokenize hk hx
    exact ⟨hfinite, isNan_eq_false hfinite, hsign⟩

/-- One more than two to the power of 53 lies in the middle of two numbers, of which the even one is
taken. The limit of the range is itself too large. -/
theorem tokenize_float_tie :
    let tie := decimal (2 ^ 53 + 1)
    let limit := decimal (2 ^ 1024 - 2 ^ 970)
    let text := limit ++ [byte '.']
    (WholeDecimal tie ∧ decimalValue tie [] < 2 ^ 1024 - 2 ^ 970 ∧
      Nearest (decimalValue tie []) ⟨0x4340000000000000⟩ ∧
      tokenize (tie ++ [byte '.']) {} =
        ([⟨.literal, .float, .float ⟨0x4340000000000000⟩, ⟨0, 17⟩⟩, .eofOf (tie ++ [byte '.'])],
          [])) ∧
      WholeDecimal limit ∧ 2 ^ 1024 - 2 ^ 970 ≤ decimalValue limit [] ∧
      ∃ r, r.cause? = some (.number .outOfRange) ∧ tokenize text {} =
        ([⟨.literal, .float, .absent, ⟨0, text.length⟩⟩, .eofOf text],
          [⟨.malformedNumber, ⟨0, text.length⟩, 1, some r⟩]) := by
  intro tie limit text
  have hlt : decimalValue tie [] < 2 ^ 1024 - 2 ^ 970 := by
    have hnat : 2 ^ 53 + 1 + 2 ^ 970 < 2 ^ 1024 := by decide +kernel
    rw [decimalValue_decimal, lt_sub_iff_add_lt]
    exact_mod_cast hnat
  have hle : 2 ^ 1024 - 2 ^ 970 ≤ decimalValue limit [] := by
    rw [decimalValue_decimal, Nat.cast_sub (by decide +kernel), Nat.cast_pow, Nat.cast_pow,
      Nat.cast_ofNat]
  have htie := wholeDecimal_decimal (2 ^ 53 + 1)
  have hlimit := wholeDecimal_decimal (2 ^ 1024 - 2 ^ 970)
  obtain ⟨hne, hall, hzero⟩ := wholeDecimal_iff.1 htie
  obtain ⟨hne', hall', hzero'⟩ := wholeDecimal_iff.1 hlimit
  have htokenize := (tokenize_float {}).1
  obtain ⟨x, hnearest, -, -, hscan⟩ := (htokenize tie [] hne hall rfl hzero).1 hlt
  have hrun : tokenize (tie ++ [byte '.']) {} =
      ([⟨.literal, .float, .float ⟨0x4340000000000000⟩, ⟨0, 17⟩⟩, .eofOf (tie ++ [byte '.'])],
        []) := by
    decide +kernel
  cases hrun.symm.trans hscan
  exact ⟨⟨htie, hlt, hnearest, hrun⟩, hlimit, hle,
    (htokenize limit [] hne' hall' rfl hzero').2 hle⟩

end Lexis
