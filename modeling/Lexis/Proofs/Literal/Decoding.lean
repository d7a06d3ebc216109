import Lexis.Literal.Decode
import Lexis.Proofs.Number.Rejection

/-!
# What the literals of the grammar decode to

A string always has a value. A number has one or is rejected with the tag for numbers, and the text
alone says why: only `0b` and `0x` without digits are malformed, all others are too large.

* `Literal.returns_of_decode`: a value or an error, never both.
* `Spells.decode_str`: strings.
* `Spells.decodesTo`: integers and floats.
-/
namespace Lexis

open Grammar

/-- Why a number of the grammar is rejected, if it is. -/
def numberError (t : Bytes) : NumberError :=
  if t = ascii "0b" ∨ t = ascii "0x" then .malformed else .outOfRange

/-- The literal has a value, or it is a number rejected for `e`. -/
inductive DecodesTo (l : Literal) (t : Bytes) (e : NumberError) : Prop where
  | value {v : Value} : l.decode t = .ok (v, none) → v ≠ .absent → DecodesTo l t e
  | rejected {r : Reason} : l.decode t = .ok (.absent, some (.tagged .malformedNumber r)) →
      r.cause? = some (.number e) → DecodesTo l t e

/-! ## The readers -/

theorem decodesTo_int {radix : Radix} {base k : Nat} {t : Bytes} (hr : radix.base? = some base)
    (hk : k ≤ t.length) (hd : (t.drop k).all (Word.isDigit base)) :
    DecodesTo (.int radix k) t (if t.drop k = [] then .malformed else .outOfRange) := by
  have hin : ¬ ((k : Int) < 0 ∨ (t.length : Int) < k) := by omega
  have hdec : (Literal.int radix k).decode t = .ok (Literal.decodeInt radix (t.drop k)) :=
    if_neg hin
  unfold Literal.decodeInt at hdec
  rw [hr] at hdec
  dsimp only at hdec
  cases hp : Word.parse base (t.drop k) with
  | ok n =>
    rw [hp] at hdec
    exact .value hdec (by simp)
  | error e =>
    rw [hp] at hdec
    refine .rejected hdec ?_
    rw [Reason.cause?, Word.parse_error hd hp]

theorem Literal.float_decode_eq (t : Bytes) : Literal.float.decode t = .ok (decodeFloat t) := by
  have hin : ¬ ((0 : Int) < 0 ∨ (t.length : Int) < 0) := by omega
  exact if_neg hin

theorem decodesTo_float {t : Bytes} (ht : t.all FloatText.plain) (hp : t.count (byte '.') ≤ 1)
    (hd : t.any digit) : DecodesTo .float t .outOfRange := by
  have hdec := Literal.float_decode_eq t
  unfold Literal.decodeFloat at hdec
  cases he : FloatText.parse t with
  | ok x =>
    rw [he] at hdec
    exact .value hdec (by simp)
  | error e =>
    rw [he] at hdec
    refine .rejected hdec ?_
    rw [Reason.cause?, FloatText.parse_error ht hp hd he]

/-- What a decoded value can be: a number, the text between the quotes, or the lexeme itself. -/
inductive Literal.Gives (l : Literal) (lexeme : Bytes) : Value → Prop where
  | int (n : UInt64) : Gives l lexeme (.int n)
  | float {x : Binary64} : l.category = .float → FloatText.parse lexeme = .ok x →
      Gives l lexeme (.float x)
  | str : l.category = .str →
      Gives l lexeme (.string (Literal.stringBody (lexeme.drop l.prefixLen.toNat)))
  | raw : Gives l lexeme (.raw lexeme)

/-- A tag of this library. -/
def Tag.IsNamed : Tag → Prop
  | other _ => False
  | _ => True

/-- A reason of this library. -/
def Reason.IsNamed : Reason → Prop
  | plain _ => False
  | _ => True

theorem LiteralClass.isNamed_malformedTag (c : LiteralClass) : c.malformedTag.IsNamed := by
  unfold malformedTag
  split <;> trivial

/-- What decoding can return: a value, or an error with a tag and no value. -/
inductive Literal.Returns (l : Literal) (lexeme : Bytes) : Value → Option Failure → Prop where
  | value {v : Value} : l.Gives lexeme v → Returns l lexeme v none
  | failure {tag : Tag} {reason : Reason} : tag.IsNamed → reason.IsNamed →
      Returns l lexeme .absent (some (.tagged tag reason))

theorem Literal.returns_decodeInt (l : Literal) (lexeme : Bytes) (radix : Radix) (digits : Bytes) :
    l.Returns lexeme (decodeInt radix digits).1 (decodeInt radix digits).2 := by
  unfold decodeInt
  split
  · exact .failure trivial trivial
  · split
    · exact .value (.int _)
    · exact .failure trivial trivial

theorem Literal.returns_decodeFloat {l : Literal} (hl : l.category = .float) (lexeme : Bytes) :
    l.Returns lexeme (decodeFloat lexeme).1 (decodeFloat lexeme).2 := by
  unfold decodeFloat
  split
  · next hx => exact .value (.float hl hx)
  · exact .failure trivial trivial

theorem Literal.returns_of_decode {l : Literal} {lexeme : Bytes} {v : Value} {e : Option Failure}
    (h : l.decode lexeme = .ok (v, e)) : l.Returns lexeme v e := by
  unfold Literal.decode at h
  dsimp only at h
  split at h
  · cases h
    exact .failure l.category.isNamed_malformedTag trivial
  · cases hc : l.category with
    | int =>
      rw [hc] at h
      have hr := l.returns_decodeInt lexeme l.radix (lexeme.drop l.prefixLen.toNat)
      rwa [Except.ok.inj h] at hr
    | float =>
      rw [hc] at h
      have hr := returns_decodeFloat hc lexeme
      rwa [Except.ok.inj h] at hr
    | str =>
      rw [hc] at h
      cases h
      exact .value (.str hc)
    | raw =>
      rw [hc] at h
      cases h
      exact .value .raw
    | char | byte =>
      rw [hc] at h
      cases h
      exact .failure trivial trivial
    | numbered =>
      rw [hc] at h
      cases h

theorem Literal.value_of_decode {l : Literal} {lexeme : Bytes} {r : Value × Option Failure}
    (h : l.decode lexeme = .ok r) : l.value lexeme = r.1 := by
  rw [Literal.value, h]
  rfl

/-- What the tokens of a literal carry. -/
theorem Literal.value_eq_absent_or_gives (l : Literal) (lexeme : Bytes) :
    l.value lexeme = .absent ∨ l.Gives lexeme (l.value lexeme) := by
  cases hd : l.decode lexeme with
  | error e =>
    left
    rw [Literal.value, hd]
    rfl
  | ok r =>
    obtain ⟨v, e⟩ := r
    rw [value_of_decode hd]
    cases returns_of_decode hd with
    | value hv => exact .inr hv
    | failure => exact .inl rfl

/-! ## The forms -/

theorem all_of_imp {p q : UInt8 → Bool} (h : ∀ b, p b → q b) {u : Bytes} (hu : u.all p) :
    u.all q := by
  rw [List.all_eq_true] at hu ⊢
  intro b hb
  exact h b (hu b hb)

/-- A text of a class without the letters of the prefixes is too large if it is rejected. -/
theorem numberError_of_all {p : UInt8 → Bool} {t : Bytes} (hb : p (byte 'b') = false)
    (hx : p (byte 'x') = false) (ht : t.all p) : numberError t = .outOfRange := by
  refine if_neg ?_
  rintro (rfl | rfl)
  · have := List.all_eq_true.1 ht (byte 'b') (by decide)
    rw [hb] at this
    cases this
  · have := List.all_eq_true.1 ht (byte 'x') (by decide)
    rw [hx] at this
    cases this

namespace Grammar

theorem WholeDecimal.decodesTo {t : Bytes} (h : WholeDecimal t) :
    DecodesTo (.int .decimal 0) t (numberError t) := by
  have key : ∀ b, digit b → Word.isDigit 10 b := forall_byte (by decide +kernel)
  obtain ⟨b, u, rfl, -⟩ := h.exists_cons
  rw [numberError_of_all rfl rfl h.all_digit]
  exact decodesTo_int (k := 0) rfl (Nat.zero_le _) (all_of_imp key h.all_digit)

theorem WholeDecimal.all_plain {t u : Bytes} (h : WholeDecimal t) (hu : u.all digit) :
    (t ++ byte '.' :: u).all FloatText.plain := by
  have key : ∀ b, digit b → FloatText.plain b := forall_byte (by decide +kernel)
  rw [List.all_append, List.all_cons, all_of_imp key h.all_digit, all_of_imp key hu]
  rfl

theorem WholeDecimal.count_point {t u : Bytes} (h : WholeDecimal t) (hu : u.all digit) :
    (t ++ byte '.' :: u).count (byte '.') ≤ 1 := by
  have hno : ∀ v : Bytes, v.all digit → v.count (byte '.') = 0 := fun v hv =>
    List.count_eq_zero_of_not_mem (not_mem_of_all_digit hv)
  rw [List.count_append, List.count_cons_self, hno t h.all_digit, hno u hu]

theorem WholeDecimal.any_digit {t : Bytes} (h : WholeDecimal t) (u : Bytes) :
    (t ++ byte '.' :: u).any digit := by
  obtain ⟨b, v, rfl, hb⟩ := h.exists_cons
  simp [hb]

theorem WholeDecimal.decodesTo_point {t u : Bytes} (h : WholeDecimal t) (hu : u.all digit) :
    DecodesTo .float (t ++ byte '.' :: u) .outOfRange :=
  decodesTo_float (h.all_plain hu) (h.count_point hu) (h.any_digit u)

theorem decodesTo_octal {b : UInt8} {u : Bytes} (hb : octalDigit b) (hu : u.all octalDigit) :
    DecodesTo (.int .octal 0) (byte '0' :: b :: u) (numberError (byte '0' :: b :: u)) := by
  have key : ∀ b, octalDigit b → Word.isDigit 8 b := forall_byte (by decide +kernel)
  have hall : (byte '0' :: b :: u).all octalDigit := by
    rw [List.all_cons, List.all_cons, hb, hu]
    rfl
  rw [numberError_of_all rfl rfl hall]
  exact decodesTo_int (k := 0) rfl (Nat.zero_le _) (all_of_imp key hall)

/-- Behind a prefix of two bytes the digits may be missing. -/
theorem decodesTo_prefixed {radix : Radix} {base : Nat} {p : UInt8 → Bool} {x : UInt8} {u : Bytes}
    (hr : radix.base? = some base) (hp : ∀ b, p b → Word.isDigit base b) (hu : u.all p)
    (hx : x = byte 'b' ∨ x = byte 'x') :
    DecodesTo (.int radix 2) (byte '0' :: x :: u) (numberError (byte '0' :: x :: u)) := by
  have he : numberError (byte '0' :: x :: u) = if u = [] then .malformed else .outOfRange := by
    unfold numberError
    rw [show ascii "0b" = [byte '0', byte 'b'] from rfl,
      show ascii "0x" = [byte '0', byte 'x'] from rfl]
    have hne : byte 'b' ≠ byte 'x' := by decide
    rcases hx with rfl | rfl
    · simp [hne]
    · simp [hne.symm]
  rw [he]
  exact decodesTo_int (k := 2) hr (by simp) (all_of_imp hp hu)

theorem Spells.decode_str {o : Options} {t : Bytes} (h : Spells o .str t) :
    Literal.str.decode t = .ok (.string (Literal.stringBody (t.drop 1)), none) := by
  have hpos := List.length_pos_iff.2 h.ne_nil
  have hin : ¬ ((1 : Int) < 0 ∨ (t.length : Int) < 1) := by omega
  exact if_neg hin

theorem Spells.numberError_float {o : Options} {t : Bytes} (h : Spells o .float t) :
    numberError t = .outOfRange := by
  cases h with
  | float hd hu => exact numberError_of_all rfl rfl (hd.all_plain hu)

/-- Each number of the grammar has a value or is rejected for the reason that its text shows. -/
theorem Spells.decodesTo {o : Options} {f : Form} {t : Bytes} (h : Spells o f t)
    (hf : f.opening = .number) : DecodesTo f.literal t (numberError t) := by
  cases h with
  | decimal hd => exact hd.decodesTo
  | float hd hu =>
    rw [(Spells.float (o := o) hd hu).numberError_float]
    exact hd.decodesTo_point hu
  | octal hb hu => exact decodesTo_octal hb hu
  | binary hu => exact decodesTo_prefixed rfl (forall_byte (by decide +kernel)) hu (.inl rfl)
  | hexadecimal hu => exact decodesTo_prefixed rfl (forall_byte (by decide +kernel)) hu (.inr rfl)
  | _ => cases hf

end Grammar
end Lexis
