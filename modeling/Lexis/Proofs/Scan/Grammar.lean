import Lexis.Scan.Lexeme
import Lexis.Proofs.Text.Encoding

/-!
# The lexical grammar

The forms of lexemes as languages of byte strings. Nothing here mentions a cursor or a lookahead:
`Spells o f t` says that the whole text `t` is a lexeme of the form `f`. `LongestSpelling` is
maximal munch over all forms at once.

* `Spells.opening_eq`: the first byte of a text tells what kind of form it can have.
* `Spells.form_unique`: a text has at most one form, so a longest spelling has one too.
-/
namespace Lexis
namespace Grammar

/-! ## Classes of bytes -/

def between (lo hi : Char) (b : UInt8) : Bool := byte lo ≤ b && b ≤ byte hi

def blank (b : UInt8) : Bool := b = byte ' ' || b = byte '\t' || b = byte '\r' || b = byte '\n'

def letter (b : UInt8) : Bool := between 'a' 'z' b || between 'A' 'Z' b

def wordStart (b : UInt8) : Bool := letter b || b = byte '_'

def digit : UInt8 → Bool := between '0' '9'

def binaryDigit : UInt8 → Bool := between '0' '1'

def octalDigit : UInt8 → Bool := between '0' '7'

def hexDigit (b : UInt8) : Bool := digit b || between 'a' 'f' b || between 'A' 'F' b

def wordPart (o : Options) (b : UInt8) : Bool := wordStart b || (o.identDigits && digit b)

/-- The marks: operators and punctuation, each with its only spelling. -/
def marks (o : Options) : List (Bytes × Kind) :=
  [([byte '('], .leftParen), ([byte ')'], .rightParen),
   ([byte '\x7b'], .leftBrace), ([byte '\x7d'], .rightBrace),
   ([byte '['], .leftBracket), ([byte ']'], .rightBracket),
   ([byte ','], .comma), ([byte '.'], .dot), ([byte ';'], .semiColon), ([byte '#'], .pound),
   ([byte '*'], .star), ([byte '&'], .and), ([byte '|'], .or), ([byte '^'], .caret),
   ([byte '~'], .tilde), ([byte '/'], .slash),
   ([byte '+'], .plus), ([byte '+', byte '+'], .plusPlus),
   ([byte '-'], .minus), ([byte '-', byte '-'], .minusMinus), ([byte '-', byte '>'], .arrow),
   ([byte '!'], .bang), ([byte '!', byte '='], .bangEqual),
   ([byte '='], .equal), ([byte '=', byte '='], .equalEqual),
   ([byte '<'], .lt), ([byte '<', byte '='], .ltEqual),
   ([byte '>'], .gt), ([byte '>', byte '='], .gtEqual)]
  ++ if o.colonPercent then [([byte ':'], .colon), ([byte '%'], .percent)] else []

/-- Whether a mark starts with the byte. -/
def markStart (o : Options) (b : UInt8) : Bool := (marks o).any fun m => m.1.head? = some b

/-- Whether a known form starts with the byte. -/
def lead (o : Options) (b : UInt8) : Bool :=
  blank b || wordStart b || digit b || b = byte '"' || markStart o b

/-- The closing mark of a block comment. -/
def commentClose : Bytes := [byte '*', byte '/']

/-! ## Forms -/

/-- The forms of lexemes. -/
inductive Form where
  | whitespace
  | ident
  | decimal | float | octal | binary | hexadecimal
  | str
  | lineComment | blockComment
  | header
  | mark (kind : Kind)
  | unknown
  deriving DecidableEq, Repr

namespace Form

def kind : Form → Kind
  | whitespace => .whitespace
  | ident => .ident
  | decimal | float | octal | binary | hexadecimal | str => .literal
  | lineComment => .lineComment
  | blockComment => .blockComment
  | header => .header
  | mark kind => kind
  | unknown => .unknown

/-- The class, the radix and the prefix of a literal; empty for the other forms. -/
def literal : Form → Literal
  | decimal => .int .decimal 0
  | float => .float
  | octal => .int .octal 0
  | binary => .int .binary 2
  | hexadecimal => .int .hexadecimal 2
  | str => .str
  | _ => .empty

end Form

/-- A whole number in decimal: no zero stands before a digit below eight. -/
inductive WholeDecimal : Bytes → Prop where
  | zero : WholeDecimal [byte '0']
  | nonzero {b : UInt8} {u : Bytes} : between '1' '9' b → u.all digit → WholeDecimal (b :: u)
  | padded {b : UInt8} {u : Bytes} : between '8' '9' b → u.all digit →
      WholeDecimal (byte '0' :: b :: u)

/-- The text is a lexeme of the form. -/
inductive Spells (o : Options) : Form → Bytes → Prop where
  | whitespace {b : UInt8} {u : Bytes} : o.emitWhitespace → blank b → u.all blank →
      Spells o .whitespace (b :: u)
  | ident {b : UInt8} {u : Bytes} : wordStart b → u.all (wordPart o) → Spells o .ident (b :: u)
  | decimal {t : Bytes} : WholeDecimal t → Spells o .decimal t
  | float {t u : Bytes} : WholeDecimal t → u.all digit → Spells o .float (t ++ byte '.' :: u)
  | octal {b : UInt8} {u : Bytes} : octalDigit b → u.all octalDigit →
      Spells o .octal (byte '0' :: b :: u)
  | binary {u : Bytes} : u.all binaryDigit → Spells o .binary (byte '0' :: byte 'b' :: u)
  | hexadecimal {u : Bytes} : u.all hexDigit → Spells o .hexadecimal (byte '0' :: byte 'x' :: u)
  | str {u : Bytes} : byte '"' ∉ u → Spells o .str (byte '"' :: u)
  | strClosed {u : Bytes} : byte '"' ∉ u → Spells o .str (byte '"' :: (u ++ [byte '"']))
  | lineComment {u : Bytes} : byte '\n' ∉ u → Spells o .lineComment (byte '/' :: byte '/' :: u)
  | blockComment {u : Bytes} : ¬ commentClose <:+: u →
      Spells o .blockComment (byte '/' :: byte '*' :: u)
  /-- The closing mark stands at the end and nowhere before. -/
  | blockCommentClosed {u : Bytes} : ¬ commentClose <:+: u ++ [byte '*'] →
      Spells o .blockComment (byte '/' :: byte '*' :: (u ++ commentClose))
  | header {b : UInt8} {u : Bytes} : letter b → byte '>' ∉ u →
      Spells o .header (byte '<' :: b :: u)
  | mark {t : Bytes} {k : Kind} : (t, k) ∈ marks o → Spells o (.mark k) t
  | unknownByte {b : UInt8} : lead o b = false → Spells o .unknown [b]
  | unknownChar {c : Char} : 0x80 ≤ c.toNat → Spells o .unknown (Utf8.encode c)

/-- Maximal munch: a lexeme at the front of `s` that is as long as any other there. -/
structure LongestSpelling (o : Options) (s : Bytes) (f : Form) (t : Bytes) : Prop where
  spells : Spells o f t
  isPrefix : t <+: s
  longest : ∀ f' u, Spells o f' u → u <+: s → u.length ≤ t.length

/-! ## First bytes -/

/-- A fact about all bytes is a fact about 256 numbers. -/
theorem forall_byte {P : UInt8 → Prop} (h : ∀ n : Fin 256, P (UInt8.ofNat n)) (b : UInt8) :
    P b := by
  have := h ⟨b.toNat, b.toNat_lt⟩
  rwa [UInt8.ofNat_toNat] at this

/-- How the classes lie to each other. -/
theorem classes_apart : ∀ b : UInt8,
    (wordStart b → blank b = false) ∧ (digit b → blank b = false ∧ wordStart b = false) ∧
      (between '1' '9' b → digit b) ∧
      (between '8' '9' b → digit b ∧ b ≠ byte 'b' ∧ b ≠ byte 'x' ∧ octalDigit b = false) ∧
      (octalDigit b → b ≠ byte 'b' ∧ b ≠ byte 'x') ∧
      (0x80 ≤ b.toNat → (blank b || wordStart b || digit b || b = byte '"') = false) ∧
      (digit b → octalDigit b = false → between '8' '9' b) ∧
      (digit b → b ≠ byte '0' → between '1' '9' b) :=
  forall_byte (by decide +kernel)

/-- What a first byte opens. -/
inductive Opening where
  | blank | word | number | quote | mark | other
  deriving DecidableEq, Repr

def opening (o : Options) (b : UInt8) : Opening :=
  if blank b then .blank
  else if wordStart b then .word
  else if digit b then .number
  else if b = byte '"' then .quote
  else if markStart o b then .mark
  else .other

/-- What the lexemes of a form start with. Comments and headers start like marks. -/
def Form.opening : Form → Opening
  | whitespace => .blank
  | ident => .word
  | decimal | float | octal | binary | hexadecimal => .number
  | str => .quote
  | lineComment | blockComment | header | mark _ => .mark
  | unknown => .other

theorem opening_of_blank {o : Options} {b : UInt8} (h : blank b) : opening o b = .blank := if_pos h

theorem opening_of_wordStart {o : Options} {b : UInt8} (h : wordStart b) :
    opening o b = .word := by
  have key := (classes_apart b).1
  unfold opening
  rw [key h, if_neg Bool.false_ne_true, if_pos h]

theorem opening_of_digit {o : Options} {b : UInt8} (h : digit b) : opening o b = .number := by
  obtain ⟨hblank, hword⟩ := (classes_apart b).2.1 h
  unfold opening
  rw [hblank, hword, if_neg Bool.false_ne_true, if_neg Bool.false_ne_true, if_pos h]

theorem opening_quote (o : Options) : opening o (byte '"') = .quote := rfl

theorem opening_of_mem_marks {o : Options} {b : UInt8} {u : Bytes} {k : Kind}
    (h : (b :: u, k) ∈ marks o) : opening o b = .mark := by
  -- Of the options only the one for the colon and the percent sign counts here.
  have key : ∀ c, ∀ m ∈ marks { colonPercent := c },
      opening { colonPercent := c } (m.1.headD 0) = .mark := by decide
  exact key o.colonPercent _ h

theorem opening_of_not_lead {o : Options} {b : UInt8} (h : lead o b = false) :
    opening o b = .other := by
  unfold lead at h
  simp only [Bool.or_eq_false_iff, decide_eq_false_iff_not] at h
  obtain ⟨⟨⟨⟨h1, h2⟩, h3⟩, h4⟩, h5⟩ := h
  unfold opening
  rw [h1, h2, h3, h5, if_neg h4]
  rfl

theorem exists_mem_marks {o : Options} {b : UInt8} (h : markStart o b) :
    ∃ u k, (b :: u, k) ∈ marks o := by
  obtain ⟨⟨t, k⟩, hm, hb⟩ := List.any_eq_true.1 h
  obtain ⟨u, rfl⟩ := List.head?_eq_some_iff.1 (of_decide_eq_true hb)
  exact ⟨u, k, hm⟩

theorem lead_of_high {o : Options} {b : UInt8} (h : 0x80 ≤ b.toNat) : lead o b = false := by
  have low := (classes_apart b).2.2.2.2.2.1 h
  have hm : markStart o b = false := by
    rw [Bool.eq_false_iff]
    intro hm
    obtain ⟨u, k, hm⟩ := exists_mem_marks hm
    have key : ∀ c, ∀ m ∈ marks { colonPercent := c }, (m.1.headD 0).toNat < 0x80 := by
      decide
    exact absurd (key o.colonPercent _ hm) (Nat.not_lt.2 h)
  unfold lead
  rw [low, hm]
  rfl

theorem WholeDecimal.all_digit {t : Bytes} (h : WholeDecimal t) : t.all digit := by
  have low : ∀ b, between '1' '9' b → digit b := fun b => (classes_apart b).2.2.1
  have high : ∀ b, between '8' '9' b → digit b := fun b h => ((classes_apart b).2.2.2.1 h).1
  cases h with
  | zero => rfl
  | nonzero hb hu => rw [List.all_cons, low _ hb, hu]; rfl
  | padded hb hu => rw [List.all_cons, List.all_cons, high _ hb, hu]; rfl

theorem WholeDecimal.exists_cons {t : Bytes} (h : WholeDecimal t) :
    ∃ b u, t = b :: u ∧ digit b := by
  have hd := h.all_digit
  cases h with
  | zero => exact ⟨_, _, rfl, rfl⟩
  | nonzero | padded =>
    rw [List.all_cons, Bool.and_eq_true] at hd
    exact ⟨_, _, rfl, hd.1⟩

/-- The first byte of a lexeme opens its form. -/
theorem Spells.opening_eq {o : Options} {f : Form} {b : UInt8} {u : Bytes}
    (h : Spells o f (b :: u)) : opening o b = f.opening := by
  generalize hs : b :: u = s at h
  cases h with
  | whitespace _ hb _ =>
    obtain ⟨rfl, -⟩ := List.cons.inj hs
    exact opening_of_blank hb
  | ident hb _ =>
    obtain ⟨rfl, -⟩ := List.cons.inj hs
    exact opening_of_wordStart hb
  | decimal hd =>
    obtain ⟨x, v, rfl, hx⟩ := hd.exists_cons
    obtain ⟨rfl, -⟩ := List.cons.inj hs
    exact opening_of_digit hx
  | float hd _ =>
    obtain ⟨x, v, rfl, hx⟩ := hd.exists_cons
    obtain ⟨rfl, -⟩ := List.cons.inj hs
    exact opening_of_digit hx
  | octal | binary | hexadecimal =>
    obtain ⟨rfl, -⟩ := List.cons.inj hs
    exact opening_of_digit rfl
  | str | strClosed =>
    obtain ⟨rfl, -⟩ := List.cons.inj hs
    exact opening_quote o
  | lineComment | blockComment | blockCommentClosed | header =>
    obtain ⟨rfl, -⟩ := List.cons.inj hs
    rfl
  | mark hm =>
    subst hs
    exact opening_of_mem_marks hm
  | unknownByte hb =>
    obtain ⟨rfl, -⟩ := List.cons.inj hs
    exact opening_of_not_lead hb
  | unknownChar hc =>
    have hb := Utf8.high_bytes_encode hc b (by rw [← hs]; exact List.mem_cons_self)
    exact opening_of_not_lead (lead_of_high hb)

/-! ## A text has one form -/

/-- The form of a number, by its second byte and its point. -/
def numberForm (b : UInt8) : Bytes → Form
  | [] => .decimal
  | x :: u =>
    if b = byte '0' ∧ x = byte 'b' then .binary
    else if b = byte '0' ∧ x = byte 'x' then .hexadecimal
    else if b = byte '0' ∧ octalDigit x then .octal
    else if byte '.' ∈ x :: u then .float
    else .decimal

/-- The form of a text that starts like a mark. -/
def markForm (o : Options) (b : UInt8) (u : Bytes) : Form :=
  if b = byte '/' ∧ u.head? = some (byte '/') then .lineComment
  else if b = byte '/' ∧ u.head? = some (byte '*') then .blockComment
  else if b = byte '<' ∧ u.head?.any letter then .header
  else .mark (((marks o).lookup (b :: u)).getD .unknown)

/-- The only form that a text can have. -/
def formOf (o : Options) : Bytes → Form
  | [] => .unknown
  | b :: u =>
    match opening o b with
    | .blank => .whitespace
    | .word => .ident
    | .number => numberForm b u
    | .quote => .str
    | .mark => markForm o b u
    | .other => .unknown

theorem not_mem_of_all_digit {u : Bytes} (h : u.all digit) : byte '.' ∉ u := by
  intro hm
  exact absurd (List.all_eq_true.1 h _ hm) (by decide)

theorem WholeDecimal.numberForm_append {b : UInt8} {u w : Bytes} (h : WholeDecimal (b :: u))
    (hw : w = [] ∨ ∃ v, w = byte '.' :: v) :
    numberForm b (u ++ w) = if byte '.' ∈ w then .float else .decimal := by
  have hu : byte '.' ∉ u := fun hm => not_mem_of_all_digit h.all_digit (List.mem_cons_of_mem b hm)
  cases h with
  | zero =>
    rcases hw with rfl | ⟨v, rfl⟩
    · rfl
    · simp [numberForm, show octalDigit (byte '.') = false from rfl,
        show byte '.' ≠ byte 'b' by decide, show byte '.' ≠ byte 'x' by decide]
  | nonzero hb _ =>
    have hz : b ≠ byte '0' := by
      rintro rfl
      exact absurd hb (by decide)
    cases hs : u ++ w with
    | nil => simp [numberForm, (List.append_eq_nil_iff.1 hs).2]
    | cons x s =>
      have hm : byte '.' ∈ x :: s ↔ byte '.' ∈ w := by rw [← hs, List.mem_append, or_iff_right hu]
      simp only [numberForm, hz, hm, false_and, if_false]
  | @padded x u hx _ =>
    have key : ∀ x, between '8' '9' x → x ≠ byte 'b' ∧ x ≠ byte 'x' ∧ octalDigit x = false :=
      fun x h => ((classes_apart x).2.2.2.1 h).2
    obtain ⟨h1, h2, h3⟩ := key x hx
    have hm : byte '.' ∈ x :: (u ++ w) ↔ byte '.' ∈ w := by
      rw [← List.cons_append, List.mem_append, or_iff_right hu]
    simp only [List.cons_append, numberForm, h1, h2, h3, hm, and_false, if_false,
      Bool.false_eq_true]

theorem formOf_octal (o : Options) {x : UInt8} (hx : octalDigit x) (u : Bytes) :
    formOf o (byte '0' :: x :: u) = .octal := by
  have key : ∀ x, octalDigit x → x ≠ byte 'b' ∧ x ≠ byte 'x' :=
    fun x => (classes_apart x).2.2.2.2.1
  rw [formOf, opening_of_digit rfl]
  simp [numberForm, key x hx, hx]

theorem formOf_header (o : Options) {x : UInt8} (hx : letter x) (u : Bytes) :
    formOf o (byte '<' :: x :: u) = .header := by
  rw [formOf, show opening o (byte '<') = .mark from rfl]
  simp [markForm, hx, show byte '<' ≠ byte '/' by decide]

theorem markForm_of_mem {o : Options} {b : UInt8} {u : Bytes} {k : Kind}
    (h : (b :: u, k) ∈ marks o) : markForm o b u = .mark k := by
  have key : ∀ c, ∀ m ∈ marks { colonPercent := c },
      markForm { colonPercent := c } (m.1.headD 0) m.1.tail = .mark m.2 := by decide
  exact key o.colonPercent _ h

theorem Spells.ne_nil {o : Options} {f : Form} {t : Bytes} (h : Spells o f t) : t ≠ [] := by
  cases h with
  | decimal hd =>
    obtain ⟨b, u, rfl, -⟩ := hd.exists_cons
    exact List.cons_ne_nil b u
  | float => simp
  | mark hm =>
    have key : ∀ c, ∀ m ∈ marks { colonPercent := c }, m.1 ≠ [] := by decide
    exact key o.colonPercent _ hm
  | unknownChar => exact String.utf8EncodeChar_ne_nil
  | _ => exact List.cons_ne_nil _ _

/-- The form is computed from the text alone. -/
theorem Spells.formOf_eq {o : Options} {f : Form} {t : Bytes} (h : Spells o f t) :
    formOf o t = f := by
  obtain ⟨b, u, rfl⟩ := List.exists_cons_of_ne_nil h.ne_nil
  have ho := h.opening_eq
  generalize hs : b :: u = s at h
  cases h with
  | octal hx _ => exact formOf_octal o hx _
  | header hx _ => exact formOf_header o hx _
  | binary | hexadecimal | lineComment | blockComment | blockCommentClosed => rfl
  | whitespace | ident | str | strClosed | unknownByte | unknownChar =>
    rw [← hs, formOf, ho]
    rfl
  | decimal hd =>
    subst hs
    rw [formOf, ho]
    simpa [Form.opening] using hd.numberForm_append (Or.inl rfl)
  | @float t v hd _ =>
    obtain ⟨x, w, rfl, -⟩ := hd.exists_cons
    obtain ⟨rfl, rfl⟩ := List.cons.inj hs
    rw [List.cons_append, formOf, ho]
    simpa [Form.opening] using hd.numberForm_append (Or.inr ⟨v, rfl⟩)
  | mark hm =>
    subst hs
    rw [formOf, ho]
    exact markForm_of_mem hm

/-- The forms are pairwise disjoint. -/
theorem Spells.form_unique {o : Options} {f f' : Form} {t : Bytes} (h : Spells o f t)
    (h' : Spells o f' t) : f = f' :=
  h.formOf_eq.symm.trans h'.formOf_eq

end Grammar
end Lexis
