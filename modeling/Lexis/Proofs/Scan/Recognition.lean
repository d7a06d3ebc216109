import Mathlib.Data.List.Infix
import Lexis.Proofs.Scan.Movement
import Lexis.Proofs.Scan.Munch

/-!
# Every lexeme scan finds the longest lexeme

Each part of `Lexeme.classify` is held against the grammar: from a cursor `c`, it stops behind the
longest lexeme there, with the kind and the literal of its form, and it says that a closing mark is
missing exactly when the lexeme has none (`Recognises`).

* `recognises_classify`: this for every first character.
-/
namespace Lexis

open Grammar Cursor

/-! ## The classes of the scan as classes of bytes -/

theorem toNat_lt_of_le {a b : Char} (h : a ≤ b) (hb : b.toNat < 0x80) : a.toNat < 0x80 :=
  Nat.lt_of_le_of_lt h hb

theorem uniform_isBlank : Uniform isBlank := by
  apply uniform_of_ascii
  intro ch h
  simp only [isBlank, Bool.or_eq_true, decide_eq_true_eq] at h
  rcases h with ((rfl | rfl) | rfl) | rfl <;> decide

theorem toNat_lt_of_isLetter {ch : Char} (h : isLetter ch) : ch.toNat < 0x80 := by
  simp only [isLetter, Bool.or_eq_true, Bool.and_eq_true, decide_eq_true_eq] at h
  rcases h with ⟨-, h⟩ | ⟨-, h⟩ <;> exact toNat_lt_of_le h (by decide)

theorem uniform_isLetter : Uniform isLetter := uniform_of_ascii fun _ => toNat_lt_of_isLetter

theorem toNat_lt_of_isIdentStart {ch : Char} (h : isIdentStart ch) : ch.toNat < 0x80 := by
  simp only [isIdentStart, Bool.or_eq_true, decide_eq_true_eq] at h
  rcases h with h | rfl
  · exact toNat_lt_of_isLetter h
  · decide

theorem toNat_lt_of_isDigit {r : Radix} {ch : Char} (h : r.isDigit ch) : ch.toNat < 0x80 := by
  cases r with
  | binary =>
    simp only [Radix.isDigit, Bool.or_eq_true, decide_eq_true_eq] at h
    rcases h with rfl | rfl <;> decide
  | octal | decimal =>
    simp only [Radix.isDigit, Bool.and_eq_true, decide_eq_true_eq] at h
    exact toNat_lt_of_le h.2 (by decide)
  | hexadecimal =>
    simp only [Radix.isDigit, Bool.or_eq_true, Bool.and_eq_true, decide_eq_true_eq] at h
    rcases h with (⟨-, h⟩ | ⟨-, h⟩) | ⟨-, h⟩ <;> exact toNat_lt_of_le h (by decide)
  | numbered => cases h

theorem uniform_isDigit (r : Radix) : Uniform r.isDigit :=
  uniform_of_ascii fun _ => toNat_lt_of_isDigit

theorem uniform_isIdentPart (o : Options) : Uniform o.isIdentPart := by
  apply uniform_of_ascii
  intro ch h
  simp only [Options.isIdentPart, Bool.or_eq_true, Bool.and_eq_true] at h
  rcases h with h | ⟨-, h⟩
  · exact toNat_lt_of_isIdentStart h
  · exact toNat_lt_of_isDigit h

/-- The classes of characters are those of their bytes. -/
theorem onByte_classes : ∀ b : UInt8,
    onByte isBlank b = blank b ∧ onByte isLetter b = letter b ∧
      onByte isIdentStart b = wordStart b ∧ onByte Radix.decimal.isDigit b = digit b ∧
      onByte Radix.binary.isDigit b = binaryDigit b ∧ onByte Radix.octal.isDigit b = octalDigit b ∧
      onByte Radix.hexadecimal.isDigit b = hexDigit b :=
  forall_byte (by decide +kernel)

theorem onByte_isBlank : onByte isBlank = blank := funext fun b => (onByte_classes b).1

theorem onByte_isLetter : onByte isLetter = letter := funext fun b => (onByte_classes b).2.1

theorem onByte_isIdentStart : onByte isIdentStart = wordStart :=
  funext fun b => (onByte_classes b).2.2.1

theorem onByte_decimal : onByte Radix.decimal.isDigit = digit :=
  funext fun b => (onByte_classes b).2.2.2.1

theorem onByte_binary : onByte Radix.binary.isDigit = binaryDigit :=
  funext fun b => (onByte_classes b).2.2.2.2.1

theorem onByte_octal : onByte Radix.octal.isDigit = octalDigit :=
  funext fun b => (onByte_classes b).2.2.2.2.2.1

theorem onByte_hexadecimal : onByte Radix.hexadecimal.isDigit = hexDigit :=
  funext fun b => (onByte_classes b).2.2.2.2.2.2

theorem onByte_isIdentPart (o : Options) : onByte o.isIdentPart = wordPart o := by
  funext b
  have hw := congrFun onByte_isIdentStart b
  have hd := congrFun onByte_decimal b
  unfold onByte at hw hd ⊢
  rw [Options.isIdentPart, wordPart, hw, hd]

/-! ## Recognising -/

/-- The tag of the closing mark that a lexeme of the form lacks, where `rest` follows it. -/
def Grammar.Form.missing (f : Form) (t rest : Bytes) : Option Tag :=
  match f with
  | .blockComment =>
    if commentClose <:+: t.drop 2 then none else some .unterminatedBlockComment
  | .str => if byte '"' ∈ t.drop 1 then none else some .unterminatedString
  | .header => if rest = [] then some .unterminatedHeader else none
  | _ => none

/-- The lexeme `x` is the longest one at `c`: the text `t` of the form `f`. -/
structure Recognises (o : Options) (c : Cursor) (x : Lexeme) (f : Form) (t : Bytes) : Prop where
  longest : LongestSpelling o c.rest f t
  reads : c.Reads t x.stop
  kind : x.kind = f.kind
  literal : x.literal = f.literal
  missing : x.missing = f.missing t x.stop.rest

/-- The lexeme goes on from `c` after its first bytes `p`. -/
theorem Recognises.of_reads {o : Options} {c₀ c : Cursor} {x : Lexeme} {f : Form} {p t : Bytes}
    (h : c₀.Reads p c) (hr : c.Reads t x.stop) (hl : LongestSpelling o (p ++ c.rest) f (p ++ t))
    (hk : x.kind = f.kind) (hx : x.literal = f.literal)
    (hm : x.missing = f.missing (p ++ t) x.stop.rest) : Recognises o c₀ x f (p ++ t) :=
  ⟨h.rest ▸ hl, h.trans hr, hk, hx, hm⟩

namespace Lexeme

variable {o : Options} {c₀ c : Cursor}

theorem recognises_ident {b : UInt8} (h : c₀.Reads [b] c) (hb : wordStart b) :
    ∃ f t, Recognises o c₀ { kind := .ident, stop := c.advanceWhile o.isIdentPart } f t := by
  have hr := reads_advanceWhile (uniform_isIdentPart o) c
  rw [onByte_isIdentPart] at hr
  exact ⟨.ident, _, .of_reads h hr (longest_ident hb c.rest) rfl rfl rfl⟩

/-! ### Numbers -/

theorem recognises_binary (h : c₀.Reads [byte '0', byte 'b'] c) :
    ∃ f t, Recognises o c₀ (number .binary c) f t := by
  have hr := reads_advanceWhile (uniform_isDigit .binary) c
  rw [onByte_binary] at hr
  exact ⟨.binary, _, .of_reads h hr (longest_binary c.rest) rfl rfl rfl⟩

theorem recognises_hexadecimal (h : c₀.Reads [byte '0', byte 'x'] c) :
    ∃ f t, Recognises o c₀ (number .hexadecimal c) f t := by
  have hr := reads_advanceWhile (uniform_isDigit .hexadecimal) c
  rw [onByte_hexadecimal] at hr
  exact ⟨.hexadecimal, _, .of_reads h hr (longest_hexadecimal c.rest) rfl rfl rfl⟩

theorem recognises_octal {x : UInt8} {s : Bytes} (h : c₀.Reads [byte '0'] c) (hc : c.rest = x :: s)
    (hx : octalDigit x) : ∃ f t, Recognises o c₀ (number .octal c) f t := by
  have hr := reads_advanceWhile (uniform_isDigit .octal) c
  have hl := longest_octal hx s (o := o)
  rw [onByte_octal] at hr
  rw [← List.takeWhile_cons_of_pos hx, ← hc] at hl
  exact ⟨.octal, _, .of_reads h hr hl rfl rfl rfl⟩

theorem recognises_decimal {b : UInt8} (h : c₀.Reads [b] c) (hd : DecimalLead b c.rest) :
    ∃ f t, Recognises o c₀ (number .decimal c) f t := by
  have hr := reads_advanceWhile (uniform_isDigit .decimal) c
  have hrest := rest_advanceWhile (uniform_isDigit .decimal) c
  rw [onByte_decimal] at hr hrest
  have hdot : (c.advanceWhile Radix.decimal.isDigit).peek = some '.' ↔ _ :=
    peek_eq_some_iff (by decide)
  simp only [number]
  split
  · next hp =>
    -- The point, then the digits behind it.
    obtain ⟨s, hs⟩ := List.head?_eq_some_iff.1 (hdot.1 hp)
    have ha := reads_advance_ascii hp (by decide)
    have hf := reads_advanceWhile (uniform_isDigit .decimal)
      (c.advanceWhile Radix.decimal.isDigit).advance
    have hs' : (c.advanceWhile Radix.decimal.isDigit).advance.rest = s := by
      have := ha.rest
      rw [hs] at this
      exact (List.cons.inj this).2.symm
    rw [onByte_decimal, hs'] at hf
    exact ⟨.float, _, .of_reads h (hr.trans (ha.trans hf)) (longest_float hd (hrest ▸ hs)) rfl rfl
      rfl⟩
  · next hp =>
    have hno : (c.rest.dropWhile digit).head? ≠ some (byte '.') := by
      rw [← hrest]
      exact fun hh => hp (hdot.2 hh)
    exact ⟨.decimal, _, .of_reads h hr (longest_decimal hd hno) rfl rfl rfl⟩

theorem recognises_zeroNumber (h : c₀.Reads [byte '0'] c) :
    ∃ f t, Recognises o c₀ (zeroNumber c) f t := by
  unfold zeroNumber
  split
  · next hp => exact recognises_binary (h.trans (reads_advance_ascii hp (by decide)))
  · next hp => exact recognises_hexadecimal (h.trans (reads_advance_ascii hp (by decide)))
  · next d hb hx hp =>
    obtain ⟨x, s, hs, -⟩ := exists_rest_of_peek hp
    have hd := any_peek (uniform_isDigit .octal) c
    rw [hp, hs, onByte_octal, List.head?_cons, Option.any_some, Option.any_some] at hd
    split
    · next ho => exact recognises_octal h hs (hd ▸ ho)
    · next ho =>
      refine recognises_decimal h ⟨rfl, fun _ y hy => ?_⟩
      rw [hs, List.head?_cons, Option.some.injEq] at hy
      subst hy
      refine ⟨by rw [← hd]; exact Bool.eq_false_iff.2 ho, ?_, ?_⟩
      · rintro rfl
        have hp' : c.peek = some 'b' := (peek_eq_some_iff (by decide)).2 (by rw [hs]; rfl)
        exact hb (Option.some.inj (hp.symm.trans hp'))
      · rintro rfl
        have hp' : c.peek = some 'x' := (peek_eq_some_iff (by decide)).2 (by rw [hs]; rfl)
        exact hx (Option.some.inj (hp.symm.trans hp'))
  · next hp =>
    refine recognises_decimal h ⟨rfl, fun _ y hy => ?_⟩
    rw [peek_eq_none_iff.1 hp] at hy
    cases hy

/-! ### Strings, comments and headers -/

/-- Up to a byte: it does not occur, or it stands where the run ends. -/
theorem dropWhile_ne_cases (x : UInt8) (s : Bytes) :
    (x ∉ s ∧ s.takeWhile (fun b => decide (b ≠ x)) = s ∧
        s.dropWhile (fun b => decide (b ≠ x)) = []) ∨
      ∃ r, s.dropWhile (fun b => decide (b ≠ x)) = x :: r := by
  induction s with
  | nil => exact Or.inl ⟨List.not_mem_nil, rfl, rfl⟩
  | cons y s ih =>
    by_cases hy : y = x
    · exact Or.inr ⟨s, by simp [hy]⟩
    · rw [List.dropWhile_cons_of_pos (by simpa using hy),
        List.takeWhile_cons_of_pos (by simpa using hy)]
      rcases ih with ⟨hx, ht, hd⟩ | ⟨r, hr⟩
      · exact Or.inl ⟨by simp [hx, Ne.symm hy], by rw [ht], hd⟩
      · exact Or.inr ⟨r, hr⟩

/-- A run up to an ASCII character, in bytes. -/
theorem reads_advanceWhile_ne {x : Char} (hx : x.toNat < 0x80) (c : Cursor) :
    c.Reads (c.rest.takeWhile fun b => decide (b ≠ byte x)) (c.advanceWhile (· ≠ x)) ∧
      (c.advanceWhile (· ≠ x)).rest = c.rest.dropWhile fun b => decide (b ≠ byte x) := by
  have h := reads_advanceWhile (uniform_ne hx) c
  have h' := rest_advanceWhile (uniform_ne hx) c
  rw [funext (onByte_ne hx)] at h h'
  exact ⟨h, h'⟩

theorem atEnd_iff {c : Cursor} : c.atEnd ↔ c.rest = [] := List.isEmpty_iff

theorem recognises_string (h : c₀.Reads [byte '"'] c) : ∃ f t, Recognises o c₀ (string c) f t := by
  obtain ⟨hr, hrest⟩ := reads_advanceWhile_ne (x := '"') (by decide) c
  unfold string
  dsimp only
  rcases dropWhile_ne_cases (byte '"') c.rest with ⟨hq, ht, hd⟩ | ⟨r, hd⟩
  · rw [if_pos (atEnd_iff.2 (hrest.trans hd))]
    rw [ht] at hr
    refine ⟨.str, _, .of_reads h hr (.whole (.str hq)) rfl rfl ?_⟩
    simp [Form.missing, hq]
  · rw [hd] at hrest
    have hp : (c.advanceWhile (· ≠ '"')).peek = some '"' :=
      (peek_eq_some_iff (by decide)).2 (by rw [hrest]; rfl)
    have ha := reads_advance_ascii hp (by decide)
    rw [if_neg (by rw [atEnd_iff, hrest]; exact List.cons_ne_nil _ _)]
    have hl := longest_strClosed (not_mem_takeWhile_ne (byte '"') c.rest) r (o := o)
    rw [← hd, List.takeWhile_append_dropWhile] at hl
    refine ⟨.str, _, .of_reads h (hr.trans ha) hl rfl rfl ?_⟩
    simp [Form.missing]

theorem recognises_header {x : UInt8} {s : Bytes} (h : c₀.Reads [byte '<'] c)
    (hc : c.rest = x :: s) (hx : letter x) : ∃ f t, Recognises o c₀ (header c) f t := by
  have key : ∀ x, letter x → x ≠ byte '>' := by
    rintro x hx rfl
    exact absurd hx (by decide)
  obtain ⟨hr, hrest⟩ := reads_advanceWhile_ne (x := '>') (by decide) c
  have hl := longest_header hx s (o := o)
  rw [← List.takeWhile_cons_of_pos (p := fun b => decide (b ≠ byte '>')) (by simpa using key x hx),
    ← hc] at hl
  refine ⟨.header, _, .of_reads h hr hl rfl rfl ?_⟩
  simp [header, Form.missing, atEnd_iff]

theorem close_infix_of_append {bs w : Bytes} (hb : ∀ x ∈ bs, x ≠ byte '*')
    (h : commentClose <:+: bs ++ w) : commentClose <:+: w := by
  induction bs with
  | nil => exact h
  | cons x bs ih =>
    rcases List.infix_cons_iff.1 h with h | h
    · exact absurd (List.cons_prefix_cons.1 h).1.symm (hb x List.mem_cons_self)
    · exact ih (fun y hy => hb y (List.mem_cons_of_mem x hy)) h

/-- No closing mark starts in a unit unless it is a `*` before a `/`. -/
theorem not_close_infix_unit {b : UInt8} {rest w : Bytes} (hc : c.rest = b :: rest)
    (hn : ¬ ((Utf8.decode b rest).toChar = '*' ∧ c.advance.peek = some '/'))
    (hw : w <+: c.advance.rest) (hnw : ¬ commentClose <:+: w) :
    ¬ commentClose <:+: (Utf8.decode b rest).bytes ++ w := by
  intro h
  by_cases hstar : (Utf8.decode b rest).toChar = '*'
  · have hp : c.peek = some '*' := by rw [peek_of_rest hc, hstar]
    have hbytes : (Utf8.decode b rest).bytes = [byte '*'] :=
      (reads_advance hc).textTo_eq.symm.trans (reads_advance_ascii hp (by decide)).textTo_eq
    rw [hbytes] at h
    rcases List.infix_cons_iff.1 h with h | h
    · obtain ⟨r, rfl⟩ := (List.cons_prefix_cons.1 h).2
      obtain ⟨r', hr'⟩ := hw
      exact hn ⟨hstar, (peek_eq_some_iff (by decide)).2 (by rw [← hr']; rfl)⟩
    · exact hnw h
  · have hu := (uniform_ne (x := '*') (by decide)).onByte_bytes b rest
    refine hnw (close_infix_of_append (fun x hx => ?_) h)
    have := hu x hx
    rw [onByte_ne (by decide), decide_eq_true hstar] at this
    exact of_decide_eq_true this

/-- The text up to and with the first closing mark, or all of it. -/
theorem closeComment_cases (c : Cursor) :
    (∃ u, c.Reads (u ++ commentClose) (closeComment c).1 ∧ (closeComment c).2 = true ∧
      ¬ commentClose <:+: u ++ [byte '*']) ∨
    (c.Reads c.rest (closeComment c).1 ∧ (closeComment c).2 = false ∧
      ¬ commentClose <:+: c.rest) := by
  fun_induction closeComment c with
  | case1 c stop hread =>
    obtain ⟨hp, rfl⟩ := read_eq_iff.1 hread
    rw [peek_eq_none_iff.1 hp, advance_of_end (peek_eq_none_iff.1 hp)]
    exact Or.inr ⟨Reads.refl c, rfl, by decide⟩
  | case2 c ch d hread hch =>
    obtain ⟨hp, rfl⟩ := read_eq_iff.1 hread
    obtain ⟨rfl, hnext⟩ := hch
    refine Or.inl ⟨[], ?_, rfl, by decide⟩
    exact (reads_advance_ascii hp (by decide)).trans (reads_advance_ascii hnext (by decide))
  | case3 c ch d hread hch ih =>
    obtain ⟨hp, rfl⟩ := read_eq_iff.1 hread
    obtain ⟨b, rest, hr, rfl⟩ := exists_rest_of_peek hp
    have ha := reads_advance hr
    rcases ih with ⟨u, hu, hclosed, hn⟩ | ⟨hu, hclosed, hn⟩
    · refine Or.inl ⟨(Utf8.decode b rest).bytes ++ u, ?_, hclosed, ?_⟩
      · rw [List.append_assoc]
        exact ha.trans hu
      · rw [List.append_assoc]
        refine not_close_infix_unit hr hch ?_ hn
        refine List.IsPrefix.trans ?_ hu.isPrefix
        exact (List.prefix_append_right_inj u).2 (List.cons_prefix_cons.2 ⟨rfl, List.nil_prefix⟩)
    · refine Or.inr ⟨?_, hclosed, ?_⟩
      · rw [ha.rest]
        exact ha.trans hu
      · rw [ha.rest]
        exact not_close_infix_unit hr hch (List.prefix_refl _) hn

theorem recognises_blockComment (h : c₀.Reads [byte '/', byte '*'] c) :
    ∃ f t, Recognises o c₀ (blockComment c) f t := by
  have hb : blockComment c = { kind := .blockComment, stop := (closeComment c).1, missing :=
    if (closeComment c).2 then none else some .unterminatedBlockComment } := rfl
  rw [hb]
  rcases closeComment_cases c with ⟨u, hu, hclosed, hn⟩ | ⟨hu, hclosed, hn⟩
  · have hl := longest_blockCommentClosed hn (closeComment c).1.rest (o := o)
    rw [← hu.rest] at hl
    refine ⟨.blockComment, _, .of_reads h hu hl rfl rfl ?_⟩
    simp [Form.missing, hclosed, (List.suffix_append u commentClose).isInfix]
  · refine ⟨.blockComment, _, .of_reads h hu (.whole (.blockComment hn)) rfl rfl ?_⟩
    simp [Form.missing, hclosed, hn]

/-! ### Marks -/

theorem recognises_mark_one {b : UInt8} {k : Kind} (h : c₀.Reads [b] c) (hm : ([b], k) ∈ marks o)
    (hn : ∀ x, c.rest.head? = some x → ¬ Pairs b x) :
    ∃ f t, Recognises o c₀ { kind := k, stop := c } f t :=
  ⟨.mark k, _, .of_reads h (Reads.refl c) (longest_mark_one hm hn) rfl rfl rfl⟩

theorem recognises_mark_two {b : UInt8} {second : Char} {k : Kind} (h : c₀.Reads [b] c)
    (hp : c.peek = some second) (hs : second.toNat < 0x80) (hm : ([b, byte second], k) ∈ marks o) :
    ∃ f t, Recognises o c₀ { kind := k, stop := c.advance } f t := by
  have ha := reads_advance_ascii hp hs
  have hl := longest_mark_two hm c.advance.rest
  exact ⟨.mark k, _, .of_reads (h.trans ha) (Reads.refl c.advance) hl rfl rfl rfl⟩

theorem recognises_pair {b : UInt8} {second : Char} {long short : Kind} (h : c₀.Reads [b] c)
    (hs : second.toNat < 0x80) (hlong : ([b, byte second], long) ∈ marks o)
    (hshort : ([b], short) ∈ marks o)
    (honly : ∀ x, c.rest.head? = some x → Pairs b x → x = byte second) :
    ∃ f t, Recognises o c₀ (pair second long short c) f t := by
  unfold pair
  split
  · next hp => exact recognises_mark_two h hp hs hlong
  · next hp =>
    refine recognises_mark_one h hshort fun x hx hpair => hp ((peek_eq_some_iff hs).2 ?_)
    rw [hx, honly x hx hpair]

/-- A mark of one byte that could go on with either of two characters, and does not. -/
theorem recognises_mark_alone {b : UInt8} {x y : Char} {k : Kind} (h : c₀.Reads [b] c)
    (hm : ([b], k) ∈ marks o) (hx : x.toNat < 0x80) (hy : y.toNat < 0x80)
    (hnx : c.peek ≠ some x) (hny : c.peek ≠ some y)
    (honly : ∀ z, Pairs b z → z = byte x ∨ z = byte y) :
    ∃ f t, Recognises o c₀ { kind := k, stop := c } f t := by
  refine recognises_mark_one h hm fun z hz hpair => ?_
  rcases honly z hpair with rfl | rfl
  · exact hnx ((peek_eq_some_iff hx).2 hz)
  · exact hny ((peek_eq_some_iff hy).2 hz)

/-- What can follow the first byte of a pair. -/
theorem pairs_second : ∀ x : UInt8,
    (Pairs (byte '-') x → x = byte '-' ∨ x = byte '>') ∧
      (Pairs (byte '/') x → x = byte '/' ∨ x = byte '*') ∧
      (Pairs (byte '<') x → letter x = false → x = byte '=') ∧
      (Pairs (byte '+') x → x = byte '+') ∧
      ∀ b ∈ [byte '>', byte '=', byte '!'], Pairs b x → x = byte '=' := by
  intro x
  simp [Pairs, markPairs, byte]
  grind

theorem recognises_minus (h : c₀.Reads [byte '-'] c) : ∃ f t, Recognises o c₀ (minus c) f t := by
  unfold minus
  split
  · next hp =>
    exact recognises_mark_two h hp (by decide) (List.mem_append_left _ (by decide))
  · next hp =>
    exact recognises_mark_two h hp (by decide) (List.mem_append_left _ (by decide))
  · next hp hp' =>
    exact recognises_mark_alone h (List.mem_append_left _ (by decide)) (by decide) (by decide) hp hp'
      fun x => (pairs_second x).1

theorem recognises_slash (h : c₀.Reads [byte '/'] c) : ∃ f t, Recognises o c₀ (slash c) f t := by
  unfold slash
  split
  · next hp =>
    obtain ⟨s, hs⟩ := List.head?_eq_some_iff.1 ((peek_eq_some_iff (by decide)).1 hp)
    obtain ⟨hr, -⟩ := reads_advanceWhile_ne (x := '\n') (by decide) c
    have hl := longest_lineComment s (o := o)
    rw [← List.takeWhile_cons_of_pos (p := fun b => decide (b ≠ byte '\n')) (by decide), ← hs] at hl
    exact ⟨.lineComment, _, .of_reads h hr hl rfl rfl rfl⟩
  · next hp => exact recognises_blockComment (h.trans (reads_advance_ascii hp (by decide)))
  · next hp hp' =>
    exact recognises_mark_alone h (List.mem_append_left _ (by decide)) (by decide) (by decide) hp hp'
      fun x => (pairs_second x).2.1

theorem recognises_less (h : c₀.Reads [byte '<'] c) : ∃ f t, Recognises o c₀ (less c) f t := by
  have hletter := any_peek uniform_isLetter c
  rw [onByte_isLetter] at hletter
  have key : ∀ x, Pairs (byte '<') x → letter x = false → x = byte '=' :=
    fun x => (pairs_second x).2.2.1
  have hpair : c.rest.head?.any letter = false →
      ∃ f t, Recognises o c₀ (pair '=' .ltEqual .lt c) f t := by
    intro hno
    refine recognises_pair h (by decide) (List.mem_append_left _ (by decide))
      (List.mem_append_left _ (by decide)) fun x hx hp => key x hp ?_
    rw [hx] at hno
    exact hno
  unfold less
  split
  · next ch hp =>
    obtain ⟨x, s, hs, -⟩ := exists_rest_of_peek hp
    rw [hp, Option.any_some] at hletter
    split
    · next hl =>
      rw [hl, hs] at hletter
      exact recognises_header h hs hletter.symm
    · next hl => exact hpair (hletter ▸ Bool.eq_false_iff.2 hl)
  · next hp => exact hpair (by rw [peek_eq_none_iff.1 hp]; rfl)

theorem single?_eq_some {ch : Char} {k : Kind} (h : single? o ch = some k) :
    ch.toNat < 0x80 ∧ ([byte ch], k) ∈ marks o ∧ byte ch ∉ pairLeads := by
  unfold single? at h
  split at h
  case h_16 | h_17 =>
    split at h
    · next ho =>
      cases h
      refine ⟨by decide, List.mem_append_right _ ?_, by decide⟩
      rw [if_pos ho]
      decide
    · cases h
  case h_18 => cases h
  all_goals
    cases h
    exact ⟨by decide, List.mem_append_left _ (by decide), by decide⟩

theorem recognises_single {ch : Char} {k : Kind} (hp : c.peek = some ch)
    (hk : single? o ch = some k) :
    ∃ f t, Recognises o c { kind := k, stop := c.advance } f t := by
  obtain ⟨hlow, hm, hno⟩ := single?_eq_some hk
  exact recognises_mark_one (reads_advance_ascii hp hlow) hm fun x _ hpair =>
    hno hpair.mem_pairLeads

/-- A character that nothing known starts with. -/
theorem recognises_unknown {b : UInt8} {rest : Bytes} (hc : c.rest = b :: rest)
    (hb : lead o b = false) :
    ∃ f t, Recognises o c { kind := .unknown, stop := c.advance } f t := by
  refine ⟨.unknown, _, ?_, reads_advance hc, rfl, rfl, rfl⟩
  rw [hc]
  exact longest_unknown hb rest

/-- The characters that `classify` looks for one by one. -/
def isSpecial (ch : Char) : Bool :=
  ch = '/' || ch = '0' || ch = '"' || ch = '-' || ch = '<' || ch = '+' || ch = '>' || ch = '=' ||
    ch = '!'

/-- Where neither a class nor a character of `classify` fits, nothing known starts. -/
theorem lead_eq_false {b : UInt8} {rest : Bytes} {ch : Char} (hc : c.rest = b :: rest)
    (hp : c.peek = some ch) (hblank : isBlank ch = false) (hspecial : isSpecial ch = false)
    (hdigit : Radix.decimal.isDigit ch = false) (hword : isIdentStart ch = false)
    (hsingle : single? o ch = none) : lead o b = false := by
  by_cases hlow : b.toNat < 0x80
  · obtain rfl : Char.ofNat b.toNat = ch := by
      rw [peek_of_rest hc, Utf8.decode_ascii hlow] at hp
      exact Option.some.inj hp
    have hquote : b ≠ byte '"' := by
      rintro rfl
      exact absurd hspecial (by decide)
    have hmark : markStart o b = false := by
      rw [Bool.eq_false_iff]
      intro hm
      obtain ⟨u, k, hm⟩ := exists_mem_marks hm
      have key : ∀ c, ∀ m ∈ marks { colonPercent := c },
          isSpecial (Char.ofNat (m.1.headD 0).toNat) = true ∨
            (single? { colonPercent := c } (Char.ofNat (m.1.headD 0).toNat)).isSome := by
        decide
      rcases key o.colonPercent _ hm with h | h
      · exact absurd h (Bool.eq_false_iff.1 hspecial)
      · have h : (single? o (Char.ofNat b.toNat)).isSome := h
        rw [hsingle] at h
        cases h
    have hblank : blank b = false := by rw [← onByte_isBlank]; exact hblank
    have hdigit : digit b = false := by rw [← onByte_decimal]; exact hdigit
    have hword : wordStart b = false := by rw [← onByte_isIdentStart]; exact hword
    simp [lead, hblank, hword, hdigit, hquote, hmark]
  · exact lead_of_high (Nat.le_of_not_lt hlow)

/-- The longest lexeme at a character that is not blank. -/
theorem recognises_classify {first : Char} (hp : c.peek = some first)
    (hblank : isBlank first = false) :
    ∃ f t, Recognises o c (classify o first c.advance) f t := by
  have plus : ∀ x, Pairs (byte '+') x → x = byte '+' := fun x => (pairs_second x).2.2.2.1
  have equal : ∀ b ∈ [byte '>', byte '=', byte '!'], ∀ x, Pairs b x → x = byte '=' :=
    fun b hb x => (pairs_second x).2.2.2.2 b hb
  unfold classify
  split
  · exact recognises_slash (reads_advance_ascii hp (by decide))
  · exact recognises_zeroNumber (reads_advance_ascii hp (by decide))
  · exact recognises_string (reads_advance_ascii hp (by decide))
  · exact recognises_minus (reads_advance_ascii hp (by decide))
  · exact recognises_less (reads_advance_ascii hp (by decide))
  · exact recognises_pair (reads_advance_ascii hp (by decide)) (by decide)
      (List.mem_append_left _ (by decide)) (List.mem_append_left _ (by decide)) fun x _ => plus x
  iterate 3
    exact recognises_pair (reads_advance_ascii hp (by decide)) (by decide)
      (List.mem_append_left _ (by decide)) (List.mem_append_left _ (by decide))
      fun x _ => equal _ (by decide) x
  · next h1 h2 h3 h4 h5 h6 h7 h8 h9 =>
    have hspecial : isSpecial first = false := by
      simp only [isSpecial, Bool.or_eq_false_iff, decide_eq_false_iff_not]
      exact ⟨⟨⟨⟨⟨⟨⟨⟨h1, h2⟩, h3⟩, h4⟩, h5⟩, h6⟩, h7⟩, h8⟩, h9⟩
    split
    · next hd =>
      have hb : digit (byte first) := by
        rw [← onByte_decimal, onByte, ofNat_toNat_byte (toNat_lt_of_isDigit hd)]
        exact hd
      refine recognises_decimal (reads_advance_ascii hp (toNat_lt_of_isDigit hd)) ⟨hb, fun hz => ?_⟩
      rw [← ofNat_toNat_byte (toNat_lt_of_isDigit hd), hz] at h2
      exact absurd rfl h2
    · next hd =>
      split
      · next hw =>
        refine recognises_ident (reads_advance_ascii hp (toNat_lt_of_isIdentStart hw)) ?_
        rw [← onByte_isIdentStart, onByte, ofNat_toNat_byte (toNat_lt_of_isIdentStart hw)]
        exact hw
      · next hw =>
        cases hk : single? o first with
        | some k => exact recognises_single hp hk
        | none =>
          obtain ⟨b, rest, hr, -⟩ := exists_rest_of_peek hp
          exact recognises_unknown hr (lead_eq_false hr hp hblank hspecial
            (Bool.eq_false_iff.2 hd) (Bool.eq_false_iff.2 hw) hk)

end Lexeme
end Lexis
