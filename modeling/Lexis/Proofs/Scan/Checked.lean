import Lexis.Token
import Lexis.Proofs.Literal.Decoding
import Lexis.Proofs.Scan.Lines

/-!
# Scanning with every access checked

A cursor carries the text ahead of it, so nothing can go wrong when it is read. Here the same scan
works on the whole source by offset, as an array would be read: each byte is looked up, each part
of a text is cut out by a span, and what does not exist is a `Fault`. The text that a cursor carries
is never looked at.

* `peek_eq`, `read_eq`, `advanceWhile_eq`: in its source, a cursor can be moved so.
* `classify_eq`: each lexeme is found without a fault.
* `decode_eq`: no literal of a named class is cut where it has no bytes.
* `step_eq`: so a checked step is a step.
-/
namespace Lexis

open Grammar Cursor

/-- What cannot be recovered from. -/
inductive Fault where
  | index (error : IndexError)
  | slice (error : SliceError)
  | unknownClass (code : Int)
  /-- Decoding failed with an error that has no tag to report it under. -/
  | untagged (error : Failure)
  | push (error : PushError)
  | unknownFormat (name : Bytes)
  /-- A token took nothing, so the scan would never end. -/
  | stuck (offset : Nat)
  deriving DecidableEq, Repr

namespace Checked

@[simp] theorem ok_bind {α β : Type} (a : α) (f : α → Except Fault β) :
    (Except.ok a >>= f) = f a := rfl

@[simp] theorem pure_eq {α : Type} (a : α) : (pure a : Except Fault α) = .ok a := rfl

/-! ## Reading -/

section Reading

variable (source : Bytes)

/-- The byte at an index. -/
def byteAt (n : Nat) : Except Fault UInt8 :=
  match source[n]? with
  | some b => .ok b
  | none => .error (.index ⟨n, source.length⟩)

/-- The part of a text that a span covers. -/
def cut (text : Bytes) (span : Span) : Except Fault Bytes := (span.slice text).mapError .slice

/-- The unit at an index. The text is cut only where a single byte is none. -/
def unitAt (n : Nat) : Except Fault Rune := do
  let b ← byteAt source n
  if b < 0x80 then return .char (Char.ofNat b.toNat)
  let text ← cut source ⟨n, source.length⟩
  return Utf8.decode b (text.drop 1)

def peek (c : Cursor) : Except Fault (Option Char) :=
  if source.length ≤ c.offset then .ok none
  else do
    let r ← unitAt source c.offset
    return some r.toChar

def read (c : Cursor) : Except Fault (Option Char × Cursor) :=
  if source.length ≤ c.offset then .ok (none, c)
  else do
    let r ← unitAt source c.offset
    return (some r.toChar,
      ⟨source.drop (c.offset + r.width), c.offset + r.width,
        if r.toChar = '\n' then c.line + 1 else c.line⟩)

def advance (c : Cursor) : Except Fault Cursor := do
  let (_, d) ← read source c
  return d

theorem offset_lt_of_peek {c : Cursor} {ch : Char} (h : peek source c = .ok (some ch)) :
    c.offset < source.length := by
  unfold peek at h
  split at h
  · cases h
  · omega

theorem offset_lt_of_read {c d : Cursor} {ch : Option Char} (hc : c.offset < source.length)
    (h : read source c = .ok (ch, d)) : c.offset < d.offset := by
  unfold read at h
  rw [if_neg (by omega)] at h
  cases hu : unitAt source c.offset with
  | error e =>
    rw [hu] at h
    cases h
  | ok r =>
    rw [hu] at h
    cases h
    have hpos := r.width_pos
    dsimp only
    omega

theorem offset_lt_length_of_read {c d : Cursor} {ch : Char}
    (h : read source c = .ok (some ch, d)) : c.offset < source.length := by
  unfold read at h
  split at h
  · cases h
  · omega

theorem offset_lt_of_advance {c d : Cursor} (hc : c.offset < source.length)
    (h : advance source c = .ok d) : c.offset < d.offset := by
  unfold advance at h
  cases hr : read source c with
  | error e =>
    rw [hr] at h
    cases h
  | ok r =>
    rw [hr] at h
    cases h
    exact offset_lt_of_read source hc hr

def advanceWhile (p : Char → Bool) (c : Cursor) : Except Fault Cursor :=
  match _hp : peek source c with
  | .error e => .error e
  | .ok none => .ok c
  | .ok (some ch) =>
    if p ch then
      match _ha : advance source c with
      | .error e => .error e
      | .ok d => advanceWhile p d
    else .ok c
termination_by source.length - c.offset
decreasing_by
  have hc := offset_lt_of_peek source _hp
  have hd := offset_lt_of_advance source hc _ha
  omega

/-! ## Reading stays in the source -/

variable {source} {c d : Cursor}

theorem atEnd_eq (h : c.Inside source) : source.length ≤ c.offset ↔ c.atEnd := by
  have hle := h.offset_le
  rw [h.atEnd_iff]
  omega

theorem byteAt_eq (h : c.Inside source) {b : UInt8} {rest : Bytes} (hr : c.rest = b :: rest) :
    byteAt source c.offset = .ok b := by
  obtain ⟨u, hsplit, hoff⟩ := h.split
  have hget : source[c.offset]? = some b := by
    rw [hsplit, hoff, hr, List.getElem?_append_right (Nat.le_refl _), Nat.sub_self]
    rfl
  unfold byteAt
  rw [hget]

theorem cut_rest_eq (h : c.Inside source) :
    cut source ⟨c.offset, source.length⟩ = .ok c.rest := by
  obtain ⟨u, hsplit, hoff⟩ := h.split
  have hspan : (⟨c.offset, source.length⟩ : Span) = .of u.length c.rest := by
    rw [hoff, hsplit, List.length_append]
    rfl
  have hslice := Span.slice_of u c.rest []
  rw [List.append_nil, ← hsplit] at hslice
  rw [cut, hspan, hslice]
  rfl

theorem cut_eq (h : c.Inside source) {t : Bytes} (hr : c.Reads t d) :
    cut source (Step.spanOf c d) = .ok (c.textTo d) := by
  have hspan : Step.spanOf c d = .of c.offset t := by
    rw [Step.spanOf, hr.offset]
    rfl
  rw [cut, hspan, h.slice_eq hr, hr.textTo_eq]
  rfl

theorem unitAt_eq (h : c.Inside source) {b : UInt8} {rest : Bytes} (hr : c.rest = b :: rest) :
    unitAt source c.offset = .ok (Utf8.decode b rest) := by
  unfold unitAt
  rw [byteAt_eq h hr, ok_bind]
  split
  · next hb => rw [Utf8.decode_ascii (UInt8.lt_iff_toNat_lt.1 hb)]; rfl
  · rw [cut_rest_eq h, hr]
    rfl

theorem peek_eq (h : c.Inside source) : peek source c = .ok c.peek := by
  unfold peek
  cases hr : c.rest with
  | nil => rw [if_pos ((atEnd_eq h).2 (Lexeme.atEnd_iff.2 hr)), peek_eq_none_iff.2 hr]
  | cons b rest =>
    rw [if_neg (by simp [atEnd_eq h, Lexeme.atEnd_iff, hr]), unitAt_eq h hr, peek_of_rest hr]
    rfl

theorem read_eq (h : c.Inside source) : read source c = .ok c.read := by
  unfold read
  cases hr : c.rest with
  | nil => rw [if_pos ((atEnd_eq h).2 (Lexeme.atEnd_iff.2 hr)), read_of_end hr]
  | cons b rest =>
    have hdrop := (h.reads (reads_advance hr)).drop_offset
    rw [if_neg (by simp [atEnd_eq h, Lexeme.atEnd_iff, hr]), unitAt_eq h hr, ok_bind]
    rw [Cursor.advance, read_of_rest hr] at hdrop
    rw [read_of_rest hr]
    dsimp only at hdrop ⊢
    rw [hdrop]
    rfl

theorem advance_eq (h : c.Inside source) : advance source c = .ok c.advance := by
  rw [advance, read_eq h]
  rfl

theorem advanceWhile_step (p : Char → Bool) (h : c.Inside source) :
    advanceWhile source p c =
      if c.peek.any p then advanceWhile source p c.advance else .ok c := by
  have hp := peek_eq h
  have ha := advance_eq h
  rw [advanceWhile]
  cases hc : c.peek with
  | none => split <;> simp_all
  | some ch =>
    rw [Option.any_some]
    split
    · simp_all
    · simp_all
    · next ch' hp' =>
      obtain rfl : ch = ch' := by simp_all
      split
      · split
        · simp_all
        · simp_all
      · rfl

theorem advanceWhile_eq (p : Char → Bool) (h : c.Inside source) :
    advanceWhile source p c = .ok (c.advanceWhile p) := by
  fun_induction Cursor.advanceWhile p c with
  | case1 c hn =>
    rw [advanceWhile_step p h, hn]
    rfl
  | case2 c ch hc hpc ih =>
    rw [advanceWhile_step p h, hc, Option.any_some, if_pos hpc]
    exact ih h.advance
  | case3 c ch hc hpc =>
    rw [advanceWhile_step p h, hc, Option.any_some, if_neg hpc]

end Reading

/-! ## Lexemes -/

section Lexemes

variable (source : Bytes)

def pair (second : Char) (long short : Kind) (c : Cursor) : Except Fault Lexeme := do
  if (← peek source c) = some second then
    return { kind := long, stop := ← advance source c }
  else return { kind := short, stop := c }

def number (radix : Radix) (c : Cursor) : Except Fault Lexeme := do
  let digits ← advanceWhile source radix.isDigit c
  match radix with
  | .binary | .hexadecimal => return { kind := .literal, literal := .int radix 2, stop := digits }
  | .decimal =>
    if (← peek source digits) = some '.' then
      let point ← advance source digits
      let stop ← advanceWhile source Radix.decimal.isDigit point
      return { kind := .literal, literal := .float, stop }
    else return { kind := .literal, literal := .int radix 0, stop := digits }
  | _ => return { kind := .literal, literal := .int radix 0, stop := digits }

def zeroNumber (c : Cursor) : Except Fault Lexeme := do
  match ← peek source c with
  | some 'b' => number source .binary (← advance source c)
  | some 'x' => number source .hexadecimal (← advance source c)
  | some d => if Radix.octal.isDigit d then number source .octal c else number source .decimal c
  | none => number source .decimal c

def string (c : Cursor) : Except Fault Lexeme := do
  let body ← advanceWhile source (· ≠ '"') c
  if source.length ≤ body.offset then
    return { kind := .literal, literal := .str, stop := body, missing := some .unterminatedString }
  else return { kind := .literal, literal := .str, stop := ← advance source body }

/-- Whether a comment ends with the character `ch`, which is read, and the next one. -/
def closes (ch : Char) (d : Cursor) : Except Fault Bool := do
  if ch = '*' then return (← peek source d) = some '/' else return false

def closeComment (c : Cursor) : Except Fault (Cursor × Bool) :=
  match _h : read source c with
  | .error e => .error e
  | .ok (none, stop) => .ok (stop, false)
  | .ok (some ch, d) =>
    match closes source ch d with
    | .error e => .error e
    | .ok true => do return (← advance source d, true)
    | .ok false => closeComment d
termination_by source.length - c.offset
decreasing_by
  have hc := offset_lt_length_of_read source _h
  have hd := offset_lt_of_read source hc _h
  omega

def blockComment (c : Cursor) : Except Fault Lexeme := do
  let (stop, closed) ← closeComment source c
  return { kind := .blockComment, stop
           missing := if closed then none else some .unterminatedBlockComment }

def slash (c : Cursor) : Except Fault Lexeme := do
  match ← peek source c with
  | some '/' => return { kind := .lineComment, stop := ← advanceWhile source (· ≠ '\n') c }
  | some '*' => blockComment source (← advance source c)
  | _ => return { kind := .slash, stop := c }

def minus (c : Cursor) : Except Fault Lexeme := do
  match ← peek source c with
  | some '-' => return { kind := .minusMinus, stop := ← advance source c }
  | some '>' => return { kind := .arrow, stop := ← advance source c }
  | _ => return { kind := .minus, stop := c }

def header (c : Cursor) : Except Fault Lexeme := do
  let stop ← advanceWhile source (· ≠ '>') c
  return { kind := .header, stop
           missing := if source.length ≤ stop.offset then some .unterminatedHeader else none }

def less (c : Cursor) : Except Fault Lexeme := do
  match ← peek source c with
  | some ch => if isLetter ch then header source c else pair source '=' .ltEqual .lt c
  | none => pair source '=' .ltEqual .lt c

def classify (o : Options) (first : Char) (c : Cursor) : Except Fault Lexeme :=
  match first with
  | '/' => slash source c
  | '0' => zeroNumber source c
  | '"' => string source c
  | '-' => minus source c
  | '<' => less source c
  | '+' => pair source '+' .plusPlus .plus c
  | '>' => pair source '=' .gtEqual .gt c
  | '=' => pair source '=' .equalEqual .equal c
  | '!' => pair source '=' .bangEqual .bang c
  | _ =>
    if Radix.decimal.isDigit first then number source .decimal c
    else if isIdentStart first then do
      return { kind := .ident, stop := ← advanceWhile source o.isIdentPart c }
    else .ok { kind := (Lexeme.single? o first).getD .unknown, stop := c }

/-! ## Each lexeme is found -/

variable {source} {c : Cursor}

theorem pair_eq (second : Char) (long short : Kind) (h : c.Inside source) :
    pair source second long short c = .ok (Lexeme.pair second long short c) := by
  unfold pair Lexeme.pair
  rw [peek_eq h, ok_bind]
  split
  · rw [advance_eq h]
    rfl
  · rfl

theorem number_eq (radix : Radix) (h : c.Inside source) :
    number source radix c = .ok (Lexeme.number radix c) := by
  have hd := h.advanceWhile radix.isDigit
  have hw := advanceWhile_eq radix.isDigit h
  fun_cases Lexeme.number radix c with
  | case1 digits => simp [number, hw, digits]
  | case2 digits => simp [number, hw, digits]
  | case3 digits hp =>
    have hf := advanceWhile_eq Radix.decimal.isDigit hd.advance
    simp [number, hw, peek_eq hd, advance_eq hd, hf, digits, hp]
  | case4 digits hp => simp [number, hw, peek_eq hd, digits, hp]
  | case5 =>
    unfold number
    rw [hw, ok_bind]
    split
    · contradiction
    · contradiction
    · contradiction
    · rfl

theorem zeroNumber_eq (h : c.Inside source) :
    zeroNumber source c = .ok (Lexeme.zeroNumber c) := by
  have hp := peek_eq h
  have ha := advance_eq h
  fun_cases Lexeme.zeroNumber c with
  | case1 hc => simp [zeroNumber, hp, hc, ha, number_eq _ h.advance]
  | case2 hc => simp [zeroNumber, hp, hc, ha, number_eq _ h.advance]
  | case3 d _ _ hc hd => simp [zeroNumber, hp, hc, hd, number_eq _ h]
  | case4 d _ _ hc hd => simp [zeroNumber, hp, hc, hd, number_eq _ h]
  | case5 hc => simp [zeroNumber, hp, hc, number_eq _ h]

theorem string_eq (h : c.Inside source) : string source c = .ok (Lexeme.string c) := by
  have hb := h.advanceWhile (· ≠ '"')
  have hw := advanceWhile_eq (· ≠ '"') h
  unfold string
  rw [hw, ok_bind, advance_eq hb]
  fun_cases Lexeme.string c with
  | case1 body hend => rw [if_pos ((atEnd_eq hb).2 hend)]; rfl
  | case2 body hend => rw [if_neg (mt (atEnd_eq hb).1 hend)]; rfl

theorem closes_eq (ch : Char) (h : c.Inside source) :
    closes source ch c = .ok (decide (ch = '*' ∧ c.peek = some '/')) := by
  unfold closes
  rw [peek_eq h]
  by_cases hc : ch = '*' <;> simp [hc]

theorem closeComment_step (h : c.Inside source) {ch : Char} {d : Cursor}
    (hread : c.read = (some ch, d)) :
    closeComment source c =
      if ch = '*' ∧ d.peek = some '/' then .ok (d.advance, true) else closeComment source d := by
  have hr := read_eq h
  have hd : d.Inside source := (read_eq_iff.1 hread).2 ▸ h.advance
  have hq := closes_eq ch hd
  rw [hread] at hr
  rw [closeComment]
  split
  · simp_all
  · simp_all
  · next ch' d' hr' =>
    obtain ⟨rfl, rfl⟩ : ch = ch' ∧ d = d' := by simpa [hr] using hr'
    rw [hq]
    split
    · simp_all
    · next htrue => simp_all [advance_eq hd]
    · next hfalse => simp_all

theorem closeComment_eq (h : c.Inside source) :
    closeComment source c = .ok (Lexeme.closeComment c) := by
  fun_induction Lexeme.closeComment c with
  | case1 c stop hread =>
    have hr := read_eq h
    rw [hread] at hr
    rw [closeComment]
    split <;> simp_all
  | case2 c ch d hread hclose => rw [closeComment_step h hread, if_pos hclose]
  | case3 c ch d hread hclose ih =>
    rw [closeComment_step h hread, if_neg hclose]
    exact ih ((read_eq_iff.1 hread).2 ▸ h.advance)

theorem blockComment_eq (h : c.Inside source) :
    blockComment source c = .ok (Lexeme.blockComment c) := by
  unfold blockComment
  rw [closeComment_eq h]
  rfl

theorem slash_eq (h : c.Inside source) : slash source c = .ok (Lexeme.slash c) := by
  have hp := peek_eq h
  fun_cases Lexeme.slash c with
  | case1 hc => simp [slash, hp, hc, advanceWhile_eq _ h]
  | case2 hc => simp [slash, hp, hc, advance_eq h, blockComment_eq h.advance]
  | case3 => simp [slash, *]

theorem minus_eq (h : c.Inside source) : minus source c = .ok (Lexeme.minus c) := by
  have hp := peek_eq h
  fun_cases Lexeme.minus c with
  | case1 hc => simp [minus, hp, hc, advance_eq h]
  | case2 hc => simp [minus, hp, hc, advance_eq h]
  | case3 => simp [minus, *]

theorem header_eq (h : c.Inside source) : header source c = .ok (Lexeme.header c) := by
  have hs := h.advanceWhile (· ≠ '>')
  have hw := advanceWhile_eq (· ≠ '>') h
  unfold header Lexeme.header
  rw [hw, ok_bind, pure_eq, if_congr (atEnd_eq hs) rfl rfl]

theorem less_eq (h : c.Inside source) : less source c = .ok (Lexeme.less c) := by
  have hp := peek_eq h
  fun_cases Lexeme.less c with
  | case1 ch hc hletter => simp [less, hp, hc, hletter, header_eq h]
  | case2 ch hc hletter => simp [less, hp, hc, hletter, pair_eq _ _ _ h]
  | case3 hc => simp [less, hp, hc, pair_eq _ _ _ h]

theorem classify_eq (o : Options) (first : Char) (h : c.Inside source) :
    classify source o first c = .ok (Lexeme.classify o first c) := by
  fun_cases Lexeme.classify o first c with
  | case1 => exact slash_eq h
  | case2 => exact zeroNumber_eq h
  | case3 => exact string_eq h
  | case4 => exact minus_eq h
  | case5 => exact less_eq h
  | case6 | case7 | case8 | case9 => exact pair_eq _ _ _ h
  | case10 =>
    simp only [classify, *]
    exact number_eq _ h
  | case11 =>
    simp only [classify, *, advanceWhile_eq _ h]
    rfl
  | case12 => simp only [classify, *]; rfl

end Lexemes

/-! ## Steps -/

section Steps

variable (source : Bytes)

def plain (start : Cursor) (kind : Kind) (stop : Cursor) : Except Fault Token := do
  let span := Step.spanOf start stop
  return ⟨kind, .empty, .raw (← cut source span), span⟩

/-- The value of a lexeme and the error beside it. A class without a name is a fault. -/
def decode (l : Literal) (lexeme : Bytes) : Except Fault (Value × Option Failure) :=
  if l.prefixLen < 0 ∨ (lexeme.length : Int) < l.prefixLen then
    .ok (.absent,
      some (.tagged l.category.malformedTag (.prefixOutOfRange l.prefixLen lexeme)))
  else
    match l.category with
    | .int =>
      if l.radix.base?.isNone then
        .ok (.absent, some (.tagged .malformedNumber (.unsupportedRadix l.radix)))
      else do
        let digits ← cut lexeme ⟨l.prefixLen, lexeme.length⟩
        return Literal.decodeInt l.radix digits
    | .float => .ok (Literal.decodeFloat lexeme)
    | .str => do
      let body ← cut lexeme ⟨l.prefixLen, lexeme.length⟩
      if body.getLast? = some (byte '"') then
        return (.string (← cut body ⟨0, (body.length : Int) - 1⟩), none)
      else return (.string body, none)
    | .raw => .ok (.raw lexeme, none)
    | .char | .byte => .ok (.absent, some (.tagged .unsupportedLiteral (.unsupported l)))
    | .numbered code _ => .error (.unknownClass code)

/-- The diagnostic of an error, which must have a tag. -/
def diagnose (span : Span) (line : Nat) : Option Failure → Except Fault (List Diagnostic)
  | none => .ok []
  | some (.tagged tag reason) => .ok [⟨tag, span, line, some reason⟩]
  | some e => .error (.untagged e)

def literal (start : Cursor) (l : Literal) (stop : Cursor) :
    Except Fault (Token × List Diagnostic) := do
  let span := Step.spanOf start stop
  let (value, failure) ← decode l (← cut source span)
  let rejected ← diagnose span start.line failure
  return (⟨.literal, l, value, span⟩, rejected)

def ofLexeme (start : Cursor) (x : Lexeme) : Except Fault Step := do
  let missing := x.missing.toList.map fun tag =>
    ⟨tag, Step.spanOf start x.stop, start.line, none⟩
  if x.kind = .literal then
    let (token, rejected) ← literal source start x.literal x.stop
    return ⟨token, missing ++ rejected, x.stop⟩
  else return ⟨← plain source start x.kind x.stop, missing, x.stop⟩

def atLexeme (o : Options) (c : Cursor) : Except Fault Step := do
  match ← read source c with
  | (none, _) => return .atEof c
  | (some first, next) => ofLexeme source c (← classify source o first next)

/-- One token off the source. -/
def step (o : Options) (c : Cursor) : Except Fault Step := do
  if (← peek source c).any isBlank then
    let ahead ← advanceWhile source isBlank c
    if o.emitWhitespace then return ⟨← plain source c .whitespace ahead, [], ahead⟩
    else atLexeme source o ahead
  else atLexeme source o c

/-! ## A checked step is a step -/

variable {source} {c d : Cursor}

/-- A text can be cut behind any part of it. -/
theorem cut_drop_eq (text : Bytes) {n : Int} (h0 : 0 ≤ n) (hn : n ≤ text.length) :
    cut text ⟨n, text.length⟩ = .ok (text.drop n.toNat) := by
  obtain ⟨k, rfl⟩ := Int.eq_ofNat_of_zero_le h0
  have hsplit := Span.slice_of (text.take k) (text.drop k) []
  have hspan : Span.of (text.take k).length (text.drop k) = ⟨k, text.length⟩ := by
    unfold Span.of
    congr 1 <;> simp <;> omega
  rw [List.append_nil, List.take_append_drop, hspan] at hsplit
  rw [cut, hsplit]
  rfl

/-- The last byte of a text can be cut off. -/
theorem cut_dropLast_eq {text : Bytes} (h : text ≠ []) :
    cut text ⟨0, (text.length : Int) - 1⟩ = .ok text.dropLast := by
  have hpos := List.length_pos_iff.2 h
  have hslice := Span.slice_of [] text.dropLast [text.getLast h]
  have hspan : Span.of ([] : Bytes).length text.dropLast = ⟨0, (text.length : Int) - 1⟩ := by
    unfold Span.of
    congr 1
    simp
    omega
  rw [List.nil_append, List.dropLast_append_getLast, hspan] at hslice
  rw [cut, hslice]
  rfl

/-- No lexeme is cut where it has no bytes. -/
theorem decode_eq (l : Literal) (lexeme : Bytes) :
    decode l lexeme = (l.decode lexeme).mapError fun e => .unknownClass e.code := by
  unfold decode Literal.decode
  split
  · rfl
  · next hn =>
    have hcut := cut_drop_eq lexeme (n := l.prefixLen) (by omega) (by omega)
    cases hc : l.category with
    | int =>
      dsimp only
      rw [hcut]
      cases hb : l.radix.base? with
      | none => simp [Literal.decodeInt, hb, Except.mapError]
      | some base => simp [Except.mapError]
    | float | raw | char | byte | numbered => rfl
    | str =>
      dsimp only
      rw [hcut, ok_bind, Literal.stringBody]
      split
      · next hq =>
        have hne : lexeme.drop l.prefixLen.toNat ≠ [] := by
          rintro hnil
          simp [hnil] at hq
        rw [cut_dropLast_eq hne]
        rfl
      · rfl

/-- A lexeme of a named class has a value, or an error beside it. -/
theorem exists_decode {l : Literal} (hl : l.category ∈ LiteralClass.named) (lexeme : Bytes) :
    ∃ v e, l.decode lexeme = .ok (v, e) := by
  unfold Literal.decode
  split
  · exact ⟨_, _, rfl⟩
  · cases hc : l.category with
    | int | float | raw | char | str | byte => exact ⟨_, _, rfl⟩
    | numbered code hcode =>
      rw [hc] at hl
      simp [LiteralClass.named] at hl

/-- And such an error has a tag, so it can be reported. -/
theorem literal_eq {l : Literal} (hl : l.category ∈ LiteralClass.named) (h : c.Inside source)
    {t : Bytes} (hr : c.Reads t d) : literal source c l d = .ok (Step.literal c l d) := by
  obtain ⟨v, e, hd⟩ := exists_decode hl (c.textTo d)
  unfold literal Step.literal
  dsimp only
  rw [cut_eq h hr, ok_bind, decode_eq, hd]
  cases Literal.returns_of_decode hd with
  | value => rfl
  | failure => rfl

theorem named_literal (f : Form) : f.literal.category ∈ LiteralClass.named := by
  cases f <;> simp [Form.literal, Literal.int, Literal.float, Literal.str, Literal.empty,
    LiteralClass.named]

theorem ofLexeme_eq {o : Options} {x : Lexeme} {f : Form} {t : Bytes} (h : d.Inside source)
    (hr : Recognises o d x f t) : ofLexeme source d x = .ok (Step.ofLexeme d x) := by
  unfold ofLexeme Step.ofLexeme
  dsimp only
  split
  · rw [literal_eq (hr.literal ▸ named_literal f) h hr.reads]
    rfl
  · rw [plain, cut_eq h hr.reads]
    rfl

theorem atLexeme_eq (o : Options) (h : c.Inside source) (hb : c.peek.any isBlank = false) :
    atLexeme source o c = .ok (Step.atLexeme o c) := by
  unfold atLexeme Step.atLexeme
  rw [read_eq h, ok_bind, Cursor.read_eq]
  cases hp : c.peek with
  | none =>
    rw [advance_of_end (peek_eq_none_iff.1 hp)]
    rfl
  | some first =>
    rw [hp] at hb
    obtain ⟨f, t, hr⟩ := Lexeme.recognises_classify hp hb
    dsimp only
    rw [classify_eq o first h.advance, ok_bind]
    exact ofLexeme_eq h hr

/-- Where a cursor stands in its source, a checked step is the step. -/
theorem step_eq (o : Options) (h : c.Inside source) : step source o c = .ok (c.step o) := by
  have ha := h.advanceWhile isBlank
  unfold step Cursor.step
  rw [peek_eq h, ok_bind]
  dsimp only
  cases hb : c.peek.any isBlank with
  | false =>
    rw [advanceWhile_eq_self hb, Bool.and_false]
    exact atLexeme_eq o h hb
  | true =>
    rw [if_pos rfl, advanceWhile_eq _ h, ok_bind, Bool.and_true]
    split
    · obtain ⟨t, ht⟩ := exists_reads_advanceWhile isBlank c
      rw [plain, cut_eq h ht]
      rfl
    · exact atLexeme_eq o ha (any_peek_advanceWhile isBlank c)

end Steps

end Checked
end Lexis
