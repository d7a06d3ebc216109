import Lexis.Literal.Decode
import Lexis.Scan.Lexeme
import Lexis.Token

/-!
# Scanning

`step` takes one token off the text ahead of a cursor, with the diagnostics that belong to it. It
never fails, and it sees nothing but the cursor and the options. `Scanner` runs it token by token or
to the end; after the end every further token is the end again.

* `length_rest_step_lt`: each token but the last takes at least one byte.
-/
namespace Lexis

/-- A token, its diagnostics and the cursor behind it. -/
structure Step where
  token : Token
  diagnostics : List Diagnostic
  stop : Cursor
  deriving DecidableEq, Repr

namespace Step

def spanOf (start stop : Cursor) : Span := ⟨start.offset, stop.offset⟩

/-- A token that carries its own text (`token`). -/
def plain (start : Cursor) (kind : Kind) (stop : Cursor) : Token :=
  ⟨kind, .empty, .raw (start.textTo stop), spanOf start stop⟩

/-- The token of a literal with the value that decoding returns, and the error beside it as a
diagnostic. -/
def literal (start : Cursor) (l : Literal) (stop : Cursor) : Token × List Diagnostic :=
  let span := spanOf start stop
  match l.decode (start.textTo stop) with
  | .ok (value, some (.tagged tag reason)) =>
    (⟨.literal, l, value, span⟩, [⟨tag, span, start.line, some reason⟩])
  -- An error without a tag and a class without a name do not occur in a scan.
  | .ok (value, _) => (⟨.literal, l, value, span⟩, [])
  | .error _ => (⟨.literal, l, .absent, span⟩, [])

/-- The step for a lexeme that starts at `start`. What it lacks is reported first. -/
def ofLexeme (start : Cursor) (x : Lexeme) : Step :=
  let missing := x.missing.toList.map fun tag => ⟨tag, spanOf start x.stop, start.line, none⟩
  if x.kind = .literal then
    let (token, rejected) := literal start x.literal x.stop
    ⟨token, missing ++ rejected, x.stop⟩
  else ⟨plain start x.kind x.stop, missing, x.stop⟩

/-- The step at a character that is not skipped, or at the end. -/
def atLexeme (o : Options) (c : Cursor) : Step :=
  match c.read with
  | (none, stop) => ⟨⟨.eof, .empty, .absent, spanOf c c⟩, [], stop⟩
  | (some first, next) => ofLexeme c (Lexeme.classify o first next)

end Step

/-- One token off the text ahead (`next`). -/
def Cursor.step (o : Options) (c : Cursor) : Step :=
  let ahead := c.advanceWhile isBlank
  if o.emitWhitespace && c.peek.any isBlank then ⟨Step.plain c .whitespace ahead, [], ahead⟩
  else Step.atLexeme o ahead

namespace Step

theorem stop_ofLexeme (start : Cursor) (x : Lexeme) : (ofLexeme start x).stop = x.stop := by
  unfold ofLexeme
  dsimp only
  split <;> rfl

theorem length_rest_atLexeme_lt {o : Options} {c : Cursor}
    (h : (atLexeme o c).token.kind ≠ .eof) : (atLexeme o c).stop.rest.length < c.rest.length := by
  unfold atLexeme at h ⊢
  split
  · next hr => simp [hr] at h
  · next first next hr =>
    rw [stop_ofLexeme]
    exact Nat.lt_of_le_of_lt (Lexeme.length_rest_classify_le o first next)
      (Cursor.length_rest_read_lt hr)

end Step

namespace Cursor

theorem length_rest_advanceWhile_lt {p : Char → Bool} {c : Cursor} (h : c.peek.any p = true) :
    (c.advanceWhile p).rest.length < c.rest.length := by
  rw [advanceWhile]
  split
  · next hn => simp [hn] at h
  · next ch hc =>
    rw [hc, Option.any_some] at h
    rw [if_pos h]
    exact Nat.lt_of_le_of_lt (length_rest_advanceWhile_le p _) (length_rest_advance_lt hc)

theorem length_rest_step_lt {o : Options} {c : Cursor} (h : (c.step o).token.kind ≠ .eof) :
    (c.step o).stop.rest.length < c.rest.length := by
  unfold step at h ⊢
  dsimp only at h ⊢
  split
  · next hw =>
    rw [Bool.and_eq_true] at hw
    exact length_rest_advanceWhile_lt hw.2
  · next hw =>
    rw [if_neg hw] at h
    exact Nat.lt_of_lt_of_le (Step.length_rest_atLexeme_lt h) (length_rest_advanceWhile_le _ c)

/-- All steps from here through the first end of text. -/
def steps (o : Options) (c : Cursor) : List Step :=
  let s := c.step o
  if _h : s.token.kind = .eof then [s] else s :: steps o s.stop
termination_by c.rest.length
decreasing_by exact length_rest_step_lt _h

end Cursor

/-- A source that is scanned bit by bit. -/
structure Scanner where
  source : Bytes
  options : Options
  cursor : Cursor
  diagnostics : List Diagnostic
  deriving DecidableEq, Repr

namespace Scanner

/-- The scanner of a source from its beginning (`NewScanner`). -/
def start (source : Bytes) (options : Options) : Scanner := ⟨source, options, .start source, []⟩

/-- The line of the next character. -/
def line (s : Scanner) : Nat := s.cursor.line

/-- The next token (`Next`). -/
def next (s : Scanner) : Token × Scanner :=
  let r := s.cursor.step s.options
  (r.token, { s with cursor := r.stop, diagnostics := s.diagnostics ++ r.diagnostics })

/-- All tokens from here through the end (`Scanner.Tokenize`). -/
def drain (s : Scanner) : List Token × Scanner :=
  let steps := s.cursor.steps s.options
  (steps.map (·.token),
    { s with
      cursor := (steps.getLast?.map (·.stop)).getD s.cursor
      diagnostics := s.diagnostics ++ steps.flatMap (·.diagnostics) })

/-- The line that tells of a token and its text when scanning is traced. -/
def traceLine (source : Bytes) (t : Token) : Except SliceError Bytes :=
  (t.text source).map fun text => ascii "token: " ++ t.render ++ ascii " " ++ quote text

end Scanner

/-- The tokens and the diagnostics of a whole source (`Tokenize`). -/
def tokenize (source : Bytes) (options : Options) : List Token × List Diagnostic :=
  let (tokens, s) := (Scanner.start source options).drain
  (tokens, s.diagnostics)

end Lexis
