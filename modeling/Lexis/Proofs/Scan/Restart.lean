import Lexis.Proofs.Scan.Runs

/-!
# Scanning from the middle

A step looks at nothing but the text ahead. Offset and line only say where that text stands, and a
run from elsewhere is the same run moved there (`shift`). So a scan can be given up behind any token
and taken up again on the rest of the source alone.

* `step_shift`, `steps_shift`: a step and a run move with their cursor.
* `eq_shift_start`: a cursor in a source is the start of what lies ahead, moved to its place.
-/
namespace Lexis

open Grammar Cursor

/-! ## Moving things forward -/

/-- The span, a number of bytes further on. -/
def Span.shift (n : Nat) (s : Span) : Span := ⟨s.start + n, s.stop + n⟩

/-- The same token, further on. -/
def Token.shift (n : Nat) (t : Token) : Token := { t with span := t.span.shift n }

/-- The same diagnostic, a number of bytes and of lines further on. -/
def Diagnostic.shift (n lines : Nat) (g : Diagnostic) : Diagnostic :=
  { g with span := g.span.shift n, line := g.line + lines }

def Cursor.shift (n lines : Nat) (c : Cursor) : Cursor := ⟨c.rest, c.offset + n, c.line + lines⟩

def Lexeme.shift (n lines : Nat) (x : Lexeme) : Lexeme := { x with stop := x.stop.shift n lines }

def Step.shift (n lines : Nat) (s : Step) : Step :=
  ⟨s.token.shift n, s.diagnostics.map (Diagnostic.shift n lines), s.stop.shift n lines⟩

section Shift

variable (n lines : Nat)

@[simp] theorem Cursor.rest_shift (c : Cursor) : (c.shift n lines).rest = c.rest := rfl

@[simp] theorem Cursor.offset_shift (c : Cursor) : (c.shift n lines).offset = c.offset + n := rfl

@[simp] theorem Cursor.line_shift (c : Cursor) : (c.shift n lines).line = c.line + lines := rfl

theorem Cursor.textTo_shift (c d : Cursor) :
    (c.shift n lines).textTo (d.shift n lines) = c.textTo d := by
  simp [textTo, Nat.add_sub_add_right]

theorem Step.spanOf_shift (c d : Cursor) :
    spanOf (c.shift n lines) (d.shift n lines) = (spanOf c d).shift n := by
  simp [spanOf, Span.shift]

theorem Step.shift_atEof (d : Cursor) :
    (Step.atEof d).shift n lines = .atEof (d.shift n lines) := by
  simp [atEof, Step.shift, Token.shift, spanOf_shift]

theorem Step.literal_shift (d stop : Cursor) (l : Literal) :
    literal (d.shift n lines) l (stop.shift n lines) =
      ((literal d l stop).1.shift n, (literal d l stop).2.map (Diagnostic.shift n lines)) := by
  unfold literal
  simp only [textTo_shift, spanOf_shift]
  split <;> simp [Token.shift, Diagnostic.shift]

theorem Step.shift_ofLexeme (d : Cursor) (x : Lexeme) :
    (Step.ofLexeme d x).shift n lines = .ofLexeme (d.shift n lines) (x.shift n lines) := by
  have hmissing : (x.missing.toList.map fun tag =>
        (⟨tag, spanOf d x.stop, d.line, none⟩ : Diagnostic)).map (Diagnostic.shift n lines) =
      x.missing.toList.map fun tag =>
        ⟨tag, (spanOf d x.stop).shift n, (d.line + lines : Nat), none⟩ := by
    simp [Diagnostic.shift]
  unfold ofLexeme
  by_cases hk : x.kind = .literal
  · simp only [Lexeme.shift, hk, if_true, literal_shift, spanOf_shift, Step.shift,
      List.map_append, hmissing, line_shift]
  · simp only [Lexeme.shift, hk, if_false, plain, spanOf_shift, textTo_shift, Step.shift,
      hmissing, line_shift, Token.shift]

end Shift

/-! ## A step and a run move with their cursor -/

section Moved

variable {o : Options} {c d : Cursor} {t gap : Bytes} (n lines : Nat)

theorem Cursor.Reads.shift (h : c.Reads t d) :
    (c.shift n lines).Reads t (d.shift n lines) := by
  obtain ⟨hrest, hoff, hline⟩ := h
  refine ⟨hrest, ?_, ?_⟩
  · simp only [offset_shift, hoff]
    omega
  · simp only [line_shift, hline]
    omega

theorem Skips.shift (h : Skips o c gap d) : Skips o (c.shift n lines) gap (d.shift n lines) :=
  ⟨h.reads.shift n lines, h.blanks, h.none, h.ahead⟩

theorem Recognises.shift {x : Lexeme} {f : Form} (h : Recognises o d x f t) :
    Recognises o (d.shift n lines) (x.shift n lines) f t :=
  ⟨h.longest, h.reads.shift n lines, h.kind, h.literal, h.missing⟩

theorem Takes.shift {s : Step} (h : Takes o c s) :
    Takes o (c.shift n lines) (s.shift n lines) := by
  cases h with
  | eof hg hd =>
    rw [Step.shift_atEof]
    exact .eof (hg.shift n lines) hd
  | lexeme hg hr =>
    rw [Step.shift_ofLexeme]
    exact .lexeme (hg.shift n lines) (hr.shift n lines)

theorem step_shift (o : Options) (c : Cursor) :
    (c.shift n lines).step o = (c.step o).shift n lines :=
  ((takes_step o c).shift n lines).eq_step

theorem steps_shift (o : Options) (c : Cursor) :
    (c.shift n lines).steps o = (c.steps o).map (Step.shift n lines) := by
  fun_induction steps o c with
  | case1 c s hk =>
    rw [steps, step_shift]
    exact dif_pos hk
  | case2 c s hk ih =>
    rw [steps, step_shift, List.map_cons, ← ih]
    exact dif_neg hk

end Moved

/-! ## Taking up a scan again -/

/-- The tokens of a run that was moved. -/
theorem map_token_shift (n lines : Nat) (ss : List Step) :
    (ss.map (Step.shift n lines)).map (·.token) = (ss.map (·.token)).map (Token.shift n) := by
  rw [List.map_map, List.map_map]
  rfl

theorem flatMap_diagnostics_shift (n lines : Nat) (ss : List Step) :
    (ss.map (Step.shift n lines)).flatMap (·.diagnostics) =
      (ss.flatMap (·.diagnostics)).map (Diagnostic.shift n lines) := by
  rw [List.flatMap_map, List.map_flatMap]
  rfl

/-- What is read from the start of a source leads to the start of the rest, moved by as much. -/
theorem eq_shift_start {source u : Bytes} {c : Cursor} (h : (start source).Reads u c) :
    c = (start (source.drop u.length)).shift u.length (u.count (byte '\n')) := by
  have hsource : source = u ++ c.rest := h.rest
  have hoff := h.offset
  have hline := h.line
  cases c
  simp_all [start, Cursor.shift]

/-- Scanning can be taken up again behind any token, with nothing but the rest of the source. -/
theorem tokenize_restart (source : Bytes) (o : Options) {pre post : List Token} {t : Token}
    (h : (tokenize source o).1 = pre ++ t :: post) (ht : t.kind ≠ .eof) :
    ∃ off : Nat, t.span.stop = off ∧ off ≤ source.length ∧
      post = (tokenize (source.drop off) o).1.map (Token.shift off) ∧
      (tokenize source o).2.filter (fun g => (off : Int) ≤ g.span.start) =
        (tokenize (source.drop off) o).2.map
          (Diagnostic.shift off ((source.take off).count (byte '\n'))) := by
  rw [tokenize_eq] at h
  obtain ⟨pre', rest', hss, rfl, hrest⟩ := List.map_eq_append_iff.1 h
  obtain ⟨s, post', rfl, rfl, rfl⟩ := List.map_eq_cons_iff.1 hrest
  obtain ⟨hpost, hspan, u, hu⟩ := steps_split hss ht
  have hsource : source = u ++ s.stop.rest := hu.rest
  have htake : source.take u.length = u := by rw [hsource, List.take_left]
  have hoff : s.token.span.stop = u.length := by
    have hu' : s.stop.offset = 0 + u.length := hu.offset
    omega
  -- The run behind the token is the run of the rest, moved to its place.
  rw [eq_shift_start hu, steps_shift] at hpost
  have hbehind := filter_diagnostics_behind hss
  rw [hoff, hpost, flatMap_diagnostics_shift] at hbehind
  refine ⟨u.length, hoff, by simp [hsource], ?_, ?_⟩
  · rw [hpost, map_token_shift]
    rfl
  · rw [htake]
    exact hbehind

/-- The cut goes through a truncated character: both of its bytes are stray. -/
theorem tokenize_restart_stray :
    let source := ascii "\n0x" ++ [0xE2, 0x82] ++ ascii "<a"
    let number : Token := ⟨.literal, .int .hexadecimal 2, .absent, ⟨1, 3⟩⟩
    let stray : Token := ⟨.unknown, .empty, .raw [0xE2], ⟨3, 4⟩⟩
    let post := (tokenize source {}).1.drop 2
    (tokenize source {}).1 = [number] ++ stray :: post ∧ stray.kind ≠ .eof ∧
      post = (tokenize (0x82 :: ascii "<a") {}).1.map (Token.shift 4) ∧
      (tokenize source {}).2.filter (fun g => 4 ≤ g.span.start) =
        (tokenize (0x82 :: ascii "<a") {}).2.map (Diagnostic.shift 4 1) := by
  intro source number stray post
  have hk : stray.kind ≠ .eof := by decide
  have h : (tokenize source {}).1 = [number] ++ stray :: post := by decide +kernel
  obtain ⟨off, hoff, -, hpost, hdiagnostics⟩ := tokenize_restart source {} h hk
  obtain rfl : 4 = off := Int.ofNat.inj hoff
  exact ⟨h, hk, hpost, hdiagnostics⟩

end Lexis
