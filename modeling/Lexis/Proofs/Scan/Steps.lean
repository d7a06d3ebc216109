import Lexis.Scan.Scanner
import Lexis.Proofs.Scan.Recognition

/-!
# What a step and a run can be

A step from a cursor skips blanks unless they are tokens, and then either finds the end or takes the
longest lexeme there (`Takes`). Everything about a run follows from this by `steps_induction`; no
later proof looks into `classify` again.

* `takes_step`: every step is of one of the two kinds.
* `steps_induction`: what holds at the end and is kept by each lexeme holds of the whole run.
* `forall_mem_steps`: the same for what is said of each step alone.
* `Scanner.Reachable.scans`: a scanner never leaves its source, however often it is asked.
-/
namespace Lexis

open Grammar Cursor

/-! ## Steps -/

/-- What a step looks at: the text ahead, without the blanks that are skipped. -/
def ahead (o : Options) (s : Bytes) : Bytes := if o.emitWhitespace then s else s.dropWhile blank

/-- Between `c` and `d` lies a gap of blanks, and `d` stands where the next lexeme starts. -/
structure Skips (o : Options) (c : Cursor) (gap : Bytes) (d : Cursor) : Prop where
  reads : c.Reads gap d
  blanks : gap.all blank
  none : o.emitWhitespace → gap = []
  ahead : d.rest = Lexis.ahead o c.rest

/-- The step at the end of the text. -/
def Step.atEof (d : Cursor) : Step := ⟨⟨.eof, .empty, .absent, Step.spanOf d d⟩, [], d⟩

/-- A step: the end behind a gap, or the longest lexeme behind a gap. -/
inductive Takes (o : Options) (c : Cursor) : Step → Prop where
  | eof {gap : Bytes} {d : Cursor} : Skips o c gap d → d.rest = [] → Takes o c (.atEof d)
  | lexeme {gap t : Bytes} {d : Cursor} {x : Lexeme} {f : Form} : Skips o c gap d →
      Recognises o d x f t → Takes o c (.ofLexeme d x)

theorem Skips.refl {o : Options} {c : Cursor} (h : o.emitWhitespace) : Skips o c [] c :=
  ⟨Reads.refl c, rfl, fun _ => rfl, (if_pos h).symm⟩

theorem head?_dropWhile_blank (s : Bytes) : (s.dropWhile blank).head?.any blank = false := by
  have h := List.head?_dropWhile_not blank s
  cases hs : (s.dropWhile blank).head? with
  | none => rfl
  | some b =>
    rw [hs] at h
    exact h

/-- The step at a character that is not blank, or at the end. -/
theorem takes_atLexeme {o : Options} {c d : Cursor} {gap : Bytes} (h : Skips o c gap d)
    (hd : d.rest.head?.any blank = false) : Takes o c (Step.atLexeme o d) := by
  unfold Step.atLexeme
  rw [read_eq]
  split
  · next stop hread =>
    obtain ⟨hp, rfl⟩ := Prod.mk.inj hread
    rw [advance_of_end (peek_eq_none_iff.1 hp)]
    exact .eof h (peek_eq_none_iff.1 hp)
  · next first next hread =>
    obtain ⟨hp, rfl⟩ := Prod.mk.inj hread
    have hb := any_peek uniform_isBlank d
    rw [onByte_isBlank, hd, hp] at hb
    obtain ⟨f, t, hr⟩ := Lexeme.recognises_classify hp hb
    exact .lexeme h hr

theorem takes_step (o : Options) (c : Cursor) : Takes o c (c.step o) := by
  have hr := reads_advanceWhile uniform_isBlank c
  have hrest := rest_advanceWhile uniform_isBlank c
  have hb := any_peek uniform_isBlank c
  rw [onByte_isBlank] at hr hrest hb
  unfold step
  dsimp only
  by_cases he : o.emitWhitespace
  · cases hc : c.peek.any isBlank with
    | true =>
      rw [hc] at hb
      cases hs : c.rest with
      | nil =>
        rw [hs] at hb
        cases hb
      | cons b s =>
        rw [hs] at hb hr
        rw [List.head?_cons, Option.any_some] at hb
        rw [List.takeWhile_cons_of_pos hb.symm] at hr
        have hl := longest_whitespace he hb.symm s
        rw [← hs] at hl
        rw [he, Bool.and_self, if_pos rfl]
        exact .lexeme (x := { kind := .whitespace, stop := c.advanceWhile isBlank }) (Skips.refl he)
          ⟨hl, hr, rfl, rfl, rfl⟩
    | false =>
      rw [hc] at hb
      rw [Bool.and_false, if_neg Bool.false_ne_true, advanceWhile_eq_self hc]
      exact takes_atLexeme (Skips.refl he) hb.symm
  · rw [Bool.eq_false_iff.2 he, Bool.false_and, if_neg Bool.false_ne_true]
    refine takes_atLexeme ⟨hr, List.all_takeWhile, fun h => absurd h he, ?_⟩ ?_
    · rw [hrest, ahead, if_neg he]
    · rw [hrest]
      exact head?_dropWhile_blank c.rest

/-! ## Spans of texts -/

namespace Span

/-- The span of a text at an offset. -/
def of (n : Nat) (u : Bytes) : Span := ⟨n, (n + u.length : Nat)⟩

@[simp] theorem start_of (n : Nat) (u : Bytes) : (of n u).start = n := rfl

@[simp] theorem stop_of (n : Nat) (u : Bytes) : (of n u).stop = (n + u.length : Nat) := rfl

theorem slice_of (a b c : Bytes) : (of a.length b).slice (a ++ (b ++ c)) = .ok b := by
  have h1 : ¬ (of a.length b).stop < 0 := by rw [stop_of]; omega
  have h2 : ¬ ((a ++ (b ++ c)).length : Int) < (of a.length b).stop := by
    rw [stop_of, List.length_append, List.length_append]
    omega
  have h3 : ¬ (of a.length b).start < 0 := by rw [start_of]; omega
  have h4 : ¬ (of a.length b).stop < (of a.length b).start := by rw [stop_of, start_of]; omega
  rw [slice, if_neg h1, if_neg h2, if_neg h3, if_neg h4, start_of, stop_of, Int.toNat_natCast,
    Int.toNat_natCast]
  simp

end Span

/-! ## What the step of a lexeme carries -/

theorem Grammar.Form.literal_eq_empty {f : Form} (h : f.kind ≠ .literal) : f.literal = .empty := by
  cases f with
  | decimal | float | octal | binary | hexadecimal | str => exact absurd rfl h
  | _ => rfl

/-- No mark has the kind of another form, or that of the end. -/
theorem Grammar.kind_of_mem_marks {o : Options} {t : Bytes} {k : Kind} (h : (t, k) ∈ marks o) :
    k ∉ [.eof, .whitespace, .ident, .literal, .lineComment, .blockComment, .header, .unknown] := by
  have key : ∀ c, ∀ m ∈ marks { colonPercent := c }, m.2 ∉
      [.eof, .whitespace, .ident, .literal, .lineComment, .blockComment, .header, .unknown] := by
    decide
  exact key o.colonPercent _ h

theorem Grammar.Spells.kind_ne_eof {o : Options} {f : Form} {t : Bytes} (h : Spells o f t) :
    f.kind ≠ .eof := by
  cases h with
  | mark hm =>
    rintro rfl
    exact kind_of_mem_marks hm (by decide)
  | _ => exact fun h => nomatch h

namespace Step

theorem kind_ofLexeme (d : Cursor) (x : Lexeme) : (ofLexeme d x).token.kind = x.kind := by
  unfold ofLexeme
  dsimp only
  split
  · next h =>
    unfold literal
    dsimp only
    split <;> exact h.symm
  · rfl

theorem span_ofLexeme (d : Cursor) (x : Lexeme) :
    (ofLexeme d x).token.span = spanOf d x.stop := by
  unfold ofLexeme literal
  dsimp only
  split
  · split <;> rfl
  · rfl

theorem literal_ofLexeme (d : Cursor) (x : Lexeme) :
    (ofLexeme d x).token.literal = if x.kind = .literal then x.literal else .empty := by
  unfold ofLexeme literal
  dsimp only
  split
  · split <;> rfl
  · rfl

end Step

namespace Recognises

variable {o : Options} {d : Cursor} {x : Lexeme} {f : Form} {t : Bytes}

theorem token_kind (h : Recognises o d x f t) : (Step.ofLexeme d x).token.kind = f.kind := by
  rw [Step.kind_ofLexeme, h.kind]

theorem token_ne_eof (h : Recognises o d x f t) : (Step.ofLexeme d x).token.kind ≠ .eof := by
  rw [h.token_kind]
  exact h.longest.spells.kind_ne_eof

theorem token_literal (h : Recognises o d x f t) :
    (Step.ofLexeme d x).token.literal = f.literal := by
  rw [Step.literal_ofLexeme, h.kind, h.literal]
  split
  · rfl
  · next hk => exact (Form.literal_eq_empty hk).symm

theorem spanOf_eq (h : Recognises o d x f t) : Step.spanOf d x.stop = .of d.offset t := by
  rw [Step.spanOf, h.reads.offset]
  rfl

theorem token_span (h : Recognises o d x f t) :
    (Step.ofLexeme d x).token.span = .of d.offset t := by
  rw [Step.span_ofLexeme, h.spanOf_eq]

end Recognises

/-! ## Runs -/

/-- What holds at the end and is kept by each lexeme holds of the whole run. -/
theorem steps_induction {o : Options} {motive : Cursor → List Step → Prop}
    (eof : ∀ c gap d, Skips o c gap d → d.rest = [] → motive c [.atEof d])
    (lexeme : ∀ c gap d x f t, Skips o c gap d → Recognises o d x f t →
      motive x.stop (x.stop.steps o) → motive c (.ofLexeme d x :: x.stop.steps o))
    (c : Cursor) : motive c (c.steps o) := by
  fun_induction steps o c with
  | case1 c s hk =>
    have h : Takes o c s := takes_step o c
    generalize s = s' at h hk
    cases h with
    | eof hg hd => exact eof c _ _ hg hd
    | lexeme _ hr => exact absurd hk hr.token_ne_eof
  | case2 c s hk ih =>
    have h : Takes o c s := takes_step o c
    generalize s = s' at h hk ih
    cases h with
    | eof => exact absurd rfl hk
    | lexeme hg hr =>
      rw [Step.stop_ofLexeme] at ih ⊢
      exact lexeme c _ _ _ _ _ hg hr ih

theorem tokenize_eq (source : Bytes) (o : Options) :
    tokenize source o = (((Cursor.start source).steps o).map (·.token),
      ((Cursor.start source).steps o).flatMap (·.diagnostics)) := rfl

/-! ## Cursors in a source -/

namespace Cursor

/-- The cursor stands in the source. -/
def Inside (source : Bytes) (c : Cursor) : Prop := ∃ t, (start source).Reads t c

variable {source : Bytes} {c d : Cursor} {t : Bytes}

theorem inside_start (source : Bytes) : (start source).Inside source := ⟨[], Reads.refl _⟩

theorem Inside.reads (h : c.Inside source) (hr : c.Reads t d) : d.Inside source := by
  obtain ⟨u, hu⟩ := h
  exact ⟨u ++ t, hu.trans hr⟩

/-- The offset counts the bytes behind the cursor. -/
theorem Inside.split (h : c.Inside source) : ∃ u, source = u ++ c.rest ∧ c.offset = u.length := by
  obtain ⟨u, hu⟩ := h
  have hoff : c.offset = 0 + u.length := hu.offset
  exact ⟨u, hu.rest, by omega⟩

theorem Inside.drop_offset (h : c.Inside source) : source.drop c.offset = c.rest := by
  obtain ⟨u, hrest, hoff⟩ := h.split
  rw [hoff, hrest, List.drop_left]

theorem Inside.getElem?_offset (h : c.Inside source) : source[c.offset]? = c.rest.head? := by
  rw [← h.drop_offset, List.head?_drop]

theorem Inside.offset_add_length (h : c.Inside source) :
    c.offset + c.rest.length = source.length := by
  obtain ⟨u, hrest, hoff⟩ := h.split
  rw [hoff, hrest, List.length_append]

theorem Inside.atEnd_iff (h : c.Inside source) : c.atEnd ↔ c.offset = source.length := by
  have hlen := h.offset_add_length
  rw [Lexeme.atEnd_iff, List.eq_nil_iff_length_eq_zero]
  omega

/-- What was read is what the span of the two offsets covers. -/
theorem Inside.slice_eq (h : c.Inside source) (hr : c.Reads t d) :
    (Span.of c.offset t).slice source = .ok t := by
  obtain ⟨u, hrest, hoff⟩ := h.split
  rw [hoff, hrest, hr.rest]
  exact Span.slice_of u t d.rest

end Cursor

/-- The text of a token is the lexeme that was found. -/
theorem Recognises.token_text {o : Options} {d : Cursor} {x : Lexeme} {f : Form} {source t : Bytes}
    (h : Recognises o d x f t) (hd : d.Inside source) :
    (Step.ofLexeme d x).token.text source = .ok t := by
  rw [Token.text, h.token_span]
  exact hd.slice_eq h.reads

/-- What holds at the end and of each lexeme in a source holds of all steps of a run there. -/
theorem forall_mem_steps {source : Bytes} {o : Options} {P : Step → Prop}
    (eof : ∀ d, d.Inside source → P (.atEof d))
    (lexeme : ∀ d x f t, d.Inside source → Recognises o d x f t → P (.ofLexeme d x))
    {c : Cursor} (hc : c.Inside source) : ∀ s ∈ c.steps o, P s := by
  revert hc
  refine steps_induction (motive := fun c ss => c.Inside source → ∀ s ∈ ss, P s) ?_ ?_ c
  · intro c gap d hg _ hc s hs
    rw [List.mem_singleton.1 hs]
    exact eof d (hc.reads hg.reads)
  · intro c gap d x f t hg hr ih hc s hs
    have hd := hc.reads hg.reads
    rcases List.mem_cons.1 hs with rfl | hs
    · exact lexeme d x f t hd hr
    · exact ih (hd.reads hr.reads) s hs

/-! ## Reachable scanners -/

namespace Scanner

/-- The scanners that calls of `next` lead to. -/
inductive Reachable (source : Bytes) (o : Options) : Scanner → Prop where
  | start : Reachable source o (.start source o)
  | next {s : Scanner} : Reachable source o s → Reachable source o s.next.2

/-- What every reachable scanner keeps: its source, its options and its place in the source. -/
structure Scans (source : Bytes) (o : Options) (s : Scanner) : Prop where
  source_eq : s.source = source
  options_eq : s.options = o
  inside : s.cursor.Inside source

variable {source : Bytes} {o : Options} {s : Scanner}

theorem Scans.next (h : Scans source o s) : Scans source o s.next.2 := by
  refine ⟨h.source_eq, h.options_eq, ?_⟩
  have ht := takes_step s.options s.cursor
  unfold Scanner.next
  dsimp only
  generalize s.cursor.step s.options = r at ht
  cases ht with
  | eof hg _ => exact h.inside.reads hg.reads
  | lexeme hg hr =>
    rw [Step.stop_ofLexeme]
    exact (h.inside.reads hg.reads).reads hr.reads

theorem Reachable.scans (h : Reachable source o s) : Scans source o s := by
  induction h with
  | start => exact ⟨rfl, rfl, inside_start source⟩
  | next _ ih => exact ih.next

/-- The next token is the longest lexeme ahead. -/
theorem Reachable.next_longest (h : Reachable source o s) :
    (s.next.1.kind = .eof ↔ ahead o (source.drop s.cursor.offset) = []) ∧
      (ahead o (source.drop s.cursor.offset) ≠ [] → ∃ f t, s.next.1.text source = .ok t ∧
        LongestSpelling o (ahead o (source.drop s.cursor.offset)) f t ∧
        s.next.1.kind = f.kind ∧ s.next.1.literal = f.literal) ∧
      ∀ f f' t, Spells o f t → Spells o f' t → f = f' := by
  have hs := h.scans
  rw [hs.inside.drop_offset]
  have ht := takes_step s.options s.cursor
  unfold Scanner.next
  dsimp only
  rw [hs.options_eq] at ht ⊢
  generalize s.cursor.step o = r at ht
  cases ht with
  | eof hg hd =>
    rw [← hg.ahead]
    exact ⟨⟨fun _ => hd, fun _ => rfl⟩, fun hne => absurd hd hne, fun _ _ _ => Spells.form_unique⟩
  | lexeme hg hr =>
    have hne : ahead o s.cursor.rest ≠ [] := by
      rw [← hg.ahead, hr.reads.rest]
      simp [hr.longest.spells.ne_nil]
    refine ⟨⟨fun hk => absurd hk hr.token_ne_eof, fun hn => absurd hn hne⟩, fun _ => ?_,
      fun _ _ _ => Spells.form_unique⟩
    have hd := hs.inside.reads hg.reads
    exact ⟨_, _, hr.token_text hd, hg.ahead ▸ hr.longest, hr.token_kind, hr.token_literal⟩

/-- A comment that its own opening mark cannot close, behind a skipped blank. -/
theorem next_longest_comment :
    let source := ascii "a /*/*/b"
    let s := (start source {}).next.2
    ahead {} (source.drop s.cursor.offset) = ascii "/*/*/b" ∧
      ∃ f t, s.next.1.text source = .ok t ∧ LongestSpelling {} (ascii "/*/*/b") f t ∧
        s.next.1.kind = f.kind ∧ s.next.1.literal = f.literal := by
  intro source s
  have hr : Reachable source {} s := .next .start
  have ha : ahead {} (source.drop s.cursor.offset) = ascii "/*/*/b" := by decide +kernel
  refine ⟨ha, ?_⟩
  have h := hr.next_longest.2.1
  rw [ha] at h
  exact h (by decide)

end Scanner
end Lexis
