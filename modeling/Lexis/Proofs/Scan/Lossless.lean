import Lexis.Proofs.Scan.Steps

/-!
# Nothing is lost

The tokens of a source lie in it one behind another, with blanks between them at most (`Laid`). All
that is said about their spans follows by induction along the tokens.

* `laid_tokenize`: the tokens of every source are laid out so.
* `Laid.length_le`, `Laid.bounds`, `Laid.pairwise`: their number, their bounds and their order.
* `Laid.gap_slice`: what lies between them.
* `Laid.covered_once`, `Laid.mapM_text`: with whitespace as tokens, nothing lies between them.
-/
namespace Lexis

open Grammar Cursor

/-! ## Layouts -/

/-- What may stand between two tokens: blanks, and nothing at all where blanks are tokens. -/
structure Gap (o : Options) (u : Bytes) : Prop where
  blanks : u.all blank
  none : o.emitWhitespace → u = []

/-- The tokens lie one behind another in a text whose first byte has the offset `n`, and the last
one stands at its end. -/
inductive Laid (o : Options) : Nat → Bytes → List Token → Prop where
  | eof {n : Nat} {u : Bytes} {t : Token} : Gap o u → t.kind = .eof →
      t.span = .of (n + u.length) [] → Laid o n u [t]
  | token {n : Nat} {u w s : Bytes} {t : Token} {ts : List Token} : Gap o u → t.kind ≠ .eof →
      w ≠ [] → t.span = .of (n + u.length) w →
      Laid o (n + u.length + w.length) s ts → Laid o n (u ++ (w ++ s)) (t :: ts)

theorem Skips.gap {o : Options} {c d : Cursor} {u : Bytes} (h : Skips o c u d) : Gap o u :=
  ⟨h.blanks, h.none⟩

theorem laid_steps (o : Options) (c : Cursor) :
    Laid o c.offset c.rest ((c.steps o).map (·.token)) := by
  refine steps_induction (motive := fun c ss => Laid o c.offset c.rest (ss.map (·.token)))
    ?_ ?_ c
  · intro c u d hg hd
    have hrest := hg.reads.rest
    rw [hd, List.append_nil] at hrest
    rw [hrest]
    refine .eof hg.gap rfl ?_
    rw [← hg.reads.offset]
    rfl
  · intro c u d x f w hg hr ih
    rw [List.map_cons, hg.reads.rest, hr.reads.rest]
    rw [hr.reads.offset, hg.reads.offset] at ih
    refine .token hg.gap hr.token_ne_eof hr.longest.spells.ne_nil ?_ ih
    rw [hr.token_span, hg.reads.offset]

theorem laid_tokenize (source : Bytes) (o : Options) : Laid o 0 source (tokenize source o).1 :=
  laid_steps o (Cursor.start source)

namespace Laid

variable {o : Options} {n : Nat} {s : Bytes} {ts : List Token}

theorem length_le (h : Laid o n s ts) : ts.length ≤ s.length + 1 := by
  induction h with
  | eof => simp
  | @token n u w s t ts _ _ hw _ _ ih =>
    have hpos := List.length_pos_iff.2 hw
    simp only [List.length_cons, List.length_append]
    omega

/-- The last token is the end, and the others lie in the text and are not empty. -/
theorem bounds (h : Laid o n s ts) :
    ∃ (body : List Token) (eof : Token), ts = body ++ [eof] ∧ eof.kind = .eof ∧
      eof.span = .of (n + s.length) [] ∧
      ∀ t ∈ body, t.kind ≠ .eof ∧ (n : Int) ≤ t.span.start ∧ t.span.start < t.span.stop ∧
        t.span.stop ≤ n + s.length := by
  induction h with
  | @eof n u t _ hk hspan => exact ⟨[], t, rfl, hk, hspan, by simp⟩
  | @token n u w s t ts _ hk hw hspan _ ih =>
    obtain ⟨body, eof, rfl, hek, hes, hbody⟩ := ih
    have hpos := List.length_pos_iff.2 hw
    refine ⟨t :: body, eof, rfl, hek, ?_, ?_⟩
    · rw [hes]
      simp only [List.length_append, Nat.add_assoc]
    · intro t' ht'
      rw [List.length_append, List.length_append]
      rcases List.mem_cons.1 ht' with rfl | ht'
      · simp only [hspan, Span.start_of, Span.stop_of]
        refine ⟨hk, ?_, ?_, ?_⟩ <;> omega
      · obtain ⟨h1, h2, h3, h4⟩ := hbody t' ht'
        refine ⟨h1, ?_, h3, ?_⟩ <;> omega

theorem le_start (h : Laid o n s ts) : ∀ t ∈ ts, (n : Int) ≤ t.span.start := by
  obtain ⟨body, eof, rfl, -, hes, hbody⟩ := h.bounds
  intro t ht
  rcases List.mem_append.1 ht with ht | ht
  · exact (hbody t ht).2.1
  · obtain rfl := List.mem_singleton.1 ht
    simp only [hes, Span.start_of]
    omega

/-- Each token ends before the later ones start. -/
theorem pairwise (h : Laid o n s ts) : ts.Pairwise fun t t' => t.span.stop ≤ t'.span.start := by
  induction h with
  | eof => simp
  | token _ _ _ hspan hts ih =>
    refine List.Pairwise.cons ?_ ih
    rw [hspan]
    exact hts.le_start

end Laid

/-! ## Between the tokens -/

/-- The spans before the first token and between each two, from an offset on. -/
def gaps : Int → List Token → List Span
  | _, [] => []
  | n, t :: ts => ⟨n, t.span.start⟩ :: gaps t.span.stop ts

/-- Whether the byte at an offset belongs to a span. -/
def Span.covers (s : Span) (k : Nat) : Bool := s.start ≤ k && k < s.stop

namespace Laid

variable {o : Options} {s : Bytes} {ts : List Token}

/-- Before each token lies a gap. -/
theorem gap_slice (pre : Bytes) (h : Laid o pre.length s ts) :
    ∀ g ∈ gaps pre.length ts, ∃ u, g.slice (pre ++ s) = .ok u ∧ Gap o u := by
  generalize hn : pre.length = n at h
  induction h generalizing pre with
  | @eof n u t hu _ hspan =>
    subst hn
    intro g hg
    simp only [gaps, List.mem_singleton, hspan, Span.start_of] at hg
    have hs := Span.slice_of pre u []
    rw [List.append_nil] at hs
    rw [hg]
    exact ⟨u, hs, hu⟩
  | @token n u w s t ts hu _ _ hspan _ ih =>
    subst hn
    intro g hg
    simp only [gaps, List.mem_cons, hspan, Span.start_of, Span.stop_of] at hg
    rcases hg with rfl | hg
    · exact ⟨u, Span.slice_of pre u (w ++ s), hu⟩
    · have hlen : (pre ++ u ++ w).length = pre.length + u.length + w.length := by
        simp only [List.length_append]
      have := ih (pre ++ u ++ w) hlen g hg
      simpa only [List.append_assoc] using this

/-- Where blanks are tokens, each offset lies in exactly one token. -/
theorem covered_once {n k : Nat} (h : Laid o n s ts) (he : o.emitWhitespace) (hn : n ≤ k)
    (hk : k < n + s.length) : ts.countP (·.span.covers k) = 1 := by
  induction h with
  | eof hu =>
    rw [hu.none he, List.length_nil] at hk
    omega
  | @token n u w s t ts hu _ _ hspan hts ih =>
    rw [hu.none he, List.length_nil, Nat.add_zero] at hspan hts ih
    rw [hu.none he, List.nil_append, List.length_append] at hk
    rw [List.countP_cons]
    simp only [hspan, Span.covers, Span.start_of, Span.stop_of, Bool.and_eq_true,
      decide_eq_true_eq]
    by_cases hin : k < n + w.length
    · have hlater : ts.countP (·.span.covers k) = 0 := by
        rw [List.countP_eq_zero]
        intro t' ht' hcov
        have := hts.le_start t' ht'
        simp only [Span.covers, Bool.and_eq_true, decide_eq_true_eq] at hcov
        omega
      simp only [Span.covers] at hlater
      rw [hlater, if_pos (by omega)]
    · have hlater := ih (by omega) (by omega)
      simp only [Span.covers] at hlater
      rw [hlater, if_neg (by omega)]

/-- Where blanks are tokens, the texts of the tokens make up the whole text. -/
theorem mapM_text (pre : Bytes) (h : Laid o pre.length s ts) (he : o.emitWhitespace) :
    ∃ texts, ts.mapM (·.text (pre ++ s)) = .ok texts ∧ texts.flatten = s := by
  generalize hn : pre.length = n at h
  induction h generalizing pre with
  | @eof n u t hu _ hspan =>
    subst hn
    obtain rfl := hu.none he
    have hs := Span.slice_of pre [] []
    refine ⟨[[]], ?_, rfl⟩
    simp only [List.append_nil, List.length_nil, Nat.add_zero] at hs hspan ⊢
    rw [List.mapM_cons, Token.text, hspan, hs]
    rfl
  | @token n u w s t ts hu _ _ hspan _ ih =>
    subst hn
    obtain rfl := hu.none he
    obtain ⟨texts, htexts, rfl⟩ := ih (pre ++ w) (by simp)
    have hs := Span.slice_of pre w texts.flatten
    refine ⟨w :: texts, ?_, rfl⟩
    simp only [List.append_assoc, List.length_nil, Nat.add_zero, List.nil_append] at htexts hspan ⊢
    rw [List.mapM_cons, Token.text, hspan, hs, htexts]
    rfl

end Laid

/-! ## Whole sources -/

/-- Scanning is total and loses nothing. -/
theorem tokenize_lossless (source : Bytes) (o : Options) :
    (tokenize source o).1.length ≤ source.length + 1 ∧
      (∃ (body : List Token) (eof : Token), (tokenize source o).1 = body ++ [eof] ∧
        eof.kind = .eof ∧
        eof.span = ⟨source.length, source.length⟩ ∧
        ∀ t ∈ body, t.kind ≠ .eof ∧ 0 ≤ t.span.start ∧ t.span.start < t.span.stop ∧
          t.span.stop ≤ source.length) ∧
      ((tokenize source o).1.Pairwise fun t t' => t.span.stop ≤ t'.span.start) ∧
      (∀ g ∈ gaps 0 (tokenize source o).1, ∃ u, g.slice source = .ok u ∧ u.all blank) ∧
      (o.emitWhitespace →
        (∀ g ∈ gaps 0 (tokenize source o).1, g.slice source = .ok []) ∧
        (∀ k < source.length, (tokenize source o).1.countP (·.span.covers k) = 1) ∧
        ∃ texts, (tokenize source o).1.mapM (·.text source) = .ok texts ∧
          texts.flatten = source) := by
  have h := laid_tokenize source o
  have hgap : ∀ g ∈ gaps 0 (tokenize source o).1, ∃ u, g.slice source = .ok u ∧ Gap o u :=
    Laid.gap_slice [] h
  refine ⟨h.length_le, ?_, h.pairwise, ?_, ?_⟩
  · have hb := h.bounds
    simpa [Span.of] using hb
  · intro g hg
    obtain ⟨u, hu, hblank⟩ := hgap g hg
    exact ⟨u, hu, hblank.blanks⟩
  · intro he
    refine ⟨?_, ?_, Laid.mapM_text [] h he⟩
    · intro g hg
      obtain ⟨u, hu, hblank⟩ := hgap g hg
      rw [hu, hblank.none he]
    · intro k hk
      exact h.covered_once he (Nat.zero_le k) (by omega)

/-- A stray byte, blanks and a string without a closing quote. -/
theorem tokenize_lossless_stray :
    let source := 0xFF :: ascii "\t \"a\n"
    let tokens := (tokenize source { emitWhitespace := true }).1
    tokens.length ≤ 7 ∧
      ∃ texts, tokens.mapM (·.text source) = .ok texts ∧ texts.flatten = source := by
  intro source tokens
  have h := tokenize_lossless source { emitWhitespace := true }
  exact ⟨h.1, (h.2.2.2.2 rfl).2.2⟩

end Lexis
