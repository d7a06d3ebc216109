import Lexis.Proofs.Scan.Reports
import Lexis.Proofs.Scan.Runs

/-!
# Lexemes that stand alone

A text that is a lexeme as a whole is scanned as that lexeme and then the end: nothing in it is
longer, and there is nothing to skip before it. So the form of a text is all that has to be known to
scan it, and a lexeme that is cut out of a source is found again. Only a header can notice the cut,
since its closing mark is not a part of it.

* `steps_of_spells`: a text that is a lexeme has one step before the end.
* `tokenize_of_value`, `tokenize_of_rejected`: the scan of a number.
* `Recognises.token_alone`, `Recognises.diagnostics_alone`: that step is the one that was taken in
  the source, moved to the start of the text.
* `filter_diagnostics_at`: the diagnostics of a token can be told by its span.
-/
namespace Lexis

open Grammar Cursor

variable {o : Options} {c d : Cursor} {x : Lexeme} {f : Form} {t : Bytes}

/-! ## Texts that are lexemes -/

/-- The cursor behind a whole text. -/
def Cursor.behind (t : Bytes) : Cursor := ⟨[], t.length, 1 + t.count (byte '\n')⟩

/-- A text as a lexeme. -/
def Lexeme.whole (f : Form) (t : Bytes) : Lexeme :=
  { kind := f.kind, literal := f.literal, stop := .behind t, missing := f.missing t [] }

theorem reads_behind (t : Bytes) : (start t).Reads t (behind t) where
  rest := (List.append_nil t).symm
  offset := (Nat.zero_add t.length).symm
  line := rfl

theorem recognises_whole (h : Spells o f t) : Recognises o (start t) (.whole f t) f t :=
  ⟨.whole h, reads_behind t, rfl, rfl, rfl⟩

theorem Grammar.Spells.emitWhitespace (h : Spells o f t) (hf : f.opening = .blank) :
    o.emitWhitespace := by
  cases h with
  | whitespace he => exact he
  | _ => cases hf

/-- No lexeme starts with a blank where blanks are skipped. -/
theorem Grammar.Spells.ahead_eq (h : Spells o f t) : ahead o t = t := by
  unfold ahead
  by_cases he : o.emitWhitespace
  · rw [if_pos he]
  · rw [if_neg he]
    obtain ⟨b, u, rfl⟩ := List.exists_cons_of_ne_nil h.ne_nil
    apply List.dropWhile_cons_of_neg
    intro hb
    exact he (h.emitWhitespace (h.opening_eq.symm.trans (opening_of_blank hb)))

/-- A text that is a lexeme has one step before the end. -/
theorem steps_of_spells (h : Spells o f t) :
    (start t).steps o = [.ofLexeme (start t) (.whole f t), .atEof (behind t)] := by
  have hskips : Skips o (start t) [] (start t) :=
    ⟨Reads.refl _, rfl, fun _ => rfl, h.ahead_eq.symm⟩
  have hend : (behind t).steps o = [.atEof (behind t)] := steps_of_eof (skips_end o rfl) rfl
  rw [steps_of_lexeme hskips (recognises_whole h)]
  exact congrArg _ hend

/-- The token at the end of a text. -/
def Token.eofOf (u : Bytes) : Token := ⟨.eof, .empty, .absent, ⟨u.length, u.length⟩⟩

theorem Span.of_zero (t : Bytes) : Span.of 0 t = ⟨0, t.length⟩ := by
  rw [Span.of, Nat.zero_add]
  rfl

theorem Grammar.Form.kind_of_number (hf : f.opening = .number) : f.kind = .literal := by
  cases f with
  | decimal | float | octal | binary | hexadecimal => rfl
  | _ => cases hf

/-- A number that has a value is scanned without a report. -/
theorem tokenize_of_value (h : Spells o f t) (hf : f.opening = .number) {v : Value}
    (hv : f.literal.decode t = .ok (v, none)) :
    tokenize t o = ([⟨.literal, f.literal, v, ⟨0, t.length⟩⟩, .eofOf t], []) := by
  have hw := recognises_whole h
  rw [tokenize_eq, steps_of_spells h, hw.ofLexeme_value (Form.kind_of_number hf) hv,
    Recognises.unclosed_number hf, ← Span.of_zero]
  rfl

/-- A number that is rejected is scanned without a value, and that is all that is reported. -/
theorem tokenize_of_rejected (h : Spells o f t) (hf : f.opening = .number) {tag : Tag}
    {r : Reason} (hr : f.literal.decode t = .ok (.absent, some (.tagged tag r))) :
    tokenize t o = ([⟨.literal, f.literal, .absent, ⟨0, t.length⟩⟩, .eofOf t],
      [⟨tag, ⟨0, t.length⟩, 1, some r⟩]) := by
  have hw := recognises_whole h
  rw [tokenize_eq, steps_of_spells h, hw.ofLexeme_rejected (Form.kind_of_number hf) hr,
    Recognises.unclosed_number hf, ← Span.of_zero]
  rfl

/-! ## Lexemes cut out of a source -/

/-- The same token where its text stands alone. -/
def Token.alone (u : Bytes) (t : Token) : Token := { t with span := .of 0 u }

/-- The same diagnostic where the text of its token stands alone. -/
def Diagnostic.alone (u : Bytes) (g : Diagnostic) : Diagnostic :=
  { g with span := .of 0 u, line := 1 }

/-- A literal has a value, or it is rejected for a reason. -/
theorem Grammar.Spells.decode_cases (h : Spells o f t) (hk : f.kind = .literal) :
    (∃ v, f.literal.decode t = .ok (v, none)) ∨
      ∃ tag r, f.literal.decode t = .ok (.absent, some (.tagged tag r)) := by
  rcases h.literal_cases hk with rfl | hf
  · exact .inl ⟨_, h.decode_str⟩
  · cases h.decodesTo hf with
    | value hv _ => exact .inl ⟨_, hv⟩
    | rejected hr _ => exact .inr ⟨_, _, hr⟩

/-- What is missing where nothing follows: what was missing before, and the closing mark of a header
that stood before it. -/
theorem Grammar.Spells.missing_nil (h : Spells o f t) (rest : Bytes) :
    (f.missing t []).toList = (f.missing t rest).toList ++
      if f.kind = .header ∧ f.missing t rest = none then [.unterminatedHeader] else [] := by
  cases h with
  | header => cases rest <;> simp [Form.missing, Form.kind]
  | mark hm =>
    have hkind := kind_of_mem_marks hm
    simp only [List.mem_cons, not_or] at hkind
    simp [Form.missing, Form.kind, hkind]
  | _ => simp [Form.missing, Form.kind]

namespace Recognises

/-- A lexeme that is cut out gives the same token. -/
theorem token_alone (h : Recognises o d x f t) :
    (Step.ofLexeme (start t) (.whole f t)).token = (Step.ofLexeme d x).token.alone t := by
  have hw := recognises_whole h.longest.spells
  by_cases hk : f.kind = .literal
  · rcases h.longest.spells.decode_cases hk with ⟨v, hv⟩ | ⟨tag, r, hr⟩
    · rw [h.ofLexeme_value hk hv, hw.ofLexeme_value hk hv]
      rfl
    · rw [h.ofLexeme_rejected hk hr, hw.ofLexeme_rejected hk hr]
      rfl
  · rw [h.ofLexeme_plain hk, hw.ofLexeme_plain hk]
    rfl

/-- The diagnostic of a header behind which its closing mark was cut off. -/
def cutOff (x : Lexeme) (f : Form) (t : Bytes) : List Diagnostic :=
  if f.kind = .header ∧ f.missing t x.stop.rest = none then
    [⟨.unterminatedHeader, .of 0 t, 1, none⟩]
  else []

theorem unclosed_alone (h : Recognises o d x f t) :
    unclosed (start t) (.whole f t) f t =
      (unclosed d x f t).map (Diagnostic.alone t) ++ cutOff x f t := by
  have hmissing := h.longest.spells.missing_nil x.stop.rest
  have hrest : (Lexeme.whole f t).stop.rest = [] := rfl
  unfold unclosed cutOff
  rw [hrest, hmissing, List.map_append, List.map_map]
  split <;> rfl

/-- A lexeme that is cut out keeps its diagnostics, and a header is then not closed. -/
theorem diagnostics_alone (h : Recognises o d x f t) :
    (Step.ofLexeme (start t) (.whole f t)).diagnostics =
      (Step.ofLexeme d x).diagnostics.map (Diagnostic.alone t) ++ cutOff x f t := by
  have hw := recognises_whole h.longest.spells
  by_cases hk : f.kind = .literal
  · rcases h.longest.spells.decode_cases hk with ⟨v, hv⟩ | ⟨tag, r, hr⟩
    · rw [h.ofLexeme_value hk hv, hw.ofLexeme_value hk hv]
      exact h.unclosed_alone
    · have hcut : cutOff x f t = [] := if_neg (by simp [hk])
      rw [h.ofLexeme_rejected hk hr, hw.ofLexeme_rejected hk hr]
      rw [h.unclosed_alone, hcut, List.append_nil, List.append_nil, List.map_append]
      rfl
  · rw [h.ofLexeme_plain hk, hw.ofLexeme_plain hk]
    exact h.unclosed_alone

/-- A header lacks no closing mark iff that is not reported. -/
theorem missing_header_iff (h : Recognises o d x f t) (hk : f.kind = .header) :
    f.missing t x.stop.rest = none ↔
      ∀ g ∈ (Step.ofLexeme d x).diagnostics, g.tag ≠ .unterminatedHeader := by
  have hspells := h.longest.spells
  rw [h.ofLexeme_plain (by simp [hk])]
  unfold unclosed
  cases hspells with
  | header => cases x.stop.rest <;> simp [Form.missing]
  | mark hm => exact absurd (by simp [← hk, Form.kind]) (kind_of_mem_marks hm)
  | _ => cases hk

theorem cutOff_eq (h : Recognises o d x f t) :
    cutOff x f t = if (Step.ofLexeme d x).token.kind = .header ∧
      ∀ g ∈ (Step.ofLexeme d x).diagnostics, g.tag ≠ .unterminatedHeader then
        [⟨.unterminatedHeader, .of 0 t, 1, none⟩] else [] := by
  rw [h.token_kind]
  by_cases hk : f.kind = .header
  · simp only [cutOff, hk, true_and, h.missing_header_iff hk]
  · simp only [cutOff, hk, false_and]

end Recognises

/-- The diagnostics with the span of a token are its own. -/
theorem filter_diagnostics_at {pre post : List Step} {s : Step}
    (h : c.steps o = pre ++ s :: post) :
    ((c.steps o).flatMap (·.diagnostics)).filter (·.span = s.token.span) = s.diagnostics := by
  have hcut : c.steps o = (pre ++ [s]) ++ post := by simp [h]
  have hplaced := (placed_of_split h).2 s (by simp)
  have hpre : (pre.flatMap (·.diagnostics)).filter (·.span = s.token.span) = [] := by
    apply filter_diagnostics_eq_nil
    intro s' hs' g hg
    exact decide_eq_false ((apart_of_split h hs' (by simp)).1 g hg)
  have hpost : (post.flatMap (·.diagnostics)).filter (·.span = s.token.span) = [] := by
    apply filter_diagnostics_eq_nil
    intro s' hs' g hg
    exact decide_eq_false ((apart_of_split hcut (by simp) hs').2 g hg)
  have hown : s.diagnostics.filter (·.span = s.token.span) = s.diagnostics := by
    rw [List.filter_eq_self]
    intro g hg
    exact decide_eq_true (hplaced.span_eq g hg)
  rw [h, List.flatMap_append, List.flatMap_cons, List.filter_append, List.filter_append, hpre,
    hpost, hown]
  simp

/-- What the scan of a text gives that was the lexeme of a step. -/
structure Step.Again (o : Options) (s : Step) (u : Bytes) : Prop where
  tokens : (tokenize u o).1 = [s.token.alone u, .eofOf u]
  diagnostics : (tokenize u o).2 = s.diagnostics.map (Diagnostic.alone u) ++
    if s.token.kind = .header ∧ ∀ g ∈ s.diagnostics, g.tag ≠ .unterminatedHeader then
      [⟨.unterminatedHeader, .of 0 u, 1, none⟩] else []

theorem Recognises.again (h : Recognises o d x f t) : (Step.ofLexeme d x).Again o t := by
  have hsteps := steps_of_spells h.longest.spells
  constructor
  · rw [tokenize_eq, hsteps, ← h.token_alone]
    rfl
  · rw [tokenize_eq, hsteps, ← h.cutOff_eq, ← h.diagnostics_alone]
    exact List.append_nil _

theorem again_steps {source : Bytes} (hc : c.Inside source) :
    ∀ s ∈ c.steps o, s.token.kind ≠ .eof → ∃ u, s.token.text source = .ok u ∧ s.Again o u := by
  apply forall_mem_steps (P := fun s => s.token.kind ≠ .eof →
    ∃ u, s.token.text source = .ok u ∧ s.Again o u) _ _ hc
  · intro d _ hk
    exact absurd rfl hk
  · intro d x f t hd hr _
    exact ⟨t, hr.token_text hd, hr.again⟩

/-- Every lexeme is scanned again as itself where it stands alone. -/
theorem tokenize_text (source : Bytes) (o : Options) {t : Token} (ht : t ∈ (tokenize source o).1)
    (hk : t.kind ≠ .eof) :
    let own := (tokenize source o).2.filter (·.span = t.span)
    ∃ u, t.text source = .ok u ∧ (tokenize u o).1 = [t.alone u, .eofOf u] ∧
      (tokenize u o).2 = own.map (Diagnostic.alone u) ++
        if t.kind = .header ∧ ∀ g ∈ own, g.tag ≠ .unterminatedHeader then
          [⟨.unterminatedHeader, .of 0 u, 1, none⟩] else [] := by
  intro own
  obtain ⟨s, hs, rfl⟩ := List.mem_map.1 ht
  obtain ⟨pre, post, hss⟩ := List.append_of_mem hs
  obtain ⟨u, hu, htokens, hdiagnostics⟩ := again_steps (inside_start source) s hs hk
  have hown : own = s.diagnostics := filter_diagnostics_at hss
  rw [hown]
  exact ⟨u, hu, htokens, hdiagnostics⟩

/-- A header loses the mark that closes it, and a truncated character in it is no matter. -/
theorem tokenize_text_header :
    let source := ascii "\n<a" ++ [0xE2, 0x82] ++ ascii ">"
    let text := ascii "<a" ++ [0xE2, 0x82]
    let header : Token := ⟨.header, .empty, .raw text, ⟨1, 5⟩⟩
    header ∈ (tokenize source {}).1 ∧ (tokenize source {}).2 = [] ∧
      header.text source = .ok text ∧ (tokenize text {}).1 = [header.alone text, .eofOf text] ∧
      (tokenize text {}).2 = [⟨.unterminatedHeader, ⟨0, 4⟩, 1, none⟩] := by
  intro source text header
  have hmem : header ∈ (tokenize source {}).1 := by decide +kernel
  have hnone : (tokenize source {}).2 = [] := by decide +kernel
  have htext : header.text source = .ok text := by decide +kernel
  obtain ⟨u, hu, htokens, hdiagnostics⟩ := tokenize_text source {} hmem (by decide)
  obtain rfl : text = u := Except.ok.inj (htext.symm.trans hu)
  rw [hnone] at hdiagnostics
  exact ⟨hmem, hnone, htext, htokens, hdiagnostics⟩

end Lexis
