import Lexis.Proofs.Literal.Decoding
import Lexis.Proofs.Scan.Steps

/-!
# Values and reports of tokens

What a token carries and what is reported of it can be told from the token and its source alone:
`Token.valueIn` and `Token.report` do not mention a scan.

* `Recognises.gives`: a value is given by the lexeme, or absent.
* `Recognises.carries`, `carries_steps`: every step has the value and the reports of its token.
* `LongestSpelling.rest_of_missing`: a lexeme that is not closed ends with the text.
* `steps_unterminated`: so only the last report of a run can be of this kind.
-/
namespace Lexis

open Grammar Cursor

/-! ## What belongs to a token -/

namespace Token

/-- The text of a token; empty for a span outside the source. -/
def textIn (source : Bytes) (t : Token) : Bytes := (t.text source).toOption.getD []

/-- The value of a token: none at the end, the decoded one of a literal if there is one, and the
text of any other token. -/
def valueIn (source : Bytes) (t : Token) : Value :=
  if t.kind = .eof then .absent
  else if t.kind = .literal then t.literal.value (t.textIn source)
  else .raw (t.textIn source)

/-- What is reported of a token, and which failure is behind it. -/
def report (source : Bytes) (t : Token) : Option (Tag × Option Cause) :=
  if t.kind = .blockComment then
    if commentClose <:+: (t.textIn source).drop 2 then none
    else some (.unterminatedBlockComment, none)
  else if t.kind = .header then
    if t.span.stop = source.length then some (.unterminatedHeader, none) else none
  else if t.kind = .literal then
    match t.literal.category with
    | .str =>
      if byte '"' ∈ (t.textIn source).drop 1 then none else some (.unterminatedString, none)
    | .int =>
      if t.value = .absent then
        some (.malformedNumber, some (.number (numberError (t.textIn source))))
      else none
    | .float =>
      if t.value = .absent then some (.malformedNumber, some (.number .outOfRange)) else none
    | _ => none
  else none

end Token

/-- A diagnostic without its line, and with its cause in place of the reason. -/
def Diagnostic.summary (d : Diagnostic) : Tag × Span × Option Cause :=
  (d.tag, d.span, d.reason.bind Reason.cause?)

/-- The summaries of what is reported of a token. -/
def Token.reports (source : Bytes) (t : Token) : List (Tag × Span × Option Cause) :=
  (t.report source).toList.map fun r => (r.1, t.span, r.2)

/-! ## The step of a lexeme -/

/-- A literal is a string or a number. -/
theorem Grammar.Spells.literal_cases {o : Options} {f : Form} {t : Bytes} (h : Spells o f t)
    (hk : f.kind = .literal) : f = .str ∨ f.opening = .number := by
  cases h with
  | str | strClosed => exact .inl rfl
  | decimal | float | octal | binary | hexadecimal => exact .inr rfl
  | mark hm =>
    cases hk
    exact absurd (by decide) (kind_of_mem_marks hm)
  | _ => cases hk

/-- The token of a literal carries what decoding returns. -/
theorem Step.value_literal (start stop : Cursor) (l : Literal) :
    (Step.literal start l stop).1.value = l.value (start.textTo stop) := by
  unfold Step.literal
  dsimp only
  split
  · next hd => rw [Literal.value_of_decode hd]
  · next hd => rw [Literal.value_of_decode hd]
  · next hd =>
    rw [Literal.value, hd]
    rfl

namespace Recognises

variable {o : Options} {d : Cursor} {x : Lexeme} {f : Form} {t : Bytes}

/-- The report of a missing closing mark. -/
def unclosed (d : Cursor) (x : Lexeme) (f : Form) (t : Bytes) : List Diagnostic :=
  (f.missing t x.stop.rest).toList.map fun tag => ⟨tag, .of d.offset t, d.line, none⟩

theorem ofLexeme_plain (h : Recognises o d x f t) (hk : f.kind ≠ .literal) :
    Step.ofLexeme d x =
      ⟨⟨f.kind, .empty, .raw t, .of d.offset t⟩, unclosed d x f t, x.stop⟩ := by
  unfold Step.ofLexeme
  dsimp only
  rw [h.kind, if_neg hk, Step.plain, h.reads.textTo_eq, h.spanOf_eq, h.missing]
  rfl

theorem ofLexeme_value (h : Recognises o d x f t) (hk : f.kind = .literal) {v : Value}
    (hv : f.literal.decode t = .ok (v, none)) :
    Step.ofLexeme d x =
      ⟨⟨.literal, f.literal, v, .of d.offset t⟩, unclosed d x f t, x.stop⟩ := by
  unfold Step.ofLexeme Step.literal
  dsimp only
  rw [h.kind, if_pos hk, h.literal, h.reads.textTo_eq, hv, h.spanOf_eq, h.missing,
    List.append_nil]
  rfl

theorem ofLexeme_rejected (h : Recognises o d x f t) (hk : f.kind = .literal) {tag : Tag}
    {r : Reason} (hr : f.literal.decode t = .ok (.absent, some (.tagged tag r))) :
    Step.ofLexeme d x =
      ⟨⟨.literal, f.literal, .absent, .of d.offset t⟩,
        unclosed d x f t ++ [⟨tag, .of d.offset t, d.line, some r⟩], x.stop⟩ := by
  unfold Step.ofLexeme Step.literal
  dsimp only
  rw [h.kind, if_pos hk, h.literal, h.reads.textTo_eq, hr, h.spanOf_eq, h.missing]
  rfl

/-- The value of a token is absent, or given by its lexeme. -/
theorem gives (h : Recognises o d x f t) :
    (Step.ofLexeme d x).token.value = .absent ∨
      f.literal.Gives t (Step.ofLexeme d x).token.value := by
  unfold Step.ofLexeme
  dsimp only
  split
  · dsimp only
    rw [Step.value_literal, h.literal, h.reads.textTo_eq]
    exact f.literal.value_eq_absent_or_gives t
  · rw [Step.plain, h.reads.textTo_eq]
    exact .inr .raw

variable {source : Bytes}

theorem textIn_eq (h : Recognises o d x f t) (hd : d.Inside source) (k : Kind) (l : Literal)
    (v : Value) : Token.textIn source ⟨k, l, v, .of d.offset t⟩ = t := by
  unfold Token.textIn Token.text
  rw [hd.slice_eq h.reads]
  rfl

/-- The lexeme reaches the end of the source iff nothing follows it. -/
theorem stop_eq_length_iff (h : Recognises o d x f t) (hd : d.Inside source) :
    (Span.of d.offset t).stop = source.length ↔ x.stop.rest = [] := by
  have hlen := (hd.reads h.reads).offset_add_length
  rw [h.reads.offset] at hlen
  rw [Span.stop_of, ← List.length_eq_zero_iff]
  omega

/-- Of a token that is no literal the missing closing mark is reported. -/
theorem report_plain (h : Recognises o d x f t) (hd : d.Inside source) (hk : f.kind ≠ .literal) :
    Token.report source ⟨f.kind, .empty, .raw t, .of d.offset t⟩ =
      (f.missing t x.stop.rest).map (·, none) := by
  have hstop := h.stop_eq_length_iff hd
  have hspells := h.longest.spells
  unfold Token.report
  rw [h.textIn_eq hd]
  cases hs : f with
  | blockComment =>
    simp only [Form.kind, Form.missing, if_true]
    by_cases hc : commentClose <:+: t.drop 2
    · rw [if_pos hc, if_pos hc]; rfl
    · rw [if_neg hc, if_neg hc]; rfl
  | header =>
    simp only [Form.kind, Form.missing, hstop, reduceCtorEq, if_true, if_false]
    by_cases hr : x.stop.rest = []
    · rw [if_pos hr, if_pos hr]; rfl
    · rw [if_neg hr, if_neg hr]; rfl
  | mark k =>
    rw [hs] at hspells
    cases hspells with
    | mark hm =>
      have hkind := kind_of_mem_marks hm
      simp only [List.mem_cons, not_or] at hkind
      simp [Form.kind, Form.missing, hkind]
  | whitespace | ident | lineComment | unknown => rfl
  | decimal | float | octal | binary | hexadecimal | str =>
    subst hs
    exact absurd rfl hk

theorem report_str (h : Recognises o d x .str t) (hd : d.Inside source) (v : Value) :
    Token.report source ⟨.literal, .str, v, .of d.offset t⟩ =
      (Form.str.missing t x.stop.rest).map (·, none) := by
  unfold Token.report
  rw [h.textIn_eq hd]
  simp only [Form.missing, Literal.str, reduceCtorEq, if_true, if_false]
  by_cases hq : byte '"' ∈ t.drop 1
  · rw [if_pos hq, if_pos hq]; rfl
  · rw [if_neg hq, if_neg hq]; rfl

/-- Of a number nothing is reported but that it has no value. -/
theorem report_number (h : Recognises o d x f t) (hd : d.Inside source) (hf : f.opening = .number)
    (v : Value) : Token.report source ⟨.literal, f.literal, v, .of d.offset t⟩ =
      if v = .absent then some (.malformedNumber, some (.number (numberError t))) else none := by
  have hspells := h.longest.spells
  unfold Token.report
  rw [h.textIn_eq hd]
  cases hs : f with
  | decimal | octal | binary | hexadecimal => rfl
  | float =>
    rw [hs] at hspells
    rw [hspells.numberError_float]
    rfl
  | _ =>
    subst hs
    cases hf

theorem valueIn_literal (h : Recognises o d x f t) (hd : d.Inside source) (l : Literal)
    (v : Value) :
    Token.valueIn source ⟨.literal, l, v, .of d.offset t⟩ = l.value t := by
  unfold Token.valueIn
  rw [h.textIn_eq hd]
  rfl

theorem valueIn_plain (h : Recognises o d x f t) (hd : d.Inside source) (hk : f.kind ≠ .literal) :
    Token.valueIn source ⟨f.kind, .empty, .raw t, .of d.offset t⟩ = .raw t := by
  unfold Token.valueIn
  rw [h.textIn_eq hd, if_neg h.longest.spells.kind_ne_eof, if_neg hk]

/-- What lacks a closing mark and nothing else is reported as such. -/
theorem summary_unclosed {k : Kind} {l : Literal} {v : Value}
    (h : Token.report source ⟨k, l, v, .of d.offset t⟩ = (f.missing t x.stop.rest).map (·, none)) :
    (unclosed d x f t).map Diagnostic.summary =
      Token.reports source ⟨k, l, v, .of d.offset t⟩ := by
  unfold unclosed Token.reports
  rw [h]
  cases f.missing t x.stop.rest with
  | none => rfl
  | some tag => rfl

theorem unclosed_number (hf : f.opening = .number) : unclosed d x f t = [] := by
  cases f with
  | decimal | float | octal | binary | hexadecimal => rfl
  | _ => cases hf

/-- The step of a lexeme has the value and the reports of its token. -/
theorem carries (h : Recognises o d x f t) (hd : d.Inside source) :
    (Step.ofLexeme d x).token.value = (Step.ofLexeme d x).token.valueIn source ∧
      (Step.ofLexeme d x).diagnostics.map Diagnostic.summary =
        (Step.ofLexeme d x).token.reports source := by
  by_cases hk : f.kind = .literal
  · rcases h.longest.spells.literal_cases hk with rfl | hf
    · have hv : Form.str.literal.decode t = _ := h.longest.spells.decode_str
      rw [h.ofLexeme_value rfl hv]
      dsimp only
      rw [h.valueIn_literal hd, Literal.value_of_decode hv, summary_unclosed (h.report_str hd _)]
      exact ⟨rfl, rfl⟩
    · have hu : unclosed d x f t = [] := unclosed_number hf
      cases h.longest.spells.decodesTo hf with
      | value hv hne =>
        rw [h.ofLexeme_value hk hv]
        dsimp only
        rw [h.valueIn_literal hd, Literal.value_of_decode hv, hu, Token.reports,
          h.report_number hd hf, if_neg hne]
        exact ⟨rfl, rfl⟩
      | rejected hr hc =>
        rw [h.ofLexeme_rejected hk hr]
        dsimp only
        rw [h.valueIn_literal hd, Literal.value_of_decode hr, hu, Token.reports,
          h.report_number hd hf, if_pos rfl]
        refine ⟨rfl, ?_⟩
        simp [Diagnostic.summary, hc]
  · rw [h.ofLexeme_plain hk]
    exact ⟨(h.valueIn_plain hd hk).symm, summary_unclosed (h.report_plain hd hk)⟩

end Recognises

/-! ## Runs -/

/-- A token with its text, its value and its reports. -/
structure Carries (source : Bytes) (s : Step) : Prop where
  text : s.token.text source = .ok (s.token.textIn source)
  value : s.token.value = s.token.valueIn source
  reports : s.diagnostics.map Diagnostic.summary = s.token.reports source

theorem Token.text_eq_textIn {source u : Bytes} {t : Token} (h : t.text source = .ok u) :
    t.text source = .ok (t.textIn source) := by
  unfold textIn
  rw [h]
  rfl

theorem carries_steps {source : Bytes} {o : Options} {c : Cursor} (hc : c.Inside source) :
    ∀ s ∈ c.steps o, Carries source s := by
  revert hc
  refine steps_induction (motive := fun c ss => c.Inside source → ∀ s ∈ ss, Carries source s)
    ?_ ?_ c
  · intro c u d hg _ hc s hs
    obtain rfl := List.mem_singleton.1 hs
    have hd := hc.reads hg.reads
    exact ⟨Token.text_eq_textIn (hd.slice_eq (Reads.refl d)), rfl, rfl⟩
  · intro c u d x f t hg hr ih hc s hs
    have hd := hc.reads hg.reads
    rcases List.mem_cons.1 hs with rfl | hs
    · obtain ⟨hv, hrep⟩ := hr.carries hd
      exact ⟨Token.text_eq_textIn (hr.token_text hd), hv, hrep⟩
    · exact ih (hd.reads hr.reads) s hs

/-! ## Lexemes that are not closed -/

def Tag.isUnterminated (tag : Tag) : Bool :=
  tag = .unterminatedBlockComment || tag = .unterminatedString || tag = .unterminatedHeader

theorem Grammar.Form.isUnterminated_of_missing {f : Form} {t rest : Bytes} {tag : Tag}
    (h : f.missing t rest = some tag) : tag.isUnterminated := by
  unfold Form.missing at h
  split at h
  · split at h <;> cases h
    rfl
  · split at h <;> cases h
    rfl
  · split at h <;> cases h
    rfl
  · cases h

theorem Grammar.LongestSpelling.rest_eq_nil {o : Options} {s rest : Bytes} {f : Form} {t : Bytes}
    (h : LongestSpelling o s f t) (hs : s = t ++ rest)
    (hmore : ∀ b, ∃ f', Spells o f' (t ++ [b])) : rest = [] := by
  cases rest with
  | nil => rfl
  | cons b rest =>
    obtain ⟨f', hf'⟩ := hmore b
    have hle := h.longest f' (t ++ [b]) hf' ⟨rest, by rw [hs, List.append_assoc]; rfl⟩
    simp only [List.length_append, List.length_singleton] at hle
    omega

/-- A comment that is not closed yet goes on with any byte, which may close it. -/
theorem Grammar.spells_blockComment_concat {o : Options} {u : Bytes} (hu : ¬ commentClose <:+: u)
    (b : UInt8) : Spells o .blockComment (byte '/' :: byte '*' :: (u ++ [b])) := by
  by_cases hc : commentClose <:+: u ++ [b]
  · rcases List.infix_concat_iff.1 hc with hsuf | hinf
    · obtain ⟨v, hv⟩ := hsuf
      have hsplit : v ++ [byte '*'] ++ [byte '/'] = u ++ [b] := by
        rw [← hv, List.append_assoc]
        rfl
      obtain ⟨rfl, hb⟩ := List.append_inj' hsplit rfl
      rw [← hv]
      exact .blockCommentClosed hu
    · exact absurd hinf hu
  · exact .blockComment hc

/-- A lexeme without its closing mark can be continued by any byte, so it ends with the text. -/
theorem Grammar.LongestSpelling.rest_of_missing {o : Options} {s rest : Bytes} {f : Form}
    {t : Bytes} {tag : Tag} (h : LongestSpelling o s f t) (hs : s = t ++ rest)
    (hm : f.missing t rest = some tag) : rest = [] := by
  have hspells := h.spells
  cases hspells with
  | str hu =>
    refine h.rest_eq_nil hs fun b => ⟨.str, ?_⟩
    by_cases hb : b = byte '"'
    · subst hb
      exact .strClosed hu
    · exact .str (by simp [hu, Ne.symm hb])
  | strClosed => simp [Form.missing] at hm
  | blockComment hu =>
    exact h.rest_eq_nil hs fun b => ⟨.blockComment, spells_blockComment_concat hu b⟩
  | @blockCommentClosed u =>
    have hc : commentClose <:+: u ++ commentClose := (List.suffix_append u commentClose).isInfix
    simp [Form.missing, hc] at hm
  | header =>
    simp only [Form.missing] at hm
    split at hm
    · next hrest => exact hrest
    · cases hm
  | _ => cases hm

namespace Recognises

variable {o : Options} {d : Cursor} {x : Lexeme} {f : Form} {t : Bytes}

theorem diagnostics_cases (h : Recognises o d x f t) :
    (Step.ofLexeme d x).diagnostics = unclosed d x f t ∨
      ∃ r, (Step.ofLexeme d x).diagnostics =
        [⟨.malformedNumber, .of d.offset t, d.line, some r⟩] := by
  by_cases hk : f.kind = .literal
  · rcases h.longest.spells.literal_cases hk with rfl | hf
    · left
      rw [h.ofLexeme_value rfl h.longest.spells.decode_str]
    · cases h.longest.spells.decodesTo hf with
      | value hv _ =>
        left
        rw [h.ofLexeme_value hk hv]
      | @rejected r hr _ =>
        right
        rw [h.ofLexeme_rejected hk hr, unclosed_number hf]
        exact ⟨r, rfl⟩
  · left
    rw [h.ofLexeme_plain hk]

/-- A report of a missing closing mark is the only one of its step, and the text ends there. -/
theorem unterminated (h : Recognises o d x f t) {g : Diagnostic}
    (hg : g ∈ (Step.ofLexeme d x).diagnostics) (hu : g.tag.isUnterminated) :
    (Step.ofLexeme d x).diagnostics = [g] ∧ g.span = .of d.offset t ∧ x.stop.rest = [] := by
  rcases h.diagnostics_cases with hd | ⟨r, hd⟩
  · rw [hd] at hg ⊢
    unfold unclosed at hg ⊢
    cases hm : f.missing t x.stop.rest with
    | none =>
      rw [hm] at hg
      cases hg
    | some tag =>
      rw [hm] at hg
      obtain rfl := List.mem_singleton.1 hg
      exact ⟨rfl, rfl, h.longest.rest_of_missing h.reads.rest hm⟩
  · rw [hd, List.mem_singleton] at hg
    subst hg
    cases hu

end Recognises

theorem steps_of_rest_nil (o : Options) {c : Cursor} (h : c.rest = []) :
    ∃ d, c.steps o = [.atEof d] := by
  revert h
  refine steps_induction (motive := fun c ss => c.rest = [] → ∃ d, ss = [.atEof d]) ?_ ?_ c
  · intro c u d _ _ _
    exact ⟨d, rfl⟩
  · intro c u d x f t hg hr _ hc
    have hne := hr.longest.spells.ne_nil
    rw [hg.reads.rest, hr.reads.rest] at hc
    simp [hne] at hc

/-- A report of a missing closing mark is the last of a run, and belongs to the token before the
end. -/
theorem steps_unterminated (o : Options) (c : Cursor) (pre : List Diagnostic) (g : Diagnostic)
    (post : List Diagnostic) (h : (c.steps o).flatMap (·.diagnostics) = pre ++ g :: post)
    (hu : g.tag.isUnterminated) :
    post = [] ∧ ∃ body s e, c.steps o = body ++ [s, e] ∧ e.token.kind = .eof ∧
      g.span = s.token.span := by
  revert pre
  refine steps_induction (motive := fun c ss =>
    ∀ pre, ss.flatMap (·.diagnostics) = pre ++ g :: post →
      post = [] ∧ ∃ body s e, ss = body ++ [s, e] ∧ e.token.kind = .eof ∧ g.span = s.token.span)
    ?_ ?_ c
  · intro c u d _ _ pre h
    simp [Step.atEof] at h
  · intro c u d x f t hg hr ih pre h
    rw [List.flatMap_cons] at h
    rcases List.append_eq_append_iff.1 h with ⟨pre', -, hrest⟩ | ⟨own, hown, hrest⟩
    · obtain ⟨hpost, body, s, e, hss, he, hspan⟩ := ih pre' hrest
      exact ⟨hpost, .ofLexeme d x :: body, s, e, by rw [hss]; rfl, he, hspan⟩
    · cases own with
      | nil =>
        obtain ⟨hpost, body, s, e, hss, he, hspan⟩ := ih [] hrest.symm
        exact ⟨hpost, .ofLexeme d x :: body, s, e, by rw [hss]; rfl, he, hspan⟩
      | cons g' own =>
        obtain ⟨rfl, hpost⟩ := List.cons.inj hrest
        obtain ⟨hone, hspan, hend⟩ := hr.unterminated (by rw [hown]; simp) hu
        obtain ⟨e, hsteps⟩ := steps_of_rest_nil o hend
        rw [hone] at hown
        have hnil : own = [] := by
          have hlen := congrArg List.length hown
          simp at hlen
          exact List.length_eq_zero_iff.1 (by omega)
        rw [hsteps, hnil] at hpost
        refine ⟨hpost, [], .ofLexeme d x, .atEof e, by rw [hsteps]; rfl, rfl, ?_⟩
        rw [hspan, hr.token_span]

theorem countP_le_one_of_last {p : Diagnostic → Bool} {l : List Diagnostic}
    (h : ∀ pre g post, l = pre ++ g :: post → p g → post = []) : l.countP p ≤ 1 := by
  induction l with
  | nil => simp
  | cons g l ih =>
    by_cases hg : p g
    · obtain rfl := h [] g l rfl hg
      simp [hg]
    · rw [List.countP_cons_of_neg hg]
      refine ih fun pre g' post hl => h (g :: pre) g' post ?_
      rw [hl, List.cons_append]

/-- Values and diagnostics correspond to the tokens. -/
theorem tokenize_reports (source : Bytes) (o : Options) :
    (∀ t ∈ (tokenize source o).1, t.text source = .ok (t.textIn source) ∧
        t.value = t.valueIn source) ∧
      (tokenize source o).2.map Diagnostic.summary =
        (tokenize source o).1.flatMap (·.reports source) ∧
      (tokenize source o).2.countP (·.tag.isUnterminated) ≤ 1 ∧
      ∀ pre g post, (tokenize source o).2 = pre ++ g :: post → g.tag.isUnterminated →
        post = [] ∧ ∃ body t eof, (tokenize source o).1 = body ++ [t, eof] ∧ eof.kind = .eof ∧
          g.span = t.span := by
  have hcarries := carries_steps (o := o) (inside_start source)
  have hlast := steps_unterminated o (Cursor.start source)
  rw [tokenize_eq]
  refine ⟨?_, ?_, ?_, ?_⟩
  · intro t ht
    obtain ⟨s, hs, rfl⟩ := List.mem_map.1 ht
    exact ⟨(hcarries s hs).text, (hcarries s hs).value⟩
  · rw [List.map_flatMap, List.flatMap_map]
    exact List.flatMap_congr fun s hs => (hcarries s hs).reports
  · exact countP_le_one_of_last fun pre g post h hu => (hlast pre g post h hu).1
  · intro pre g post h hu
    obtain ⟨hpost, body, s, e, hss, he, hspan⟩ := hlast pre g post h hu
    refine ⟨hpost, body.map (·.token), s.token, e.token, ?_, he, hspan⟩
    dsimp only
    rw [hss, List.map_append]
    rfl

/-- A number without digits, and behind it a comment that is not closed. -/
theorem tokenize_reports_comment :
    let source := ascii "0x /*/"
    let r := tokenize source {}
    let number : Diagnostic :=
      ⟨.malformedNumber, ⟨0, 2⟩, 1, some (.badInt [] .hexadecimal .malformed)⟩
    let comment : Diagnostic := ⟨.unterminatedBlockComment, ⟨3, 6⟩, 1, none⟩
    r.2 = [number] ++ comment :: [] ∧ r.2.map Diagnostic.summary = r.1.flatMap (·.reports source) ∧
      ∃ body t eof, r.1 = body ++ [t, eof] ∧ eof.kind = .eof ∧ comment.span = t.span := by
  intro source r number comment
  have hr : r.2 = [number] ++ comment :: [] := by decide +kernel
  obtain ⟨-, hreports, -, hlast⟩ := tokenize_reports source {}
  exact ⟨hr, hreports, (hlast _ _ _ hr rfl).2⟩

end Lexis
