import Lexis.Proofs.Scan.Prefixes
import Lexis.Proofs.Scan.Reports
import Lexis.Proofs.Scan.Restart

/-!
# Texts that go on

What happens to a run when more text stands behind its source (`extend`)? A step whose lexeme stays
the longest one is taken again, with the same token and the same diagnostics (`steps_extend`). The
grammar tells which steps these are: in a valid text all but the last one, and before a line end
also the last one if no closing mark is missing.

* `steps_append`: appending text changes the last lexeme at most.
* `steps_lineEnd`: text behind a line end is scanned as if it stood alone.
-/
namespace Lexis

open Grammar Cursor

/-! ## More text behind a cursor -/

def Cursor.extend (more : Bytes) (c : Cursor) : Cursor := { c with rest := c.rest ++ more }

def Lexeme.extend (more : Bytes) (x : Lexeme) : Lexeme := { x with stop := x.stop.extend more }

def Step.extend (more : Bytes) (s : Step) : Step := { s with stop := s.stop.extend more }

variable {o : Options} {c d : Cursor} {x : Lexeme} {f : Form} {t gap more : Bytes}

@[simp] theorem Cursor.rest_extend : (c.extend more).rest = c.rest ++ more := rfl

theorem Cursor.Reads.extend (more : Bytes) (h : c.Reads t d) :
    (c.extend more).Reads t (d.extend more) :=
  ⟨by simp [h.rest], h.offset, h.line⟩

theorem Skips.extend (more : Bytes) (h : Skips o c gap d) (hd : d.rest ≠ []) :
    Skips o (c.extend more) gap (d.extend more) := by
  refine ⟨h.reads.extend more, h.blanks, h.none, ?_⟩
  have hahead := h.ahead
  unfold Lexis.ahead at hahead ⊢
  by_cases he : o.emitWhitespace
  · simp_all
  · simp only [he, Bool.false_eq_true, if_false, rest_extend] at hahead ⊢
    rw [List.dropWhile_append, ← hahead]
    simp [hd]

/-- More text changes what is missing only where the lexeme was the end of the text. -/
theorem Grammar.Form.missing_append {rest : Bytes} (h : rest = [] → f.missing t rest = none)
    (more : Bytes) : f.missing t (rest ++ more) = f.missing t rest := by
  cases f with
  | header =>
    cases rest with
    | nil => simp [Form.missing] at h
    | cons b rest => rfl
  | _ => rfl

/-- The lexeme stays the same where it stays the longest one. -/
theorem Recognises.extend (h : Recognises o d x f t)
    (hl : LongestSpelling o (d.rest ++ more) f t)
    (hm : x.stop.rest = [] → f.missing t x.stop.rest = none) :
    Recognises o (d.extend more) (x.extend more) f t := by
  refine ⟨hl, h.reads.extend more, h.kind, h.literal, ?_⟩
  exact h.missing.trans (Form.missing_append hm more).symm

theorem Recognises.ofLexeme_extend (h : Recognises o d x f t) :
    Step.ofLexeme (d.extend more) (x.extend more) = (Step.ofLexeme d x).extend more := by
  have htext : (d.extend more).textTo (x.stop.extend more) = d.textTo x.stop := by
    rw [(h.reads.extend more).textTo_eq, h.reads.textTo_eq]
  unfold Step.ofLexeme Step.literal Step.plain
  by_cases hk : x.kind = .literal
  · simp only [Lexeme.extend, hk, if_true, htext, Step.extend]
    rfl
  · simp only [Lexeme.extend, hk, if_false, htext, Step.extend]
    rfl

/-- A step whose lexeme stays the longest one is taken again. -/
theorem steps_extend (hg : Skips o c gap d) (hr : Recognises o d x f t)
    (hl : LongestSpelling o (d.rest ++ more) f t)
    (hm : x.stop.rest = [] → f.missing t x.stop.rest = none) :
    (c.extend more).steps o =
      (Step.ofLexeme d x).extend more :: (x.stop.extend more).steps o := by
  rw [steps_of_lexeme (hg.extend more hr.rest_ne_nil) (hr.extend hl hm), hr.ofLexeme_extend]
  rfl

theorem map_token_extend (ss : List Step) :
    (ss.map (Step.extend more)).map (·.token) = ss.map (·.token) := by
  rw [List.map_map]
  rfl

theorem flatMap_diagnostics_extend (ss : List Step) :
    (ss.map (Step.extend more)).flatMap (·.diagnostics) = ss.flatMap (·.diagnostics) := by
  rw [List.flatMap_map]
  rfl

/-! ## Appending to a valid text -/

/-- Behind all but the last lexeme of a valid text, appended text changes nothing. -/
theorem steps_append (pre : Bytes) (hv : Utf8.valid (pre ++ c.rest)) {body : List Step}
    {last eof : Step} (h : c.steps o = body ++ [last, eof]) (more : Bytes) :
    ∃ after, (c.extend more).steps o = body.map (Step.extend more) ++ after := by
  revert pre body
  refine steps_induction (motive := fun c ss => ∀ pre : Bytes, Utf8.valid (pre ++ c.rest) →
    ∀ {body : List Step}, ss = body ++ [last, eof] →
      ∃ after, (c.extend more).steps o = body.map (Step.extend more) ++ after) ?_ ?_ c
  · intro c gap d _ _ pre _ body h
    have hlen := congrArg List.length h
    simp at hlen
  · intro c gap d x f t hg hr ih pre hv body h
    cases body with
    | nil => exact ⟨_, rfl⟩
    | cons s body =>
      obtain ⟨rfl, hss⟩ := List.cons.inj h
      rw [hg.reads.rest, ← List.append_assoc] at hv
      -- Another lexeme follows, so this one ends before the text does.
      have hrest : x.stop.rest ≠ [] := by
        intro hnil
        obtain ⟨e, he⟩ := steps_of_rest_nil o hnil
        have hlen := congrArg List.length (he.symm.trans hss)
        simp at hlen
      have hne : t ≠ d.rest := by
        rw [hr.reads.rest]
        simp [hrest]
      obtain ⟨after, hafter⟩ := ih (pre ++ gap ++ t)
        (by rwa [List.append_assoc, ← hr.reads.rest]) hss
      refine ⟨after, ?_⟩
      rw [steps_extend hg hr (hr.longest.append_of_valid hne hv more) fun hnil => absurd hnil hrest,
        hafter]
      rfl

/-- The diagnostics of a run without those of its last lexeme. -/
theorem filter_diagnostics_but_last {body : List Step} {s : Step} {e : Cursor}
    (h : c.steps o = body ++ [s, .atEof e]) :
    ((c.steps o).flatMap (·.diagnostics)).filter (·.span ≠ s.token.span) =
      body.flatMap (·.diagnostics) := by
  have hplaced := (placed_of_split h).2 s (by simp)
  rw [h, List.flatMap_append, List.filter_append, filter_diagnostics_eq_self,
    filter_diagnostics_eq_nil, List.append_nil]
  · intro s' hs' g hg
    rcases List.mem_pair.1 hs' with rfl | rfl
    · simp [hplaced.span_eq g hg]
    · cases hg
  · intro s' hs' g hg
    exact decide_eq_true ((apart_of_split h hs' (by simp)).1 g hg)

/-- Appended text can change only the last lexeme of a valid text. -/
theorem tokenize_append {a : Bytes} (hv : Utf8.valid a) (b : Bytes) (o : Options)
    {init : List Token} {t : Token} (h : (tokenize a o).1.filter (!·.isEof) = init ++ [t]) :
    init <+: (tokenize (a ++ b) o).1 ∧
      (tokenize a o).2.filter (·.span ≠ t.span) <+: (tokenize (a ++ b) o).2 := by
  obtain ⟨body, e, hss, hbody, -⟩ := exists_body o (start a)
  rw [tokenize_eq, filter_isEof hss hbody] at h
  obtain ⟨body, last, rfl, rfl, hlast⟩ := List.map_eq_append_iff.1 h
  obtain ⟨s, rfl, rfl⟩ := List.map_eq_singleton_iff.1 hlast
  have hsplit : (start a).steps o = body ++ [s, .atEof e] := by simp [hss]
  obtain ⟨after, hafter⟩ := steps_append (c := start a) [] hv hsplit b
  have hstart : start (a ++ b) = (start a).extend b := rfl
  rw [tokenize_eq, tokenize_eq, hstart, hafter, filter_diagnostics_but_last hsplit,
    List.map_append, List.flatMap_append, map_token_extend, flatMap_diagnostics_extend]
  exact ⟨List.prefix_append _ _, List.prefix_append _ _⟩

/-- The `<` at the end becomes a header, and all before it stays: the number that lacks its digits
and the character that no token can start with. -/
theorem tokenize_append_less :
    let a := ascii "0x" ++ [0xC3, 0xA9] ++ ascii "<"
    let init : List Token :=
      [⟨.literal, .int .hexadecimal 2, .absent, ⟨0, 2⟩⟩,
        ⟨.unknown, .empty, .raw [0xC3, 0xA9], ⟨2, 4⟩⟩]
    let less : Token := ⟨.lt, .empty, .raw (ascii "<"), ⟨4, 5⟩⟩
    Utf8.valid a ∧ (tokenize a {}).1.filter (!·.isEof) = init ++ [less] ∧
      init <+: (tokenize (a ++ ascii "a>") {}).1 ∧
      (tokenize a {}).2.filter (·.span ≠ less.span) <+: (tokenize (a ++ ascii "a>") {}).2 := by
  intro a init less
  have hv : Utf8.valid a := by decide +kernel
  have h : (tokenize a {}).1.filter (!·.isEof) = init ++ [less] := by decide +kernel
  exact ⟨hv, h, tokenize_append hv (ascii "a>") {} h⟩

/-! ## Behind a line end -/

/-- Blanks that are skipped make no difference to a run. -/
theorem steps_of_blanks {e : Cursor} {u : Bytes} (ho : o.emitWhitespace = false)
    (h : c.Reads u e) (hu : u.all blank) : c.steps o = e.steps o := by
  have hahead : ahead o c.rest = ahead o e.rest := by
    simp only [ahead, ho, Bool.false_eq_true, if_false]
    rw [h.rest, List.dropWhile_append_of_pos (List.all_eq_true.1 hu)]
  have hskips : ∀ {gap d}, Skips o e gap d → Skips o c (u ++ gap) d := by
    intro gap d hg
    refine ⟨h.trans hg.reads, ?_, ?_, ?_⟩
    · simp [hu, hg.blanks]
    · simp [ho]
    · rw [hahead, hg.ahead]
  have ht := takes_step o e
  generalize e.step o = s at ht
  cases ht with
  | eof hg hd => rw [steps_of_eof (hskips hg) hd, steps_of_eof hg hd]
  | lexeme hg hr => rw [steps_of_lexeme (hskips hg) hr, steps_of_lexeme hg hr]

/-- The cursor on the next line, before a text that stands there. -/
def Cursor.onNextLine (text : Bytes) (c : Cursor) : Cursor := ⟨text, c.offset + 1, c.line + 1⟩

theorem reads_onNextLine {e : Cursor} (h : e.rest = []) (text : Bytes) :
    (e.extend (byte '\n' :: text)).Reads [byte '\n'] (e.onNextLine text) :=
  ⟨by simp [h, onNextLine], rfl, rfl⟩

theorem Step.mem_ofLexeme_of_missing {tag : Tag} (h : x.missing = some tag) :
    ⟨tag, spanOf d x.stop, d.line, none⟩ ∈ (ofLexeme d x).diagnostics := by
  unfold ofLexeme
  by_cases hk : x.kind = .literal <;> simp [h, hk]

/-- Where nothing is reported unterminated, no closing mark is missing. -/
theorem Recognises.missing_eq_none (h : Recognises o d x f t)
    (hg : ∀ g ∈ (Step.ofLexeme d x).diagnostics, g.tag.isUnterminated = false) :
    f.missing t x.stop.rest = none := by
  cases hm : f.missing t x.stop.rest with
  | none => rfl
  | some tag =>
    have hno := hg _ (Step.mem_ofLexeme_of_missing (h.missing.trans hm))
    rw [Form.isUnterminated_of_missing hm] at hno
    cases hno

/-- Text behind a line end is scanned as if it stood alone. -/
theorem steps_lineEnd (ho : o.emitWhitespace = false)
    (hclosed : ∀ s ∈ c.steps o, ∀ g ∈ s.diagnostics, g.tag.isUnterminated = false)
    {body : List Step} {e : Cursor} (h : c.steps o = body ++ [.atEof e]) (text : Bytes) :
    (c.extend (byte '\n' :: text)).steps o =
      body.map (Step.extend (byte '\n' :: text)) ++ (e.onNextLine text).steps o := by
  revert hclosed body
  refine steps_induction (motive := fun c ss =>
    (∀ s ∈ ss, ∀ g ∈ s.diagnostics, g.tag.isUnterminated = false) →
      ∀ {body : List Step}, ss = body ++ [.atEof e] → (c.extend (byte '\n' :: text)).steps o =
        body.map (Step.extend (byte '\n' :: text)) ++ (e.onNextLine text).steps o) ?_ ?_ c
  · intro c gap d hg hd _ body h
    cases body with
    | nil =>
      obtain rfl : d = e := congrArg Step.stop (List.cons.inj h).1
      refine steps_of_blanks ho ((hg.reads.extend _).trans (reads_onNextLine hd text)) ?_
      rw [List.all_append, hg.blanks]
      rfl
    | cons s body => simp at h
  · intro c gap d x f t hg hr ih hclosed body h
    cases body with
    | nil =>
      have heof := congrArg (·.token.kind) (List.cons.inj h).1
      exact absurd heof hr.token_ne_eof
    | cons s body =>
      obtain ⟨rfl, hss⟩ := List.cons.inj h
      have hm := hr.missing_eq_none (hclosed _ List.mem_cons_self)
      have hl : LongestSpelling o (d.rest ++ byte '\n' :: text) f t := by
        refine hr.longest.append_lineEnd ho (fun heq => ?_) text
        have hrest := hr.reads.rest
        rw [← heq, List.self_eq_append_right] at hrest
        rwa [hrest] at hm
      rw [steps_extend hg hr hl fun _ => hm,
        ih (fun s hs => hclosed s (List.mem_cons_of_mem _ hs)) hss]
      rfl

/-- Scanning joins at line ends: what stands on both sides of one is scanned apart, unless a
closing mark is missing before it. -/
theorem tokenize_lineEnd (a b : Bytes) (o : Options) (ho : o.emitWhitespace = false)
    (h : ∀ g ∈ (tokenize a o).2, g.tag.isUnterminated = false) :
    (tokenize (a ++ byte '\n' :: b) o).1 =
        (tokenize a o).1.filter (!·.isEof) ++
          (tokenize b o).1.map (Token.shift (a.length + 1)) ∧
      (tokenize (a ++ byte '\n' :: b) o).2 =
        (tokenize a o).2 ++
          (tokenize b o).2.map (Diagnostic.shift (a.length + 1) (1 + a.count (byte '\n'))) := by
  have hclosed : ∀ s ∈ (start a).steps o, ∀ g ∈ s.diagnostics, g.tag.isUnterminated = false :=
    fun s hs g hg => h g (List.mem_flatMap.2 ⟨s, hs, hg⟩)
  obtain ⟨body, e, hss, hbody, hread⟩ := exists_body o (start a)
  have hnext : e.onNextLine b =
      (start b).shift (a.length + 1) (1 + a.count (byte '\n')) := by
    have hoff : e.offset = 0 + a.length := hread.offset
    have hline : e.line = 1 + a.count (byte '\n') := hread.line
    simp only [onNextLine, start, Cursor.shift, hoff, hline, Cursor.mk.injEq, true_and]
    omega
  have hjoined := steps_lineEnd ho hclosed hss b
  have hstart : start (a ++ byte '\n' :: b) = (start a).extend (byte '\n' :: b) := rfl
  rw [hnext, steps_shift, ← hstart] at hjoined
  constructor
  · simp only [tokenize_eq, hjoined, filter_isEof hss hbody, List.map_append, map_token_extend,
      map_token_shift]
  · have hown := flatMap_diagnostics_body body e
    rw [← hss] at hown
    simp only [tokenize_eq, hjoined, hown, List.flatMap_append, flatMap_diagnostics_extend,
      flatMap_diagnostics_shift]

/-- The line end stands between a truncated character and the byte that would complete it, and a
string that is not closed follows. -/
theorem tokenize_lineEnd_truncated :
    let a := ascii "\n0x<" ++ [0xE2, 0x82]
    let b := 0xAC :: ascii "\"q"
    (∀ g ∈ (tokenize a {}).2, g.tag.isUnterminated = false) ∧
      (tokenize (a ++ byte '\n' :: b) {}).1 =
        (tokenize a {}).1.filter (!·.isEof) ++ (tokenize b {}).1.map (Token.shift 7) ∧
      (tokenize (a ++ byte '\n' :: b) {}).2 =
        (tokenize a {}).2 ++ (tokenize b {}).2.map (Diagnostic.shift 7 2) := by
  intro a b
  have h : ∀ g ∈ (tokenize a {}).2, g.tag.isUnterminated = false := by decide +kernel
  exact ⟨h, tokenize_lineEnd a b {} rfl h⟩

end Lexis
