import Lexis.Files
import Lexis.Proofs.Report.Unambiguous

/-!
# The lines of a text report

All that a line shows is without a line feed, but for one thing: the value of a string stands there
as it is. So a report has one line for each token and each diagnostic, and one more for each line
feed inside a string.

* `oneLine_quote`, `oneLine_compact`, `Reason.IsNamed.oneLine`: what stands on one line.
* `exists_textLine`, `exists_noteLine`: the line feeds of one entry and of one note.
* `splitBytes_flatten`: a text of whole lines is split into them.
* `count_lines`, `splitBytes_lines_iff`: the lines of a whole report.
-/
namespace Lexis

open Grammar Cursor

/-! ## What stands on one line -/

/-- The text has no line feed. -/
def OneLine (s : Bytes) : Prop := byte '\n' ∉ s

instance (s : Bytes) : Decidable (OneLine s) := inferInstanceAs (Decidable (byte '\n' ∉ s))

@[simp] theorem oneLine_nil : OneLine [] := List.not_mem_nil

@[simp] theorem oneLine_cons {b : UInt8} {s : Bytes} :
    OneLine (b :: s) ↔ b ≠ byte '\n' ∧ OneLine s := by
  rw [OneLine, List.mem_cons, not_or, OneLine, ne_comm]

@[simp] theorem oneLine_append {s t : Bytes} : OneLine (s ++ t) ↔ OneLine s ∧ OneLine t := by
  rw [OneLine, List.mem_append, not_or, OneLine, OneLine]

@[simp] theorem oneLine_replicate {n : Nat} {b : UInt8} (h : b ≠ byte '\n') :
    OneLine (List.replicate n b) := by
  intro hmem
  exact h (List.eq_of_mem_replicate hmem).symm

@[simp] theorem oneLine_decimal (n : Nat) : OneLine (decimal n) := by
  intro h
  exact absurd (mem_decimal h) (by decide)

@[simp] theorem oneLine_signedDecimal (n : Int) : OneLine (signedDecimal n) := by
  intro h
  exact absurd (mem_signedDecimal h) (by decide)

@[simp] theorem oneLine_quote (s : Bytes) : OneLine (quote s) := newline_not_mem_quote s

@[simp] theorem oneLine_render (s : Span) : OneLine s.render := by
  simp [Span.render, ascii, byte]

@[simp] theorem oneLine_kindName (k : Kind) : OneLine k.name := by
  cases k with
  | numbered code h => simp [Kind.name, ascii, byte]
  | _ => decide

@[simp] theorem oneLine_radixName (r : Radix) : OneLine r.name := by
  cases r with
  | numbered base h => simp [Radix.name, ascii, byte]
  | _ => decide

@[simp] theorem oneLine_className (c : LiteralClass) : OneLine c.name := by
  cases c with
  | numbered code h => simp [LiteralClass.name, ascii, byte]
  | _ => decide

@[simp] theorem oneLine_literalName (l : Literal) : OneLine l.name := by
  unfold Literal.name
  split <;> simp [ascii, byte]

namespace FloatLayout

@[simp] theorem oneLine_exponentText (e : Int) : OneLine (exponentText e) := by
  unfold exponentText
  dsimp only
  split <;> split <;> simp [byte]

theorem oneLine_scientific {ds : Bytes} (h : OneLine ds) (e : Int) :
    OneLine (scientific ds e) := by
  fun_cases scientific ds e <;> simp_all [byte]

theorem oneLine_positional (layout : FloatLayout) {ds : Bytes} (h : OneLine ds) (e : Int) :
    OneLine (layout.positional ds e) := by
  have htake : ∀ n, OneLine (ds.take n) := fun n hmem => h (List.mem_of_mem_take hmem)
  have hdrop : ∀ n, OneLine (ds.drop n) := fun n hmem => h (List.mem_of_mem_drop hmem)
  fun_cases positional layout ds e with
  | case1 => simp [h, ascii, byte]
  | case2 => split <;> simp [h, ascii, byte]
  | case3 => simp [htake, hdrop, byte]

/-- A number is written on one line. -/
@[simp] theorem oneLine_compact (x : Binary64) : OneLine (compact.write x) := by
  have hnames : OneLine compact.nan ∧ OneLine compact.infinity ∧
      OneLine compact.negativeInfinity := by
    decide
  unfold write
  split
  · exact hnames.1
  · split
    · split
      · exact hnames.2.2
      · exact hnames.2.1
    · have hmagnitude : ∀ p : Prop, ∀ [Decidable p], ∀ ds e, OneLine ds →
          OneLine (if p then compact.positional ds e else scientific ds e) := by
        intro p _ ds e h
        split
        · exact oneLine_positional compact h e
        · exact oneLine_scientific h e
      dsimp only
      split
      · exact oneLine_cons.2 ⟨by decide, hmagnitude _ _ _ (oneLine_decimal _)⟩
      · exact hmagnitude _ _ _ (oneLine_decimal _)

end FloatLayout

/-! ## Diagnostics -/

@[simp] theorem oneLine_numberError (e : NumberError) : OneLine e.message := by
  cases e <;> decide

theorem Tag.IsNamed.oneLine {tag : Tag} (h : tag.IsNamed) : OneLine tag.name := by
  cases tag with
  | other name => exact h.elim
  | _ => decide

/-- What a lexeme is rejected for is told on one line, whatever the lexeme is. -/
theorem Reason.IsNamed.oneLine {r : Reason} (h : r.IsNamed) : OneLine r.message := by
  cases r with
  | plain text => exact h.elim
  | _ => simp [Reason.message, ascii, byte]

/-- The tag and the reason of a diagnostic stand on one line. -/
structure Diagnostic.OneLine (g : Diagnostic) : Prop where
  tag : Lexis.OneLine g.tag.name
  reason : ∀ r, g.reason = some r → Lexis.OneLine r.message

/-- Every diagnostic of a scan can be told on one line. -/
theorem oneLine_of_mem_tokenize {source : Bytes} {o : Options} {g : Diagnostic}
    (h : g ∈ (tokenize source o).2) : g.OneLine := by
  obtain ⟨htag, hreason⟩ := named_of_mem_tokenize h
  exact ⟨htag.oneLine, fun r hr => (hreason r hr).oneLine⟩

/-! ## Lines -/

/-- What of a token is shown as it is: the text of a literal's value. -/
def Token.unquoted (t : Token) : Bytes := if t.kind = .literal then t.value.text else []

theorem OneLine.count_eq {s : Bytes} (h : OneLine s) : s.count (byte '\n') = 0 :=
  List.count_eq_zero_of_not_mem h

/-- No literal has a character for a value. -/
theorem value_ne_char (l : Literal) (lexeme : Bytes) (code : Int32) :
    l.value lexeme ≠ .char code := by
  intro h
  rcases l.value_eq_absent_or_gives lexeme with habsent | hgives
  · simp [h] at habsent
  · rw [h] at hgives
    cases hgives

theorem valueIn_ne_char (source : Bytes) (t : Token) (code : Int32) :
    t.valueIn source ≠ .char code := by
  unfold Token.valueIn
  split
  · simp
  · split
    · exact value_ne_char _ _ code
    · simp

/-- A value is shown with the line feeds of its text. -/
theorem count_plainText {v : Value} (h : ∀ code, v ≠ .char code) :
    ((v.payload?.map Payload.plainText).getD []).count (byte '\n') = v.text.count (byte '\n') := by
  cases v with
  | char code => exact absurd rfl (h code)
  | absent | string | raw | numbered => rfl
  | int n => exact (oneLine_decimal _).count_eq
  | float x => exact (FloatLayout.oneLine_compact x).count_eq
  | byte b => exact (oneLine_decimal _).count_eq

theorem count_tail_entryIn {source : Bytes} {t : Token} (h : ∀ code, t.value ≠ .char code) :
    (t.entryIn source).tail.count (byte '\n') = t.unquoted.count (byte '\n') := by
  have hequals : OneLine (ascii " = ") := by decide
  unfold Token.entryIn Token.unquoted
  split
  · rw [← count_plainText h]
    unfold Entry.tail
    cases t.value.payload? with
    | none => rfl
    | some v => simp [List.count_append, hequals.count_eq]
  · rfl

/-- A line without the value and the line feed at its end. -/
def Entry.front (e : Entry) : Bytes :=
  e.head ++ ascii " " ++ e.span.render ++ ascii " " ++ quote e.text

theorem Entry.textLine_eq (e : Entry) : e.textLine = (e.front ++ e.tail) ++ [byte '\n'] := by
  unfold textLine front head tail
  cases e.value <;> simp [ascii]

theorem oneLine_front (source : Bytes) (t : Token) : OneLine (t.entryIn source).front := by
  unfold Token.entryIn Entry.front Entry.head
  split
  · split <;> simp [ascii, byte]
  · simp [ascii, byte]

/-- The line of an entry ends with a line feed, and has no others but those that are not quoted. -/
theorem exists_textLine (source : Bytes) {t : Token} (h : ∀ code, t.value ≠ .char code) :
    ∃ body, (t.entryIn source).textLine = body ++ [byte '\n'] ∧
      body.count (byte '\n') = t.unquoted.count (byte '\n') := by
  refine ⟨_, Entry.textLine_eq _, ?_⟩
  rw [List.count_append, (oneLine_front source t).count_eq, count_tail_entryIn h, Nat.zero_add]

/-- The line of a note ends with its only line feed. -/
theorem exists_noteLine {path : Bytes} {g : Diagnostic} (hpath : OneLine path) (hg : g.OneLine) :
    ∃ body, (Note.ofDiagnostic g).textLine path = body ++ [byte '\n'] ∧ OneLine body := by
  have hmessage : OneLine (Note.ofDiagnostic g).message := by
    cases hr : g.reason with
    | none => simp [Note.ofDiagnostic, hr]
    | some r =>
      have hline := hg.reason r hr
      simpa [Note.ofDiagnostic, hr] using hline
  have htag : OneLine (Note.ofDiagnostic g).tag := hg.tag
  refine ⟨_, rfl, ?_⟩
  split <;> simp [hpath, hmessage, htag, ascii, byte]

/-! ## Splitting -/

theorem splitBytes_append {sep : UInt8} {s : Bytes} (h : sep ∉ s) (u : Bytes) :
    splitBytes sep (s ++ sep :: u) = s :: splitBytes sep u := by
  induction s with
  | nil => simp [splitBytes]
  | cons b s ih =>
    rw [List.mem_cons, not_or] at h
    rw [List.cons_append, splitBytes, if_neg (Ne.symm h.1), ih h.2]

/-- A text of whole lines is split into them; behind the last one nothing is left. -/
theorem splitBytes_flatten {sep : UInt8} {lines : List Bytes}
    (h : ∀ l ∈ lines, ∃ body, l = body ++ [sep] ∧ sep ∉ body) :
    splitBytes sep lines.flatten = lines.map List.dropLast ++ [[]] := by
  induction lines with
  | nil => rfl
  | cons l lines ih =>
    obtain ⟨body, rfl, hbody⟩ := h l (by simp)
    have ih := ih fun l hl => h l (by simp [hl])
    rw [List.flatten_cons, List.append_assoc, List.singleton_append, splitBytes_append hbody, ih]
    simp

theorem length_splitBytes (sep : UInt8) (s : Bytes) :
    (splitBytes sep s).length = s.count sep + 1 := by
  induction s with
  | nil => rfl
  | cons b s ih =>
    unfold splitBytes
    split
    · next hb => simp [hb, ih]
    · next hb =>
      rw [List.count_cons_of_ne hb]
      split
      · next hs => simp [hs] at ih
      · next first more hs => simpa [hs] using ih

/-! ## Whole reports -/

section Reports

variable {path source : Bytes} {ts : List Token} {gs : List Diagnostic}

theorem count_entries (hts : ∀ t ∈ ts, ∀ code, t.value ≠ .char code) :
    (ts.map fun t => (t.entryIn source).textLine).flatten.count (byte '\n') =
      ts.length + (ts.flatMap Token.unquoted).count (byte '\n') := by
  induction ts with
  | nil => rfl
  | cons t ts ih =>
    obtain ⟨body, hline, hbody⟩ := exists_textLine source (hts t (by simp))
    have ih := ih fun t ht => hts t (by simp [ht])
    simp only [List.map_cons, List.flatten_cons, List.count_append, hline, ih, hbody,
      List.count_singleton_self, List.length_cons, List.flatMap_cons]
    omega

theorem count_notes (hpath : OneLine path) (hgs : ∀ g ∈ gs, g.OneLine) :
    (gs.map fun g => (Note.ofDiagnostic g).textLine path).flatten.count (byte '\n') =
      gs.length := by
  induction gs with
  | nil => rfl
  | cons g gs ih =>
    obtain ⟨body, hline, hbody⟩ := exists_noteLine hpath (hgs g (by simp))
    have ih := ih fun g hg => hgs g (by simp [hg])
    simp only [List.map_cons, List.flatten_cons, List.count_append, hline, ih, hbody.count_eq,
      List.count_singleton_self, List.length_cons]
    omega

theorem count_lines (hpath : OneLine path) (hts : ∀ t ∈ ts, ∀ code, t.value ≠ .char code)
    (hgs : ∀ g ∈ gs, g.OneLine) :
    (reportOf path source ts gs).lines.flatten.count (byte '\n') =
      ts.length + gs.length + (ts.flatMap Token.unquoted).count (byte '\n') := by
  rw [lines_reportOf, List.flatten_append, List.count_append, count_entries hts,
    count_notes hpath hgs]
  omega

/-- The lines can be told apart again iff what is not quoted has no line feeds of its own. -/
theorem splitBytes_lines_iff (hpath : OneLine path)
    (hts : ∀ t ∈ ts, ∀ code, t.value ≠ .char code) (hgs : ∀ g ∈ gs, g.OneLine) :
    splitBytes (byte '\n') (reportOf path source ts gs).lines.flatten =
        (reportOf path source ts gs).lines.map List.dropLast ++ [[]] ↔
      ∀ t ∈ ts, OneLine t.unquoted := by
  constructor
  · intro hsplit t ht hmem
    have hlen := congrArg List.length hsplit
    rw [length_splitBytes, count_lines hpath hts hgs, lines_reportOf] at hlen
    simp only [List.length_append, List.length_map, List.length_singleton] at hlen
    have hnone : (ts.flatMap Token.unquoted).count (byte '\n') = 0 := by omega
    exact List.count_eq_zero.1 hnone (List.mem_flatMap.2 ⟨t, ht, hmem⟩)
  · intro hunquoted
    apply splitBytes_flatten
    intro l hl
    rw [lines_reportOf, List.mem_append] at hl
    rcases hl with hl | hl
    · obtain ⟨t, ht, rfl⟩ := List.mem_map.1 hl
      obtain ⟨body, hline, hbody⟩ := exists_textLine source (hts t ht)
      rw [(hunquoted t ht).count_eq] at hbody
      exact ⟨body, hline, List.count_eq_zero.1 hbody⟩
    · obtain ⟨g, hg, rfl⟩ := List.mem_map.1 hl
      exact exists_noteLine hpath (hgs g hg)

end Reports

/-- A report has one line for each token and each diagnostic, and one more for each line feed in the
value of a literal. So its lines are those of the tokens and the diagnostics iff there is none. -/
theorem textReport_lines {path : Bytes} (hpath : byte '\n' ∉ path) (source : Bytes) (o : Options) :
    ∃ report out,
      Report.build path source (tokenize source o).1 (tokenize source o).2 = .ok report ∧
      report.print .text .unlimited = ⟨out, none⟩ ∧
      out.count (byte '\n') = (tokenize source o).1.length + (tokenize source o).2.length +
        ((tokenize source o).1.flatMap Token.unquoted).count (byte '\n') ∧
      (splitBytes (byte '\n') out = report.lines.map List.dropLast ++ [[]] ↔
        ∀ t ∈ (tokenize source o).1, byte '\n' ∉ t.unquoted) := by
  have hts : ∀ t ∈ (tokenize source o).1, ∀ code, t.value ≠ .char code := by
    intro t ht
    rw [value_of_mem_tokenize ht]
    exact valueIn_ne_char source t
  have hgs : ∀ g ∈ (tokenize source o).2, g.OneLine := fun _ => oneLine_of_mem_tokenize
  have hbuild := build_tokenize path source o (tokenize source o).2
  exact ⟨_, _, hbuild, print_text _ rfl, count_lines hpath hts hgs,
    splitBytes_lines_iff hpath hts hgs⟩

/-- A number without digits and an unclosed string over two lines: three tokens and two diagnostics
are told on six lines. -/
theorem textReport_lines_unclosed :
    let source := ascii "0x \"a\nb"
    byte '\n' ∉ ascii "a.c" ∧ ∃ report out,
      Report.build (ascii "a.c") source (tokenize source {}).1 (tokenize source {}).2 =
        .ok report ∧
      report.print .text .unlimited = ⟨out, none⟩ ∧ out.count (byte '\n') = 6 ∧
      splitBytes (byte '\n') out ≠ report.lines.map List.dropLast ++ [[]] := by
  intro source
  have hpath : byte '\n' ∉ ascii "a.c" := by decide
  obtain ⟨report, out, hbuild, hprint, hcount, hsplit⟩ := textReport_lines hpath source {}
  refine ⟨hpath, report, out, hbuild, hprint, ?_, ?_⟩
  · rw [hcount]
    decide +kernel
  · rw [Ne, hsplit]
    decide +kernel

/-- A closed string over two lines is told on two lines, so there are more lines than tokens and
diagnostics. -/
theorem newline_in_string_breaks_line :
    let source := ascii "\"a\nb\""
    byte '\n' ∉ ascii "x.c" ∧ ∃ report out,
      Report.build (ascii "x.c") source (tokenize source {}).1 (tokenize source {}).2 =
        .ok report ∧
      report.print .text .unlimited = ⟨out, none⟩ ∧
      out.count (byte '\n') ≠ (tokenize source {}).1.length + (tokenize source {}).2.length ∧
      splitBytes (byte '\n') out ≠ report.lines.map List.dropLast ++ [[]] := by
  intro source
  have hbuild := build_tokenize (ascii "x.c") source {} (tokenize source {}).2
  refine ⟨by decide, _, _, hbuild, print_text _ rfl, ?_, ?_⟩
  · decide +kernel
  · decide +kernel

end Lexis
