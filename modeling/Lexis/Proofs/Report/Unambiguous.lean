import Lexis.Proofs.Report.Building
import Lexis.Proofs.Scan.Runs
import Lexis.Proofs.Text.Quoting

/-!
# A text report tells its source

A string is shown as it is, so what it contains may look like further lines of the report. No line
can be misread all the same: the name at its front ends at the first bracket, the quoted text behind
the span shows where it ends, and the two of them settle the value.

* `Entry.textLine_append_inj`: how a line is read.
* `Piece.line_append_inj`: so a line tells the piece of the source that it shows.
* `Piece.lines_inj`: and so do the lines up to the end, whatever stands behind them.
* `exists_pieces`: where blanks are tokens, a source is cut into such pieces.
-/
namespace Lexis

open Grammar Cursor

/-! ## Reading a line -/

/-- A text up to the first place of a byte. -/
theorem append_cons_inj {b : UInt8} {s t u v : Bytes} (hs : b ∉ s) (ht : b ∉ t)
    (h : s ++ b :: u = t ++ b :: v) : s = t ∧ u = v := by
  induction s generalizing t with
  | nil =>
    cases t with
    | nil => exact ⟨rfl, (List.cons.inj h).2⟩
    | cons c t => exact absurd ((List.cons.inj h).1 ▸ List.mem_cons_self) ht
  | cons c s ih =>
    cases t with
    | nil => exact absurd ((List.cons.inj h).1 ▸ List.mem_cons_self) hs
    | cons d t =>
      obtain ⟨rfl, htail⟩ := List.cons.inj h
      rw [List.mem_cons, not_or] at hs ht
      obtain ⟨rfl, rfl⟩ := ih hs.2 ht.2 htail
      exact ⟨rfl, rfl⟩

namespace Entry

/-- The name at the front of a line. -/
def head (e : Entry) : Bytes :=
  if e.literal = [] then e.kind else e.kind ++ ascii "(" ++ e.literal ++ ascii ")"

/-- The value at the end of a line. -/
def tail (e : Entry) : Bytes :=
  match e.value with
  | some v => ascii " = " ++ v.plainText
  | none => []

/-- The two offsets of a span. -/
def offsets (e : Entry) : Bytes :=
  signedDecimal e.span.start ++ ascii "," ++ signedDecimal e.span.stop

theorem textLine_append (e : Entry) (u : Bytes) :
    e.textLine ++ u = (e.head ++ ascii " ") ++ byte '[' :: (e.offsets ++ byte ')' ::
      (byte ' ' :: (quote e.text ++ (e.tail ++ (ascii "\n" ++ u))))) := by
  unfold textLine head tail offsets Span.render
  cases e.value <;> simp [ascii]

theorem paren_not_mem_offsets (e : Entry) : byte ')' ∉ e.offsets := by
  have hdecimal : ∀ n, byte ')' ∉ signedDecimal n := by
    intro n hn
    exact absurd (mem_signedDecimal hn) (by decide)
  have hcomma : byte ')' ∉ ascii "," := by decide
  simp [offsets, hdecimal, hcomma]

/-- The name ends at the first bracket, the span at the next one, and the text where it says. -/
theorem textLine_append_inj {e e' : Entry} {u v : Bytes} (he : byte '[' ∉ e.head)
    (he' : byte '[' ∉ e'.head) (h : e.textLine ++ u = e'.textLine ++ v) :
    e.head = e'.head ∧ e.text = e'.text ∧
      e.tail ++ (ascii "\n" ++ u) = e'.tail ++ (ascii "\n" ++ v) := by
  have hfront : ∀ s : Bytes, byte '[' ∉ s → byte '[' ∉ s ++ ascii " " := by
    intro s hs
    rw [List.mem_append, not_or]
    exact ⟨hs, by decide⟩
  rw [textLine_append, textLine_append] at h
  obtain ⟨hhead, h⟩ := append_cons_inj (hfront _ he) (hfront _ he') h
  obtain ⟨-, h⟩ := append_cons_inj e.paren_not_mem_offsets e'.paren_not_mem_offsets h
  obtain ⟨htext, h⟩ := quote_append_inj (List.cons.inj h).2
  exact ⟨List.append_cancel_right hhead, htext, h⟩

end Entry

/-! ## Pieces -/

/-- What a token shows of its source, wherever it stands. -/
structure Piece where
  kind : Kind
  literal : Literal
  text : Bytes

namespace Piece

def eof : Piece := ⟨.eof, .empty, []⟩

/-- The value is settled by the literal and the text. -/
def value (p : Piece) : Value :=
  if p.kind = .eof then .absent
  else if p.kind = .literal then p.literal.value p.text
  else .raw p.text

def token (p : Piece) (span : Span) : Token := ⟨p.kind, p.literal, p.value, span⟩

def entry (p : Piece) (span : Span) : Entry :=
  if p.kind = .literal then ⟨p.kind.name, p.literal.name, span, p.text, p.value.payload?⟩
  else ⟨p.kind.name, [], span, p.text, none⟩

/-- The kinds that a scan gives, with their literals. -/
def shapes : List (Kind × Literal) :=
  (Kind.named.filter (· ≠ .literal)).map (·, .empty) ++
    [.int .decimal 0, .float, .int .octal 0, .int .binary 2, .int .hexadecimal 2, .str].map
      (.literal, ·)

def Known (p : Piece) : Prop := (p.kind, p.literal) ∈ shapes

/-- The name of a shape. -/
def shapeName (s : Kind × Literal) : Bytes :=
  if s.1 = .literal then s.1.name ++ ascii "(" ++ s.2.name ++ ascii ")" else s.1.name

theorem shapeName_inj : ∀ s ∈ shapes, ∀ s' ∈ shapes, shapeName s = shapeName s' → s = s' := by
  decide +kernel

theorem bracket_not_mem_shapeName : ∀ s ∈ shapes, byte '[' ∉ shapeName s := by decide

theorem known_eof : eof.Known := by
  unfold Known
  decide

theorem head_entry {p : Piece} (hp : p.Known) (span : Span) :
    (p.entry span).head = shapeName (p.kind, p.literal) := by
  have hname : ∀ s ∈ shapes, s.1 = .literal → s.2.name ≠ [] := by decide
  unfold entry shapeName Entry.head
  split
  · next hk => rw [if_neg (hname _ hp hk)]
  · rfl

theorem text_entry (p : Piece) (span : Span) : (p.entry span).text = p.text := by
  unfold entry
  split <;> rfl

theorem tail_entry (p : Piece) (a b : Span) : (p.entry a).tail = (p.entry b).tail := by
  unfold entry
  split <;> rfl

/-- A line tells the piece that it shows. -/
theorem line_append_inj {p q : Piece} {a b : Span} {u v : Bytes} (hp : p.Known) (hq : q.Known)
    (h : (p.entry a).textLine ++ u = (q.entry b).textLine ++ v) : p = q ∧ u = v := by
  have hpb := bracket_not_mem_shapeName _ hp
  have hqb := bracket_not_mem_shapeName _ hq
  rw [← head_entry hp a] at hpb
  rw [← head_entry hq b] at hqb
  obtain ⟨hhead, htext, htail⟩ := Entry.textLine_append_inj hpb hqb h
  rw [head_entry hp, head_entry hq] at hhead
  obtain ⟨hkind, hliteral⟩ := Prod.mk.inj (shapeName_inj _ hp _ hq hhead)
  rw [text_entry, text_entry] at htext
  obtain rfl : p = q := by
    cases p
    cases q
    simp_all
  rw [tail_entry p a b] at htail
  exact ⟨rfl, List.append_cancel_left (List.append_cancel_left htail)⟩

/-- The pieces with their places, one behind the other. -/
def placed : Nat → List Piece → List (Piece × Span)
  | _, [] => []
  | n, p :: ps => (p, .of n p.text) :: placed (n + p.text.length) ps

/-- The lines of some pieces through the end, and whatever follows, tell these pieces. -/
theorem lines_inj {m n : Nat} {ps qs : List Piece} {u v : Bytes}
    (hps : ∀ p ∈ ps, p.Known ∧ p.kind ≠ .eof) (hqs : ∀ q ∈ qs, q.Known ∧ q.kind ≠ .eof)
    (h : ((placed m (ps ++ [eof])).flatMap fun r => (r.1.entry r.2).textLine) ++ u =
      ((placed n (qs ++ [eof])).flatMap fun r => (r.1.entry r.2).textLine) ++ v) : ps = qs := by
  induction ps generalizing qs m n with
  | nil =>
    cases qs with
    | nil => rfl
    | cons q qs =>
      have hq := hqs q (by simp)
      simp only [List.nil_append, List.cons_append, placed, List.flatMap_cons,
        List.append_assoc] at h
      obtain ⟨rfl, -⟩ := line_append_inj known_eof hq.1 h
      exact absurd rfl hq.2
  | cons p ps ih =>
    have hp := hps p (by simp)
    cases qs with
    | nil =>
      simp only [List.nil_append, List.cons_append, placed, List.flatMap_cons,
        List.append_assoc] at h
      obtain ⟨rfl, -⟩ := line_append_inj hp.1 known_eof h
      exact absurd rfl hp.2
    | cons q qs =>
      have hq := hqs q (by simp)
      simp only [List.cons_append, placed, List.flatMap_cons, List.append_assoc] at h
      obtain ⟨rfl, h⟩ := line_append_inj hp.1 hq.1 h
      rw [ih (fun p hp => hps p (by simp [hp])) (fun q hq => hqs q (by simp [hq])) h]

end Piece

/-! ## Runs -/

theorem Grammar.Spells.mem_shapes {o : Options} {f : Form} {t : Bytes} (h : Spells o f t) :
    (f.kind, f.literal) ∈ Piece.shapes := by
  have hmarks : ∀ c, ∀ m ∈ marks { colonPercent := c }, (m.2, Literal.empty) ∈ Piece.shapes := by
    decide
  cases h with
  | mark hm => exact hmarks o.colonPercent _ hm
  | _ => decide

/-- A token that carries its value is a piece in its place, and its entry is that of the piece. -/
theorem Carries.eq_piece {source t : Bytes} {s : Step} {span : Span} {p : Piece}
    (h : Carries source s) (ht : s.token.text source = .ok t) (hspan : s.token.span = span)
    (hp : p = ⟨s.token.kind, s.token.literal, t⟩) :
    (s.token, s.token.entryIn source) = (p.token span, p.entry span) := by
  have htext : s.token.textIn source = t := by
    rw [Token.textIn, ht]
    rfl
  have hv : s.token.value = p.value := by
    rw [h.value, Token.valueIn, htext, hp]
    rfl
  rw [Piece.token, Piece.entry, ← hv, ← hspan, Token.entryIn, htext, hp]

/-- Where blanks are tokens, the text ahead is cut into pieces, and the run shows them in order. -/
theorem exists_pieces {source : Bytes} {o : Options} {c : Cursor} (he : o.emitWhitespace)
    (hc : c.Inside source) :
    ∃ ps : List Piece, (∀ p ∈ ps, p.Known ∧ p.kind ≠ .eof) ∧ c.rest = ps.flatMap (·.text) ∧
      (c.steps o).map (fun s => (s.token, s.token.entryIn source)) =
        (Piece.placed c.offset (ps ++ [.eof])).map fun r => (r.1.token r.2, r.1.entry r.2) := by
  have hcarries := carries_steps (o := o) hc
  revert hc hcarries
  refine steps_induction (motive := fun c ss => c.Inside source → (∀ s ∈ ss, Carries source s) →
    ∃ ps : List Piece, (∀ p ∈ ps, p.Known ∧ p.kind ≠ .eof) ∧ c.rest = ps.flatMap (·.text) ∧
      ss.map (fun s => (s.token, s.token.entryIn source)) =
        (Piece.placed c.offset (ps ++ [.eof])).map fun r => (r.1.token r.2, r.1.entry r.2)) ?_ ?_ c
  · intro c gap d hg hd hc hcarries
    obtain rfl := hg.none he
    have hoff : d.offset = c.offset := hg.reads.offset
    have hspan : (Step.atEof d).token.span = .of c.offset [] := by
      rw [← hoff]
      rfl
    have htext : (Step.atEof d).token.text source = .ok [] := by
      rw [Token.text, hspan]
      exact hc.slice_eq (Reads.refl c)
    have hpiece := (hcarries _ List.mem_cons_self).eq_piece (p := .eof) htext hspan rfl
    refine ⟨[], by simp, ?_, ?_⟩
    · rw [hg.reads.rest, hd]
      rfl
    · rw [List.map_singleton, hpiece]
      rfl
  · intro c gap d x f t hg hr ih hc hcarries
    obtain rfl := hg.none he
    have hoff : d.offset = c.offset := hg.reads.offset
    have hd := hc.reads hg.reads
    obtain ⟨ps, hknown, hrest, hmap⟩ :=
      ih (hd.reads hr.reads) fun s hs => hcarries s (List.mem_cons_of_mem _ hs)
    let p : Piece := ⟨f.kind, f.literal, t⟩
    have hspan : (Step.ofLexeme d x).token.span = .of c.offset t := by rw [hr.token_span, hoff]
    have hpiece := (hcarries _ List.mem_cons_self).eq_piece (p := p) (hr.token_text hd) hspan
      (by rw [hr.token_kind, hr.token_literal])
    refine ⟨p :: ps, ?_, ?_, ?_⟩
    · intro q hq
      rcases List.mem_cons.1 hq with rfl | hq
      · exact ⟨hr.longest.spells.mem_shapes, hr.longest.spells.kind_ne_eof⟩
      · exact hknown q hq
    · rw [hg.reads.rest, hr.reads.rest, hrest]
      rfl
    · rw [List.map_cons, hpiece, hmap, hr.reads.offset, hoff]
      rfl

/-- The tokens and the lines of a source are those of its pieces. -/
theorem tokenize_pieces (source : Bytes) {o : Options} (he : o.emitWhitespace) :
    ∃ ps : List Piece, (∀ p ∈ ps, p.Known ∧ p.kind ≠ .eof) ∧ source = ps.flatMap (·.text) ∧
      (tokenize source o).1 = (Piece.placed 0 (ps ++ [.eof])).map (fun r => r.1.token r.2) ∧
      ((tokenize source o).1.flatMap fun t => (t.entryIn source).textLine) =
        (Piece.placed 0 (ps ++ [.eof])).flatMap fun r => (r.1.entry r.2).textLine := by
  obtain ⟨ps, hps, hrest, hmap⟩ := exists_pieces he (inside_start source)
  have htokens := congrArg (List.map Prod.fst) hmap
  have hlines := congrArg (List.flatMap fun q => q.2.textLine) hmap
  rw [List.map_map, List.map_map] at htokens
  rw [List.flatMap_map, List.flatMap_map] at hlines
  refine ⟨ps, hps, hrest, htokens, ?_⟩
  rw [tokenize_eq, List.flatMap_map]
  exact hlines

/-! ## Reports -/

/-- A source scanned and reported in plain text. -/
def textReport (path source : Bytes) (o : Options) : Except SliceError Bytes :=
  (Report.build path source (tokenize source o).1 (tokenize source o).2).map fun r =>
    (r.print .text .unlimited).output

theorem textReport_eq (path source : Bytes) (o : Options) :
    textReport path source o = .ok
      (((tokenize source o).1.flatMap fun t => (t.entryIn source).textLine) ++
        (tokenize source o).2.flatMap fun g => (Note.ofDiagnostic g).textLine path) := by
  rw [textReport, build_tokenize, Except.map, print_text _ rfl, lines_reportOf, List.flatten_append,
    List.flatMap_def, List.flatMap_def]

/-- Where blanks are tokens, no two sources have the same report. -/
theorem textReport_inj {path₁ path₂ s₁ s₂ : Bytes} {o₁ o₂ : Options} (h₁ : o₁.emitWhitespace)
    (h₂ : o₂.emitWhitespace) (h : textReport path₁ s₁ o₁ = textReport path₂ s₂ o₂) :
    (∃ report, textReport path₁ s₁ o₁ = .ok report) ∧ s₁ = s₂ ∧
      (tokenize s₁ o₁).1 = (tokenize s₂ o₂).1 := by
  refine ⟨⟨_, textReport_eq path₁ s₁ o₁⟩, ?_⟩
  obtain ⟨ps, hps, hsource₁, htokens₁, hlines₁⟩ := tokenize_pieces s₁ h₁
  obtain ⟨qs, hqs, hsource₂, htokens₂, hlines₂⟩ := tokenize_pieces s₂ h₂
  rw [textReport_eq, textReport_eq, Except.ok.injEq, hlines₁, hlines₂] at h
  obtain rfl := Piece.lines_inj hps hqs h
  exact ⟨hsource₁.trans hsource₂.symm, htokens₁.trans htokens₂.symm⟩

/-- A string whose value looks like more of the report, and a stray byte: for two files, with the
percent sign known and unknown, the reports are the same. -/
theorem textReport_inj_string :
    let source := ascii "\"a\nEOF [9,9)\" " ++ [0xFF]
    let known : Options := { emitWhitespace := true, colonPercent := true }
    textReport (ascii "a.c") source { emitWhitespace := true } =
        textReport (ascii "b.c") source known ∧
      (tokenize source { emitWhitespace := true }).1 = (tokenize source known).1 := by
  intro source known
  have h : textReport (ascii "a.c") source { emitWhitespace := true } =
      textReport (ascii "b.c") source known := by
    decide +kernel
  exact ⟨h, (textReport_inj rfl rfl h).2.2⟩

end Lexis
