import Lexis.Proofs.Literal.Floats
import Lexis.Proofs.Report.JsonParts
import Lexis.Proofs.Report.Unambiguous
import Lexis.Proofs.Scan.Boundaries

/-!
# A JSON report tells all of the report

A value may be written like another one: `3.` and `3` are both `3`, and a member that is left out is
no member at all. But the kind, the literal and the text of an entry settle its value, and these are
strings, which can be read back. So an entry is read up to its text, and the rest follows.

* `delimited_entry`, `delimited_note`: how an entry and a note are read.
* `Report.jsonText_append_inj`: and so a whole document.
* `isPiece_of_mem_tokenize`, `valid_of_mem_diagnostics`: the entries and notes of a valid source can
  be read so.
* `finite_of_mem_tokenize`: and no value is without a JSON form.
-/
namespace Lexis

open Grammar Cursor

/-! ## Entries -/

namespace Entry

/-- The members up to the text. -/
def fields (e : Entry) : List (String × Bytes) :=
  Json.optionalField "literal" e.literal ++
    [("start", signedDecimal e.span.start), ("end", signedDecimal e.span.stop),
      ("text", Json.string e.text)]

/-- The member of the value, if there is one and it has a JSON form. -/
def valueField (e : Entry) : List (String × Bytes) :=
  (e.value.bind fun v => v.json.toOption).toList.map fun text => ("value", text)

/-- The JSON form of an entry whose value has one. -/
def jsonText (e : Entry) : Bytes :=
  Json.object 2 (("kind", Json.string e.kind) :: (e.fields ++ e.valueField))

/-- A value that is a floating-point number is a finite one. -/
def Finite (e : Entry) : Prop := ∀ x, e.value = some (.float x) → x.isFinite

theorem json_eq {e : Entry} (h : e.Finite) : e.json = .ok e.jsonText := by
  unfold json jsonText valueField fields
  cases hv : e.value with
  | none => simp [pure, Except.pure, bind, Except.bind]
  | some v =>
    have hjson : ∃ text, v.json = .ok text := by
      cases v with
      | float x => exact ⟨_, if_pos (h x hv)⟩
      | _ => exact ⟨_, rfl⟩
    obtain ⟨text, htext⟩ := hjson
    simp [htext, pure, Except.pure, bind, Except.bind, Except.map, Except.toOption]

/-- The member of the literal with the comma before it. -/
def literalPart (e : Entry) : Bytes :=
  if e.literal = [] then [] else Json.next 2 "literal" ++ Json.string e.literal

theorem jsonText_append (e : Entry) (u : Bytes) :
    e.jsonText ++ u = byte '\x7b' :: (Json.newline 3 ++ (Json.key "kind" ++ (Json.string e.kind ++
      (e.literalPart ++ (Json.next 2 "start" ++ (signedDecimal e.span.start ++
        (Json.next 2 "end" ++ (signedDecimal e.span.stop ++ (Json.next 2 "text" ++
          (Json.string e.text ++ (Json.members 2 e.valueField ++ u))))))))))) := by
  unfold jsonText fields literalPart Json.optionalField
  split <;> simp [Json.object_cons, Json.members_cons]

end Entry

/-! ## Pieces -/

namespace Piece

variable {p q : Piece} {a b : Span} {u v : Bytes}

theorem valid_names : ∀ s ∈ shapes, Utf8.valid s.1.name ∧ Utf8.valid s.2.name := by
  decide +kernel

theorem ofName?_kindName : ∀ s ∈ shapes, Kind.ofName? s.1.name = some s.1 := by decide +kernel

theorem kind_entry (p : Piece) (span : Span) : (p.entry span).kind = p.kind.name := by
  unfold entry
  split <;> rfl

theorem span_entry (p : Piece) (span : Span) : (p.entry span).span = span := by
  unfold entry
  split <;> rfl

theorem literalPart_entry (hp : p.Known) (span : Span) : (p.entry span).literalPart =
    if p.kind = .literal then Json.next 2 "literal" ++ Json.string p.literal.name else [] := by
  have hname : ∀ s ∈ shapes, s.1 = .literal → s.2.name ≠ [] := by decide
  unfold entry Entry.literalPart
  split
  · next hk => rw [if_neg (hname _ hp hk)]
  · rfl

/-- The kind says whether there is a literal, and both together are the shape. -/
theorem literalPart_append_inj (hp : p.Known) (hq : q.Known) (hkind : p.kind.name = q.kind.name)
    (h : (p.entry a).literalPart ++ u = (q.entry b).literalPart ++ v) :
    p.kind = q.kind ∧ p.literal = q.literal ∧ u = v := by
  have hk : p.kind = q.kind := by
    have hof := ofName?_kindName _ hp
    rw [hkind, ofName?_kindName _ hq] at hof
    exact (Option.some.inj hof).symm
  have hshape : shapeName (p.kind, p.literal) = shapeName (q.kind, q.literal) →
      p.literal = q.literal := fun hname => (Prod.mk.inj (shapeName_inj _ hp _ hq hname)).2
  rw [literalPart_entry hp, literalPart_entry hq, ← hk] at h
  split at h
  · next hlit =>
    rw [List.append_assoc, List.append_assoc] at h
    obtain ⟨hname, huv⟩ := Json.delimited_string (valid_names _ hp).2 (valid_names _ hq).2
      (List.append_cancel_left h)
    refine ⟨hk, hshape ?_, huv⟩
    rw [shapeName, shapeName, ← hk, hname]
  · next hlit =>
    refine ⟨hk, hshape ?_, h⟩
    rw [shapeName, shapeName, ← hk, if_neg hlit, if_neg hlit]

/-- An entry tells its piece and its place. -/
theorem jsonText_append_inj (hp : p.Known) (hq : q.Known) (hpv : Utf8.valid p.text)
    (hqv : Utf8.valid q.text)
    (h : (p.entry a).jsonText ++ u = (q.entry b).jsonText ++ v) : p = q ∧ a = b ∧ u = v := by
  simp only [Entry.jsonText_append, text_entry, kind_entry, span_entry] at h
  have h := List.append_cancel_left (List.append_cancel_left (List.cons.inj h).2)
  obtain ⟨hkind, h⟩ := Json.delimited_string (valid_names _ hp).1 (valid_names _ hq).1 h
  obtain ⟨hk, hl, h⟩ := literalPart_append_inj hp hq hkind h
  obtain ⟨hstart, h⟩ := signedDecimal_append_inj rfl rfl (List.append_cancel_left h)
  obtain ⟨hstop, h⟩ := signedDecimal_append_inj rfl rfl (List.append_cancel_left h)
  obtain ⟨htext, h⟩ := Json.delimited_string hpv hqv (List.append_cancel_left h)
  obtain rfl : p = q := by
    cases p
    cases q
    simp_all
  obtain rfl : a = b := by
    cases a
    cases b
    simp_all
  exact ⟨rfl, rfl, List.append_cancel_left h⟩

end Piece

/-- The entry of a piece that a scan can give, with a valid text. -/
def Entry.IsPiece (e : Entry) : Prop :=
  ∃ (p : Piece) (span : Span), p.Known ∧ Utf8.valid p.text ∧ e = p.entry span

theorem delimited_entry : Json.Delimited Entry.IsPiece Entry.jsonText := by
  rintro e e' u v ⟨p, a, hp, hpv, rfl⟩ ⟨q, b, hq, hqv, rfl⟩ h
  obtain ⟨rfl, rfl, huv⟩ := Piece.jsonText_append_inj hp hq hpv hqv h
  exact ⟨rfl, huv⟩

/-! ## Notes -/

/-- The texts of a note are valid. -/
structure Note.Valid (n : Note) : Prop where
  tag : Utf8.valid n.tag
  message : Utf8.valid n.message

theorem Note.json_append (n : Note) (u : Bytes) :
    n.json ++ u = byte '\x7b' :: (Json.newline 3 ++ (Json.key "tag" ++ (Json.string n.tag ++
      (Json.next 2 "start" ++ (signedDecimal n.span.start ++ (Json.next 2 "end" ++
        (signedDecimal n.span.stop ++ (Json.next 2 "line" ++ (signedDecimal n.line ++
          (Json.members 2 (Json.optionalField "message" n.message) ++ u)))))))))) := by
  unfold Note.json
  simp [Json.object_cons, Json.members_cons]

theorem delimited_note : Json.Delimited Note.Valid Note.json := by
  intro n n' u v hn hn' h
  rw [Note.json_append, Note.json_append] at h
  have h := List.append_cancel_left (List.append_cancel_left (List.cons.inj h).2)
  obtain ⟨htag, h⟩ := Json.delimited_string hn.tag hn'.tag h
  obtain ⟨hstart, h⟩ := signedDecimal_append_inj rfl rfl (List.append_cancel_left h)
  obtain ⟨hstop, h⟩ := signedDecimal_append_inj rfl rfl (List.append_cancel_left h)
  obtain ⟨hline, h⟩ := signedDecimal_append_inj (Json.head?_members _ _ _)
    (Json.head?_members _ _ _) (List.append_cancel_left h)
  obtain ⟨hmessage, huv⟩ := Json.delimited_string.optional [] 2 "message" hn.message hn'.message h
  refine ⟨?_, huv⟩
  obtain ⟨tag, ⟨start, stop⟩, line, message⟩ := n
  obtain ⟨tag', ⟨start', stop'⟩, line', message'⟩ := n'
  simp_all

/-! ## Documents -/

namespace Report

/-- The member of the notes, which is left out when there are none. -/
def notesField (r : Report) : List (String × Bytes) :=
  if r.notes = [] then [] else [("diagnostics", Json.array 1 (r.notes.map Note.json))]

def jsonText (r : Report) : Bytes :=
  Json.object 0 (("path", Json.string r.path) ::
    ("tokens", Json.array 1 (r.entries.map Entry.jsonText)) :: r.notesField)

theorem json_eq {r : Report} (h : ∀ e ∈ r.entries, e.Finite) : r.json = .ok r.jsonText := by
  unfold json
  rw [mapM_eq_map fun e he => Entry.json_eq (h e he)]
  rfl

theorem print_json {r : Report} (h : ∀ e ∈ r.entries, e.Finite) :
    r.print .json .unlimited = ⟨r.jsonText ++ ascii "\n", none⟩ := by
  have hdocument : r.document Sink.unlimited.colours = .ok r.jsonText := json_eq h
  unfold print writes
  dsimp only
  rw [hdocument]
  dsimp only
  rw [Sink.takeAll_of_room_none rfl]
  simp

/-- All texts of a report are valid, and its entries can be those of a scan. -/
structure Told (r : Report) : Prop where
  path : Utf8.valid r.path
  entries : ∀ e ∈ r.entries, e.IsPiece
  notes : ∀ n ∈ r.notes, n.Valid

/-- A document tells its report, whatever follows. -/
theorem jsonText_append_inj {r r' : Report} {u v : Bytes} (hr : r.Told) (hr' : r'.Told)
    (h : r.jsonText ++ u = r'.jsonText ++ v) : r = r' := by
  unfold jsonText at h
  simp only [Json.object_cons, Json.members_cons, List.cons_append, List.append_assoc] at h
  have h := List.append_cancel_left (List.append_cancel_left (List.cons.inj h).2)
  obtain ⟨hpath, h⟩ := Json.delimited_string hr.path hr'.path h
  obtain ⟨hentries, h⟩ := delimited_entry.array 1 hr.entries hr'.entries (List.append_cancel_left h)
  obtain ⟨hnotes, -⟩ := (delimited_note.array 1).optional [] 0 "diagnostics" hr.notes hr'.notes h
  cases r
  cases r'
  simp_all

end Report

/-! ## Scans of valid sources -/

section Scans

variable {source : Bytes} {o : Options} {t : Token} {g : Diagnostic}

theorem known_of_mem_tokenize (h : t ∈ (tokenize source o).1) :
    (t.kind, t.literal) ∈ Piece.shapes := by
  obtain ⟨s, hs, rfl⟩ := List.mem_map.1 h
  refine forall_mem_steps (P := fun s => (s.token.kind, s.token.literal) ∈ Piece.shapes) ?_ ?_
    (inside_start source) s hs
  · intro d _
    exact Piece.known_eof
  · intro d x f t _ hr
    rw [hr.token_kind, hr.token_literal]
    exact hr.longest.spells.mem_shapes

theorem isPiece_of_mem_tokenize (hv : Utf8.valid source) (h : t ∈ (tokenize source o).1) :
    (t.entryIn source).IsPiece := by
  obtain ⟨u, hu, hvu⟩ := (valid_of_mem_tokens hv h).1
  have hknown := known_of_mem_tokenize h
  obtain ⟨s, hs, rfl⟩ := List.mem_map.1 h
  have hpiece := (carries_steps (inside_start source) s hs).eq_piece hu rfl rfl
  exact ⟨⟨s.token.kind, s.token.literal, u⟩, s.token.span, hknown, hvu, (Prod.mk.inj hpiece).2⟩

theorem finite_of_mem_tokenize (h : t ∈ (tokenize source o).1) : (t.entryIn source).Finite := by
  intro y hy
  unfold Token.entryIn at hy
  split at hy
  · dsimp only at hy
    cases hv : t.value with
    | float x =>
      rw [hv] at hy
      cases hy
      exact (isFinite_and_negative_of_mem_tokenize h hv).1
    | _ =>
      rw [hv] at hy
      cases hy
  · cases hy

/-! ## Diagnostics -/

theorem Tag.IsNamed.valid {tag : Tag} (h : tag.IsNamed) : Utf8.valid tag.name := by
  cases tag with
  | other name => exact h.elim
  | _ => decide

theorem valid_radixName (r : Radix) : Utf8.valid r.name := by
  cases r with
  | numbered base h =>
    exact Utf8.valid_append (Utf8.valid_append (by decide) (valid_signedDecimal _)) (by decide)
  | _ => decide

theorem valid_className (c : LiteralClass) : Utf8.valid c.name := by
  cases c with
  | numbered code h =>
    exact Utf8.valid_append (Utf8.valid_append (by decide) (valid_signedDecimal _)) (by decide)
  | _ => decide

theorem valid_literalName (l : Literal) : Utf8.valid l.name := by
  have hopen : Utf8.valid (ascii "\x7bradix: ") := by decide
  have hclose : Utf8.valid (ascii "\x7d") := by decide
  unfold Literal.name
  split <;> simp [Utf8.valid_append_eq, valid_className, valid_radixName, hopen, hclose]

/-- The reasons of this library are told in valid texts, whatever the lexemes are. -/
theorem Reason.IsNamed.valid {r : Reason} (h : r.IsNamed) : Utf8.valid r.message := by
  have herror : ∀ e : NumberError, Utf8.valid e.message := by
    intro e
    cases e <;> decide
  have htext : ∀ text ∈ ["prefix length ", " out of range for ", "unsupported radix: ",
      "strconv.ParseUint(", ", ", "): strconv.ParseUint: parsing ", ": ", "strconv.ParseFloat(",
      "): strconv.ParseFloat: parsing ", ": literal decoding is not implemented for this kind"],
      Utf8.valid (ascii text) := by
    decide
  cases r with
  | plain text => exact h.elim
  | _ =>
    simp [Reason.message, Utf8.valid_append_eq, valid_quote, valid_signedDecimal, valid_radixName,
      valid_literalName, herror, htext]

theorem valid_of_mem_diagnostics (h : g ∈ (tokenize source o).2) : (Note.ofDiagnostic g).Valid := by
  have hnamed := named_of_mem_tokenize h
  refine ⟨hnamed.tag.valid, ?_⟩
  unfold Note.ofDiagnostic
  cases hr : g.reason with
  | none => rfl
  | some r => exact (hnamed.reason r hr).valid

end Scans

/-! ## Reports -/

/-- A source scanned and reported, with the tokens that are shown. -/
def report (path source : Bytes) (skipTrivia : Bool) (only : List Kind) (o : Options) :
    Except SliceError Report :=
  Report.build path source (Command.shown skipTrivia only (tokenize source o).1)
    (tokenize source o).2

/-- The report of a valid source is there, can be printed, and is told by what is printed. -/
theorem exists_report {path source : Bytes} (hpath : Utf8.valid path) (hv : Utf8.valid source)
    (skipTrivia : Bool) (only : List Kind) (o : Options) :
    ∃ r, report path source skipTrivia only o = .ok r ∧
      r.print .json .unlimited = ⟨r.jsonText ++ ascii "\n", none⟩ ∧ r.Told := by
  refine ⟨_, build_shown path source o skipTrivia only _, Report.print_json ?_, hpath, ?_, ?_⟩
  · intro e he
    obtain ⟨t, ht, rfl⟩ := List.mem_map.1 he
    exact finite_of_mem_tokenize (mem_of_mem_shown ht)
  · intro e he
    obtain ⟨t, ht, rfl⟩ := List.mem_map.1 he
    exact isPiece_of_mem_tokenize hv (mem_of_mem_shown ht)
  · intro n hn
    obtain ⟨g, hg, rfl⟩ := List.mem_map.1 hn
    exact valid_of_mem_diagnostics hg

/-- Two reports that are printed alike in JSON are equal. -/
theorem report_json_inj {path₁ path₂ s₁ s₂ : Bytes} (hpath₁ : Utf8.valid path₁)
    (hpath₂ : Utf8.valid path₂) (hs₁ : Utf8.valid s₁) (hs₂ : Utf8.valid s₂)
    (skipTrivia₁ skipTrivia₂ : Bool) (only₁ only₂ : List Kind) (o₁ o₂ : Options) :
    ∃ r₁ r₂ out₁ out₂, report path₁ s₁ skipTrivia₁ only₁ o₁ = .ok r₁ ∧
      report path₂ s₂ skipTrivia₂ only₂ o₂ = .ok r₂ ∧
      r₁.print .json .unlimited = ⟨out₁, none⟩ ∧ r₂.print .json .unlimited = ⟨out₂, none⟩ ∧
      (out₁ = out₂ → r₁ = r₂) := by
  obtain ⟨r₁, hr₁, hprint₁, htold₁⟩ := exists_report hpath₁ hs₁ skipTrivia₁ only₁ o₁
  obtain ⟨r₂, hr₂, hprint₂, htold₂⟩ := exists_report hpath₂ hs₂ skipTrivia₂ only₂ o₂
  exact ⟨r₁, r₂, _, _, hr₁, hr₂, hprint₁, hprint₂, Report.jsonText_append_inj htold₁ htold₂⟩

/-- A float that is written like an integer, an integer and an accent: two sources that differ in
what is not shown are printed alike. -/
theorem report_json_inj_blanks :
    let spaces := ascii "3. 3 \"" ++ Utf8.encode 'é'
    let tabs := ascii "3.\t3\t\"" ++ Utf8.encode 'é'
    ∃ r₁ r₂ out, report (ascii "a.c") spaces false [] {} = .ok r₁ ∧
      report (ascii "a.c") tabs true [] { emitWhitespace := true } = .ok r₂ ∧
      r₁.print .json .unlimited = ⟨out, none⟩ ∧ r₂.print .json .unlimited = ⟨out, none⟩ ∧
      r₁ = r₂ := by
  intro spaces tabs
  have halike : (report (ascii "a.c") spaces false [] {}).map (·.print .json .unlimited) =
      (report (ascii "a.c") tabs true [] { emitWhitespace := true }).map
        (·.print .json .unlimited) := by
    decide +kernel
  have hpath : Utf8.valid (ascii "a.c") := by decide
  have hspaces : Utf8.valid spaces := by decide
  have htabs : Utf8.valid tabs := by decide
  obtain ⟨r₁, r₂, out₁, out₂, h₁, h₂, hprint₁, hprint₂, hinj⟩ :=
    report_json_inj hpath hpath hspaces htabs false true [] [] {} { emitWhitespace := true }
  rw [h₁, h₂, Except.map, Except.map, hprint₁, hprint₂, Except.ok.injEq, Printed.mk.injEq] at halike
  obtain rfl := halike.1
  exact ⟨r₁, r₂, out₁, h₁, h₂, hprint₁, hprint₂, hinj rfl⟩

end Lexis
