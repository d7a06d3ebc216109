import Lexis.Command.Run
import Lexis.Proofs.Scan.Reports
import Lexis.Proofs.Scan.Runs

/-!
# Building a report

Every token of a scan has a text in its source, so a report can be built of any choice of its
tokens: it is the list of their entries and of the notes of the diagnostics.

* `text_of_mem_tokenize`: the text of each token is there.
* `named_of_mem_tokenize`: tags and reasons are those of this library.
* `build_tokenize`, `build_shown`: so is the report of all of them, or of those that are shown.
* `Sink.takeAll_eq`: what a sink takes of a series of writes, and what it refuses.
* `print_text`: as plain text, the report is its lines.
-/
namespace Lexis

open Grammar Cursor

/-! ## Entries -/

/-- The entry of a token that has a text in its source. -/
def Token.entryIn (source : Bytes) (t : Token) : Entry :=
  if t.kind = .literal then
    ⟨t.kind.name, t.literal.name, t.span, t.textIn source, t.value.payload?⟩
  else ⟨t.kind.name, [], t.span, t.textIn source, none⟩

theorem text_of_mem_tokenize {source : Bytes} {o : Options} {t : Token}
    (h : t ∈ (tokenize source o).1) : t.text source = .ok (t.textIn source) := by
  obtain ⟨s, hs, rfl⟩ := List.mem_map.1 h
  exact (carries_steps (inside_start source) s hs).text

theorem value_of_mem_tokenize {source : Bytes} {o : Options} {t : Token}
    (h : t ∈ (tokenize source o).1) : t.value = t.valueIn source := by
  obtain ⟨s, hs, rfl⟩ := List.mem_map.1 h
  exact (carries_steps (inside_start source) s hs).value

theorem ofToken_eq {source : Bytes} {t : Token} (h : t.text source = .ok (t.textIn source)) :
    Entry.ofToken source t = .ok (t.entryIn source) := by
  rw [Entry.ofToken, h]
  rfl

theorem mapM_eq_map {α β ε : Type} {f : α → Except ε β} {g : α → β} {l : List α}
    (h : ∀ a ∈ l, f a = .ok (g a)) : l.mapM f = .ok (l.map g) := by
  induction l with
  | nil => rfl
  | cons a l ih =>
    have hhead : f a = .ok (g a) := h a (by simp)
    have htail : l.mapM f = .ok (l.map g) := ih fun b hb => h b (by simp [hb])
    rw [List.mapM_cons, hhead, htail]
    rfl

/-! ## Notes -/

/-- The tag and the reason of a diagnostic are those of this library. -/
structure Diagnostic.Named (g : Diagnostic) : Prop where
  tag : g.tag.IsNamed
  reason : ∀ r, g.reason = some r → r.IsNamed

theorem Tag.isNamed_of_isUnterminated {tag : Tag} (h : tag.isUnterminated) : tag.IsNamed := by
  cases tag with
  | other name => cases h
  | _ => trivial

theorem Recognises.named {o : Options} {d : Cursor} {x : Lexeme} {f : Form} {t : Bytes}
    (h : Recognises o d x f t) : ∀ g ∈ (Step.ofLexeme d x).diagnostics, g.Named := by
  intro g hg
  rcases Step.of_mem_ofLexeme hg with ⟨tag, htag, rfl⟩ | ⟨v, tag, reason, hdecode, rfl⟩
  · rw [h.missing] at htag
    have hunclosed := Form.isUnterminated_of_missing htag
    exact ⟨Tag.isNamed_of_isUnterminated hunclosed, fun r hr => nomatch hr⟩
  · cases Literal.returns_of_decode hdecode with
    | failure htag hreason =>
      refine ⟨htag, ?_⟩
      rintro r ⟨⟩
      exact hreason

theorem named_of_mem_tokenize {source : Bytes} {o : Options} {g : Diagnostic}
    (h : g ∈ (tokenize source o).2) : g.Named := by
  obtain ⟨s, hs, hg⟩ := List.mem_flatMap.1 h
  have hall : ∀ s ∈ (Cursor.start source).steps o, ∀ g ∈ s.diagnostics, g.Named := by
    refine forall_mem_steps ?_ ?_ (inside_start source)
    · intro d _ g hg
      cases hg
    · intro d x f t _ hr
      exact hr.named
  exact hall s hs g hg

/-! ## Reports -/

theorem mem_of_mem_shown {skipTrivia : Bool} {only : List Kind} {ts : List Token} {t : Token}
    (h : t ∈ Command.shown skipTrivia only ts) : t ∈ ts := by
  have hkept : ∀ t ∈ (if skipTrivia then (Stream.mk ts).significant else ts), t ∈ ts := by
    intro t ht
    split at ht
    · exact (List.mem_filter.1 ht).1
    · exact ht
  unfold Command.shown at h
  dsimp only at h
  split at h
  · exact hkept t h
  · exact hkept t (List.mem_filter.1 h).1

/-- The report of tokens that have a text in their source. -/
def reportOf (path source : Bytes) (ts : List Token) (gs : List Diagnostic) : Report :=
  ⟨path, ts.map (·.entryIn source), gs.map Note.ofDiagnostic⟩

theorem build_eq (path : Bytes) {source : Bytes} {ts : List Token} (gs : List Diagnostic)
    (h : ∀ t ∈ ts, t.text source = .ok (t.textIn source)) :
    Report.build path source ts gs = .ok (reportOf path source ts gs) := by
  rw [Report.build, mapM_eq_map fun t ht => ofToken_eq (h t ht)]
  rfl

theorem build_tokenize (path source : Bytes) (o : Options) (gs : List Diagnostic) :
    Report.build path source (tokenize source o).1 gs =
      .ok (reportOf path source (tokenize source o).1 gs) :=
  build_eq path gs fun _ ht => text_of_mem_tokenize ht

/-- A report can be built of whatever is shown of a scan. -/
theorem build_shown (path source : Bytes) (o : Options) (skipTrivia : Bool) (only : List Kind)
    (gs : List Diagnostic) :
    Report.build path source (Command.shown skipTrivia only (tokenize source o).1) gs =
      .ok (reportOf path source (Command.shown skipTrivia only (tokenize source o).1) gs) :=
  build_eq path gs fun _ ht => text_of_mem_tokenize (mem_of_mem_shown ht)

/-! ## Sinks -/

namespace Sink

/-- The writes that a sink takes. -/
def taken (sink : Sink) (ws : List Write) : List Write :=
  match sink.room with
  | some n => ws.take n
  | none => ws

/-- The write that is refused, if there is one. -/
def refused? (sink : Sink) (ws : List Write) : Option Write := sink.room.bind fun n => ws[n]?

theorem takeAll_eq (sink : Sink) (ws : List Write) :
    sink.takeAll ws = ⟨(sink.taken ws).flatMap (·.bytes),
      (sink.refused? ws).map fun w => .refused w.call sink.failure⟩ := by
  fun_induction takeAll sink ws with
  | case1 sink => cases h : sink.room <;> simp [taken, refused?, h]
  | case2 sink w rest hroom => simp [taken, refused?, hroom]
  | case3 sink w rest room hroom after ih => simp [after, ih, taken, refused?, hroom]
  | case4 sink w rest hroom after ih => simp [after, ih, taken, refused?, hroom]

theorem refused?_isSome {sink : Sink} {n : Nat} (h : sink.room = some n) (ws : List Write) :
    (sink.refused? ws).isSome ↔ n < ws.length := by
  simp [refused?, h]

theorem takeAll_of_room_none {sink : Sink} (h : sink.room = none) (ws : List Write) :
    sink.takeAll ws = ⟨ws.flatMap (·.bytes), none⟩ := by
  simp [takeAll_eq, taken, refused?, h]

end Sink

/-! ## Lines -/

/-- The lines of a report in plain text. -/
def Report.lines (r : Report) : List Bytes :=
  r.entries.map Entry.textLine ++ r.notes.map (Note.textLine r.path)

theorem print_text (r : Report) {sink : Sink} (h : sink.room = none) :
    r.print .text sink = ⟨r.lines.flatten, none⟩ := by
  unfold Report.print Report.writes
  dsimp only
  rw [Sink.takeAll_of_room_none h]
  simp [Report.lines, List.flatMap_def, Function.comp_def]

theorem lines_reportOf (path source : Bytes) (ts : List Token) (gs : List Diagnostic) :
    (reportOf path source ts gs).lines = (ts.map fun t => (t.entryIn source).textLine) ++
      gs.map fun g => (Note.ofDiagnostic g).textLine path := by
  simp [reportOf, Report.lines, Function.comp_def]

end Lexis
