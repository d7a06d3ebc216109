import Lexis.Proofs.Scan.Calls

/-!
# Line numbers

A cursor counts line feeds character by character, but the line of a place in a source is a matter
of bytes (`lineAt`). The two agree wherever a cursor can stand, because no unit but the line feed
has its byte (`reads_advance`). A diagnostic has the line on which its token starts, not the one on
which it ends.

* `Cursor.Inside.line_eq`: a cursor in a source has the line of its offset.
* `Cursor.Inside.moveAll`: whatever is done with a cursor, it stays in its source.
* `located_steps`: so do the diagnostics of a run, with the lines of their places.
* `steps_starts_ordered`: and they come in the order of these places.
-/
namespace Lexis

open Grammar Cursor

/-- The line of a place in a source: one more than the line feeds before it. -/
def lineAt (source : Bytes) (n : Nat) : Nat := 1 + (source.take n).count (byte '\n')

theorem lineAt_mono (source : Bytes) {m n : Nat} (h : m ≤ n) :
    lineAt source m ≤ lineAt source n := by
  have hsub : (source.take m).Sublist (source.take n) := (List.take_prefix_take_left h).sublist
  have hcount := hsub.count_le (byte '\n')
  unfold lineAt
  omega

/-! ## Cursors -/

namespace Cursor

/-- What can be done with a cursor. -/
inductive Move where
  | peek
  | advance
  | advanceWhile (p : Char → Bool)

/-- The cursor behind a move. Looking ahead leaves it where it is. -/
def move (c : Cursor) : Move → Cursor
  | .peek => c
  | .advance => c.advance
  | .advanceWhile p => c.advanceWhile p

def moveAll (c : Cursor) (ms : List Move) : Cursor := ms.foldl move c

variable {source : Bytes} {c : Cursor}

theorem exists_reads_advance (c : Cursor) : ∃ t, c.Reads t c.advance := by
  cases hr : c.rest with
  | nil =>
    rw [advance_of_end hr]
    exact ⟨[], Reads.refl c⟩
  | cons b rest => exact ⟨_, reads_advance hr⟩

theorem exists_reads_advanceWhile (p : Char → Bool) (c : Cursor) :
    ∃ t, c.Reads t (c.advanceWhile p) := by
  fun_induction advanceWhile p c with
  | case1 c => exact ⟨[], Reads.refl c⟩
  | case2 c ch hc hp ih =>
    obtain ⟨t, ht⟩ := exists_reads_advance c
    obtain ⟨u, hu⟩ := ih
    exact ⟨t ++ u, ht.trans hu⟩
  | case3 c => exact ⟨[], Reads.refl c⟩

theorem Inside.advance (h : c.Inside source) : c.advance.Inside source := by
  obtain ⟨t, ht⟩ := exists_reads_advance c
  exact h.reads ht

theorem Inside.advanceWhile (h : c.Inside source) (p : Char → Bool) :
    (c.advanceWhile p).Inside source := by
  obtain ⟨t, ht⟩ := exists_reads_advanceWhile p c
  exact h.reads ht

theorem Inside.move (h : c.Inside source) (m : Move) : (c.move m).Inside source := by
  cases m with
  | peek => exact h
  | advance => exact h.advance
  | advanceWhile p => exact h.advanceWhile p

theorem Inside.moveAll (h : c.Inside source) (ms : List Move) : (c.moveAll ms).Inside source := by
  induction ms generalizing c with
  | nil => exact h
  | cons m ms ih => exact ih (h.move m)

theorem Inside.offset_le (h : c.Inside source) : c.offset ≤ source.length := by
  have hlen := h.offset_add_length
  omega

/-- The line is that of the offset: what was read to get there is what lies before it. -/
theorem Inside.line_eq (h : c.Inside source) : c.line = lineAt source c.offset := by
  obtain ⟨u, hu⟩ := h
  have hrest : source = u ++ c.rest := hu.rest
  have hoff : c.offset = 0 + u.length := hu.offset
  have hline : c.line = 1 + u.count (byte '\n') := hu.line
  rw [hline, hoff, Nat.zero_add, lineAt, hrest, List.take_left]

end Cursor

/-! ## Diagnostics -/

/-- The diagnostic stands in the source and has the line of the place where it starts. -/
def Diagnostic.Located (source : Bytes) (g : Diagnostic) : Prop :=
  ∃ n : Nat, g.span.start = n ∧ n ≤ source.length ∧ g.line = lineAt source n

theorem located_steps {source : Bytes} {o : Options} {c : Cursor} (hc : c.Inside source) :
    ∀ s ∈ c.steps o, ∀ g ∈ s.diagnostics, g.Located source := by
  revert hc
  refine steps_induction
    (motive := fun c ss => c.Inside source → ∀ s ∈ ss, ∀ g ∈ s.diagnostics, g.Located source)
    ?_ ?_ c
  · intro c gap d _ _ _ s hs g hg
    obtain rfl := List.mem_singleton.1 hs
    cases hg
  · intro c gap d x f t hg hr ih hc s hs g hmem
    have hd := hc.reads hg.reads
    rcases List.mem_cons.1 hs with rfl | hs
    · obtain ⟨hspan, hline⟩ := Step.place_of_mem_ofLexeme hmem
      -- The cursor before the lexeme gives both the start and the line.
      refine ⟨d.offset, by rw [hspan]; rfl, hd.offset_le, ?_⟩
      rw [hline, hd.line_eq]
    · exact ih (hd.reads hr.reads) s hs g hmem

/-- The diagnostics of a run come in the order in which they start. -/
theorem steps_starts_ordered (o : Options) (c : Cursor) :
    ((c.steps o).flatMap (·.diagnostics)).Pairwise fun g g' => g.span.start ≤ g'.span.start := by
  have hplaced := placed_steps o c
  rw [List.pairwise_flatMap]
  constructor
  · intro s hs
    refine List.pairwise_of_forall_mem_list ?_
    intro g hg g' hg'
    have hspan : g.span = g'.span := by
      rw [(hplaced s hs).span_eq g hg, (hplaced s hs).span_eq g' hg']
    exact Int.le_of_eq (congrArg Span.start hspan)
  · refine (steps_ordered o c).imp_of_mem ?_
    intro s s' hs hs' hle g hg g' hg'
    have hspan := (hplaced s hs).start_le_stop
    rw [(hplaced s hs).span_eq g hg, (hplaced s' hs').span_eq g' hg']
    omega

/-! ## Scanners -/

namespace Scanner

variable {source : Bytes} {o : Options} {s : Scanner}

theorem Scans.call (h : Scans source o s) (k : Call) : Scans source o (s.call k).2 := by
  cases k with
  | next => exact h.next
  | drain =>
    obtain ⟨body, e, hss, -, hread⟩ := exists_body s.options s.cursor
    rw [call_drain hss]
    exact ⟨h.source_eq, h.options_eq, h.inside.reads hread⟩

theorem Scans.run (h : Scans source o s) (ks : List Call) : Scans source o (s.run ks).2 := by
  induction ks generalizing s with
  | nil => exact h
  | cons k ks ih => exact ih (h.call k)

theorem scans_start (source : Bytes) (o : Options) : Scans source o (start source o) :=
  ⟨rfl, rfl, inside_start source⟩

/-- What was reported so far are the first diagnostics of the whole run. -/
theorem diagnostics_prefix_steps (source : Bytes) (o : Options) (ks : List Call) :
    ((start source o).run ks).2.diagnostics <+:
      ((Cursor.start source).steps o).flatMap (·.diagnostics) := by
  obtain ⟨body, e, hss, hbody, hread⟩ := exists_body o (Cursor.start source)
  have hstart : Stands body e [] (start source o) := .within [] body rfl hss rfl rfl
  have hstands := hstart.run hread.rest_eq_nil hbody ks
  exact (hstands.diagnostics_eq hss).1

end Scanner

/-- Line numbers are exact: of scanners, of cursors and of diagnostics. -/
theorem lines_exact (source : Bytes) (o : Options) (calls : List Scanner.Call)
    (moves : List Cursor.Move) :
    let s := ((Scanner.start source o).run calls).2
    let c := (Cursor.start source).moveAll moves
    (s.cursor.offset ≤ source.length ∧ s.line = lineAt source s.cursor.offset) ∧
      (c.offset ≤ source.length ∧ c.line = lineAt source c.offset) ∧
      (∀ g ∈ s.diagnostics, g.Located source) ∧
      s.diagnostics.Pairwise fun g g' => g.line ≤ g'.line := by
  intro s c
  have hs : s.cursor.Inside source := ((Scanner.scans_start source o).run calls).inside
  have hc : c.Inside source := (inside_start source).moveAll moves
  have hdone : s.diagnostics <+: _ := Scanner.diagnostics_prefix_steps source o calls
  have hlocated : ∀ g ∈ s.diagnostics, g.Located source := by
    intro g hg
    obtain ⟨p, hp, hgp⟩ := List.mem_flatMap.1 (hdone.subset hg)
    exact located_steps (inside_start source) p hp g hgp
  refine ⟨⟨hs.offset_le, hs.line_eq⟩, ⟨hc.offset_le, hc.line_eq⟩, hlocated, ?_⟩
  have hordered := (steps_starts_ordered o (Cursor.start source)).sublist hdone.sublist
  refine hordered.imp_of_mem ?_
  intro g g' hg hg' hle
  obtain ⟨n, hn, -, hline⟩ := hlocated g hg
  obtain ⟨n', hn', -, hline'⟩ := hlocated g' hg'
  have hmono := lineAt_mono source (show n ≤ n' by omega)
  omega

/-- A string that runs over a line: its report has the line of the quote, the scanner is one on. -/
theorem lines_exact_string :
    let source := ascii "\n\"a\nb"
    let s := ((Scanner.start source {}).run [.drain]).2
    let g : Diagnostic := ⟨.unterminatedString, ⟨1, 5⟩, 2, none⟩
    s.diagnostics = [g] ∧ s.line = 3 ∧ s.line = lineAt source s.cursor.offset ∧
      g.Located source := by
  intro source s g
  obtain ⟨hline, -, hlocated, -⟩ := lines_exact source {} [.drain] []
  have hg : s.diagnostics = [g] := by decide +kernel
  exact ⟨hg, by decide +kernel, hline.2, hlocated g (by rw [hg]; exact List.mem_singleton_self g)⟩

end Lexis
