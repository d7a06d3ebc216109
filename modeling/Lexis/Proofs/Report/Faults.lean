import Lexis.Proofs.Report.Building
import Lexis.Proofs.Scan.Checked

/-!
# No fault between source and report

The whole way of a source with every access checked: tokens are scanned by offset and pushed onto a
stream one by one, each with its line of the trace; what is shown of them becomes a report, which is
printed in a format that is given by name again. Nothing on this way can fail.

* `drain_step`, `drain_eq`: a checked run ends, with the tokens, the diagnostics and the trace of
  the run.
* `print_eq`: a format that was read from a name is known when a report is printed.
-/
namespace Lexis

open Grammar Cursor

/-! ## The trace -/

/-- The line of the trace for a token that has a text in its source. -/
def Token.traceIn (source : Bytes) (t : Token) : Bytes :=
  ascii "token: " ++ t.render ++ ascii " " ++ quote (t.textIn source)

theorem traceLine_eq {source : Bytes} {t : Token} (h : t.text source = .ok (t.textIn source)) :
    Scanner.traceLine source t = .ok (t.traceIn source) := by
  rw [Scanner.traceLine, h]
  rfl

namespace Checked

/-! ## Scanning to the end -/

/-- What a scan has given so far. -/
structure Scan where
  stream : Stream
  diagnostics : List Diagnostic
  trace : List Bytes

/-- The scan that has given nothing yet. -/
def Scan.start : Scan := ⟨.empty, [], []⟩

/-- What a token adds to the trace. -/
def trace (source : Bytes) (debug : Bool) (t : Token) : Except Fault (List Bytes) := do
  if debug then return [← (Scanner.traceLine source t).mapError .slice] else return []

/-- Scans to the end from a cursor. Each token but the last must take something of the source. -/
def drain (source : Bytes) (o : Options) (debug : Bool) (c : Cursor) (done : Scan) :
    Except Fault Scan := do
  let s ← step source o c
  let told ← trace source debug s.token
  let stream ← (done.stream.tryPush s.token).mapError .push
  let done' : Scan := ⟨stream, done.diagnostics ++ s.diagnostics, done.trace ++ told⟩
  if s.token.isEof then return done'
  if _h : c.offset < s.stop.offset ∧ s.stop.offset ≤ source.length then
    drain source o debug s.stop done'
  else throw (.stuck c.offset)
termination_by source.length - c.offset

/-- The scan `done`, and then the steps `ss`. -/
def Scan.add (source : Bytes) (debug : Bool) (done : Scan) (ss : List Step) : Scan where
  stream := ⟨done.stream.tokens ++ ss.map (·.token)⟩
  diagnostics := done.diagnostics ++ ss.flatMap (·.diagnostics)
  trace := done.trace ++ if debug then ss.map (·.token.traceIn source) else []

/-- Nothing of the scan is the end, so more can be pushed. -/
def Scan.Open (done : Scan) : Prop := done.stream.tokens.getLast?.any Token.isEof = false

variable {source : Bytes} {o : Options} {debug : Bool} {c d : Cursor} {done : Scan}

theorem trace_eq {s : Step} (h : Carries source s) :
    trace source debug s.token = .ok (if debug then [s.token.traceIn source] else []) := by
  unfold trace
  rw [traceLine_eq h.text]
  cases debug <;> rfl

theorem tryPush_eq (h : done.Open) (t : Token) :
    done.stream.tryPush t = .ok ⟨done.stream.tokens ++ [t]⟩ := by
  rw [Stream.tryPush, Stream.push, h]
  rfl

theorem Scan.Open.add {s : Step} (hs : s.token.kind ≠ .eof) :
    (done.add source debug [s]).Open := by
  simp [Scan.Open, Scan.add, Token.isEof, hs]

theorem Scan.add_add (ss ss' : List Step) :
    (done.add source debug ss).add source debug ss' = done.add source debug (ss ++ ss') := by
  cases debug <;> simp [Scan.add]

/-- One round: the step is added, and unless it is the end the scan goes on behind it. -/
theorem drain_step {s : Step} (hopen : done.Open) (hs : step source o c = .ok s)
    (hc : Carries source s) :
    drain source o debug c done =
      if s.token.isEof then .ok (done.add source debug [s])
      else if c.offset < s.stop.offset ∧ s.stop.offset ≤ source.length then
        drain source o debug s.stop (done.add source debug [s])
      else .error (.stuck c.offset) := by
  rw [drain, hs, ok_bind, trace_eq hc, ok_bind, tryPush_eq hopen]
  have hadd : done.add source debug [s] = ⟨⟨done.stream.tokens ++ [s.token]⟩,
      done.diagnostics ++ s.diagnostics,
      done.trace ++ if debug then [s.token.traceIn source] else []⟩ := by
    simp [Scan.add]
  rw [hadd]
  rfl

/-- A checked run ends with what the run gives. -/
theorem drain_eq (hc : c.Inside source) (hopen : done.Open) :
    drain source o debug c done = .ok (done.add source debug (c.steps o)) := by
  revert hc hopen done
  refine steps_induction (motive := fun c ss => ∀ {done : Scan}, c.Inside source → done.Open →
    drain source o debug c done = .ok (done.add source debug ss)) ?_ ?_ c
  · intro c gap d hg hd done hc hopen
    have hsteps := steps_of_eof hg hd
    have hs : step source o c = .ok (.atEof d) := by
      rw [step_eq o hc, (Takes.eof hg hd).eq_step]
    have hcarries := carries_steps (o := o) hc (.atEof d) (by simp [hsteps])
    rw [drain_step hopen hs hcarries]
    rfl
  · intro c gap d x f t hg hr ih done hc hopen
    have hsteps := steps_of_lexeme hg hr
    have hs : step source o c = .ok (.ofLexeme d x) := by
      rw [step_eq o hc, (Takes.lexeme hg hr).eq_step]
    have hcarries := carries_steps (o := o) hc (.ofLexeme d x) (by simp [hsteps])
    have hstop : x.stop.Inside source := (hc.reads hg.reads).reads hr.reads
    have hpos := List.length_pos_iff.2 hr.longest.spells.ne_nil
    have hmove : c.offset < x.stop.offset ∧ x.stop.offset ≤ source.length := by
      refine ⟨?_, hstop.offset_le⟩
      rw [hr.reads.offset, hg.reads.offset]
      omega
    rw [drain_step hopen hs hcarries, Step.stop_ofLexeme, if_pos hmove,
      ih hstop (Scan.Open.add hr.token_ne_eof), Scan.add_add]
    simp [Token.isEof, hr.token_ne_eof]

theorem drain_start (source : Bytes) (o : Options) (debug : Bool) :
    drain source o debug (.start source) .start = .ok
      ⟨⟨(tokenize source o).1⟩, (tokenize source o).2,
        if debug then (tokenize source o).1.map (·.traceIn source) else []⟩ := by
  have hopen : Scan.start.Open := rfl
  rw [drain_eq (inside_start source) hopen, tokenize_eq]
  simp [Scan.add, Scan.start, Stream.empty, Function.comp_def]

/-! ## The whole way -/

/-- Prints in a format that is given by name; another name is a fault. -/
def print (r : Report) (name : Bytes) (sink : Sink) : Except Fault Printed :=
  let printed := r.printNamed name sink
  match printed.error with
  | some (.unknownFormat name) => .error (.unknownFormat name)
  | _ => .ok printed

/-- From a source to the trace of the scan and what is printed of it. -/
def report (path source : Bytes) (o : Options) (skipTrivia debug : Bool) (only : List Kind)
    (format : Format) (sink : Sink) : Except Fault (List Bytes × Printed) := do
  let scan ← drain source o debug (.start source) .start
  let shown := Command.shown skipTrivia only scan.stream.tokens
  let report ← (Report.build path source shown scan.diagnostics).mapError .slice
  let printed ← print report format.name sink
  return (scan.trace, printed)

theorem ofName?_name (f : Format) : Format.ofName? f.name = some f := by
  cases f <;> rfl

theorem takeAll_error (sink : Sink) (ws : List Write) (name : Bytes) :
    (sink.takeAll ws).error ≠ some (.unknownFormat name) := by
  fun_induction Sink.takeAll sink ws with
  | case1 => simp
  | case2 => simp
  | case3 _ _ _ _ _ _ ih => exact ih
  | case4 _ _ _ _ _ ih => exact ih

theorem print_error (r : Report) (f : Format) (sink : Sink) (name : Bytes) :
    (r.print f sink).error ≠ some (.unknownFormat name) := by
  unfold Report.print
  split
  · exact takeAll_error sink _ name
  · next e he =>
    cases f with
    | text | yaml => cases he
    | json =>
      unfold Report.writes at he
      dsimp only at he
      split at he
      · cases he
      · cases he
        simp

theorem print_eq (r : Report) {name : Bytes} {f : Format} (h : Format.ofName? name = some f)
    (sink : Sink) : print r f.name sink = .ok (r.printNamed name sink) := by
  have hname : r.printNamed name sink = r.print f sink := by
    rw [Report.printNamed, h]
  have hf : r.printNamed f.name sink = r.print f sink := by
    rw [Report.printNamed, ofName?_name]
  unfold print
  rw [hf, hname]
  dsimp only
  split
  · next n hn => exact absurd hn (print_error r f sink n)
  · rfl

end Checked

/-- From a source to a report nothing fails, whatever is in the source and whatever is shown of
it. -/
theorem no_fault (path source : Bytes) (o : Options) (skipTrivia debug : Bool) (only : List Kind)
    (sink : Sink) {name : Bytes} {format : Format} (hformat : Format.ofName? name = some format) :
    ∃ report trace,
      Report.build path source (Command.shown skipTrivia only (tokenize source o).1)
        (tokenize source o).2 = .ok report ∧
      (tokenize source o).1.mapM (Scanner.traceLine source) = .ok trace ∧
      Checked.report path source o skipTrivia debug only format sink =
        .ok (if debug then trace else [], report.printNamed name sink) := by
  have hbuild := build_shown path source o skipTrivia only (tokenize source o).2
  have htrace : (tokenize source o).1.mapM (Scanner.traceLine source) =
      .ok ((tokenize source o).1.map (·.traceIn source)) :=
    mapM_eq_map fun t ht => traceLine_eq (text_of_mem_tokenize ht)
  refine ⟨_, _, hbuild, htrace, ?_⟩
  unfold Checked.report
  rw [Checked.drain_start, Checked.ok_bind]
  dsimp only
  rw [hbuild, Except.mapError, Checked.ok_bind, Checked.print_eq _ hformat, Checked.ok_bind]
  rfl

/-- A trace of a stray byte, a number without digits and a string that is not closed, of which only
the literals are shown, in the format that has no name. -/
theorem no_fault_literals :
    let source := 0xFF :: ascii "0x \"a\n"
    Format.ofName? [] = some .text ∧
      ∃ report trace,
        Report.build (ascii "a.c") source (Command.shown true [.literal] (tokenize source {}).1)
          (tokenize source {}).2 = .ok report ∧
        (tokenize source {}).1.mapM (Scanner.traceLine source) = .ok trace ∧
        Checked.report (ascii "a.c") source {} true true [.literal] .text .unlimited =
          .ok (trace, report.printNamed [] .unlimited) :=
  ⟨rfl, no_fault _ _ _ true true [.literal] .unlimited rfl⟩

end Lexis
