import Lexis.Proofs.Report.Faithful

/-!
# Printing to a sink that fails

A report is printed by a series of writes, and which ones these are does not depend on how many the
sink takes. So a sink that takes only so many of them holds the first ones, whole and in order, and
the write after them is told as the error. The report of a scan has no other error: no literal has a
value that cannot be written, in plain JSON or in the colours of a terminal.

* `document_eq`, `writes_eq`: the document, and the writes of each format.
* `print_of_scan`: the report of any scan, in any format, to any sink.
-/
namespace Lexis

/-! ## Writes -/

/-- A terminal fails to write a document only because of a number that is not finite. -/
def WritesFinite (encode : Report → Except Binary64 Bytes) : Prop :=
  ∀ r : Report, (∀ e ∈ r.entries, e.Finite) → ∃ document, encode r = .ok document

namespace Report

/-- What each write of a report holds: a line, the document or the newline behind it. -/
def chunks (r : Report) (document : Bytes) : Format → List Bytes
  | .text => r.lines
  | .json => [document, ascii "\n"]
  | .yaml => [r.yaml]

variable {r : Report} {colours : Option (Report → Except Binary64 Bytes)}

theorem document_eq (h : ∀ e ∈ r.entries, e.Finite)
    (hcolours : ∀ encode, colours = some encode → WritesFinite encode) :
    ∃ document, r.document colours = .ok document ∧ (colours = none → document = r.jsonText) := by
  cases colours with
  | none => exact ⟨r.jsonText, json_eq h, fun _ => rfl⟩
  | some encode =>
    obtain ⟨document, hdocument⟩ := hcolours encode rfl r h
    exact ⟨document, hdocument, fun hnone => by cases hnone⟩

theorem writes_eq {document : Bytes} (h : r.document colours = .ok document) (format : Format) :
    ∃ calls, r.writes colours format = .ok calls ∧
      calls.map (·.bytes) = r.chunks document format := by
  cases format with
  | text => exact ⟨_, rfl, by simp [chunks, lines, Function.comp_def]⟩
  | json =>
    refine ⟨[⟨document, ascii "w.Write"⟩, ⟨ascii "\n", ascii "io.WriteString"⟩], ?_, rfl⟩
    rw [writes, h]
  | yaml => exact ⟨_, rfl, rfl⟩

theorem printNamed_eq {name : Bytes} {format : Format} {calls : List Write} (sink : Sink)
    (hformat : Format.ofName? name = some format)
    (hcalls : r.writes sink.colours format = .ok calls) :
    r.printNamed name sink = ⟨(sink.taken calls).flatMap (·.bytes),
      (sink.refused? calls).map fun w => .refused w.call sink.failure⟩ := by
  rw [printNamed, hformat]
  dsimp only
  rw [print, hcalls]
  exact sink.takeAll_eq calls

end Report

/-! ## Scans -/

theorem finite_shown (path source : Bytes) (o : Options) (skipTrivia : Bool) (only : List Kind)
    (gs : List Diagnostic) :
    ∀ e ∈ (reportOf path source (Command.shown skipTrivia only (tokenize source o).1) gs).entries,
      e.Finite := by
  intro e he
  obtain ⟨t, ht, rfl⟩ := List.mem_map.1 he
  exact finite_of_mem_tokenize (mem_of_mem_shown ht)

/-- What is printed of a scan is a series of writes: one for each token that is shown and then one
for each diagnostic, or the document and a newline, or the document. A sink with room for `n` of
them takes the first `n`, and there is an error just when one more is left; a sink that never fails
takes all, without an error. On a terminal the document is another one, and nothing else changes. -/
theorem print_of_scan (path source : Bytes) (o : Options) (skipTrivia : Bool) (only : List Kind)
    {name : Bytes} {format : Format} (hformat : Format.ofName? name = some format)
    (colours : Option (Report → Except Binary64 Bytes))
    (hcolours : ∀ encode, colours = some encode → WritesFinite encode) :
    let report := reportOf path source (Command.shown skipTrivia only (tokenize source o).1)
      (tokenize source o).2
    Report.build path source (Command.shown skipTrivia only (tokenize source o).1)
      (tokenize source o).2 = .ok report ∧
    ∃ document calls, report.document colours = .ok document ∧
      (colours = none → document = report.jsonText) ∧
      report.writes colours format = .ok calls ∧
      calls.map (·.bytes) = report.chunks document format ∧
      (∀ failure, report.printNamed name ⟨none, failure, colours⟩ =
        ⟨calls.flatMap (·.bytes), none⟩) ∧
      ∀ n failure, report.printNamed name ⟨some n, failure, colours⟩ =
          ⟨(calls.take n).flatMap (·.bytes), calls[n]?.map fun w => .refused w.call failure⟩ ∧
        ((report.printNamed name ⟨some n, failure, colours⟩).error.isSome ↔
          n < calls.length) := by
  intro report
  obtain ⟨document, hdocument, hplain⟩ := report.document_eq
    (finite_shown path source o skipTrivia only (tokenize source o).2) hcolours
  obtain ⟨calls, hcalls, hchunks⟩ := report.writes_eq hdocument format
  have hprint : ∀ room failure, report.printNamed name ⟨room, failure, colours⟩ = _ :=
    fun room failure => report.printNamed_eq ⟨room, failure, colours⟩ hformat hcalls
  refine ⟨build_shown path source o skipTrivia only _, document, calls, hdocument, hplain, hcalls,
    hchunks, ?_, ?_⟩
  · intro failure
    exact hprint none failure
  · intro n failure
    refine ⟨hprint (some n) failure, ?_⟩
    rw [hprint, Option.isSome_map]
    exact Sink.refused?_isSome rfl calls

/-- A document without the newline behind it, of a float and a string that is not closed. -/
theorem print_of_scan_newline :
    let source := ascii "1.5 \"a"
    let report := reportOf (ascii "a.c") source
      (Command.shown true [.literal] (tokenize source {}).1) (tokenize source {}).2
    let sink : Nat → Sink := fun n => { room := some n, failure := ascii "full" }
    Format.ofName? (ascii "json") = some .json ∧
      (report.printNamed (ascii "json") (sink 1)).output = report.jsonText ∧
      (report.printNamed (ascii "json") (sink 1)).error.isSome ∧
      (report.printNamed (ascii "json") (sink 2)).error.isSome = false := by
  intro source report sink
  have hformat : Format.ofName? (ascii "json") = some .json := by decide
  obtain ⟨-, document, calls, -, hplain, -, hchunks, -, hlimited⟩ :=
    print_of_scan (ascii "a.c") source {} true [.literal] hformat none nofun
  have hlength : calls.length = 2 := by
    have h := congrArg List.length hchunks
    rwa [List.length_map] at h
  obtain ⟨first, second, rfl⟩ := List.length_eq_two.1 hlength
  obtain ⟨hone, hshort⟩ := hlimited 1 (ascii "full")
  obtain ⟨-, hlong⟩ := hlimited 2 (ascii "full")
  refine ⟨hformat, ?_, hshort.2 (by simp), ?_⟩
  · rw [hone, ← hplain rfl]
    simpa [Report.chunks] using (List.cons.inj hchunks).1
  · rw [Bool.eq_false_iff]
    intro h
    exact absurd (hlong.1 h) (by simp)

end Lexis
