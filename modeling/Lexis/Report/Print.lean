import Lexis.Report.Json
import Lexis.Report.Yaml

/-!
# Printing

A report is printed in one of three formats by a series of writes: a line each in plain text, the
document and a final newline in JSON, a single one in YAML. A sink may take only so many writes; the
first one that it refuses ends the printing. On a terminal a JSON document is written in colours, and
how that is done is up to the terminal.
-/
namespace Lexis

inductive Format where
  | text | json | yaml
  deriving DecidableEq, Repr

namespace Format

def name : Format → Bytes
  | text => ascii "text"
  | json => ascii "json"
  | yaml => ascii "yaml"

/-- The format of a name; plain text where no name is given (`ParseFormat`). -/
def ofName? (name : Bytes) : Option Format :=
  if name = [] then some text
  else [text, json, yaml].find? fun f => f.name = name

def unsupported (name : Bytes) : Bytes := ascii "unsupported format: " ++ name

end Format

/-- A write and the call that makes it. -/
structure Write where
  bytes : Bytes
  call : Bytes
  deriving DecidableEq, Repr

/-- Where a report goes: it takes `room` writes, or all, and then fails. -/
structure Sink where
  room : Option Nat
  failure : Bytes
  /-- How a terminal writes a document in colours; nothing for a sink that is no terminal. -/
  colours : Option (Report → Except Binary64 Bytes) := none

/-- The sink that never fails. -/
def Sink.unlimited : Sink := { room := none, failure := [] }

inductive PrintError where
  | unknownFormat (name : Bytes)
  | notFinite (x : Binary64)
  | refused (call failure : Bytes)
  deriving DecidableEq, Repr

def PrintError.message : PrintError → Bytes
  | unknownFormat name => ascii "should not reach here: format=" ++ name
  | notFinite x =>
    ascii "json.MarshalIndentWithOption: json: unsupported value: " ++ FloatLayout.compact.write x
  | refused call failure => call ++ ascii ": " ++ failure

/-- What came out of a print: the bytes that were taken, and the error that ended it. -/
structure Printed where
  output : Bytes
  error : Option PrintError
  deriving DecidableEq, Repr

/-- The JSON document of a report, with the colours of a terminal or without: the choice that
`writeJSON` makes by its writer. -/
def Report.document (r : Report) (colours : Option (Report → Except Binary64 Bytes)) :
    Except Binary64 Bytes :=
  match colours with
  | some encode => encode r
  | none => r.json

/-- The writes that print a report (`writeText`, `writeJSON`, `writeYAML`). -/
def Report.writes (r : Report) (colours : Option (Report → Except Binary64 Bytes)) :
    Format → Except PrintError (List Write)
  | .text => .ok <|
    r.entries.map (fun e => ⟨e.textLine, ascii "fmt.Fprintf"⟩)
      ++ r.notes.map fun n => ⟨n.textLine r.path, ascii "io.WriteString"⟩
  | .json =>
    match r.document colours with
    | .ok document => .ok [⟨document, ascii "w.Write"⟩, ⟨ascii "\n", ascii "io.WriteString"⟩]
    | .error x => .error (.notFinite x)
  | .yaml => .ok [⟨r.yaml, ascii "w.Write"⟩]

namespace Sink

/-- Hands the writes to a sink one after the other. -/
def takeAll (sink : Sink) : List Write → Printed
  | [] => ⟨[], none⟩
  | w :: rest =>
    match sink.room with
    | some 0 => ⟨[], some (.refused w.call sink.failure)⟩
    | some (room + 1) =>
      let after := takeAll { sink with room := some room } rest
      { after with output := w.bytes ++ after.output }
    | none =>
      let after := takeAll sink rest
      { after with output := w.bytes ++ after.output }

end Sink

/-- Prints a report to a sink. -/
def Report.print (r : Report) (format : Format) (sink : Sink) : Printed :=
  match r.writes sink.colours format with
  | .ok writes => sink.takeAll writes
  | .error e => ⟨[], some e⟩

/-- Prints a report in a format that is given by name (`Print`). -/
def Report.printNamed (r : Report) (format : Bytes) (sink : Sink) : Printed :=
  match Format.ofName? format with
  | some f => r.print f sink
  | none => ⟨[], some (.unknownFormat format)⟩

end Lexis
