import Lexis.Diagnostic
import Lexis.Token

/-!
# Reports

What is printed of a scan: the path of the source, an entry for each token, a note for each
diagnostic. An entry shows a value for literals only; a message or a literal that is empty counts as
none.

As plain text a report has one line for each entry, then one for each note. A value is shown as it
is, so a text with a newline in it spreads over several lines.
-/
namespace Lexis

/-- What is shown of a token (`TokenView`). -/
structure Entry where
  kind : Bytes
  literal : Bytes
  span : Span
  text : Bytes
  value : Option Payload
  deriving DecidableEq, Repr

/-- What is shown of a diagnostic (`DiagnosticView`). -/
structure Note where
  tag : Bytes
  span : Span
  line : Int
  message : Bytes
  deriving DecidableEq, Repr

structure Report where
  path : Bytes
  entries : List Entry
  notes : List Note
  deriving DecidableEq, Repr

def Entry.ofToken (source : Bytes) (t : Token) : Except SliceError Entry :=
  (t.text source).map fun text =>
    if t.kind = .literal then ⟨t.kind.name, t.literal.name, t.span, text, t.value.payload?⟩
    else ⟨t.kind.name, [], t.span, text, none⟩

def Note.ofDiagnostic (d : Diagnostic) : Note :=
  ⟨d.tag.name, d.span, d.line, (d.reason.map Reason.message).getD []⟩

/-- The report of tokens of a source (`NewReport`). -/
def Report.build (path source : Bytes) (tokens : List Token) (diagnostics : List Diagnostic) :
    Except SliceError Report :=
  (tokens.mapM (Entry.ofToken source)).map fun entries =>
    ⟨path, entries, diagnostics.map Note.ofDiagnostic⟩

/-! ## Plain text -/

/-- A value as plain text, without quotes. -/
def Payload.plainText : Payload → Bytes
  | word n => decimal n.toNat
  | float x => FloatLayout.compact.write x
  | byte b => decimal b.toNat
  | text s => s

def Entry.textLine (e : Entry) : Bytes :=
  let kind := if e.literal = [] then e.kind else e.kind ++ ascii "(" ++ e.literal ++ ascii ")"
  let value := match e.value with
    | some v => ascii " = " ++ v.plainText
    | none => []
  kind ++ ascii " " ++ e.span.render ++ ascii " " ++ quote e.text ++ value ++ ascii "\n"

def Note.textLine (path : Bytes) (n : Note) : Bytes :=
  path ++ ascii ":" ++ signedDecimal n.line ++ ascii ": " ++ n.tag ++ ascii " " ++ n.span.render
    ++ (if n.message = [] then [] else ascii ": " ++ n.message) ++ ascii "\n"

end Lexis
