import Lexis.Report
import Lexis.Yaml.DoubleQuoted

/-!
# Reports as YAML

Every text is a double-quoted scalar. The scalar for it is read again, and what was read is quoted
once more, so a tab, for which the reader knows no escape, ends up with two backslashes.
-/
namespace Lexis
namespace Yaml

/-- Whole numbers keep `.0`, and names start with a point. -/
def floatLayout : FloatLayout :=
  { FloatLayout.compact with
    pointZero := true, nan := ascii ".nan", infinity := ascii ".inf"
    negativeInfinity := ascii "-.inf" }

/-- The text that a scalar with quotes spells in a document. -/
def reread (scalar : Bytes) : Bytes :=
  match doubleQuoted ((chars scalar).drop 1) with
  | some (text, _) => ofChars text
  | none => []

/-- What stands for a text in the document of a report. -/
def string (s : Bytes) : Bytes := quote (reread (quoted s))

/-- The fields of one list item, the first behind a dash. -/
def item (fields : List (String × Bytes)) : Bytes :=
  let lines := fields.map fun (key, value) => ascii key ++ ascii ": " ++ value ++ ascii "\n"
  ascii "- " ++ joinWith (ascii "  ") lines

/-- A field that is left out when its text is empty. -/
def optionalField (key : String) (s : Bytes) : List (String × Bytes) :=
  if s = [] then [] else [(key, string s)]

end Yaml

def Payload.yaml : Payload → Bytes
  | word n => decimal n.toNat
  | float x => Yaml.floatLayout.write x
  | byte b => decimal b.toNat
  | text s => Yaml.string s

def Entry.yaml (e : Entry) : Bytes :=
  Yaml.item <|
    [("kind", Yaml.string e.kind)] ++ Yaml.optionalField "literal" e.literal
      ++ [("start", signedDecimal e.span.start), ("end", signedDecimal e.span.stop),
        ("text", Yaml.string e.text)]
      ++ (e.value.map fun v => ("value", v.yaml)).toList

def Note.yaml (n : Note) : Bytes :=
  Yaml.item <|
    [("tag", Yaml.string n.tag), ("start", signedDecimal n.span.start),
      ("end", signedDecimal n.span.stop), ("line", signedDecimal n.line)]
      ++ Yaml.optionalField "message" n.message

/-- The YAML document of a report. -/
def Report.yaml (r : Report) : Bytes :=
  let tokens :=
    if r.entries = [] then ascii "tokens: []\n"
    else ascii "tokens:\n" ++ r.entries.flatMap Entry.yaml
  let notes := if r.notes = [] then [] else ascii "diagnostics:\n" ++ r.notes.flatMap Note.yaml
  ascii "path: " ++ Yaml.string r.path ++ ascii "\n" ++ tokens ++ notes

end Lexis
