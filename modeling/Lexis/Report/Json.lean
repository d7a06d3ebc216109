import Lexis.Report

/-!
# Reports as JSON

The document is indented by tabs. A value is left out only when there is none; zero and the empty
text are written. A number that is not finite has no JSON form.
-/
namespace Lexis
namespace Json

/-- Numbers are positional from `0.000001` up to 21 digits before the point. -/
def floatLayout : FloatLayout :=
  { FloatLayout.compact with least := -6, bound := 21 }

def escapeChar (c : Char) : Bytes :=
  if c = '"' ∨ c = '\\' then [byte '\\', byte c]
  else if c = '\n' then ascii "\\n"
  else if c = '\r' then ascii "\\r"
  else if c = '\t' then ascii "\\t"
  else if c.toNat < 0x20 ∨ c.toNat = 0x2028 ∨ c.toNat = 0x2029 then ascii "\\u" ++ hex 4 c.toNat
  else Utf8.encode c

def escapeRune : Rune → Bytes
  | .char c => escapeChar c
  | .stray _ => ascii "\\ufffd"

def string (s : Bytes) : Bytes :=
  byte '"' :: (Utf8.runes s).flatMap escapeRune ++ [byte '"']

/-- A line break and the indentation of a depth. -/
def newline (depth : Nat) : Bytes := byte '\n' :: List.replicate depth (byte '\t')

/-- Items on lines of their own between two brackets; the brackets stand at the given depth. -/
def block (opening closing : Char) (depth : Nat) (items : List Bytes) : Bytes :=
  byte opening :: joinWith (ascii ",") (items.map (newline (depth + 1) ++ ·))
    ++ newline depth ++ [byte closing]

def object (depth : Nat) (fields : List (String × Bytes)) : Bytes :=
  block '\x7b' '\x7d' depth (fields.map fun (key, value) => string (ascii key) ++ ascii ": " ++ value)

def array (depth : Nat) (items : List Bytes) : Bytes :=
  if items = [] then ascii "[]" else block '[' ']' depth items

/-- A field that is left out when its text is empty. -/
def optionalField (key : String) (s : Bytes) : List (String × Bytes) :=
  if s = [] then [] else [(key, string s)]

end Json

/-- The JSON form of a value; the number itself where there is none. -/
def Payload.json : Payload → Except Binary64 Bytes
  | word n => .ok (decimal n.toNat)
  | float x => if x.isFinite then .ok (Json.floatLayout.write x) else .error x
  | byte b => .ok (decimal b.toNat)
  | text s => .ok (Json.string s)

def Entry.json (e : Entry) : Except Binary64 Bytes := do
  let value ← match e.value with
    | some v => v.json.map fun text => [("value", text)]
    | none => pure []
  return Json.object 2 <|
    [("kind", Json.string e.kind)] ++ Json.optionalField "literal" e.literal
      ++ [("start", signedDecimal e.span.start), ("end", signedDecimal e.span.stop),
        ("text", Json.string e.text)] ++ value

def Note.json (n : Note) : Bytes :=
  Json.object 2 <|
    [("tag", Json.string n.tag), ("start", signedDecimal n.span.start),
      ("end", signedDecimal n.span.stop), ("line", signedDecimal n.line)]
      ++ Json.optionalField "message" n.message

/-- The JSON document of a report; the first number that has no JSON form otherwise. -/
def Report.json (r : Report) : Except Binary64 Bytes := do
  let entries ← r.entries.mapM Entry.json
  let notes := if r.notes = [] then [] else [("diagnostics", Json.array 1 (r.notes.map Note.json))]
  return Json.object 0 ([("path", Json.string r.path), ("tokens", Json.array 1 entries)] ++ notes)

end Lexis
