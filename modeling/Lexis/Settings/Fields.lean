import Lexis.Settings
import Lexis.Yaml.Document

/-!
# The fields of a settings file

The decoder of this library, for plain YAML: block maps, block and flow lists, flow maps, quoted and
plain scalars, comments. Keys are compared without regard to case if none is spelled exactly, values
keep their type, and a key that nothing asks for is an error.
-/
namespace Lexis

/-! ## Letter case -/

/-- The small form of a character that is equal to an ASCII letter but for case. -/
def foldChar (c : Char) : Char :=
  if 'A' ≤ c ∧ c ≤ 'Z' then Char.ofNat (c.toNat + 32)
  else if c.toNat = 0x17F then 's'
  else if c.toNat = 0x212A then 'k'
  else c

/-- Whether a text equals an ASCII name up to case. -/
def equalFold (name text : Bytes) : Bool :=
  (Utf8.runes name).map (fun r => foldChar r.toChar) = (Utf8.runes text).map fun r => foldChar r.toChar

namespace Settings

/-- Something in a settings file that does not fit. -/
inductive Problem where
  | wrongType (field : Bytes) (expected : Bytes) (value : Yaml.Node)
  | noList (field : Bytes) (value : Yaml.Node)
  | invalidKeys (keys : List Bytes)

def Problem.message : Problem → Bytes
  | wrongType field expected value =>
    ascii "'" ++ field ++ ascii "' expected type '" ++ expected
      ++ ascii "', got unconvertible type '" ++ value.typeName ++ ascii "', value: '" ++ value.render
      ++ ascii "'"
  | noList field value =>
    ascii "'" ++ field ++ ascii "': source data must be an array or slice, got " ++ value.kindName
  | invalidKeys keys => ascii "'' has invalid keys: " ++ joinWith (ascii ", ") (sortBytes keys)

/-- All problems, in the order of their texts. -/
def problemsMessage (list : List Problem) : Bytes :=
  decimal list.length ++ ascii " error(s) decoding:\n\n"
    ++ joinWith (ascii "\n") (sortBytes (list.map fun p => ascii "* " ++ p.message))

/-! ## Reading the fields of a map -/

/-- The pair of a map that belongs to a field. -/
def pair? (pairs : List (Bytes × Yaml.Node)) (field : Bytes) : Option (Bytes × Yaml.Node) :=
  (pairs.find? fun p => p.1 = field) <|> pairs.find? fun p => equalFold field p.1

/-- The value of a field, null if there is none. -/
def value (pairs : List (Bytes × Yaml.Node)) (field : Bytes) : Yaml.Node :=
  ((pair? pairs field).map Prod.snd).getD .null

/-- A text, empty where nothing is given, with the problem if it is something else. -/
def readText (field : Bytes) : Yaml.Node → Bytes × List Problem
  | .null => ([], [])
  | .text s => (s, [])
  | v => ([], [.wrongType field (ascii "string") v])

def readBool (field : Bytes) : Yaml.Node → Bool × List Problem
  | .null => (false, [])
  | .bool b => (b, [])
  | v => (false, [.wrongType field (ascii "bool") v])

/-- A list of texts. -/
def readTexts (field : Bytes) : Yaml.Node → List Bytes × List Problem
  | .null => ([], [])
  | .list items =>
    let read := items.zipIdx.map fun (item, i) =>
      readText (field ++ ascii "[" ++ decimal i ++ ascii "]") item
    (read.map Prod.fst, read.flatMap Prod.snd)
  | v => ([], [.noList field v])

/-- The names of the fields in a file. -/
def fields : List Bytes :=
  [ascii "format", ascii "whitespace", ascii "skip_trivia", ascii "ident_digits", ascii "c_punct",
    ascii "only"]

/-- The keys of a map that belong to no field. -/
def unusedKeys (pairs : List (Bytes × Yaml.Node)) : List Bytes :=
  let used := fields.filterMap fun f => (pair? pairs f).map Prod.fst
  (pairs.map Prod.fst).filter fun k => !used.contains k

/-- The settings of a map. -/
def ofPairs (pairs : List (Bytes × Yaml.Node)) : Except Bytes Settings :=
  let text := fun f => readText (ascii f) (value pairs (ascii f))
  let bool := fun f => readBool (ascii f) (value pairs (ascii f))
  let (format, p1) := text "format"
  let (whitespace, p2) := bool "whitespace"
  let (skipTrivia, p3) := bool "skip_trivia"
  let (identDigits, p4) := bool "ident_digits"
  let (colonPercent, p5) := bool "c_punct"
  let (only, p6) := readTexts (ascii "only") (value pairs (ascii "only"))
  let unused := unusedKeys pairs
  let p7 := if unused = [] then [] else [Problem.invalidKeys unused]
  match p1 ++ p2 ++ p3 ++ p4 ++ p5 ++ p6 ++ p7 with
  | [] => .ok { format, whitespace, skipTrivia, identDigits, colonPercent, only }
  | list => .error (problemsMessage list)

/-- The map of a text. Where there is nothing, it has no keys. -/
def pairsOf (text : Bytes) : Except Bytes (List (Bytes × Yaml.Node)) :=
  match Yaml.parse text with
  | .ok .null => .ok []
  | .ok (.map pairs) => .ok pairs
  | .ok node => .error (ascii "a map is wanted, not a " ++ node.kindName)
  | .error _ => .error (ascii "the text cannot be read")

/-- The decoder for plain YAML. -/
def Decoder.plain : Decoder := ⟨List (Bytes × Yaml.Node), pairsOf, ofPairs⟩

end Settings
end Lexis
