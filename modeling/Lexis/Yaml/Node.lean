import Lexis.Number.FloatLayout
import Lexis.Number.FloatText

/-!
# YAML values

The values that a document is made of. A plain scalar is read as null, a truth value or a number if
it is spelled like one, and as a text otherwise (`ofPlain`).
-/
namespace Lexis
namespace Yaml

inductive Node where
  | null
  | bool (b : Bool)
  | word (n : UInt64)
  | int (n : Int)
  | float (x : Binary64)
  | text (s : Bytes)
  | list (items : List Node)
  | map (pairs : List (Bytes × Node))
  deriving Repr

/-! ## Plain scalars -/

/-- How a number is spelled. -/
inductive Spelling where
  | decimal | binary | octal | hexadecimal | float
  deriving DecidableEq, Repr

/-- The part of a number behind its minus sign. -/
def magnitude (s : Bytes) : Bytes := if s.head? = some (byte '-') then s.drop 1 else s

/-- Where a number is being read: behind which byte, and what was met before it. -/
structure Numeral where
  index : Nat := 0
  point : Bool := false
  exponent : Bool := false
  deriving DecidableEq, Repr

/-- Whether the number `s` can be continued by a byte, and what is known then. -/
def Numeral.next (s : Bytes) (n : Numeral) (b : UInt8) : Option Numeral :=
  let marker := if s.head? = some (byte '-') then 2 else 1
  let isHex := (ascii "0x").isPrefixOf (magnitude s) && 2 < (magnitude s).length
  let on := { n with index := n.index + 1 }
  if (decimalDigit? b).isSome || b = byte '_' then some on
  else if (b = byte 'x' || b = byte 'o' || b = byte 'b') && n.index = marker then some on
  else if (b = byte '+' || b = byte '-') && (n.index = 0 || n.exponent) then some on
  else if (hexDigit? b).isSome && isHex then some on
  else if (b = byte 'e' || b = byte 'E') && n.point then some { on with exponent := true }
  else if b = byte '.' && !n.point then some { on with point := true }
  else none

/-- The spelling of a text that is a number. -/
def spelling? (s : Bytes) : Option Spelling :=
  if s = [] ∨ s = ascii "-" ∨ s = ascii "." ∨ s = ascii "+" ∨ s.head? = some (byte '_') then none
  else (s.foldlM (Numeral.next s) {}).map fun n =>
    let m := magnitude s
    if n.point then .float
    else if (ascii "0b").isPrefixOf m then .binary
    else if (ascii "0x").isPrefixOf m then .hexadecimal
    else if (ascii "0o").isPrefixOf m then .octal
    else if 1 < m.length ∧ m.head? = some (byte '0') then .octal
    else .decimal

/-- The word of some digits, zero if there is none and the largest word if it is too large. -/
def wordOrLimit (base : Nat) (digits : Bytes) : Nat :=
  match Word.parse base digits with
  | .ok n => n.toNat
  | .error .malformed => 0
  | .error .outOfRange => Word.limit - 1

/-- A signed number, cut off at the ends of 64 bits. -/
def signed (negative : Bool) (n : Nat) : Int :=
  if negative then -(min n (Nat.pow 2 63) : Nat) else (min n (Nat.pow 2 63 - 1) : Nat)

/-- The digits of a number behind its marker. -/
def digitsOf (spelling : Spelling) (m : Bytes) : Nat × Bytes :=
  match spelling with
  | .binary => (2, m.drop 2)
  | .hexadecimal => (16, m.drop 2)
  | .octal => (8, if (ascii "0o").isPrefixOf m then m.drop 2 else m.drop 1)
  | .decimal | .float => (10, m)

/-- The value of a plain number. -/
def number (spelling : Spelling) (written : Bytes) : Node :=
  let s := written.filter (· ≠ byte '_')
  match spelling with
  | .float =>
    match FloatText.parse s with
    | .ok x => .float x
    | .error .malformed => .float .zero
    | .error .outOfRange => .float (Binary64.infinity.withSign (s.head? = some (byte '-')))
  | spelling =>
    let negative := s.head? = some (byte '-')
    if negative ∨ s.head? = some (byte '+') then
      let (base, ds) := digitsOf spelling (s.drop 1)
      .int (signed negative (wordOrLimit base ds))
    else
      let (base, ds) := digitsOf spelling s
      .word (wordOrLimit base ds).toUInt64

namespace Node

/-- The value of a plain scalar. -/
def ofPlain (s : Bytes) : Node :=
  if s = [] ∨ s ∈ [ascii "null", ascii "Null", ascii "NULL", ascii "~"] then .null
  else if s ∈ [ascii "true", ascii "True", ascii "TRUE"] then .bool true
  else if s ∈ [ascii "false", ascii "False", ascii "FALSE"] then .bool false
  else if s ∈ [ascii ".inf", ascii ".Inf", ascii ".INF"] then .float .infinity
  else if s ∈ [ascii "-.inf", ascii "-.Inf", ascii "-.INF"] then
    .float (Binary64.infinity.withSign true)
  else if s ∈ [ascii ".nan", ascii ".NaN", ascii ".NAN"] then .float .nan
  else match spelling? s with
    | some spelling => number spelling s
    | none => .text s

/-! ## Showing values -/

/-- The name of the type of a value in messages. -/
def typeName : Node → Bytes
  | null => ascii "nil"
  | bool _ => ascii "bool"
  | word _ => ascii "uint64"
  | int _ => ascii "int64"
  | float _ => ascii "float64"
  | text _ => ascii "string"
  | list _ => ascii "[]interface \x7b\x7d"
  | map _ => ascii "map[string]interface \x7b\x7d"

/-- The name of the kind of a value, where all lists and all maps are alike. -/
def kindName : Node → Bytes
  | list _ => ascii "slice"
  | map _ => ascii "map"
  | n => n.typeName

mutual

/-- A value as plain text: lists in brackets, maps in the order of their keys. -/
def render : Node → Bytes
  | null => ascii "<nil>"
  | bool b => if b then ascii "true" else ascii "false"
  | word n => decimal n.toNat
  | int n => signedDecimal n
  | float x => FloatLayout.compact.write x
  | text s => s
  | list items => ascii "[" ++ joinWith (ascii " ") (renderItems items) ++ ascii "]"
  | map pairs =>
    let sorted := (renderPairs pairs).mergeSort fun a b => decide (a.1 ≤ b.1)
    ascii "map[" ++ joinWith (ascii " ") (sorted.map fun (k, v) => k ++ ascii ":" ++ v) ++ ascii "]"

def renderItems : List Node → List Bytes
  | [] => []
  | n :: rest => render n :: renderItems rest

def renderPairs : List (Bytes × Node) → List (Bytes × Bytes)
  | [] => []
  | (k, n) :: rest => (k, render n) :: renderPairs rest

end

/-- A scalar as the key of a map. -/
def keyText : Node → Bytes
  | null => ascii "null"
  | n => n.render

/-- Puts a pair into a map; a later value takes the place of an earlier one. -/
def insertPair (pairs : List (Bytes × Node)) (key : Bytes) (value : Node) : List (Bytes × Node) :=
  pairs.filter (fun p => p.1 ≠ key) ++ [(key, value)]

end Node
end Yaml
end Lexis
