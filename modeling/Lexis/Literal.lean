import Lexis.Number.Radix

/-!
# Literals

What is known of a literal beside its text: its class, the radix of a number, and how many bytes
stand before the part that is decoded (two for `0b` and `0x`, one for an opening quote).
-/
namespace Lexis

inductive LiteralClass where
  | raw | int | float | char | str | byte
  | numbered (code : Int) (h : code < 0 ∨ 5 < code)
  deriving DecidableEq, Repr

namespace LiteralClass

def code : LiteralClass → Int
  | raw => 0
  | int => 1
  | float => 2
  | char => 3
  | str => 4
  | byte => 5
  | numbered code _ => code

def named : List LiteralClass := [.raw, .int, .float, .char, .str, .byte]

def ofCode (code : Int) : LiteralClass :=
  if h : code < 0 ∨ 5 < code then .numbered code h else named.getD code.toNat .raw

def name : LiteralClass → Bytes
  | raw => ascii "Raw"
  | int => ascii "Int"
  | float => ascii "Float"
  | char => ascii "Char"
  | str => ascii "Str"
  | byte => ascii "Byte"
  | numbered code _ => ascii "LiteralClass(" ++ signedDecimal code ++ ascii ")"

theorem ofCode_code (c : LiteralClass) : ofCode c.code = c := by
  cases c with
  | numbered code h => simp [ofCode, LiteralClass.code, h]
  | _ => rfl

end LiteralClass

/-- The refinement of a literal token (`LiteralKind`). -/
structure Literal where
  category : LiteralClass
  radix : Radix
  prefixLen : Int
  deriving DecidableEq, Repr

namespace Literal

/-- The literal of tokens that are none. -/
def empty : Literal := ⟨.raw, .ofBase 0, 0⟩

instance : Inhabited Literal := ⟨empty⟩

/-- An integer with `prefixLen` bytes before its digits. -/
def int (radix : Radix) (prefixLen : Int) : Literal := ⟨.int, radix, prefixLen⟩

def float : Literal := ⟨.float, .decimal, 0⟩

def str : Literal := ⟨.str, .ofBase 0, 1⟩

/-- The class, and for numbers the radix (`LiteralKind.String`). -/
def name (l : Literal) : Bytes :=
  match l.category with
  | .int | .float => l.category.name ++ ascii "\x7bradix: " ++ l.radix.name ++ ascii "\x7d"
  | c => c.name

end Literal
end Lexis
