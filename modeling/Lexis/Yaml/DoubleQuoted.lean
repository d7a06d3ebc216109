import Lexis.Text.Quoted

/-!
# Double-quoted scalars

How texts stand between double quotes in YAML documents. `quoted` is the scalar that is written for a
text. How the text between double quotes is read is another matter: a line break folds into a space,
with the blanks that follow it, and a backslash starts an escape; before a character that makes none
it stands for itself.
-/
namespace Lexis
namespace Yaml

/-- The scalar for a text (`MarshalYAML`), always with quotes: a lexeme like `-` or `?` means
something else without them. -/
def quoted (s : Bytes) : Bytes := quote s

/-- The value of a hexadecimal digit; any other character counts by its distance from `0`. -/
def hexValue (c : Char) : Int :=
  if 'A' ≤ c ∧ c ≤ 'F' then c.toNat - 55
  else if 'a' ≤ c ∧ c ≤ 'f' then c.toNat - 87
  else (c.toNat : Int) - 48

/-- The character that hexadecimal digits denote; U+FFFD if there is none. -/
def hexChar (digits : List Char) : Char :=
  let n := digits.foldl (fun n c => 16 * n + hexValue c) 0
  if 0 ≤ n then (charOfNat? n.toNat).getD Utf8.replacement else Utf8.replacement

/-- The characters of an escape and the number of characters it takes after the backslash. -/
def escape? : List Char → Option (List Char × Nat)
  | [] => none
  | c :: rest =>
    match c with
    | 'b' => some ([Char.ofNat 0x08], 1)
    | 'e' => some ([Char.ofNat 0x1B], 1)
    | 'f' => some ([Char.ofNat 0x0C], 1)
    | 'n' => some ([Char.ofNat 0x0A], 1)
    | 'v' => some ([Char.ofNat 0x0B], 1)
    | 'L' => some ([Char.ofNat 0xE2, Char.ofNat 0x80, Char.ofNat 0xA8], 1)
    | 'N' => some ([Char.ofNat 0xC2, Char.ofNat 0x85], 1)
    | 'P' => some ([Char.ofNat 0xE2, Char.ofNat 0x80, Char.ofNat 0xA9], 1)
    | '_' => some ([Char.ofNat 0xC2, Char.ofNat 0xA0], 1)
    | '"' => some (['"'], 1)
    | '\\' => some (['\\'], 1)
    | 'x' => if rest.length < 2 then none else some ([hexChar (rest.take 2)], 3)
    | 'u' => if rest.length < 4 then none else some ([hexChar (rest.take 4)], 5)
    | 'U' => if rest.length < 8 then none else some ([hexChar (rest.take 8)], 9)
    | _ => none

/-- Reads behind an opening quote: the text, and what follows the closing quote. The first `skip`
characters are already read; `folded` says that a line was broken and only blanks came since. -/
def doubleQuotedFrom (folded : Bool) : Nat → List Char → Option (List Char × List Char)
  | _, [] => none
  | skip + 1, _ :: rest => doubleQuotedFrom folded skip rest
  | 0, c :: rest =>
    if c = '"' then some ([], rest)
    else if c = '\n' ∨ c = '\r' then
      (doubleQuotedFrom true 0 rest).map fun (text, after) => (' ' :: text, after)
    else if c = ' ' ∧ folded then doubleQuotedFrom true 0 rest
    else if c = '\\' then
      match escape? rest with
      | some (cs, n) =>
        (doubleQuotedFrom false n rest).map fun (text, after) => (cs ++ text, after)
      | none => (doubleQuotedFrom false 0 rest).map fun (text, after) => (c :: text, after)
    else (doubleQuotedFrom false 0 rest).map fun (text, after) => (c :: text, after)

def doubleQuoted (s : List Char) : Option (List Char × List Char) := doubleQuotedFrom false 0 s

/-- The characters of a text, U+FFFD for a stray byte. -/
def chars (s : Bytes) : List Char := (Utf8.runes s).map Rune.toChar

/-- The bytes of characters. -/
def ofChars (cs : List Char) : Bytes := cs.flatMap Utf8.encode

end Yaml
end Lexis
