import Lexis.Yaml.DoubleQuoted

/-!
# Marks

A document is first cut into marks: scalars, and the signs that give it structure, each with its
line and column. Blanks and comments are left out. This is a reader for a part of YAML only: a text
with an anchor, an alias, a tag, a block scalar or a directive is refused.
-/
namespace Lexis
namespace Yaml

inductive Sign where
  | plain (text : List Char)
  | quoted (text : List Char)
  | entry
  | colon
  | comma
  | openList
  | closeList
  | openMap
  | closeMap
  | documentStart
  | documentEnd
  deriving DecidableEq, Repr

structure Mark where
  sign : Sign
  line : Nat
  column : Nat
  deriving DecidableEq, Repr

/-- Something that is no document, or that this reader does not know. -/
inductive Unreadable where
  | unreadable
  deriving DecidableEq, Repr

/-- Where the reader is, and how many brackets of each kind are open. -/
structure Position where
  line : Nat := 0
  column : Nat := 0
  lists : Nat := 0
  maps : Nat := 0
  deriving DecidableEq, Repr

namespace Position

def inFlow (p : Position) : Bool := 0 < p.lists || 0 < p.maps

/-- The position behind some characters. -/
def after (p : Position) (cs : List Char) : Position :=
  cs.foldl (fun p c =>
    if c = '\n' ∨ c = '\r' then { p with line := p.line + 1, column := 0 }
    else { p with column := p.column + 1 }) p

end Position

def isBreak (c : Char) : Bool := c = '\n' || c = '\r'

/-- Whether a sign such as a dash is set off by what follows it. -/
def isSetOff : List Char → Bool
  | [] => true
  | c :: _ => c = ' ' || isBreak c

/-- The length of a plain scalar, which ends with its line, before a comment, before a colon that is
set off, and before the signs of the open brackets. -/
def plainLength (p : Position) (previous : Char) : List Char → Nat
  | [] => 0
  | c :: rest =>
    if isBreak c
      || (c = ':' && (0 < p.maps || isSetOff rest))
      || (c = '#' && previous = ' ')
      || (c = ',' && p.inFlow)
      || (c = ']' && 0 < p.lists)
      || (c = '\x7d' && 0 < p.maps) then 0
    else plainLength p c rest + 1

/-- Removes the blanks at the end. -/
def trimRight (cs : List Char) : List Char := (cs.reverse.dropWhile (· = ' ')).reverse

/-- Reads behind an opening single quote: the text and what follows the closing quote. Two quotes
stand for one; a line break folds into a space with the blanks that follow it. -/
def singleQuoted (folded : Bool) : List Char → Option (List Char × List Char)
  | [] => none
  | '\'' :: '\'' :: rest =>
    (singleQuoted false rest).map fun (text, after) => ('\'' :: text, after)
  | c :: rest =>
    if c = '\'' then some ([], rest)
    else if isBreak c then
      (singleQuoted true rest).map fun (text, after) => (' ' :: text, after)
    else if c = ' ' ∧ folded then singleQuoted true rest
    else (singleQuoted false rest).map fun (text, after) => (c :: text, after)

/-- The marks of a document. Each step takes at least one character, so `fuel` may be the number of
characters. -/
def marksFrom : Nat → Position → List Char → Except Unreadable (List Mark)
  | 0, _, _ => .ok []
  | _, _, [] => .ok []
  | fuel + 1, p, c :: rest =>
    let sign (s : Sign) (next : Position) (cs : List Char) :=
      (marksFrom fuel next cs).map (⟨s, p.line, p.column⟩ :: ·)
    let one := p.after [c]
    let quoted (read : Option (List Char × List Char)) :=
      match read with
      | some (text, after) =>
        sign (.quoted text) (p.after (c :: rest.take (rest.length - after.length))) after
      | none => .error .unreadable
    if c = ' ' ∨ isBreak c then marksFrom fuel one rest
    else if c = '#' then marksFrom fuel one (rest.dropWhile fun c => !isBreak c)
    else if p.column = 0 ∧ (c :: rest).takeWhile (· = '-') = ['-', '-', '-'] then
      sign .documentStart { p with column := 3 } (rest.drop 2)
    else if p.column = 0 ∧ (c :: rest).takeWhile (· = '.') = ['.', '.', '.'] then
      sign .documentEnd { p with column := 3 } (rest.drop 2)
    else if c = '\x7b' then sign .openMap { one with maps := p.maps + 1 } rest
    else if c = '\x7d' then sign .closeMap { one with maps := p.maps - 1 } rest
    else if c = '[' then sign .openList { one with lists := p.lists + 1 } rest
    else if c = ']' then sign .closeList { one with lists := p.lists - 1 } rest
    else if c = ',' ∧ p.inFlow then sign .comma one rest
    else if c = '-' ∧ isSetOff rest then sign .entry one rest
    else if c = ':' ∧ (0 < p.maps ∨ isSetOff rest) then sign .colon one rest
    else if c = '"' then quoted (doubleQuoted rest)
    else if c = '\'' then quoted (singleQuoted false rest)
    else if c = '&' ∨ c = '*' ∨ c = '!' ∨ c = '|' ∨ c = '>' ∨ c = '%' ∨ (c = '?' ∧ isSetOff rest) then
      .error .unreadable
    else
      let n := plainLength p c rest
      let text := c :: rest.take n
      sign (.plain (trimRight text)) (p.after text) (rest.drop n)

def marks (cs : List Char) : Except Unreadable (List Mark) := marksFrom (cs.length + 1) {} cs

end Yaml
end Lexis
