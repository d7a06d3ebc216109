import Lexis.Yaml.Mark
import Lexis.Yaml.Node

/-!
# Documents

The value of a document, from its marks. A block is known by its column: the keys of a map and the
dashes of a list stand in one column, and what stands further right belongs to the value above.
Brackets follow no columns.
-/
namespace Lexis
namespace Yaml

/-- A scalar as it stands in a document, plain or quoted. -/
def Sign.scalar? : Sign → Option Node
  | .plain text => some (.ofPlain (ofChars text))
  | .quoted text => some (.text (ofChars text))
  | _ => none

/-- The lines that continue a plain scalar: each further right than `column`. -/
def continued (column line : Nat) (text : List Char) : List Mark → List Char × List Mark
  | ⟨.plain more, l, c⟩ :: rest =>
    if line < l ∧ column < c then
      continued column l (text ++ List.replicate (l - line) ' ' ++ more) rest
    else (text, ⟨.plain more, l, c⟩ :: rest)
  | rest => (text, rest)

/-- Whether a block ends here because a document does. -/
def atBoundary : List Mark → Bool
  | [] => true
  | m :: _ => m.sign = .documentStart || m.sign = .documentEnd

/-- A value and the marks behind it. -/
abbrev Read := Except Unreadable (Node × List Mark)

/-- The first key of a map at a mark: a scalar that a colon follows. -/
def keyAt? : List Mark → Option (Node × Nat × List Mark)
  | ⟨sign, _, column⟩ :: ⟨.colon, _, _⟩ :: rest => sign.scalar?.map fun key => (key, column, rest)
  | _ => none

mutual

/-- One value. In a block, `column` is that of the key or the dash it belongs to. -/
def node : Nat → Option Nat → List Mark → Read
  | 0, _, _ => .error .unreadable
  | _, _, [] => .ok (.null, [])
  | fuel + 1, block, m :: rest =>
    match keyAt? (m :: rest) with
    | some (_, column, _) =>
      match block with
      | some _ => blockMap fuel column [] (m :: rest)
      | none => flowPair fuel (m :: rest)
    | none =>
      match m.sign with
      | .openList => flowList fuel [] rest
      | .openMap => flowMap fuel [] rest
      | .entry => blockList fuel m.column [] (m :: rest)
      | .documentStart | .documentEnd => .ok (.null, m :: rest)
      | .quoted text => .ok (.text (ofChars text), rest)
      | .plain text =>
        match block with
        | none => .ok (.ofPlain (ofChars text), rest)
        | some column =>
          let (text, rest) := continued column m.line text rest
          match rest with
          | ⟨.colon, _, _⟩ :: _ => .error .unreadable
          | _ => .ok (.ofPlain (ofChars text), rest)
      | .colon | .comma | .closeList | .closeMap => .error .unreadable

/-- The value of a key in a block. Nothing that stands left of the key belongs to it, and in the
column of the key only a list does. -/
def blockValue : Nat → Nat → List Mark → Read
  | 0, _, _ => .error .unreadable
  | fuel + 1, column, marks =>
    match marks with
    | [] => .ok (.null, [])
    | m :: _ =>
      if atBoundary marks || m.column < column then .ok (.null, marks)
      else if m.column = column && m.sign.scalar?.isSome then
        if (keyAt? marks).isSome then .ok (.null, marks) else .error .unreadable
      else node fuel (some column) marks

/-- The pairs of a map whose keys stand in a column. -/
def blockMap : Nat → Nat → List (Bytes × Node) → List Mark → Read
  | 0, _, _, _ => .error .unreadable
  | fuel + 1, column, pairs, marks =>
    match keyAt? marks with
    | some (key, c, rest) =>
      if c = column then do
        let (value, rest) ← blockValue fuel column rest
        blockMap fuel column (Node.insertPair pairs key.keyText value) rest
      else .ok (.map pairs, marks)
    | none => .ok (.map pairs, marks)

/-- The items of a list whose dashes stand in a column. -/
def blockList : Nat → Nat → List Node → List Mark → Read
  | 0, _, _, _ => .error .unreadable
  | fuel + 1, column, items, marks =>
    match marks with
    | ⟨.entry, line, c⟩ :: rest =>
      if c ≠ column then .ok (.list items, ⟨.entry, line, c⟩ :: rest)
      else if rest = [] then .error .unreadable
      else do
        let (item, rest) ← node fuel (some column) rest
        blockList fuel column (items ++ [item]) rest
    | rest => .ok (.list items, rest)

/-- A single pair inside brackets. -/
def flowPair : Nat → List Mark → Read
  | 0, _ => .error .unreadable
  | fuel + 1, marks =>
    match keyAt? marks with
    | none => .error .unreadable
    | some (key, _, rest) =>
      match rest with
      | [] => .ok (.map [(key.keyText, .null)], [])
      | m :: _ =>
        if m.sign = .comma || m.sign = .closeMap || m.sign = .closeList then
          .ok (.map [(key.keyText, .null)], rest)
        else do
          let (value, rest) ← node fuel none rest
          return (.map [(key.keyText, value)], rest)

/-- The rest of a list in brackets. -/
def flowList : Nat → List Node → List Mark → Read
  | 0, _, _ => .error .unreadable
  | fuel + 1, items, marks =>
    match marks with
    | [] => .ok (.list items, [])
    | ⟨.closeList, _, _⟩ :: rest => .ok (.list items, rest)
    | ⟨.comma, _, _⟩ :: rest => flowList fuel items rest
    | _ => do
      let (item, rest) ← node fuel none marks
      flowList fuel (items ++ [item]) rest

/-- The rest of a map in braces, which must be closed. -/
def flowMap : Nat → List (Bytes × Node) → List Mark → Read
  | 0, _, _ => .error .unreadable
  | fuel + 1, pairs, marks =>
    match marks with
    | [] => .error .unreadable
    | ⟨.closeMap, _, _⟩ :: rest => .ok (.map pairs, rest)
    | ⟨.comma, _, _⟩ :: rest => flowMap fuel pairs rest
    | _ => do
      let (pair, rest) ← flowPair fuel marks
      match pair with
      | .map [(key, value)] => flowMap fuel (Node.insertPair pairs key value) rest
      | _ => .error .unreadable

end

/-- The values of all documents of a text. -/
def documents : Nat → List Mark → Except Unreadable (List Node)
  | 0, _ => .error .unreadable
  | _, [] => .ok []
  | fuel + 1, m :: rest =>
    let body := fun (marks : List Mark) => do
      let (value, rest) ← node (4 * marks.length + 4) (some 0) marks
      let more ← documents fuel rest
      return value :: more
    match m.sign with
    | .documentStart => if atBoundary rest then (documents fuel rest).map (.null :: ·) else body rest
    | .documentEnd => documents fuel rest
    | _ => body (m :: rest)

/-- The value of the first document of a text in the part of YAML that is read here, null if there is
none. -/
def parse (s : Bytes) : Except Unreadable Node := do
  let marks ← marks (chars s)
  let values ← documents (marks.length + 1) marks
  return values.head?.getD .null

end Yaml
end Lexis
