import Lexis.Yaml.DoubleQuoted
import Lexis.Proofs.Text.Agreement
import Lexis.Proofs.Text.Quoting

/-!
# Quoted texts as YAML scalars

`quote` writes a text for readers that take `\xNN` for a byte. YAML takes it for a code point, and
all other escapes that `quote` writes for what they are. In a valid text only characters below
`0x80` are written with `\x`, and there the two are the same; so a quoted text can be loaded from a
YAML document. Nothing of this depends on which characters are shown as they are, as long as no
controls and no line breaks are.

* `scalar?`: the rules of YAML 1.2 for a double-quoted scalar on one line.
* `escapeCharBy_cases`: how a character is quoted.
* `scalarFrom_writes`: what is written for a character is read back, whatever follows.
* `writes_escapeCharBy`: what is quoted for a character is written for it by the rules of YAML.
* `quote_scalar`: a quoted text is one scalar on one line, and it means the text.
-/
namespace Lexis

open Utf8 (encode)

namespace Yaml

/-! ## Double-quoted scalars on one line -/

/-- What stands behind a backslash for one character, with its code point. -/
def escapeCodes : List (UInt8 × Nat) :=
  [(byte '0', 0x00), (byte 'a', 0x07), (byte 'b', 0x08), (byte 't', 0x09), (byte '\t', 0x09),
   (byte 'n', 0x0A), (byte 'v', 0x0B), (byte 'f', 0x0C), (byte 'r', 0x0D), (byte 'e', 0x1B),
   (byte ' ', 0x20), (byte '"', 0x22), (byte '/', 0x2F), (byte '\\', 0x5C), (byte 'N', 0x85),
   (byte '_', 0xA0), (byte 'L', 0x2028), (byte 'P', 0x2029)]

/-- What stands behind a backslash before the digits of a code point, with their number. -/
def escapeWidths : List (UInt8 × Nat) := [(byte 'x', 2), (byte 'u', 4), (byte 'U', 8)]

/-- The character of an escape and the number of bytes it takes after the backslash. -/
def escapedChar? : Bytes → Option (Char × Nat)
  | [] => none
  | b :: rest =>
    match escapeWidths.lookup b with
    | some width =>
      if rest.length < width then none
      else ((ofHex? (rest.take width)).bind charOfNat?).map fun c => (c, width + 1)
    | none => (escapeCodes.lookup b).map fun n => (Char.ofNat n, 1)

/-- Reads behind an opening quote up to the closing one, which ends the text; `skip` bytes are
already read. A line break, any other control but a tab, and a stray byte are refused. -/
def scalarFrom : Nat → Bytes → Option Bytes
  | _, [] => none
  | skip + 1, _ :: rest => scalarFrom skip rest
  | 0, b :: rest =>
    if b = byte '"' then if rest = [] then some [] else none
    else if b = byte '\\' then do
      let (c, n) ← escapedChar? rest
      let tail ← scalarFrom n rest
      return encode c ++ tail
    else match Utf8.decode b rest with
      | .char c =>
        if c = '\t' ∨ 0x20 ≤ c.toNat then
          (scalarFrom (c.utf8Size - 1) rest).map (encode c ++ ·)
        else none
      | .stray _ => none

/-- The text that a double-quoted scalar means. -/
def scalar? : Bytes → Option Bytes
  | [] => none
  | b :: rest => if b = byte '"' then scalarFrom 0 rest else none

/-- Controls and line breaks. -/
def isControlOrBreak (c : Char) : Bool :=
  c.toNat < 0x20 || (0x7F ≤ c.toNat && c.toNat < 0xA0) || c.toNat = 0x2028 || c.toNat = 0x2029

/-- How a character can be written inside of double quotes. -/
inductive Writes : Bytes → Char → Prop where
  | plain {c : Char} : isControlOrBreak c = false → c ≠ '"' → c ≠ '\\' → Writes (encode c) c
  | letter {b : UInt8} {n : Nat} : (b, n) ∈ escapeCodes → Writes [byte '\\', b] (Char.ofNat n)
  | digits {b : UInt8} {ds : Bytes} {c : Char} : (b, ds.length) ∈ escapeWidths →
      ofHex? ds = some c.toNat → Writes (byte '\\' :: b :: ds) c

/-- The text consists of characters that are neither controls nor line breaks. -/
def Shown (w : Bytes) : Prop := ∃ cs, w = ofChars cs ∧ ∀ c ∈ cs, isControlOrBreak c = false

/-- The text `w` is a double-quoted scalar that means `s`. It shows no control and no line break,
and between its quotes a quote or a backslash is there only as a part of an escape. -/
structure Scalar (w s : Bytes) : Prop where
  shown : Shown w
  written : ∃ units : List Bytes, w = byte '"' :: (units.flatten ++ [byte '"']) ∧
    ∀ u ∈ units, ∃ c, Writes u c
  loads : scalar? w = some s

/-! ## Reading what is written -/

theorem scalarFrom_eq_drop (n : Nat) (u : Bytes) : scalarFrom n u = scalarFrom 0 (u.drop n) := by
  induction n generalizing u with
  | zero => rfl
  | succ n ih =>
    cases u with
    | nil => rfl
    | cons b u => exact ih u

theorem scalarFrom_append (e u : Bytes) : scalarFrom e.length (e ++ u) = scalarFrom 0 u := by
  rw [scalarFrom_eq_drop, List.drop_left]

theorem scalarFrom_escape {e u : Bytes} {c : Char}
    (h : escapedChar? (e ++ u) = some (c, e.length)) :
    scalarFrom 0 (byte '\\' :: e ++ u) = (scalarFrom 0 u).map (encode c ++ ·) := by
  rw [List.cons_append, scalarFrom, if_neg (by decide), if_pos rfl, h]
  simp only [Option.bind_eq_bind, Option.bind_some, scalarFrom_append]
  cases scalarFrom 0 u <;> rfl

theorem escapedChar?_letter {b : UInt8} {n : Nat} (h : (b, n) ∈ escapeCodes) (u : Bytes) :
    escapedChar? ([b] ++ u) = some (Char.ofNat n, [b].length) := by
  have key : ∀ p ∈ escapeCodes, escapeWidths.lookup p.1 = none ∧
      escapeCodes.lookup p.1 = some p.2 := by
    decide
  obtain ⟨hwidth, hcode⟩ := key _ h
  simp [escapedChar?, hwidth, hcode]

theorem escapedChar?_digits {b : UInt8} {ds : Bytes} {c : Char} (h : (b, ds.length) ∈ escapeWidths)
    (hds : ofHex? ds = some c.toNat) (u : Bytes) :
    escapedChar? (b :: ds ++ u) = some (c, (b :: ds).length) := by
  have key : ∀ p ∈ escapeWidths, escapeWidths.lookup p.1 = some p.2 := by decide
  have hwidth : escapeWidths.lookup b = some ds.length := key _ h
  have hlong : ¬ (ds ++ u).length < ds.length := by simp
  unfold escapedChar?
  dsimp only [List.cons_append]
  rw [hwidth]
  dsimp only
  rw [if_neg hlong, List.take_left, hds, Option.bind_some, charOfNat?_toNat]
  rfl

theorem scalarFrom_plain {c : Char} (hc : isControlOrBreak c = false) (hq : c ≠ '"') (hs : c ≠ '\\')
    (u : Bytes) : scalarFrom 0 (encode c ++ u) = (scalarFrom 0 u).map (encode c ++ ·) := by
  obtain ⟨b, more, he, hd⟩ := Utf8.decode_encode_append c
  have hshown : c = '\t' ∨ 0x20 ≤ c.toNat := by
    simp [isControlOrBreak] at hc
    omega
  have hwidth : c.utf8Size - 1 = more.length := length_more_encode he
  rw [he, List.cons_append, scalarFrom, if_neg (lead_ne_byte he (by decide) hq),
    if_neg (lead_ne_byte he (by decide) hs), hd]
  dsimp only
  rw [if_pos hshown, hwidth, scalarFrom_append, he]

/-- What is written for a character is read as that character, whatever follows. -/
theorem scalarFrom_writes {w : Bytes} {c : Char} (h : Writes w c) (u : Bytes) :
    scalarFrom 0 (w ++ u) = (scalarFrom 0 u).map (encode c ++ ·) := by
  cases h with
  | plain hc hq hs => exact scalarFrom_plain hc hq hs u
  | @letter b n hb => exact scalarFrom_escape (e := [b]) (escapedChar?_letter hb u)
  | @digits b ds _ hb hds => exact scalarFrom_escape (e := b :: ds) (escapedChar?_digits hb hds u)

theorem scalar?_writes {write : Char → Bytes} (h : ∀ c, Writes (write c) c) (cs : List Char) :
    scalar? (byte '"' :: (cs.flatMap write ++ [byte '"'])) = some (ofChars cs) := by
  have hbody : ∀ cs : List Char, scalarFrom 0 (cs.flatMap write ++ [byte '"']) =
      some (ofChars cs) := by
    intro cs
    induction cs with
    | nil => rfl
    | cons c cs ih =>
      rw [List.flatMap_cons, List.append_assoc, scalarFrom_writes (h c), ih]
      rfl
  rw [scalar?, if_pos rfl, hbody cs]

/-! ## Characters that are shown -/

theorem Shown.append {u w : Bytes} (hu : Shown u) (hw : Shown w) : Shown (u ++ w) := by
  obtain ⟨cs, rfl, hcs⟩ := hu
  obtain ⟨ds, rfl, hds⟩ := hw
  refine ⟨cs ++ ds, by simp [ofChars], ?_⟩
  intro c hc
  exact (List.mem_append.1 hc).elim (hcs c) (hds c)

theorem shown_encode {c : Char} (h : isControlOrBreak c = false) : Shown (encode c) :=
  ⟨[c], by simp [ofChars], by simpa using h⟩

theorem shown_byte {l : Char} (hl : l.toNat < 0x80) (h : isControlOrBreak l = false) :
    Shown [byte l] := by
  rw [← encode_eq_byte hl]
  exact shown_encode h

theorem shown_flatMap {α : Type} {write : α → Bytes} {l : List α} (h : ∀ x ∈ l, Shown (write x)) :
    Shown (l.flatMap write) := by
  induction l with
  | nil => exact ⟨[], rfl, by simp⟩
  | cons x l ih =>
    rw [List.flatMap_cons]
    exact (h x (by simp)).append (ih fun y hy => h y (by simp [hy]))

theorem shown_hex (width n : Nat) : Shown (hex width n) := by
  have key : ∀ d < 16, (Nat.digitChar d).toNat < 0x80 ∧
      isControlOrBreak (Nat.digitChar d) = false := by
    decide
  rw [← List.flatMap_singleton' (hex width n)]
  apply shown_flatMap
  intro b hb
  obtain ⟨d, hd, rfl⟩ := mem_hex hb
  exact shown_byte (key d hd).1 (key d hd).2

end Yaml

/-! ## Quoting -/

/-- How a character is written between double quotes, if `printable` says what is shown as it is. -/
def escapeCharBy (printable : Char → Bool) (c : Char) : Bytes :=
  if c = '"' ∨ c = '\\' then [byte '\\', byte c]
  else if printable c then encode c
  else match controlLetter? c with
    | some l => [byte '\\', byte l]
    | none =>
      if c.toNat < 0x20 ∨ c.toNat = 0x7F then ascii "\\x" ++ hex 2 c.toNat
      else if c.toNat < 0x10000 then ascii "\\u" ++ hex 4 c.toNat
      else ascii "\\U" ++ hex 8 c.toNat

def escapeRuneBy (printable : Char → Bool) : Rune → Bytes
  | .char c => escapeCharBy printable c
  | .stray b => ascii "\\x" ++ hex 2 b.toNat

/-- A text between double quotes, if `printable` says what is shown as it is. -/
def quoteBy (printable : Char → Bool) (s : Bytes) : Bytes := quoteWith (escapeRuneBy printable) s

theorem quote_eq (s : Bytes) : quote s = quoteBy isPrintable s := by
  have hescape : escapeRune = escapeRuneBy isPrintable := by
    funext r
    cases r <;> rfl
  unfold quote quoteBy quoteWith
  rw [hescape]

open Yaml

variable {printable : Char → Bool}

/-- The characters that are quoted by a letter, with the letter. -/
def letterEscapes : List (Char × Char) :=
  [('"', '"'), ('\\', '\\'), (Char.ofNat 0x07, 'a'), (Char.ofNat 0x08, 'b'), ('\t', 't'),
   ('\n', 'n'), (Char.ofNat 0x0B, 'v'), (Char.ofNat 0x0C, 'f'), ('\r', 'r')]

theorem controlLetter?_mem {c l : Char} (h : controlLetter? c = some l) :
    (c, l) ∈ letterEscapes := by
  have hc : Char.ofNat c.toNat = c := Char.ofNat_toNat c
  unfold controlLetter? at h
  split at h
  all_goals try cases h
  all_goals
    next hn =>
      rw [hn] at hc
      subst hc
      decide

theorem escapeCodes_of_mem_letterEscapes {c l : Char} (h : (c, l) ∈ letterEscapes) :
    (byte l, c.toNat) ∈ escapeCodes ∧ isControlOrBreak l = false ∧ l.toNat < 0x80 := by
  have key : ∀ p ∈ letterEscapes,
      (byte p.2, p.1.toNat) ∈ escapeCodes ∧ isControlOrBreak p.2 = false ∧ p.2.toNat < 0x80 := by
    decide
  exact key _ h

/-- The ways to quote a character: as it is, by a letter, by the digits of its code point. -/
theorem escapeCharBy_cases (printable : Char → Bool) (c : Char) :
    (printable c ∧ c ≠ '"' ∧ c ≠ '\\' ∧ escapeCharBy printable c = encode c) ∨
      (∃ l : Char, escapeCharBy printable c = [byte '\\', byte l] ∧ (c, l) ∈ letterEscapes) ∨
      controlLetter? c = none ∧
        ∃ b ds, escapeCharBy printable c = byte '\\' :: b :: ds ∧ (b, ds.length) ∈ escapeWidths ∧
          ds = hex ds.length c.toNat := by
  have hmax := Utf8.toNat_val_lt c
  have hdigits : ∀ b width, (b, width) ∈ escapeWidths → c.toNat < Nat.pow 16 width →
      ∃ b' ds, byte '\\' :: b :: hex width c.toNat = byte '\\' :: b' :: ds ∧
        (b', ds.length) ∈ escapeWidths ∧ ds = hex ds.length c.toNat := by
    intro b width hb hc
    have hpos : ∀ p ∈ escapeWidths, 0 < p.2 := by decide
    have hlen := length_hex (hpos _ hb) hc
    exact ⟨b, _, rfl, by rwa [hlen], by rw [hlen]⟩
  unfold escapeCharBy
  split
  · next hc =>
    refine .inr (.inl ⟨c, rfl, ?_⟩)
    rcases hc with rfl | rfl <;> decide
  · next hc =>
    rw [not_or] at hc
    split
    · next hp => exact .inl ⟨hp, hc.1, hc.2, rfl⟩
    · split
      · next l hl => exact .inr (.inl ⟨l, rfl, controlLetter?_mem hl⟩)
      · next hl =>
        refine .inr (.inr ⟨hl, ?_⟩)
        split
        · next hlow =>
          have hbyte : c.toNat < 256 := by omega
          exact hdigits (byte 'x') 2 (by decide) hbyte
        · split
          · next hshort => exact hdigits (byte 'u') 4 (by decide) hshort
          · exact hdigits (byte 'U') 8 (by decide) (Nat.lt_trans hmax (by decide))

/-- Neither controls nor line breaks are shown as they are. -/
def HidesControls (printable : Char → Bool) : Prop := ∀ c, isControlOrBreak c → printable c = false

theorem HidesControls.eq_false (hp : HidesControls printable) {c : Char} (hc : printable c) :
    isControlOrBreak c = false := by
  rw [Bool.eq_false_iff]
  intro hcontrol
  rw [hp c hcontrol] at hc
  cases hc

theorem hidesControls_isPrintable : HidesControls isPrintable := by
  have key : ∀ p ∈ printableRanges, 0xA0 < p.1 ∧ (p.2 < 0x2028 ∨ 0x2029 < p.1) := by
    decide +kernel
  intro c hc
  simp only [isControlOrBreak, Bool.or_eq_true, Bool.and_eq_true, decide_eq_true_eq] at hc
  unfold isPrintable
  split
  · simp only [Bool.and_eq_false_iff, decide_eq_false_iff_not]
    omega
  · rw [List.any_eq_false]
    intro p hp
    have hrange := key p hp
    simp only [Bool.and_eq_true, decide_eq_true_eq]
    omega

/-- What is quoted for a character is written for it by the rules of YAML. -/
theorem writes_escapeCharBy (hp : HidesControls printable) (c : Char) :
    Yaml.Writes (escapeCharBy printable c) c := by
  rcases escapeCharBy_cases printable c with
    ⟨hc, hq, hs, he⟩ | ⟨l, he, hl⟩ | ⟨-, b, ds, he, hb, hds⟩
  · rw [he]
    exact .plain (hp.eq_false hc) hq hs
  · have hwrites := Yaml.Writes.letter (escapeCodes_of_mem_letterEscapes hl).1
    rw [Char.ofNat_toNat] at hwrites
    rwa [he]
  · rw [he]
    exact .digits hb (by rw [hds, ofHex?_hex])

theorem shown_escapeCharBy (hp : HidesControls printable) (c : Char) :
    Shown (escapeCharBy printable c) := by
  have hbackslash : Shown [byte '\\'] := shown_byte (by decide) (by decide)
  rcases escapeCharBy_cases printable c with
    ⟨hc, -, -, he⟩ | ⟨l, he, hmem⟩ | ⟨-, b, ds, he, hb, hds⟩
  · rw [he]
    exact shown_encode (hp.eq_false hc)
  · obtain ⟨-, hl, hlow⟩ := escapeCodes_of_mem_letterEscapes hmem
    rw [he]
    exact hbackslash.append (shown_byte hlow hl)
  · have hmarks : ∀ p ∈ escapeWidths, Shown [p.1] := by
      intro p hp
      simp only [escapeWidths, List.mem_cons, List.not_mem_nil, or_false] at hp
      rcases hp with rfl | rfl | rfl <;> exact shown_byte (by decide) (by decide)
    rw [he, hds]
    exact hbackslash.append ((hmarks _ hb).append (shown_hex _ _))

theorem scalar_quoteBy (hp : HidesControls printable) {s : Bytes} (hs : Utf8.valid s) :
    Scalar (quoteBy printable s) s := by
  have hquote : Shown [byte '"'] := shown_byte (by decide) (by decide)
  obtain ⟨cs, hcs⟩ := Utf8.exists_runes_of_valid hs
  have htext : ofChars cs = s := by
    rw [← Utf8.flatMap_bytes_runes s, hcs, List.flatMap_map]
    rfl
  have hbody : quoteBy printable s =
      byte '"' :: (cs.flatMap (escapeCharBy printable) ++ [byte '"']) := by
    rw [quoteBy, quoteWith, hcs, List.flatMap_map, List.cons_append]
    rfl
  rw [hbody]
  refine ⟨?_, ⟨cs.map (escapeCharBy printable), rfl, ?_⟩, ?_⟩
  · exact hquote.append ((shown_flatMap fun c _ => shown_escapeCharBy hp c).append hquote)
  · intro u hu
    obtain ⟨c, -, rfl⟩ := List.mem_map.1 hu
    exact ⟨c, writes_escapeCharBy hp c⟩
  · rw [scalar?_writes (writes_escapeCharBy hp), htext]

theorem scalar_quote {s : Bytes} (hs : Utf8.valid s) : Scalar (quote s) s := by
  rw [quote_eq]
  exact scalar_quoteBy hidesControls_isPrintable hs

/-- What is written for a text is a double-quoted scalar on one line and loads back, whichever
characters are shown as they are. -/
theorem quote_scalar {s : Bytes} (hs : Utf8.valid s) :
    Scalar (quoted s) s ∧ quoted s = quoteBy isPrintable s ∧
      ∀ printable, HidesControls printable → Scalar (quoteBy printable s) s :=
  ⟨scalar_quote hs, quote_eq s, fun _ hp => scalar_quoteBy hp hs⟩

theorem quote_scalar_controls :
    let s := ofChars ['\t', '"', '\\', 'é', Char.ofNat 0x7F, Char.ofNat 0x85, Char.ofNat 0x2028]
    scalar? (quoted s) = some s ∧ scalar? (quoteBy (fun _ => false) s) = some s := by
  intro s
  have hs : Utf8.valid s := by decide
  exact ⟨(quote_scalar hs).1.loads, ((quote_scalar hs).2.2 (fun _ => false) fun _ _ => rfl).loads⟩

end Lexis
