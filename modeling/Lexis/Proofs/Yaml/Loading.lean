import Lexis.Report.Yaml
import Lexis.Proofs.Yaml.Scalars

/-!
# Which texts of a report load back

The document of a report does not hold the scalars that are written for its texts: each is read and
quoted once more. The reader knows fewer escapes than are written. It has none for the bell, the tab
and the carriage return, and takes their backslash for a character of the text; all other characters
come back as they were. A stray byte comes back as the character of its number.

* `reads_escapeRune`: what is read of one unit, whatever follows.
* `reread_quoted`: what is read of a whole text.
* `scalar?_string`: what loads from a document where a text was written.
* `scalar?_string_eq_some_iff`: the texts that load back.
-/
namespace Lexis
namespace Yaml

open Utf8 (encode)

/-- The letters that are written after a backslash but not known to the reader. -/
def unknownLetters : List Char := ['a', 't', 'r']

/-- The characters that are read of what is written for a unit. -/
def respelled : Rune → List Char
  | .char c =>
    match (controlLetter? c).filter unknownLetters.contains with
    | some l => ['\\', l]
    | none => [c]
  | .stray b => [Char.ofNat b.toNat]

/-! ## The characters of a scalar -/

theorem runes_encode_append (c : Char) (u : Bytes) :
    Utf8.runes (encode c ++ u) = .char c :: Utf8.runes u := by
  obtain ⟨b, more, he, hd⟩ := Utf8.decode_encode_append c
  rw [he, List.cons_append, Utf8.runes_cons, hd, length_more_encode he, List.drop_left]

theorem runes_ofChars (cs : List Char) : Utf8.runes (ofChars cs) = cs.map .char := by
  induction cs with
  | nil => rfl
  | cons c cs ih =>
    rw [ofChars, List.flatMap_cons, runes_encode_append, ← ofChars, ih, List.map_cons]

theorem ofChars_inj {cs ds : List Char} (h : ofChars cs = ofChars ds) : cs = ds := by
  have hrunes := congrArg Utf8.runes h
  rw [runes_ofChars, runes_ofChars] at hrunes
  exact (List.map_inj_right fun _ _ => Rune.char.inj).1 hrunes

theorem chars_encode_append (c : Char) (u : Bytes) : chars (encode c ++ u) = c :: chars u := by
  rw [chars, runes_encode_append]
  rfl

/-- The characters of a text below `0x80`. -/
def asciiChars (s : Bytes) : List Char := s.map fun b => Char.ofNat b.toNat

theorem chars_ascii_append {s : Bytes} (h : ∀ b ∈ s, b.toNat < 0x80) (u : Bytes) :
    chars (s ++ u) = asciiChars s ++ chars u := by
  induction s with
  | nil => rfl
  | cons b s ih =>
    have hb : encode (Char.ofNat b.toNat) = [b] := Utf8.encode_ofNat_one (h b (by simp))
    rw [List.cons_append, ← List.singleton_append, ← hb, chars_encode_append,
      ih fun x hx => h x (by simp [hx])]
    rfl

/-! ## Reading one unit -/

/-- The characters `cs` are read where the text `w` stands, whatever follows. -/
def Reads (w : Bytes) (cs : List Char) : Prop :=
  ∀ u, doubleQuoted (chars (w ++ u)) =
    (doubleQuoted (chars u)).map fun (text, after) => (cs ++ text, after)

theorem doubleQuotedFrom_eq_drop (n : Nat) (u : List Char) :
    doubleQuotedFrom false n u = doubleQuoted (u.drop n) := by
  induction n generalizing u with
  | zero => rfl
  | succ n ih =>
    cases u with
    | nil => rfl
    | cons c u => exact ih u

theorem doubleQuoted_cons {c : Char} (hq : c ≠ '"') (hs : c ≠ '\\') (hn : c ≠ '\n') (hr : c ≠ '\r')
    (u : List Char) :
    doubleQuoted (c :: u) = (doubleQuoted u).map fun (text, after) => (c :: text, after) := by
  simp [doubleQuoted, doubleQuotedFrom, hq, hs, hn, hr]

theorem reads_plain {c : Char} (hc : isControlOrBreak c = false) (hq : c ≠ '"') (hs : c ≠ '\\') :
    Reads (encode c) [c] := by
  have hbreak : c ≠ '\n' ∧ c ≠ '\r' := by
    constructor <;> rintro rfl <;> exact absurd hc (by decide)
  intro u
  rw [chars_encode_append]
  exact doubleQuoted_cons hq hs hbreak.1 hbreak.2 _

theorem reads_escape {e : Bytes} {cs : List Char} (he : ∀ b ∈ e, b.toNat < 0x80)
    (h : ∀ u, escape? (asciiChars e ++ u) = some (cs, e.length)) : Reads (byte '\\' :: e) cs := by
  have hlow : ∀ b ∈ byte '\\' :: e, b.toNat < 0x80 := by
    simpa using And.intro (by decide) he
  intro u
  have hskip := doubleQuotedFrom_eq_drop e.length (asciiChars e ++ chars u)
  rw [List.drop_left' (by simp [asciiChars])] at hskip
  rw [chars_ascii_append hlow]
  show doubleQuotedFrom false 0 ('\\' :: (asciiChars e ++ chars u)) = _
  simp [doubleQuotedFrom, h, hskip]

theorem reads_unknown {l : Char} (hlow : l.toNat < 0x80) (hl : isControlOrBreak l = false)
    (hq : l ≠ '"') (hs : l ≠ '\\') (h : ∀ u, escape? (l :: u) = none) :
    Reads [byte '\\', byte l] ['\\', l] := by
  intro u
  have htail := reads_plain hl hq hs u
  rw [chars_encode_append] at htail
  have hchars : chars ([byte '\\', byte l] ++ u) = '\\' :: l :: chars u := by
    have hbytes : ∀ b ∈ [byte '\\', byte l], b.toNat < 0x80 := by
      simpa [toNat_byte hlow] using And.intro (by decide) hlow
    rw [chars_ascii_append hbytes, asciiChars, List.map_cons, List.map_singleton,
      ofNat_toNat_byte hlow]
    rfl
  have hstay : doubleQuoted ('\\' :: l :: chars u) =
      (doubleQuoted (l :: chars u)).map fun (text, after) => ('\\' :: text, after) := by
    simp [doubleQuoted, doubleQuotedFrom, h]
  rw [hchars, hstay, htail, Option.map_map]
  rfl

theorem foldl_hexValue {s : Bytes} {m n : Nat}
    (h : s.foldlM (fun n b => (hexDigit? b).map (16 * n + ·)) m = some n) :
    (asciiChars s).foldl (fun n c => 16 * n + hexValue c) (m : Int) = n := by
  have key : ∀ b : UInt8, ∀ d ∈ hexDigit? b, hexValue (Char.ofNat b.toNat) = d := by
    intro b d hd
    have hall : ∀ n < 256, ∀ d ∈ hexDigit? (UInt8.ofNat n), hexValue (Char.ofNat n) = d := by
      decide +kernel
    have hb : UInt8.ofNat b.toNat = b := UInt8.ofNat_toNat
    exact hall b.toNat b.toNat_lt d (by rwa [hb])
  induction s generalizing m with
  | nil =>
    cases h
    rfl
  | cons b s ih =>
    rw [List.foldlM_cons] at h
    obtain ⟨k, hk, h⟩ := Option.bind_eq_some_iff.1 h
    obtain ⟨d, hd, rfl⟩ := Option.map_eq_some_iff.1 hk
    have hvalue := key b d hd
    have htail := ih h
    rw [asciiChars, List.map_cons, List.foldl_cons, hvalue]
    exact_mod_cast htail

theorem hexChar_asciiChars {ds : Bytes} {c : Char} (h : ofHex? ds = some c.toNat) :
    hexChar (asciiChars ds) = c := by
  have hfold : (asciiChars ds).foldl (fun n c => 16 * n + hexValue c) (0 : Int) = c.toNat :=
    foldl_hexValue h
  unfold hexChar
  rw [hfold]
  simp [charOfNat?_toNat]

theorem reads_digits {b : UInt8} {ds : Bytes} {c : Char} (hb : (b, ds.length) ∈ escapeWidths)
    (hlow : ∀ x ∈ ds, x.toNat < 0x80) (h : ofHex? ds = some c.toNat) :
    Reads (byte '\\' :: b :: ds) [c] := by
  simp only [escapeWidths, List.mem_cons, List.not_mem_nil, or_false, Prod.mk.injEq] at hb
  have hmark : b.toNat < 0x80 ∧ ∀ rest, escape? (Char.ofNat b.toNat :: rest) =
      if rest.length < ds.length then none
      else some ([hexChar (rest.take ds.length)], ds.length + 1) := by
    rcases hb with ⟨rfl, hds⟩ | ⟨rfl, hds⟩ | ⟨rfl, hds⟩ <;>
      exact ⟨by decide, fun rest => by rw [hds]; rfl⟩
  have hlen : (asciiChars ds).length = ds.length := List.length_map ..
  refine reads_escape (by simpa using And.intro hmark.1 hlow) fun u => ?_
  rw [asciiChars, List.map_cons, List.cons_append, hmark.2, ← asciiChars, List.take_left' hlen,
    hexChar_asciiChars h, if_neg (by simp [hlen])]
  rfl

theorem hex_lt {width n : Nat} : ∀ b ∈ hex width n, b.toNat < 0x80 := by
  have key : ∀ d < 16, (byte (Nat.digitChar d)).toNat < 0x80 := by decide
  intro b hb
  obtain ⟨d, hd, rfl⟩ := mem_hex hb
  exact key d hd

theorem reads_letter {c l : Char} (h : (c, l) ∈ letterEscapes) :
    Reads [byte '\\', byte l] (respelled (.char c)) := by
  simp only [letterEscapes, List.mem_cons, List.not_mem_nil, or_false, Prod.mk.injEq] at h
  rcases h with ⟨rfl, rfl⟩ | ⟨rfl, rfl⟩ | ⟨rfl, rfl⟩ | ⟨rfl, rfl⟩ | ⟨rfl, rfl⟩ | ⟨rfl, rfl⟩ |
    ⟨rfl, rfl⟩ | ⟨rfl, rfl⟩ | ⟨rfl, rfl⟩
  all_goals first
    | exact reads_escape (e := [_]) (List.forall_mem_singleton.2 (by decide)) fun _ => rfl
    | exact reads_unknown (by decide) (by decide) (by decide) (by decide) fun _ => rfl

theorem controlLetter?_eq_none {c : Char} (h : isControlOrBreak c = false) :
    controlLetter? c = none := by
  simp only [isControlOrBreak, Bool.or_eq_false_iff, decide_eq_false_iff_not] at h
  unfold controlLetter?
  split <;> first | omega | rfl

theorem respelled_char {c : Char} (h : controlLetter? c = none) : respelled (.char c) = [c] := by
  simp [respelled, h]

/-- What is read of the escape of a unit, whatever follows. -/
theorem reads_escapeRune (r : Rune) : Reads (escapeRune r) (respelled r) := by
  cases r with
  | stray b =>
    have hlen : (hex 2 b.toNat).length = 2 := length_hex (by decide) b.toNat_lt
    have hcode : ofHex? (hex 2 b.toNat) = some (Char.ofNat b.toNat).toNat := by
      rw [ofHex?_hex, toNat_ofNat_toNat]
    have hmark : (byte 'x', (hex 2 b.toNat).length) ∈ escapeWidths := by
      rw [hlen]
      decide
    exact reads_digits hmark hex_lt hcode
  | char c =>
    show Reads (escapeCharBy isPrintable c) _
    rcases escapeCharBy_cases isPrintable c with
      ⟨hc, hq, hs, he⟩ | ⟨l, he, hl⟩ | ⟨hnone, b, ds, he, hb, hds⟩
    · have hshown := hidesControls_isPrintable.eq_false hc
      rw [he, respelled_char (controlLetter?_eq_none hshown)]
      exact reads_plain hshown hq hs
    · rw [he]
      exact reads_letter hl
    · rw [he, respelled_char hnone]
      exact reads_digits hb (by rw [hds]; exact hex_lt) (by rw [hds, ofHex?_hex])

/-! ## Whole texts -/

theorem doubleQuoted_escaped (rs : List Rune) :
    doubleQuoted (chars (rs.flatMap escapeRune ++ [byte '"'])) =
      some (rs.flatMap respelled, []) := by
  induction rs with
  | nil => rfl
  | cons r rs ih =>
    rw [List.flatMap_cons, List.append_assoc, reads_escapeRune r, ih]
    rfl

/-- What is read of the scalar for a text. -/
theorem reread_quoted (s : Bytes) :
    reread (quoted s) = ofChars ((Utf8.runes s).flatMap respelled) := by
  have hopen : chars (quoted s) =
      '"' :: chars ((Utf8.runes s).flatMap escapeRune ++ [byte '"']) :=
    chars_encode_append '"' _
  rw [reread, hopen, List.drop_one, List.tail_cons, doubleQuoted_escaped]

theorem valid_ofChars (cs : List Char) : Utf8.valid (ofChars cs) :=
  Utf8.valid_iff_exists_chars.2 ⟨cs, rfl⟩

/-- What a document says where a text was written. -/
theorem scalar?_string (s : Bytes) :
    scalar? (string s) = some (ofChars ((Utf8.runes s).flatMap respelled)) := by
  rw [string, reread_quoted]
  exact (scalar_quote (valid_ofChars _)).loads

/-! ## Texts that load back -/

/-- The characters that do not come back: the bell, the tab and the carriage return. -/
def lost : List Char := [Char.ofNat 0x07, Char.ofNat 0x09, Char.ofNat 0x0D]

theorem respelled_char_iff (c : Char) : respelled (.char c) = [c] ↔ c ∉ lost := by
  constructor
  · intro h hc
    simp only [lost, List.mem_cons, List.not_mem_nil, or_false] at hc
    rcases hc with rfl | rfl | rfl <;> exact absurd h (by decide)
  · intro hc
    have key : ∀ p ∈ letterEscapes, unknownLetters.contains p.2 → p.1 ∈ lost := by decide
    cases hl : (controlLetter? c).filter unknownLetters.contains with
    | none => rw [respelled, hl]
    | some l =>
      obtain ⟨hletter, hunknown⟩ := Option.filter_eq_some_iff.1 hl
      exact absurd (key (c, l) (controlLetter?_mem hletter) hunknown) hc

theorem respelled_ne_nil (r : Rune) : respelled r ≠ [] := by
  unfold respelled
  split
  · split <;> simp
  · simp

/-- If nothing is dropped, a text comes out unchanged only if each of its characters does. -/
theorem flatMap_eq_self_iff {f : Char → List Char} (hf : ∀ c, f c ≠ []) (cs : List Char) :
    cs.flatMap f = cs ↔ ∀ c ∈ cs, f c = [c] := by
  have hlen : ∀ cs : List Char, cs.length ≤ (cs.flatMap f).length := by
    intro cs
    induction cs with
    | nil => exact Nat.le_refl 0
    | cons c cs ih =>
      have hpos := List.length_pos_iff.2 (hf c)
      rw [List.flatMap_cons, List.length_append, List.length_cons]
      omega
  induction cs with
  | nil => simp
  | cons c cs ih =>
    rw [List.flatMap_cons, List.forall_mem_cons]
    refine Iff.trans ⟨?_, ?_⟩ (and_congr_right fun _ => ih)
    · intro h
      have hlength := congrArg List.length h
      rw [List.length_append, List.length_cons] at hlength
      have htail := hlen cs
      have hpos := List.length_pos_iff.2 (hf c)
      have hone : (f c).length = [c].length := by
        rw [List.length_singleton]
        omega
      exact List.append_inj h hone
    · rintro ⟨hc, hcs⟩
      rw [hc, hcs]
      rfl

theorem mem_ofChars_iff {b : UInt8} (hb : b.toNat < 0x80) (cs : List Char) :
    b ∈ ofChars cs ↔ Char.ofNat b.toNat ∈ cs := by
  constructor
  · intro h
    obtain ⟨c, hc, hmem⟩ := List.mem_flatMap.1 h
    rwa [← eq_ofNat_of_mem_encode hb hmem]
  · intro h
    refine List.mem_flatMap.2 ⟨_, h, ?_⟩
    rw [Utf8.encode_ofNat_one hb]
    exact List.mem_singleton.2 rfl

theorem scalar?_string_ofChars_iff (cs : List Char) :
    scalar? (string (ofChars cs)) = some (ofChars cs) ↔ ∀ c ∈ lost, c ∉ cs := by
  have hinj : ∀ ds, ofChars ds = ofChars cs ↔ ds = cs := fun ds => ⟨ofChars_inj, congrArg ofChars⟩
  rw [scalar?_string, runes_ofChars, List.flatMap_map, Option.some.injEq, hinj,
    flatMap_eq_self_iff fun c => respelled_ne_nil (.char c)]
  simp only [respelled_char_iff]
  exact ⟨fun h c hc hmem => h c hmem hc, fun h c hmem hc => h c hc hmem⟩

/-- A text loads back from a document if it is valid and has no bell, tab or carriage return. -/
theorem scalar?_string_eq_some_iff (s : Bytes) : scalar? (string s) = some s ↔
    Utf8.valid s ∧ 0x07 ∉ s ∧ 0x09 ∉ s ∧ 0x0D ∉ s := by
  by_cases hs : Utf8.valid s
  · obtain ⟨cs, rfl⟩ : ∃ cs, s = ofChars cs := Utf8.valid_iff_exists_chars.1 hs
    rw [scalar?_string_ofChars_iff, mem_ofChars_iff (by decide), mem_ofChars_iff (by decide),
      mem_ofChars_iff (by decide)]
    simp [hs, lost]
  · have hne : ofChars ((Utf8.runes s).flatMap respelled) ≠ s := by
      rintro h
      exact hs (h ▸ valid_ofChars _)
    rw [scalar?_string]
    simp [hs, hne]

example : scalar? (string (ascii "//\tx")) = some (ascii "//\\tx") := by decide

end Yaml
end Lexis
