import Lexis.Proofs.Scan.Lines

/-!
# Cursors decode plainly

What stands at the front of a text is a matter of encodings alone (`Utf8.Front`): the character
whose encoding is there, or U+FFFD for a single byte where no encoding is. A cursor finds the same,
though it takes bytes below `0x80` as they are, once for looking ahead and once more for reading.

* `front_cons_iff`: `Utf8.decode` computes what is at the front, so there is only one such thing.
* `Inside.front`: looking ahead and reading give it, and reading moves by its width.
* `Inside.advanceWhile_between`: a run of steps goes over the characters that pass, one by one.
* `Between.stop_unique`: and there is one place only at which such a run can stop.
* `Inside.advanceWhile_ne`: if a run looks for an ASCII character, that place is the first one with
  its byte.
-/
namespace Lexis

/-! ## The front of a text -/

namespace Utf8

/-- At the front of the text stands the character `ch`, which takes `width` bytes. A byte at which
no encoding starts reads as U+FFFD. -/
inductive Front : Bytes → Char → Nat → Prop where
  | char (ch : Char) (rest : Bytes) : Front (encode ch ++ rest) ch (encode ch).length
  | stray (b : UInt8) (rest : Bytes) : (∀ ch, ¬ encode ch <+: b :: rest) →
      Front (b :: rest) replacement 1

/-- From offset `m` to offset `n` of the source lie the characters `cs`. -/
inductive Between (source : Bytes) : Nat → List Char → Nat → Prop where
  | nil (n : Nat) : Between source n [] n
  | cons {m n width : Nat} {ch : Char} {cs : List Char} : Front (source.drop m) ch width →
      Between source (m + width) cs n → Between source m (ch :: cs) n

/-- At offset `n` a run under `p` is over: there the text ends, or a character fails `p`. -/
def Stops (p : Char → Bool) (source : Bytes) (n : Nat) : Prop :=
  n = source.length ∨ ∃ ch width, Front (source.drop n) ch width ∧ p ch = false

theorem not_front_nil {ch : Char} {width : Nat} : ¬ Front [] ch width := by
  intro h
  generalize hs : ([] : Bytes) = s at h
  cases h with
  | char ch rest =>
    obtain ⟨b, more, he, -⟩ := decode_encode_append ch
    simp [he] at hs
  | stray b rest hno => cases hs

/-- What is at the front is what the decoder computes. -/
theorem front_cons_iff {b : UInt8} {rest : Bytes} {ch : Char} {width : Nat} :
    Front (b :: rest) ch width ↔
      ch = (decode b rest).toChar ∧ width = (decode b rest).width := by
  constructor
  · intro h
    generalize hs : b :: rest = s at h
    cases h with
    | char ch tail =>
      have hd : decode b rest = .char ch := decode_eq_of_prefix ⟨tail, hs.symm⟩
      simp [hd, Rune.toChar, ← Rune.length_bytes, Rune.bytes]
    | stray b' rest' hno =>
      cases hs
      obtain ⟨more, hbytes, hmore⟩ := bytes_decode b rest
      cases hd : decode b rest with
      | char c =>
        -- Its encoding would stand at the front.
        rw [hd, Rune.bytes] at hbytes
        exact absurd (hbytes ▸ List.cons_prefix_cons.2 ⟨rfl, hmore⟩) (hno c)
      | stray x => exact ⟨rfl, rfl⟩
  · rintro ⟨rfl, rfl⟩
    have happend := bytes_decode_append b rest
    cases hd : decode b rest with
    | char c =>
      rw [hd, Rune.bytes] at happend
      rw [← happend, Rune.toChar, ← Rune.length_bytes, Rune.bytes]
      exact .char c _
    | stray x =>
      refine .stray b rest ?_
      intro c hc
      have hchar : decode b rest = .char c := decode_eq_of_prefix hc
      simp [hchar] at hd

theorem Front.unique {s : Bytes} {ch ch' : Char} {width width' : Nat} (h : Front s ch width)
    (h' : Front s ch' width') : ch = ch' ∧ width = width' := by
  cases s with
  | nil => exact absurd h not_front_nil
  | cons b rest =>
    obtain ⟨rfl, rfl⟩ := front_cons_iff.1 h
    obtain ⟨rfl, rfl⟩ := front_cons_iff.1 h'
    exact ⟨rfl, rfl⟩

theorem Front.width_bounds {s : Bytes} {ch : Char} {width : Nat} (h : Front s ch width) :
    (1 ≤ width ∧ width ≤ 4) ∧ width ≤ s.length := by
  cases h with
  | char ch rest =>
    rw [encode, String.length_utf8EncodeChar, List.length_append, String.length_utf8EncodeChar]
    exact ⟨⟨ch.utf8Size_pos, ch.utf8Size_le_four⟩, Nat.le_add_right _ _⟩
  | stray b rest hno => simp

/-- A run that has to stop does not go on over a character that passes. -/
theorem Stops.not_pass {p : Char → Bool} {source : Bytes} {n width : Nat} {ch : Char}
    (h : Stops p source n) (hf : Front (source.drop n) ch width) : p ch = false := by
  rcases h with rfl | ⟨ch', width', hf', hp⟩
  · rw [List.drop_length] at hf
    exact absurd hf not_front_nil
  · rw [(hf.unique hf').1, hp]

/-- Two runs over characters that pass, from one place on, stop at one place. -/
theorem Between.stop_unique {p : Char → Bool} {source : Bytes} {m n n' : Nat} {cs cs' : List Char}
    (h : Between source m cs n) (hcs : ∀ ch ∈ cs, p ch) (hn : Stops p source n)
    (h' : Between source m cs' n') (hcs' : ∀ ch ∈ cs', p ch) (hn' : Stops p source n') :
    n = n' := by
  induction h generalizing cs' with
  | nil m =>
    cases h' with
    | nil => rfl
    | cons hf _ =>
      have hpass := hcs' _ List.mem_cons_self
      rw [hn.not_pass hf] at hpass
      cases hpass
  | cons hf _ ih =>
    rw [List.forall_mem_cons] at hcs
    cases h' with
    | nil =>
      rw [hn'.not_pass hf] at hcs
      cases hcs.1
    | cons hf' hmore =>
      rw [List.forall_mem_cons] at hcs'
      obtain ⟨rfl, rfl⟩ := hf.unique hf'
      exact ih hcs.2 hn hmore hcs'.2

end Utf8

/-! ## Cursors -/

namespace Cursor

open Utf8

variable {source : Bytes} {c : Cursor}

/-- Looking ahead and reading both find what is at the front, and reading moves behind it. -/
theorem Inside.front (h : c.Inside source) {ch : Char} (hp : c.peek = some ch) :
    ∃ width, Front (source.drop c.offset) ch width ∧ c.read = (some ch, c.advance) ∧
      c.advance.offset = c.offset + width := by
  obtain ⟨b, rest, hr, rfl⟩ := exists_rest_of_peek hp
  refine ⟨(decode b rest).width, ?_, ?_, ?_⟩
  · rw [h.drop_offset, hr]
    exact front_cons_iff.2 ⟨rfl, rfl⟩
  · rw [Cursor.advance, read_of_rest hr]
  · rw [Cursor.advance, read_of_rest hr]

/-- A run of steps goes over characters that pass and stops where it has to. -/
theorem Inside.advanceWhile_between (h : c.Inside source) (p : Char → Bool) :
    ∃ cs, Between source c.offset cs (c.advanceWhile p).offset ∧ (∀ ch ∈ cs, p ch) ∧
      Stops p source (c.advanceWhile p).offset := by
  fun_induction Cursor.advanceWhile p c with
  | case1 c hn =>
    have hend : c.atEnd := Lexeme.atEnd_iff.2 (peek_eq_none_iff.1 hn)
    exact ⟨[], .nil _, by simp, .inl (h.atEnd_iff.1 hend)⟩
  | case2 c ch hc hp ih =>
    obtain ⟨width, hf, -, hoff⟩ := h.front hc
    obtain ⟨cs, hbetween, hcs, hstops⟩ := ih h.advance
    rw [hoff] at hbetween
    exact ⟨ch :: cs, .cons hf hbetween, List.forall_mem_cons.2 ⟨hp, hcs⟩, hstops⟩
  | case3 c ch hc hp =>
    obtain ⟨width, hf, -⟩ := h.front hc
    exact ⟨[], .nil _, by simp, .inr ⟨ch, width, hf, by simpa using hp⟩⟩

/-- A run to an ASCII character stops at its first byte: no other unit has that byte. -/
theorem Inside.advanceWhile_ne (h : c.Inside source) {x : Char} (hx : x.toNat < 0x80) :
    let d := c.advanceWhile (· ≠ x)
    (∀ i, c.offset ≤ i → i < d.offset → source[i]? ≠ some (byte x)) ∧
      (source[d.offset]? = some (byte x) ∨ d.offset = source.length) := by
  intro d
  obtain ⟨hread, hrest⟩ := Lexeme.reads_advanceWhile_ne hx c
  have hd : d.Inside source := h.advanceWhile _
  constructor
  · intro i hi hlt hget
    have hoff : d.offset = c.offset + _ := hread.offset
    obtain ⟨j, rfl⟩ := Nat.exists_eq_add_of_le hi
    rw [← List.getElem?_drop, h.drop_offset, hread.rest,
      List.getElem?_append_left (by omega)] at hget
    exact Grammar.not_mem_takeWhile_ne (byte x) c.rest (List.mem_of_getElem? hget)
  · rcases Lexeme.dropWhile_ne_cases (byte x) c.rest with ⟨-, -, hnil⟩ | ⟨r, hcons⟩
    · exact .inr (hd.atEnd_iff.1 (Lexeme.atEnd_iff.2 (hrest.trans hnil)))
    · left
      rw [hd.getElem?_offset, show d.rest = byte x :: r from hrest.trans hcons]
      rfl

/-- Wherever a cursor was moved to, it sees what plain decoding gives there, and runs of steps stop
where they should. -/
theorem moveAll_decodes (source : Bytes) (moves : List Move) :
    let c := (start source).moveAll moves
    c.move .peek = c ∧ (c.atEnd ↔ c.offset = source.length) ∧
      (c.atEnd → c.peek = none ∧ c.read = (none, c)) ∧
      (¬ c.atEnd → ∃ ch width, Front (source.drop c.offset) ch width ∧ c.peek = some ch ∧
        c.read = (some ch, c.advance) ∧ c.advance.offset = c.offset + width ∧
        (1 ≤ width ∧ width ≤ 4) ∧ c.offset + width ≤ source.length) ∧
      (∀ p n, n = (c.advanceWhile p).offset ↔
        ∃ cs, Between source c.offset cs n ∧ (∀ ch ∈ cs, p ch) ∧ Stops p source n) ∧
      ∀ x : Char, x.toNat < 0x80 →
        let d := c.advanceWhile (· ≠ x)
        (∀ i, c.offset ≤ i → i < d.offset → source[i]? ≠ some (byte x)) ∧
          (source[d.offset]? = some (byte x) ∨ d.offset = source.length) := by
  intro c
  have hc : c.Inside source := (inside_start source).moveAll moves
  refine ⟨rfl, hc.atEnd_iff, ?_, ?_, ?_, fun x hx => hc.advanceWhile_ne hx⟩
  · intro hend
    have hrest : c.rest = [] := Lexeme.atEnd_iff.1 hend
    exact ⟨peek_eq_none_iff.2 hrest, read_of_end hrest⟩
  · intro hmore
    cases hp : c.peek with
    | none => exact absurd (Lexeme.atEnd_iff.2 (peek_eq_none_iff.1 hp)) hmore
    | some ch =>
      obtain ⟨width, hf, hread, hoff⟩ := hc.front hp
      obtain ⟨hwidth, hlen⟩ := hf.width_bounds
      have hinside := hc.offset_le
      rw [List.length_drop] at hlen
      exact ⟨ch, width, hf, rfl, hread, hoff, hwidth, by omega⟩
  · intro p n
    obtain ⟨cs, hbetween, hcs, hstops⟩ := hc.advanceWhile_between p
    constructor
    · rintro rfl
      exact ⟨cs, hbetween, hcs, hstops⟩
    · intro ⟨cs', hbetween', hcs', hstops'⟩
      exact hbetween'.stop_unique hcs' hstops' hbetween hcs hstops

/-- A lead byte without the byte it asks for is read alone, and the quote behind it is found. -/
theorem moveAll_decodes_stray :
    let source : Bytes := [0x61, 0xC3, 0x22]
    let c := (start source).moveAll [.advance]
    let d := c.advanceWhile (· ≠ '"')
    let e := (start source).moveAll [.advance, .advanceWhile fun _ => true]
    (¬ c.atEnd ∧ c.peek = some replacement ∧
        ∃ width, Front [0xC3, 0x22] replacement width ∧ c.advance.offset = 1 + width) ∧
      ('"'.toNat < 0x80 ∧ d.offset = 2 ∧
        ∀ i, c.offset ≤ i → i < d.offset → source[i]? ≠ some (byte '"')) ∧
      e.atEnd ∧ e.peek = none ∧ e.read = (none, e) := by
  intro source c d e
  obtain ⟨-, -, -, hfront, -, hquote⟩ := moveAll_decodes source [.advance]
  obtain ⟨-, -, hover, -⟩ := moveAll_decodes source [.advance, .advanceWhile fun _ => true]
  have hmore : ¬ c.atEnd := by decide +kernel
  have hpeek : c.peek = some replacement := by decide +kernel
  have hend : e.atEnd := by decide +kernel
  obtain ⟨ch, width, hf, hp, -, hoff, -⟩ := hfront hmore
  obtain rfl : replacement = ch := Option.some.inj (hpeek.symm.trans hp)
  have hascii : '"'.toNat < 0x80 := by decide
  exact ⟨⟨hmore, hpeek, width, hf, hoff⟩,
    ⟨hascii, by decide +kernel, (hquote '"' hascii).1⟩, hend, hover hend⟩

end Cursor
end Lexis
