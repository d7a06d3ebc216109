import Lexis.Scan.Cursor
import Lexis.Proofs.Text.Encoding

/-!
# Cursors and the bytes they pass

A cursor moves by characters, but everything that is said about a scan counts bytes. `c.Reads t d`
ties the two together: from `c` to `d` lie exactly the bytes `t`, with their length added to the
offset and their line feeds to the line.

Most predicates of a scan do not tell characters above `0x7F` apart (`Uniform`). A run of such
characters is a run of bytes, so multi-byte characters and stray bytes need no care of their own:

* `peek_of_rest`, `read_of_rest`: an ASCII byte taken as it is gives what decoding it gives.
* `reads_advance`: one step reads the bytes of one unit.
* `peek_eq_some_iff`: an ASCII character comes next iff its byte does.
* `reads_advanceWhile`: a run of steps under a uniform predicate reads the longest run of bytes
  under it.
-/
namespace Lexis

/-! ## ASCII -/

theorem toNat_byte {ch : Char} (h : ch.toNat < 0x80) : (byte ch).toNat = ch.toNat :=
  Utf8.toNat_ofNat_lt (by omega)

theorem ofNat_toNat_byte {ch : Char} (h : ch.toNat < 0x80) : Char.ofNat (byte ch).toNat = ch := by
  rw [toNat_byte h]
  exact Char.ofNat_toNat ch

theorem toNat_ofNat_toNat (b : UInt8) : (Char.ofNat b.toNat).toNat = b.toNat := by
  have hb := b.toNat_lt
  exact Utf8.toNat_ofNat (Or.inl (by omega))

theorem byte_ofNat_toNat (b : UInt8) : byte (Char.ofNat b.toNat) = b := by
  unfold byte
  rw [toNat_ofNat_toNat]
  exact UInt8.ofNat_toNat

/-- A predicate on characters that is the same for all characters above `0x7F`. -/
def Uniform (p : Char → Bool) : Prop :=
  ∀ a b : Char, 0x80 ≤ a.toNat → 0x80 ≤ b.toNat → p a = p b

/-- A predicate on characters as one on bytes, each byte taken as the character with its number. -/
def onByte (p : Char → Bool) (b : UInt8) : Bool := p (Char.ofNat b.toNat)

/-- A predicate that holds of ASCII characters only is uniform. -/
theorem uniform_of_ascii {p : Char → Bool} (h : ∀ ch, p ch → ch.toNat < 0x80) : Uniform p := by
  have no : ∀ ch : Char, 0x80 ≤ ch.toNat → p ch = false := by
    intro ch hch
    rw [Bool.eq_false_iff]
    intro hp
    have := h ch hp
    omega
  intro a b ha hb
  rw [no a ha, no b hb]

theorem uniform_ne {x : Char} (hx : x.toNat < 0x80) : Uniform (· ≠ x) := by
  intro a b ha hb
  have ne : ∀ ch : Char, 0x80 ≤ ch.toNat → ch ≠ x := by
    rintro ch h rfl
    omega
  simp [ne a ha, ne b hb]

theorem onByte_ne {x : Char} (hx : x.toNat < 0x80) (b : UInt8) :
    onByte (· ≠ x) b = decide (b ≠ byte x) := by
  have h : Char.ofNat b.toNat = x ↔ b = byte x := by
    constructor
    · rintro rfl
      exact (byte_ofNat_toNat b).symm
    · rintro rfl
      exact ofNat_toNat_byte hx
  simp [onByte, h]

/-- The bytes of a unit and its character agree under a uniform predicate. -/
theorem Uniform.onByte_bytes {p : Char → Bool} (hp : Uniform p) (b : UInt8) (rest : Bytes) :
    ∀ x ∈ (Utf8.decode b rest).bytes, onByte p x = p (Utf8.decode b rest).toChar := by
  intro x hx
  by_cases hb : b.toNat < 0x80
  · rw [Utf8.decode_ascii hb] at hx ⊢
    rw [Rune.bytes, Utf8.encode_ofNat_one hb, List.mem_singleton] at hx
    rw [hx]
    rfl
  · have hb' : 0x80 ≤ b.toNat := Nat.le_of_not_lt hb
    refine hp _ _ ?_ (Utf8.high_toChar_decode hb' rest)
    rw [toNat_ofNat_toNat]
    exact Utf8.high_bytes_decode hb' rest x hx

namespace Cursor

/-! ## Reading -/

/-- The bytes `t` lie between `c` and `d`. -/
structure Reads (c : Cursor) (t : Bytes) (d : Cursor) : Prop where
  rest : c.rest = t ++ d.rest
  offset : d.offset = c.offset + t.length
  line : d.line = c.line + t.count (byte '\n')

namespace Reads

theorem refl (c : Cursor) : c.Reads [] c := ⟨rfl, rfl, rfl⟩

theorem trans {c d e : Cursor} {t u : Bytes} (h : c.Reads t d) (h' : d.Reads u e) :
    c.Reads (t ++ u) e where
  rest := by rw [h.rest, h'.rest, List.append_assoc]
  offset := by rw [h'.offset, h.offset, List.length_append, Nat.add_assoc]
  line := by rw [h'.line, h.line, List.count_append, Nat.add_assoc]

/-- The text between two cursors is what was read. -/
theorem textTo_eq {c d : Cursor} {t : Bytes} (h : c.Reads t d) : c.textTo d = t := by
  unfold textTo
  rw [h.offset, Nat.add_sub_cancel_left, h.rest, List.take_left]

theorem isPrefix {c d : Cursor} {t : Bytes} (h : c.Reads t d) : t <+: c.rest :=
  ⟨d.rest, h.rest.symm⟩

end Reads

/-- Looking at the next character without decoding an ASCII one finds what decoding it gives. -/
theorem peek_of_rest {c : Cursor} {b : UInt8} {rest : Bytes} (h : c.rest = b :: rest) :
    c.peek = some (Utf8.decode b rest).toChar := by
  unfold peek
  rw [h]
  dsimp only
  split
  · next hb => rw [Utf8.decode_ascii (UInt8.lt_iff_toNat_lt.1 hb), Rune.toChar]
  · rfl

/-- So does reading it, which moves by the width of the unit. -/
theorem read_of_rest {c : Cursor} {b : UInt8} {rest : Bytes} (h : c.rest = b :: rest) :
    c.read = (some (Utf8.decode b rest).toChar,
      ⟨rest.drop ((Utf8.decode b rest).width - 1), c.offset + (Utf8.decode b rest).width,
        if (Utf8.decode b rest).toChar = '\n' then c.line + 1 else c.line⟩) := by
  unfold read
  rw [h]
  dsimp only
  split
  · next hb =>
    have hlow : b.toNat < 0x80 := UInt8.lt_iff_toNat_lt.1 hb
    have hwidth : (Utf8.decode b rest).width = 1 := by
      rw [← Rune.length_bytes, Utf8.decode_ascii hlow, Rune.bytes, Utf8.encode_ofNat_one hlow]
      rfl
    rw [hwidth, Utf8.decode_ascii hlow, Rune.toChar]
  · rfl

theorem exists_rest_of_peek {c : Cursor} {ch : Char} (h : c.peek = some ch) :
    ∃ b rest, c.rest = b :: rest ∧ (Utf8.decode b rest).toChar = ch := by
  cases hr : c.rest with
  | nil =>
    rw [peek_eq_none_iff.2 hr] at h
    cases h
  | cons b rest =>
    rw [peek_of_rest hr, Option.some.injEq] at h
    exact ⟨b, rest, rfl, h⟩

/-- A uniform predicate can be asked of the next byte. -/
theorem any_peek {p : Char → Bool} (hp : Uniform p) (c : Cursor) :
    c.peek.any p = c.rest.head?.any (onByte p) := by
  cases hr : c.rest with
  | nil => rw [peek_eq_none_iff.2 hr]; rfl
  | cons b rest =>
    obtain ⟨more, hb, -⟩ := Utf8.bytes_decode b rest
    have hu := hp.onByte_bytes b rest b (by rw [hb]; exact List.mem_cons_self)
    rw [peek_of_rest hr, List.head?_cons, Option.any_some, Option.any_some, hu]

/-- The next character is an ASCII one iff its byte comes next. -/
theorem peek_eq_some_iff {c : Cursor} {ch : Char} (h : ch.toNat < 0x80) :
    c.peek = some ch ↔ c.rest.head? = some (byte ch) := by
  cases hr : c.rest with
  | nil => simp [peek_eq_none_iff.2 hr]
  | cons b rest =>
    rw [peek_of_rest hr, List.head?_cons, Option.some.injEq, Option.some.injEq]
    by_cases hb : b.toNat < 0x80
    · rw [Utf8.decode_ascii hb, Rune.toChar]
      constructor
      · rintro rfl
        exact (byte_ofNat_toNat b).symm
      · rintro rfl
        exact ofNat_toNat_byte h
    · have hc := Utf8.high_toChar_decode (Nat.le_of_not_lt hb) rest
      constructor
      · rintro rfl
        omega
      · rintro rfl
        rw [toNat_byte h] at hb
        omega

theorem uniform_newline : Uniform (· = '\n') := by
  apply uniform_of_ascii
  intro ch h
  obtain rfl : ch = '\n' := of_decide_eq_true h
  decide

/-- One step reads the bytes of one unit. -/
theorem reads_advance {c : Cursor} {b : UInt8} {rest : Bytes} (h : c.rest = b :: rest) :
    c.Reads (Utf8.decode b rest).bytes c.advance := by
  have ha : c.advance = ⟨rest.drop ((Utf8.decode b rest).width - 1),
      c.offset + (Utf8.decode b rest).width,
      if (Utf8.decode b rest).toChar = '\n' then c.line + 1 else c.line⟩ := by
    rw [advance, read_of_rest h]
  rw [ha]
  refine ⟨?_, ?_, ?_⟩
  · rw [h, Utf8.bytes_decode_append]
  · rw [Rune.length_bytes]
  · -- A line feed is a unit of one byte, and no other unit has that byte.
    have hu := uniform_newline.onByte_bytes b rest
    dsimp only
    split
    · next hn =>
      have hlow : b.toNat < 0x80 := by
        refine Nat.lt_of_not_le fun hge => ?_
        have := Utf8.high_toChar_decode hge rest
        rw [hn] at this
        exact absurd this (by decide)
      rw [Utf8.decode_ascii hlow] at hn ⊢
      rw [Rune.bytes, Utf8.encode_ofNat_one hlow, List.count_singleton]
      rw [Rune.toChar] at hn
      rw [← byte_ofNat_toNat b, hn, if_pos (beq_self_eq_true _)]
    · next hn =>
      rw [List.count_eq_zero_of_not_mem, Nat.add_zero]
      intro hmem
      have := hu _ hmem
      rw [decide_eq_false hn] at this
      exact absurd this (by decide)

/-- A step over an ASCII character reads its byte. -/
theorem reads_advance_ascii {c : Cursor} {ch : Char} (hc : c.peek = some ch)
    (h : ch.toNat < 0x80) : c.Reads [byte ch] c.advance := by
  obtain ⟨rest, hr⟩ := List.head?_eq_some_iff.1 ((peek_eq_some_iff h).1 hc)
  have hb : (byte ch).toNat < 0x80 := by rwa [toNat_byte h]
  have := reads_advance hr
  rwa [Utf8.decode_ascii hb, Rune.bytes, Utf8.encode_ofNat_one hb] at this

/-- Under a uniform predicate, a run of steps reads the longest run of bytes. -/
theorem reads_advanceWhile {p : Char → Bool} (hp : Uniform p) (c : Cursor) :
    c.Reads (c.rest.takeWhile (onByte p)) (c.advanceWhile p) := by
  fun_induction advanceWhile p c with
  | case1 c hn =>
    rw [peek_eq_none_iff.1 hn]
    exact Reads.refl c
  | case2 c ch hc hpc ih =>
    obtain ⟨b, rest, hr, rfl⟩ := exists_rest_of_peek hc
    have hu := hp.onByte_bytes b rest
    rw [hpc] at hu
    have h := reads_advance hr
    rw [h.rest, List.takeWhile_append_of_pos hu]
    exact h.trans ih
  | case3 c ch hc hpc =>
    obtain ⟨b, rest, hr, rfl⟩ := exists_rest_of_peek hc
    have hu := any_peek hp c
    rw [hc, hr, List.head?_cons, Option.any_some, Option.any_some] at hu
    rw [hr, List.takeWhile_cons_of_neg (by rw [← hu]; exact hpc)]
    exact Reads.refl c

theorem rest_advanceWhile {p : Char → Bool} (hp : Uniform p) (c : Cursor) :
    (c.advanceWhile p).rest = c.rest.dropWhile (onByte p) := by
  have h := (reads_advanceWhile hp c).rest
  have h' := List.takeWhile_append_dropWhile (p := onByte p) (l := c.rest)
  exact List.append_cancel_left (h.symm.trans h'.symm)

theorem advanceWhile_eq_self {p : Char → Bool} {c : Cursor} (h : c.peek.any p = false) :
    c.advanceWhile p = c := by
  rw [advanceWhile]
  split
  · rfl
  · next ch hc =>
    rw [hc, Option.any_some] at h
    rw [h, if_neg Bool.false_ne_true]

/-- Behind a run of steps the predicate fails, or the text is over. -/
theorem any_peek_advanceWhile (p : Char → Bool) (c : Cursor) :
    (c.advanceWhile p).peek.any p = false := by
  fun_induction advanceWhile p c with
  | case1 c hn => simp [hn]
  | case2 c ch hc hp ih => exact ih
  | case3 c ch hc hp => simpa [hc] using hp

end Cursor
end Lexis
