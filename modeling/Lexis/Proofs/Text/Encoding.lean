import Lexis.Text.Utf8

/-!
# Reading back an encoding

`Utf8.decode` on the encoding of a character gives that character, whatever follows. So no encoding
continues another one, and the unit at the front of a text is the only character that can be read
there. A byte below `0x80` is a unit by itself, and all bytes of a longer unit are above.

* `decode_encode_append`: the unit at the front of `encode c ++ rest` is `c`.
* `decode_eq_of_prefix`: if an encoding stands at the front of a text, `decode` finds it.
* `high_bytes_decode`: a unit that starts above `0x7F` has no byte below.
-/
namespace Lexis
namespace Utf8

theorem toNat_ofNat_lt {n : Nat} (h : n < 256) : (UInt8.ofNat n).toNat = n :=
  UInt8.toNat_ofNat_of_lt' h

theorem payload?_ofNat {x : Nat} (h : x < 64) : payload? (UInt8.ofNat (x + 0x80)) = some x := by
  have hn : (UInt8.ofNat (x + 0x80)).toNat = x + 0x80 := toNat_ofNat_lt (by omega)
  unfold payload?
  simp only [UInt8.le_iff_toNat_le, UInt8.lt_iff_toNat_lt, UInt8.reduceToNat, hn]
  rw [if_pos (by omega), Nat.add_sub_cancel]

theorem toNat_val_lt (c : Char) : c.val.toNat < 0x110000 := by
  have hv : c.val.toNat.isValidChar := c.valid
  rcases hv with h | ⟨-, h⟩ <;> omega

/-- A byte below `0x80` is a unit by itself. -/
theorem decode_ascii {b : UInt8} (h : b.toNat < 0x80) (rest : Bytes) :
    decode b rest = .char (Char.ofNat b.toNat) := by
  unfold decode
  rw [if_pos (by simpa only [UInt8.lt_iff_toNat_lt, UInt8.reduceToNat] using h)]

/-- What `decode` does above `0x7F`, once the spelled number is known. -/
theorem decode_of_spelled {b : UInt8} {rest : Bytes} {v : Nat} (least : Nat)
    (hb : 0x80 ≤ b.toNat) (hs : spelled? b rest = some (v, least)) (hl : least ≤ v)
    (hv : v.isValidChar) :
    decode b rest = .char (Char.ofNat v) := by
  unfold decode
  rw [if_neg (by simp only [UInt8.lt_iff_toNat_lt, UInt8.reduceToNat]; omega), hs]
  exact if_pos ⟨hl, hv⟩

/-- The unit at the front of an encoding is the encoded character, whatever follows. -/
theorem decode_encode_append (c : Char) :
    ∃ b more, encode c = b :: more ∧ ∀ rest, decode b (more ++ rest) = .char c := by
  have hv : c.val.toNat.isValidChar := c.valid
  have hc : Char.ofNat c.val.toNat = c := Char.ofNat_toNat c
  have hmax := toNat_val_lt c
  unfold encode String.utf8EncodeChar
  dsimp only
  generalize c.val.toNat = v at *
  split
  · refine ⟨_, _, rfl, fun rest => ?_⟩
    have hn : (UInt8.ofNat v).toNat = v := toNat_ofNat_lt (by omega)
    rw [decode_ascii (by omega), hn, hc]
  · split
    · refine ⟨_, _, rfl, fun rest => ?_⟩
      have hn := toNat_ofNat_lt (show v / 64 % 0x20 + 0xC0 < 256 by omega)
      rw [← hc]
      refine decode_of_spelled 0x80 (by omega) ?_ (by omega) hv
      simp only [spelled?, UInt8.le_iff_toNat_le, UInt8.lt_iff_toNat_lt, UInt8.reduceToNat, hn,
        List.cons_append, payload?_ofNat (show v % 0x40 < 64 by omega), Option.map_some]
      rw [if_pos (by omega)]
      congr 2
      omega
    · split
      · refine ⟨_, _, rfl, fun rest => ?_⟩
        have hn := toNat_ofNat_lt (show v / 4096 % 0x10 + 0xE0 < 256 by omega)
        rw [← hc]
        refine decode_of_spelled 0x800 (by omega) ?_ (by omega) hv
        simp only [spelled?, UInt8.le_iff_toNat_le, UInt8.lt_iff_toNat_lt, UInt8.reduceToNat, hn,
          List.cons_append, payload?_ofNat (show v % 0x40 < 64 by omega),
          payload?_ofNat (show v / 64 % 0x40 < 64 by omega)]
        rw [if_neg (by omega), if_pos (by omega)]
        congr 2
        omega
      · refine ⟨_, _, rfl, fun rest => ?_⟩
        have hn := toNat_ofNat_lt (show v / 262144 % 0x08 + 0xF0 < 256 by omega)
        rw [← hc]
        refine decode_of_spelled 0x10000 (by omega) ?_ (by omega) hv
        simp only [spelled?, UInt8.le_iff_toNat_le, UInt8.lt_iff_toNat_lt, UInt8.reduceToNat, hn,
          List.cons_append, payload?_ofNat (show v % 0x40 < 64 by omega),
          payload?_ofNat (show v / 64 % 0x40 < 64 by omega),
          payload?_ofNat (show v / 4096 % 0x40 < 64 by omega)]
        rw [if_neg (by omega), if_neg (by omega), if_pos (by omega)]
        congr 2
        omega

/-- An encoding at the front of a text is what `decode` finds there. -/
theorem decode_eq_of_prefix {c : Char} {b : UInt8} {rest : Bytes} (h : encode c <+: b :: rest) :
    decode b rest = .char c := by
  obtain ⟨b', more, he, hd⟩ := decode_encode_append c
  rw [he, List.cons_prefix_cons] at h
  obtain ⟨rfl, tail, rfl⟩ := h
  exact hd tail

/-! ## Units above `0x7F` -/

/-- A character above `0x7F` is encoded without a byte below `0x80`. -/
theorem high_bytes_encode {c : Char} (h : 0x80 ≤ c.toNat) : ∀ x ∈ encode c, 0x80 ≤ x.toNat := by
  have hmax := toNat_val_lt c
  have h' : 0x80 ≤ c.val.toNat := h
  unfold encode String.utf8EncodeChar
  dsimp only
  generalize c.val.toNat = v at *
  intro x hx
  rw [if_neg (by omega)] at hx
  split at hx
  · simp only [List.mem_cons, List.not_mem_nil, or_false] at hx
    rcases hx with rfl | rfl <;> rw [toNat_ofNat_lt (by omega)] <;> omega
  · split at hx
    · simp only [List.mem_cons, List.not_mem_nil, or_false] at hx
      rcases hx with rfl | rfl | rfl <;> rw [toNat_ofNat_lt (by omega)] <;> omega
    · simp only [List.mem_cons, List.not_mem_nil, or_false] at hx
      rcases hx with rfl | rfl | rfl | rfl <;> rw [toNat_ofNat_lt (by omega)] <;> omega

/-- A unit that starts above `0x7F` reads as a character above `0x7F`. -/
theorem high_toChar_decode {b : UInt8} (h : 0x80 ≤ b.toNat) (rest : Bytes) :
    0x80 ≤ (decode b rest).toChar.toNat := by
  cases hd : decode b rest with
  | stray x => exact (by decide : 0x80 ≤ replacement.toNat)
  | char c =>
    obtain ⟨more, he, -⟩ := bytes_decode b rest
    rw [hd] at he
    change encode c = b :: more at he
    rw [Rune.toChar]
    refine Nat.le_of_not_lt fun hc => ?_
    have hlt : c.val.toNat < 0x80 := hc
    unfold encode String.utf8EncodeChar at he
    dsimp only at he
    rw [if_pos (by omega)] at he
    have hb := congrArg UInt8.toNat (List.cons.inj he).1
    rw [toNat_ofNat_lt (by omega)] at hb
    omega

theorem high_bytes_decode {b : UInt8} (h : 0x80 ≤ b.toNat) (rest : Bytes) :
    ∀ x ∈ (decode b rest).bytes, 0x80 ≤ x.toNat := by
  have hc := high_toChar_decode h rest
  obtain ⟨more, he, -⟩ := bytes_decode b rest
  cases hd : decode b rest with
  | char c =>
    rw [hd] at hc
    exact high_bytes_encode hc
  | stray y =>
    rw [hd] at he
    obtain rfl : y = b := (List.cons.inj he).1
    intro x hx
    rw [Rune.bytes, List.mem_singleton] at hx
    rw [hx]
    exact h

end Utf8
end Lexis
