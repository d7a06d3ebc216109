import Lexis.Proofs.Text.Validity

/-!
# The table and the decoder agree

`valid` follows a table of byte ranges, `decode` computes a number and then looks whether it is a
character in its shortest form. Both accept the same texts: the encodings of characters, one behind
another, and nothing else. Overlong forms, surrogates, numbers above `0x10FFFF` and cut sequences
are refused by both.

* `valid_encode_append`: an encoding at the front does not matter to the table.
* `exists_encode_of_valid`: what the table accepts starts with an encoding.
* `decode_of_valid`: so the decoder never meets a stray byte in it.
* `valid_iff_exists_chars`: the valid texts are the encoded ones.
-/
namespace Lexis
namespace Utf8

/-! ## The table -/

/-- The least second byte, by lead byte: what is below it is overlong. -/
def lowOf (b : UInt8) : UInt8 := if b = 0xE0 then 0xA0 else if b = 0xF0 then 0x90 else 0x80

/-- The greatest second byte, by lead byte: above it are surrogates and numbers that are too large. -/
def highOf (b : UInt8) : UInt8 := if b = 0xED then 0x9F else if b = 0xF4 then 0x8F else 0xBF

theorem lowOf_le_iff {b : UInt8} {n : Nat} : (lowOf b).toNat ≤ n ↔
    0x80 ≤ n ∧ (b.toNat = 0xE0 → 0xA0 ≤ n) ∧ (b.toNat = 0xF0 → 0x90 ≤ n) := by
  simp only [lowOf, apply_ite UInt8.toNat, ← UInt8.toNat_inj, UInt8.reduceToNat]
  grind

theorem le_highOf_iff {b : UInt8} {n : Nat} : n ≤ (highOf b).toNat ↔
    n ≤ 0xBF ∧ (b.toNat = 0xED → n ≤ 0x9F) ∧ (b.toNat = 0xF4 → n ≤ 0x8F) := by
  simp only [highOf, apply_ite UInt8.toNat, ← UInt8.toNat_inj, UInt8.reduceToNat]
  grind

/-- The rows of the table as one. -/
theorem continuation?_eq (b : UInt8) : continuation? b =
    if 0xC2 ≤ b.toNat ∧ b.toNat ≤ 0xF4 then some ⟨lowOf b, highOf b, moreOf b⟩ else none := by
  unfold continuation? lowOf highOf moreOf
  simp only [UInt8.le_iff_toNat_le, UInt8.reduceToNat, ← UInt8.toNat_inj]
  grind

/-- What is expected behind a byte that `more` others of the same sequence follow. -/
def pendingOf : Nat → Option Continuation
  | 0 => none
  | more + 1 => some ⟨0x80, 0xBF, more⟩

theorem valid_cons_ascii {b : UInt8} (h : b.toNat < 0x80) (rest : Bytes) :
    valid (b :: rest) = valid rest := by
  rw [valid, validFrom, if_pos (by simpa [UInt8.lt_iff_toNat_lt] using h), valid]

theorem validFrom_cons {k : Continuation} {b : UInt8} {rest : Bytes} :
    validFrom (some k) (b :: rest) = true ↔ (k.low.toNat ≤ b.toNat ∧ b.toNat ≤ k.high.toNat) ∧
      validFrom (pendingOf k.more) rest = true := by
  rw [validFrom]
  simp only [UInt8.le_iff_toNat_le]
  split
  · next h =>
    simp only [h, and_self, true_and]
    cases k.more <;> rfl
  · next h => simp [h]

/-- The first two bytes of a sequence. -/
theorem valid_lead {b b1 : UInt8} {rest : Bytes} (h : 0x80 ≤ b.toNat) :
    valid (b :: b1 :: rest) = true ↔ (0xC2 ≤ b.toNat ∧ b.toNat ≤ 0xF4) ∧
      ((lowOf b).toNat ≤ b1.toNat ∧ b1.toNat ≤ (highOf b).toNat) ∧
      validFrom (pendingOf (moreOf b)) rest = true := by
  rw [valid, validFrom, if_neg (by simpa [UInt8.lt_iff_toNat_lt] using h), continuation?_eq]
  by_cases hb : 0xC2 ≤ b.toNat ∧ b.toNat ≤ 0xF4
  · simp [hb, validFrom_cons]
  · simp [hb]

/-- The bytes behind the second one. -/
theorem validFrom_pendingOf {more : Nat} {b : UInt8} {rest : Bytes} :
    validFrom (pendingOf (more + 1)) (b :: rest) = true ↔ (0x80 ≤ b.toNat ∧ b.toNat ≤ 0xBF) ∧
      validFrom (pendingOf more) rest = true :=
  validFrom_cons

theorem not_valid_lead {b : UInt8} (h : 0x80 ≤ b.toNat) : valid [b] = false := by
  rw [valid, validFrom, if_neg (by simpa [UInt8.lt_iff_toNat_lt] using h)]
  split <;> rfl

/-! ## What the table accepts -/

/-- An encoding at the front does not matter to the table. -/
theorem valid_encode_append (c : Char) (t : Bytes) : valid (encode c ++ t) = valid t := by
  have hv : c.val.toNat.isValidChar := c.valid
  have hmax := toNat_val_lt c
  unfold Nat.isValidChar at hv
  unfold encode String.utf8EncodeChar
  dsimp only
  generalize c.val.toNat = v at *
  split
  · have hn := toNat_ofNat_lt (show v < 256 by omega)
    exact valid_cons_ascii (by omega) t
  · have h1 := toNat_ofNat_lt (show v % 0x40 + 0x80 < 256 by omega)
    have h2 := toNat_ofNat_lt (show v / 64 % 0x40 + 0x80 < 256 by omega)
    have h3 := toNat_ofNat_lt (show v / 4096 % 0x40 + 0x80 < 256 by omega)
    rw [Bool.eq_iff_iff]
    split
    · have hn := toNat_ofNat_lt (show v / 64 % 0x20 + 0xC0 < 256 by omega)
      dsimp only [List.cons_append, List.nil_append]
      rw [valid_lead (by omega), lowOf_le_iff, le_highOf_iff, moreOf, if_pos (by omega),
        and_iff_right (by omega), and_iff_right (by omega)]
      rfl
    · split
      · have hn := toNat_ofNat_lt (show v / 4096 % 0x10 + 0xE0 < 256 by omega)
        dsimp only [List.cons_append, List.nil_append]
        rw [valid_lead (by omega), lowOf_le_iff, le_highOf_iff, moreOf, if_neg (by omega),
          if_pos (by omega), validFrom_pendingOf, and_iff_right (by omega),
          and_iff_right (by omega), and_iff_right (by omega)]
        rfl
      · have hn := toNat_ofNat_lt (show v / 262144 % 0x08 + 0xF0 < 256 by omega)
        dsimp only [List.cons_append, List.nil_append]
        rw [valid_lead (by omega), lowOf_le_iff, le_highOf_iff, moreOf, if_neg (by omega),
          if_neg (by omega), validFrom_pendingOf, validFrom_pendingOf, and_iff_right (by omega),
          and_iff_right (by omega), and_iff_right (by omega), and_iff_right (by omega)]
        rfl

theorem exists_cons_of_validFrom {more : Nat} {s : Bytes} (h : validFrom (pendingOf (more + 1)) s) :
    ∃ b rest, s = b :: rest ∧ (0x80 ≤ b.toNat ∧ b.toNat ≤ 0xBF) ∧
      validFrom (pendingOf more) rest := by
  cases s with
  | nil => cases h
  | cons b rest => exact ⟨b, rest, rfl, validFrom_pendingOf.1 h⟩

/-- A valid text starts with an encoding, unless it is empty. -/
theorem exists_encode_of_valid {b : UInt8} {rest : Bytes} (h : valid (b :: rest)) :
    ∃ c t, b :: rest = encode c ++ t := by
  by_cases hb : b.toNat < 0x80
  · exact ⟨Char.ofNat b.toNat, rest, by rw [encode_ofNat_one hb]; rfl⟩
  · have hb : 0x80 ≤ b.toNat := Nat.le_of_not_lt hb
    cases rest with
    | nil =>
      rw [not_valid_lead hb] at h
      cases h
    | cons b1 rest =>
      obtain ⟨hlead, hsecond, hmore⟩ := (valid_lead hb).1 h
      rw [lowOf_le_iff, le_highOf_iff] at hsecond
      have h1 : b1.toNat = 0x80 + (b1.toNat - 0x80) ∧ b1.toNat - 0x80 < 64 := by omega
      unfold moreOf at hmore
      split at hmore
      · refine ⟨Char.ofNat ((b.toNat - 0xC0) * 64 + (b1.toNat - 0x80)), rest, ?_⟩
        rw [encode_ofNat_two (by omega) h1 (by omega)]
        rfl
      · split at hmore
        · obtain ⟨b2, rest, rfl, hb2, -⟩ := exists_cons_of_validFrom hmore
          have h2 : b2.toNat = 0x80 + (b2.toNat - 0x80) ∧ b2.toNat - 0x80 < 64 := by omega
          refine ⟨_, rest, (congrArg (· ++ rest)
            (encode_ofNat_three (by omega) h1 h2 rfl (by omega) ?_)).symm⟩
          unfold Nat.isValidChar
          omega
        · obtain ⟨b2, rest, rfl, hb2, hmore⟩ := exists_cons_of_validFrom hmore
          obtain ⟨b3, rest, rfl, hb3, -⟩ := exists_cons_of_validFrom hmore
          have h2 : b2.toNat = 0x80 + (b2.toNat - 0x80) ∧ b2.toNat - 0x80 < 64 := by omega
          have h3 : b3.toNat = 0x80 + (b3.toNat - 0x80) ∧ b3.toNat - 0x80 < 64 := by omega
          refine ⟨_, rest, (congrArg (· ++ rest)
            (encode_ofNat_four (by omega) h1 h2 h3 rfl (by omega) ?_)).symm⟩
          unfold Nat.isValidChar
          omega

/-! ## Decoding a valid text -/

/-- In a valid text the decoder finds a character, and what follows it is valid. -/
theorem decode_of_valid {b : UInt8} {rest : Bytes} (h : valid (b :: rest)) :
    ∃ c, decode b rest = .char c ∧ valid (rest.drop ((decode b rest).width - 1)) := by
  obtain ⟨c, t, ht⟩ := exists_encode_of_valid h
  have hd : decode b rest = .char c := decode_eq_of_prefix ⟨t, ht.symm⟩
  refine ⟨c, hd, ?_⟩
  rw [← bytes_decode_append, hd, Rune.bytes, valid_encode_append] at h
  rw [hd]
  exact h

theorem runesFrom_eq_drop (n : Nat) (s : Bytes) : runesFrom n s = runes (s.drop n) := by
  induction n generalizing s with
  | zero => rfl
  | succ n ih =>
    cases s with
    | nil => rfl
    | cons b s => exact ih s

theorem runes_cons (b : UInt8) (rest : Bytes) :
    runes (b :: rest) = decode b rest :: runes (rest.drop ((decode b rest).width - 1)) := by
  rw [← runesFrom_eq_drop]
  rfl

/-- The units of a valid text are characters. -/
theorem exists_runes_of_valid {s : Bytes} (h : valid s) :
    ∃ cs : List Char, runes s = cs.map .char := by
  induction hn : s.length using Nat.strongRecOn generalizing s with
  | ind n ih =>
    cases s with
    | nil => exact ⟨[], rfl⟩
    | cons b rest =>
      obtain ⟨c, hd, htail⟩ := decode_of_valid h
      have hlt : (rest.drop ((decode b rest).width - 1)).length < n := by
        rw [← hn, List.length_drop, List.length_cons]
        omega
      obtain ⟨cs, hcs⟩ := ih _ hlt htail rfl
      exact ⟨c :: cs, by rw [runes_cons, hcs, hd, List.map_cons]⟩

/-- The valid texts are the encodings of characters, one behind another. -/
theorem valid_iff_exists_chars {s : Bytes} :
    valid s ↔ ∃ cs : List Char, s = cs.flatMap encode := by
  constructor
  · intro h
    obtain ⟨cs, hcs⟩ := exists_runes_of_valid h
    refine ⟨cs, ?_⟩
    rw [← flatMap_bytes_runes s, hcs, List.flatMap_map]
    rfl
  · rintro ⟨cs, rfl⟩
    induction cs with
    | nil => rfl
    | cons c cs ih => rwa [List.flatMap_cons, valid_encode_append]

/-- A valid text at the front does not matter to the table. -/
theorem valid_append_eq {s : Bytes} (hs : valid s) (t : Bytes) : valid (s ++ t) = valid t := by
  obtain ⟨cs, rfl⟩ := valid_iff_exists_chars.1 hs
  clear hs
  induction cs with
  | nil => rfl
  | cons c cs ih => rw [List.flatMap_cons, List.append_assoc, valid_encode_append, ih]

theorem valid_append {s t : Bytes} (hs : valid s) (ht : valid t) : valid (s ++ t) :=
  (valid_append_eq hs t).trans ht

/-- A character whose encoding ends with a byte below `0x80` is that byte. -/
theorem encode_eq_singleton {c : Char} {init : Bytes} {b : UInt8} (h : encode c = init ++ [b])
    (hb : b.toNat < 0x80) : init = [] := by
  by_cases hc : 0x80 ≤ c.toNat
  · have := high_bytes_encode hc b (by simp [h])
    omega
  · have hlow : c.val.toNat ≤ 0x7F := Nat.le_of_lt_succ (Nat.lt_of_not_le hc)
    unfold encode String.utf8EncodeChar at h
    dsimp only at h
    rw [if_pos hlow] at h
    cases init with
    | nil => rfl
    | cons x init => simp at h

/-- A last byte below `0x80` is a character by itself. -/
theorem valid_of_concat_ascii {s : Bytes} {b : UInt8} (hb : b.toNat < 0x80)
    (h : valid (s ++ [b])) : valid s := by
  obtain ⟨cs, hcs⟩ := valid_iff_exists_chars.1 h
  rcases List.eq_nil_or_concat cs with rfl | ⟨ds, c, rfl⟩
  · simp at hcs
  · rw [List.concat_eq_append, List.flatMap_append, List.flatMap_singleton] at hcs
    rcases List.eq_nil_or_concat (encode c) with hnil | ⟨init, x, hx⟩
    · obtain ⟨y, more, he, -⟩ := decode_encode_append c
      rw [he] at hnil
      cases hnil
    · rw [List.concat_eq_append] at hx
      rw [hx, ← List.append_assoc] at hcs
      obtain ⟨rfl, hlast⟩ := List.append_inj' hcs rfl
      obtain rfl : b = x := (List.cons.inj hlast).1
      rw [encode_eq_singleton hx hb, List.append_nil]
      exact valid_iff_exists_chars.2 ⟨ds, rfl⟩

end Utf8
end Lexis
