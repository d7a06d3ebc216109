import Lexis.Number.FloatText
import Lexis.Text.Quoted
import Lexis.Proofs.Scan.Grammar
import Lexis.Proofs.Scan.Movement

/-!
# Reading back a quoted text

`unquote?` gives back what is quoted, stray bytes included, and it accepts nothing behind the closing
quote. So a quoted text shows where it ends: no other one goes on from it.

* `ofHex?_hex`: padded hexadecimal digits are read back.
* `unquoteFrom_escapeRune`: so is each unit, whatever follows.
* `unquote?_quoteWith`: and a whole text.
* `quoteWith_append_inj`: what follows a quoted text can be told from it, however its units are
  written, as long as they are read back.
* `decimal_inj`, `signedDecimal_inj`: so are decimal numbers.
* `newline_not_mem_quote`: a quoted text stands on one line.
-/
namespace Lexis

open Grammar

/-! ## Digits -/

theorem digits_eq {base : Nat} (h : 1 < base) (n : Nat) :
    digits base n =
      (if n < base then [] else digits base (n / base)) ++ [byte (Nat.digitChar (n % base))] := by
  unfold digits
  rw [Nat.toDigits_eq_if h]
  split
  · next hn => simp [Nat.mod_eq_of_lt hn]
  · simp

theorem mem_digits {base n : Nat} {b : UInt8} (h : 1 < base) (hb : b ∈ digits base n) :
    ∃ d < base, b = byte (Nat.digitChar d) := by
  induction n using Nat.strongRecOn with
  | ind n ih =>
    rw [digits_eq h, List.mem_append, List.mem_singleton] at hb
    rcases hb with hb | rfl
    · split at hb
      · cases hb
      · exact ih (n / base) (Nat.div_lt_self (by omega) h) hb
    · exact ⟨n % base, Nat.mod_lt n (by omega), rfl⟩

theorem mem_decimal {b : UInt8} {n : Nat} (h : b ∈ decimal n) : byte '0' ≤ b ∧ b ≤ byte '9' := by
  have key : ∀ d < 10, byte '0' ≤ byte (Nat.digitChar d) ∧ byte (Nat.digitChar d) ≤ byte '9' := by
    decide
  obtain ⟨d, hd, rfl⟩ := mem_digits (by decide) h
  exact key d hd

theorem mem_signedDecimal {b : UInt8} {n : Int} (h : b ∈ signedDecimal n) :
    b = byte '-' ∨ byte '0' ≤ b ∧ b ≤ byte '9' := by
  cases n with
  | ofNat n => exact .inr (mem_decimal h)
  | negSucc n => exact (List.mem_cons.1 h).imp_right mem_decimal

theorem digit?_digitChar {d : Nat} (h : d < 16) : digit? (byte (Nat.digitChar d)) = some d := by
  revert d
  decide

/-- The digits of a number denote it. -/
theorem ofDigits_digits {base : Nat} (h : 1 < base) (hmax : base ≤ 16) (n : Nat) :
    FloatText.ofDigits base (digits base n) = n := by
  induction n using Nat.strongRecOn with
  | ind n ih =>
    have hlast := digit?_digitChar (Nat.lt_of_lt_of_le (Nat.mod_lt n (by omega)) hmax)
    rw [digits_eq h, FloatText.ofDigits, List.foldl_append]
    simp only [List.foldl_cons, List.foldl_nil, hlast, Option.getD_some]
    split
    · next hn => simp [Nat.mod_eq_of_lt hn]
    · next hn =>
      have ih := ih (n / base) (Nat.div_lt_self (by omega) h)
      rw [FloatText.ofDigits] at ih
      rw [ih, Nat.div_add_mod]

theorem decimal_inj {m n : Nat} (h : decimal m = decimal n) : m = n := by
  have hread : ∀ k, FloatText.ofDigits 10 (decimal k) = k := ofDigits_digits (by decide) (by decide)
  rw [← hread m, h, hread n]

theorem signedDecimal_inj {m n : Int} (h : signedDecimal m = signedDecimal n) : m = n := by
  have hsign : ∀ (k : Nat) (s : Bytes), decimal k ≠ byte '-' :: s := by
    intro k s hk
    have hmem := mem_decimal (b := byte '-') (n := k) (by rw [hk]; exact List.mem_cons_self)
    exact absurd hmem (by decide)
  cases m with
  | ofNat m =>
    cases n with
    | ofNat n => rw [decimal_inj h]
    | negSucc n => exact absurd h (hsign m _)
  | negSucc m =>
    cases n with
    | ofNat n => exact absurd h.symm (hsign n _)
    | negSucc n =>
      have hmn := decimal_inj (List.cons.inj h).2
      congr 1
      omega

theorem hexDigit?_digitChar {d : Nat} (h : d < 16) :
    hexDigit? (byte (Nat.digitChar d)) = some d := by
  revert d
  decide

theorem ofHex?_concat (s : Bytes) (b : UInt8) :
    ofHex? (s ++ [b]) = (ofHex? s).bind fun n => (hexDigit? b).map (16 * n + ·) := by
  unfold ofHex?
  rw [List.foldlM_append]
  simp

theorem ofHex?_digits (n : Nat) : ofHex? (digits 16 n) = some n := by
  induction n using Nat.strongRecOn with
  | ind n ih =>
    have hlast := hexDigit?_digitChar (Nat.mod_lt n (by decide : 16 > 0))
    rw [digits_eq (by decide), ofHex?_concat, hlast]
    split
    · next hn => simp [ofHex?, Nat.mod_eq_of_lt hn]
    · next hn =>
      rw [ih (n / 16) (by omega)]
      simp only [Option.bind_some, Option.map_some, Option.some.injEq]
      omega

theorem ofHex?_zeros (k : Nat) (s : Bytes) :
    ofHex? (List.replicate k (byte '0') ++ s) = ofHex? s := by
  induction k with
  | zero => rfl
  | succ k ih => exact ih

theorem ofHex?_hex (width n : Nat) : ofHex? (hex width n) = some n :=
  (ofHex?_zeros _ _).trans (ofHex?_digits n)

theorem mem_hex {width n : Nat} {b : UInt8} (h : b ∈ hex width n) :
    ∃ d < 16, b = byte (Nat.digitChar d) := by
  rcases List.mem_append.1 h with h | h
  · exact ⟨0, by decide, List.eq_of_mem_replicate h⟩
  · exact mem_digits (by decide) h

theorem length_hex {width n : Nat} (hw : 0 < width) (h : n < Nat.pow 16 width) :
    (hex width n).length = width := by
  have hlen : (digits 16 n).length ≤ width := by
    rw [digits, List.length_map]
    exact (Nat.length_toDigits_le_iff (by decide) hw).2 h
  simp only [hex, List.length_append, List.length_replicate]
  omega

/-! ## Units -/

theorem unquoteFrom_eq_drop (n : Nat) (u : Bytes) : unquoteFrom n u = unquoteFrom 0 (u.drop n) := by
  induction n generalizing u with
  | zero => rfl
  | succ n ih =>
    cases u with
    | nil => rfl
    | cons b u => exact ih u

/-- An escape that can be read is read, whatever follows. -/
theorem unquoteFrom_escape {e bs u : Bytes}
    (h : readEscape? (e ++ u) = some (bs, e.length)) :
    unquoteFrom 0 (byte '\\' :: e ++ u) = (unquoteFrom 0 u).map (bs ++ ·) := by
  rw [List.cons_append, unquoteFrom, if_neg (by decide), if_neg (by decide), if_pos rfl, h]
  have hdrop := unquoteFrom_eq_drop e.length (e ++ u)
  rw [List.drop_left] at hdrop
  simp only [Option.bind_eq_bind, Option.bind_some, hdrop]
  cases unquoteFrom 0 u <;> rfl

/-- Escapes of fixed width: the digits are what is read, and they are there. -/
theorem take_hex (width : Nat) {n : Nat} (hw : 0 < width) (h : n < Nat.pow 16 width) (u : Bytes) :
    (hex width n ++ u).take width = hex width n ∧ ¬ (hex width n ++ u).length < width := by
  have hlen := length_hex hw h
  refine ⟨List.take_left' hlen, ?_⟩
  rw [List.length_append]
  omega

theorem readEscape?_byte {n : Nat} (h : n < 256) (u : Bytes) :
    readEscape? (byte 'x' :: hex 2 n ++ u) = some ([n.toUInt8], (byte 'x' :: hex 2 n).length) := by
  obtain ⟨htake, hlong⟩ := take_hex 2 (by decide) h u
  rw [List.length_cons, length_hex (by decide) h]
  unfold readEscape?
  dsimp only [List.cons_append]
  rw [if_pos rfl, if_neg hlong, htake, ofHex?_hex]
  rfl

theorem charOfNat?_toNat (c : Char) : charOfNat? c.toNat = some c := by
  have hvalid : c.toNat.isValidChar := c.valid
  rw [charOfNat?, if_pos hvalid, Char.ofNat_toNat]

theorem readEscape?_short {c : Char} (h : c.toNat < 0x10000) (u : Bytes) :
    readEscape? (byte 'u' :: hex 4 c.toNat ++ u) =
      some (Utf8.encode c, (byte 'u' :: hex 4 c.toNat).length) := by
  obtain ⟨htake, hlong⟩ := take_hex 4 (by decide) h u
  rw [List.length_cons, length_hex (by decide) h]
  unfold readEscape?
  dsimp only [List.cons_append]
  rw [if_neg (by decide), if_pos rfl, if_neg hlong, htake, ofHex?_hex, Option.bind_some,
    charOfNat?_toNat]
  rfl

theorem readEscape?_long (c : Char) (u : Bytes) :
    readEscape? (byte 'U' :: hex 8 c.toNat ++ u) =
      some (Utf8.encode c, (byte 'U' :: hex 8 c.toNat).length) := by
  have hmax : c.toNat < Nat.pow 16 8 := Nat.lt_trans (Utf8.toNat_val_lt c) (by decide)
  obtain ⟨htake, hlong⟩ := take_hex 8 (by decide) hmax u
  rw [List.length_cons, length_hex (by decide) hmax]
  unfold readEscape?
  dsimp only [List.cons_append]
  rw [if_neg (by decide), if_neg (by decide), if_pos rfl, if_neg hlong, htake, ofHex?_hex,
    Option.bind_some, charOfNat?_toNat]
  rfl

theorem readEscape?_letter {l v : UInt8} (h : escapeLetter? l = some v) (u : Bytes) :
    readEscape? (l :: u) = some ([v], 1) := by
  have key : ∀ l, (escapeLetter? l).isSome → l ≠ byte 'x' ∧ l ≠ byte 'u' ∧ l ≠ byte 'U' ∧
      ¬ (byte '0' ≤ l ∧ l ≤ byte '7') := forall_byte (by decide +kernel)
  obtain ⟨hx, hu, hU, hoct⟩ := key l (by rw [h]; rfl)
  unfold readEscape?
  dsimp only
  rw [if_neg hx, if_neg hu, if_neg hU, if_neg hoct, h]
  rfl

/-- A character with a letter of its own is read back from it. -/
theorem unquoteFrom_letter {c l : Char} (h : escapeLetter? (byte l) = some (byte c))
    (hc : Utf8.encode c = [byte c]) (u : Bytes) :
    unquoteFrom 0 ([byte '\\', byte l] ++ u) = (unquoteFrom 0 u).map (Utf8.encode c ++ ·) := by
  rw [hc]
  exact unquoteFrom_escape (e := [byte l]) (readEscape?_letter h u)

/-- A control character with a letter of its own. -/
theorem controlLetter?_eq_some {c l : Char} (h : controlLetter? c = some l) :
    escapeLetter? (byte l) = some (byte c) ∧ Utf8.encode c = [byte c] ∧ byte l ≠ byte '\n' := by
  have hc : Char.ofNat c.toNat = c := Char.ofNat_toNat c
  unfold controlLetter? at h
  split at h
  all_goals try cases h
  all_goals
    next hn =>
      rw [hn] at hc
      subst hc
      decide

/-- A character below `0x80` is its byte. -/
theorem encode_eq_byte {c : Char} (h : c.toNat < 0x80) : Utf8.encode c = [byte c] := by
  have hb : (byte c).toNat < 0x80 := by rwa [toNat_byte h]
  rw [← Utf8.encode_ofNat_one hb, ofNat_toNat_byte h]

/-- A byte below `0x80` is in the encoding of its own character only. -/
theorem eq_ofNat_of_mem_encode {b : UInt8} {c : Char} (hb : b.toNat < 0x80)
    (h : b ∈ Utf8.encode c) : c = Char.ofNat b.toNat := by
  by_cases hc : c.toNat < 0x80
  · rw [encode_eq_byte hc, List.mem_singleton] at h
    rw [h, ofNat_toNat_byte hc]
  · have hhigh := Utf8.high_bytes_encode (Nat.le_of_not_lt hc) b h
    omega

theorem lead_ne_byte {c x : Char} {b : UInt8} {more : Bytes} (he : Utf8.encode c = b :: more)
    (hx : x.toNat < 0x80) (hc : c ≠ x) : b ≠ byte x := by
  rintro rfl
  have hmem : byte x ∈ Utf8.encode c := by
    rw [he]
    exact List.mem_cons_self
  apply hc
  rw [eq_ofNat_of_mem_encode (by rwa [toNat_byte hx]) hmem, ofNat_toNat_byte hx]

theorem length_more_encode {c : Char} {b : UInt8} {more : Bytes} (he : Utf8.encode c = b :: more) :
    (Rune.char c).width - 1 = more.length := by
  have hlen := Rune.length_bytes (.char c)
  rw [Rune.bytes, he, List.length_cons] at hlen
  omega

/-- A character that is shown as it is reads as itself. -/
theorem unquoteFrom_encode {c : Char} (hq : c ≠ '"') (hs : c ≠ '\\') (hn : c ≠ '\n') (u : Bytes) :
    unquoteFrom 0 (Utf8.encode c ++ u) = (unquoteFrom 0 u).map (Utf8.encode c ++ ·) := by
  obtain ⟨b, more, he, hd⟩ := Utf8.decode_encode_append c
  have hdrop := unquoteFrom_eq_drop more.length (more ++ u)
  rw [List.drop_left] at hdrop
  rw [he, List.cons_append, unquoteFrom, if_neg (lead_ne_byte he (by decide) hq),
    if_neg (lead_ne_byte he (by decide) hn), if_neg (lead_ne_byte he (by decide) hs)]
  dsimp only
  rw [hd, length_more_encode he, hdrop, Rune.toChar, he]
  cases unquoteFrom 0 u <;> rfl

theorem unquoteFrom_escapeChar (c : Char) (u : Bytes) :
    unquoteFrom 0 (escapeChar '"' c ++ u) = (unquoteFrom 0 u).map (Utf8.encode c ++ ·) := by
  unfold escapeChar
  split
  · next hc =>
    have hletter : escapeLetter? (byte c) = some (byte c) ∧ Utf8.encode c = [byte c] := by
      rcases hc with rfl | rfl <;> decide
    exact unquoteFrom_letter hletter.1 hletter.2 u
  · next hc =>
    rw [not_or] at hc
    split
    · next hp =>
      refine unquoteFrom_encode hc.1 hc.2 ?_ u
      rintro rfl
      exact absurd hp (by decide)
    · split
      · next l hl =>
        obtain ⟨hletter, henc, -⟩ := controlLetter?_eq_some hl
        exact unquoteFrom_letter hletter henc u
      · split
        · next hlow =>
          have hlow : c.toNat < 0x80 := by omega
          rw [encode_eq_byte hlow]
          exact unquoteFrom_escape (e := byte 'x' :: hex 2 c.toNat)
            (readEscape?_byte (by omega) u)
        · split
          · next hshort =>
            exact unquoteFrom_escape (e := byte 'u' :: hex 4 c.toNat) (readEscape?_short hshort u)
          · exact unquoteFrom_escape (e := byte 'U' :: hex 8 c.toNat) (readEscape?_long c u)

theorem unquoteFrom_escapeRune (r : Rune) (u : Bytes) :
    unquoteFrom 0 (escapeRune r ++ u) = (unquoteFrom 0 u).map (r.bytes ++ ·) := by
  cases r with
  | char c => exact unquoteFrom_escapeChar c u
  | stray b =>
    have h := readEscape?_byte b.toNat_lt u
    have hb : b.toNat.toUInt8 = b := UInt8.ofNat_toNat
    rw [hb] at h
    exact unquoteFrom_escape (e := byte 'x' :: hex 2 b.toNat) h

/-! ## Whole texts -/

/-- A text between double quotes, each unit written by `escape`. -/
def quoteWith (escape : Rune → Bytes) (s : Bytes) : Bytes :=
  byte '"' :: (Utf8.runes s).flatMap escape ++ [byte '"']

/-- What `escape` writes for a unit is read back, whatever follows. -/
def Undone (escape : Rune → Bytes) (r : Rune) : Prop :=
  ∀ u, unquoteFrom 0 (escape r ++ u) = (unquoteFrom 0 u).map (r.bytes ++ ·)

section QuoteWith

variable {escape : Rune → Bytes} {s t u v : Bytes}

theorem unquoteFrom_escaped {rs : List Rune} (h : ∀ r ∈ rs, Undone escape r) (u : Bytes) :
    unquoteFrom 0 (rs.flatMap escape ++ u) =
      (unquoteFrom 0 u).map (rs.flatMap Rune.bytes ++ ·) := by
  induction rs with
  | nil => simp
  | cons r rs ih =>
    have ih := ih fun r' hr' => h r' (List.mem_cons_of_mem r hr')
    rw [List.flatMap_cons, List.append_assoc, h r List.mem_cons_self, ih, Option.map_map]
    congr 1
    funext v
    simp

/-- A quoted text is read back, if nothing follows it. -/
theorem unquote?_quoteWith_append (h : ∀ r ∈ Utf8.runes s, Undone escape r) (u : Bytes) :
    unquote? (quoteWith escape s ++ u) = if u = [] then some s else none := by
  have hclose : unquoteFrom 0 ([byte '"'] ++ u) = if u = [] then some [] else none := by
    simp [unquoteFrom]
  have hbody := unquoteFrom_escaped h ([byte '"'] ++ u)
  rw [hclose, Utf8.flatMap_bytes_runes] at hbody
  unfold quoteWith unquote?
  rw [List.cons_append, List.cons_append, List.append_assoc]
  dsimp only
  rw [if_pos rfl, hbody]
  split <;> simp

theorem unquote?_quoteWith (h : ∀ r ∈ Utf8.runes s, Undone escape r) :
    unquote? (quoteWith escape s) = some s := by
  have hread := unquote?_quoteWith_append h []
  rwa [List.append_nil, if_pos rfl] at hread

/-- A quoted text shows where it ends. -/
theorem quoteWith_append_inj (hs : ∀ r ∈ Utf8.runes s, Undone escape r)
    (ht : ∀ r ∈ Utf8.runes t, Undone escape r)
    (h : quoteWith escape s ++ u = quoteWith escape t ++ v) : s = t ∧ u = v := by
  have shorter : ∀ {s t w : Bytes}, (∀ r ∈ Utf8.runes s, Undone escape r) →
      (∀ r ∈ Utf8.runes t, Undone escape r) → quoteWith escape t = quoteWith escape s ++ w →
      w = [] := by
    intro s t w hs ht hw
    have hread := unquote?_quoteWith ht
    rw [hw, unquote?_quoteWith_append hs] at hread
    split at hread
    · assumption
    · cases hread
  have heq : quoteWith escape s = quoteWith escape t := by
    rcases List.append_eq_append_iff.1 h with ⟨w, hw, -⟩ | ⟨w, hw, -⟩
    · rw [hw, shorter hs ht hw, List.append_nil]
    · rw [hw, shorter ht hs hw, List.append_nil]
  have hread := unquote?_quoteWith hs
  rw [heq, unquote?_quoteWith ht] at hread
  rw [heq] at h
  exact ⟨(Option.some.inj hread).symm, List.append_cancel_left h⟩

end QuoteWith

theorem quote_append_inj {s t u v : Bytes} (h : quote s ++ u = quote t ++ v) : s = t ∧ u = v :=
  quoteWith_append_inj (fun r _ => unquoteFrom_escapeRune r) (fun r _ => unquoteFrom_escapeRune r) h

/-! ## One line -/

theorem newline_not_mem_hex (width n : Nat) : byte '\n' ∉ hex width n := by
  have key : ∀ d < 16, byte '\n' ≠ byte (Nat.digitChar d) := by decide
  intro h
  obtain ⟨d, hd, heq⟩ := mem_hex h
  exact key d hd heq

theorem newline_not_mem_encode {c : Char} (h : c ≠ '\n') : byte '\n' ∉ Utf8.encode c :=
  fun hmem => h (eq_ofNat_of_mem_encode (by decide) hmem)

theorem newline_not_mem_escapeRune (r : Rune) : byte '\n' ∉ escapeRune r := by
  have hx : byte '\n' ∉ ascii "\\x" ∧ byte '\n' ∉ ascii "\\u" ∧ byte '\n' ∉ ascii "\\U" := by decide
  cases r with
  | stray b => simp [escapeRune, hx, newline_not_mem_hex]
  | char c =>
    unfold escapeRune escapeChar
    dsimp only
    split
    · next hc => rcases hc with rfl | rfl <;> decide
    · split
      · next hp =>
        apply newline_not_mem_encode
        rintro rfl
        exact absurd hp (by decide)
      · split
        · next l hl =>
          have hletter := (controlLetter?_eq_some hl).2.2
          simp [hletter.symm, show byte '\n' ≠ byte '\\' by decide]
        · split
          · simp [hx, newline_not_mem_hex]
          · split <;> simp [hx, newline_not_mem_hex]

/-- A quoted text stands on one line. -/
theorem newline_not_mem_quote (s : Bytes) : byte '\n' ∉ quote s := by
  have hmark : byte '\n' ≠ byte '"' := by decide
  simp [quote, hmark, newline_not_mem_escapeRune]

end Lexis
