import Lexis.Proofs.Number.Positional
import Lexis.Proofs.Scan.Alone

/-!
# Integers

An integer has a value exactly where its digits denote a number that fits into a word. Otherwise the
first thing that goes wrong from the left decides: digits that are too large already are out of
range, whatever follows them. A number that is written in any radix, with any zeros before it, is
scanned as one literal with that value.

* `Literal.decodeInt_eq_ok_iff`, `Literal.decodeInt_eq_error`: values and failures of digits.
* `Writes.spells`, `Writes.decode`: the ways to write a number are lexemes, and what they decode to.
-/
namespace Lexis

open Grammar

variable {radix : Radix} {base k n : Nat} {ds w : Bytes} {f : Form}

/-! ## Digits of a radix -/

/-- The digits that a scan takes are those that are read. -/
theorem onByte_isDigit (h : radix.base? = some base) :
    onByte radix.isDigit = Word.isDigit base := by
  have key : ∀ b, binaryDigit b = Word.isDigit 2 b ∧ octalDigit b = Word.isDigit 8 b ∧
      digit b = Word.isDigit 10 b ∧ hexDigit b = Word.isDigit 16 b :=
    forall_byte (by decide +kernel)
  funext b
  obtain ⟨h2, h8, h10, h16⟩ := key b
  cases radix with
  | binary =>
    cases h
    rw [onByte_binary, h2]
  | octal =>
    cases h
    rw [onByte_octal, h8]
  | decimal =>
    cases h
    rw [onByte_decimal, h10]
  | hexadecimal =>
    cases h
    rw [onByte_hexadecimal, h16]
  | numbered => cases h

theorem Radix.base_bounds (h : radix.base? = some base) : 1 < base ∧ base ≤ 16 := by
  cases radix <;> cases h <;> decide

theorem Radix.base?_ofBase {base : Int} (h : base ∈ [2, 8, 10, 16]) :
    (ofBase base).base? = some base.toNat := by
  simp only [List.mem_cons, List.not_mem_nil, or_false] at h
  rcases h with rfl | rfl | rfl | rfl <;> rfl

theorem Radix.base?_ofBase_eq_none {base : Int} (h : base ∉ [2, 8, 10, 16]) :
    (ofBase base).base? = none := by
  simp only [List.mem_cons, List.not_mem_nil, or_false, not_or] at h
  rw [ofBase, dif_pos h]
  rfl

/-! ## Values and failures -/

namespace Literal

theorem decodeInt_eq_value_iff (h : radix.base? = some base) {v : Value} :
    decodeInt radix ds = (v, none) ↔
      ds ≠ [] ∧ ds.all (onByte radix.isDigit) ∧ numeral base ds < Word.limit ∧
        v = .int (.ofNat (numeral base ds)) := by
  obtain ⟨hpos, hmax⟩ := Radix.base_bounds h
  have hok : ∀ m, Word.parse base ds = .ok m ↔ _ := fun m =>
    Word.parse_eq_ok_iff hpos hmax (s := ds) (w := m)
  rw [onByte_isDigit h]
  unfold decodeInt
  rw [h]
  dsimp only
  constructor
  · intro hv
    cases hp : Word.parse base ds with
    | error e =>
      rw [hp] at hv
      cases hv
    | ok m =>
      rw [hp] at hv
      cases hv
      obtain ⟨hne, hall, hlt, rfl⟩ := (hok m).1 hp
      exact ⟨hne, hall, hlt, rfl⟩
  · rintro ⟨hne, hall, hlt, rfl⟩
    rw [(hok _).2 ⟨hne, hall, hlt, rfl⟩]

theorem decodeInt_eq_failure (h : radix.base? = some base) {v : Value} {e : Failure}
    (he : decodeInt radix ds = (v, some e)) :
    v = .absent ∧ ∃ c, e = .tagged .malformedNumber (.badInt ds radix c) ∧
      (c = .outOfRange ↔
        ∃ p, p <+: ds ∧ p.all (onByte radix.isDigit) ∧ Word.limit ≤ numeral base p) := by
  obtain ⟨hpos, hmax⟩ := Radix.base_bounds h
  have hrange := Word.parse_eq_outOfRange_iff hpos hmax (s := ds)
  rw [onByte_isDigit h]
  unfold decodeInt at he
  rw [h] at he
  dsimp only at he
  cases hp : Word.parse base ds with
  | ok m =>
    rw [hp] at he
    cases he
  | error c =>
    rw [hp] at he hrange
    cases he
    refine ⟨rfl, c, rfl, ?_⟩
    rw [← hrange, Except.error.injEq]

theorem decode_int_eq {prefixLen : Int} {lexeme : Bytes}
    (h : 0 ≤ prefixLen ∧ prefixLen ≤ lexeme.length) :
    (int radix prefixLen).decode lexeme =
      .ok (decodeInt radix (lexeme.drop prefixLen.toNat)) := by
  have hin : ¬ (prefixLen < 0 ∨ (lexeme.length : Int) < prefixLen) := by omega
  exact if_neg hin

/-- Without digits to look at, no reason goes back to a number. -/
theorem decode_int_unreadable {prefixLen : Int} {lexeme : Bytes}
    (h : ¬ ((0 ≤ prefixLen ∧ prefixLen ≤ lexeme.length) ∧ radix.base?.isSome)) :
    ∃ r, (int radix prefixLen).decode lexeme =
        .ok (.absent, some (.tagged .malformedNumber r)) ∧ r.cause? = none := by
  by_cases hlen : 0 ≤ prefixLen ∧ prefixLen ≤ lexeme.length
  · have hnone : radix.base? = none := by simpa [hlen] using h
    refine ⟨.unsupportedRadix radix, ?_, rfl⟩
    rw [decode_int_eq hlen, decodeInt, hnone]
  · have hout : prefixLen < 0 ∨ (lexeme.length : Int) < prefixLen := by omega
    exact ⟨.prefixOutOfRange prefixLen lexeme, if_pos hout, rfl⟩

end Literal

theorem Radix.isSome_base?_iff (base : Int) :
    (ofBase base).base?.isSome ↔ base ∈ [2, 8, 10, 16] := by
  by_cases h : base ∈ [2, 8, 10, 16]
  · simp only [base?_ofBase h, h, Option.isSome_some]
  · simp [base?_ofBase_eq_none h, h]

/-- An integer is read exactly: it has the value of its digits if these denote a word, and otherwise
no value, and the first problem from the left is the reason. -/
theorem decode_int (base prefixLen : Int) (lexeme : Bytes) :
    let radix := Radix.ofBase base
    let result := (Literal.int radix prefixLen).decode lexeme
    let ds := lexeme.drop prefixLen.toNat
    let readable := (0 ≤ prefixLen ∧ prefixLen ≤ lexeme.length) ∧ base ∈ [2, 8, 10, 16]
    let overflows :=
      ∃ p, p <+: ds ∧ p.all (onByte radix.isDigit) ∧ 2 ^ 64 ≤ numeral base.toNat p
    (∃ v e, result = .ok (v, e)) ∧
      (∀ v, result = .ok (v, none) ↔ readable ∧ ds ≠ [] ∧ ds.all (onByte radix.isDigit) ∧
        numeral base.toNat ds < 2 ^ 64 ∧ v = .int (.ofNat (numeral base.toNat ds))) ∧
      ∀ v e, result = .ok (v, some e) → v = .absent ∧
        ∃ reason, e = .tagged .malformedNumber reason ∧
          (¬ readable → reason.cause? = none) ∧
          (readable → overflows → reason.cause? = some (.number .outOfRange)) ∧
          (readable → ¬ overflows → reason.cause? = some (.number .malformed)) := by
  intro radix result ds readable overflows
  by_cases hr : readable
  · have hbase : radix.base? = some base.toNat := Radix.base?_ofBase hr.2
    have hresult : result = .ok (Literal.decodeInt radix ds) := Literal.decode_int_eq hr.1
    rw [hresult]
    refine ⟨⟨_, _, rfl⟩, fun v => ?_, fun v e he => ?_⟩
    · rw [Except.ok.injEq, Literal.decodeInt_eq_value_iff hbase]
      exact (and_iff_right hr).symm
    · obtain ⟨rfl, c, rfl, hc⟩ := Literal.decodeInt_eq_failure hbase (Except.ok.inj he)
      refine ⟨rfl, _, rfl, fun h => absurd hr h, fun _ ho => ?_, fun _ hno => ?_⟩
      · rw [hc.2 ho]
        rfl
      · cases c with
        | malformed => rfl
        | outOfRange => exact absurd (hc.1 rfl) hno
  · have hr' : ¬ ((0 ≤ prefixLen ∧ prefixLen ≤ lexeme.length) ∧ radix.base?.isSome) := by
      rwa [Radix.isSome_base?_iff]
    obtain ⟨r, hresult, hcause⟩ := Literal.decode_int_unreadable hr'
    have hresult : result = .ok (.absent, some (.tagged .malformedNumber r)) := hresult
    rw [hresult]
    refine ⟨⟨_, _, rfl⟩, fun v => by simp [hr], fun v e he => ?_⟩
    cases he
    exact ⟨rfl, r, rfl, fun _ => hcause, fun h => absurd h hr, fun h => absurd h hr⟩

/-- The number is too large before the byte that is no digit comes, and that byte is malformed
before the number is too large. -/
theorem decode_int_garbage :
    let ones := byte '1' :: List.replicate 16 (byte '0')
    let late := ascii "0x" ++ (ones ++ ascii "g")
    let early := ascii "0x" ++ (ascii "g" ++ ones)
    (∃ v e reason, (Literal.int (.ofBase 16) 2).decode late = .ok (v, some e) ∧ v = .absent ∧
        e = .tagged .malformedNumber reason ∧ reason.cause? = some (.number .outOfRange)) ∧
      ∃ v e reason, (Literal.int (.ofBase 16) 2).decode early = .ok (v, some e) ∧ v = .absent ∧
        e = .tagged .malformedNumber reason ∧ reason.cause? = some (.number .malformed) := by
  intro ones late early
  constructor
  · have he : (Literal.int (.ofBase 16) 2).decode late = .ok (.absent, some (.tagged
        .malformedNumber (.badInt (ones ++ ascii "g") .hexadecimal .outOfRange))) := by
      decide +kernel
    obtain ⟨hv, reason, hreason, -, hrange, -⟩ := (decode_int 16 2 late).2.2 _ _ he
    exact ⟨_, _, reason, he, hv, hreason, hrange (by decide)
      ⟨ones, ⟨ascii "g", rfl⟩, by decide +kernel, by decide +kernel⟩⟩
  · have he : (Literal.int (.ofBase 16) 2).decode early = .ok (.absent, some (.tagged
        .malformedNumber (.badInt (ascii "g" ++ ones) .hexadecimal .malformed))) := by
      decide +kernel
    obtain ⟨hv, reason, hreason, -, -, hsyntax⟩ := (decode_int 16 2 early).2.2 _ _ he
    refine ⟨_, _, reason, he, hv, hreason, hsyntax (by decide) ?_⟩
    rintro ⟨p, hp, hall, hle⟩
    rcases List.prefix_cons_iff.1 hp with rfl | ⟨q, rfl, -⟩
    · exact absurd hle (by decide)
    · cases hall

/-! ## Ways to write a number -/

/-- The text `w` writes the number `n` as a lexeme of the form: in decimal as it is, in the other
radices behind a prefix and any zeros, and in hexadecimal with small or capital letters. -/
inductive Writes (n : Nat) : Form → Bytes → Prop where
  | decimal : Writes n .decimal (decimal n)
  | binary (zeros : Nat) :
      Writes n .binary (ascii "0b" ++ (List.replicate zeros (byte '0') ++ digits 2 n))
  | octal (zeros : Nat) :
      Writes n .octal (ascii "0" ++ (List.replicate zeros (byte '0') ++ digits 8 n))
  | hexadecimal (zeros : Nat) {hs : Bytes} : hs.map FloatText.lower = digits 16 n →
      Writes n .hexadecimal (ascii "0x" ++ (List.replicate zeros (byte '0') ++ hs))

theorem digits_ne_nil (hbase : 1 < base) (n : Nat) : digits base n ≠ [] := by
  rw [digits_eq hbase]
  simp

/-- The first digit of a number above zero is not zero. -/
theorem exists_decimal_cons (h : 0 < n) :
    ∃ b u, decimal n = b :: u ∧ between '1' '9' b ∧ u.all digit := by
  have key : ∀ d < 10, digit (byte (Nat.digitChar d)) ∧
      (0 < d → between '1' '9' (byte (Nat.digitChar d))) := by decide
  induction n using Nat.strongRecOn with
  | ind n ih =>
    have hlast := key (n % 10) (Nat.mod_lt n (by decide))
    unfold decimal at ih ⊢
    rw [digits_eq (by decide)]
    by_cases hn : n < 10
    · refine ⟨_, [], by rw [if_pos hn]; rfl, ?_, rfl⟩
      exact hlast.2 (by omega)
    · obtain ⟨b, u, hu, hb, hall⟩ := ih (n / 10) (by omega) (by omega)
      refine ⟨b, u ++ [byte (Nat.digitChar (n % 10))], by rw [if_neg hn, hu]; rfl, hb, ?_⟩
      rw [List.all_append, hall, List.all_cons, hlast.1]
      rfl

theorem wholeDecimal_decimal (n : Nat) : WholeDecimal (decimal n) := by
  by_cases h : 0 < n
  · obtain ⟨b, u, hu, hb, hall⟩ := exists_decimal_cons h
    rw [hu]
    exact .nonzero hb hall
  · obtain rfl : n = 0 := by omega
    exact .zero

theorem map_lower_digits (hbase : 1 < base) (hmax : base ≤ 16) (n : Nat) :
    (digits base n).map FloatText.lower = digits base n := by
  have key : ∀ d < 16, FloatText.lower (byte (Nat.digitChar d)) = byte (Nat.digitChar d) := by
    decide
  rw [List.map_congr_left, List.map_id]
  intro b hb
  obtain ⟨d, hd, rfl⟩ := mem_digits hbase hb
  exact key d (Nat.lt_of_lt_of_le hd hmax)

/-- A run of digits that denotes the number. -/
structure Denotes (n base : Nat) (ds : Bytes) : Prop where
  ne_nil : ds ≠ []
  all : ds.all (Word.isDigit base)
  numeral_eq : numeral base ds = n

/-- Zeros before the digits of a number and capital letters among them do not matter. -/
theorem denotes_digits (hbase : 1 < base) (hmax : base ≤ 16) (zeros : Nat) {hs : Bytes}
    (h : hs.map FloatText.lower = digits base n) :
    Denotes n base (List.replicate zeros (byte '0') ++ hs) where
  ne_nil := by
    have hne := digits_ne_nil hbase n
    rw [← h] at hne
    simpa using fun _ => hne
  all := by
    have key : ∀ b, digit? (FloatText.lower b) = digit? b := forall_byte (by decide +kernel)
    have hzero : Word.isDigit base (byte '0') := by
      simp [Word.isDigit, show digit? (byte '0') = some 0 by decide]
      omega
    have hall := all_isDigit_digits hbase hmax n
    rw [← h, List.all_map] at hall
    rw [List.all_append, Bool.and_eq_true]
    refine ⟨?_, all_of_imp (fun b hb => ?_) hall⟩
    · simp [hzero]
    · simpa [Word.isDigit, key] using hb
  numeral_eq := by rw [numeral_zeros, ← numeral_lower, h, numeral_digits hbase hmax]

theorem denotes_own_digits (base zeros n : Nat) (hbase : 1 < base) (hmax : base ≤ 16) :
    Denotes n base (List.replicate zeros (byte '0') ++ digits base n) :=
  denotes_digits hbase hmax zeros (map_lower_digits hbase hmax n)

theorem Denotes.decode (h : Denotes n base (w.drop k)) (hr : radix.base? = some base)
    (hk : k ≤ w.length) :
    (n < Word.limit → (Literal.int radix k).decode w = .ok (.int (.ofNat n), none)) ∧
      (Word.limit ≤ n → ∃ r, (Literal.int radix k).decode w =
        .ok (.absent, some (.tagged .malformedNumber r)) ∧
          r.cause? = some (.number .outOfRange)) := by
  obtain ⟨hne, hall, rfl⟩ := h
  have hdecode : (Literal.int radix k).decode w = .ok (Literal.decodeInt radix (w.drop k)) :=
    Literal.decode_int_eq (by omega)
  have hvalue : ∀ v, Literal.decodeInt radix (w.drop k) = (v, none) ↔ _ := fun v =>
    Literal.decodeInt_eq_value_iff hr (v := v)
  rw [onByte_isDigit hr] at hvalue
  rw [hdecode]
  refine ⟨fun hlt => by rw [(hvalue _).2 ⟨hne, hall, hlt, rfl⟩], fun hle => ?_⟩
  obtain ⟨v, e, hd⟩ : ∃ v e, Literal.decodeInt radix (w.drop k) = (v, e) := ⟨_, _, rfl⟩
  cases e with
  | none =>
    have hlt := ((hvalue v).1 hd).2.2.1
    omega
  | some e =>
    obtain ⟨rfl, c, rfl, hc⟩ := Literal.decodeInt_eq_failure hr hd
    rw [onByte_isDigit hr] at hc
    refine ⟨_, by rw [hd], ?_⟩
    rw [hc.2 ⟨_, List.prefix_refl _, hall, hle⟩]
    rfl

namespace Writes

theorem opening_eq (h : Writes n f w) : f.opening = .number := by
  cases h <;> rfl

theorem decode (h : Writes n f w) :
    (n < Word.limit → f.literal.decode w = .ok (.int (.ofNat n), none)) ∧
      (Word.limit ≤ n → ∃ r, f.literal.decode w =
        .ok (.absent, some (.tagged .malformedNumber r)) ∧
          r.cause? = some (.number .outOfRange)) := by
  cases h with
  | decimal =>
    have hd := denotes_own_digits 10 0 n (by decide) (by decide)
    exact hd.decode (k := 0) (w := digits 10 n) rfl (Nat.zero_le _)
  | binary zeros =>
    have hd := denotes_own_digits 2 zeros n (by decide) (by decide)
    exact hd.decode (k := 2) (w := ascii "0b" ++ _) rfl (by simp [ascii])
  | octal zeros =>
    have hd := denotes_own_digits 8 (zeros + 1) n (by decide) (by decide)
    exact hd.decode (k := 0) (w := ascii "0" ++ _) rfl (Nat.zero_le _)
  | hexadecimal zeros hhs =>
    have hd := denotes_digits (by decide) (by decide) zeros hhs
    exact hd.decode (k := 2) (w := ascii "0x" ++ _) rfl (by simp [ascii])

theorem spells (h : Writes n f w) (o : Options) : Spells o f w := by
  have key : ∀ b, (Word.isDigit 2 b → binaryDigit b) ∧ (Word.isDigit 8 b → octalDigit b) ∧
      (Word.isDigit 16 b → hexDigit b) := forall_byte (by decide +kernel)
  cases h with
  | decimal => exact .decimal (wholeDecimal_decimal n)
  | binary zeros =>
    have hd := denotes_own_digits 2 zeros n (by decide) (by decide)
    exact .binary (all_of_imp (fun b => (key b).1) hd.all)
  | octal zeros =>
    have hd := denotes_own_digits 8 zeros n (by decide) (by decide)
    have hall := all_of_imp (fun b => (key b).2.1) hd.all
    obtain ⟨b, u, hu⟩ := List.exists_cons_of_ne_nil hd.ne_nil
    rw [hu, List.all_cons, Bool.and_eq_true] at hall
    rw [hu]
    exact .octal hall.1 hall.2
  | hexadecimal zeros hhs =>
    have hd := denotes_digits (by decide) (by decide) zeros hhs
    exact .hexadecimal (all_of_imp (fun b => (key b).2.2) hd.all)

end Writes

/-- A number is scanned as one literal, however it is written: with its value if that is a word, and
otherwise without one and with a report of its size. -/
theorem tokenize_int (o : Options) :
    (∀ n f w, Writes n f w →
      (n < 2 ^ 64 → tokenize w o =
        ([⟨.literal, f.literal, .int (.ofNat n), ⟨0, w.length⟩⟩, .eofOf w], [])) ∧
      (2 ^ 64 ≤ n → ∃ r, r.cause? = some (.number .outOfRange) ∧ tokenize w o =
        ([⟨.literal, f.literal, .absent, ⟨0, w.length⟩⟩, .eofOf w],
          [⟨.malformedNumber, ⟨0, w.length⟩, 1, some r⟩]))) ∧
    ∀ v : UInt64, tokenize (Value.int v).render o =
      ([⟨.literal, .int .decimal 0, .int v, ⟨0, (Value.int v).render.length⟩⟩,
        .eofOf (Value.int v).render], []) := by
  have hvalue : ∀ n f w, Writes n f w → n < 2 ^ 64 → tokenize w o =
      ([⟨.literal, f.literal, .int (.ofNat n), ⟨0, w.length⟩⟩, .eofOf w], []) := by
    intro n f w h hlt
    exact tokenize_of_value (h.spells o) h.opening_eq (h.decode.1 hlt)
  refine ⟨fun n f w h => ⟨hvalue n f w h, fun hle => ?_⟩, fun v => ?_⟩
  · obtain ⟨r, hr, hcause⟩ := h.decode.2 hle
    exact ⟨r, hcause, tokenize_of_rejected (h.spells o) h.opening_eq hr⟩
  · have h := hvalue v.toNat _ _ .decimal v.toNat_lt
    rwa [UInt64.ofNat_toNat] at h

/-- Two to the power of 64 with zeros before it is one too much, the number below it in both cases
is not. -/
theorem tokenize_int_limit :
    let fits := ascii "0x0fFfFfFfFfFfFfFfF"
    let exceeds := ascii "0b" ++ (List.replicate 3 (byte '0') ++ digits 2 (2 ^ 64))
    Writes (2 ^ 64 - 1) .hexadecimal fits ∧ Writes (2 ^ 64) .binary exceeds ∧
      tokenize fits {} = ([⟨.literal, .int .hexadecimal 2, .int 0xFFFFFFFFFFFFFFFF, ⟨0, 19⟩⟩,
        .eofOf fits], []) ∧
      ∃ r, r.cause? = some (.number .outOfRange) ∧ tokenize exceeds {} =
        ([⟨.literal, .int .binary 2, .absent, ⟨0, exceeds.length⟩⟩, .eofOf exceeds],
          [⟨.malformedNumber, ⟨0, exceeds.length⟩, 1, some r⟩]) := by
  intro fits exceeds
  have hlower : (ascii "fFfFfFfFfFfFfFfF").map FloatText.lower = digits 16 (2 ^ 64 - 1) := by
    decide +kernel
  have hfits : Writes (2 ^ 64 - 1) .hexadecimal fits := .hexadecimal 1 hlower
  have hexceeds : Writes (2 ^ 64) .binary exceeds := .binary 3
  have h := (tokenize_int {}).1
  exact ⟨hfits, hexceeds, (h _ _ _ hfits).1 (by decide), (h _ _ _ hexceeds).2 (Nat.le_refl _)⟩

end Lexis
