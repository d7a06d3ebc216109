import Lexis.Bytes

/-!
# UTF-8

`decode` reads the first unit of a text: a character in its shortest form, or a stray byte that no
character starts at. `runes` cuts a whole text into such units, and nothing is lost:

* `bytes_decode_append`: a text is its first unit and what follows it.
* `flatMap_bytes_runes`: the bytes of the units, put together, are the text.

`valid` is the other view of the same encoding: the table of well-formed byte sequences, with the
range of the second byte given by the first.
-/
namespace Lexis

/-- One decoded unit of a text: a character, or a byte that no character starts at. -/
inductive Rune where
  | char (c : Char)
  | stray (b : UInt8)
  deriving DecidableEq, Repr

namespace Utf8

/-- What stands for a stray byte where a character is needed. -/
def replacement : Char := Char.ofNat 0xFFFD

def encode (c : Char) : Bytes := String.utf8EncodeChar c

/-- The six bits that a continuation byte carries. -/
def payload? (b : UInt8) : Option Nat :=
  if 0x80 ≤ b ∧ b < 0xC0 then some (b.toNat - 0x80) else none

/-- The number that a multi-byte sequence spells, and the least number that needs its length. -/
def spelled? (b : UInt8) (rest : Bytes) : Option (Nat × Nat) :=
  if 0xC0 ≤ b ∧ b < 0xE0 then
    match rest with
    | b1 :: _ => (payload? b1).map fun x1 => ((b.toNat - 0xC0) * 64 + x1, 0x80)
    | _ => none
  else if 0xE0 ≤ b ∧ b < 0xF0 then
    match rest with
    | b1 :: b2 :: _ =>
      match payload? b1, payload? b2 with
      | some x1, some x2 => some ((b.toNat - 0xE0) * 4096 + x1 * 64 + x2, 0x800)
      | _, _ => none
    | _ => none
  else if 0xF0 ≤ b ∧ b < 0xF8 then
    match rest with
    | b1 :: b2 :: b3 :: _ =>
      match payload? b1, payload? b2, payload? b3 with
      | some x1, some x2, some x3 =>
        some ((b.toNat - 0xF0) * 262144 + x1 * 4096 + x2 * 64 + x3, 0x10000)
      | _, _, _ => none
    | _ => none
  else none

/-- The first unit of the text `b :: rest`. A number spelled longer than it needs, a surrogate and
a number above `0x10FFFF` are no characters. -/
def decode (b : UInt8) (rest : Bytes) : Rune :=
  if b < 0x80 then .char (Char.ofNat b.toNat)
  else match spelled? b rest with
    | some (v, least) => if least ≤ v ∧ v.isValidChar then .char (Char.ofNat v) else .stray b
    | none => .stray b

end Utf8

namespace Rune

/-- The character read for a unit: a stray byte reads as U+FFFD. -/
def toChar : Rune → Char
  | char c => c
  | stray _ => Utf8.replacement

def bytes : Rune → Bytes
  | char c => Utf8.encode c
  | stray b => [b]

/-- The number of bytes of a unit, 1 to 4. -/
def width : Rune → Nat
  | char c => c.utf8Size
  | stray _ => 1

theorem width_pos (r : Rune) : 0 < r.width := by
  cases r with
  | char c => exact c.utf8Size_pos
  | stray b => exact Nat.one_pos

theorem length_bytes (r : Rune) : r.bytes.length = r.width := by
  cases r with
  | char c => exact String.length_utf8EncodeChar c
  | stray b => rfl

end Rune

namespace Utf8

/-! ## The bytes of a unit -/

theorem toNat_ofNat {n : Nat} (h : n.isValidChar) : (Char.ofNat n).val.toNat = n := by
  rw [Char.ofNat, dif_pos h]
  rfl

theorem payload?_eq_some {b : UInt8} {x : Nat} (h : payload? b = some x) :
    b.toNat = 0x80 + x ∧ x < 64 := by
  unfold payload? at h
  split at h
  · next hb =>
    simp only [UInt8.le_iff_toNat_le, UInt8.lt_iff_toNat_lt, UInt8.reduceToNat] at hb
    have := Option.some.inj h
    omega
  · cases h

theorem ofNat_eq_of_toNat {b : UInt8} {n : Nat} (h : b.toNat = n) : UInt8.ofNat n = b := by
  rw [← h, UInt8.ofNat_toNat]

theorem encode_ofNat_one {b : UInt8} (h : b.toNat < 0x80) :
    encode (Char.ofNat b.toNat) = [b] := by
  unfold encode String.utf8EncodeChar
  simp only [toNat_ofNat (show b.toNat.isValidChar by unfold Nat.isValidChar; omega)]
  rw [if_pos (by omega), UInt8.ofNat_toNat]

theorem encode_ofNat_two {b b1 : UInt8} {x1 : Nat} (hb : 0xC0 ≤ b.toNat ∧ b.toNat < 0xE0)
    (h1 : b1.toNat = 0x80 + x1 ∧ x1 < 64) (least : 0x80 ≤ (b.toNat - 0xC0) * 64 + x1) :
    encode (Char.ofNat ((b.toNat - 0xC0) * 64 + x1)) = [b, b1] := by
  unfold encode String.utf8EncodeChar
  simp only [toNat_ofNat (show ((b.toNat - 0xC0) * 64 + x1).isValidChar by
    unfold Nat.isValidChar; omega)]
  rw [if_neg (by omega), if_pos (by omega), ofNat_eq_of_toNat (b := b) (by omega),
    ofNat_eq_of_toNat (b := b1) (by omega)]

theorem encode_ofNat_three {b b1 b2 : UInt8} {x1 x2 v : Nat}
    (hb : 0xE0 ≤ b.toNat ∧ b.toNat < 0xF0) (h1 : b1.toNat = 0x80 + x1 ∧ x1 < 64)
    (h2 : b2.toNat = 0x80 + x2 ∧ x2 < 64) (hv : v = (b.toNat - 0xE0) * 4096 + x1 * 64 + x2)
    (least : 0x800 ≤ v) (valid : v.isValidChar) : encode (Char.ofNat v) = [b, b1, b2] := by
  unfold encode String.utf8EncodeChar
  simp only [toNat_ofNat valid]
  rw [if_neg (by omega), if_neg (by omega), if_pos (by omega),
    ofNat_eq_of_toNat (b := b) (by omega), ofNat_eq_of_toNat (b := b1) (by omega),
    ofNat_eq_of_toNat (b := b2) (by omega)]

theorem encode_ofNat_four {b b1 b2 b3 : UInt8} {x1 x2 x3 v : Nat}
    (hb : 0xF0 ≤ b.toNat ∧ b.toNat < 0xF8) (h1 : b1.toNat = 0x80 + x1 ∧ x1 < 64)
    (h2 : b2.toNat = 0x80 + x2 ∧ x2 < 64) (h3 : b3.toNat = 0x80 + x3 ∧ x3 < 64)
    (hv : v = (b.toNat - 0xF0) * 262144 + x1 * 4096 + x2 * 64 + x3)
    (least : 0x10000 ≤ v) (valid : v.isValidChar) : encode (Char.ofNat v) = [b, b1, b2, b3] := by
  unfold encode String.utf8EncodeChar
  simp only [toNat_ofNat valid]
  rw [if_neg (by omega), if_neg (by omega), if_neg (by omega),
    ofNat_eq_of_toNat (b := b) (by omega), ofNat_eq_of_toNat (b := b1) (by omega),
    ofNat_eq_of_toNat (b := b2) (by omega), ofNat_eq_of_toNat (b := b3) (by omega)]

/-- A multi-byte sequence is the encoding of what it spells. -/
theorem encode_spelled {b : UInt8} {rest : Bytes} {v least : Nat}
    (h : spelled? b rest = some (v, least)) (hl : least ≤ v) (valid : v.isValidChar) :
    ∃ more, encode (Char.ofNat v) = b :: more ∧ more <+: rest := by
  unfold spelled? at h
  simp only [UInt8.le_iff_toNat_le, UInt8.lt_iff_toNat_lt, UInt8.reduceToNat] at h
  split at h
  · next hb =>
    split at h
    · next b1 r =>
      obtain ⟨x1, hx1, he⟩ := Option.map_eq_some_iff.1 h
      obtain ⟨rfl, rfl⟩ := Prod.mk.inj he
      exact ⟨[b1], encode_ofNat_two hb (payload?_eq_some hx1) hl, ⟨r, rfl⟩⟩
    · cases h
  · split at h
    · next hb =>
      split at h
      · next b1 b2 r =>
        split at h
        · next x1 x2 hx1 hx2 =>
          obtain ⟨rfl, rfl⟩ := Prod.mk.inj (Option.some.inj h)
          exact ⟨[b1, b2], encode_ofNat_three hb (payload?_eq_some hx1) (payload?_eq_some hx2) rfl hl
            valid, ⟨r, rfl⟩⟩
        · cases h
      · cases h
    · split at h
      · next hb =>
        split at h
        · next b1 b2 b3 r =>
          split at h
          · next x1 x2 x3 hx1 hx2 hx3 =>
            obtain ⟨rfl, rfl⟩ := Prod.mk.inj (Option.some.inj h)
            exact ⟨[b1, b2, b3], encode_ofNat_four hb (payload?_eq_some hx1) (payload?_eq_some hx2)
              (payload?_eq_some hx3) rfl hl valid, ⟨r, rfl⟩⟩
          · cases h
        · cases h
      · cases h

/-- The bytes of the first unit stand at the start of the text. -/
theorem bytes_decode (b : UInt8) (rest : Bytes) :
    ∃ more, (decode b rest).bytes = b :: more ∧ more <+: rest := by
  unfold decode
  split
  · next h =>
    simp only [UInt8.lt_iff_toNat_lt, UInt8.reduceToNat] at h
    exact ⟨[], encode_ofNat_one h, List.nil_prefix⟩
  · split
    · next hs =>
      split
      · next hv => exact encode_spelled hs hv.1 hv.2
      · exact ⟨[], rfl, List.nil_prefix⟩
    · exact ⟨[], rfl, List.nil_prefix⟩

/-- A text is its first unit and what follows it. -/
theorem bytes_decode_append (b : UInt8) (rest : Bytes) :
    (decode b rest).bytes ++ rest.drop ((decode b rest).width - 1) = b :: rest := by
  obtain ⟨more, h, tail, rfl⟩ := bytes_decode b rest
  rw [← Rune.length_bytes, h]
  simp

/-! ## Whole texts -/

/-- The units of a text after its first `skip` bytes. -/
def runesFrom : Nat → Bytes → List Rune
  | _, [] => []
  | skip + 1, _ :: rest => runesFrom skip rest
  | 0, b :: rest =>
    let r := decode b rest
    r :: runesFrom (r.width - 1) rest

/-- The units of a text, in order. -/
def runes (s : Bytes) : List Rune := runesFrom 0 s

theorem flatMap_bytes_runesFrom (skip : Nat) (s : Bytes) :
    (runesFrom skip s).flatMap Rune.bytes = s.drop skip := by
  fun_induction runesFrom skip s with
  | case1 => simp
  | case2 skip b rest ih => simpa using ih
  | case3 b rest r ih =>
    rw [List.flatMap_cons, ih, List.drop_zero]
    exact bytes_decode_append b rest

theorem flatMap_bytes_runes (s : Bytes) : (runes s).flatMap Rune.bytes = s :=
  flatMap_bytes_runesFrom 0 s

/-- The range of the second byte of a sequence and the number of bytes after that, by lead byte. -/
structure Continuation where
  low : UInt8
  high : UInt8
  more : Nat

/-- The well-formed multi-byte sequences, row by row: shortest forms of scalar values only. -/
def continuation? (b : UInt8) : Option Continuation :=
  if 0xC2 ≤ b ∧ b ≤ 0xDF then some ⟨0x80, 0xBF, 0⟩
  else if b = 0xE0 then some ⟨0xA0, 0xBF, 1⟩
  else if b = 0xED then some ⟨0x80, 0x9F, 1⟩
  else if 0xE1 ≤ b ∧ b ≤ 0xEF then some ⟨0x80, 0xBF, 1⟩
  else if b = 0xF0 then some ⟨0x90, 0xBF, 2⟩
  else if 0xF1 ≤ b ∧ b ≤ 0xF3 then some ⟨0x80, 0xBF, 2⟩
  else if b = 0xF4 then some ⟨0x80, 0x8F, 2⟩
  else none

/-- Checks a text against the table, byte by byte; `pending` is what the open sequence still
expects. -/
def validFrom : Option Continuation → Bytes → Bool
  | none, [] => true
  | some _, [] => false
  | none, b :: rest =>
    if b < 0x80 then validFrom none rest
    else match continuation? b with
      | some c => validFrom (some c) rest
      | none => false
  | some c, b :: rest =>
    if c.low ≤ b ∧ b ≤ c.high then
      match c.more with
      | 0 => validFrom none rest
      | more + 1 => validFrom (some ⟨0x80, 0xBF, more⟩) rest
    else false

/-- Whether a text is UTF-8 throughout. -/
def valid (s : Bytes) : Bool := validFrom none s

end Utf8
end Lexis
