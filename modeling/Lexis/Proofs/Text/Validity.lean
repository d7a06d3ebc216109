import Lexis.Proofs.Text.Encoding

/-!
# Valid texts end with whole characters

`Utf8.valid` reads a text against the table of well-formed sequences. A lead byte never fits where a
sequence is still open, and once it is taken the table asks for as many bytes as the encoding has
(`lead_encode`). So a text that stops inside an encoding is not valid, whatever stands before.

* `eq_nil_of_valid_append`: a valid text has no cut encoding at its end.
-/
namespace Lexis
namespace Utf8

/-- The number of bytes behind the second one, by lead byte. -/
def moreOf (b : UInt8) : Nat := if b.toNat < 0xE0 then 0 else if b.toNat < 0xF0 then 1 else 2

theorem continuation?_eq_some {b : UInt8} {k : Continuation} (h : continuation? b = some k) :
    k.high.toNat ≤ 0xBF ∧ k.more = moreOf b := by
  unfold continuation? at h
  simp only [UInt8.le_iff_toNat_le, UInt8.reduceToNat, ← UInt8.toNat_inj] at h
  repeat' split at h
  all_goals cases h
  all_goals exact ⟨by decide, by grind [moreOf]⟩

/-- An encoding of more than one byte starts with the lead byte for its length. -/
theorem lead_encode {c : Char} {b : UInt8} {more : Bytes} (h : encode c = b :: more)
    (hmore : more ≠ []) : 0xC0 ≤ b.toNat ∧ more.length = moreOf b + 1 := by
  have hmax := toNat_val_lt c
  unfold encode String.utf8EncodeChar at h
  dsimp only at h
  generalize c.val.toNat = v at *
  split at h
  · cases h
    exact absurd rfl hmore
  · split at h
    · have hn := toNat_ofNat_lt (show v / 64 % 0x20 + 0xC0 < 256 by omega)
      cases h
      refine ⟨by omega, ?_⟩
      rw [moreOf, if_pos (by omega)]
      rfl
    · split at h
      · have hn := toNat_ofNat_lt (show v / 4096 % 0x10 + 0xE0 < 256 by omega)
        cases h
        refine ⟨by omega, ?_⟩
        rw [moreOf, if_neg (by omega), if_pos (by omega)]
        rfl
      · have hn := toNat_ofNat_lt (show v / 262144 % 0x08 + 0xF0 < 256 by omega)
        cases h
        refine ⟨by omega, ?_⟩
        rw [moreOf, if_neg (by omega), if_neg (by omega)]
        rfl

/-- An open sequence is valid only if all its bytes are still to come. -/
theorem more_lt_of_validFrom {k : Continuation} {s : Bytes} (h : validFrom (some k) s) :
    k.more < s.length := by
  induction s generalizing k with
  | nil => cases h
  | cons b rest ih =>
    rw [validFrom] at h
    split at h
    · split at h
      · next hk => simp [hk]
      · next more hk =>
        have hlt : more < rest.length := ih h
        simp only [List.length_cons]
        omega
    · cases h

/-- An open sequence, if there is one, does not go on with a lead byte. -/
def Excludes (pending : Option Continuation) : Prop := ∀ k, pending = some k → k.high.toNat ≤ 0xBF

theorem excludes_none : Excludes none := fun k hk => by cases hk

theorem validFrom_cut {c : Char} {v w : Bytes} (hc : encode c = v ++ w) (hv : v ≠ [])
    (hw : w ≠ []) {pending : Option Continuation} (hp : Excludes pending) :
    validFrom pending v = false := by
  obtain ⟨b, more, rfl⟩ := List.exists_cons_of_ne_nil hv
  rw [List.cons_append] at hc
  obtain ⟨hlead, hlen⟩ := lead_encode hc (by simp [hw])
  have hpos := List.length_pos_iff.2 hw
  rw [List.length_append] at hlen
  cases pending with
  | none =>
    rw [validFrom, if_neg (by simp only [UInt8.lt_iff_toNat_lt, UInt8.reduceToNat]; omega)]
    cases hk : continuation? b with
    | none => rfl
    | some k =>
      rw [Bool.eq_false_iff]
      intro hvalid
      have hlt := more_lt_of_validFrom hvalid
      rw [(continuation?_eq_some hk).2] at hlt
      omega
  | some k =>
    have hhigh := hp k rfl
    rw [validFrom, if_neg]
    simp only [UInt8.le_iff_toNat_le]
    omega

/-- The bytes before a cut encoding leave something behind that it does not fit either. -/
theorem validFrom_append_cut {c : Char} {v w : Bytes} (hc : encode c = v ++ w) (hv : v ≠ [])
    (hw : w ≠ []) (pre : Bytes) {pending : Option Continuation} (hp : Excludes pending) :
    validFrom pending (pre ++ v) = false := by
  induction pre generalizing pending with
  | nil => exact validFrom_cut hc hv hw hp
  | cons x pre ih =>
    cases pending with
    | none =>
      rw [List.cons_append, validFrom]
      split
      · exact ih excludes_none
      · split
        · next k hk =>
          refine ih fun k' hk' => ?_
          cases hk'
          exact (continuation?_eq_some hk).1
        · rfl
    | some k =>
      rw [List.cons_append, validFrom]
      split
      · split
        · exact ih excludes_none
        · refine ih fun k' hk' => ?_
          cases hk'
          exact Nat.le_refl _
      · rfl

/-- A valid text does not stop inside a character. -/
theorem eq_nil_of_valid_append {c : Char} {pre v w : Bytes} (h : valid (pre ++ v))
    (hc : encode c = v ++ w) (hv : v ≠ []) : w = [] := by
  by_cases hw : w = []
  · exact hw
  · have hcut := validFrom_append_cut hc hv hw pre excludes_none
    rw [valid, hcut] at h
    cases h

end Utf8
end Lexis
