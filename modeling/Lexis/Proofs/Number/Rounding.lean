import Mathlib.Algebra.Order.Field.Basic
import Mathlib.Algebra.Order.Field.Rat
import Mathlib.Algebra.Order.Ring.Int
import Mathlib.Tactic.Linarith
import Mathlib.Tactic.FieldSimp
import Mathlib.Tactic.Ring
import Mathlib.Tactic.Positivity
import Lexis.Number.Binary64

/-!
# Rounding to binary64

A finite number is a rational (`toRat`), and rounding is said of rationals alone: the nearest of all
finite numbers, of two equally near ones the one with the even significand (`Nearest`). There is at
most one such number without a sign, and `ofRatio?` finds it below the midpoint between the largest
finite number and the power of two that would follow it.

* `Nearest.unique`: the nearest number is the only one.
* `roundHalfEven_nearest`: rounding a ratio to a whole number, ties to the even one.
* `binaryExponent_bounds`: where the first bit of a ratio stands.
* `Rounded.isNearest`, `Rounded.fits_iff`: what follows for the significand and the exponent that
  come out, and when the bits made of them stay below infinity.
* `ofRatio?_eq_some`, `ofRatio?_eq_none`: rounding below the limit, and from there on.
-/
namespace Lexis
namespace Binary64

variable {x y : Binary64} {q : ℚ}

/-! ## Numbers as rationals -/

/-- The rational without its sign. -/
def magnitude (x : Binary64) : ℚ := x.significand * (2 : ℚ) ^ x.exponent

/-- The rational that a finite number stands for. -/
def toRat (x : Binary64) : ℚ := if x.negative then -x.magnitude else x.magnitude

/-- The finite number nearest to `q`, ties to the even significand. -/
structure Nearest (q : ℚ) (x : Binary64) : Prop where
  finite : x.isFinite
  nearest : ∀ y : Binary64, y.isFinite → |x.toRat - q| ≤ |y.toRat - q|
  even : ∀ y : Binary64, y.isFinite → y.toRat ≠ x.toRat → |y.toRat - q| = |x.toRat - q| →
    x.significand % 2 = 0

theorem two_zpow_pos (e : ℤ) : (0 : ℚ) < (2 : ℚ) ^ e := zpow_pos (by norm_num) e

theorem magnitude_nonneg (x : Binary64) : 0 ≤ x.magnitude :=
  mul_nonneg (Nat.cast_nonneg _) (two_zpow_pos _).le

theorem exponentField_eq (x : Binary64) : x.exponentField = x.bits.toNat / 2 ^ 52 % 2 ^ 11 := rfl

theorem fractionField_eq (x : Binary64) : x.fractionField = x.bits.toNat % 2 ^ 52 := rfl

theorem isFinite_iff (x : Binary64) : x.isFinite ↔ x.exponentField ≠ 2047 := decide_eq_true_iff

theorem negative_eq_false_iff (x : Binary64) : x.negative = false ↔ x.bits.toNat < 2 ^ 63 := by
  simp [negative]

theorem significand_eq (x : Binary64) : x.significand =
    if x.exponentField = 0 then x.fractionField else 2 ^ 52 + x.fractionField := rfl

theorem exponent_eq (x : Binary64) : x.exponent =
    if x.exponentField = 0 then -1074 else (x.exponentField : ℤ) - 1075 := rfl

theorem leastExponent_eq : leastExponent = -1074 := rfl

/-- The significand of a finite number has 53 bits, or its exponent is the least one. -/
theorem canonical (h : x.isFinite) :
    x.significand < 2 ^ 53 ∧ leastExponent ≤ x.exponent ∧ x.exponent ≤ 971 ∧
      (leastExponent < x.exponent → 2 ^ 52 ≤ x.significand) := by
  rw [isFinite_iff] at h
  rw [significand_eq, exponent_eq, leastExponent_eq]
  have hfraction := x.fractionField_eq
  have hexponent := x.exponentField_eq
  split <;> omega

/-- The bits of a number without a sign, by its exponent and its significand. -/
theorem bits_eq (h : x.negative = false) :
    x.bits.toNat = (x.exponent - leastExponent).toNat * 2 ^ 52 + x.significand := by
  rw [negative_eq_false_iff] at h
  rw [significand_eq, exponent_eq, leastExponent_eq]
  have hfraction := x.fractionField_eq
  have hexponent := x.exponentField_eq
  split <;> omega

/-- What bits stand for: a significand that has reached `2 ^ 53` has carried into the exponent. -/
theorem of_bits {E m : ℕ} (hbits : x.bits.toNat = E * 2 ^ 52 + m)
    (hlt : x.bits.toNat < 2047 * 2 ^ 52) (hm : m ≤ 2 ^ 53) (hE : 0 < E → 2 ^ 52 ≤ m) :
    x.isFinite ∧ x.negative = false ∧ x.magnitude = m * (2 : ℚ) ^ (E + leastExponent) ∧
      x.significand % 2 = m % 2 := by
  have hfraction := x.fractionField_eq
  have hexponent := x.exponentField_eq
  have hfinite : x.isFinite := by
    rw [isFinite_iff]
    omega
  have hnegative : x.negative = false := by
    rw [negative_eq_false_iff]
    omega
  refine ⟨hfinite, hnegative, ?_⟩
  unfold magnitude
  rcases eq_or_lt_of_le hm with rfl | hlt53
  · have hs : x.significand = 2 ^ 52 := by
      rw [significand_eq, if_neg (by omega)]
      omega
    have he : x.exponent = E + leastExponent + 1 := by
      rw [exponent_eq, if_neg (by omega), leastExponent_eq]
      omega
    rw [hs, he, zpow_add_one₀ (by norm_num)]
    refine ⟨?_, by norm_num⟩
    push_cast
    ring
  · have hs : x.significand = m := by
      rw [significand_eq]
      split <;> omega
    have he : x.exponent = E + leastExponent := by
      rw [exponent_eq, leastExponent_eq]
      split <;> omega
    rw [hs, he]
    exact ⟨rfl, rfl⟩

theorem toRat_of_not_negative (h : x.negative = false) : x.toRat = x.magnitude := by
  rw [toRat, h, if_neg Bool.false_ne_true]

/-! ## Numbers on a grid -/

/-- A number on the grid of a smaller exponent. -/
theorem magnitude_eq_grid {e : ℤ} (h : e ≤ x.exponent) :
    x.magnitude = (x.significand * 2 ^ (x.exponent - e).toNat : ℕ) * (2 : ℚ) ^ e := by
  have hsplit : x.exponent = (x.exponent - e).toNat + e := by omega
  unfold magnitude
  rw [hsplit, zpow_add₀ (by norm_num), zpow_natCast, Int.add_sub_cancel, Int.toNat_natCast]
  push_cast
  ring

/-- A number with a smaller exponent lies below all numbers of 53 bits. -/
theorem magnitude_lt_of_exponent_lt {e : ℤ} (hx : x.isFinite) (h : x.exponent < e) :
    x.magnitude < 2 ^ 52 * (2 : ℚ) ^ e := by
  have hs : (x.significand : ℚ) < 2 ^ 53 := by exact_mod_cast (canonical hx).1
  have hle : (2 : ℚ) ^ x.exponent ≤ 2 ^ (e - 1) := zpow_le_zpow_right₀ (by norm_num) (by omega)
  have he : (2 : ℚ) ^ e = 2 ^ (e - 1) * 2 := by
    rw [← zpow_add_one₀ (by norm_num), Int.sub_add_cancel]
  calc x.magnitude ≤ x.significand * (2 : ℚ) ^ (e - 1) :=
        mul_le_mul_of_nonneg_left hle (Nat.cast_nonneg _)
    _ < 2 ^ 53 * (2 : ℚ) ^ (e - 1) := mul_lt_mul_of_pos_right hs (two_zpow_pos _)
    _ = 2 ^ 52 * (2 : ℚ) ^ e := by rw [he]; ring

/-- A number without a sign is known by its rational. -/
theorem eq_of_toRat_eq (hx : x.isFinite) (hy : y.isFinite) (hxn : x.negative = false)
    (hyn : y.negative = false) (h : x.toRat = y.toRat) : x = y := by
  rw [toRat_of_not_negative hxn, toRat_of_not_negative hyn] at h
  have hle : ∀ {a b : Binary64}, a.isFinite → b.isFinite → a.magnitude = b.magnitude →
      b.exponent ≤ a.exponent := by
    intro a b ha hb hab
    by_contra hlt
    have hbelow := magnitude_lt_of_exponent_lt ha (lt_of_not_ge hlt)
    have hbits : (2 ^ 52 : ℚ) ≤ b.significand := by
      have hleast := (canonical ha).2.1
      exact_mod_cast (canonical hb).2.2.2 (by omega)
    have hge : 2 ^ 52 * (2 : ℚ) ^ b.exponent ≤ b.magnitude :=
      mul_le_mul_of_nonneg_right hbits (two_zpow_pos _).le
    linarith
  have he : x.exponent = y.exponent := le_antisymm (hle hy hx h.symm) (hle hx hy h)
  have hs : x.significand = y.significand := by
    unfold magnitude at h
    rw [he] at h
    exact_mod_cast mul_right_cancel₀ (two_zpow_pos y.exponent).ne' h
  have hbits : x.bits.toNat = y.bits.toNat := by rw [bits_eq hxn, bits_eq hyn, he, hs]
  cases x
  cases y
  exact congrArg _ (UInt64.toNat_inj.1 hbits)

/-- The number behind one with an even significand. -/
theorem exists_next (hx : x.isFinite) (hxn : x.negative = false) (heven : x.significand % 2 = 0) :
    ∃ z : Binary64, z.isFinite ∧ z.negative = false ∧ z.significand % 2 = 1 ∧
      z.toRat = (x.significand + 1) * (2 : ℚ) ^ x.exponent := by
  obtain ⟨h53, hleast, hmost, hnormal⟩ := canonical hx
  have hbits := bits_eq hxn
  have hE : ((x.exponent - leastExponent).toNat : ℤ) + leastExponent = x.exponent := by omega
  rw [leastExponent_eq] at hleast hbits hnormal
  have hlt : (x.exponent - -1074).toNat * 2 ^ 52 + (x.significand + 1) < 2047 * 2 ^ 52 := by omega
  have hz : (⟨.ofNat ((x.exponent - -1074).toNat * 2 ^ 52 + (x.significand + 1))⟩ :
      Binary64).bits.toNat = (x.exponent - -1074).toNat * 2 ^ 52 + (x.significand + 1) :=
    UInt64.toNat_ofNat_of_lt' (lt_trans hlt (by norm_num))
  obtain ⟨hfinite, hnegative, hmagnitude, hparity⟩ :=
    of_bits hz (by rw [hz]; exact hlt) (by omega) (by omega)
  refine ⟨_, hfinite, hnegative, by omega, ?_⟩
  rw [toRat_of_not_negative hnegative, hmagnitude, ← leastExponent_eq, hE]
  push_cast
  ring

/-- No number lies between one with an even significand and the next. -/
theorem next_le (hx : x.isFinite) (hy : y.isFinite) (h : x.magnitude < y.magnitude) :
    (x.significand + 1) * (2 : ℚ) ^ x.exponent ≤ y.magnitude := by
  rcases lt_or_ge y.exponent x.exponent with hlt | hge
  · have hbelow := magnitude_lt_of_exponent_lt hy hlt
    have hleast := (canonical hy).2.1
    have hbits : (2 ^ 52 : ℚ) ≤ x.significand := by
      exact_mod_cast (canonical hx).2.2.2 (by omega)
    have hle : 2 ^ 52 * (2 : ℚ) ^ x.exponent ≤ x.magnitude :=
      mul_le_mul_of_nonneg_right hbits (two_zpow_pos _).le
    linarith
  · rw [magnitude_eq_grid hge] at h ⊢
    have hpos := two_zpow_pos x.exponent
    have hnat : (x.significand : ℚ) <
        (y.significand * 2 ^ (y.exponent - x.exponent).toNat : ℕ) :=
      lt_of_mul_lt_mul_right h hpos.le
    refine mul_le_mul_of_nonneg_right ?_ hpos.le
    exact_mod_cast hnat

/-- Of two nearest numbers neither is the smaller one: the next number behind it would be nearer
than both, or it is the other one and its significand is odd. -/
theorem Nearest.not_lt (hx : Nearest q x) (hy : Nearest q y) (hxn : x.negative = false)
    (hyn : y.negative = false) : ¬ x.toRat < y.toRat := by
  intro hlt
  have hdist : |y.toRat - q| = |x.toRat - q| :=
    le_antisymm (hy.nearest x hx.finite) (hx.nearest y hy.finite)
  have hxeven := hx.even y hy.finite hlt.ne' hdist
  have hyeven := hy.even x hx.finite hlt.ne hdist.symm
  obtain ⟨z, hz, hzn, hodd, hzrat⟩ := exists_next hx.finite hxn hxeven
  have hnear := hx.nearest z hz
  have hle : z.toRat ≤ y.toRat := by
    rw [hzrat, toRat_of_not_negative hyn]
    rw [toRat_of_not_negative hxn, toRat_of_not_negative hyn] at hlt
    exact next_le hx.finite hy.finite hlt
  have hpos := two_zpow_pos x.exponent
  have hgt : x.toRat < z.toRat := by
    rw [hzrat, toRat_of_not_negative hxn, magnitude]
    linarith
  -- `q` is the midpoint, so a number between the two is nearer.
  have hzy : z.toRat = y.toRat := by
    have hmid : y.toRat - q = q - x.toRat := by
      rcases abs_eq_abs.1 hdist with h | h <;> linarith
    rw [abs_of_nonpos (by linarith : x.toRat - q ≤ 0)] at hnear
    rcases abs_cases (z.toRat - q) with ⟨h, -⟩ | ⟨h, -⟩ <;> linarith
  have heq := eq_of_toRat_eq hz hy.finite hzn hyn hzy
  rw [heq] at hodd
  omega

/-- The nearest number without a sign is the only one. -/
theorem Nearest.unique (hx : Nearest q x) (hy : Nearest q y) (hxn : x.negative = false)
    (hyn : y.negative = false) : x = y := by
  have hle := le_of_not_gt (hx.not_lt hy hxn hyn)
  have hge := le_of_not_gt (hy.not_lt hx hyn hxn)
  exact eq_of_toRat_eq hx.finite hy.finite hxn hyn (le_antisymm hge hle)

/-! ## Rounding to a whole number -/

/-- Rounding is off by half of the divisor at most, and by half only where the result is even. -/
theorem roundHalfEven_bounds {a b : ℕ} (hb : 0 < b) :
    2 * a ≤ 2 * (roundHalfEven a b * b) + b ∧ 2 * (roundHalfEven a b * b) ≤ 2 * a + b ∧
      (2 * a = 2 * (roundHalfEven a b * b) + b ∨ 2 * (roundHalfEven a b * b) = 2 * a + b →
        roundHalfEven a b % 2 = 0) := by
  have hdiv := Nat.div_add_mod a b
  have hmod := Nat.mod_lt a hb
  rw [Nat.mul_comm] at hdiv
  unfold roundHalfEven
  dsimp only
  generalize a / b = k at *
  have hup : (k + 1) * b = k * b + b := Nat.succ_mul k b
  split_ifs <;> grind

/-- The same of the ratio. -/
theorem roundHalfEven_error {a b : ℕ} (hb : 0 < b) :
    |(roundHalfEven a b : ℚ) - a / b| ≤ 1 / 2 ∧
      (|(roundHalfEven a b : ℚ) - a / b| = 1 / 2 → roundHalfEven a b % 2 = 0) := by
  have hpos : (0 : ℚ) < b := by exact_mod_cast hb
  obtain ⟨hlow, hhigh, heven⟩ := roundHalfEven_bounds (a := a) hb
  generalize roundHalfEven a b = m at *
  have ha : (a : ℚ) = a / b * b := (div_mul_cancel₀ _ hpos.ne').symm
  generalize (a : ℚ) / b = r at *
  have hlow' : 2 * (r * b) ≤ 2 * ((m : ℚ) * b) + b := by
    rw [← ha]
    exact_mod_cast hlow
  have hhigh' : 2 * ((m : ℚ) * b) ≤ 2 * (r * b) + b := by
    rw [← ha]
    exact_mod_cast hhigh
  refine ⟨abs_le.2 ⟨by nlinarith, by nlinarith⟩, fun htie => heven ?_⟩
  rcases abs_cases ((m : ℚ) - r) with ⟨habs, -⟩ | ⟨habs, -⟩
  · right
    have hm : (m : ℚ) = r + 1 / 2 := by linarith
    have hcast : 2 * ((m : ℚ) * b) = 2 * a + b := by
      rw [ha, hm]
      ring
    exact_mod_cast hcast
  · left
    have hm : r = (m : ℚ) + 1 / 2 := by linarith
    have hcast : 2 * (a : ℚ) = 2 * (m * b) + b := by
      rw [ha, hm]
      ring
    exact_mod_cast hcast

/-- No whole number is nearer than the rounded one, and another one as near leaves it even. -/
theorem roundHalfEven_nearest {a b : ℕ} (hb : 0 < b) (k : ℕ) :
    |(roundHalfEven a b : ℚ) - a / b| ≤ |(k : ℚ) - a / b| ∧
      (k ≠ roundHalfEven a b → |(k : ℚ) - a / b| = |(roundHalfEven a b : ℚ) - a / b| →
        roundHalfEven a b % 2 = 0) := by
  obtain ⟨herror, heven⟩ := roundHalfEven_error (a := a) hb
  by_cases hk : k = roundHalfEven a b
  · subst hk
    exact ⟨le_rfl, fun h => absurd rfl h⟩
  · have hone : (1 : ℚ) ≤ |(k : ℚ) - roundHalfEven a b| := by
      have : (1 : ℤ) ≤ |(k : ℤ) - roundHalfEven a b| := Int.one_le_abs (by omega)
      exact_mod_cast this
    have htri := abs_sub_le (k : ℚ) (a / b) (roundHalfEven a b)
    rw [abs_sub_comm (a / b : ℚ)] at htri
    exact ⟨by linarith, fun _ htie => heven (by linarith)⟩

/-- A rounded number lies below an even one iff the ratio lies more than a half below it. -/
theorem roundHalfEven_lt_iff {a b k : ℕ} (hb : 0 < b) (hk : k % 2 = 0) :
    roundHalfEven a b < k ↔ (a : ℚ) / b < k - 1 / 2 := by
  obtain ⟨herror, heven⟩ := roundHalfEven_error (a := a) hb
  obtain ⟨hlow, hhigh⟩ := abs_le.1 herror
  constructor
  · intro hlt
    have hle : (roundHalfEven a b : ℚ) + 1 ≤ k := by exact_mod_cast hlt
    refine lt_of_le_of_ne (by linarith) fun heq => ?_
    -- At the half itself the result would be odd, as `k - 1` is.
    have hm : (roundHalfEven a b : ℚ) + 1 = k := by linarith
    have hdist : |(roundHalfEven a b : ℚ) - a / b| = 1 / 2 := by
      have hdiff : (roundHalfEven a b : ℚ) - a / b = -(1 / 2) := by linarith
      rw [hdiff]
      norm_num
    have hparity := heven hdist
    have hm' : roundHalfEven a b + 1 = k := by exact_mod_cast hm
    omega
  · intro hlt
    by_contra hge
    have hle : (k : ℚ) ≤ roundHalfEven a b := by exact_mod_cast not_lt.1 hge
    linarith

/-! ## The exponent of a ratio -/

theorem two_zpow_eq (e : ℤ) : (2 : ℚ) ^ e = 2 ^ e.toNat / 2 ^ (-e).toNat := by
  rw [eq_div_iff (by positivity), ← zpow_natCast, ← zpow_natCast, ← zpow_add₀ (by norm_num)]
  congr 1
  omega

theorem scale_pos {n d : ℕ} (hd : 0 < d) (e : ℤ) : 0 < (scale n d e).2 :=
  Nat.mul_pos hd (Nat.two_pow_pos _)

theorem scale_ratio (n d : ℕ) (e : ℤ) :
    ((scale n d e).1 : ℚ) / (scale n d e).2 = n / d / 2 ^ e := by
  have hpow : ∀ k : ℕ, ((Nat.pow 2 k : ℕ) : ℚ) = 2 ^ k := fun k => by
    rw [Nat.pow_eq]
    push_cast
    rfl
  unfold scale
  rw [two_zpow_eq, Nat.cast_mul, Nat.cast_mul, hpow, hpow]
  field_simp

theorem scale_le_iff {n d : ℕ} (hd : 0 < d) (e : ℤ) :
    (scale n d e).2 ≤ (scale n d e).1 ↔ (2 : ℚ) ^ e ≤ n / d := by
  have hpos : (0 : ℚ) < (scale n d e).2 := by exact_mod_cast scale_pos hd e
  rw [← one_le_div₀ (two_zpow_pos e), ← scale_ratio, one_le_div₀ hpos, Nat.cast_le]

theorem log2_bounds {k : ℕ} (hk : 0 < k) :
    (2 : ℚ) ^ (k.log2 : ℤ) ≤ k ∧ (k : ℚ) < 2 ^ (k.log2 + 1 : ℤ) := by
  have hlow := Nat.log2_self_le hk.ne'
  have hhigh := Nat.lt_log2_self (n := k)
  rw [zpow_natCast, ← Nat.cast_succ, zpow_natCast]
  exact ⟨by exact_mod_cast hlow, by exact_mod_cast hhigh⟩

/-- The bits of the two numbers give the exponent of their ratio up to one. -/
theorem ratio_bounds {n d : ℕ} (hn : 0 < n) (hd : 0 < d) :
    (2 : ℚ) ^ ((n.log2 : ℤ) - d.log2 - 1) ≤ n / d ∧
      (n : ℚ) / d < 2 ^ ((n.log2 : ℤ) - d.log2 + 1) := by
  have hd' : (0 : ℚ) < d := by exact_mod_cast hd
  obtain ⟨hnlow, hnhigh⟩ := log2_bounds hn
  obtain ⟨hdlow, hdhigh⟩ := log2_bounds hd
  constructor
  · rw [le_div_iff₀ hd']
    calc (2 : ℚ) ^ ((n.log2 : ℤ) - d.log2 - 1) * d
        ≤ 2 ^ ((n.log2 : ℤ) - d.log2 - 1) * 2 ^ (d.log2 + 1 : ℤ) :=
          mul_le_mul_of_nonneg_left hdhigh.le (two_zpow_pos _).le
      _ = 2 ^ (n.log2 : ℤ) := by
          rw [← zpow_add₀ (by norm_num)]
          congr 1
          omega
      _ ≤ n := hnlow
  · rw [div_lt_iff₀ hd']
    calc (n : ℚ) < 2 ^ (n.log2 + 1 : ℤ) := hnhigh
      _ = 2 ^ ((n.log2 : ℤ) - d.log2 + 1) * 2 ^ (d.log2 : ℤ) := by
          rw [← zpow_add₀ (by norm_num)]
          congr 1
          omega
      _ ≤ 2 ^ ((n.log2 : ℤ) - d.log2 + 1) * d :=
          mul_le_mul_of_nonneg_left hdlow (two_zpow_pos _).le

/-- Where the first bit of a ratio stands. -/
theorem binaryExponent_bounds {n d : ℕ} (hn : 0 < n) (hd : 0 < d) :
    (2 : ℚ) ^ binaryExponent n d ≤ n / d ∧ (n : ℚ) / d < 2 ^ (binaryExponent n d + 1) := by
  obtain ⟨hlow, hhigh⟩ := ratio_bounds hn hd
  unfold binaryExponent
  dsimp only
  split
  · next hle =>
    rw [scale_le_iff hd] at hle
    exact ⟨hle, hhigh⟩
  · next hlt =>
    rw [scale_le_iff hd, not_le] at hlt
    rw [Int.sub_add_cancel]
    exact ⟨hlow, hlt⟩

/-! ## The nearest number -/

/-- The significand and the exponent with which `ofRatio?` rounds a positive ratio: 53 bits at
least, unless the exponent is the least one, and 53 at most, if rounding does not carry. -/
structure Rounded (q : ℚ) (m : ℕ) (e : ℤ) : Prop where
  least : leastExponent ≤ e
  normal : leastExponent < e → 2 ^ 52 * (2 : ℚ) ^ e ≤ q
  bound : q < 2 ^ 53 * (2 : ℚ) ^ e
  nearest : ∀ k : ℕ, |m * (2 : ℚ) ^ e - q| ≤ |k * (2 : ℚ) ^ e - q|
  even : ∀ k : ℕ, k ≠ m → |k * (2 : ℚ) ^ e - q| = |m * (2 : ℚ) ^ e - q| → m % 2 = 0
  lt_iff : ∀ k : ℕ, k % 2 = 0 → (m < k ↔ q < (k - 1 / 2) * (2 : ℚ) ^ e)

theorem rounded_of_ratio {n d : ℕ} (hn : 0 < n) (hd : 0 < d) :
    Rounded (n / d) (roundHalfEven (scale n d (roundingExponent n d)).1
      (scale n d (roundingExponent n d)).2) (roundingExponent n d) := by
  obtain ⟨hlow, hhigh⟩ := binaryExponent_bounds hn hd
  have hleast : leastExponent ≤ roundingExponent n d := le_max_left _ _
  have hfirst : binaryExponent n d - 52 ≤ roundingExponent n d := le_max_right _ _
  have hnormal : leastExponent < roundingExponent n d →
      roundingExponent n d = binaryExponent n d - 52 := fun h =>
    (max_choice _ _).resolve_left h.ne'
  have hpos := scale_pos (n := n) hd (roundingExponent n d)
  have hratio := scale_ratio n d (roundingExponent n d)
  generalize scale n d (roundingExponent n d) = ab at *
  generalize roundingExponent n d = e at *
  have he := two_zpow_pos e
  have hq : (n : ℚ) / d = ab.1 / ab.2 * 2 ^ e := by
    rw [hratio, div_mul_cancel₀ _ he.ne']
  have hdist : ∀ k : ℕ, |(k : ℚ) * 2 ^ e - n / d| = |(k : ℚ) - ab.1 / ab.2| * 2 ^ e := fun k => by
    rw [hq, ← sub_mul, abs_mul, abs_of_pos he]
  refine ⟨hleast, fun h => ?_, ?_, fun k => ?_, fun k hk h => ?_, fun k hk => ?_⟩
  · rw [← zpow_natCast, ← zpow_add₀ (by norm_num), hnormal h]
    convert hlow using 2
    push_cast
    omega
  · refine lt_of_lt_of_le hhigh ?_
    rw [← zpow_natCast, ← zpow_add₀ (by norm_num)]
    exact zpow_le_zpow_right₀ (by norm_num) (by push_cast; omega)
  · rw [hdist, hdist]
    exact mul_le_mul_of_nonneg_right (roundHalfEven_nearest hpos k).1 he.le
  · rw [hdist, hdist] at h
    exact (roundHalfEven_nearest hpos k).2 hk (mul_right_cancel₀ he.ne' h)
  · rw [roundHalfEven_lt_iff hpos hk, hq, mul_lt_mul_iff_left₀ he]

variable {m : ℕ} {e : ℤ}

/-- The power of two at which an exponent begins is not nearer than the rounded number. -/
theorem Rounded.error_le (h : Rounded q m e) (he : leastExponent < e) :
    |m * (2 : ℚ) ^ e - q| ≤ q - 2 ^ 52 * (2 : ℚ) ^ e := by
  have hgrid := h.nearest (2 ^ 52)
  have hnormal := h.normal he
  rw [Nat.cast_pow, Nat.cast_ofNat,
    abs_of_nonpos (by linarith : 2 ^ 52 * (2 : ℚ) ^ e - q ≤ 0)] at hgrid
  linarith

/-- So rounding does not go below it. -/
theorem Rounded.ge (h : Rounded q m e) (he : leastExponent < e) : 2 ^ 52 ≤ m := by
  have hle : (2 : ℚ) ^ 52 * 2 ^ e ≤ m * 2 ^ e := by
    linarith [h.error_le he, neg_abs_le (m * (2 : ℚ) ^ e - q)]
  exact_mod_cast le_of_mul_le_mul_right hle (two_zpow_pos e)

/-- Nor does rounding go beyond the one at which the exponent ends. -/
theorem Rounded.le (h : Rounded q m e) : m ≤ 2 ^ 53 := by
  have hgrid := h.nearest (2 ^ 53)
  have hbound := h.bound
  rw [Nat.cast_pow, Nat.cast_ofNat,
    abs_of_nonneg (by linarith : 0 ≤ 2 ^ 53 * (2 : ℚ) ^ e - q)] at hgrid
  have hle : (m : ℚ) * 2 ^ e ≤ 2 ^ 53 * 2 ^ e := by linarith [le_abs_self (m * (2 : ℚ) ^ e - q)]
  exact_mod_cast le_of_mul_le_mul_right hle (two_zpow_pos e)

/-- Of all numbers without a sign the rounded one is nearest. -/
theorem Rounded.nearest_magnitude (h : Rounded q m e) (hy : y.isFinite) :
    |m * (2 : ℚ) ^ e - q| ≤ |y.magnitude - q| ∧
      (y.magnitude ≠ m * (2 : ℚ) ^ e → |y.magnitude - q| = |m * (2 : ℚ) ^ e - q| →
        m % 2 = 0) := by
  rcases le_or_gt e y.exponent with hle | hlt
  · rw [magnitude_eq_grid hle]
    refine ⟨h.nearest _, fun hne => h.even _ fun heq => hne ?_⟩
    rw [heq]
  · -- The power of two at which the exponent `e` begins lies between the two.
    have hleast : leastExponent < e := lt_of_le_of_lt (canonical hy).2.1 hlt
    have hnormal := h.normal hleast
    have hbelow := magnitude_lt_of_exponent_lt hy hlt
    have herror := h.error_le hleast
    rw [abs_of_nonpos (by linarith : y.magnitude - q ≤ 0)]
    exact ⟨by linarith, fun _ htie => by linarith⟩

/-- A number with a sign is farther from a positive rational than the same number without it. -/
theorem magnitude_nearer (hq : 0 < q) (y : Binary64) :
    |y.magnitude - q| ≤ |y.toRat - q| ∧
      (|y.toRat - q| ≤ |y.magnitude - q| → y.toRat = y.magnitude) := by
  have hy := magnitude_nonneg y
  unfold toRat
  split
  · rw [abs_of_nonpos (by linarith : -y.magnitude - q ≤ 0)]
    rcases abs_cases (y.magnitude - q) with ⟨habs, -⟩ | ⟨habs, -⟩
    · rw [habs]
      exact ⟨by linarith, fun _ => by linarith⟩
    · rw [habs]
      exact ⟨by linarith, fun _ => by linarith⟩
  · exact ⟨le_rfl, fun _ => rfl⟩

/-- A number that has the rounded significand and exponent is the nearest one. -/
theorem Rounded.isNearest (h : Rounded q m e) (hq : 0 < q) (hx : x.isFinite)
    (hrat : x.toRat = m * (2 : ℚ) ^ e) (hparity : x.significand % 2 = m % 2) : Nearest q x := by
  refine ⟨hx, fun y hy => ?_, fun y hy hne htie => ?_⟩
  · rw [hrat]
    exact le_trans (h.nearest_magnitude hy).1 (magnitude_nearer hq y).1
  · rw [hrat] at hne htie
    obtain ⟨hle, heven⟩ := h.nearest_magnitude hy
    have heq : y.toRat = y.magnitude := (magnitude_nearer hq y).2 (by linarith)
    rw [heq] at hne htie
    rw [hparity]
    exact heven hne htie

/-- The limit of the range is half a unit above the largest significand at the largest exponent. -/
theorem limit_eq : (2 : ℚ) ^ 1024 - 2 ^ 970 = (2 ^ 53 - 1 / 2) * (2 : ℚ) ^ (971 : ℤ) := by
  have h1024 : (2 : ℚ) ^ 1024 = 2 ^ 54 * 2 ^ 970 := by
    have hsum : 1024 = 54 + 970 := rfl
    rw [hsum, pow_add]
  have h971 : (2 : ℚ) ^ (971 : ℤ) = 2 * 2 ^ 970 := by
    have hsum : (971 : ℤ) = (1 + 970 : ℕ) := rfl
    rw [hsum, zpow_natCast, pow_add, pow_one]
  rw [h1024, h971]
  generalize (2 : ℚ) ^ 970 = p
  ring

/-- A rounded number fits below infinity iff the ratio lies below the limit. -/
theorem Rounded.fits_iff (h : Rounded q m e) :
    (e - leastExponent).toNat * 2 ^ 52 + m < infinity.bits.toNat ↔ q < 2 ^ 1024 - 2 ^ 970 := by
  have hinfinity : infinity.bits.toNat = 2047 * 2 ^ 52 := rfl
  have hleast := h.least
  have hle := h.le
  have hge := h.ge
  rw [leastExponent_eq] at hleast hge ⊢
  rw [limit_eq, hinfinity]
  rcases lt_trichotomy e 971 with hlt | rfl | hgt
  · have hpow : (2 : ℚ) ^ (e + 1) ≤ 2 ^ (971 : ℤ) := zpow_le_zpow_right₀ (by norm_num) (by omega)
    rw [zpow_add_one₀ (by norm_num)] at hpow
    have hpos := two_zpow_pos 971
    have hbound := h.bound
    generalize (2 : ℚ) ^ (971 : ℤ) = unit at *
    exact ⟨fun _ => by linarith, fun _ => by omega⟩
  · have hcast : ((2 ^ 53 : ℕ) : ℚ) = 2 ^ 53 := by norm_num
    rw [← hcast, ← h.lt_iff (2 ^ 53) (by norm_num)]
    omega
  · have hpow : (2 : ℚ) ^ (971 + 1 : ℤ) ≤ 2 ^ e := zpow_le_zpow_right₀ (by norm_num) (by omega)
    rw [zpow_add_one₀ (by norm_num)] at hpow
    have hpos := two_zpow_pos 971
    have hnormal := h.normal (by rw [leastExponent_eq]; omega)
    have hsig := hge (by omega)
    generalize (2 : ℚ) ^ (971 : ℤ) = unit at *
    exact ⟨fun _ => by omega, fun _ => by linarith⟩

/-! ## Ratios -/

variable {n d : ℕ}

theorem nearest_zero : Nearest 0 zero where
  finite := by decide
  nearest y _ := by
    have hzero : zero.toRat = 0 := by
      have hsignificand : zero.significand = 0 := rfl
      rw [toRat_of_not_negative rfl, magnitude, hsignificand, Nat.cast_zero, zero_mul]
    rw [hzero]
    simp
  even _ _ _ _ := by decide

/-- Below the limit a ratio has a nearest number. -/
theorem ofRatio?_eq_some (hd : 0 < d) (h : (n : ℚ) / d < 2 ^ 1024 - 2 ^ 970) :
    ∃ x, ofRatio? n d = some x ∧ x.negative = false ∧ Nearest (n / d) x := by
  unfold ofRatio?
  split
  · next hn =>
    subst hn
    refine ⟨zero, rfl, by decide, ?_⟩
    rw [Nat.cast_zero, zero_div]
    exact nearest_zero
  · next hn =>
    have hn : 0 < n := by omega
    have hrounded := rounded_of_ratio hn hd
    have hq : (0 : ℚ) < n / d := by positivity
    dsimp only
    generalize roundingExponent n d = e at *
    generalize roundHalfEven _ _ = m at *
    have hfits := hrounded.fits_iff.2 h
    rw [Nat.pow_eq, if_pos hfits]
    have hbits := UInt64.toNat_ofNat_of_lt' (lt_trans hfits infinity.bits.toNat_lt)
    have hge := hrounded.ge
    have hleast := hrounded.least
    obtain ⟨hfinite, hnegative, hmagnitude, hparity⟩ :=
      of_bits (x := ⟨Nat.toUInt64 _⟩) hbits (by rw [hbits]; exact hfits) hrounded.le
        fun hE => hge (by omega)
    refine ⟨_, rfl, hnegative, hrounded.isNearest hq hfinite ?_ hparity⟩
    rw [toRat_of_not_negative hnegative, hmagnitude]
    congr 2
    omega

/-- From the limit on a ratio is too large. -/
theorem ofRatio?_eq_none (hd : 0 < d) (h : 2 ^ 1024 - 2 ^ 970 ≤ (n : ℚ) / d) :
    ofRatio? n d = none := by
  have hn : 0 < n := by
    by_contra hzero
    have hpos := two_zpow_pos 971
    rw [Nat.eq_zero_of_not_pos hzero, Nat.cast_zero, zero_div, limit_eq] at h
    generalize (2 : ℚ) ^ (971 : ℤ) = unit at *
    linarith
  have hrounded := rounded_of_ratio hn hd
  unfold ofRatio?
  rw [if_neg hn.ne']
  dsimp only
  rw [Nat.pow_eq, if_neg]
  rw [hrounded.fits_iff]
  exact not_lt.2 h

end Binary64
end Lexis
