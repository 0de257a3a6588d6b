import Mathlib
import Clamm.Fraction

/-!
# Fractions as rationals

A `Fraction` stands for the rational `num / den`. The operations of fractions are those of rationals,
whether they keep a common denominator or multiply the two, and the order is that of rationals. What
depends on the representation (`quotient`, the sign) is read off the rational as well.

* `Fraction.toRat_add`, `toRat_sub`, `toRat_mul`, `toRat_divide`: the operations.
* `Fraction.isLE_compare_iff`, `isGE_compare_iff`, `toRat_le_toRat_iff`: the order, cross-multiplied.
* `Fraction.beq_iff`, `compare_eq`: equality and order are those of the rationals.
* `Fraction.quotient_eq_integerPart`, `quotient_add_remainder`: the integer part and what it leaves.
* `Fraction.quotient_le_toRat`, `quotient_eq_toRat`: the integer part of a fraction that is not
  negative.
-/

namespace Clamm.Fraction

variable {a b c : Fraction} {num den : ℤ}

/-- The rational that a fraction stands for. -/
def toRat (a : Fraction) : ℚ := a.num / a.den

theorem den_cast_pos (a : Fraction) : (0 : ℚ) < a.den := by exact_mod_cast a.den_pos

theorem den_cast_ne (a : Fraction) : (a.den : ℚ) ≠ 0 := a.den_cast_pos.ne'

/-! ## Operations -/

@[simp] theorem toRat_ofInt (n : ℤ) : (ofInt n).toRat = n := by
  simp [toRat, ofInt]

@[simp] theorem toRat_add (a b : Fraction) : (a + b).toRat = a.toRat + b.toRat := by
  change (add a b).toRat = _
  have ha := a.den_cast_ne
  have hb := b.den_cast_ne
  unfold add toRat
  split
  · rename_i h
    rw [← h]
    push_cast
    exact add_div _ _ _
  · push_cast
    field_simp

@[simp] theorem toRat_sub (a b : Fraction) : (a - b).toRat = a.toRat - b.toRat := by
  change (sub a b).toRat = _
  have ha := a.den_cast_ne
  have hb := b.den_cast_ne
  unfold sub toRat
  split
  · rename_i h
    rw [← h]
    push_cast
    exact sub_div _ _ _
  · push_cast
    field_simp

@[simp] theorem toRat_mul (a b : Fraction) : (a * b).toRat = a.toRat * b.toRat := by
  change (mul a b).toRat = _
  unfold mul toRat
  push_cast
  exact (div_mul_div_comm _ _ _ _).symm

theorem toRat_make (h : make num den = .ok a) : den ≠ 0 ∧ a.toRat = num / den := by
  unfold make at h
  split at h
  · cases h
  · rename_i hne
    cases h
    refine ⟨hne, ?_⟩
    unfold toRat
    dsimp only
    split
    · rename_i hneg
      rw [Nat.cast_natAbs, abs_of_neg hneg]
      push_cast
      exact neg_div_neg_eq _ _
    · rename_i hpos
      rw [Nat.cast_natAbs, abs_of_nonneg (not_lt.mp hpos)]

theorem toRat_invert (h : a.invert = .ok b) : b.toRat = a.toRat⁻¹ := by
  obtain ⟨-, hb⟩ := toRat_make h
  rw [hb, toRat, inv_div, Int.cast_natCast]

/-- A quotient of fractions is that of the rationals, and only by a fraction that is not zero. -/
theorem toRat_divide (h : a.divide b = .ok c) : b.toRat ≠ 0 ∧ c.toRat = a.toRat / b.toRat := by
  obtain ⟨hne, hc⟩ := toRat_make h
  have hnum : (b.num : ℚ) ≠ 0 := by
    exact_mod_cast right_ne_zero_of_mul hne
  refine ⟨div_ne_zero hnum b.den_cast_ne, ?_⟩
  rw [hc]
  unfold toRat
  push_cast
  exact (div_div_div_eq _ _ _ _).symm

theorem make_eq_error_iff {e : Error} :
    make num den = .error e ↔ den = 0 ∧ e = .arithmetic .divisionByZero := by
  unfold make
  split
  · rename_i h
    simp [h, eq_comm]
  · rename_i h
    simp [h]

/-! ## Order and integer part -/

theorem isLE_compare_iff : (compare a b).isLE = true ↔ a.num * b.den ≤ b.num * a.den := by
  change (compare (a.num * b.den) (b.num * a.den)).isLE = true ↔ _
  exact Std.isLE_compare

theorem isGE_compare_iff : (compare a b).isGE = true ↔ b.num * a.den ≤ a.num * b.den := by
  change (compare (a.num * b.den) (b.num * a.den)).isGE = true ↔ _
  exact Std.isGE_compare

/-- The order of fractions is that of their rationals. -/
theorem toRat_le_toRat_iff : a.toRat ≤ b.toRat ↔ a.num * b.den ≤ b.num * a.den := by
  unfold toRat
  rw [div_le_div_iff₀ a.den_cast_pos b.den_cast_pos]
  exact_mod_cast Iff.rfl

theorem toRat_eq_toRat_iff : a.toRat = b.toRat ↔ a.num * b.den = b.num * a.den := by
  unfold toRat
  rw [div_eq_div_iff a.den_cast_ne b.den_cast_ne]
  exact_mod_cast Iff.rfl

/-- Equality of fractions is that of their rationals. -/
theorem beq_iff : (a == b) = true ↔ a.toRat = b.toRat := by
  rw [toRat_eq_toRat_iff]
  exact beq_iff_eq (α := ℤ)

/-- Fractions compare as their rationals do. -/
theorem compare_eq (a b : Fraction) : compare a b = compare a.toRat b.toRat := by
  change compare (a.num * b.den) (b.num * a.den) = _
  rcases lt_trichotomy a.toRat b.toRat with h | h | h
  · rw [compare_lt_iff_lt.mpr h, compare_lt_iff_lt]
    exact not_le.mp fun hle => absurd h (not_lt.mpr (toRat_le_toRat_iff.mpr hle))
  · rw [compare_eq_iff_eq.mpr h, compare_eq_iff_eq]
    exact toRat_eq_toRat_iff.mp h
  · rw [compare_gt_iff_gt.mpr h, compare_gt_iff_gt]
    exact not_le.mp fun hle => absurd h (not_lt.mpr (toRat_le_toRat_iff.mpr hle))

theorem toRat_eq_zero_iff : a.toRat = 0 ↔ a.num = 0 := by
  unfold toRat
  rw [div_eq_zero_iff, or_iff_left a.den_cast_ne, Int.cast_eq_zero]

theorem toRat_pos_iff : 0 < a.toRat ↔ 0 < a.num := by
  unfold toRat
  rw [lt_div_iff₀ a.den_cast_pos, zero_mul]
  exact Int.cast_pos

theorem toRat_nonneg_iff : 0 ≤ a.toRat ↔ 0 ≤ a.num := by
  unfold toRat
  rw [le_div_iff₀ a.den_cast_pos, zero_mul]
  exact Int.cast_nonneg_iff

theorem quotient_nonneg (h : 0 ≤ a.num) : 0 ≤ a.quotient :=
  Int.tdiv_nonneg h (Int.natCast_nonneg _)

theorem quotient_le_toRat (h : 0 ≤ a.num) : (a.quotient : ℚ) ≤ a.toRat := by
  unfold quotient toRat
  rw [le_div_iff₀ a.den_cast_pos]
  have hle := Int.tdiv_mul_le a.num (b := a.den) (by exact_mod_cast a.den_pos.ne')
  rw [if_pos h, Nat.cast_zero, add_zero] at hle
  exact_mod_cast hle

/-- The integer part of a whole number is all of it. -/
theorem quotient_eq_toRat (h : (a.den : ℤ) ∣ a.num) : (a.quotient : ℚ) = a.toRat := by
  unfold quotient toRat
  rw [eq_div_iff a.den_cast_ne]
  exact_mod_cast Int.tdiv_mul_cancel h

/-- The integer part of a rational: what is left of it when it is cut toward zero. -/
def integerPart (x : ℚ) : ℤ := if 0 ≤ x then ⌊x⌋ else ⌈x⌉

/-- **The integer part of a fraction is that of its rational.** -/
theorem quotient_eq_integerPart (a : Fraction) : a.quotient = integerPart a.toRat := by
  unfold quotient integerPart
  simp only [toRat_nonneg_iff]
  unfold toRat
  split
  · rename_i h
    rw [Rat.floor_intCast_div_natCast, Int.tdiv_eq_ediv_of_nonneg h]
  · rename_i h
    rw [Rat.ceil_intCast_div_natCast, ← Int.tdiv_eq_ediv_of_nonneg (by omega), Int.neg_tdiv,
      neg_neg]

/-- A fraction is its integer part and what that leaves. -/
theorem quotient_add_remainder (a : Fraction) : a.quotient + a.remainder.toRat = a.toRat := by
  have h := a.den_cast_ne
  have hsplit : (a.num : ℚ) = a.den * a.num.tdiv a.den + a.num.tmod a.den := by
    exact_mod_cast (Int.mul_tdiv_add_tmod a.num a.den).symm
  unfold remainder quotient toRat
  dsimp only
  rw [hsplit]
  field_simp

end Clamm.Fraction
