import Mathlib
import Clamm.Proofs.Currency.Fraction
import Clamm.Proofs.Grid.Exponential
import Clamm.SqrtPrice.Encode

/-!
# Square-root prices of amounts of either sign

`encode` cuts twice: the scaled quotient of the amounts toward zero, and then its root. Over a
quotient that is not negative the two cuts are one, the floor of the square root of the rational
(`isFloorSqrt_sqrt_floor`), whatever the signs of the two amounts.

A negative quotient is told by its sign, and the sign is looked at between the cuts. What lies
within one unit of zero has lost it by then (`integerPart_neg_iff`): such a quotient is not refused
but encoded as zero.

* `encodeUnbounded_eq`: the square-root price of any two amounts, as a rational cut once.
* `encode_floorSqrt`: when it is refused, and that it is the exact floor elsewhere.
* `exists_negative_encoded`: a negative quotient that is not refused.
-/

namespace Clamm

/-- The whole number `r` is the square root of a rational, cut down. -/
def IsFloorSqrt (x : ℚ) (r : ℕ) : Prop := (r : ℚ) ^ 2 ≤ x ∧ x < (r + 1) ^ 2

variable {x : ℚ} {n d : ℤ}

/-! ## Two cuts -/

/-- A quotient that is cut toward zero is the integer part of the rational, for divisors of either
sign. -/
theorem tdiv_eq_integerPart (hd : d ≠ 0) : n.tdiv d = Fraction.integerPart (n / d) := by
  obtain ⟨a, ha⟩ : ∃ a, Fraction.make n d = .ok a := ⟨_, dif_neg hd⟩
  rw [← (Fraction.toRat_make ha).2, ← Fraction.quotient_eq_integerPart]
  unfold Fraction.make at ha
  rw [dif_neg hd] at ha
  cases ha
  unfold Fraction.quotient
  dsimp only
  split
  · rename_i hneg
    rw [Int.ofNat_natAbs_of_nonpos hneg.le, Int.neg_tdiv_neg]
  · rename_i hpos
    rw [Int.natAbs_of_nonneg (not_lt.mp hpos)]

/-- Only what is at least one unit below zero still has its sign after the cut. -/
theorem integerPart_neg_iff : Fraction.integerPart x < 0 ↔ x ≤ -1 := by
  unfold Fraction.integerPart
  split
  · rename_i h
    exact iff_of_false (not_lt.mpr (Int.floor_nonneg.mpr h)) (by linarith)
  · rw [← Int.le_sub_one_iff, Int.ceil_le]
    norm_num

/-- Above zero the integer part is the floor, and what is left below zero counts as nothing. -/
theorem toNat_integerPart (x : ℚ) : (Fraction.integerPart x).toNat = ⌊x⌋₊ := by
  unfold Fraction.integerPart
  split
  · exact Int.floor_toNat x
  · rename_i hneg
    have hzero : ⌈x⌉ ≤ 0 := Int.ceil_le.mpr (by exact_mod_cast (not_le.mp hneg).le)
    rw [Int.toNat_of_nonpos hzero, Nat.floor_of_nonpos (not_le.mp hneg).le]

/-- **The root of what is cut down is the root, cut down.** -/
theorem isFloorSqrt_sqrt_floor (h : 0 ≤ x) : IsFloorSqrt x (Nat.sqrt ⌊x⌋₊) := by
  constructor
  · have hle := (Nat.le_floor_iff h).mp (Nat.sqrt_le' ⌊x⌋₊)
    exact_mod_cast hle
  · have hlt := (Nat.floor_lt h).mp (Nat.lt_succ_sqrt' ⌊x⌋₊)
    exact_mod_cast hlt

/-! ## The encoding -/

/-- The square-root price of two amounts, of any size: a quotient of at least one unit below zero is
refused, and every other one is cut down, to zero from below. -/
theorem encodeUnbounded_eq (hd : d ≠ 0) : encodeUnbounded n d =
    if (n / d : ℚ) * 2 ^ 192 ≤ -1 then .error (.arithmetic .invalidInput)
    else .ok (Nat.sqrt ⌊(n / d : ℚ) * 2 ^ 192⌋₊) := by
  have hscaled : ((n * pow2 192 : ℤ) : ℚ) / d = n / d * 2 ^ 192 := by
    rw [pow2_eq]
    push_cast
    exact mul_div_right_comm _ _ _
  unfold encodeUnbounded
  rw [if_neg hd]
  simp only [tdiv_eq_integerPart hd, hscaled, integerPart_neg_iff]
  rw [toNat_integerPart]

theorem encode_zero (n : ℤ) : encode n 0 = .error (.arithmetic .divisionByZero) := rfl

/-- **The encoding is the exact floor of the square root.** Amounts over zero are a division by
zero, and over anything else a quotient of at most `-1 / 2 ^ 192` is refused. A negative quotient
above that is encoded as zero. A quotient that is not negative has the square root of it times
`2 ^ 192`, cut down to a whole number, as long as this fits in 256 bits; if not, the encoding
overflows. -/
theorem encode_floorSqrt (amount1 amount0 : ℤ) :
    (encode amount1 amount0 = .error (.arithmetic .divisionByZero) ↔ amount0 = 0) ∧
    (amount0 ≠ 0 →
      (encode amount1 amount0 = .error (.arithmetic .invalidInput) ↔
        (amount1 / amount0 : ℚ) ≤ -1 / 2 ^ 192) ∧
      (-1 / 2 ^ 192 < (amount1 / amount0 : ℚ) → (amount1 / amount0 : ℚ) < 0 →
        encode amount1 amount0 = .ok 0) ∧
      (0 ≤ (amount1 / amount0 : ℚ) → ∃ r : ℕ, IsFloorSqrt (amount1 / amount0 * 2 ^ 192) r ∧
        encode amount1 amount0 =
          if r < 2 ^ 256 then .ok r else .error (.arithmetic .overflow))) := by
  have hpow : (0 : ℚ) < 2 ^ 192 := by norm_num
  by_cases hd : amount0 = 0
  · subst hd
    exact ⟨iff_of_true (encode_zero _) rfl, fun h => absurd rfl h⟩
  generalize hx : (amount1 / amount0 : ℚ) = x
  have henc : encode amount1 amount0 =
      if x * 2 ^ 192 ≤ -1 then .error (.arithmetic .invalidInput)
      else toUnsigned 256 (Nat.sqrt ⌊x * 2 ^ 192⌋₊) := by
    unfold encode
    rw [encodeUnbounded_eq hd, hx]
    split <;> rfl
  rw [henc, le_div_iff₀ hpow, div_lt_iff₀ hpow]
  by_cases hneg : x * 2 ^ 192 ≤ -1
  · have hx0 : x < 0 := by
      by_contra hpos
      have := mul_nonneg (not_lt.mp hpos) hpow.le
      linarith
    rw [if_pos hneg]
    exact ⟨iff_of_false (by decide) hd, fun _ => ⟨iff_of_true rfl hneg,
      fun h => absurd hneg (not_le.mpr h), fun h => absurd hx0 (not_lt.mpr h)⟩⟩
  · rw [if_neg hneg]
    unfold toUnsigned
    rw [pow2_eq]
    refine ⟨iff_of_false (by split <;> simp) hd, fun _ => ⟨iff_of_false (by split <;> simp) hneg,
      fun _ h => ?_, fun h => ⟨_, isFloorSqrt_sqrt_floor (mul_nonneg h hpow.le), rfl⟩⟩⟩
    have hfloor : ⌊x * 2 ^ 192⌋₊ = 0 :=
      Nat.floor_of_nonpos (mul_nonpos_of_nonpos_of_nonneg h.le hpow.le)
    rw [hfloor, Nat.sqrt_zero, if_pos (by norm_num)]

/-- Two negative amounts have the square-root price of their quotient, seven thirds; the least
negative quotient that is refused is `-1 / 2 ^ 192`. -/
theorem encode_floorSqrt_signs :
    ((-3 : ℤ) ≠ 0 ∧ 0 ≤ ((-7 : ℤ) / (-3 : ℤ) : ℚ) ∧ ∃ r : ℕ,
      IsFloorSqrt ((-7 : ℤ) / (-3 : ℤ) * 2 ^ 192) r ∧
      encode (-7) (-3) = if r < 2 ^ 256 then .ok r else .error (.arithmetic .overflow)) ∧
    encode (-1) (2 ^ 192) = .error (.arithmetic .invalidInput) := by
  have hpos : 0 ≤ ((-7 : ℤ) / (-3 : ℤ) : ℚ) := by norm_num
  refine ⟨⟨by decide, hpos, ((encode_floorSqrt (-7) (-3)).2 (by decide)).2.2 hpos⟩, ?_⟩
  refine ((encode_floorSqrt (-1) (2 ^ 192)).2 (by norm_num)).1.mpr ?_
  norm_num

/-- **Not every negative quotient is refused**: minus one over `2 ^ 193` is encoded as zero. -/
theorem exists_negative_encoded :
    ¬ ∀ amount1 amount0 : ℤ, amount0 ≠ 0 → (amount1 / amount0 : ℚ) < 0 →
      encode amount1 amount0 = .error (.arithmetic .invalidInput) := by
  intro h
  have hrefused := h (-1) (2 ^ 193) (by norm_num) (by norm_num)
  have hzero : encode (-1) (2 ^ 193) = .ok 0 := by decide +kernel
  rw [hzero] at hrefused
  cases hrefused

end Clamm
