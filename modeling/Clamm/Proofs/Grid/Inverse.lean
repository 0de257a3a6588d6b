import Mathlib
import Clamm.Proofs.Grid.Logarithm

/-!
# `tickAt` is the exact floor inverse of the grid

`tickAt p` estimates the tick of `p` from the fixed-point logarithm, takes a tick below and a tick
above the estimate and lets one comparison choose. The estimate is the logarithm to base
`1.0001 ^ (1 / 2)`, and three errors meet in it: 14 digits of the logarithm (up to 0.847 ticks too
low), `ticksPerDoubling` for the true factor, and the rounding of the grid. `tickShortfall` and
`tickExcess` cover them with some 0.01 ticks to spare.

* `exists_tick`: every price of the range lies between two neighbouring ticks.
* `lowTick_le`, `le_highTick`: the two candidates enclose the lower of them.
* `tickAt_eq_ok_iff`: so `tickAt` answers exactly that tick.
-/

namespace Clamm

open Real

theorem ratioAt_minTick : ratioAt minTick = minSqrtPrice := by unfold ratioAt; decide

theorem ratioAt_maxTick : ratioAt maxTick = maxSqrtPrice := by unfold ratioAt; decide

theorem ratioAt_le_ratioAt {s t : ℤ} (hs : minTick ≤ s) (hst : s ≤ t) (ht : t ≤ maxTick) :
    ratioAt s ≤ ratioAt t := by
  rcases hst.lt_or_eq with h | rfl
  · exact (ratioAt_lt_ratioAt hs h ht).le
  · exact le_refl _

theorem ratioAt_range {t : ℤ} (h1 : minTick ≤ t) (h2 : t ≤ maxTick) :
    minSqrtPrice ≤ ratioAt t ∧ ratioAt t ≤ maxSqrtPrice :=
  ⟨ratioAt_minTick ▸ ratioAt_le_ratioAt (le_refl _) h1 h2,
    ratioAt_maxTick ▸ ratioAt_le_ratioAt h1 h2 (le_refl _)⟩

/-- A tick whose price is below that of another lies below it. -/
theorem lt_of_ratioAt_lt {s t : ℤ} (hs : s ≤ maxTick) (ht : minTick ≤ t)
    (h : ratioAt s < ratioAt t) : s < t := by
  by_contra hst
  exact absurd h (not_lt.mpr (ratioAt_le_ratioAt ht (not_lt.mp hst) hs))

/-- `t` is the tick of `p`: the last one whose square-root price is at most `p`. -/
def IsTickOf (p : ℕ) (t : ℤ) : Prop :=
  (minTick ≤ t ∧ t < maxTick) ∧ ratioAt t ≤ p ∧ p < ratioAt (t + 1)

theorem exists_tick {p : ℕ} (h1 : minSqrtPrice ≤ p) (h2 : p < maxSqrtPrice) :
    ∃ t, IsTickOf p t := by
  obtain ⟨t, ⟨ht1, ht2, hle⟩, hmax⟩ := Int.exists_greatest_of_bdd
    (P := fun t => minTick ≤ t ∧ t < maxTick ∧ ratioAt t ≤ p)
    ⟨maxTick, fun z hz => hz.2.1.le⟩ ⟨minTick, le_refl _, by decide, ratioAt_minTick ▸ h1⟩
  refine ⟨t, ⟨ht1, ht2⟩, hle, ?_⟩
  by_contra hgt
  rcases (Int.add_one_le_of_lt ht2).lt_or_eq with h | h
  · have := hmax (t + 1) ⟨by omega, h, not_lt.mp hgt⟩
    omega
  · rw [h, ratioAt_maxTick] at hgt
    exact hgt h2

/-! ## The two candidates -/

/-- One doubling of the price is `ticksPerDoubling` ticks. -/
theorem abs_doubling_sub_le : |ticksPerDoubling * logTick - 2 ^ 64 * log 2| ≤ 2 ^ 33 := by
  obtain ⟨hT1, hT2⟩ := abs_le.mp abs_logTick_sub_le
  have h1 := log_two_gt_d9
  have h2 := log_two_lt_d9
  unfold ticksPerDoubling
  rw [abs_le]
  push_cast
  constructor <;> linarith

/-- The estimate and the logarithm it is computed from. -/
theorem abs_estimate_sub_le {p : ℕ} (h0 : 0 < p) (hp : p < 2 ^ 224) :
    |logPrice p * (ticksPerDoubling * logTick) - 2 ^ 64 * (logPrice p * log 2)| ≤ 2 ^ 104 := by
  obtain ⟨hl, hu⟩ := logPrice_spec h0 hp
  have hlog0 : 0 ≤ log (p : ℝ) := log_natCast_nonneg p
  have hlog1 : log (p : ℝ) ≤ 224 * log 2 := by
    have h1 : (p : ℝ) ≤ 2 ^ 224 := by exact_mod_cast hp.le
    have h2 := log_le_log (by exact_mod_cast h0) h1
    rw [log_pow] at h2
    exact_mod_cast h2
  have h1 := log_two_gt_d9
  have hL : |(logPrice p : ℝ)| ≤ 2 ^ 71 := by
    rw [abs_le]
    constructor <;> nlinarith
  have hmul := mul_le_mul hL abs_doubling_sub_le (abs_nonneg _) (by positivity)
  rw [← abs_mul] at hmul
  refine le_trans (le_of_eq ?_) (hmul.trans (by norm_num))
  congr 1
  ring

variable {p : ℕ} {t : ℤ}

theorem IsTickOf.pos (h : IsTickOf p t) : 0 < p :=
  lt_of_lt_of_le (ratioAt_pos h.1.1 h.1.2.le) h.2.1

theorem IsTickOf.lt_two_pow (h : IsTickOf p t) : p < 2 ^ 224 := by
  have h1 := h.2.2.trans_le (ratioAt_le_ratioAt (by have := h.1.1; omega)
    (Int.add_one_le_of_lt h.1.2) (le_refl _))
  rw [ratioAt_maxTick] at h1
  exact h1.trans (by decide)

/-- The logarithm of a price lies between those of its tick and of the next. -/
theorem IsTickOf.log_bounds (h : IsTickOf p t) :
    t * logTick - 1 / 2 ^ 28 ≤ log p - 96 * log 2 ∧
      log p - 96 * log 2 ≤ (t + 1) * logTick + 1 / 2 ^ 28 := by
  have h0 : (0 : ℝ) < p := by exact_mod_cast h.pos
  obtain ⟨⟨h1, h2⟩, hle, hlt⟩ := h
  have hr : (0 : ℝ) < ratioAt t := by exact_mod_cast ratioAt_pos h1 h2.le
  have hl := log_le_log hr (by exact_mod_cast hle : (ratioAt t : ℝ) ≤ p)
  have hu := log_le_log h0 (by exact_mod_cast hlt.le : (p : ℝ) ≤ ratioAt (t + 1))
  have hb1 := (abs_le.mp (abs_log_ratioAt_sub_le h1 h2.le)).1
  have hb2 := (abs_le.mp (abs_log_ratioAt_sub_le (by omega) (Int.add_one_le_of_lt h2))).2
  push_cast at hb2
  constructor <;> linarith

/-- The lower candidate is not above the tick. -/
theorem lowTick_le (h : IsTickOf p t) : lowTick p ≤ t := by
  obtain ⟨hl, -⟩ := logPrice_spec h.pos h.lt_two_pow
  obtain ⟨-, he⟩ := abs_le.mp (abs_estimate_sub_le h.pos h.lt_two_pow)
  obtain ⟨-, hu⟩ := h.log_bounds
  have hT := (abs_le.mp abs_logTick_sub_le).1
  have hlt : ((logPrice p * ticksPerDoubling - tickExcess : ℤ) : ℝ) * logTick <
      (((t + 1) * pow2 128 : ℤ) : ℝ) * logTick := by
    unfold tickExcess
    push_cast [cast_pow2]
    linarith
  have hlt' : logPrice p * ticksPerDoubling - tickExcess < (t + 1) * pow2 128 := by
    exact_mod_cast lt_of_mul_lt_mul_right hlt logTick_pos.le
  have := Int.ediv_lt_of_lt_mul (by exact_mod_cast pow2_pos 128) hlt'
  unfold lowTick
  omega

/-- The upper candidate is not below the tick. -/
theorem le_highTick (h : IsTickOf p t) : t ≤ highTick p := by
  obtain ⟨-, hu⟩ := logPrice_spec h.pos h.lt_two_pow
  obtain ⟨he, -⟩ := abs_le.mp (abs_estimate_sub_le h.pos h.lt_two_pow)
  obtain ⟨hl, -⟩ := h.log_bounds
  have hT := (abs_le.mp abs_logTick_sub_le).1
  have hlog2 := log_two_lt_d9
  have hle : ((t * pow2 128 : ℤ) : ℝ) * logTick ≤
      ((logPrice p * ticksPerDoubling + tickShortfall : ℤ) : ℝ) * logTick := by
    unfold tickShortfall
    push_cast [cast_pow2]
    linarith
  have hle' : t * pow2 128 ≤ logPrice p * ticksPerDoubling + tickShortfall := by
    exact_mod_cast le_of_mul_le_mul_right hle logTick_pos
  unfold highTick
  exact (Int.le_ediv_iff_mul_le (by exact_mod_cast pow2_pos 128)).mpr hle'

/-- The candidates are neighbours if they differ. -/
theorem highTick_le_lowTick_add_one (p : ℕ) : highTick p ≤ lowTick p + 1 := by
  have e : ((pow2 128 : ℕ) : ℤ) = 340282366920938463463374607431768211456 := by decide
  unfold highTick lowTick tickShortfall tickExcess
  rw [e]
  generalize logPrice p * ticksPerDoubling = x
  omega

/-! ## The choice between them -/

theorem IsTickOf.range (h : IsTickOf p t) : minSqrtPrice ≤ p ∧ p < maxSqrtPrice := by
  obtain ⟨⟨h1, h2⟩, hle, hlt⟩ := h
  exact ⟨(ratioAt_range h1 h2.le).1.trans hle,
    hlt.trans_le (ratioAt_range (by omega) (Int.add_one_le_of_lt h2)).2⟩

theorem tickAt_of_isTickOf (h : IsTickOf p t) : tickAt p = .ok t := by
  obtain ⟨hr1, hr2⟩ := h.range
  unfold tickAt
  rw [if_neg (by omega)]
  have hlow := lowTick_le h
  have hhigh := le_highTick h
  have hnear := highTick_le_lowTick_add_one p
  -- from here on the candidates are any two numbers around `t`
  generalize lowTick p = low at *
  generalize highTick p = high at *
  obtain ⟨⟨h1, h2⟩, hle, hlt⟩ := h
  by_cases heq : low = high
  · rw [if_pos heq, show low = t by omega]
  · have hprice : sqrtPriceAt high = .ok (ratioAt high) :=
      sqrtPriceAt_eq_ok_iff.mpr ⟨⟨by omega, by omega⟩, rfl⟩
    rw [if_neg heq, hprice, ok_bind]
    by_cases hreach : ratioAt high ≤ p
    · -- the upper candidate is in reach, so the tick is not below it
      have := lt_of_ratioAt_lt (s := high) (t := t + 1) (by omega) (by omega) (hreach.trans_lt hlt)
      rw [if_pos hreach, show high = t by omega]
    · have := lt_of_ratioAt_lt (s := t) (t := high) h2.le (by omega) (hle.trans_lt (not_le.mp hreach))
      rw [if_neg hreach, show low = t by omega]

theorem tickAt_of_not_range (h : p < minSqrtPrice ∨ maxSqrtPrice ≤ p) :
    tickAt p = .error (.state .priceOutOfBounds) := by
  unfold tickAt
  rw [if_pos h]

/-- **The answers of `tickAt`.** -/
theorem tickAt_eq_ok_iff : tickAt p = .ok t ↔ IsTickOf p t := by
  constructor
  · intro h
    have hr : ¬ (p < minSqrtPrice ∨ maxSqrtPrice ≤ p) := fun hr => by
      rw [tickAt_of_not_range hr] at h
      cases h
    obtain ⟨s, hs⟩ := exists_tick (p := p) (by omega) (by omega)
    rw [tickAt_of_isTickOf hs] at h
    cases h
    exact hs
  · exact tickAt_of_isTickOf

/-- **`tickAt` is the exact floor inverse of `sqrtPriceAt`.** A price of the range is at or above
the price of the tick it is given, and below the price of the next tick; the price of a tick is
given that tick; a price outside the range is refused. -/
theorem tickAt_isFloorInverse (p : ℕ) :
    (minSqrtPrice ≤ p ∧ p < maxSqrtPrice → ∃ t lower upper, tickAt p = .ok t ∧
      minTick ≤ t ∧ t < maxTick ∧ sqrtPriceAt t = .ok lower ∧ sqrtPriceAt (t + 1) = .ok upper ∧
      lower ≤ p ∧ p < upper) ∧
    (∀ t, minTick ≤ t ∧ t < maxTick → ∃ q, sqrtPriceAt t = .ok q ∧ tickAt q = .ok t) ∧
    (p < minSqrtPrice ∨ maxSqrtPrice ≤ p → tickAt p = .error (.state .priceOutOfBounds)) := by
  refine ⟨fun ⟨h1, h2⟩ => ?_, fun t ht => ?_, tickAt_of_not_range⟩
  · obtain ⟨t, ht⟩ := exists_tick h1 h2
    have htick := tickAt_of_isTickOf ht
    obtain ⟨⟨ht1, ht2⟩, hle, hlt⟩ := ht
    exact ⟨t, ratioAt t, ratioAt (t + 1), htick, ht1, ht2,
      sqrtPriceAt_eq_ok_iff.mpr ⟨⟨ht1, ht2.le⟩, rfl⟩,
      sqrtPriceAt_eq_ok_iff.mpr ⟨⟨by omega, Int.add_one_le_of_lt ht2⟩, rfl⟩, hle, hlt⟩
  · refine ⟨ratioAt t, sqrtPriceAt_eq_ok_iff.mpr ⟨⟨ht.1, ht.2.le⟩, rfl⟩, tickAt_of_isTickOf ?_⟩
    exact ⟨ht, le_refl _,
      ratioAt_lt_ratioAt ht.1 (Int.lt_succ t) (Int.add_one_le_of_lt ht.2)⟩

/-- One below the price of tick 0 the candidates differ and the lower one is the answer. -/
theorem tickAt_below_zero : (minSqrtPrice ≤ pow2 96 - 1 ∧ pow2 96 - 1 < maxSqrtPrice) ∧
    ∃ t lower upper, tickAt (pow2 96 - 1) = .ok t ∧ minTick ≤ t ∧ t < maxTick ∧
      sqrtPriceAt t = .ok lower ∧ sqrtPriceAt (t + 1) = .ok upper ∧
      lower ≤ pow2 96 - 1 ∧ pow2 96 - 1 < upper :=
  have h : minSqrtPrice ≤ pow2 96 - 1 ∧ pow2 96 - 1 < maxSqrtPrice := by decide
  ⟨h, (tickAt_isFloorInverse (pow2 96 - 1)).1 h⟩

end Clamm
