import Mathlib
import Clamm.Proofs.Position.Slippage

/-!
# When the slippage band is a band

Each end of the band is clamped on its own side: the lower one from below, the upper one from
above. The price lies between the two before they are clamped, so over a pool strictly inside the
grid nothing more is needed. A pool may stand on an end of the grid, though. There one clamp moves
an end past the price, and the other end stays where it is.

* `Position.lowEdge_of_bottom`, `Position.bottom_lt_highEdge_iff`: the band at the lowest price.
* `Position.highEdge_of_top`, `Position.lowEdge_lt_top_iff`: the band at the highest price.
* `Position.slippageBand_ordered_iff`: the ends always stay off the end of the grid that they are
  clamped to, and are in order everywhere but at a tolerance too narrow to leave an end of the grid.
-/

namespace Clamm

namespace Position

variable {p : Position} {t t' : Percent}

/-- A negative tolerance is refused. -/
theorem slippageBand_of_neg (p : Position) (ht : t.num < 0) :
    p.slippageBand t = .error (.trade .negativeTolerance) :=
  if_pos (decide_eq_true ht)

/-- A band is that of a tolerance that is not negative, between its two edges. -/
theorem slippageBand_eq_ok_iff {band : ℕ × ℕ} :
    p.slippageBand t = .ok band ↔ 0 ≤ t.num ∧ band = (p.lowEdge t, p.highEdge t) := by
  rcases lt_or_ge t.num 0 with ht | ht
  · simp [slippageBand_of_neg p ht, not_le.mpr ht]
  · simp [slippageBand_eq p ht, ht, eq_comm]

theorem minSqrtPrice_lt_lowEdge (p : Position) (t : Percent) : minSqrtPrice < p.lowEdge t :=
  Nat.lt_of_succ_le (le_max_left _ _)

/-! ## Pools on an end of the grid -/

/-- At the lowest price the clamp decides the lower end. -/
theorem lowEdge_of_bottom (ht : 0 ≤ t.num) (h : p.pool.state.sqrtPrice = minSqrtPrice) :
    p.lowEdge t = minSqrtPrice + 1 :=
  max_eq_left ((sqrt_share_le ht).trans (h.trans_le (Nat.le_succ _)))

/-- At the highest price the clamp decides the upper end. -/
theorem highEdge_of_top (ht : 0 ≤ t.num) (h : p.pool.state.sqrtPrice = maxSqrtPrice) :
    p.highEdge t = maxSqrtPrice - 1 :=
  min_eq_left ((Nat.sub_le _ 1).trans (h.symm.trans_le (le_sqrt_share ht)))

/-- The upper end leaves the lowest price with the first tolerance that reaches the next one. -/
theorem bottom_lt_highEdge_iff (ht : 0 ≤ t.num) (h : p.pool.state.sqrtPrice = minSqrtPrice) :
    minSqrtPrice < p.highEdge t ↔
      (minSqrtPrice + 1 : ℚ) ^ 2 ≤ (minSqrtPrice : ℚ) ^ 2 * (1 + t.toRat) := by
  obtain ⟨k, hk⟩ := Int.eq_ofNat_of_zero_le (show 0 ≤ t.num + t.den by omega)
  have hshare : 1 + t.toRat = k / t.den := by
    have hden := t.den_cast_ne
    have hk : (t.num + t.den : ℚ) = k := by exact_mod_cast hk
    unfold Fraction.toRat
    rw [← hk]
    field_simp
    ring
  have hroom : minSqrtPrice + 1 ≤ maxSqrtPrice - 1 := by decide
  unfold highEdge PoolState.squaredPrice
  rw [h, hk, Int.toNat_natCast, ← Nat.succ_le_iff, le_min_iff, and_iff_right hroom, Nat.le_sqrt,
    Nat.le_div_iff_mul_le t.den_pos, hshare, mul_div_assoc', le_div_iff₀ t.den_cast_pos, sq, sq]
  norm_cast

/-- The lower end leaves the highest price with every tolerance but zero. -/
theorem lowEdge_lt_top_iff (ht : 0 ≤ t.num) (h : p.pool.state.sqrtPrice = maxSqrtPrice) :
    p.lowEdge t < maxSqrtPrice ↔ 0 < t.num := by
  have hden := t.den_pos
  have hsquare : 0 < maxSqrtPrice * maxSqrtPrice := by decide
  have hroom : minSqrtPrice + 1 < maxSqrtPrice := by decide
  unfold lowEdge PoolState.squaredPrice
  rw [h, max_lt_iff, and_iff_right hroom, Nat.sqrt_lt, Nat.div_lt_iff_lt_mul hden,
    Nat.mul_lt_mul_left hsquare]
  omega

/-! ## The band -/

/-- **The band of a tolerance.** A negative tolerance is refused, and every other has a band. Its
lower end is above the lowest price of the grid and its upper end below the highest. The two are in
order, and so both strictly inside the grid, in every pool strictly inside the grid; at the lowest
price as soon as the tolerance reaches the next price above it, and at the highest price as soon as
it is not zero. A wider tolerance has no higher lower end and no lower upper end. -/
theorem slippageBand_ordered_iff (p : Position) (t : Percent) :
    (t.num < 0 → p.slippageBand t = .error (.trade .negativeTolerance)) ∧
    (0 ≤ t.num → ∃ lo hi, p.slippageBand t = .ok (lo, hi) ∧
      minSqrtPrice < lo ∧ hi < maxSqrtPrice ∧
      (lo ≤ hi ↔
        (p.pool.state.sqrtPrice = minSqrtPrice →
          (minSqrtPrice + 1 : ℚ) ^ 2 ≤ (minSqrtPrice : ℚ) ^ 2 * (1 + t.toRat)) ∧
        (p.pool.state.sqrtPrice = maxSqrtPrice → 0 < t.num)) ∧
      ∀ t', (compare t t').isLE → ∃ lo' hi', p.slippageBand t' = .ok (lo', hi') ∧
        lo' ≤ lo ∧ hi ≤ hi') := by
  refine ⟨p.slippageBand_of_neg, fun ht => ⟨_, _, slippageBand_eq p ht, p.minSqrtPrice_lt_lowEdge t,
    p.highEdge_lt_maxSqrtPrice t, ?_, ?_⟩⟩
  · -- a pool on an end of the grid, or the price between the two edges
    have hends : minSqrtPrice ≠ maxSqrtPrice := by decide
    obtain ⟨hmin, hmax⟩ := p.pool.accepted.range
    rcases hmin.eq_or_lt with hbottom | hmin
    · rw [lowEdge_of_bottom ht hbottom.symm, Nat.succ_le_iff,
        bottom_lt_highEdge_iff ht hbottom.symm]
      simp [← hbottom, hends]
    · rcases hmax.eq_or_lt with htop | hmax
      · rw [highEdge_of_top ht htop, Nat.le_sub_one_iff_lt (by decide), lowEdge_lt_top_iff ht htop]
        simp [htop, hends.symm]
      · simp [(lowEdge_le ht hmin).trans (le_highEdge ht hmax), hmin.ne', hmax.ne]
  · intro t' hle
    have hle' := Fraction.isLE_compare_iff.mp hle
    have ht' := Fraction.num_nonneg_of_le ht hle'
    exact ⟨_, _, slippageBand_eq p ht', p.lowEdge_le_lowEdge hle',
      p.highEdge_le_highEdge ht ht' hle'⟩

theorem nestedPool_bottom : (⟨minSqrtPrice, 0, minTick⟩ : PoolState).Accepted :=
  ⟨by decide, ⟨ratioAt_minTick.le, (ratioAt_range (by decide) (by decide)).1⟩, by decide⟩

theorem nestedPool_top : (⟨maxSqrtPrice, 0, maxTick - 1⟩ : PoolState).Accepted :=
  ⟨by decide, ⟨(ratioAt_range (by decide) (by decide)).2, ratioAt_maxTick.ge⟩, by decide⟩

/-- A position in a pool at the lowest price. -/
def bottomPosition : Position :=
  { nestedInner with pool := nestedPool.withState _ nestedPool_bottom }

/-- A position in a pool at the highest price. -/
def topPosition : Position :=
  { nestedInner with pool := nestedPool.withState _ nestedPool_top }

/-- At the lowest price a tolerance of a thousandth leaves a band in order, and a band around it to
every wider tolerance; a negative one is refused. -/
theorem slippageBand_ordered_iff_bottom :
    (∃ lo hi, bottomPosition.slippageBand ⟨1, 1000, by decide⟩ = .ok (lo, hi) ∧
      minSqrtPrice < lo ∧ lo ≤ hi ∧ hi < maxSqrtPrice ∧
      ∀ t', (compare (⟨1, 1000, by decide⟩ : Percent) t').isLE →
        ∃ lo' hi', bottomPosition.slippageBand t' = .ok (lo', hi') ∧ lo' ≤ lo ∧ hi ≤ hi') ∧
    bottomPosition.slippageBand ⟨-1, 1000, by decide⟩ = .error (.trade .negativeTolerance) := by
  obtain ⟨lo, hi, hslip, hlo, hhi, hordered, hwider⟩ :=
    (slippageBand_ordered_iff bottomPosition ⟨1, 1000, by decide⟩).2 (by decide)
  refine ⟨⟨lo, hi, hslip, hlo, hordered.mpr ⟨fun _ => ?_, fun _ => by decide⟩, hhi, hwider⟩,
    (slippageBand_ordered_iff bottomPosition ⟨-1, 1000, by decide⟩).1 (by decide)⟩
  norm_num [minSqrtPrice, Fraction.toRat]

/-- **Not every band is one**: at the highest price and with no tolerance its lower end is the
highest price itself, outside the grid and above its upper end. -/
theorem exists_band_outside :
    ¬ ∀ (p : Position) (t : Percent), 0 ≤ t.num → ∃ lo hi, p.slippageBand t = .ok (lo, hi) ∧
      minSqrtPrice < lo ∧ lo ≤ hi ∧ hi < maxSqrtPrice := by
  intro h
  obtain ⟨lo, hi, hslip, -, hle, hhi⟩ := h topPosition ⟨0, 1, by decide⟩ (by decide)
  obtain ⟨-, hedges⟩ := slippageBand_eq_ok_iff.mp hslip
  cases hedges
  exact absurd ((lowEdge_lt_top_iff (by decide) rfl).mp (hle.trans_lt hhi)) (by decide)

end Position

end Clamm
