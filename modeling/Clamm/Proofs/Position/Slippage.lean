import Mathlib
import Clamm.Position.Slippage
import Clamm.Proofs.Currency.Fraction
import Clamm.Proofs.Position.Funding
import Clamm.Proofs.Swap.Session

/-!
# The slippage band, and what closing a position yields in it

The price `P` of a pool is the square of its square-root price `p` over `2 ^ 192`, which the encoding
multiplies out again: a share `num / den` of `P` has the square-root price
`sqrt (p ^ 2 * num / den)`, with one floor before the root and one after. The two clamps make the
ends of the band a maximum and a minimum (`Position.slippageBand_eq`). In this form the band is seen
to hold the price, to lie strictly inside the grid, and to widen with the tolerance.

A pool can be made at every price inside the grid (`Position.exists_movedTo`), and the amounts of a
position are monotone in the price. So what closing it yields at the two ends is the least that it
yields in the band.

* `Position.lowEdge_le_lowEdge`, `Position.highEdge_le_highEdge`: a wider tolerance widens the band.
* `Position.lowEdge_le`, `Position.le_highEdge`: the price lies in the band.
* `Position.bandAmounts_spec`: the amounts of a band are those of the position at its ends.
* `Position.burnBound_safe`: closing a position anywhere in the band yields at least the bound.
-/

namespace Clamm

/-! ## Shares of a price -/

section Shares

variable {S a b c d : ℕ} {num : ℤ} {den : ℕ}

/-- The encoding takes the scale of a price out again. -/
theorem encodeUnbounded_share (S : ℕ) (hnum : 0 ≤ num) (hden : 0 < den) :
    encodeUnbounded (S * num) ((pow2 192 * den : ℕ) : ℤ) =
      .ok (Nat.sqrt (S * num.toNat / den)) := by
  obtain ⟨k, rfl⟩ := Int.eq_ofNat_of_zero_le hnum
  rw [← Nat.cast_mul, encodeUnbounded_natCast (Nat.mul_pos (pow2_pos 192) hden), Int.toNat_natCast,
    mul_comm (S * k), Nat.mul_div_mul_left _ _ (pow2_pos 192)]

/-- A smaller share of a number is not more of it. -/
theorem mul_div_le_mul_div (hd : 0 < d) (hb : 0 < b) (h : a * d ≤ c * b) (S : ℕ) :
    S * a / b ≤ S * c / d := by
  rw [Nat.le_div_iff_mul_le hd]
  refine le_of_mul_le_mul_right ?_ hb
  calc S * a / b * d * b = S * a / b * b * d := mul_right_comm _ _ _
    _ ≤ S * a * d := Nat.mul_le_mul_right _ (Nat.div_mul_le_self _ _)
    _ = S * (a * d) := mul_assoc _ _ _
    _ ≤ S * (c * b) := Nat.mul_le_mul_left _ h
    _ = S * c * b := (mul_assoc _ _ _).symm

theorem Fraction.one_sub (t : Fraction) :
    (Fraction.ofInt 1 - t).num = t.den - t.num ∧ (Fraction.ofInt 1 - t).den = t.den := by
  change (Fraction.sub _ _).num = _ ∧ (Fraction.sub _ _).den = _
  unfold Fraction.sub Fraction.ofInt
  split
  · rename_i h
    simp [← h]
  · simp

theorem Fraction.add_one (t : Fraction) :
    (t + Fraction.ofInt 1).num = t.num + t.den ∧ (t + Fraction.ofInt 1).den = t.den := by
  change (Fraction.add _ _).num = _ ∧ (Fraction.add _ _).den = _
  unfold Fraction.add Fraction.ofInt
  split
  · rename_i h
    simp [h]
  · simp

/-- What is at least a fraction that is not negative is not negative. -/
theorem Fraction.num_nonneg_of_le {t t' : Fraction} (ht : 0 ≤ t.num)
    (h : t.num * t'.den ≤ t'.num * t.den) : 0 ≤ t'.num := by
  refine nonneg_of_mul_nonneg_left ((mul_nonneg ht (Int.natCast_nonneg _)).trans h) ?_
  exact_mod_cast t.den_pos

end Shares

namespace Position

variable {p p' : Position} {t t' : Percent} {q q' l lo hi : ℕ} {r : Rounding}

/-! ## The band -/

/-- The lower end of the band: the price less the tolerance, above the lowest price. -/
def lowEdge (p : Position) (t : Percent) : ℕ :=
  max (minSqrtPrice + 1) (Nat.sqrt (p.pool.state.squaredPrice * (t.den - t.num).toNat / t.den))

/-- The upper end of the band: the price and the tolerance, below the highest price. -/
def highEdge (p : Position) (t : Percent) : ℕ :=
  min (maxSqrtPrice - 1) (Nat.sqrt (p.pool.state.squaredPrice * (t.num + t.den).toNat / t.den))

theorem sqrt_squaredPrice (p : Position) :
    Nat.sqrt p.pool.state.squaredPrice = p.pool.state.sqrtPrice :=
  Nat.sqrt_eq _

/-- A share of at most one leaves at most the price. -/
theorem sqrt_share_le (ht : 0 ≤ t.num) :
    Nat.sqrt (p.pool.state.squaredPrice * (t.den - t.num).toNat / t.den) ≤
      p.pool.state.sqrtPrice := by
  rw [← sqrt_squaredPrice]
  refine Nat.sqrt_le_sqrt (Nat.div_le_of_le_mul ?_)
  rw [mul_comm t.den]
  exact Nat.mul_le_mul_left _ (by omega)

/-- The price and a share of it are at least the price. -/
theorem le_sqrt_share (ht : 0 ≤ t.num) :
    p.pool.state.sqrtPrice ≤
      Nat.sqrt (p.pool.state.squaredPrice * (t.num + t.den).toNat / t.den) := by
  rw [← sqrt_squaredPrice]
  refine Nat.sqrt_le_sqrt ((Nat.le_div_iff_mul_le t.den_pos).mpr (Nat.mul_le_mul_left _ ?_))
  omega

theorem sqrtPrice_lt_pow2 (p : Position) : p.pool.state.sqrtPrice < pow2 256 :=
  p.pool.accepted.priced.2.trans_lt (pow2_lt (by omega))

theorem clampBelow_eq (ht : 0 ≤ t.num) :
    clampBelow (p.pool.price0.ratio * (Fraction.ofInt 1 - t)) = .ok (p.lowEdge t) := by
  obtain ⟨hnum, hden⟩ := Fraction.one_sub t
  have hn : (p.pool.price0.ratio * (Fraction.ofInt 1 - t)).num =
      p.pool.state.squaredPrice * (t.den - t.num : ℤ) := by rw [← hnum]; rfl
  have hd : (p.pool.price0.ratio * (Fraction.ofInt 1 - t)).den = pow2 192 * t.den := by
    rw [← hden]; rfl
  have hpos : (0 : ℤ) < p.pool.state.squaredPrice := by
    exact_mod_cast Nat.mul_pos p.pool.price_pos p.pool.price_pos
  unfold clampBelow Fraction.isNegative lowEdge
  rw [hn, hd]
  split
  · -- a tolerance of more than the whole price
    rename_i hneg
    have hneg' : (t.den - t.num : ℤ) < 0 := by
      by_contra hge
      have := mul_nonneg hpos.le (not_lt.mp hge)
      have := of_decide_eq_true hneg
      omega
    rw [Int.toNat_of_nonpos hneg'.le, mul_zero, Nat.zero_div, Nat.sqrt_zero,
      max_eq_left (Nat.zero_le _)]
    rfl
  · rename_i hneg
    have hnonneg : (0 : ℤ) ≤ t.den - t.num := by
      refine le_of_mul_le_mul_left ?_ hpos
      rw [mul_zero]
      exact not_lt.mp fun h => hneg (decide_eq_true h)
    rw [encodeUnbounded_share _ hnonneg t.den_pos, ok_bind]
    have hle := sqrt_share_le (p := p) ht
    generalize Nat.sqrt _ = root at hle
    split
    · rename_i hlow
      rw [max_eq_left (by omega)]
      rfl
    · rename_i hlow
      rw [max_eq_right (by omega)]
      exact toUnsigned_eq_ok_iff.mpr ⟨hle.trans_lt p.sqrtPrice_lt_pow2, rfl⟩

theorem clampAbove_eq (ht : 0 ≤ t.num) :
    clampAbove (p.pool.price0.ratio * (t + Fraction.ofInt 1)) = .ok (p.highEdge t) := by
  obtain ⟨hnum, hden⟩ := Fraction.add_one t
  have hn : (p.pool.price0.ratio * (t + Fraction.ofInt 1)).num =
      p.pool.state.squaredPrice * (t.num + t.den : ℤ) := by rw [← hnum]; rfl
  have hd : (p.pool.price0.ratio * (t + Fraction.ofInt 1)).den = pow2 192 * t.den := by
    rw [← hden]; rfl
  unfold clampAbove highEdge
  rw [hn, hd, encodeUnbounded_share _ (by omega) t.den_pos, ok_bind]
  generalize Nat.sqrt _ = root
  split
  · rename_i hhigh
    rw [min_eq_left (by omega)]
    rfl
  · rename_i hhigh
    rw [min_eq_right (by omega)]
    refine toUnsigned_eq_ok_iff.mpr ⟨(not_le.mp hhigh).trans ?_, rfl⟩
    decide

/-- **The band of a tolerance that is not negative.** -/
theorem slippageBand_eq (p : Position) (ht : 0 ≤ t.num) :
    p.slippageBand t = .ok (p.lowEdge t, p.highEdge t) := by
  have hsign : ¬ t.isNegative = true := fun h => absurd (of_decide_eq_true h) (not_lt.mpr ht)
  unfold slippageBand
  rw [if_neg hsign]
  dsimp only
  rw [clampBelow_eq ht, ok_bind, clampAbove_eq ht, ok_bind]
  rfl

/-! ## The band of a wider tolerance -/

theorem lowEdge_le_lowEdge (p : Position) (h : t.num * t'.den ≤ t'.num * t.den) :
    p.lowEdge t' ≤ p.lowEdge t := by
  refine max_le_max le_rfl (Nat.sqrt_le_sqrt (mul_div_le_mul_div t.den_pos t'.den_pos ?_ _))
  zify
  rw [Int.toNat_eq_max, Int.toNat_eq_max, max_mul_of_nonneg _ _ (Int.natCast_nonneg _),
    max_mul_of_nonneg _ _ (Int.natCast_nonneg _), zero_mul, zero_mul]
  exact max_le_max (by linarith) le_rfl

theorem highEdge_le_highEdge (p : Position) (ht : 0 ≤ t.num) (ht' : 0 ≤ t'.num)
    (h : t.num * t'.den ≤ t'.num * t.den) : p.highEdge t ≤ p.highEdge t' := by
  refine min_le_min le_rfl (Nat.sqrt_le_sqrt (mul_div_le_mul_div t'.den_pos t.den_pos ?_ _))
  zify
  rw [Int.toNat_of_nonneg (by omega), Int.toNat_of_nonneg (by omega)]
  linarith

theorem lowEdge_le (ht : 0 ≤ t.num) (hprice : minSqrtPrice < p.pool.state.sqrtPrice) :
    p.lowEdge t ≤ p.pool.state.sqrtPrice :=
  max_le hprice (sqrt_share_le ht)

theorem le_highEdge (ht : 0 ≤ t.num) (hprice : p.pool.state.sqrtPrice < maxSqrtPrice) :
    p.pool.state.sqrtPrice ≤ p.highEdge t :=
  le_min (Nat.le_sub_one_of_lt hprice) (le_sqrt_share ht)

/-! ## The position at the prices of the band -/

/-- The same range and liquidity in the pool in another state, with no ticks to read. -/
def emptied (p : Position) (s : PoolState) (hs : s.Accepted) (hl : l < pow2 128) : Position where
  pool := { p.pool.withState s hs with ticks := TickSource.none }
  lower := p.lower
  upper := p.upper
  liquidity := l
  liquidity_lt := hl
  lower_lt_upper := p.lower_lt_upper
  lower_mem := p.lower_mem
  upper_mem := p.upper_mem

/-- **The position can be moved to every price inside the grid.** -/
theorem exists_movedTo (p : Position) (hq : minSqrtPrice ≤ q) (hq' : q < maxSqrtPrice)
    (hl : l < pow2 128) : ∃ p', p.movedTo q l = .ok p' ∧ p.At q l p' := by
  obtain ⟨t, ht⟩ := exists_tick hq hq'
  have hs : (⟨q, 0, t⟩ : PoolState).Accepted := ⟨ht.1, ⟨ht.2.1, ht.2.2.le⟩, pow2_pos 128⟩
  have hpool : ({ p.pool with ticks := TickSource.none } : Pool).moveTo ⟨q, 0, t⟩ =
      .ok (p.emptied _ hs hl).pool :=
    Pool.moveTo_eq_ok_iff.mpr ⟨hs, rfl⟩
  have hmake : make (p.emptied _ hs hl).pool p.lower p.upper l = .ok (p.emptied _ hs hl) :=
    make_eq_ok_iff.mpr ⟨hl, p.lower_lt_upper, p.lower_mem, p.upper_mem, rfl, rfl, rfl, rfl⟩
  refine ⟨p.emptied _ hs hl, ?_, rfl, rfl, rfl, rfl⟩
  unfold Pool.moveTo at hpool
  unfold movedTo
  rw [tickAt_of_isTickOf ht, ok_bind]
  dsimp only at hpool ⊢
  rw [hpool, ok_bind]
  exact hmake

/-- **The amounts of a band**: token 0 of the position at its upper end, token 1 at its lower. -/
theorem bandAmounts_spec (p : Position) (hlo : minSqrtPrice ≤ lo) (hlo' : lo < maxSqrtPrice)
    (hhi : minSqrtPrice ≤ hi) (hhi' : hi < maxSqrtPrice) (hl : l < pow2 128) (r : Rounding) :
    ∃ low high m m', p.At lo l low ∧ p.At hi l high ∧
      low.amounts r = .ok m ∧ high.amounts r = .ok m' ∧
      p.bandAmounts (lo, hi) l r = .ok ⟨m'.amount0, m.amount1⟩ := by
  obtain ⟨low, hlow, hatlow⟩ := p.exists_movedTo hlo hlo' hl
  obtain ⟨high, hhigh, hathigh⟩ := p.exists_movedTo hhi hhi' hl
  obtain ⟨m, hm, -⟩ := low.amounts_total r
  obtain ⟨m', hm', -⟩ := high.amounts_total r
  refine ⟨low, high, m, m', hatlow, hathigh, hm, hm', ?_⟩
  unfold bandAmounts
  rw [hhigh, ok_bind, hm', ok_bind, hlow, ok_bind, hm, ok_bind]
  rfl

/-! ## Closing a position -/

theorem minSqrtPrice_le_lowEdge (p : Position) (t : Percent) : minSqrtPrice ≤ p.lowEdge t :=
  (Nat.le_succ _).trans (le_max_left _ _)

theorem highEdge_lt_maxSqrtPrice (p : Position) (t : Percent) : p.highEdge t < maxSqrtPrice :=
  (min_le_left _ _).trans_lt (by decide)

/-- The bound is made of what the position holds at the two ends of the band. -/
theorem burnBound_spec (ht : 0 ≤ t.num) (hlo : minSqrtPrice < p.pool.state.sqrtPrice)
    (hhi : p.pool.state.sqrtPrice < maxSqrtPrice) :
    ∃ low high m m', p.At (p.lowEdge t) p.liquidity low ∧ p.At (p.highEdge t) p.liquidity high ∧
      low.amounts .floor = .ok m ∧ high.amounts .floor = .ok m' ∧
      p.burnBound t = .ok ⟨m'.amount0, m.amount1⟩ := by
  have hlow := lowEdge_le ht hlo
  have hhigh := le_highEdge ht hhi
  have hmin := p.minSqrtPrice_le_lowEdge t
  have hmax := p.highEdge_lt_maxSqrtPrice t
  unfold burnBound
  rw [slippageBand_eq p ht, ok_bind]
  exact p.bandAmounts_spec hmin (hlow.trans_lt hhi) (hlo.le.trans hhigh) hmax p.liquidity_lt .floor

/-- **A bound on what closing yields is safe.** A position in a pool strictly inside the grid has a
band around the price for every tolerance, and a least amount of each token. At every price of the
band the position can be made, and closing it yields at least both. A wider tolerance promises no
more of either. -/
theorem burnBound_safe (p : Position) (hlo : minSqrtPrice < p.pool.state.sqrtPrice)
    (hhi : p.pool.state.sqrtPrice < maxSqrtPrice) (t : Percent) (ht : 0 ≤ t.num) :
    ∃ lo hi m, p.slippageBand t = .ok (lo, hi) ∧ p.burnBound t = .ok m ∧
      lo ≤ p.pool.state.sqrtPrice ∧ p.pool.state.sqrtPrice ≤ hi ∧
      (∀ q, lo ≤ q → q ≤ hi → (∃ p', p.movedTo q p.liquidity = .ok p' ∧ p.At q p.liquidity p') ∧
        ∀ p', p.At q p.liquidity p' → ∃ m', p'.amounts .floor = .ok m' ∧
          m.amount0 ≤ m'.amount0 ∧ m.amount1 ≤ m'.amount1) ∧
      ∀ t', (compare t t').isLE → ∃ m', p.burnBound t' = .ok m' ∧
        m'.amount0 ≤ m.amount0 ∧ m'.amount1 ≤ m.amount1 := by
  obtain ⟨low, high, m, m', hlow, hhigh, hm, hm', hbound⟩ := burnBound_spec ht hlo hhi
  refine ⟨_, _, _, slippageBand_eq p ht, hbound, lowEdge_le ht hlo, le_highEdge ht hhi, ?_, ?_⟩
  · intro q hq hq'
    have hmin := (p.minSqrtPrice_le_lowEdge t).trans hq
    have hmax := hq'.trans_lt (p.highEdge_lt_maxSqrtPrice t)
    refine ⟨p.exists_movedTo hmin hmax p.liquidity_lt, fun p' hp' => ?_⟩
    obtain ⟨a, ha, -⟩ := p'.amounts_total .floor
    exact ⟨a, ha, (hp'.amounts_le hhigh hq' ha hm').1, (hlow.amounts_le hp' hq hm ha).2⟩
  · intro t' hle
    have hle' := Fraction.isLE_compare_iff.mp hle
    have ht' : 0 ≤ t'.num := by
      refine nonneg_of_mul_nonneg_left ((mul_nonneg ht (Int.natCast_nonneg _)).trans hle') ?_
      exact_mod_cast t.den_pos
    obtain ⟨low', high', a, a', hlow', hhigh', ha, ha', hbound'⟩ := burnBound_spec ht' hlo hhi
    exact ⟨_, hbound', (hhigh.amounts_le hhigh' (p.highEdge_le_highEdge ht ht' hle') hm' ha').1,
      (hlow'.amounts_le hlow (p.lowEdge_le_lowEdge hle') ha hm).2⟩

/-- The inner of the two positions of the nested pool. -/
def nestedInner : Position :=
  ⟨nestedPool, -60, 60, 1000000, by decide, by decide, by decide, by decide⟩

/-- Closing it yields 2995 of each token, with a tolerance of a thousandth no less than 2495, and
with one of a hundredth, where the band is wider than the range, nothing at all. -/
theorem burnBound_safe_nested : nestedInner.amounts .floor = .ok ⟨2995, 2995⟩ ∧
    nestedInner.burnBound ⟨1, 1000, by decide⟩ = .ok ⟨2495, 2495⟩ ∧
    nestedInner.burnBound ⟨1, 100, by decide⟩ = .ok ⟨0, 0⟩ ∧
    ∀ q, 79188538524532033966444101902 ≤ q → q ≤ 79267766696949822951113378804 →
      ∀ p', nestedInner.At q 1000000 p' → ∃ m', p'.amounts .floor = .ok m' ∧
        2495 ≤ m'.amount0 ∧ 2495 ≤ m'.amount1 := by
  have hband : nestedInner.slippageBand ⟨1, 1000, by decide⟩ =
      .ok (79188538524532033966444101902, 79267766696949822951113378804) := by decide +kernel
  have hbound : nestedInner.burnBound ⟨1, 1000, by decide⟩ = .ok ⟨2495, 2495⟩ := by decide +kernel
  obtain ⟨lo, hi, m, hslip, hburn, -, -, hsafe, -⟩ := burnBound_safe nestedInner (by decide)
    (by decide) ⟨1, 1000, by decide⟩ (by decide)
  cases hslip.symm.trans hband
  cases hburn.symm.trans hbound
  exact ⟨by decide +kernel, hbound, by decide +kernel, fun q hq hq' => (hsafe q hq hq').2⟩

end Position

end Clamm
