import Mathlib
import Clamm.Proofs.Position.Amounts

/-!
# The largest position that two budgets fund

Liquidity comes from budgets by floors over products of any size, and the cost of a position from
its liquidity by ceilings over 256 bits. Both compare the same two products: a budget of token 0
covers the way from the held price to the upper end of the range, and a budget of token 1 the way
from the lower end to the held price. So the two are adjoint (`Position.costsWithin_iff`), on an end
of the range as well as inside it, and the liquidity of the budgets is the greatest that they fund.

* `le_maxLiquidity_iff`: the liquidity that two budgets fund, by cross-multiplication.
* `maxLiquidity_staged_le`: cutting the product of the prices first never gives more.
* `Position.costsWithin_iff`: a position costs at most two budgets exactly if they fund it.
* `Position.ofAmounts_largest`: `Position.ofAmounts` opens the largest position that they fund.
-/

namespace Clamm

/-! ## Liquidity of a budget -/

section Liquidity

variable {p a b x y L M : ℕ}

theorem le_liquidityOf0_iff (ha : a < b) :
    L ≤ liquidityOf0 a b x .full ↔ L * pow2 96 * (b - a) ≤ x * (a * b) := by
  unfold liquidityOf0
  rw [Nat.le_div_iff_mul_le (Nat.mul_pos (pow2_pos 96) (Nat.sub_pos_of_lt ha)), mul_assoc, mul_assoc]

theorem le_liquidityOf1_iff (ha : a < b) :
    L ≤ liquidityOf1 a b y ↔ L * (b - a) ≤ y * pow2 96 :=
  Nat.le_div_iff_mul_le (Nat.sub_pos_of_lt ha)

/-- Cutting the product of the prices first never gives more. -/
theorem liquidityOf0_staged_le (a b x : ℕ) :
    liquidityOf0 a b x .staged ≤ liquidityOf0 a b x .full := by
  unfold liquidityOf0
  rw [← Nat.div_div_eq_div_mul, mul_assoc x a b]
  exact Nat.div_le_div_right (Nat.mul_div_le_mul_div_assoc _ _ _)

/-- **The liquidity of two budgets is the most that both cover**, each on its side of the price,
which counts as the nearer of the two ends from outside. -/
theorem le_maxLiquidity_iff (ha : a < b) (h : maxLiquidity p a b x y .full = .ok M) :
    L ≤ M ↔ L * pow2 96 * (b - max a (min p b)) ≤ x * (max a (min p b) * b) ∧
      L * (max a (min p b) - a) ≤ y * pow2 96 := by
  unfold maxLiquidity at h
  simp only [min_eq_left ha.le, max_eq_right ha.le, if_neg ha.ne] at h
  split at h
  · rename_i hlow
    cases h
    rw [max_eq_left ((min_le_left p b).trans hlow), le_liquidityOf0_iff ha]
    simp
  · rename_i hlow
    split at h
    · rename_i hhigh
      cases h
      rw [min_eq_left hhigh.le, max_eq_right (not_le.mp hlow).le, le_min_iff,
        le_liquidityOf0_iff hhigh, le_liquidityOf1_iff (not_le.mp hlow)]
    · rename_i hhigh
      cases h
      rw [min_eq_right (not_lt.mp hhigh), max_eq_right ha.le, le_liquidityOf1_iff ha]
      simp

/-- Between two different ends there is a liquidity of either precision, and the staged one is not
the larger one. -/
theorem maxLiquidity_staged_le (p x y : ℕ) (ha : a < b) :
    ∃ M S, maxLiquidity p a b x y .full = .ok M ∧ maxLiquidity p a b x y .staged = .ok S ∧
      S ≤ M := by
  unfold maxLiquidity
  simp only [min_eq_left ha.le, max_eq_right ha.le, if_neg ha.ne]
  split
  · exact ⟨_, _, rfl, rfl, liquidityOf0_staged_le _ _ _⟩
  · split
    · exact ⟨_, _, rfl, rfl, min_le_min_right _ (liquidityOf0_staged_le _ _ _)⟩
    · exact ⟨_, _, rfl, rfl, le_rfl⟩

end Liquidity

namespace Position

/-- Opening the position costs at most the two budgets. -/
def CostsWithin (p : Position) (amount0 amount1 : ℕ) : Prop :=
  ∃ m, p.mintAmounts = .ok m ∧ m.amount0 ≤ amount0 ∧ m.amount1 ≤ amount1

variable {pool : Pool} {p q : Position} {lower upper : ℤ} {l M amount0 amount1 : ℕ}
  {precision : Precision}

/-! ## Ranges -/

/-- A position is accepted exactly of 128 bits of liquidity between two usable ticks in order. -/
theorem make_eq_ok_iff : make pool lower upper l = .ok p ↔
    l < pow2 128 ∧ lower < upper ∧ (minTick ≤ lower ∧ pool.spacing ∣ lower) ∧
      (upper ≤ maxTick ∧ pool.spacing ∣ upper) ∧
      p.pool = pool ∧ p.lower = lower ∧ p.upper = upper ∧ p.liquidity = l := by
  simp only [make, dite_error_eq_ok_iff]
  constructor
  · rintro ⟨hl, ho, h0, h1, h⟩
    cases h
    exact ⟨hl, ho, h0, h1, rfl, rfl, rfl, rfl⟩
  · rintro ⟨hl, ho, h0, h1, rfl, rfl, rfl, rfl⟩
    exact ⟨hl, ho, h0, h1, rfl⟩

theorem liquidity_of_make (h : make pool lower upper l = .ok p) : p.liquidity = l := by
  obtain ⟨-, -, -, -, -, -, -, hliquidity⟩ := make_eq_ok_iff.mp h
  exact hliquidity

/-- A range accepted once is accepted with every liquidity of 128 bits, and with no other. -/
theorem make_of_range (h : make pool lower upper l = .ok q) (hM : M < pow2 128) :
    ∃ p, make pool lower upper M = .ok p := by
  obtain ⟨-, ho, h0, h1, -⟩ := make_eq_ok_iff.mp h
  exact ⟨⟨pool, lower, upper, M, hM, ho, h0, h1⟩,
    make_eq_ok_iff.mpr ⟨hM, ho, h0, h1, rfl, rfl, rfl, rfl⟩⟩

theorem make_of_overflow (h : pow2 128 ≤ M) :
    make pool lower upper M = .error (.position .liquidityOverflow) :=
  dif_neg (not_lt.mpr h)

/-! ## Budgets and costs -/

/-- **A position costs at most two budgets exactly if they fund its liquidity.** -/
theorem costsWithin_iff
    (h : maxLiquidity p.pool.state.sqrtPrice (ratioAt p.lower) (ratioAt p.upper) amount0 amount1
      .full = .ok M) : p.CostsWithin amount0 amount1 ↔ p.liquidity ≤ M := by
  obtain ⟨m, hm, h0, h1⟩ := p.amounts_total .ceil
  have hcosts : p.CostsWithin amount0 amount1 ↔ m.amount0 ≤ amount0 ∧ m.amount1 ≤ amount1 := by
    constructor
    · rintro ⟨m', hm', hle⟩
      cases hm.symm.trans hm'
      exact hle
    · exact fun hle => ⟨m, hm, hle⟩
  rw [hcosts, amount0_ceil_le_iff p.heldPrice_le_high h0, amount1_ceil_le_iff p.low_le_heldPrice h1,
    le_maxLiquidity_iff p.low_lt_high h, ← heldPrice]

/-- A position that two budgets are to open is that of the liquidity that they fund. -/
theorem ofAmounts_eq (h : make pool lower upper l = .ok q)
    (hM : maxLiquidity pool.state.sqrtPrice (ratioAt lower) (ratioAt upper) amount0 amount1
      precision = .ok M) :
    ofAmounts pool lower upper amount0 amount1 precision = make pool lower upper M := by
  obtain ⟨-, -, -, -, -, rfl, rfl, -⟩ := make_eq_ok_iff.mp h
  unfold ofAmounts
  rw [q.sqrtPriceAt_lower, ok_bind, q.sqrtPriceAt_upper, ok_bind, hM, ok_bind]

/-- **Two budgets open the largest position that they fund.** Over every range that a pool accepts:
the position of full precision costs at most the two budgets, and no position over the range that
costs at most the two has more liquidity; there is none only if every liquidity of 128 bits costs at
most the two. The staged position costs at most the two as well, and has no more liquidity than
that of full precision; there is none only if that of full precision overflows too. -/
theorem ofAmounts_largest (hrange : make pool lower upper l = .ok q) (amount0 amount1 : ℕ) :
    (match ofAmounts pool lower upper amount0 amount1 .full with
      | .ok p => make pool lower upper p.liquidity = .ok p ∧ p.CostsWithin amount0 amount1 ∧
          ∀ l q, make pool lower upper l = .ok q → q.CostsWithin amount0 amount1 →
            l ≤ p.liquidity
      | .error e => e = .position .liquidityOverflow ∧ ∀ l, l < 2 ^ 128 →
          ∃ q, make pool lower upper l = .ok q ∧ q.CostsWithin amount0 amount1) ∧
      match ofAmounts pool lower upper amount0 amount1 .staged with
      | .ok s => make pool lower upper s.liquidity = .ok s ∧ s.CostsWithin amount0 amount1 ∧
          ∀ p, ofAmounts pool lower upper amount0 amount1 .full = .ok p →
            s.liquidity ≤ p.liquidity
      | .error e => e = .position .liquidityOverflow ∧
          ofAmounts pool lower upper amount0 amount1 .full = .error e := by
  obtain ⟨M, S, hM, hS, hSM⟩ := maxLiquidity_staged_le pool.state.sqrtPrice amount0 amount1
    q.low_lt_high
  obtain ⟨-, -, -, -, -, hlower, hupper, -⟩ := make_eq_ok_iff.mp hrange
  rw [hlower, hupper] at hM hS
  rw [ofAmounts_eq hrange hM, ofAmounts_eq hrange hS]
  -- every position over the range costs within the budgets exactly if they fund it
  have hfund : ∀ l q, make pool lower upper l = .ok q →
      (q.CostsWithin amount0 amount1 ↔ l ≤ M) := by
    intro l q hq
    obtain ⟨-, -, -, -, hpool, hlower, hupper, rfl⟩ := make_eq_ok_iff.mp hq
    exact costsWithin_iff (hpool ▸ hlower ▸ hupper ▸ hM)
  constructor
  · rcases lt_or_ge M (pow2 128) with hlt | hge
    · obtain ⟨p, hp⟩ := make_of_range hrange hlt
      have hliquidity := liquidity_of_make hp
      rw [hp]
      refine ⟨hliquidity ▸ hp, (hfund M p hp).mpr le_rfl, fun l q hq hcosts => ?_⟩
      rw [hliquidity]
      exact (hfund l q hq).mp hcosts
    · rw [make_of_overflow hge]
      refine ⟨rfl, fun l hl => ?_⟩
      obtain ⟨q, hq⟩ := make_of_range hrange hl
      exact ⟨q, hq, (hfund l q hq).mpr (hl.le.trans hge)⟩
  · rcases lt_or_ge S (pow2 128) with hlt | hge
    · obtain ⟨s, hs⟩ := make_of_range hrange hlt
      have hliquidity := liquidity_of_make hs
      rw [hs]
      refine ⟨hliquidity ▸ hs, (hfund S s hs).mpr hSM, fun p hp => ?_⟩
      rw [hliquidity, liquidity_of_make hp]
      exact hSM
    · rw [make_of_overflow hge, make_of_overflow (hge.trans hSM)]
      exact ⟨rfl, rfl⟩

/-- The pool of the two nested positions when the price has come up to the end of the inner one. -/
theorem nestedPool_on_end : (⟨79466191966197645195421774833, 1500000, 59⟩ : PoolState).Accepted :=
  ⟨by decide, by unfold PoolState.InTick ratioAt; decide, by decide⟩

/-- On the upper end of the range, with the tick still below it, 1000 of token 1 fund 166674. -/
theorem ofAmounts_largest_on_end :
    ∃ q p, make (nestedPool.withState _ nestedPool_on_end) (-60) 60 0 = .ok q ∧
      ofAmounts (nestedPool.withState _ nestedPool_on_end) (-60) 60 0 1000 .full = .ok p ∧
      p.liquidity = 166674 ∧ p.CostsWithin 0 1000 ∧
      ∀ l q, make (nestedPool.withState _ nestedPool_on_end) (-60) 60 l = .ok q →
        q.CostsWithin 0 1000 → l ≤ 166674 := by
  obtain ⟨q, hq⟩ : ∃ q, make (nestedPool.withState _ nestedPool_on_end) (-60) 60 0 = .ok q :=
    ⟨⟨_, -60, 60, 0, by decide, by decide, by decide, by decide⟩,
      make_eq_ok_iff.mpr ⟨by decide, by decide, by decide, by decide, rfl, rfl, rfl, rfl⟩⟩
  obtain ⟨p, hp⟩ := make_of_range (M := 166674) hq (by decide)
  have hliquidity := liquidity_of_make hp
  have hM : maxLiquidity 79466191966197645195421774833 (ratioAt (-60)) (ratioAt 60) 0 1000 .full =
      .ok 166674 := by decide +kernel
  have hfull := (ofAmounts_eq hq hM).trans hp
  have hlargest := (ofAmounts_largest hq 0 1000).1
  rw [hfull] at hlargest
  exact ⟨q, p, hq, hfull, hliquidity, hlargest.2.1, hliquidity ▸ hlargest.2.2⟩

end Position

end Clamm
