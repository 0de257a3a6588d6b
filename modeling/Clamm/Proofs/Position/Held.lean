import Mathlib
import Clamm.Proofs.Position.Funding
import Clamm.Proofs.Swap.Quotes

/-!
# What a position holds

A position reads the tick of its pool to choose a formula for its amounts. What it holds depends on
the price alone: two pools at one price give the same amounts, whichever ticks they claim.

A price on the grid is where that matters. It closes one tick and opens the next, so a pool is
accepted there with either of them.

* `Position.At.amounts_eq`: the same range and liquidity at the same price, the same amounts.
* `Position.exists_amount0`, `Position.exists_amount1`: both amounts of a position fit its tokens.
* `PoolState.Accepted.retick`: on the grid a state is accepted with both ticks.
* `Position.held_by_price`: the amounts are those at the held price, and both ticks give them.
-/

namespace Clamm

/-- **At the price of a tick a state is accepted with that tick and with the one below.** -/
theorem PoolState.Accepted.retick {s : PoolState} {t u : ℤ} (hs : s.Accepted)
    (ht : sqrtPriceAt t = .ok s.sqrtPrice) (hu : u = t ∨ u = t - 1)
    (hmem : minTick ≤ u ∧ u < maxTick) : ({ s with tick := u } : PoolState).Accepted := by
  obtain ⟨⟨hlow, hhigh⟩, hprice⟩ := sqrtPriceAt_eq_ok_iff.mp ht
  refine ⟨hmem, ?_, hs.liquidity_lt⟩
  rcases hu with rfl | rfl
  · have habove := ratioAt_le_ratioAt hlow (Int.le_add_one le_rfl) (Int.add_one_le_of_lt hmem.2)
    exact ⟨hprice.ge, hprice.trans_le habove⟩
  · have hbelow := ratioAt_le_ratioAt hmem.1 (Int.sub_le_self t (by decide)) hhigh
    refine ⟨hbelow.trans_eq hprice.symm, ?_⟩
    dsimp only
    rw [Int.sub_add_cancel, hprice]

namespace Position

variable {p p' : Position} {m : TokenAmounts} {r : Rounding}

/-- **The amounts depend on the pool through its price alone.** -/
theorem At.amounts_eq (h : p.At p.pool.state.sqrtPrice p.liquidity p') (r : Rounding) :
    p'.amounts r = p.amounts r := by
  have hheld : p'.heldPrice = p.heldPrice := by
    unfold heldPrice
    rw [h.price, h.lower, h.upper]
  rw [Position.amounts_eq, Position.amounts_eq, hheld, h.lower, h.upper, h.liquidity]

/-- Both amounts fit in 256 bits. -/
theorem amounts_le (h : p.amounts r = .ok m) :
    (m.amount0 : ℤ) ≤ maxUInt256 ∧ (m.amount1 : ℤ) ≤ maxUInt256 := by
  obtain ⟨m', hm', h0, h1⟩ := p.amounts_total r
  cases h.symm.trans hm'
  obtain ⟨x, hx, hxle⟩ := amount0Between_total (r := r) p.priced_heldPrice p.priced_high
    (le_refl 32) p.liquidity_lt
  obtain ⟨y, hy, hyle⟩ := amount1Between_total (r := r) p.priced_low p.priced_heldPrice
    (le_refl 32) p.liquidity_lt
  cases h0.symm.trans hx
  cases h1.symm.trans hy
  have hbound : pow2 (224 - 32) ≤ maxUInt256 := by decide
  exact ⟨by exact_mod_cast hxle.trans hbound, by exact_mod_cast hyle.trans hbound⟩

/-- The token 0 of a position is the whole amount, rounded down. -/
theorem exists_amount0 (h : p.amounts .floor = .ok m) :
    ∃ x, p.amount0 = .ok x ∧ x.token = p.pool.token0 ∧ x.value = .ofInt m.amount0 := by
  obtain ⟨x, hx⟩ := Amount.exists_ofInt p.pool.token0 (amounts_le h).1
  refine ⟨x, ?_, Amount.make_eq_ok hx⟩
  unfold amount0
  rw [h, ok_bind, hx]

/-- The token 1 of a position is the whole amount, rounded down. -/
theorem exists_amount1 (h : p.amounts .floor = .ok m) :
    ∃ y, p.amount1 = .ok y ∧ y.token = p.pool.token1 ∧ y.value = .ofInt m.amount1 := by
  obtain ⟨y, hy⟩ := Amount.exists_ofInt p.pool.token1 (amounts_le h).2
  refine ⟨y, ?_, Amount.make_eq_ok hy⟩
  unfold amount1
  rw [h, ok_bind, hy]

/-- **The position can be moved to the other tick of its price**, and is the same there. -/
theorem exists_reticked (p : Position) {t u : ℤ}
    (ht : sqrtPriceAt t = .ok p.pool.state.sqrtPrice) (hu : u = t ∨ u = t - 1)
    (hmem : minTick ≤ u ∧ u < maxTick) :
    ∃ pool p', p.pool.moveTo { p.pool.state with tick := u } = .ok pool ∧
      make pool p.lower p.upper p.liquidity = .ok p' ∧
      pool.token0 = p.pool.token0 ∧ pool.token1 = p.pool.token1 ∧
      p.At p.pool.state.sqrtPrice p.liquidity p' := by
  have hs := p.pool.accepted.retick ht hu hmem
  refine ⟨p.pool.withState _ hs, ⟨p.pool.withState _ hs, p.lower, p.upper, p.liquidity,
    p.liquidity_lt, p.lower_lt_upper, p.lower_mem, p.upper_mem⟩,
    Pool.moveTo_eq_ok_iff.mpr ⟨hs, rfl⟩, ?_, rfl, rfl, rfl, rfl, rfl, rfl⟩
  exact make_eq_ok_iff.mpr ⟨p.liquidity_lt, p.lower_lt_upper, p.lower_mem, p.upper_mem,
    rfl, rfl, rfl, rfl⟩

/-- **What a position holds depends on the price alone.** With `c` the pool's price, moved to the
nearer of the prices `lo` and `hi` of its ticks from outside, a position is worth the token 0 from
`c` up to `hi` and the token 1 from `lo` up to `c`, rounded down, and it costs the same amounts
rounded up. Where the price is that of a tick, the pool is accepted with that tick and with the one
below, and the position over it is worth the same and costs the same with both. -/
theorem held_by_price (p : Position) :
    (∃ lo hi c, sqrtPriceAt p.lower = .ok lo ∧ sqrtPriceAt p.upper = .ok hi ∧
      c = max lo (min p.pool.state.sqrtPrice hi) ∧
      (∃ n x, amount0Between c hi p.liquidity .floor = .ok n ∧
        p.amount0 = .ok x ∧ x.token = p.pool.token0 ∧ x.value = .ofInt n) ∧
      (∃ n y, amount1Between lo c p.liquidity .floor = .ok n ∧
        p.amount1 = .ok y ∧ y.token = p.pool.token1 ∧ y.value = .ofInt n) ∧
      ∃ m, amount0Between c hi p.liquidity .ceil = .ok m.amount0 ∧
        amount1Between lo c p.liquidity .ceil = .ok m.amount1 ∧ p.mintAmounts = .ok m) ∧
    ∀ t u, sqrtPriceAt t = .ok p.pool.state.sqrtPrice → u = t ∨ u = t - 1 →
      minTick ≤ u ∧ u < maxTick →
      ∃ pool p', p.pool.moveTo { p.pool.state with tick := u } = .ok pool ∧
        make pool p.lower p.upper p.liquidity = .ok p' ∧
        p'.amount0 = p.amount0 ∧ p'.amount1 = p.amount1 ∧ p'.mintAmounts = p.mintAmounts := by
  constructor
  · obtain ⟨down, hdown, hdown0, hdown1⟩ := p.amounts_total .floor
    obtain ⟨up, hup, hup0, hup1⟩ := p.amounts_total .ceil
    obtain ⟨x, hx⟩ := exists_amount0 hdown
    obtain ⟨y, hy⟩ := exists_amount1 hdown
    exact ⟨_, _, p.heldPrice, p.sqrtPriceAt_lower, p.sqrtPriceAt_upper, rfl, ⟨_, x, hdown0, hx⟩,
      ⟨_, y, hdown1, hy⟩, up, hup0, hup1, hup⟩
  · intro t u ht hu hmem
    obtain ⟨pool, p', hmove, hmake, htoken0, htoken1, hat⟩ := p.exists_reticked ht hu hmem
    obtain ⟨-, -, -, -, hpool, -⟩ := make_eq_ok_iff.mp hmake
    refine ⟨pool, p', hmove, hmake, ?_, ?_, hat.amounts_eq .ceil⟩
    · unfold amount0
      rw [hat.amounts_eq, hpool, htoken0]
    · unfold amount1
      rw [hat.amounts_eq, hpool, htoken1]

/-- At the end of its range a position costs 6000 of token 1, on the tick below and on the tick. -/
theorem held_by_price_on_end :
    ∃ p pool p', make (nestedPool.withState _ nestedPool_on_end) (-60) 60 1000000 = .ok p ∧
      p.mintAmounts = .ok ⟨0, 6000⟩ ∧
      sqrtPriceAt 60 = .ok p.pool.state.sqrtPrice ∧
      p.pool.moveTo { p.pool.state with tick := 60 } = .ok pool ∧
      make pool (-60) 60 1000000 = .ok p' ∧
      p'.amount0 = p.amount0 ∧ p'.amount1 = p.amount1 ∧ p'.mintAmounts = .ok ⟨0, 6000⟩ := by
  let p : Position := ⟨nestedPool.withState _ nestedPool_on_end, -60, 60, 1000000, by decide,
    by decide, by decide, by decide⟩
  have hp : make p.pool (-60) 60 1000000 = .ok p :=
    make_eq_ok_iff.mpr ⟨by decide, by decide, by decide, by decide, rfl, rfl, rfl, rfl⟩
  have hprice : sqrtPriceAt 60 = .ok p.pool.state.sqrtPrice := by decide +kernel
  have hcost : p.mintAmounts = .ok ⟨0, 6000⟩ := by decide +kernel
  obtain ⟨pool, p', hmove, hmake, h0, h1, hmint⟩ :=
    p.held_by_price.2 60 60 hprice (.inl rfl) (by decide)
  exact ⟨p, pool, p', hp, hcost, hprice, hmove, hmake, h0, h1, hmint.trans hcost⟩

end Position

end Clamm
