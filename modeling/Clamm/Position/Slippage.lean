import Clamm.Position.Basic

/-!
# Positions under slippage

A tolerance `t` allows the pool's price to move to anywhere between `price * (1 - t)` and
`price * (1 + t)` before a transaction lands. `Position.slippageBand` gives the square-root prices
of the two ends, kept strictly inside the grid. The most that opening a position may then cost, and
the least that closing it may yield, are token 0 at the upper end and token 1 at the lower end.
-/

namespace Clamm

namespace Position

/-- The square-root price of a price that is not negative, at least one above the lowest. -/
def clampBelow (price : Fraction) : Except Error Nat := do
  if price.isNegative then return minSqrtPrice + 1
  else
    let p ← encodeUnbounded price.num price.den
    if p ≤ minSqrtPrice then return minSqrtPrice + 1 else toUnsigned 256 p

/-- The square-root price of a price, at least one below the highest. -/
def clampAbove (price : Fraction) : Except Error Nat := do
  let p ← encodeUnbounded price.num price.den
  if maxSqrtPrice ≤ p then return maxSqrtPrice - 1 else toUnsigned 256 p

/-- The lowest and the highest square-root price that a tolerance allows. -/
def slippageBand (p : Position) (tolerance : Percent) : Except Error (Nat × Nat) := do
  if tolerance.isNegative then .error (.trade .negativeTolerance)
  else
    let price := p.pool.price0.ratio
    let low ← clampBelow (price * (Fraction.ofInt 1 - tolerance))
    let high ← clampAbove (price * (tolerance + Fraction.ofInt 1))
    return (low, high)

/-- A position of the same range in an otherwise empty pool at another price. -/
def movedTo (p : Position) (sqrtPrice liquidity : Nat) : Except Error Position := do
  let state : PoolState := ⟨sqrtPrice, 0, ← tickAt sqrtPrice⟩
  let pool ←
    Pool.make p.pool.token0 p.pool.token1 p.pool.fee p.pool.spacing state TickSource.none
  make pool p.lower p.upper liquidity

/-- Token 0 at the upper end of a band and token 1 at its lower end. -/
def bandAmounts (p : Position) (band : Nat × Nat) (liquidity : Nat) (r : Rounding) :
    Except Error TokenAmounts := do
  let atHigh ← (← p.movedTo band.2 liquidity).amounts r
  let atLow ← (← p.movedTo band.1 liquidity).amounts r
  return ⟨atHigh.amount0, atLow.amount1⟩

/-- The most that opening the position costs anywhere in the band. The liquidity is what the cost at
the current price funds. -/
def mintBound (p : Position) (tolerance : Percent) : Except Error TokenAmounts := do
  let band ← p.slippageBand tolerance
  let cost ← p.mintAmounts
  let minted ← ofAmounts p.pool p.lower p.upper cost.amount0 cost.amount1 .staged
  p.bandAmounts band minted.liquidity .ceil

/-- The least that closing the position yields anywhere in the band. -/
def burnBound (p : Position) (tolerance : Percent) : Except Error TokenAmounts := do
  let band ← p.slippageBand tolerance
  p.bandAmounts band p.liquidity .floor

end Position

end Clamm
