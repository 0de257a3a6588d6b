import Clamm.Pool.Basic
import Clamm.Position.Liquidity
import Clamm.SqrtPrice.Delta

/-!
# Positions

A `Position` provides liquidity to a pool between two ticks. Which tokens it holds depends on where
the pool's price stands: token 0 above the price, token 1 below it. `Position.amounts` rounds down
for what the position is worth, and up for what it costs to open.

`Position.ofAmounts` opens the largest position that two budgets can fund.
-/

namespace Clamm

/-- Amounts of both tokens. -/
structure TokenAmounts where
  amount0 : Nat
  amount1 : Nat
  deriving DecidableEq, Repr

/-- Liquidity from tick `lower` to tick `upper` of a pool. -/
structure Position where
  pool : Pool
  lower : Int
  upper : Int
  liquidity : Nat
  liquidity_lt : liquidity < pow2 128
  lower_lt_upper : lower < upper
  lower_mem : minTick ≤ lower ∧ pool.spacing ∣ lower
  upper_mem : upper ≤ maxTick ∧ pool.spacing ∣ upper

namespace Position

/-- Accepts liquidity of 128 bits between two usable ticks of the pool. -/
def make (pool : Pool) (lower upper : Int) (liquidity : Nat) : Except Error Position :=
  if hl : liquidity < pow2 128 then
    if ho : lower < upper then
      if h0 : minTick ≤ lower ∧ pool.spacing ∣ lower then
        if h1 : upper ≤ maxTick ∧ pool.spacing ∣ upper then
          .ok ⟨pool, lower, upper, liquidity, hl, ho, h0, h1⟩
        else .error (.position .upperTick)
      else .error (.position .lowerTick)
    else .error (.position .tickOrder)
  else .error (.position .liquidityOverflow)

/-- The price of token 0 at the lower tick. -/
def lowerPrice (p : Position) : Except Error Price :=
  Price.ofTick p.pool.token0 p.pool.token1 p.lower

/-- The price of token 0 at the upper tick. -/
def upperPrice (p : Position) : Except Error Price :=
  Price.ofTick p.pool.token0 p.pool.token1 p.upper

/-- Both token amounts at the pool's price, rounded. -/
def amounts (p : Position) (r : Rounding) : Except Error TokenAmounts := do
  let low := ratioAt p.lower
  let high := ratioAt p.upper
  let current := p.pool.state
  if current.tick < p.lower then
    return ⟨← amount0Between low high p.liquidity r, 0⟩
  else if current.tick < p.upper then
    return ⟨← amount0Between current.sqrtPrice high p.liquidity r,
      ← amount1Between low current.sqrtPrice p.liquidity r⟩
  else
    return ⟨0, ← amount1Between low high p.liquidity r⟩

/-- The token 0 that the position is worth. -/
def amount0 (p : Position) : Except Error Amount := do
  Amount.ofInt p.pool.token0 (← p.amounts .floor).amount0

/-- The token 1 that the position is worth. -/
def amount1 (p : Position) : Except Error Amount := do
  Amount.ofInt p.pool.token1 (← p.amounts .floor).amount1

/-- What it costs to open the position. -/
def mintAmounts (p : Position) : Except Error TokenAmounts := p.amounts .ceil

/-- The largest position between two ticks that both budgets fund at the pool's price. -/
def ofAmounts (pool : Pool) (lower upper : Int) (amount0 amount1 : Nat) (precision : Precision) :
    Except Error Position := do
  let low ← sqrtPriceAt lower
  let high ← sqrtPriceAt upper
  make pool lower upper
    (← maxLiquidity pool.state.sqrtPrice low high amount0 amount1 precision)

/-- The largest position that a budget of token 0 funds, token 1 unlimited. -/
def ofAmount0 (pool : Pool) (lower upper : Int) (amount0 : Nat) (precision : Precision) :
    Except Error Position :=
  ofAmounts pool lower upper amount0 maxUInt256 precision

/-- The largest position that a budget of token 1 funds, token 0 unlimited. -/
def ofAmount1 (pool : Pool) (lower upper : Int) (amount1 : Nat) : Except Error Position :=
  ofAmounts pool lower upper maxUInt256 amount1 .full

end Position

end Clamm
