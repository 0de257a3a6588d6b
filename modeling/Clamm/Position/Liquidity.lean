import Clamm.Integer

/-!
# Liquidity that a budget can fund

`maxLiquidity` is the most liquidity that two token budgets can provide between two square-root
prices, when the pool's price is `current`. Below the range only token 0 counts, above it only
token 1, and inside it the smaller of the two.
-/

namespace Clamm

/-- How the liquidity of token 0 is computed. -/
inductive Precision where
  /-- One division of the full product. -/
  | full
  /-- The product of the two prices is cut to 96 fractional bits before the amount comes in. -/
  | staged
  deriving DecidableEq, Repr

/-- The liquidity that an amount of token 0 funds between `a` and `b`, where `a < b`. -/
def liquidityOf0 (a b amount0 : Nat) : Precision → Nat
  | .full => amount0 * a * b / (pow2 96 * (b - a))
  | .staged => amount0 * (a * b / pow2 96) / (b - a)

/-- The liquidity that an amount of token 1 funds between `a` and `b`, where `a < b`. -/
def liquidityOf1 (a b amount1 : Nat) : Nat := amount1 * pow2 96 / (b - a)

/-- The most liquidity that both budgets fund between `a` and `b`, given in either order. -/
def maxLiquidity (current a b amount0 amount1 : Nat) (precision : Precision) : Except Error Nat :=
  let lower := min a b
  let upper := max a b
  if a = b then .error (.arithmetic .divisionByZero)
  else if current ≤ lower then .ok (liquidityOf0 lower upper amount0 precision)
  else if current < upper then
    .ok (min (liquidityOf0 current upper amount0 precision) (liquidityOf1 lower current amount1))
  else .ok (liquidityOf1 lower upper amount1)

end Clamm
