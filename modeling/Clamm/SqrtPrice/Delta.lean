import Clamm.Rounding

/-!
# Token amounts between two square-root prices

With liquidity `L`, moving the square-root price from `a` to `b` exchanges
`L * 2 ^ 96 * (b - a) / (a * b)` of token 0 and `L * (b - a) / 2 ^ 96` of token 1. The order of the
two prices does not matter.

What a pool is owed is rounded up and what it owes is rounded down: `signedDelta` applies that to a
signed change of liquidity.
-/

namespace Clamm

/-- The token 0 between the square-root prices `a` and `b` at liquidity `liquidity`. -/
def amount0Between (a b liquidity : Nat) (r : Rounding) : Except Error Nat := do
  let lower := min a b
  let upper := max a b
  if lower = 0 then .error (.state .zeroRatio)
  else
    let perLower ← mulDiv r (liquidity * pow2 96) (upper - lower) upper
    .ok (r.div perLower lower)

/-- The token 1 between the square-root prices `a` and `b` at liquidity `liquidity`. -/
def amount1Between (a b liquidity : Nat) (r : Rounding) : Except Error Nat :=
  mulDiv r liquidity (max a b - min a b) (pow2 96)

/-- The amount for a signed change of liquidity: adding owes the pool, rounded up and positive, and
removing is owed by it, rounded down and negative. The amount is read as a 256-bit signed word. -/
def signedDelta (change : Int) (between : Nat → Rounding → Except Error Nat) :
    Except Error Int := do
  if 0 ≤ change then
    return asInt256 (← between change.natAbs .ceil)
  else
    return -asInt256 (← between change.natAbs .floor)

/-- The signed token 0 for a signed change of liquidity between `a` and `b`. -/
def amount0Delta (a b : Nat) (change : Int) : Except Error Int :=
  signedDelta change (amount0Between a b)

/-- The signed token 1 for a signed change of liquidity between `a` and `b`. -/
def amount1Delta (a b : Nat) (change : Int) : Except Error Int :=
  signedDelta change (amount1Between a b)

end Clamm
