import Clamm.Pool.Swap

/-!
# Quotes

`Pool.outputFor` sells an amount of one token of a pool and gives the amount of the other token
received; `Pool.inputFor` buys an amount and gives the amount it costs. Both also give the pool as
the trade leaves it. A purchase that the pool cannot deliver in full is refused.
-/

namespace Clamm

namespace Pool

/-- The direction in which selling a token moves the price. -/
def selling (pool : Pool) (token : Token) : Direction :=
  if token == pool.token0 then .down else .up

/-- The direction in which buying a token moves the price. -/
def buying (pool : Pool) (token : Token) : Direction :=
  if token == pool.token1 then .down else .up

/-- The integer part of an amount as a signed 256-bit integer. -/
def wholeUnits (a : Amount) : Except Error Int :=
  match toInt256 a.quotient with
  | .ok units => .ok units
  | .error _ => .error (.pool .amountOutOfRange)

/-- Sells `amount`: what is received, and the pool afterwards. -/
def outputFor (pool : Pool) (amount : Amount) (limit : Option Nat) :
    Except Error (Amount × Pool) := do
  if pool.involves amount.token then
    let d := pool.selling amount.token
    let r ← pool.swap d (← wholeUnits amount) limit
    let received ←
      match d with
      | .down => Amount.ofInt pool.token1 (-r.amount1)
      | .up => Amount.ofInt pool.token0 (-r.amount0)
    return (received, ← pool.moveTo r.state)
  else .error (.pool .foreignToken)

/-- Buys `amount`: what it costs, and the pool afterwards. -/
def inputFor (pool : Pool) (amount : Amount) (limit : Option Nat) :
    Except Error (Amount × Pool) := do
  if pool.involves amount.token then
    let d := pool.buying amount.token
    let requested ← wholeUnits amount
    let r ← pool.swap d (-requested) limit
    let (token, cost, delivered) :=
      match d with
      | .down => (pool.token0, r.amount0, r.amount1)
      | .up => (pool.token1, r.amount1, r.amount0)
    if -delivered = requested then return (← Amount.ofInt token cost, ← pool.moveTo r.state)
    else .error (.state .insufficientReserves)
  else .error (.pool .foreignToken)

end Pool

end Clamm
