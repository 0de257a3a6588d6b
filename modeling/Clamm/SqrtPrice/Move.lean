import Clamm.Direction
import Clamm.SqrtPrice.Delta

/-!
# How far an amount moves the price

`priceAfterInput` and `priceAfterOutput` give the square-root price that a pool of constant
liquidity reaches when an amount of one token is paid in or out. Both round so that the pool never
loses: the price moves at most as far as an input pays for, and at least as far as an output needs.

* Token 0 moves the price from `p` to `L * p / (L ± amount * p)`, rounded up. When the denominator
  of an input does not fit in 256 bits, `L / (L / p + amount)` is used.
* Token 1 moves it from `p` to `p ± amount / L`, rounded down. A price must fit in 160 bits.
-/

namespace Clamm

/-- The square-root price after `amount` of token 0 is paid in. -/
def priceAddingToken0 (p liquidity amount : Nat) : Except Error Nat :=
  if amount = 0 then .ok p
  else
    let scaled := liquidity * pow2 96
    if scaled + amount * p < pow2 256 then mulDiv .ceil scaled p (scaled + amount * p)
    else do
      return Rounding.ceil.div scaled (← toUnsigned 256 (scaled / p + amount))

/-- The square-root price after `amount` of token 0 is paid out. -/
def priceRemovingToken0 (p liquidity amount : Nat) : Except Error Nat :=
  if amount = 0 then .ok p
  else
    let scaled := liquidity * pow2 96
    if amount * p < scaled then mulDiv .ceil scaled p (scaled - amount * p)
    else .error (.state .insufficientReserves)

/-- The price change of `amount` of token 1 at liquidity `liquidity`. Up to 160 bits the amount is
divided directly, which needs a non-zero liquidity. -/
def token1Move (r : Rounding) (liquidity amount : Nat) : Except Error Nat :=
  if pow2 160 ≤ amount then mulDiv r amount (pow2 96) liquidity
  else if liquidity = 0 then .error .zeroDivisor
  else .ok (r.div (amount * pow2 96) liquidity)

/-- The square-root price after `amount` of token 1 is paid in. -/
def priceAddingToken1 (p liquidity amount : Nat) : Except Error Nat := do
  toUnsigned 160 (p + (← token1Move .floor liquidity amount))

/-- The square-root price after `amount` of token 1 is paid out. -/
def priceRemovingToken1 (p liquidity amount : Nat) : Except Error Nat := do
  let move ← token1Move .ceil liquidity amount
  if p ≤ move then .error (.state .insufficientReserves) else toUnsigned 160 (p - move)

/-- Refuses a zero price, then zero liquidity. -/
def checkCurve (p liquidity : Nat) : Except Error Unit :=
  if p = 0 then .error (.state .zeroPrice)
  else if liquidity = 0 then .error (.state .noLiquidity)
  else .ok ()

/-- The square-root price after `amount` of the token that is sold is paid in. -/
def priceAfterInput (d : Direction) (p liquidity amount : Nat) : Except Error Nat := do
  checkCurve p liquidity
  match d with
  | .down => priceAddingToken0 p liquidity amount
  | .up => priceAddingToken1 p liquidity amount

/-- The square-root price after `amount` of the token that is bought is paid out. -/
def priceAfterOutput (d : Direction) (p liquidity amount : Nat) : Except Error Nat := do
  checkCurve p liquidity
  match d with
  | .down => priceRemovingToken1 p liquidity amount
  | .up => priceRemovingToken0 p liquidity amount

end Clamm
