import Clamm.Pool.Fee
import Clamm.SqrtPrice.Move

/-!
# One step of a swap

Between two initialized ticks liquidity is constant. `step` trades from `current` toward `target`
with at most the amount that remains of the order, and says where the price ends and what is paid.

An order of a non-negative amount fixes the input, fee included; a negative one fixes the output.
The fee is `fee` pips of the input: a step that reaches its target charges
it on the input used, and a step that an input order ends short of the target keeps all that is
left of the order as fee.
-/

namespace Clamm

/-- Where a step ends, and what it takes in, pays out and charges. -/
structure Step where
  next : Nat
  amountIn : Nat
  amountOut : Nat
  fee : Nat
  deriving DecidableEq, Repr

/-- The input that moves the price between `a` and `b`, rounded up. -/
def inputBetween (d : Direction) (a b liquidity : Nat) : Except Error Nat :=
  match d with
  | .down => amount0Between a b liquidity .ceil
  | .up => amount1Between a b liquidity .ceil

/-- The output of moving the price between `a` and `b`, rounded down. -/
def outputBetween (d : Direction) (a b liquidity : Nat) : Except Error Nat :=
  match d with
  | .down => amount1Between a b liquidity .floor
  | .up => amount0Between a b liquidity .floor

/-- Whether an order of this amount fixes its input. -/
def fixesInput (amount : Int) : Bool := 0 ≤ amount

/-- The price a step reaches: the target if what remains of the order covers the way there. -/
def stepPrice (d : Direction) (current target liquidity : Nat) (remaining : Int) (fee : Nat) :
    Except Error Nat := do
  if fixesInput remaining then
    let budget ← mulDiv .floor remaining.natAbs (feeUnit - fee) feeUnit
    let needed ← inputBetween d current target liquidity
    if needed ≤ budget then .ok target else priceAfterInput d current liquidity budget
  else
    let available ← outputBetween d current target liquidity
    if available ≤ remaining.natAbs then .ok target
    else priceAfterOutput d current liquidity remaining.natAbs

/-- Trades from `current` toward `target`. The target lies below or at the current price for a
price that moves down. The remainder of an input order is a 256-bit difference. -/
def step (current target liquidity : Nat) (remaining : Int) (fee : Nat) : Except Error Step := do
  let d : Direction := if target ≤ current then .down else .up
  if feeUnit < fee then .error (.arithmetic .underflow)
  else
    let next ← stepPrice d current target liquidity remaining fee
    let amountIn ← inputBetween d current next liquidity
    let amountOut ← outputBetween d current next liquidity
    if fixesInput remaining then
      let charged ←
        if next = target then mulDiv .ceil amountIn fee (feeUnit - fee)
        else pure ((remaining.natAbs + pow2 256 - amountIn) % pow2 256)
      return ⟨next, amountIn, amountOut, charged⟩
    else
      let charged ← mulDiv .ceil amountIn fee (feeUnit - fee)
      return ⟨next, amountIn, min amountOut remaining.natAbs, charged⟩

/-- Liquidity after a signed change. It stays within 128 bits. -/
def addLiquidity (liquidity : Nat) (change : Int) : Except Error Nat :=
  if change < 0 then
    if liquidity < change.natAbs then .error (.arithmetic .underflow)
    else .ok (liquidity - change.natAbs)
  else toUnsigned 128 (liquidity + change.natAbs)

end Clamm
