import Clamm.SqrtPrice.Step
import Clamm.Word.Division

/-!
# One step of a swap on words

Amounts, price moves and one step of a swap, computed on words: prices and amounts have 256 bits,
liquidity has 128 and the fee 32. What is left of an order is a word in two's complement, and so are
the amounts for a change of liquidity, which is itself 128 bits in two's complement. Sums and
products that may not fit are checked; all others wrap.

A step computes the amount on the fixed side of its order once for the whole way to the target. That
amount decides whether the target is reached, and is the amount of the step if it is.
-/

namespace Clamm.Word

/-- Liquidity of at most 128 bits. -/
abbrev Liquidity := BitVec 128

/-- Accepts a price of at most 160 bits. -/
def fitPrice (p : Word) : Except Error Word :=
  if p < 1 <<< 160 then .ok p else .error (.arithmetic .overflow)

/-- Accepts a checked result. -/
def orOverflow : Option Word → Except Error Word
  | some x => .ok x
  | none => .error (.arithmetic .overflow)

namespace Liquidity

/-- The liquidity as a word. -/
def widen (L : Liquidity) : Word := L.setWidth 256

/-- The liquidity with 96 fractional bits. -/
def scaled (L : Liquidity) : Word := L.widen <<< 96

end Liquidity

/-! ## Amounts -/

/-- The token 0 between two square-root prices. -/
def amount0Between (a b : Word) (L : Liquidity) (r : Rounding) : Except Error Word := do
  let lower := if b < a then b else a
  let upper := if b < a then a else b
  if lower = 0 then .error (.state .zeroRatio)
  else divide r (← mulDiv r L.scaled (upper - lower) upper) lower

/-- The token 1 between two square-root prices. -/
def amount1Between (a b : Word) (L : Liquidity) (r : Rounding) : Except Error Word :=
  let lower := if b < a then b else a
  let upper := if b < a then a else b
  mulDiv r L.widen (upper - lower) (1 <<< 96)

/-- The amount for a signed change of liquidity, as a word in two's complement: adding owes the pool,
rounded up, and removing is owed by it, rounded down and negated. -/
def signedDelta (change : Liquidity) (between : Liquidity → Rounding → Except Error Word) :
    Except Error Word := do
  if change.msb then return -(← between change.abs .floor) else between change .ceil

/-- The signed token 0 for a signed change of liquidity between `a` and `b`. -/
def amount0Delta (a b : Word) (change : Liquidity) : Except Error Word :=
  signedDelta change (amount0Between a b)

/-- The signed token 1 for a signed change of liquidity between `a` and `b`. -/
def amount1Delta (a b : Word) (change : Liquidity) : Except Error Word :=
  signedDelta change (amount1Between a b)

/-- The input that moves the price between `a` and `b`, rounded up. -/
def inputBetween (d : Direction) (a b : Word) (L : Liquidity) : Except Error Word :=
  match d with
  | .down => amount0Between a b L .ceil
  | .up => amount1Between a b L .ceil

/-- The output of moving the price between `a` and `b`, rounded down. -/
def outputBetween (d : Direction) (a b : Word) (L : Liquidity) : Except Error Word :=
  match d with
  | .down => amount1Between a b L .floor
  | .up => amount0Between a b L .floor

/-! ## Price moves -/

/-- The square-root price after `amount` of token 0 is paid in. -/
def priceAddingToken0 (p : Word) (L : Liquidity) (amount : Word) : Except Error Word :=
  if amount = 0 then .ok p
  else
    match (checkedMul amount p).bind (checkedAdd L.scaled) with
    | some denominator => mulDiv .ceil L.scaled p denominator
    | none => do
      let whole ← divide .floor L.scaled p
      divide .ceil L.scaled (← orOverflow (checkedAdd whole amount))

/-- The square-root price after `amount` of token 0 is paid out. -/
def priceRemovingToken0 (p : Word) (L : Liquidity) (amount : Word) : Except Error Word :=
  if amount = 0 then .ok p
  else
    match checkedMul amount p with
    | some product =>
      if product < L.scaled then mulDiv .ceil L.scaled p (L.scaled - product)
      else .error (.state .insufficientReserves)
    | none => .error (.state .insufficientReserves)

/-- The price change of `amount` of token 1. -/
def token1Move (r : Rounding) (L : Liquidity) (amount : Word) : Except Error Word :=
  if amount < 1 <<< 160 then divide r (amount <<< 96) L.widen
  else mulDiv r amount (1 <<< 96) L.widen

/-- The square-root price after `amount` of token 1 is paid in. -/
def priceAddingToken1 (p : Word) (L : Liquidity) (amount : Word) : Except Error Word := do
  fitPrice (← orOverflow (checkedAdd p (← token1Move .floor L amount)))

/-- The square-root price after `amount` of token 1 is paid out. -/
def priceRemovingToken1 (p : Word) (L : Liquidity) (amount : Word) : Except Error Word := do
  let move ← token1Move .ceil L amount
  if p ≤ move then .error (.state .insufficientReserves) else fitPrice (p - move)

/-- Refuses a zero price, then zero liquidity. -/
def checkCurve (p : Word) (L : Liquidity) : Except Error Unit :=
  if p = 0 then .error (.state .zeroPrice)
  else if L = 0 then .error (.state .noLiquidity)
  else .ok ()

/-- The square-root price after `amount` of the token that is sold is paid in. -/
def priceAfterInput (d : Direction) (p : Word) (L : Liquidity) (amount : Word) :
    Except Error Word := do
  checkCurve p L
  match d with
  | .down => priceAddingToken0 p L amount
  | .up => priceAddingToken1 p L amount

/-- The square-root price after `amount` of the token that is bought is paid out. -/
def priceAfterOutput (d : Direction) (p : Word) (L : Liquidity) (amount : Word) :
    Except Error Word := do
  checkCurve p L
  match d with
  | .down => priceRemovingToken1 p L amount
  | .up => priceRemovingToken0 p L amount

/-! ## Steps -/

/-- Where a step ends, and what it takes in, pays out and charges. -/
structure Step where
  next : Word
  amountIn : Word
  amountOut : Word
  fee : Word
  deriving DecidableEq, Repr

/-- One whole in pips. -/
def unit : Word := BitVec.ofNat 256 feeUnit

/-- What remains of an order, without its sign. -/
def magnitude (remaining : Word) : Word := if remaining.msb then -remaining else remaining

/-- Spends an input of at most `order`, fee included. -/
def stepInput (d : Direction) (current target : Word) (L : Liquidity) (order fee : Word) :
    Except Error Step := do
  let budget ← mulDiv .floor order (unit - fee) unit
  let whole ← inputBetween d current target L
  let next ← (if whole ≤ budget then pure target else priceAfterInput d current L budget)
  let amountIn ← (if next = target then pure whole else inputBetween d current next L)
  let amountOut ← outputBetween d current next L
  let charged ←
    (if next = target then mulDiv .ceil amountIn fee (unit - fee) else pure (order - amountIn))
  return ⟨next, amountIn, amountOut, charged⟩

/-- Takes out at most `order`. -/
def stepOutput (d : Direction) (current target : Word) (L : Liquidity) (order fee : Word) :
    Except Error Step := do
  let whole ← outputBetween d current target L
  let next ← (if whole ≤ order then pure target else priceAfterOutput d current L order)
  let amountIn ← inputBetween d current next L
  let amountOut ← (if next = target then pure whole else outputBetween d current next L)
  let charged ← mulDiv .ceil amountIn fee (unit - fee)
  return ⟨next, amountIn, if order < amountOut then order else amountOut, charged⟩

/-- Trades from `current` toward `target`, for an order of input or, if what remains of it is
negative, of output. -/
def step (current target : Word) (L : Liquidity) (remaining : Word) (fee : BitVec 32) :
    Except Error Step :=
  let d : Direction := if target ≤ current then .down else .up
  if unit < fee.setWidth 256 then .error (.arithmetic .underflow)
  else if remaining.msb then
    stepOutput d current target L (magnitude remaining) (fee.setWidth 256)
  else stepInput d current target L (magnitude remaining) (fee.setWidth 256)

end Clamm.Word
