import Clamm.Pool.Basic
import Clamm.SqrtPrice.Step

/-!
# Swaps

A swap trades an order against a pool until the order is filled or the price meets its limit. It
goes from tick to tick: each `advance` asks the source for the next grid point to stop at, trades
toward it at constant liquidity, and crosses it if the price gets there.

* An order of a non-negative amount fixes the input, a negative one the output.
* `Pool.swap` checks the limit, which lies between the current price and the end of the grid, and
  runs `advance`. No swap over a source that keeps its contract takes more steps than there are
  ticks, so that many are allowed.
* Amounts are signed as the pool sees them: what is paid in is positive.
-/

namespace Clamm

/-- What is to be traded: a direction, the fixed amount, and the square-root price to stop at. -/
structure Order where
  direction : Direction
  amount : Int
  limit : Nat
  deriving DecidableEq, Repr

/-- A swap on its way: what remains of the order, what the other side has come to so far, where the
pool stands, and the fees paid. -/
structure Progress where
  remaining : Int
  other : Int
  state : PoolState
  fees : Nat
  deriving DecidableEq, Repr

/-- What a swap comes to. -/
structure SwapOutcome where
  amount0 : Int
  amount1 : Int
  state : PoolState
  fees : Nat
  deriving DecidableEq, Repr

namespace Order

/-- The limit of an order that names none: the last price inside the grid. -/
def defaultLimit : Direction → Nat
  | .down => minSqrtPrice + 1
  | .up => maxSqrtPrice - 1

/-- Refuses a limit that is not strictly between the price and the end of the grid. -/
def checkLimit (o : Order) (sqrtPrice : Nat) : Except Error Unit :=
  match o.direction with
  | .down =>
    if o.limit ≤ minSqrtPrice then .error (.pool .limitTooLow)
    else if sqrtPrice ≤ o.limit then .error (.pool .limitTooHigh)
    else .ok ()
  | .up =>
    if maxSqrtPrice ≤ o.limit then .error (.pool .limitTooHigh)
    else if o.limit ≤ sqrtPrice then .error (.pool .limitTooLow)
    else .ok ()

/-- The price a step heads for: the next grid point, or the limit if that comes first. -/
def target (o : Order) (edge : Nat) : Nat :=
  match o.direction with
  | .down => max edge o.limit
  | .up => min edge o.limit

/-- Books what a step took in, fee included, and what it paid out. -/
def book (o : Order) (s : Progress) (paidIn paidOut : Int) : Int × Int :=
  if fixesInput o.amount then (s.remaining - paidIn, s.other - paidOut)
  else (s.remaining + paidOut, s.other + paidIn)

/-- Reads off the two signed amounts. -/
def settle (o : Order) (s : Progress) : SwapOutcome :=
  let used := o.amount - s.remaining
  if (o.direction == .down) = fixesInput o.amount then ⟨used, s.other, s.state, s.fees⟩
  else ⟨s.other, used, s.state, s.fees⟩

end Order

/-- The change of liquidity when a tick is crossed. -/
def Tick.crossed (t : Tick) : Direction → Except Error Int
  | .up => .ok t.net
  | .down => if t.net = -(pow2 127 : Int) then .error (.arithmetic .overflow) else .ok (-t.net)

/-- The tick a price belongs to once it has reached grid point `stop`. -/
def tickBeyond (stop : Int) : Direction → Int
  | .down => stop - 1
  | .up => stop

namespace Pool

/-- Where the pool stands once a step has moved its price to `price`, which is `edge` if the grid
point `stop` was reached. -/
def land (pool : Pool) (d : Direction) (s : PoolState) (stop : Int) (edge : Nat)
    (initialized : Bool) (price : Nat) : Except Error PoolState := do
  if price = edge then
    let liquidity ←
      if initialized then addLiquidity s.liquidity (← (← pool.ticks.find stop).crossed d)
      else pure s.liquidity
    return ⟨price, liquidity, tickBeyond stop d⟩
  else if price = s.sqrtPrice then return s
  else return ⟨price, s.liquidity, ← tickAt price⟩

/-- Trades toward the next grid point. -/
def advance (pool : Pool) (o : Order) (s : Progress) : Except Error Progress := do
  let (next, initialized) ← pool.ticks.next s.state.tick pool.spacing o.direction
  let stop := max minTick (min next maxTick)
  let edge ← sqrtPriceAt stop
  let taken ← step s.state.sqrtPrice (o.target edge) s.state.liquidity s.remaining pool.fee
  let paidIn ← toInt256 (taken.amountIn + taken.fee)
  let paidOut ← toInt256 taken.amountOut
  let (remaining, other) := o.book s paidIn paidOut
  let state ← pool.land o.direction s.state stop edge initialized taken.next
  return ⟨remaining, other, state, s.fees + taken.fee⟩

/-- The order is filled, or the price has met its limit. -/
def finished (o : Order) (s : Progress) : Bool := s.remaining == 0 || s.state.sqrtPrice == o.limit

/-- Advances until the order is finished, at most `steps` times. -/
def run (pool : Pool) (o : Order) : Nat → Progress → Except Error Progress
  | 0, s => if finished o s then .ok s else .error .stalled
  | steps + 1, s => do
    if finished o s then return s
    let s' ← pool.advance o s
    run pool o steps s'

/-- As many steps as there are ticks. -/
def maxSteps : Nat := (maxTick - minTick + 1).toNat

/-- An order before its first step. -/
def start (pool : Pool) (o : Order) : Progress := ⟨o.amount, 0, pool.state, 0⟩

/-- Trades `amount` in a direction, to the limit at most. -/
def swap (pool : Pool) (d : Direction) (amount : Int) (limit : Option Nat) :
    Except Error SwapOutcome := do
  let o : Order := ⟨d, amount, limit.getD (Order.defaultLimit d)⟩
  o.checkLimit pool.state.sqrtPrice
  return o.settle (← pool.run o maxSteps (pool.start o))

end Pool

end Clamm
