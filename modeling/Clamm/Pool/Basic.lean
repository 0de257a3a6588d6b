import Clamm.Currency.Price
import Clamm.Pool.Address
import Clamm.Pool.Fee
import Clamm.Tick.Basic

/-!
# Pools

A `Pool` is a snapshot of a market in two tokens: their order, the fee, the tick spacing, where the
price stands and how much liquidity is in range there, and a source of ticks. `Pool.make` accepts a
snapshot whose price lies within its tick, the price of the next tick included.

A pool is never changed. Trading against it gives the state it would have afterwards, and
`Pool.moveTo` makes that state a pool again.
-/

namespace Clamm

/-- Where a pool stands: its square-root price, the liquidity in range, and its current tick. -/
structure PoolState where
  sqrtPrice : Nat
  liquidity : Nat
  tick : Int
  deriving DecidableEq, Repr

/-- The price with 192 fractional bits. -/
def PoolState.squaredPrice (s : PoolState) : Nat := s.sqrtPrice * s.sqrtPrice

/-- The price lies within the tick: at or above it, and at or below the next. -/
def PoolState.InTick (s : PoolState) : Prop :=
  ratioAt s.tick ≤ s.sqrtPrice ∧ s.sqrtPrice ≤ ratioAt (s.tick + 1)

instance (s : PoolState) : Decidable s.InTick := inferInstanceAs (Decidable (_ ∧ _))

/-- A market in two tokens. -/
structure Pool where
  token0 : Token
  token1 : Token
  /-- The fee in pips. -/
  fee : Nat
  /-- The distance between usable ticks. -/
  spacing : Int
  state : PoolState
  ticks : TickSource
  ordered : token0.Before token1
  fee_lt : fee < feeUnit
  spacing_pos : 0 < spacing
  tick_mem : minTick ≤ state.tick ∧ state.tick < maxTick
  price_mem : state.InTick
  price_pos : 0 < state.sqrtPrice
  liquidity_lt : state.liquidity < pow2 128

namespace Pool

/-- Accepts a snapshot of a pool of two tokens, given in either order. -/
def make (a b : Token) (fee : Nat) (spacing : Int) (state : PoolState) (ticks : TickSource) :
    Except Error Pool := do
  if hf : fee < feeUnit then
    if hs : 0 < spacing then
      if ht : minTick ≤ state.tick ∧ state.tick < maxTick then
        if hp : state.InTick then
          let ⟨(token0, token1), ho⟩ ← a.pair b
          if hz : 0 < state.sqrtPrice then
            if hl : state.liquidity < pow2 128 then
              return ⟨token0, token1, fee, spacing, state, ticks, ho, hf, hs, ht, hp, hz, hl⟩
            else .error (.arithmetic .overflow)
          else .error (.arithmetic .divisionByZero)
        else .error (.pool .priceOutsideTick)
      else .error (.state .tickOutOfBounds)
    else .error (.tick .zeroSpacing)
  else .error (.pool .feeTooHigh)

/-- Accepts a snapshot of a pool of a fee tier. -/
def ofTier (a b : Token) (tier : FeeTier) (state : PoolState) (ticks : TickSource) :
    Except Error Pool :=
  make a b tier.pips tier.spacing state ticks

/-- The same pool in another state. -/
def moveTo (pool : Pool) (state : PoolState) : Except Error Pool :=
  make pool.token0 pool.token1 pool.fee pool.spacing state pool.ticks

/-- The chain of both tokens. -/
def chain (pool : Pool) : Nat := pool.token0.chain

/-- The price of token 0 in token 1. -/
def price0 (pool : Pool) : Price :=
  ⟨pool.token0, pool.token1, pool.state.squaredPrice, pow2 192, pow2_pos 192⟩

/-- The price of token 1 in token 0. -/
def price1 (pool : Pool) : Price :=
  ⟨pool.token1, pool.token0, pow2 192, pool.state.squaredPrice,
    Nat.mul_pos pool.price_pos pool.price_pos⟩

/-- Whether a token is one of the pair. -/
def involves (pool : Pool) (token : Token) : Bool :=
  token == pool.token0 || token == pool.token1

/-- The price of a token in the other token of the pair, if it is one of them. -/
def priceOf? (pool : Pool) (token : Token) : Option Price :=
  if token == pool.token0 then some pool.price0
  else if token == pool.token1 then some pool.price1
  else none

/-- The price of one token of the pair in the other. -/
def priceOf (pool : Pool) (token : Token) : Except Error Price :=
  match pool.priceOf? token with
  | some price => .ok price
  | none => .error (.pool .foreignToken)

/-- The address of the pool under the default factory. -/
def address (pool : Pool) (initCodeHash : BitVec 256) : Address :=
  pairAddress defaultFactory pool.token0.address pool.token1.address pool.fee initCodeHash

end Pool

end Clamm
