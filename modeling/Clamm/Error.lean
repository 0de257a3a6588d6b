/-!
# Causes of failure

Every operation of the library that can fail returns `Except Error α`. An `Error` names the cause;
its wording is `Error.message`. The causes are grouped by what they are about, and each group's
wording opens with the group's name.

Two causes carry no wording of their own to report: `zeroDivisor`, the fault of dividing by a
divisor that the caller had to rule out, and `stalled`, the fault of a tick source that breaks its
contract and never lets a swap end.
-/

namespace Clamm

/-- Causes from plain arithmetic on bounded integers. -/
inductive ArithmeticError where
  | overflow
  | underflow
  | divisionByZero
  | invalidInput
  deriving DecidableEq, Repr

/-- The wording of an arithmetic cause. -/
def ArithmeticError.message : ArithmeticError → String
  | overflow => "Math error - overflow"
  | underflow => "Math error - underflow"
  | divisionByZero => "Math error - division by zero"
  | invalidInput => "Math error - invalid input"

/-- Causes from the state of a price curve: tick, square-root price, liquidity. -/
inductive StateError where
  | tickOutOfBounds
  | priceOutOfBounds
  | zeroPrice
  | zeroRatio
  | noLiquidity
  | insufficientReserves
  deriving DecidableEq, Repr

/-- The wording of a state cause. -/
def StateError.message : StateError → String
  | tickOutOfBounds => "State error - tick out of bounds"
  | priceOutOfBounds => "State error - sqrtPrice out of bounds"
  | zeroPrice => "State error - sqrtPrice is 0"
  | zeroRatio => "State error - sqrtRatio is 0"
  | noLiquidity => "State error - liquidity is 0"
  | insufficientReserves => "State error - requested amount exceeds pool reserves"

/-- Causes from tick tables and tick spacings. `missing` and `unflagged` name the tick. -/
inductive TickError where
  | zeroSpacing
  | misaligned
  | unbalanced
  | unsorted
  | missing (index : Int)
  | unflagged (index : Int)
  | belowSmallest
  | atOrAboveLargest
  | noData
  deriving DecidableEq, Repr

/-- The wording of a tick cause. -/
def TickError.message : TickError → String
  | zeroSpacing => "Tick error - tick spacing must be greater than 0"
  | misaligned => "Tick error - tick index is not a multiple of the tick spacing"
  | unbalanced => "Tick error - sum of liquidity net is not zero"
  | unsorted => "Tick error - ticks are not sorted by index"
  | missing index => "Tick error - tick " ++ toString index ++ " is not initialized"
  | unflagged index =>
    "Tick error - tick " ++ toString index ++ " is stored but not flagged in the bitmap"
  | belowSmallest => "Tick error - tick is below the smallest initialized tick"
  | atOrAboveLargest => "Tick error - tick is at or above the largest initialized tick"
  | noData => "Tick error - no tick data available"

/-- Causes from tokens and token amounts. -/
inductive CurrencyError where
  | differentChains
  | identicalAddresses
  | mismatch
  | amountTooLarge
  deriving DecidableEq, Repr

/-- The wording of a currency cause. -/
def CurrencyError.message : CurrencyError → String
  | differentChains => "Currency error - tokens are on different chains"
  | identicalAddresses => "Currency error - tokens have identical addresses"
  | mismatch => "Currency error - currencies do not match"
  | amountTooLarge => "Currency error - amount exceeds MaxUint256"

/-- Causes from building or trading against one pool. -/
inductive PoolError where
  | feeTooHigh
  | priceOutsideTick
  | foreignToken
  | limitTooLow
  | limitTooHigh
  | amountOutOfRange
  deriving DecidableEq, Repr

/-- The wording of a pool cause. -/
def PoolError.message : PoolError → String
  | feeTooHigh => "Pool error - fee must be below FEE_MAX"
  | priceOutsideTick => "Pool error - sqrtRatioX96 is outside the current tick"
  | foreignToken => "Pool error - token is not one of the pool tokens"
  | limitTooLow => "Pool error - sqrtPriceLimitX96 too low"
  | limitTooHigh => "Pool error - sqrtPriceLimitX96 too high"
  | amountOutOfRange => "Pool error - amount does not fit in int256"

/-- Causes from the range or the size of a liquidity position. -/
inductive PositionError where
  | tickOrder
  | lowerTick
  | upperTick
  | liquidityOverflow
  deriving DecidableEq, Repr

/-- The wording of a position cause. -/
def PositionError.message : PositionError → String
  | tickOrder => "Position error - tickLower must be below tickUpper"
  | lowerTick => "Position error - invalid tickLower"
  | upperTick => "Position error - invalid tickUpper"
  | liquidityOverflow => "Position error - liquidity does not fit in uint128"

/-- Causes from chaining pools into a route. -/
inductive RouteError where
  | noPools
  | mixedChains
  | foreignInput
  | foreignOutput
  | brokenPath
  deriving DecidableEq, Repr

/-- The wording of a route cause. -/
def RouteError.message : RouteError → String
  | noPools => "Route error - route has no pools"
  | mixedChains => "Route error - pools are not all on the same chain"
  | foreignInput => "Route error - input token is not in the first pool"
  | foreignOutput => "Route error - output token is not in the last pool"
  | brokenPath => "Route error - path is not continuous"

/-- Causes from assembling or bounding a trade. -/
inductive TradeError where
  | noLegs
  | severalRoutes
  | repeatedPool
  | inputMismatch
  | outputMismatch
  | negativeTolerance
  deriving DecidableEq, Repr

/-- The wording of a trade cause. -/
def TradeError.message : TradeError → String
  | noLegs => "Trade error - trade has no swaps"
  | severalRoutes => "Trade error - trade has more than one route"
  | repeatedPool => "Trade error - the same pool is used by more than one swap"
  | inputMismatch => "Trade error - swap input currency does not match the trade"
  | outputMismatch => "Trade error - swap output currency does not match the trade"
  | negativeTolerance => "Trade error - slippage tolerance must not be negative"

/-- Causes from the search for the best trades and its ranked list. -/
inductive SearchError where
  | noHops
  | zeroCapacity
  | overfull
  | noPools
  deriving DecidableEq, Repr

/-- The wording of a search cause. -/
def SearchError.message : SearchError → String
  | noHops => "Search error - max hops must be greater than 0"
  | zeroCapacity => "Search error - max size must be greater than 0"
  | overfull => "Search error - results buffer exceeds max size"
  | noPools => "Search error - no pools to search"

/-- Why an operation failed. -/
inductive Error where
  | arithmetic (cause : ArithmeticError)
  | state (cause : StateError)
  | tick (cause : TickError)
  | currency (cause : CurrencyError)
  | pool (cause : PoolError)
  | position (cause : PositionError)
  | route (cause : RouteError)
  | trade (cause : TradeError)
  | search (cause : SearchError)
  /-- No fee tier charges this many hundredths of a basis point. -/
  | unknownFee (pips : Nat)
  /-- A division whose divisor the caller had to keep from being zero. -/
  | zeroDivisor
  /-- A swap that took more steps than there are ticks. -/
  | stalled
  deriving DecidableEq, Repr

/-- The wording of a cause. -/
def Error.message : Error → String
  | arithmetic cause => cause.message
  | state cause => cause.message
  | tick cause => cause.message
  | currency cause => cause.message
  | pool cause => cause.message
  | position cause => cause.message
  | route cause => cause.message
  | trade cause => cause.message
  | search cause => cause.message
  | unknownFee pips => toString pips
  | zeroDivisor => "division by zero"
  | stalled => "the tick source does not advance"

section Bind

variable {α β : Type}

theorem ok_bind (a : α) (f : α → Except Error β) : (Except.ok a >>= f) = f a := rfl

/-- A chain of operations succeeds only through a value of its first one. -/
theorem bind_eq_ok_iff {x : Except Error α} {f : α → Except Error β} {b : β} :
    x >>= f = .ok b ↔ ∃ a, x = .ok a ∧ f a = .ok b := by
  cases x with
  | error e => simp [bind, Except.bind]
  | ok a => simp [ok_bind]

/-- A chain of operations fails with its first one, or with what follows the value of that. -/
theorem bind_eq_error_iff {x : Except Error α} {f : α → Except Error β} {e : Error} :
    x >>= f = .error e ↔ x = .error e ∨ ∃ a, x = .ok a ∧ f a = .error e := by
  cases x with
  | error e' => simp [bind, Except.bind]
  | ok a => simp [ok_bind]

/-- Of what follows an operation only the values that the operation has matter. -/
theorem bind_congr_ok {x : Except Error α} {f g : α → Except Error β}
    (h : ∀ a, x = .ok a → f a = g a) : x >>= f = x >>= g := by
  cases x with
  | error e => rfl
  | ok a => exact h a rfl

/-- An operation whose value is read off succeeds as it did. -/
theorem map_eq_ok_iff {x : Except Error α} {f : α → β} {b : β} :
    x.map f = .ok b ↔ ∃ a, x = .ok a ∧ f a = b := by
  cases x <;> simp [Except.map]

/-- An operation whose value is read off fails as it did. -/
theorem map_eq_error_iff {x : Except Error α} {f : α → β} {e : Error} :
    x.map f = .error e ↔ x = .error e := by
  cases x <;> simp [Except.map]

/-- Reading off what an operation gives and going on is going on and reading off what that gives. -/
theorem map_bind_eq_bind_map {γ δ : Type} {x : Except Error α} {f : α → γ} {g : α → Except Error β}
    {g' : γ → Except Error δ} {h : β → δ} (hstep : ∀ a, g' (f a) = (g a).map h) :
    x.map f >>= g' = (x >>= g).map h := by
  cases x with
  | error e => rfl
  | ok a => exact hstep a

/-- A computation behind a guard succeeds only where the guard holds. -/
theorem ite_error_eq_ok_iff {c : Prop} [Decidable c] {e : Error} {x : Except Error α} {a : α} :
    (if c then x else .error e) = .ok a ↔ c ∧ x = .ok a := by
  by_cases hc : c
  · simp [hc]
  · simp [hc]

/-- The same of a computation that uses the guard. -/
theorem dite_error_eq_ok_iff {c : Prop} [Decidable c] {e : Error} {x : c → Except Error α} {a : α} :
    (if h : c then x h else .error e) = .ok a ↔ ∃ h : c, x h = .ok a := by
  by_cases hc : c
  · simp [hc]
  · simp [hc]

end Bind

end Clamm
