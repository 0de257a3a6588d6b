import Clamm.Currency.Amount
import Clamm.SqrtPrice.Encode
import Clamm.SqrtPrice.Grid

/-!
# Prices between two tokens

A `Price` is the fraction of the smallest quote unit that one smallest base unit is worth. Prices
compose along shared tokens, convert amounts, and lie on the tick grid: `Price.ofTick` is the price
of a tick, and `closestTick` the greatest tick whose price does not exceed a given one, compared in
the direction of the pair's order.
-/

namespace Clamm

/-- Units of `quote` per unit of `base`. -/
structure Price where
  base : Token
  quote : Token
  ratio : Fraction

namespace Price

/-- The price `num / den`. -/
def make (base quote : Token) (den num : Int) : Except Error Price := do
  return ⟨base, quote, ← Fraction.make num den⟩

/-- The price at which `base` trades for `quote`. -/
def ofAmounts (base quote : Amount) : Except Error Price := do
  return ⟨base.token, quote.token, ← quote.value.divide base.value⟩

/-- Turns units into whole tokens. -/
def scalar (p : Price) : Fraction :=
  ⟨Nat.pow 10 p.base.decimals, Nat.pow 10 p.quote.decimals, Nat.pow_pos (by decide)⟩

/-- The same tokens, the same rational and the same scale. -/
instance : BEq Price :=
  ⟨fun p q => p.base == q.base && p.quote == q.quote && p.ratio == q.ratio && p.scalar == q.scalar⟩

/-- The price of `quote` in `base`. -/
def invert (p : Price) : Except Error Price := do
  return ⟨p.quote, p.base, ← p.ratio.invert⟩

/-- The price of `p.base` in `q.quote`, through the token that both share. -/
def chain (p q : Price) : Except Error Price :=
  if p.quote == q.base then .ok ⟨p.base, q.quote, p.ratio * q.ratio⟩
  else .error (.currency .mismatch)

/-- An amount of the base token, in the quote token. -/
def convert (p : Price) (a : Amount) : Except Error Amount :=
  if a.token == p.base then Amount.make p.quote (p.ratio * a.value)
  else .error (.currency .mismatch)

/-- The price in whole tokens. -/
def adjusted (p : Price) : Fraction := p.ratio * p.scalar

/-- The price of `base` in `quote` at a tick of their pair. -/
def ofTick (base quote : Token) (tick : Int) : Except Error Price := do
  let p : Nat ← sqrtPriceAt tick
  if ← base.sortsBefore quote then make base quote (pow2 192) (p * p)
  else make base quote (p * p) (pow2 192)

/-- The greatest tick of the pair whose price does not exceed `p`, in the pair's direction. -/
def closestTick (p : Price) : Except Error Int := do
  let sorted ← p.base.sortsBefore p.quote
  let root ← if sorted then encode p.ratio.num p.ratio.den else encode p.ratio.den p.ratio.num
  let tick ← tickAt root
  let above ← ofTick p.base p.quote (tick + 1)
  let reached :=
    if sorted then (compare p.ratio above.ratio).isGE else (compare p.ratio above.ratio).isLE
  return if reached then tick + 1 else tick

end Price

end Clamm
