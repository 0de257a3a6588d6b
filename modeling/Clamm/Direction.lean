/-!
# The two directions of a price

A swap moves the price of token 0 in token 1 one way along the tick grid. Selling token 0 moves it
`down` and selling token 1 moves it `up`. Looking for the next tick `down` includes the tick one
starts from; looking `up` does not.
-/

namespace Clamm

/-- Which way a price moves. -/
inductive Direction where
  | down
  | up
  deriving DecidableEq, Repr

end Clamm
