import Clamm.Trade.Basic
import Clamm.Trade.Ranking

/-!
# The best trades over a set of pools

`BestTrades.search` tries every route between two tokens that uses each pool at most once and at
most a given number of pools, and returns the best trades, ranked by `Trade.rank`.

The search starts from the token of the fixed amount and quotes one pool at a time, in the order in
which the pools are given: forward for a fixed input, backward for a fixed output. A path ends as
soon as it meets the other token. A pool that cannot fill a quote is passed over; every other
failure ends the search.
-/

namespace Clamm

/-- What to search for: the fixed amount, the token on the other side, and how many trades to
keep. -/
structure BestTrades where
  kind : TradeKind
  pools : List Pool
  fixed : Amount
  target : Token
  capacity : Nat

namespace BestTrades

/-- A pool and its place in the list of pools. -/
abbrev Hop := Pool × Nat

/-- The other amount of a trade against one pool. -/
def quote (q : BestTrades) (pool : Pool) (amount : Amount) : Except Error Amount := do
  match q.kind with
  | .exactInput => return (← pool.outputFor amount none).1
  | .exactOutput => return (← pool.inputFor amount none).1

/-- The pool lacks the liquidity to fill a quote. -/
def skips : Error → Bool
  | .state .insufficientReserves => true
  | .state .noLiquidity => true
  | _ => false

/-- A path with one more pool at its open end. -/
def extend (q : BestTrades) (path : List Hop) (hop : Hop) : List Hop :=
  match q.kind with
  | .exactInput => path ++ [hop]
  | .exactOutput => hop :: path

/-- Whether a pool may extend a path whose open end holds `token`. -/
def usable (path : List Hop) (token : Token) (hop : Hop) : Bool :=
  !path.any (fun used => used.2 == hop.2) && hop.1.involves token

/-- The trade of the fixed amount over a complete path. -/
def tradeOver (q : BestTrades) (path : List Hop) : Except Error Trade := do
  let pools := path.map Prod.fst
  let route ←
    match q.kind with
    | .exactInput => Route.make pools q.fixed.token q.target
    | .exactOutput => Route.make pools q.target q.fixed.token
  Trade.ofRoute q.kind route q.fixed

/-- Extends a path by at most `hops` pools in every way, as long as there are pools left, and ranks
the trades found among those already kept. -/
def explore (q : BestTrades) :
    (hops : Nat) → List Hop → Amount → List Trade → Except Error (List Trade)
  | 0, _, _, best => .ok best
  | hops + 1, path, frontier, best =>
    (q.pools.zipIdx.filter (usable path frontier.token)).foldlM
      (fun best hop =>
        match q.quote hop.1 frontier with
        | .error e => if skips e then .ok best else .error e
        | .ok amount => do
          let path := q.extend path hop
          if amount.token == q.target then
            return (← Ranking.insert Trade.rank q.capacity best (← q.tradeOver path)).1
          else if path.length < q.pools.length then explore q hops path amount best
          else return best)
      best

/-- The best trades over routes of at most `maxHops` pools, best first. -/
def search (q : BestTrades) (maxHops : Nat) : Except Error (List Trade) :=
  if q.pools.isEmpty then .error (.search .noPools)
  else if maxHops = 0 then .error (.search .noHops)
  else q.explore maxHops [] q.fixed []

end BestTrades

end Clamm
