import Clamm.Pool.Quote
import Clamm.Trade.Route

/-!
# Trades

A trade exchanges one token for another over one or more routes, its legs, with one side fixed.
`Trade.make` accepts legs that all run between the same two tokens and never use one pool twice, and
sums their amounts. `Trade.ofRoute` and `Trade.ofRoutes` find a leg's other amount by taking the
fixed one through the pools of its route, forward from the input or backward from the output.
-/

namespace Clamm

/-- Which side of a trade is fixed. -/
inductive TradeKind where
  | exactInput
  | exactOutput
  deriving DecidableEq, Repr

/-- One route of a trade, with what goes in and what comes out. -/
structure Leg where
  route : Route
  input : Amount
  output : Amount

/-- Legs executed together, with their totals. -/
structure Trade where
  kind : TradeKind
  legs : List Leg
  input : Amount
  output : Amount

namespace Leg

/-- Refuses a leg that does not run between two given tokens. -/
def checkTokens (input output : Token) (leg : Leg) : Except Error Unit :=
  if leg.route.input != input || leg.input.token != input then .error (.trade .inputMismatch)
  else if leg.route.output != output || leg.output.token != output then
    .error (.trade .outputMismatch)
  else .ok ()

/-- Sells `amount` through the pools of a route, or buys it. -/
def simulate (route : Route) (amount : Amount) : TradeKind → Except Error Leg
  | .exactInput => do
    if amount.token == route.input then
      let output ← route.pools.foldlM (fun a pool => do return (← pool.outputFor a none).1) amount
      return ⟨route, amount, output⟩
    else .error (.trade .inputMismatch)
  | .exactOutput => do
    if amount.token == route.output then
      let input ←
        route.pools.reverse.foldlM (fun a pool => do return (← pool.inputFor a none).1) amount
      return ⟨route, input, amount⟩
    else .error (.trade .outputMismatch)

end Leg

namespace Trade

/-- The addresses of all pools used, leg by leg. -/
def poolAddresses (legs : List Leg) : List Address :=
  (legs.flatMap fun leg => leg.route.pools).map fun pool => pool.address defaultInitCodeHash

/-- Adds the amounts of a leg to two totals. -/
def addLeg (totals : Amount × Amount) (leg : Leg) : Except Error (Amount × Amount) := do
  return (← totals.1.add leg.input, ← totals.2.add leg.output)

/-- Accepts legs between the same two tokens whose pools are all different. -/
def make (kind : TradeKind) (legs : List Leg) : Except Error Trade := do
  match legs with
  | [] => .error (.trade .noLegs)
  | first :: _ =>
    let input := first.input.token
    let output := first.output.token
    legs.forM (Leg.checkTokens input output)
    if (poolAddresses legs).Nodup then
      let totals ← legs.foldlM addLeg (← Amount.ofInt input 0, ← Amount.ofInt output 0)
      return ⟨kind, legs, totals.1, totals.2⟩
    else .error (.trade .repeatedPool)

/-- Trades the fixed amount over one route. -/
def ofRoute (kind : TradeKind) (route : Route) (amount : Amount) : Except Error Trade := do
  make kind [← Leg.simulate route amount kind]

/-- Trades a fixed amount over each of several routes. -/
def ofRoutes (kind : TradeKind) (routes : List (Route × Amount)) : Except Error Trade := do
  make kind (← routes.mapM fun (route, amount) => Leg.simulate route amount kind)

/-- The route of a trade that has only one. -/
def route (t : Trade) : Except Error Route :=
  match t.legs with
  | [leg] => .ok leg.route
  | _ => .error (.trade .severalRoutes)

/-- The tokens visited, over all legs. -/
def pathLength (t : Trade) : Nat := t.legs.foldl (fun n leg => n + leg.route.path.length) 0

/-- The output per input, in whole units. -/
def executionPrice (t : Trade) : Except Error Price :=
  Price.make t.input.token t.output.token t.input.quotient t.output.quotient

/-- The output that the routes' mid prices would give. -/
def spotOutput (t : Trade) : Except Error Amount := do
  t.legs.foldlM (fun sum leg => do sum.add (← leg.route.midPrice.convert leg.input))
    (← Amount.ofInt t.output.token 0)

/-- By how much of the spot output the output falls short. -/
def priceImpact (t : Trade) : Except Error Percent := do
  let spot ← t.spotOutput
  (spot.value - t.output.value).divide spot.value

/-- The least output that a tolerance accepts. -/
def minOutput (t : Trade) (tolerance : Percent) : Except Error Amount := do
  if tolerance.isNegative then .error (.trade .negativeTolerance)
  else
    match t.kind with
    | .exactOutput => return t.output
    | .exactInput =>
      let factor ← (Fraction.ofInt 1 + tolerance).invert
      Amount.ofInt t.output.token (factor * Fraction.ofInt t.output.quotient).quotient

/-- The most input that a tolerance accepts. -/
def maxInput (t : Trade) (tolerance : Percent) : Except Error Amount := do
  if tolerance.isNegative then .error (.trade .negativeTolerance)
  else
    match t.kind with
    | .exactInput => return t.input
    | .exactOutput =>
      let factor := Fraction.ofInt 1 + tolerance
      Amount.ofInt t.input.token (factor * Fraction.ofInt t.input.quotient).quotient

/-- The execution price when a tolerance is used up. -/
def worstPrice (t : Trade) (tolerance : Percent) : Except Error Price := do
  let most ← t.maxInput tolerance
  let least ← t.minOutput tolerance
  Price.make t.input.token t.output.token most.quotient least.quotient

/-- Ranks trades between the same tokens, the better first: by the side that is not fixed, then by
the number of tokens visited, then by the fixed side. The first trade says which side is fixed. -/
def rank (a b : Trade) : Ordering :=
  let byPath := compare a.pathLength b.pathLength
  let byOutput := compare b.output.value a.output.value
  let byInput := compare a.input.value b.input.value
  match a.kind with
  | .exactInput => (byOutput.then byPath).then byInput
  | .exactOutput => (byInput.then byPath).then byOutput

end Trade

end Clamm
