import Clamm.Trade.Basic

/-!
# Routes and trades put together step by step

`Itinerary.make` works a route out in two walks over its pools, each with its own test of the token
in hand. The first collects the tokens and knows both tokens of a pool. The second multiplies the
prices and takes every token that is not the first of a pool for its second.

`Trade.assemble` finds out that a pool is used twice from where pools are deployed: it sorts the
addresses of the pools of all legs and looks for two that stand side by side.
-/

namespace Clamm

/-! ## Routes -/

/-- A route with everything that is worked out about it. -/
structure Itinerary where
  pools : List Pool
  /-- Every token visited, from the input to the output. -/
  path : List Token
  input : Token
  output : Token
  midPrice : Price

namespace Itinerary

/-- What is known of a route. -/
def ofRoute (r : Route) : Itinerary := ⟨r.pools, r.path, r.input, r.output, r.midPrice⟩

/-- The tokens in hand when a token is taken through pools. -/
def tokensFrom : Token → List Pool → Except Error (List Token)
  | token, [] => .ok [token]
  | token, pool :: pools => do
    let next ←
      if token == pool.token0 then .ok pool.token1
      else if token == pool.token1 then .ok pool.token0
      else .error (.route .brokenPath)
    return token :: (← tokensFrom next pools)

/-- The price up to the token in hand, multiplied on through pools. -/
def compose : Token → Option Price → List Pool → Except Error (Option Price)
  | _, price, [] => .ok price
  | token, price, pool :: pools => do
    let (hop, next) :=
      if token == pool.token0 then (pool.price0, pool.token1) else (pool.price1, pool.token0)
    let price ←
      match price with
      | some price => price.chain hop
      | none => .ok hop
    compose next (some price) pools

/-- Accepts pools that chain two tokens of one chain. -/
def make (pools : List Pool) (input output : Token) : Except Error Itinerary := do
  match pools.head?, pools.getLast? with
  | some first, some last =>
    if pools.any (fun pool => pool.chain != first.chain) then .error (.route .mixedChains)
    else if !first.involves input then .error (.route .foreignInput)
    else if !last.involves output then .error (.route .foreignOutput)
    else
      let path ← tokensFrom input pools
      if path.getLast?.any (· == output) then
        match ← compose input none pools with
        | some price =>
          let midPrice ← Price.make input output price.ratio.den price.ratio.num
          return ⟨pools, path, input, output, midPrice⟩
        | none => .error (.route .noPools)
      else .error (.route .brokenPath)
  | _, _ => .error (.route .noPools)

end Itinerary

/-! ## Trades -/

/-- A value of at most 256 bits as a word of 32 bytes, padded on the left. -/
def padded {w : Nat} (x : BitVec w) : List UInt8 :=
  List.replicate ((256 - w) / 8) 0 ++ Keccak.bytes x

/-- Where the pool of two tokens, given in either order, is deployed. The fee has 32 bits. -/
def deployedAddress (factory : Address) (a b : Token) (fee : Nat) (initCodeHash : BitVec 256) :
    Except Error Address := do
  let (token0, token1) := if ← a.sortsBefore b then (a, b) else (b, a)
  let salt := Keccak.hash
    (padded token0.address ++ padded token1.address ++ padded (BitVec.ofNat 32 fee))
  return create2 factory salt initCodeHash

/-- Leaves one of equal addresses that stand side by side. -/
def dropRepeats : List Address → List Address
  | [] => []
  | [a] => [a]
  | a :: b :: rest => if a = b then dropRepeats (b :: rest) else a :: dropRepeats (b :: rest)

/-- Whether no address occurs twice. -/
def allDistinct (addresses : List Address) : Bool :=
  (dropRepeats (addresses.mergeSort fun a b => a ≤ b)).length == addresses.length

namespace Trade

/-- Accepts legs between the same two tokens whose pools are deployed at different addresses. -/
def assemble (kind : TradeKind) (legs : List Leg) : Except Error Trade := do
  match legs with
  | [] => .error (.trade .noLegs)
  | first :: _ =>
    let input := first.input.token
    let output := first.output.token
    legs.forM (Leg.checkTokens input output)
    let addresses ← (legs.flatMap fun leg => leg.route.pools).mapM fun pool =>
      deployedAddress defaultFactory pool.token0 pool.token1 pool.fee defaultInitCodeHash
    if allDistinct addresses then
      let totals ← legs.foldlM addLeg (← Amount.ofInt input 0, ← Amount.ofInt output 0)
      return ⟨kind, legs, totals.1, totals.2⟩
    else .error (.trade .repeatedPool)

end Trade

end Clamm
