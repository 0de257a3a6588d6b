import Clamm.Pool.Basic

/-!
# Routes

A route chains pools from an input token to an output token: each pool takes the running token and
gives its other one. `Route.make` accepts a list of pools exactly if following it from the input
arrives at the output; `path` is the tokens on the way and `midPrice` the product of the prices of
the hops.
-/

namespace Clamm

namespace Route

/-- The prices met when a token is taken through a list of pools, or none if a pool does not hold
the running token. -/
def hops? : List Pool → Token → Option (List Price)
  | [], _ => some []
  | pool :: pools, token =>
    match pool.priceOf? token with
    | some price => (hops? pools price.quote).map (price :: ·)
    | none => none

/-- The token held after a list of hops. -/
def arrival : Token → List Price → Token
  | token, [] => token
  | _, price :: prices => arrival price.quote prices

end Route

/-- Pools that take `input` to `output`, with the price of each hop. -/
structure Route where
  pools : List Pool
  input : Token
  output : Token
  hops : List Price
  pools_ne_nil : pools ≠ []
  hops_eq : Route.hops? pools input = some hops
  arrives : (Route.arrival input hops == output) = true

namespace Route

/-- Accepts pools that chain two tokens of one chain. -/
def make (pools : List Pool) (input output : Token) : Except Error Route :=
  if hp : pools = [] then .error (.route .noPools)
  else
    let first := pools.head hp
    let last := pools.getLast hp
    if pools.any (fun pool => pool.chain != first.chain) then .error (.route .mixedChains)
    else if !first.involves input then .error (.route .foreignInput)
    else if !last.involves output then .error (.route .foreignOutput)
    else
      match hh : hops? pools input with
      | none => .error (.route .brokenPath)
      | some hops =>
        if ha : (arrival input hops == output) = true then
          .ok ⟨pools, input, output, hops, hp, hh, ha⟩
        else .error (.route .brokenPath)

/-- Every token visited, from the input to the output. -/
def path (r : Route) : List Token := r.input :: r.hops.map Price.quote

/-- The price of the input in the output along the route. -/
def midPrice (r : Route) : Price :=
  ⟨r.input, r.output, (r.hops.map Price.ratio).foldl (· * ·) (Fraction.ofInt 1)⟩

/-- The chain of the route. -/
def chain (r : Route) : Nat := r.input.chain

end Route

end Clamm
