import Clamm.SqrtPrice.Grid
import Clamm.Word.Basic

/-!
# The tick grid on words

`Word.ratioAt` is the square-root price of a tick, computed on words. The ratio of a tick is a
product of `decayFactors` with 128 fractional bits: the factor of the lowest set bit of `|t|` if that
is bit 0, else one, then the factor of each further set bit. Every product is one of two words, and
wraps, before it is cut. `products` lists what is multiplied.
-/

namespace Clamm.Word

/-- The ratio before its first product. -/
def bottom : List Nat → Nat → Word
  | [], _ => 1 <<< 128
  | c :: _, n => if n % 2 = 1 then BitVec.ofNat 256 c else 1 <<< 128

/-- Multiplies a ratio by the factor of each set bit of `n`, lowest bit first. -/
def climb : List Nat → Nat → Word → Word
  | [], _, ratio => ratio
  | c :: cs, n, ratio =>
    climb cs (n / 2) (if n % 2 = 1 then (ratio * BitVec.ofNat 256 c) >>> 128 else ratio)

/-- The operands of the products that `climb` forms. -/
def products : List Nat → Nat → Word → List (Word × Word)
  | [], _, _ => []
  | c :: cs, n, ratio =>
    if n % 2 = 1 then
      (ratio, BitVec.ofNat 256 c) ::
        products cs (n / 2) ((ratio * BitVec.ofNat 256 c) >>> 128)
    else products cs (n / 2) ratio

/-- The product of the factors of the set bits of `n`, with 128 fractional bits. -/
def ladder (n : Nat) : Word := climb decayFactors.tail (n / 2) (bottom decayFactors n)

/-- The operands of the products that `ladder` forms. -/
def ladderProducts (n : Nat) : List (Word × Word) :=
  products decayFactors.tail (n / 2) (bottom decayFactors n)

/-- The square-root price of tick `t`, rounded up. -/
def ratioAt (t : Int) : Except Error Word := do
  let down := ladder t.natAbs
  let ratio ← if 0 < t then divide .floor greatest down else pure down
  let cut := ratio &&& 0xffffffff
  return (ratio >>> 32) + if cut = 0 then 0 else 1

/-- The square-root price of a tick in `[minTick, maxTick]`. -/
def sqrtPriceAt (t : Int) : Except Error Word :=
  if maxTick < t.natAbs then .error (.state .tickOutOfBounds) else ratioAt t

end Clamm.Word
