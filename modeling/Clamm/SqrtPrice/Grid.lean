import Clamm.Bits
import Clamm.Rounding

/-!
# The tick grid

A price is kept as its square root with 96 fractional bits: `p` stands for `(p / 2 ^ 96) ^ 2`
units of token 1 per unit of token 0. Tick `t` marks the price `1.0001 ^ t`, so its square-root
price is about `1.0001 ^ (t / 2) * 2 ^ 96`.

* `ratioAt t` is the square-root price of a tick, rounded up. It multiplies one factor
  `1.0001 ^ (-2 ^ i / 2)` for each set bit `i` of `|t|`, each product cut to 128 fractional bits,
  and inverts the result for positive ticks.
* `sqrtPriceAt` is `ratioAt` on `[minTick, maxTick]` and refuses every other tick.
* `logPrice p` is the binary logarithm of the square-root price `p`, cut to 14 fractional bits: the
  highest set bit gives the integer part, and squaring the mantissa gives one more bit at a time.
* `tickAt p` is the greatest tick whose square-root price is at most `p`, for every `p` in
  `[minSqrtPrice, maxSqrtPrice)`. The logarithm leaves at most two neighbouring ticks, and the
  square-root price of the upper one decides between them.
* `nearestUsable t s` is the multiple of `s` in range that is nearest to `t`.
-/

namespace Clamm

/-- The lowest tick. -/
def minTick : Int := -887272

/-- The highest tick. -/
def maxTick : Int := 887272

/-- The square-root price of `minTick`. -/
def minSqrtPrice : Nat := 4295128739

/-- The square-root price of `maxTick`. -/
def maxSqrtPrice : Nat := 1461446703485210103287273052203988822378723970342

/-- Entry `i` is `1.0001 ^ (-2 ^ i / 2)` with 128 fractional bits. -/
def decayFactors : List Nat :=
  [0xfffcb933bd6fad37aa2d162d1a594001,
   0xfff97272373d413259a46990580e213a,
   0xfff2e50f5f656932ef12357cf3c7fdcc,
   0xffe5caca7e10e4e61c3624eaa0941cd0,
   0xffcb9843d60f6159c9db58835c926644,
   0xff973b41fa98c081472e6896dfb254c0,
   0xff2ea16466c96a3843ec78b326b52861,
   0xfe5dee046a99a2a811c461f1969c3053,
   0xfcbe86c7900a88aedcffc83b479aa3a4,
   0xf987a7253ac413176f2b074cf7815e54,
   0xf3392b0822b70005940c7a398e4b70f3,
   0xe7159475a2c29b7443b29c7fa6e889d9,
   0xd097f3bdfd2022b8845ad8f792aa5825,
   0xa9f746462d870fdf8a65dc1f90e061e5,
   0x70d869a156d2a1b890bb3df62baf32f7,
   0x31be135f97d08fd981231505542fcfa6,
   0x9aa508b5b7a84e1c677de54f3e99bc9,
   0x5d6af8dedb81196699c329225ee604,
   0x2216e584f5fa1ea926041bedfe98,
   0x48a170391f7dc42444e8fa2]

/-- Multiplies `acc` by the factor of each set bit of `n`, lowest bit first. -/
def decay : List Nat → Nat → Nat → Nat
  | [], _, acc => acc
  | c :: cs, n, acc => decay cs (n / 2) (if n % 2 = 1 then acc * c / pow2 128 else acc)

/-- The square-root price of tick `t`, rounded up. -/
@[irreducible]
def ratioAt (t : Int) : Nat :=
  let down := decay decayFactors t.natAbs (pow2 128)
  let ratio := if 0 < t then maxUInt256 / down else down
  Rounding.ceil.div ratio (pow2 32)

/-- The square-root price of a tick in `[minTick, maxTick]`. -/
def sqrtPriceAt (t : Int) : Except Error Nat :=
  if minTick ≤ t ∧ t ≤ maxTick then .ok (ratioAt t) else .error (.state .tickOutOfBounds)

/-- The next binary digit of the logarithm of a mantissa, and the mantissa of what is left of it. A
mantissa `m` in `[2 ^ 127, 2 ^ 128)` stands for `m / 2 ^ 127`, and its logarithm is below 1. -/
def squareMantissa (m : Nat) : Nat × Nat :=
  let square := m * m / pow2 127
  let digit := square / pow2 128
  (digit, square / pow2 digit)

/-- The first `n` binary digits of the logarithm of a mantissa, as an integer below `2 ^ n`. -/
def logDigits : Nat → Nat → Nat
  | 0, _ => 0
  | n + 1, m => (squareMantissa m).1 * pow2 n + logDigits n (squareMantissa m).2

/-- The 128 leading bits of a number whose highest set bit is bit `top`. -/
def mantissa (x top : Nat) : Nat :=
  if 128 ≤ top then x >>> (top - 127) else x <<< (127 - top)

/-- The binary logarithm of the square-root price `p`, with 64 fractional bits. All of them but the
first 14 are zero. -/
def logPrice (p : Nat) : Int :=
  let ratio := p <<< 32
  let top := Bits.topBit 8 ratio
  ((top : Int) - 128) * pow2 64 + (logDigits 14 (mantissa ratio top) * pow2 50 : Nat)

/-- The ticks it takes to double the square-root price, with 64 fractional bits. -/
def ticksPerDoubling : Int := 255738958999603826347141

/-- How far below the true value the tick of a logarithm may lie, with 128 fractional bits. -/
def tickShortfall : Int := 291339464771989622907027621153398088495

/-- How far above the true value the tick of a logarithm may lie, with 128 fractional bits. -/
def tickExcess : Int := 3402992956809132418596140100660247210

/-- The lowest tick that the logarithm of `p` leaves open. -/
@[irreducible]
def lowTick (p : Nat) : Int := (logPrice p * ticksPerDoubling - tickExcess) / pow2 128

/-- The highest tick that the logarithm of `p` leaves open. -/
@[irreducible]
def highTick (p : Nat) : Int := (logPrice p * ticksPerDoubling + tickShortfall) / pow2 128

/-- The greatest tick whose square-root price is at most `p`. -/
def tickAt (p : Nat) : Except Error Int := do
  if p < minSqrtPrice ∨ maxSqrtPrice ≤ p then .error (.state .priceOutOfBounds)
  else if lowTick p = highTick p then .ok (lowTick p)
  else if (← sqrtPriceAt (highTick p)) ≤ p then .ok (highTick p)
  else .ok (lowTick p)

/-- The multiple of `spacing` nearest to `t`, a half going up, moved one spacing inward if it left
the range of ticks. -/
def nearestUsable (t spacing : Int) : Except Error Int :=
  if spacing ≤ 0 then .error (.tick .zeroSpacing)
  else if t < minTick ∨ maxTick < t then .error (.state .tickOutOfBounds)
  else
    let rounded := (2 * t + spacing) / (2 * spacing) * spacing
    if rounded < minTick then .ok (rounded + spacing)
    else if maxTick < rounded then .ok (rounded - spacing)
    else .ok rounded

theorem sqrtPriceAt_eq_ok_iff {t : Int} {p : Nat} :
    sqrtPriceAt t = .ok p ↔ (minTick ≤ t ∧ t ≤ maxTick) ∧ p = ratioAt t := by
  unfold sqrtPriceAt
  split
  · next h => simp [h, eq_comm]
  · next h => simp [h]

end Clamm
