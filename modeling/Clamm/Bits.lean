import Clamm.Error

/-!
# Set bits of a word

`Bits.highest` and `Bits.lowest` give the index of the outermost set bits of a non-zero number, and
`Bits.topBit` finds the highest one by halving the window it lies in.
`Bits.lastUpTo` and `Bits.firstFrom` search from a given bit downward and upward, which is how a
word of tick flags is scanned.
-/

namespace Clamm.Bits

/-- The number of zeros below the lowest set bit; zero for zero. -/
def trailingZeros (x : Nat) : Nat :=
  if x = 0 then 0 else if x % 2 = 1 then 0 else trailingZeros (x / 2) + 1
termination_by x
decreasing_by omega

/-- The index of the highest set bit. -/
def highest (x : Nat) : Except Error Nat :=
  if x = 0 then .error (.arithmetic .invalidInput) else .ok x.log2

/-- The index of the lowest set bit. -/
def lowest (x : Nat) : Except Error Nat :=
  if x = 0 then .error (.arithmetic .invalidInput) else .ok (trailingZeros x)

/-- The index of the highest set bit of a number of at most `2 ^ n` bits, found by halving the
window it lies in; zero for zero. -/
def topBit : Nat → Nat → Nat
  | 0, _ => 0
  | n + 1, x =>
    let half := 1 <<< n
    if 1 <<< half ≤ x then half + topBit n (x >>> half) else topBit n x

/-- The highest set bit of `x` whose index is at most `b`. -/
def lastUpTo (x b : Nat) : Option Nat :=
  let low := x % (1 <<< (b + 1))
  if low = 0 then none else some low.log2

/-- The lowest set bit of `x` whose index is at least `b`. -/
def firstFrom (x b : Nat) : Option Nat :=
  let high := x >>> b
  if high = 0 then none else some (b + trailingZeros high)

end Clamm.Bits
