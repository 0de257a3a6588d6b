import Clamm.Rounding

/-!
# Words

A `Word` has 256 bits. Sums, differences and products of words keep the low 256 bits of the result;
`checkedAdd` and `checkedMul` give none where that would lose something. `divide` faults on a zero
divisor, as the division of a machine does.
-/

namespace Clamm

/-- An unsigned 256-bit integer. -/
abbrev Word := BitVec 256

namespace Word

/-- The greatest word. -/
def greatest : Word := BitVec.allOnes 256

/-- The sum, if it is a word. -/
def checkedAdd (a b : Word) : Option Word := if BitVec.uaddOverflow a b then none else some (a + b)

/-- The product, if it is a word. -/
def checkedMul (a b : Word) : Option Word := if BitVec.umulOverflow a b then none else some (a * b)

/-- The remainder of the full product of `a` and `b`. -/
def mulMod (a b d : Word) : Word := BitVec.ofNat 256 (a.toNat * b.toNat % d.toNat)

/-- The quotient, rounded. The caller keeps `b` from being zero. -/
def divide (r : Rounding) (a b : Word) : Except Error Word :=
  if b = 0 then .error .zeroDivisor
  else
    match r with
    | .floor => .ok (a / b)
    | .ceil => .ok (if a % b = 0 then a / b else a / b + 1)

end Word

end Clamm
