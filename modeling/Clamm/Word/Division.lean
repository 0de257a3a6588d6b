import Clamm.Word.Basic

/-!
# Dividing a full product

The product of two words has 512 bits. `Word.mulDiv` divides it by a third word and never holds more
than words.

* `fullProduct` recovers the product in two words. Its low word is the wrapped product, and its
  residue modulo `2 ^ 256 - 1` is the sum of the two words.
* `Wide.exactQuotient` divides by a divisor of the number. The power of two in the divisor is
  shifted out, and the odd part is inverted modulo `2 ^ 256`.
* `inverse` starts from an inverse modulo 16, and each round of Newton's iteration doubles the
  number of bits it is right in.
-/

namespace Clamm.Word

/-- An unsigned 512-bit integer. -/
structure Wide where
  high : Word
  low : Word
  deriving DecidableEq, Repr

namespace Wide

/-- The number that two words stand for. -/
def toNat (x : Wide) : Nat := x.high.toNat * pow2 256 + x.low.toNat

/-- Takes a word away, with the borrow from the high word. -/
def sub (x : Wide) (y : Word) : Wide :=
  ⟨if x.low < y then x.high - 1 else x.high, x.low - y⟩

end Wide

/-- The product of two words. -/
def fullProduct (a b : Word) : Wide :=
  let residue := mulMod a b greatest
  let low := a * b
  ⟨if residue < low then residue - low - 1 else residue - low, low⟩

/-- The greatest power of two that divides a word. -/
def lowestBit (d : Word) : Word := d &&& -d

/-- A round of Newton's iteration toward the inverse of `d`. -/
def refine (d x : Word) : Word := x * (2 - d * x)

/-- `n` rounds of Newton's iteration. -/
def refined (d : Word) : Nat → Word → Word
  | 0, x => x
  | n + 1, x => refined d n (refine d x)

/-- The inverse of an odd word modulo `2 ^ 256`. -/
def inverse (d : Word) : Word := refined d 6 (3 * d ^^^ 2)

/-- The low word of the quotient by a divisor of the number. -/
def Wide.exactQuotient (x : Wide) (d : Word) : Word :=
  let twos := lowestBit d
  -- `2 ^ 256 / twos`, which wraps to zero for an odd divisor
  let carry := -twos / twos + 1
  (x.low / twos ||| x.high * carry) * inverse (d / twos)

/-- The floor of `a * b / d`, if it is a word. -/
def mulDivDown (a b d : Word) : Except Error Word :=
  if d = 0 then .error (.arithmetic .divisionByZero)
  else
    let product := fullProduct a b
    if product.high = 0 then .ok (product.low / d)
    else if d ≤ product.high then .error (.arithmetic .overflow)
    else .ok ((product.sub (mulMod a b d)).exactQuotient d)

/-- The ceiling of `a * b / d`, if it is a word. -/
def mulDivUp (a b d : Word) : Except Error Word := do
  let quotient ← mulDivDown a b d
  if 0 < mulMod a b d then
    if quotient = greatest then .error (.arithmetic .overflow) else return quotient + 1
  else return quotient

/-- The quotient `a * b / d`, rounded, if it is a word. -/
def mulDiv : Rounding → Word → Word → Word → Except Error Word
  | .floor => mulDivDown
  | .ceil => mulDivUp

end Clamm.Word
