import Clamm.Fraction

/-!
# Fractions as two integers

`Fraction.Parts` is a fraction whose denominator is an integer like its numerator: no type keeps it
above zero. Only `make` looks at its sign, to move it to the numerator. Sums, products and
comparisons take the denominator as it comes, and the integer part divides by it, which is a fault if
it is zero.

The operations are those of `Fraction`, whose type holds what they rely on.
-/

namespace Clamm.Fraction

/-- A numerator and a denominator, each with a sign. -/
structure Parts where
  num : Int
  den : Int
  deriving Repr

/-- The parts of a fraction. -/
def toParts (a : Fraction) : Parts := ⟨a.num, a.den⟩

namespace Parts

/-- The sign of the denominator, moved to the numerator. -/
def normalize (num den : Int) : Parts := if den < 0 then ⟨-num, -den⟩ else ⟨num, den⟩

/-- The fraction `num / den`. -/
def make (num den : Int) : Except Error Parts :=
  if den = 0 then .error (.arithmetic .divisionByZero) else .ok (normalize num den)

/-- The integer `n` over one. -/
def ofInt (n : Int) : Parts := ⟨n, 1⟩

/-- The integer part, cut toward zero. -/
def quotient (a : Parts) : Except Error Int :=
  if a.den = 0 then .error .zeroDivisor else .ok (a.num.tdiv a.den)

/-- What the integer part leaves, over the same denominator. -/
def remainder (a : Parts) : Except Error Parts :=
  if a.den = 0 then .error .zeroDivisor else .ok ⟨a.num.tmod a.den, a.den⟩

/-- The reciprocal. -/
def invert (a : Parts) : Except Error Parts := make a.den a.num

/-- The sum. -/
def add (a b : Parts) : Parts :=
  if a.den = b.den then ⟨a.num + b.num, a.den⟩ else ⟨a.num * b.den + b.num * a.den, a.den * b.den⟩

/-- The difference. -/
def sub (a b : Parts) : Parts :=
  if a.den = b.den then ⟨a.num - b.num, a.den⟩ else ⟨a.num * b.den - b.num * a.den, a.den * b.den⟩

/-- The product. -/
def mul (a b : Parts) : Parts := ⟨a.num * b.num, a.den * b.den⟩

/-- The quotient of two fractions; the divisor must not be zero. -/
def divide (a b : Parts) : Except Error Parts := make (a.num * b.den) (a.den * b.num)

/-- Order by cross-multiplication. -/
instance : Ord Parts := ⟨fun a b => compare (a.num * b.den) (b.num * a.den)⟩

/-- Equality by cross-multiplication. -/
instance : BEq Parts := ⟨fun a b => a.num * b.den == b.num * a.den⟩

end Parts

end Clamm.Fraction
