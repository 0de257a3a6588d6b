import Clamm.Error

/-!
# Fractions that are never reduced

A `Fraction` keeps its numerator and its positive denominator exactly as the operations leave them;
no common factor is ever taken out. Equality and order are those of the rational it stands for,
by cross-multiplication, so they do not depend on the representation.

Sums and differences of fractions over one denominator keep it; all others multiply the two.
`quotient` cuts toward zero and `remainder` is what that leaves, over the same denominator.
-/

namespace Clamm

/-- A rational `num / den`, with the sign in the numerator. -/
structure Fraction where
  num : Int
  den : Nat
  den_pos : 0 < den

/-- A fraction read as a share, such as a tolerance: 50 over 10000 is half a percent. -/
abbrev Percent := Fraction

namespace Fraction

/-- The fraction `num / den`, the sign moved to the numerator. -/
def make (num den : Int) : Except Error Fraction :=
  if h : den = 0 then .error (.arithmetic .divisionByZero)
  else .ok ⟨if den < 0 then -num else num, den.natAbs, Int.natAbs_pos.2 h⟩

/-- The integer `n` over one. -/
def ofInt (n : Int) : Fraction := ⟨n, 1, Nat.one_pos⟩

/-- The integer part, cut toward zero. -/
def quotient (a : Fraction) : Int := a.num.tdiv a.den

/-- What the integer part leaves, over the same denominator. -/
def remainder (a : Fraction) : Fraction := ⟨a.num.tmod a.den, a.den, a.den_pos⟩

/-- The reciprocal. -/
def invert (a : Fraction) : Except Error Fraction := make a.den a.num

/-- The sum. -/
def add (a b : Fraction) : Fraction :=
  if a.den = b.den then ⟨a.num + b.num, a.den, a.den_pos⟩
  else ⟨a.num * b.den + b.num * a.den, a.den * b.den, Nat.mul_pos a.den_pos b.den_pos⟩

/-- The difference. -/
def sub (a b : Fraction) : Fraction :=
  if a.den = b.den then ⟨a.num - b.num, a.den, a.den_pos⟩
  else ⟨a.num * b.den - b.num * a.den, a.den * b.den, Nat.mul_pos a.den_pos b.den_pos⟩

/-- The product. -/
def mul (a b : Fraction) : Fraction :=
  ⟨a.num * b.num, a.den * b.den, Nat.mul_pos a.den_pos b.den_pos⟩

instance : Add Fraction := ⟨add⟩

instance : Sub Fraction := ⟨sub⟩

instance : Mul Fraction := ⟨mul⟩

/-- The quotient of two fractions; the divisor must not be zero. -/
def divide (a b : Fraction) : Except Error Fraction := make (a.num * b.den) (a.den * b.num)

/-- The order of the rationals. -/
instance : Ord Fraction := ⟨fun a b => compare (a.num * b.den) (b.num * a.den)⟩

/-- Equality of the rationals. -/
instance : BEq Fraction := ⟨fun a b => a.num * b.den == b.num * a.den⟩

/-- Whether the fraction is zero. -/
def isZero (a : Fraction) : Bool := a.num == 0

/-- Whether the fraction is below zero. -/
def isNegative (a : Fraction) : Bool := a.num < 0

/-- Numerator and denominator, as kept. -/
instance : ToString Fraction := ⟨fun a => toString a.num ++ "/" ++ toString a.den⟩

end Fraction

end Clamm
