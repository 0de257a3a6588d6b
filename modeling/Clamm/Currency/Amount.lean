import Clamm.Currency.Token
import Clamm.Fraction
import Clamm.Integer

/-!
# Amounts of a token

An `Amount` is an exact fraction of the smallest unit of a token, so that prices apply to it without
rounding. Its integer part never exceeds 256 bits; nothing bounds it from below.
-/

namespace Clamm

/-- A fraction of the smallest unit of a token. -/
structure Amount where
  token : Token
  value : Fraction
  quotient_le : value.quotient ≤ maxUInt256

namespace Amount

/-- So many units of `token`, if the integer part fits in 256 bits. -/
def make (token : Token) (value : Fraction) : Except Error Amount :=
  if h : value.quotient ≤ maxUInt256 then .ok ⟨token, value, h⟩
  else .error (.currency .amountTooLarge)

/-- A whole number of units. -/
def ofInt (token : Token) (units : Int) : Except Error Amount := make token (.ofInt units)

/-- A fraction `num / den` of a unit. -/
def ofFraction (token : Token) (num den : Int) : Except Error Amount := do
  make token (← Fraction.make num den)

/-- The integer part, cut toward zero. -/
def quotient (a : Amount) : Int := a.value.quotient

/-- The same token and the same rational. -/
instance : BEq Amount := ⟨fun a b => a.token == b.token && a.value == b.value⟩

/-- Refuses two amounts of different tokens. -/
def sameToken (a b : Amount) : Except Error Unit :=
  if a.token == b.token then .ok () else .error (.currency .mismatch)

/-- The sum of two amounts of one token. -/
def add (a b : Amount) : Except Error Amount := do
  sameToken a b
  make a.token (a.value + b.value)

/-- The difference of two amounts of one token. -/
def sub (a b : Amount) : Except Error Amount := do
  sameToken a b
  make a.token (a.value - b.value)

/-- The amount scaled by a fraction. -/
def scale (a : Amount) (b : Fraction) : Except Error Amount := make a.token (a.value * b)

/-- The amount divided by a fraction. -/
def divide (a : Amount) (b : Fraction) : Except Error Amount := do
  make a.token (← a.value.divide b)

end Amount

end Clamm
