import Clamm.Error

/-!
# Fee tiers

Fees are counted in pips, hundredths of a basis point. A factory opens a pool on one of four tiers,
each of which fixes the spacing of the pool's ticks.
-/

namespace Clamm

/-- One whole in pips. A fee is below it. -/
def feeUnit : Nat := 1000000

/-- The tiers a pool can be opened on. -/
inductive FeeTier where
  | lowest
  | low
  | medium
  | high
  deriving DecidableEq, Repr

namespace FeeTier

/-- The fee of a tier in pips. -/
def pips : FeeTier → Nat
  | lowest => 100
  | low => 500
  | medium => 3000
  | high => 10000

/-- The tick spacing of a tier. -/
def spacing : FeeTier → Int
  | lowest => 1
  | low => 10
  | medium => 60
  | high => 200

/-- The tier that charges a fee. -/
def ofPips : Nat → Except Error FeeTier
  | 100 => .ok lowest
  | 500 => .ok low
  | 3000 => .ok medium
  | 10000 => .ok high
  | pips => .error (.unknownFee pips)

theorem ofPips_pips (t : FeeTier) : ofPips t.pips = .ok t := by
  cases t <;> rfl

end FeeTier

end Clamm
