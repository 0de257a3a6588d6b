import Clamm.Integer

/-!
# Square-root prices of amounts

`encode amount1 amount0` is the square-root price at which `amount1` of token 1 trades for
`amount0` of token 0: the floor of `sqrt (amount1 / amount0) * 2 ^ 96`. The quotient is cut toward
zero before its sign is looked at.
-/

namespace Clamm

/-- The square-root price of `amount1 / amount0`, of any size. -/
def encodeUnbounded (amount1 amount0 : Int) : Except Error Nat :=
  if amount0 = 0 then .error (.arithmetic .divisionByZero)
  else
    let price := (amount1 * pow2 192).tdiv amount0
    if price < 0 then .error (.arithmetic .invalidInput) else .ok price.toNat.sqrt

/-- The square-root price of `amount1 / amount0`, if it fits in 256 bits. -/
def encode (amount1 amount0 : Int) : Except Error Nat := do
  toUnsigned 256 (← encodeUnbounded amount1 amount0)

/-- The square-root price of two whole amounts that are not negative. -/
theorem encodeUnbounded_natCast {n d : Nat} (hd : 0 < d) :
    encodeUnbounded n d = .ok (Nat.sqrt (n * pow2 192 / d)) := by
  have hne : ((d : Nat) : Int) ≠ 0 := Int.natCast_ne_zero.mpr (Nat.ne_of_gt hd)
  have hquot : ((n : Int) * (pow2 192 : Nat)).tdiv (d : Nat) =
      ((n * pow2 192 / d : Nat) : Int) := by
    rw [← Int.natCast_mul, ← Int.ofNat_tdiv]
  unfold encodeUnbounded
  rw [if_neg hne]
  simp only [hquot]
  rw [if_neg (Int.not_lt.mpr (Int.natCast_nonneg _)), Int.toNat_natCast]

end Clamm
