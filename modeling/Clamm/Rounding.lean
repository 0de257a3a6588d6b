import Clamm.Integer

/-!
# Division with a stated rounding

Every division of the library names the direction it rounds in. `mulDiv` forms the full product
before it divides, so the only loss is the final rounding, and refuses a quotient of more than
256 bits.
-/

namespace Clamm

/-- Which of the two integers around a quotient is taken. -/
inductive Rounding where
  | floor
  | ceil
  deriving DecidableEq, Repr

/-- The quotient `a / b`, rounded. -/
def Rounding.div : Rounding → Nat → Nat → Nat
  | floor, a, b => a / b
  | ceil, a, b => (a + b - 1) / b

/-- The quotient `a * b / d`, rounded, if it fits in 256 bits. -/
def mulDiv (r : Rounding) (a b d : Nat) : Except Error Nat :=
  if d = 0 then .error (.arithmetic .divisionByZero) else toUnsigned 256 (r.div (a * b) d)

/-- The quotient `a / b`, rounded up. The caller keeps `b` from being zero. -/
def divCeil (a b : Nat) : Except Error Nat :=
  if b = 0 then .error .zeroDivisor else .ok (Rounding.ceil.div a b)

theorem Rounding.div_floor (a b : Nat) : Rounding.floor.div a b = a / b := rfl

/-- A ceiling is one more than the floor exactly when something is left over. -/
theorem Rounding.div_ceil {b : Nat} (hb : 0 < b) (a : Nat) :
    Rounding.ceil.div a b = a / b + if a % b = 0 then 0 else 1 := by
  have h := Nat.div_add_mod a b
  have hlt := Nat.mod_lt a hb
  simp only [Rounding.div]
  split
  · next h0 =>
    have : a + b - 1 = b - 1 + b * (a / b) := by omega
    rw [this, Nat.add_mul_div_left _ _ hb, Nat.div_eq_of_lt (by omega)]
    omega
  · next h0 =>
    have : a + b - 1 = (a % b - 1) + b * (a / b + 1) := by rw [Nat.mul_add]; omega
    rw [this, Nat.add_mul_div_left _ _ hb, Nat.div_eq_of_lt (by omega)]
    omega

/-- A ceiling is at most `q` exactly when `q` divisors cover the dividend. -/
theorem Rounding.div_ceil_le_iff {b : Nat} (hb : 0 < b) {a q : Nat} :
    Rounding.ceil.div a b ≤ q ↔ a ≤ q * b := by
  simp only [Rounding.div]
  rw [← Nat.lt_succ_iff, Nat.div_lt_iff_lt_mul hb, Nat.succ_mul]
  omega

/-- A ceiling covers the dividend. -/
theorem Rounding.le_div_ceil_mul {b : Nat} (hb : 0 < b) (a : Nat) :
    a ≤ Rounding.ceil.div a b * b :=
  (div_ceil_le_iff hb).mp (Nat.le_refl _)

/-- A ceiling covers the dividend by less than one divisor too much. -/
theorem Rounding.div_ceil_mul_lt {b : Nat} (hb : 0 < b) (a : Nat) :
    Rounding.ceil.div a b * b < a + b := by
  have h := Nat.div_mul_le_self (a + b - 1) b
  simp only [Rounding.div]
  omega

end Clamm
