import Clamm.Error

/-!
# Bounded integers

Quantities are plain `Nat` and `Int`; this module holds the ranges they are stored in and the
conversions that check them. With `pow2 n` for the power of two, an unsigned `n`-bit quantity is
below `pow2 n`, and a signed one lies in `[-pow2 (n - 1), pow2 (n - 1))`.

* `toUnsigned` refuses what needs more bits than it is given.
* `toUInt256`, `toInt256` read an integer of any size into 256 bits. A positive value that is too
  large overflows and a negative one underflows, except that a signed conversion first asks for the
  magnitude to fit in 256 bits.
* `asInt256` reads 256 bits as two's complement.
-/

namespace Clamm

/-- Two to the power of `n`: the number of `n`-bit values, and one with `n` fractional bits. -/
def pow2 (n : Nat) : Nat := Nat.pow 2 n

/-- The largest unsigned 256-bit integer. -/
def maxUInt256 : Nat := pow2 256 - 1

/-- Accepts `x` if it fits in `bits` bits. -/
def toUnsigned (bits : Nat) (x : Nat) : Except Error Nat :=
  if x < pow2 bits then .ok x else .error (.arithmetic .overflow)

/-- Accepts a non-negative integer of at most 256 bits. -/
def toUInt256 (x : Int) : Except Error Nat :=
  if x < 0 then .error (.arithmetic .underflow) else toUnsigned 256 x.toNat

/-- Accepts an integer in `[-pow2 255, pow2 255)`. -/
def toInt256 (x : Int) : Except Error Int :=
  if pow2 256 ≤ x.natAbs then .error (.arithmetic .overflow)
  else if x < -(pow2 255 : Int) then .error (.arithmetic .underflow)
  else if (pow2 255 : Int) ≤ x then .error (.arithmetic .overflow)
  else .ok x

/-- The integer fits in 256 bits, signed. -/
def IsInt256 (x : Int) : Prop := -(pow2 255 : Int) ≤ x ∧ x < pow2 255

instance (x : Int) : Decidable (IsInt256 x) := inferInstanceAs (Decidable (_ ∧ _))

/-- The integer that the low 256 bits of `x` stand for in two's complement. -/
def asInt256 (x : Nat) : Int := Int.bmod x (pow2 256)

theorem pow2_pos (n : Nat) : 0 < pow2 n := Nat.two_pow_pos n

theorem toUnsigned_eq_ok_iff {bits x y : Nat} :
    toUnsigned bits x = .ok y ↔ x < pow2 bits ∧ y = x := by
  unfold toUnsigned
  split
  · next h => simp [h, eq_comm]
  · next h => simp [h]

theorem toInt256_eq_ok_iff {x y : Int} : toInt256 x = .ok y ↔ IsInt256 x ∧ y = x := by
  have hdouble : pow2 256 = 2 * pow2 255 := rfl
  unfold toInt256 IsInt256
  split
  · next h =>
    simp only [reduceCtorEq, false_iff, not_and]
    omega
  · split
    · next h =>
      simp only [reduceCtorEq, false_iff, not_and]
      omega
    · split
      · next h =>
        simp only [reduceCtorEq, false_iff, not_and]
        omega
      · next h1 h2 h3 =>
        simp only [Except.ok.injEq]
        omega

end Clamm
