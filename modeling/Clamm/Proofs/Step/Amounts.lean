import Mathlib
import Clamm.SqrtPrice.Move
import Clamm.SqrtPrice.Step

/-!
# Amounts and price moves against the exact curve

Between the square-root prices `lo ≤ hi`, liquidity `L` stands for
`L * 2 ^ 96 * (hi - lo) / (lo * hi)` of token 0 and `L * (hi - lo) / 2 ^ 96` of token 1. Every law
of this file compares an amount with one of these two quotients by cross-multiplication:
`Direction.Covers` says that an input is at least what a move of the price costs, `Direction.Yields`
that an output is at most what it releases.

* `inputBetween_le_iff`, `le_outputBetween_iff`: the input is the least amount that covers a move,
  the output is the greatest one that it yields.
* `priceAfterInput_spec`: an input covers the move it makes, and makes no move beyond a price it
  does not cover. The fallback for a denominator of more than 256 bits obeys the same law.
* `priceAfterOutput_spec`: an output makes no move beyond a price that yields it.
* `priceAfterOutput_yields`: the move that it makes yields it.
-/

namespace Clamm

/-! ## Quotients -/

theorem mulDiv_eq_ok_iff {r : Rounding} {a b d q : ℕ} :
    mulDiv r a b d = .ok q ↔ d ≠ 0 ∧ r.div (a * b) d < pow2 256 ∧ q = r.div (a * b) d := by
  unfold mulDiv
  split
  · rename_i h
    simp [h]
  · rename_i h
    rw [toUnsigned_eq_ok_iff]
    simp [h]

/-- A floor is at least `q` exactly when the dividend covers `q` divisors. -/
theorem Rounding.le_div_floor_iff {b : ℕ} (hb : 0 < b) {a q : ℕ} :
    q ≤ Rounding.floor.div a b ↔ q * b ≤ a :=
  Nat.le_div_iff_mul_le hb

theorem Rounding.div_zero_left {m : Rounding} {b : ℕ} (hb : 0 < b) : m.div 0 b = 0 := by
  cases m with
  | floor => exact Nat.zero_div b
  | ceil => exact Nat.le_zero.mp ((div_ceil_le_iff hb).mpr (Nat.zero_le _))

/-! ## Amounts -/

theorem amount0Between_comm (a b L : ℕ) (r : Rounding) :
    amount0Between a b L r = amount0Between b a L r := by
  unfold amount0Between
  rw [min_comm, max_comm]

theorem amount1Between_comm (a b L : ℕ) (r : Rounding) :
    amount1Between a b L r = amount1Between b a L r := by
  unfold amount1Between
  rw [min_comm, max_comm]

theorem amount0Between_eq_ok_iff {lo hi L x : ℕ} {r : Rounding} (h : lo ≤ hi) :
    amount0Between lo hi L r = .ok x ↔ 0 < lo ∧
      r.div (L * pow2 96 * (hi - lo)) hi < pow2 256 ∧
      x = r.div (r.div (L * pow2 96 * (hi - lo)) hi) lo := by
  simp only [amount0Between, min_eq_left h, max_eq_right h]
  split
  · rename_i h0
    simp [h0]
  · rename_i h0
    simp only [bind_eq_ok_iff, mulDiv_eq_ok_iff, Except.ok.injEq]
    constructor
    · rintro ⟨q, ⟨-, hq, rfl⟩, rfl⟩
      exact ⟨Nat.pos_of_ne_zero h0, hq, rfl⟩
    · rintro ⟨-, hq, rfl⟩
      exact ⟨_, ⟨by omega, hq, rfl⟩, rfl⟩

theorem amount1Between_eq_ok_iff {lo hi L x : ℕ} {r : Rounding} (h : lo ≤ hi) :
    amount1Between lo hi L r = .ok x ↔
      r.div (L * (hi - lo)) (pow2 96) < pow2 256 ∧ x = r.div (L * (hi - lo)) (pow2 96) := by
  simp only [amount1Between, min_eq_left h, max_eq_right h, mulDiv_eq_ok_iff]
  exact and_iff_right (pow2_pos 96).ne'

theorem amount0Between_pos {a b L x : ℕ} {r : Rounding} (h : amount0Between a b L r = .ok x) :
    0 < a ∧ 0 < b := by
  rcases le_total a b with hab | hba
  · have ha := ((amount0Between_eq_ok_iff hab).mp h).1
    exact ⟨ha, ha.trans_le hab⟩
  · rw [amount0Between_comm] at h
    have hb := ((amount0Between_eq_ok_iff hba).mp h).1
    exact ⟨hb.trans_le hba, hb⟩

section Amounts

variable {lo hi L x q : ℕ}

theorem amount0_ceil_le_iff (hle : lo ≤ hi) (h : amount0Between lo hi L .ceil = .ok x) :
    x ≤ q ↔ L * pow2 96 * (hi - lo) ≤ q * (lo * hi) := by
  obtain ⟨h0, -, rfl⟩ := (amount0Between_eq_ok_iff hle).mp h
  rw [Rounding.div_ceil_le_iff h0, Rounding.div_ceil_le_iff (h0.trans_le hle), mul_assoc q]

theorem le_amount0_floor_iff (hle : lo ≤ hi) (h : amount0Between lo hi L .floor = .ok x) :
    q ≤ x ↔ q * (lo * hi) ≤ L * pow2 96 * (hi - lo) := by
  obtain ⟨h0, -, rfl⟩ := (amount0Between_eq_ok_iff hle).mp h
  rw [Rounding.le_div_floor_iff h0, Rounding.le_div_floor_iff (h0.trans_le hle), mul_assoc q]

theorem amount1_ceil_le_iff (hle : lo ≤ hi) (h : amount1Between lo hi L .ceil = .ok x) :
    x ≤ q ↔ L * (hi - lo) ≤ q * pow2 96 := by
  obtain ⟨-, rfl⟩ := (amount1Between_eq_ok_iff hle).mp h
  rw [Rounding.div_ceil_le_iff (pow2_pos 96)]

theorem le_amount1_floor_iff (hle : lo ≤ hi) (h : amount1Between lo hi L .floor = .ok x) :
    q ≤ x ↔ q * pow2 96 ≤ L * (hi - lo) := by
  obtain ⟨-, rfl⟩ := (amount1Between_eq_ok_iff hle).mp h
  rw [Rounding.le_div_floor_iff (pow2_pos 96)]

end Amounts

/-! ## Covering a move and yielding from it -/

namespace Direction

/-- Price `b` lies in direction `d` of price `a`, or is the same. -/
def Leads : Direction → ℕ → ℕ → Prop
  | down, a, b => b ≤ a
  | up, a, b => a ≤ b

/-- The input `x` is at least what moving the price from `a` to `b` costs at liquidity `L`. -/
def Covers : Direction → (a b L x : ℕ) → Prop
  | down, a, b, L, x => L * pow2 96 * (a - b) ≤ x * (b * a)
  | up, a, b, L, x => L * (b - a) ≤ x * pow2 96

/-- The output `x` is at most what moving the price from `a` to `b` releases at liquidity `L`. -/
def Yields : Direction → (a b L x : ℕ) → Prop
  | down, a, b, L, x => x * pow2 96 ≤ L * (a - b)
  | up, a, b, L, x => x * (a * b) ≤ L * pow2 96 * (b - a)

variable {d : Direction} {a b c L x y : ℕ}

theorem Leads.refl (d : Direction) (a : ℕ) : d.Leads a a := by
  cases d <;> exact le_refl a

theorem Leads.trans (hab : d.Leads a b) (hbc : d.Leads b c) : d.Leads a c := by
  cases d with
  | down => exact le_trans hbc hab
  | up => exact le_trans hab hbc

theorem Leads.antisymm (hab : d.Leads a b) (hba : d.Leads b a) : a = b := by
  cases d with
  | down => exact le_antisymm hba hab
  | up => exact le_antisymm hab hba

/-- A fall to `b` is covered if `b` is no lower than the quotient that the input moves to. -/
theorem covers_down_iff (h : b ≤ a) :
    down.Covers a b L x ↔ L * pow2 96 * a ≤ b * (L * pow2 96 + x * a) := by
  simp only [Covers]
  zify [h]
  constructor <;> intro hcost <;> linarith

theorem Covers.mono (h : d.Covers a b L x) (hxy : x ≤ y) : d.Covers a b L y := by
  cases d with
  | down => exact h.trans (Nat.mul_le_mul_right _ hxy)
  | up => exact h.trans (Nat.mul_le_mul_right _ hxy)

theorem Yields.anti (h : d.Yields a b L y) (hxy : x ≤ y) : d.Yields a b L x := by
  cases d with
  | down => exact (Nat.mul_le_mul_right _ hxy).trans h
  | up => exact (Nat.mul_le_mul_right _ hxy).trans h

end Direction

section Between

variable {d : Direction} {a b c L x y : ℕ}

theorem inputBetween_le_iff (hab : d.Leads a b) (h : inputBetween d a b L = .ok x) :
    x ≤ y ↔ d.Covers a b L y := by
  cases d with
  | down => exact amount0_ceil_le_iff hab (amount0Between_comm a b L .ceil ▸ h)
  | up => exact amount1_ceil_le_iff hab h

theorem le_outputBetween_iff (hab : d.Leads a b) (h : outputBetween d a b L = .ok x) :
    y ≤ x ↔ d.Yields a b L y := by
  cases d with
  | down => exact le_amount1_floor_iff hab (amount1Between_comm a b L .floor ▸ h)
  | up => exact le_amount0_floor_iff hab h

theorem inputBetween_self (hc : 0 < c) : inputBetween d c c L = .ok 0 := by
  cases d with
  | down =>
    refine (amount0Between_eq_ok_iff le_rfl).mpr ⟨hc, ?_, ?_⟩
    · simp [Rounding.div_zero_left hc, pow2_pos]
    · simp [Rounding.div_zero_left hc]
  | up =>
    refine (amount1Between_eq_ok_iff le_rfl).mpr ⟨?_, ?_⟩
    · simp [Rounding.div_zero_left, pow2_pos]
    · simp [Rounding.div_zero_left, pow2_pos]

theorem outputBetween_self (hc : 0 < c) : outputBetween d c c L = .ok 0 := by
  cases d with
  | down =>
    refine (amount1Between_eq_ok_iff le_rfl).mpr ⟨?_, ?_⟩
    · simp [Rounding.div_zero_left, pow2_pos]
    · simp [Rounding.div_zero_left, pow2_pos]
  | up =>
    refine (amount0Between_eq_ok_iff le_rfl).mpr ⟨hc, ?_, ?_⟩
    · simp [Rounding.div_zero_left hc, pow2_pos]
    · simp [Rounding.div_zero_left hc]

end Between

/-! ## Price moves -/

section Moves

variable {p q L amount : ℕ}

theorem token1Move_eq_ok {r : Rounding} {m : ℕ} (h : token1Move r L amount = .ok m) :
    0 < L ∧ m = r.div (amount * pow2 96) L := by
  unfold token1Move at h
  split at h
  · obtain ⟨h0, -, rfl⟩ := mulDiv_eq_ok_iff.mp h
    exact ⟨Nat.pos_of_ne_zero h0, rfl⟩
  · split at h
    · cases h
    · rename_i h0
      cases h
      exact ⟨Nat.pos_of_ne_zero h0, rfl⟩

/-- Paying in token 0 reaches a price that the amount covers, and none below a price that it does
not. -/
theorem priceAddingToken0_spec (hp : 0 < p) (h : priceAddingToken0 p L amount = .ok q) :
    q ≤ p ∧ L * pow2 96 * p ≤ q * (L * pow2 96 + amount * p) ∧
      ∀ t ≤ p, t * (L * pow2 96 + amount * p) ≤ L * pow2 96 * p → t ≤ q := by
  unfold priceAddingToken0 at h
  generalize L * pow2 96 = scaled at *
  split at h
  · rename_i h0
    cases h
    rw [h0, zero_mul, add_zero, mul_comm]
    exact ⟨le_refl _, le_refl _, fun t ht _ => ht⟩
  · rename_i h0
    dsimp only at h
    split at h
    · -- the exact quotient
      obtain ⟨hd, -, rfl⟩ := mulDiv_eq_ok_iff.mp h
      have hpos := Nat.pos_of_ne_zero hd
      refine ⟨?_, Rounding.le_div_ceil_mul hpos _, fun t _ ht => ?_⟩
      · rw [Rounding.div_ceil_le_iff hpos, mul_add, mul_comm p scaled]
        omega
      · exact le_of_mul_le_mul_right (ht.trans (Rounding.le_div_ceil_mul hpos _)) hpos
    · -- the fallback divides the liquidity by a floor, so it can only end higher
      obtain ⟨e, he, hq⟩ := bind_eq_ok_iff.mp h
      obtain ⟨-, rfl⟩ := toUnsigned_eq_ok_iff.mp he
      cases hq
      have hpaid : 1 ≤ amount := Nat.pos_of_ne_zero h0
      have hpos : 0 < scaled / p + amount := Nat.add_pos_right _ hpaid
      have hfloor := Nat.div_mul_le_self scaled p
      have hceil := Rounding.le_div_ceil_mul hpos scaled
      refine ⟨?_, ?_, fun t _ ht => ?_⟩
      · rw [Rounding.div_ceil_le_iff hpos, mul_add]
        have := Nat.lt_mul_div_succ scaled hp
        have := Nat.mul_le_mul_left p hpaid
        linarith
      · nlinarith
      · refine le_of_mul_le_mul_right (le_trans ?_ hceil) hpos
        refine le_of_mul_le_mul_right (le_trans ?_ ht) hp
        nlinarith

/-- Paying out token 0 reaches no price above one that yields the amount. -/
theorem priceRemovingToken0_spec (h : priceRemovingToken0 p L amount = .ok q) :
    p ≤ q ∧ ∀ t, p ≤ t → amount * (p * t) ≤ L * pow2 96 * (t - p) → q ≤ t := by
  unfold priceRemovingToken0 at h
  generalize L * pow2 96 = scaled at *
  split at h
  · cases h
    exact ⟨le_refl _, fun t ht _ => ht⟩
  · dsimp only at h
    split at h
    · rename_i hlt
      obtain ⟨hd, -, rfl⟩ := mulDiv_eq_ok_iff.mp h
      have hpos := Nat.pos_of_ne_zero hd
      constructor
      · have hceil := Rounding.le_div_ceil_mul hpos (scaled * p)
        refine le_of_mul_le_mul_right (le_trans ?_ hceil) hpos
        rw [mul_comm]
        exact Nat.mul_le_mul_right p (Nat.sub_le _ _)
      · intro t ht hyield
        rw [Rounding.div_ceil_le_iff hpos]
        zify [hlt.le, ht] at hyield ⊢
        linarith
    · cases h

/-- Paying in token 1 reaches the greatest price that the amount covers. -/
theorem priceAddingToken1_spec (h : priceAddingToken1 p L amount = .ok q) :
    p ≤ q ∧ ∀ t, p ≤ t → (t ≤ q ↔ L * (t - p) ≤ amount * pow2 96) := by
  obtain ⟨m, hm, hq⟩ := bind_eq_ok_iff.mp h
  obtain ⟨-, rfl⟩ := toUnsigned_eq_ok_iff.mp hq
  obtain ⟨hL, rfl⟩ := token1Move_eq_ok hm
  refine ⟨Nat.le_add_right _ _, fun t ht => ?_⟩
  rw [mul_comm L, ← Rounding.le_div_floor_iff hL]
  omega

/-- Paying out token 1 reaches no price below one that yields the amount. -/
theorem priceRemovingToken1_spec (h : priceRemovingToken1 p L amount = .ok q) :
    q ≤ p ∧ ∀ t ≤ p, amount * pow2 96 ≤ L * (p - t) → t ≤ q := by
  obtain ⟨m, hm, hq⟩ := bind_eq_ok_iff.mp h
  split at hq
  · cases hq
  · obtain ⟨-, rfl⟩ := toUnsigned_eq_ok_iff.mp hq
    obtain ⟨hL, rfl⟩ := token1Move_eq_ok hm
    refine ⟨Nat.sub_le _ _, fun t ht hyield => ?_⟩
    have := (Rounding.div_ceil_le_iff hL).mpr (mul_comm L _ ▸ hyield)
    omega

theorem checkCurve_eq_ok_iff : checkCurve p L = .ok () ↔ 0 < p ∧ 0 < L := by
  unfold checkCurve
  split
  · rename_i h
    simp [h]
  · split
    · rename_i h
      simp [h]
    · rename_i hp hL
      simp [Nat.pos_of_ne_zero hp, Nat.pos_of_ne_zero hL]

variable {d : Direction}

/-- **An input moves the price as far as it covers, and not beyond a price it does not cover.** -/
theorem priceAfterInput_spec (h : priceAfterInput d p L amount = .ok q) :
    d.Leads p q ∧ d.Covers p q L amount ∧
      ∀ t, d.Leads p t → ¬ d.Covers p t L amount → d.Leads q t := by
  obtain ⟨⟨⟩, hc, h⟩ := bind_eq_ok_iff.mp h
  obtain ⟨hp, -⟩ := checkCurve_eq_ok_iff.mp hc
  cases d with
  | down =>
    obtain ⟨hle, hcost, hreach⟩ := priceAddingToken0_spec hp h
    refine ⟨hle, (Direction.covers_down_iff hle).mpr hcost, fun t ht hnot => hreach t ht ?_⟩
    rw [Direction.covers_down_iff ht, not_le] at hnot
    exact hnot.le
  | up =>
    obtain ⟨hle, hreach⟩ := priceAddingToken1_spec h
    refine ⟨hle, (hreach q hle).mp (le_refl q), fun t ht hnot => ?_⟩
    have : ¬ t ≤ q := fun htq => hnot ((hreach t ht).mp htq)
    exact (not_le.mp this).le

/-- **An output moves the price no further than to a price that yields it.** -/
theorem priceAfterOutput_spec (h : priceAfterOutput d p L amount = .ok q) :
    d.Leads p q ∧ ∀ t, d.Leads p t → d.Yields p t L amount → d.Leads q t := by
  obtain ⟨⟨⟩, -, h⟩ := bind_eq_ok_iff.mp h
  cases d with
  | down => exact priceRemovingToken1_spec h
  | up => exact priceRemovingToken0_spec h

/-- The price rises far enough for the token 0 that is paid out. -/
theorem priceRemovingToken0_yields (h : priceRemovingToken0 p L amount = .ok q) :
    amount * (p * q) ≤ L * pow2 96 * (q - p) := by
  have hpq := (priceRemovingToken0_spec h).1
  unfold priceRemovingToken0 at h
  generalize L * pow2 96 = scaled at *
  split at h
  · rename_i h0
    rw [h0, zero_mul]
    exact Nat.zero_le _
  · dsimp only at h
    split at h
    · rename_i hlt
      obtain ⟨hd, -, hq⟩ := mulDiv_eq_ok_iff.mp h
      have hceil := Rounding.le_div_ceil_mul (Nat.pos_of_ne_zero hd) (scaled * p)
      rw [← hq] at hceil
      zify [hlt.le, hpq] at hceil ⊢
      linarith
    · cases h

/-- The price falls far enough for the token 1 that is paid out. -/
theorem priceRemovingToken1_yields (h : priceRemovingToken1 p L amount = .ok q) :
    amount * pow2 96 ≤ L * (p - q) := by
  obtain ⟨m, hm, hq⟩ := bind_eq_ok_iff.mp h
  split at hq
  · cases hq
  · rename_i hmp
    obtain ⟨-, rfl⟩ := toUnsigned_eq_ok_iff.mp hq
    obtain ⟨hL, hmove⟩ := token1Move_eq_ok hm
    have hceil := Rounding.le_div_ceil_mul hL (amount * pow2 96)
    rw [← hmove] at hceil
    rwa [Nat.sub_sub_self (not_le.mp hmp).le, mul_comm L]

/-- **The move that an output makes yields it.** -/
theorem priceAfterOutput_yields (h : priceAfterOutput d p L amount = .ok q) :
    d.Yields p q L amount := by
  obtain ⟨⟨⟩, -, h⟩ := bind_eq_ok_iff.mp h
  cases d with
  | down => exact priceRemovingToken1_yields h
  | up => exact priceRemovingToken0_yields h

end Moves

end Clamm
