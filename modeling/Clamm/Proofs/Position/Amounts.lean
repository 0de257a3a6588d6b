import Mathlib
import Clamm.Position.Basic
import Clamm.Proofs.Swap.Total

/-!
# The amounts of a position

Which formula gives the amounts of a position depends on the tick of its pool, and the amounts depend
on the price. A price that lies within its tick makes the two agree: `Position.heldPrice` is the
price, moved to the nearer end of the range from outside, and at it one formula does for all ticks.
A price on an end of the range belongs to two ticks, and counts as that end with either of them.

* `Position.amounts_eq`: the amounts are those between the ends of the range and `heldPrice`.
* `Position.amounts_total`: there always are some.
* `Position.At.amounts_le`: as the price rises, token 0 only shrinks and token 1 only grows.
-/

namespace Clamm

/-! ## Amounts between two prices -/

section Between

variable {a a' b b' c c' lo hi L x x' : ℕ} {r : Rounding}

theorem amount0Between_self (hc : 0 < c) : amount0Between c c L r = .ok 0 := by
  cases r with
  | floor => exact outputBetween_self (d := .up) hc
  | ceil => exact inputBetween_self (d := .down) hc

theorem amount1Between_self (hc : 0 < c) : amount1Between c c L r = .ok 0 := by
  cases r with
  | floor => exact outputBetween_self (d := .down) hc
  | ceil => exact inputBetween_self (d := .up) hc

/-- A quotient of either rounding grows with the dividend and shrinks with the divisor. -/
theorem Rounding.div_le_div (ha : a ≤ a') (hb : b' ≤ b) (h0 : 0 < b') :
    r.div a b ≤ r.div a' b' := by
  cases r with
  | floor => exact Nat.div_le_div ha hb h0.ne'
  | ceil =>
    rw [div_ceil_le_iff (h0.trans_le hb)]
    exact ha.trans ((le_div_ceil_mul h0 a').trans (Nat.mul_le_mul_left _ hb))

/-- There is less token 0 above a higher price. -/
theorem amount0Between_anti (hc : c ≤ c') (hc' : c' ≤ hi) (h : amount0Between c hi L r = .ok x)
    (h' : amount0Between c' hi L r = .ok x') : x' ≤ x := by
  obtain ⟨h0, -, rfl⟩ := (amount0Between_eq_ok_iff (hc.trans hc')).mp h
  obtain ⟨-, -, rfl⟩ := (amount0Between_eq_ok_iff hc').mp h'
  refine Rounding.div_le_div (Rounding.div_le_div ?_ le_rfl (h0.trans_le (hc.trans hc'))) hc h0
  exact Nat.mul_le_mul_left _ (Nat.sub_le_sub_left hc hi)

/-- There is more token 1 below a higher price. -/
theorem amount1Between_mono (hc : lo ≤ c) (hc' : c ≤ c') (h : amount1Between lo c L r = .ok x)
    (h' : amount1Between lo c' L r = .ok x') : x ≤ x' := by
  obtain ⟨-, rfl⟩ := (amount1Between_eq_ok_iff hc).mp h
  obtain ⟨-, rfl⟩ := (amount1Between_eq_ok_iff (hc.trans hc')).mp h'
  refine Rounding.div_le_div ?_ le_rfl (pow2_pos 96)
  exact Nat.mul_le_mul_left _ (Nat.sub_le_sub_right hc' lo)

end Between

namespace Position

/-- The square-root price of the pool, moved to the nearer end of the range from outside. -/
def heldPrice (p : Position) : ℕ :=
  max (ratioAt p.lower) (min p.pool.state.sqrtPrice (ratioAt p.upper))

variable {p : Position}

/-! ## The range -/

theorem low_lt_high (p : Position) : ratioAt p.lower < ratioAt p.upper :=
  ratioAt_lt_ratioAt p.lower_mem.1 p.lower_lt_upper p.upper_mem.1

theorem low_le_heldPrice (p : Position) : ratioAt p.lower ≤ p.heldPrice := le_max_left _ _

theorem heldPrice_le_high (p : Position) : p.heldPrice ≤ ratioAt p.upper :=
  max_le p.low_lt_high.le (min_le_right _ _)

theorem sqrtPriceAt_lower (p : Position) : sqrtPriceAt p.lower = .ok (ratioAt p.lower) :=
  sqrtPriceAt_eq_ok_iff.mpr ⟨⟨p.lower_mem.1, p.lower_lt_upper.le.trans p.upper_mem.1⟩, rfl⟩

theorem sqrtPriceAt_upper (p : Position) : sqrtPriceAt p.upper = .ok (ratioAt p.upper) :=
  sqrtPriceAt_eq_ok_iff.mpr ⟨⟨p.lower_mem.1.trans p.lower_lt_upper.le, p.upper_mem.1⟩, rfl⟩

theorem priced_low (p : Position) : Priced 32 (ratioAt p.lower) := by
  have h := p.lower_lt_upper.le.trans p.upper_mem.1
  exact priced_of_range (ratioAt_range p.lower_mem.1 h).1 (ratioAt_range p.lower_mem.1 h).2

theorem priced_high (p : Position) : Priced 32 (ratioAt p.upper) := by
  have h := p.lower_mem.1.trans p.lower_lt_upper.le
  exact priced_of_range (ratioAt_range h p.upper_mem.1).1 (ratioAt_range h p.upper_mem.1).2

theorem priced_heldPrice (p : Position) : Priced 32 p.heldPrice :=
  p.priced_low.between (d := .up) p.priced_high p.low_le_heldPrice p.heldPrice_le_high

/-! ## Where the tick puts the price -/

/-- Below the range the price is at most its lower end. -/
theorem heldPrice_of_below (h : p.pool.state.tick < p.lower) : p.heldPrice = ratioAt p.lower := by
  have hlow := p.lower_lt_upper.le.trans p.upper_mem.1
  have hprice := p.pool.price_mem.2.trans
    (ratioAt_le_ratioAt (by have := p.pool.tick_mem.1; omega) (Int.add_one_le_of_lt h) hlow)
  exact max_eq_left ((min_le_left _ _).trans hprice)

/-- Above the range the price is at least its upper end. -/
theorem heldPrice_of_above (h : p.upper ≤ p.pool.state.tick) : p.heldPrice = ratioAt p.upper := by
  have hhigh := p.lower_mem.1.trans p.lower_lt_upper.le
  have hprice := (ratioAt_le_ratioAt hhigh h p.pool.tick_mem.2.le).trans p.pool.price_mem.1
  unfold heldPrice
  rw [min_eq_right hprice, max_eq_right p.low_lt_high.le]

/-- Inside the range it lies between the two. -/
theorem heldPrice_of_inside (h1 : p.lower ≤ p.pool.state.tick) (h2 : p.pool.state.tick < p.upper) :
    p.heldPrice = p.pool.state.sqrtPrice := by
  have htick := p.pool.tick_mem
  have hlow := (ratioAt_le_ratioAt p.lower_mem.1 h1 htick.2.le).trans p.pool.price_mem.1
  have hhigh := p.pool.price_mem.2.trans
    (ratioAt_le_ratioAt (by omega) (Int.add_one_le_of_lt h2) p.upper_mem.1)
  unfold heldPrice
  rw [min_eq_left hhigh, max_eq_right hlow]

/-! ## Amounts -/

/-- **One formula for the amounts**: token 0 from the held price up to the end of the range, token 1
from the start of the range up to the held price. -/
theorem amounts_eq (p : Position) (r : Rounding) :
    p.amounts r = do
      return ⟨← amount0Between p.heldPrice (ratioAt p.upper) p.liquidity r,
        ← amount1Between (ratioAt p.lower) p.heldPrice p.liquidity r⟩ := by
  unfold amounts
  dsimp only
  split
  · rename_i hbelow
    rw [heldPrice_of_below hbelow, amount1Between_self p.priced_low.pos]
    rfl
  · rename_i hbelow
    split
    · rename_i habove
      rw [heldPrice_of_inside (not_lt.mp hbelow) habove]
    · rename_i habove
      rw [heldPrice_of_above (not_lt.mp habove), amount0Between_self p.priced_high.pos]
      rfl

/-- **A position always has its amounts.** -/
theorem amounts_total (p : Position) (r : Rounding) : ∃ m, p.amounts r = .ok m ∧
    amount0Between p.heldPrice (ratioAt p.upper) p.liquidity r = .ok m.amount0 ∧
    amount1Between (ratioAt p.lower) p.heldPrice p.liquidity r = .ok m.amount1 := by
  obtain ⟨x, hx, -⟩ := amount0Between_total (r := r) p.priced_heldPrice p.priced_high (le_refl 32)
    p.liquidity_lt
  obtain ⟨y, hy, -⟩ := amount1Between_total (r := r) p.priced_low p.priced_heldPrice (le_refl 32)
    p.liquidity_lt
  refine ⟨⟨x, y⟩, ?_, hx, hy⟩
  rw [amounts_eq, hx, ok_bind, hy, ok_bind]
  rfl

/-! ## The same position at other prices -/

/-- Position `p'` has the range of `p` and liquidity `l`, in a pool at square-root price `q`. -/
structure At (p : Position) (q l : ℕ) (p' : Position) : Prop where
  price : p'.pool.state.sqrtPrice = q
  lower : p'.lower = p.lower
  upper : p'.upper = p.upper
  liquidity : p'.liquidity = l

/-- **As the price rises, token 0 only shrinks and token 1 only grows**, whatever the pools. -/
theorem At.amounts_le {p' p'' : Position} {q q' l : ℕ} {r : Rounding} {m m' : TokenAmounts}
    (h : p.At q l p') (h' : p.At q' l p'') (hq : q ≤ q') (hm : p'.amounts r = .ok m)
    (hm' : p''.amounts r = .ok m') : m'.amount0 ≤ m.amount0 ∧ m.amount1 ≤ m'.amount1 := by
  obtain ⟨m₁, hm₁, h0, h1⟩ := p'.amounts_total r
  obtain ⟨m₂, hm₂, h0', h1'⟩ := p''.amounts_total r
  cases hm.symm.trans hm₁
  cases hm'.symm.trans hm₂
  have hheld : p'.heldPrice ≤ p''.heldPrice := by
    unfold heldPrice
    rw [h.price, h.lower, h.upper, h'.price, h'.lower, h'.upper]
    exact max_le_max le_rfl (min_le_min_right _ hq)
  have hlow := p'.low_le_heldPrice
  have hhigh := p''.heldPrice_le_high
  rw [h.upper, h.liquidity] at h0
  rw [h.lower, h.liquidity] at h1
  rw [h'.upper, h'.liquidity] at h0'
  rw [h'.lower, h'.liquidity] at h1'
  rw [h.lower] at hlow
  rw [h'.upper] at hhigh
  exact ⟨amount0Between_anti hheld hhigh h0 h0', amount1Between_mono hlow hheld h1 h1'⟩

end Position

end Clamm
