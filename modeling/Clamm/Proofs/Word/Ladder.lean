import Mathlib
import Clamm.Word.Ladder
import Clamm.Proofs.Grid.Inverse
import Clamm.Proofs.Word.Division

/-!
# The tick grid on words

A ratio has at most 129 bits and a factor at most 128, so no product of the ladder wraps: on words
`ladder` is `decay`, and `Word.sqrtPriceAt` is `sqrtPriceAt`. What the grid is known for then holds
of the prices computed on words.

* `products_fit`, `toNat_climb`: both by induction on the factors, with the bound on the ratio as
  the invariant.
* `sqrtPriceAt_increasing`: every tick of the grid has its price, above that of the tick before.
-/

namespace Clamm.Word

open Clamm

variable {cs : List ℕ} {c n : ℕ} {ratio : Word} {t : ℤ}

/-! ## The ladder -/

theorem toNat_factor (hc : c < 2 ^ 128) : (BitVec.ofNat 256 c : Word).toNat = c := by
  rw [BitVec.toNat_ofNat]
  exact Nat.mod_eq_of_lt (hc.trans (by norm_num))

/-- A ratio of at most one and a factor below one. -/
theorem product_fits (hc : c < 2 ^ 128) (hr : ratio.toNat ≤ 2 ^ 128) :
    ratio.toNat * (BitVec.ofNat 256 c : Word).toNat < 2 ^ 256 := by
  rw [toNat_factor hc]
  calc ratio.toNat * c ≤ 2 ^ 128 * c := Nat.mul_le_mul_right _ hr
    _ < 2 ^ 128 * 2 ^ 128 := Nat.mul_lt_mul_of_pos_left hc (by positivity)
    _ = 2 ^ 256 := by norm_num

theorem toNat_rung (hc : c < 2 ^ 128) (hr : ratio.toNat ≤ 2 ^ 128) :
    ((ratio * BitVec.ofNat 256 c) >>> 128).toNat = ratio.toNat * c / pow2 128 := by
  rw [BitVec.toNat_ushiftRight, BitVec.toNat_mul, Nat.mod_eq_of_lt (product_fits hc hr),
    toNat_factor hc, Nat.shiftRight_eq_div_pow]
  rfl

/-- The next ratio is at most one again. -/
theorem rung_le (hc : c < 2 ^ 128) (hr : ratio.toNat ≤ 2 ^ 128) :
    ((ratio * BitVec.ofNat 256 c) >>> 128).toNat ≤ 2 ^ 128 := by
  rw [toNat_rung hc hr]
  exact (Nat.div_le_of_le_mul (Nat.mul_le_mul_right c hr)).trans hc.le

theorem products_fit (hcs : ∀ c ∈ cs, c < 2 ^ 128) (hr : ratio.toNat ≤ 2 ^ 128) :
    ∀ p ∈ products cs n ratio, p.1.toNat * p.2.toNat < 2 ^ 256 := by
  induction cs generalizing n ratio with
  | nil => simp [products]
  | cons c cs ih =>
    obtain ⟨hc, hcs⟩ := List.forall_mem_cons.mp hcs
    unfold products
    split
    · exact List.forall_mem_cons.mpr ⟨product_fits hc hr, ih hcs (rung_le hc hr)⟩
    · exact ih hcs hr

theorem toNat_climb (hcs : ∀ c ∈ cs, c < 2 ^ 128) (hr : ratio.toNat ≤ 2 ^ 128) :
    (climb cs n ratio).toNat = decay cs n ratio.toNat := by
  induction cs generalizing n ratio with
  | nil => rfl
  | cons c cs ih =>
    obtain ⟨hc, hcs⟩ := List.forall_mem_cons.mp hcs
    unfold climb decay
    split
    · rw [ih hcs (rung_le hc hr), toNat_rung hc hr]
    · exact ih hcs hr

theorem decayFactors_lt : ∀ c ∈ decayFactors, c < 2 ^ 128 := by decide

/-- The first factor is taken instead of multiplying one by it. -/
theorem toNat_bottom (n : ℕ) : (bottom decayFactors n).toNat =
    if n % 2 = 1 then pow2 128 * 0xfffcb933bd6fad37aa2d162d1a594001 / pow2 128 else pow2 128 := by
  simp only [bottom, decayFactors]
  split <;> rfl

theorem bottom_le (n : ℕ) : (bottom decayFactors n).toNat ≤ 2 ^ 128 := by
  rw [toNat_bottom]
  split <;> decide

/-- **On words the ladder loses nothing.** -/
theorem toNat_ladder (n : ℕ) : (ladder n).toNat = decay decayFactors n (pow2 128) := by
  rw [ladder, toNat_climb (fun c hc => decayFactors_lt c (List.mem_of_mem_tail hc)) (bottom_le n),
    toNat_bottom]
  rfl

theorem ladderProducts_fit (n : ℕ) :
    ∀ p ∈ ladderProducts n, p.1.toNat * p.2.toNat < 2 ^ 256 :=
  products_fit (fun c hc => decayFactors_lt c (List.mem_of_mem_tail hc)) (bottom_le n)

/-! ## Prices -/

/-- No tick of the grid has its ratio cut to nothing. -/
theorem ladder_ne_zero (hn : n ≤ 887272) : ladder n ≠ 0 := by
  intro h
  have hdecay : decay decayFactors n (pow2 128) = 0 := by
    rw [← toNat_ladder, h]
    rfl
  have hpos : 0 < Clamm.ratioAt (-n) :=
    ratioAt_pos (by unfold minTick; omega) (by unfold maxTick; omega)
  rw [Clamm.ratioAt, Int.natAbs_neg, Int.natAbs_natCast, hdecay, Nat.div_zero, ite_self] at hpos
  exact absurd hpos (by decide)

/-- The last 32 bits are rounded up. -/
theorem toNat_roundUp (ratio : Word) :
    ((ratio >>> 32) + if ratio &&& 0xffffffff = 0 then 0 else 1).toNat =
      Rounding.ceil.div ratio.toNat (pow2 32) := by
  have hcut : ratio &&& 0xffffffff = 0 ↔ ratio.toNat % pow2 32 = 0 := by
    rw [← BitVec.toNat_inj, BitVec.toNat_and, show (0xffffffff : Word).toNat = 2 ^ 32 - 1 from rfl,
      Nat.and_two_pow_sub_one_eq_mod]
    rfl
  have hlt := ratio.isLt
  have hone : (if ratio &&& 0xffffffff = 0 then 0 else 1 : Word).toNat =
      if ratio.toNat % pow2 32 = 0 then 0 else 1 := by
    simp only [hcut]
    split <;> rfl
  rw [Rounding.div_ceil (pow2_pos 32), BitVec.toNat_add, BitVec.toNat_ushiftRight,
    Nat.shiftRight_eq_div_pow, hone, show pow2 32 = 2 ^ 32 from rfl]
  refine Nat.mod_eq_of_lt ?_
  split <;> omega

/-- **On words a tick of the grid has its price.** -/
theorem sqrtPriceAt_eq_ok (h1 : minTick ≤ t) (h2 : t ≤ maxTick) :
    ∃ p, sqrtPriceAt t = .ok p ∧ p.toNat = Clamm.ratioAt t := by
  unfold minTick at h1
  unfold maxTick at h2
  have hladder := toNat_ladder t.natAbs
  have hne : ladder t.natAbs ≠ 0 := ladder_ne_zero (by omega)
  rw [sqrtPriceAt, if_neg (by unfold maxTick; omega), ratioAt, Clamm.ratioAt, ← hladder]
  by_cases ht : 0 < t
  · simp only [if_pos ht, divide, if_neg hne, ok_bind]
    exact ⟨_, rfl, toNat_roundUp _⟩
  · simp only [if_neg ht]
    exact ⟨_, rfl, toNat_roundUp _⟩

theorem sqrtPriceAt_eq_error (h : t < minTick ∨ maxTick < t) :
    sqrtPriceAt t = .error (.state .tickOutOfBounds) := by
  unfold minTick maxTick at h
  rw [sqrtPriceAt, if_pos (by unfold maxTick; omega)]

/-- **The grid on words is strictly increasing.** Every tick of the range has a price, within the
range of prices and without a product that wraps; the price of the next tick is above it. Every
other tick is refused. -/
theorem sqrtPriceAt_increasing (t : ℤ) :
    (minTick ≤ t ∧ t < maxTick →
      ∃ p q, sqrtPriceAt t = .ok p ∧ sqrtPriceAt (t + 1) = .ok q ∧ p < q) ∧
    (minTick ≤ t ∧ t ≤ maxTick →
      ∃ p, sqrtPriceAt t = .ok p ∧ minSqrtPrice ≤ p.toNat ∧ p.toNat ≤ maxSqrtPrice) ∧
    (∀ x ∈ ladderProducts t.natAbs, x.1.toNat * x.2.toNat < 2 ^ 256) ∧
    (t < minTick ∨ maxTick < t → sqrtPriceAt t = .error (.state .tickOutOfBounds)) := by
  refine ⟨fun ⟨h1, h2⟩ => ?_, fun ⟨h1, h2⟩ => ?_, ladderProducts_fit _, sqrtPriceAt_eq_error⟩
  · obtain ⟨p, hp, hpt⟩ := sqrtPriceAt_eq_ok h1 h2.le
    obtain ⟨q, hq, hqt⟩ := sqrtPriceAt_eq_ok (show minTick ≤ t + 1 by omega) h2
    refine ⟨p, q, hp, hq, ?_⟩
    rw [BitVec.lt_def, hpt, hqt]
    exact ratioAt_lt_ratioAt h1 (Int.lt_succ t) h2
  · obtain ⟨p, hp, hpt⟩ := sqrtPriceAt_eq_ok h1 h2
    exact ⟨p, hp, hpt ▸ ratioAt_range h1 h2⟩

/-- At the lowest tick, where a price has the fewest bits, at the highest and past it. -/
theorem sqrtPriceAt_increasing_ends :
    ((minTick ≤ minTick ∧ minTick < maxTick) ∧
      ∃ p q, sqrtPriceAt minTick = .ok p ∧ sqrtPriceAt (minTick + 1) = .ok q ∧ p < q) ∧
    ((minTick ≤ maxTick ∧ maxTick ≤ maxTick) ∧
      ∃ p, sqrtPriceAt maxTick = .ok p ∧ minSqrtPrice ≤ p.toNat ∧ p.toNat ≤ maxSqrtPrice) ∧
    (maxTick < maxTick + 1 ∧ sqrtPriceAt (maxTick + 1) = .error (.state .tickOutOfBounds)) :=
  have hlow : minTick ≤ minTick ∧ minTick < maxTick := by decide
  have hhigh : minTick ≤ maxTick ∧ maxTick ≤ maxTick := by decide
  have hpast : maxTick < maxTick + 1 := by decide
  ⟨⟨hlow, (sqrtPriceAt_increasing minTick).1 hlow⟩,
    ⟨hhigh, (sqrtPriceAt_increasing maxTick).2.1 hhigh⟩,
    ⟨hpast, (sqrtPriceAt_increasing (maxTick + 1)).2.2.2 (Or.inr hpast)⟩⟩

end Clamm.Word
