import Mathlib
import Clamm.Proofs.Step.Total
import Clamm.Proofs.Word.Step

/-!
# Amounts are exact quotients, rounded once

A unit of liquidity holds `held0 a b` of token 0 and `held1 a b` of token 1 between two square-root
prices. Whatever the prices of at most `2 ^ 160` and the liquidity, no amount between them fails, and
each is what the liquidity holds, rounded once.

* `Rounding.div_div`: two divisions that round in the same direction round like the one by the
  product. Token 0 is divided by one price after the other.
* `amount0Between_holds`, `amount1Between_holds`: the amounts between two prices.
* `Holds.signedDelta`: the amount for a signed change of liquidity rounds up what the change holds,
  whichever its sign, since the floor of a magnitude is the ceiling of its negation.
* `toInt_amount0Delta`, `toInt_amount1Delta`: signed amounts on words are those on numbers.
* `amounts_rounded_once`, `deltas_unsplittable`: the two laws on words. A ceiling is subadditive, and
  what is held adds up over changes of liquidity and over ranges of prices, so no split of a change
  comes to less than the whole of it.
-/

namespace Clamm

/-! ## Rounding twice -/

/-- **Two divisions round like one by the product.** -/
theorem Rounding.div_div (r : Rounding) (a : ℕ) {b c : ℕ} (hb : 0 < b) (hc : 0 < c) :
    r.div (r.div a b) c = r.div a (b * c) := by
  cases r with
  | floor => exact Nat.div_div_eq_div_mul a b c
  | ceil =>
    refine eq_of_forall_ge_iff fun q => ?_
    rw [div_ceil_le_iff hc, div_ceil_le_iff hb, div_ceil_le_iff (Nat.mul_pos hb hc), mul_assoc,
      mul_comm c]

/-- The two roundings are at most one apart. -/
theorem Rounding.of_adjacent (x : ℚ) :
    Rounding.floor.of x ≤ Rounding.ceil.of x ∧ Rounding.ceil.of x ≤ Rounding.floor.of x + 1 :=
  ⟨Nat.floor_le_ceil x, Nat.ceil_le_floor_add_one x⟩

/-! ## What liquidity holds -/

/-- The token 0 that a unit of liquidity holds between the square-root prices `a` and `b`. -/
def held0 (a b : ℕ) : ℚ := 2 ^ 96 * (max a b - min a b) / (max a b * min a b)

/-- The token 1 that a unit of liquidity holds between the square-root prices `a` and `b`. -/
def held1 (a b : ℕ) : ℚ := (max a b - min a b) / 2 ^ 96

section Held

variable {a b c L : ℕ}

theorem held0_nonneg (a b : ℕ) : 0 ≤ held0 a b := by
  have h : ((min a b : ℕ) : ℚ) ≤ (max a b : ℕ) := by exact_mod_cast min_le_max
  exact div_nonneg (mul_nonneg (by positivity) (sub_nonneg.mpr h)) (by positivity)

theorem held1_nonneg (a b : ℕ) : 0 ≤ held1 a b := by
  have h : ((min a b : ℕ) : ℚ) ≤ (max a b : ℕ) := by exact_mod_cast min_le_max
  exact div_nonneg (sub_nonneg.mpr h) (by positivity)

theorem held0_comm (a b : ℕ) : held0 a b = held0 b a := by
  unfold held0
  rw [max_comm, min_comm]

theorem held0_of_le (h : a ≤ b) : held0 a b = 2 ^ 96 * (b - a) / (b * a) := by
  unfold held0
  rw [max_eq_right h, min_eq_left h]

theorem held1_of_le (h : a ≤ b) : held1 a b = (b - a) / 2 ^ 96 := by
  unfold held1
  rw [max_eq_right h, min_eq_left h]

/-- What is held between two prices is held on both sides of any price between them. -/
theorem held0_add (ha : 0 < a) (hab : a ≤ b) (hbc : b ≤ c) :
    held0 a b + held0 b c = held0 a c := by
  have ha' : (a : ℚ) ≠ 0 := by exact_mod_cast ha.ne'
  have hb' : (b : ℚ) ≠ 0 := by exact_mod_cast (ha.trans_le hab).ne'
  have hc' : (c : ℚ) ≠ 0 := by exact_mod_cast (ha.trans_le (hab.trans hbc)).ne'
  rw [held0_of_le hab, held0_of_le hbc, held0_of_le (hab.trans hbc)]
  field_simp
  ring

theorem held1_add (hab : a ≤ b) (hbc : b ≤ c) : held1 a b + held1 b c = held1 a c := by
  rw [held1_of_le hab, held1_of_le hbc, held1_of_le (hab.trans hbc)]
  ring

/-! ## Amounts between two prices -/

/-- At every liquidity of at most 128 bits `amounts` are what the liquidity holds, rounded. -/
structure Holds (amounts : ℕ → Rounding → Except Error ℕ) (held : ℚ) : Prop where
  nonneg : 0 ≤ held
  eq_ok : ∀ {L}, L < pow2 128 → ∀ r, amounts L r = .ok (r.of (L * held))
  le : ∀ {L}, L < pow2 128 → ∀ r : Rounding, r.of (L * held) ≤ pow2 224

/-- An amount that is known both by its bound and as a rounded value. -/
theorem Holds.of_total {amounts : ℕ → Rounding → Except Error ℕ} {held : ℚ} (hheld : 0 ≤ held)
    (htotal : ∀ {L}, L < pow2 128 → ∀ r, ∃ x, amounts L r = .ok x ∧ x ≤ pow2 224)
    (hrounds : ∀ {L x r}, amounts L r = .ok x → x = r.of (L * held)) : Holds amounts held := by
  refine ⟨hheld, fun hL r => ?_, fun hL r => ?_⟩
  · obtain ⟨x, hx, -⟩ := htotal hL r
    rw [hx, hrounds hx]
  · obtain ⟨x, hx, hle⟩ := htotal hL r
    exact hrounds hx ▸ hle

theorem eq_of_amount0Between {x : ℕ} {r : Rounding} (h : a ≤ b)
    (hx : amount0Between a b L r = .ok x) : x = r.of (L * held0 a b) := by
  obtain ⟨ha, -, rfl⟩ := (amount0Between_eq_ok_iff h).mp hx
  have hb := ha.trans_le h
  have hheld : ((L * pow2 96 * (b - a) : ℕ) : ℚ) / (b * a : ℕ) = L * held0 a b := by
    rw [held0_of_le h, show pow2 96 = 2 ^ 96 from rfl]
    push_cast [h]
    ring
  rw [Rounding.div_div r _ hb ha, ← hheld, Rounding.of_div r _ (Nat.mul_pos hb ha)]

/-- **Token 0 is what the liquidity holds, rounded once.** -/
theorem amount0Between_holds (ha : Priced 0 a) (hb : Priced 0 b) :
    Holds (amount0Between a b) (held0 a b) := by
  refine .of_total (held0_nonneg a b) (fun hL r => amount0Between_total ha hb (Nat.zero_le 32) hL)
    fun hx => ?_
  rcases le_total a b with h | h
  · exact eq_of_amount0Between h hx
  · rw [amount0Between_comm] at hx
    rw [held0_comm]
    exact eq_of_amount0Between h hx

/-- **Token 1 is what the liquidity holds, rounded.** -/
theorem amount1Between_holds (ha : Priced 0 a) (hb : Priced 0 b) :
    Holds (amount1Between a b) (held1 a b) := by
  refine .of_total (held1_nonneg a b) (fun hL r => amount1Between_total ha hb (Nat.zero_le 32) hL)
    fun {L x r} hx => ?_
  obtain ⟨-, -, rfl⟩ := mulDiv_eq_ok_iff.mp hx
  have hheld : ((L * (max a b - min a b) : ℕ) : ℚ) / (pow2 96 : ℕ) = L * held1 a b := by
    rw [held1, show pow2 96 = 2 ^ 96 from rfl, Nat.cast_mul, Nat.cast_sub min_le_max]
    push_cast
    ring
  rw [← hheld, Rounding.of_div r _ (pow2_pos 96)]

end Held

/-! ## Amounts for a signed change -/

theorem asInt256_of_lt {x : ℕ} (h : x < pow2 255) : asInt256 x = x := by
  have hdouble : pow2 256 = 2 * pow2 255 := rfl
  exact Int.bmod_eq_of_le (by omega) (by omega)

/-- **A signed amount rounds up what the change holds**, whichever its sign. -/
theorem Holds.signedDelta {amounts : ℕ → Rounding → Except Error ℕ} {held : ℚ} {change : ℤ}
    (h : Holds amounts held) (hchange : change.natAbs < pow2 128) :
    signedDelta change amounts = .ok ⌈change * held⌉ := by
  have hmagnitude : 0 ≤ (change.natAbs : ℚ) * held := mul_nonneg (Nat.cast_nonneg _) h.nonneg
  have hread : ∀ r : Rounding, asInt256 (r.of (change.natAbs * held)) = r.of (change.natAbs * held) :=
    fun r => asInt256_of_lt ((h.le hchange r).trans_lt (pow2_lt (by omega)))
  unfold Clamm.signedDelta
  by_cases hadds : 0 ≤ change
  · have hcast : (change.natAbs : ℚ) = change := by rw [Nat.cast_natAbs, abs_of_nonneg hadds]
    rw [if_pos hadds, h.eq_ok hchange, ok_bind, hread, ← hcast]
    exact congrArg Except.ok (Int.natCast_ceil_eq_ceil hmagnitude)
  · have hcast : (change.natAbs : ℚ) = -change := by
      rw [Nat.cast_natAbs, abs_of_neg (not_le.mp hadds), Int.cast_neg]
    -- the floor of a magnitude, negated, is the ceiling of its negation
    rw [if_neg hadds, h.eq_ok hchange, ok_bind, hread, Rounding.of,
      Int.natCast_floor_eq_floor hmagnitude, ← Int.ceil_neg, hcast, neg_mul, neg_neg]
    rfl

namespace Word

/-! ## Amounts on words -/

section Amounts

variable {a b : Word} {L : Liquidity}

theorem amount0Between_comm (a b : Word) (L : Liquidity) (r : Rounding) :
    amount0Between a b L r = amount0Between b a L r :=
  value_inj.mp (by rw [value_amount0Between, value_amount0Between, Clamm.amount0Between_comm])

theorem amount1Between_comm (a b : Word) (L : Liquidity) (r : Rounding) :
    amount1Between a b L r = amount1Between b a L r :=
  value_inj.mp (by rw [value_amount1Between, value_amount1Between, Clamm.amount1Between_comm])

/-- In either order of the prices, the amount between them is the exact amount, rounded once. -/
structure RoundedOnce (between : Word → Word → Liquidity → Rounding → Except Error Word) (exact : ℚ)
    (a b : Word) (L : Liquidity) : Prop where
  rounds : ∀ r, ∃ x, between a b L r = .ok x ∧ x.toNat = r.of exact
  swap : ∀ r, between a b L r = between b a L r
  adjacent : ∀ x y, between a b L .floor = .ok x → between a b L .ceil = .ok y →
    x.toNat ≤ y.toNat ∧ y.toNat ≤ x.toNat + 1

/-- An amount on words that is what the liquidity holds as a number. -/
theorem RoundedOnce.of_holds {between : Word → Word → Liquidity → Rounding → Except Error Word}
    {amounts : ℕ → Rounding → Except Error ℕ} {held : ℚ} (h : Holds amounts held)
    (hvalue : ∀ r, value (between a b L r) = amounts L.toNat r)
    (hswap : ∀ r, between a b L r = between b a L r) :
    RoundedOnce between (L.toNat * held) a b L := by
  have hrounds : ∀ r, value (between a b L r) = .ok (r.of (L.toNat * held)) := fun r =>
    (hvalue r).trans (h.eq_ok L.isLt r)
  refine ⟨fun r => map_eq_ok_iff.mp (hrounds r), hswap, fun x y hx hy => ?_⟩
  have hfloor : x.toNat = Rounding.floor.of (L.toNat * held) := Except.ok.inj (hx ▸ hrounds .floor)
  have hceil : y.toNat = Rounding.ceil.of (L.toNat * held) := Except.ok.inj (hy ▸ hrounds .ceil)
  rw [hfloor, hceil]
  exact Rounding.of_adjacent _

/-- **Every amount between two prices is what the liquidity holds, rounded once.** -/
theorem amounts_rounded_once (ha : Priced 0 a.toNat) (hb : Priced 0 b.toNat) (L : Liquidity) :
    RoundedOnce amount0Between (L.toNat * held0 a.toNat b.toNat) a b L ∧
      RoundedOnce amount1Between (L.toNat * held1 a.toNat b.toNat) a b L :=
  ⟨.of_holds (amount0Between_holds ha hb) (value_amount0Between a b L) (amount0Between_comm a b L),
    .of_holds (amount1Between_holds ha hb) (value_amount1Between a b L) (amount1Between_comm a b L)⟩

/-- Two prices whose product is no word. The two roundings of token 0 are one apart. -/
theorem amounts_rounded_once_beyond_product :
    amount0Between (1 <<< 141) (1 <<< 144) 1000000000000000000 .floor = .ok 24868 ∧
      amount0Between (1 <<< 141) (1 <<< 144) 1000000000000000000 .ceil = .ok 24869 ∧
      Rounding.ceil.of (1000000000000000000 * held0 (2 ^ 141) (2 ^ 144)) = 24869 := by
  have hfloor : amount0Between (1 <<< 141) (1 <<< 144) 1000000000000000000 .floor = .ok 24868 := by
    decide +kernel
  have hceil : amount0Between (1 <<< 141) (1 <<< 144) 1000000000000000000 .ceil = .ok 24869 := by
    decide +kernel
  obtain ⟨x, hx, hrounds⟩ := (@amounts_rounded_once (1 <<< 141) (1 <<< 144)
    ⟨by decide, by decide⟩ ⟨by decide, by decide⟩ 1000000000000000000).1.rounds .ceil
  cases hx.symm.trans hceil
  exact ⟨hfloor, hceil, hrounds.symm⟩

end Amounts

/-! ## Signed amounts on words -/

theorem natAbs_toInt_lt (change : Liquidity) : change.toInt.natAbs < pow2 128 := by
  have hlow := change.le_toInt
  have hhigh := change.toInt_lt
  rw [show pow2 128 = 2 ^ 128 from rfl]
  omega

theorem toNat_abs (change : Liquidity) : change.abs.toNat = change.toInt.natAbs := by
  have := change.isLt
  rw [BitVec.toNat_abs, BitVec.toInt_eq_msb_cond]
  split <;> omega

/-- Signed amounts on words are those on numbers. Only the least word has no negation. -/
theorem toInt_signedDelta {between : Liquidity → Rounding → Except Error Word}
    {amounts : ℕ → Rounding → Except Error ℕ} {change : Liquidity}
    (hvalue : ∀ L r, value (between L r) = amounts L.toNat r)
    (hleast : between change.abs .floor ≠ .ok (BitVec.intMin 256)) :
    (signedDelta change between).map BitVec.toInt = Clamm.signedDelta change.toInt amounts := by
  have hread : ∀ x : Word, x.toInt = asInt256 x.toNat := BitVec.toInt_eq_toNat_bmod
  unfold signedDelta Clamm.signedDelta
  rw [← toNat_abs]
  by_cases hadds : 0 ≤ change.toInt
  · have hmsb : ¬ change.msb = true := by
      rw [BitVec.msb_eq_toInt, decide_eq_true_eq]
      exact not_lt.mpr hadds
    rw [if_neg hmsb, if_pos hadds, ← hvalue, bind_value, BitVec.abs_eq, if_neg hmsb]
    simp only [← hread]
    cases between change .ceil <;> rfl
  · have hmsb : change.msb = true := by
      rw [BitVec.msb_eq_toInt, decide_eq_true_eq]
      exact not_le.mp hadds
    rw [if_pos hmsb, if_neg hadds, ← hvalue, bind_value, map_bind]
    refine bind_congr_ok fun w hw => congrArg Except.ok ?_
    rw [← hread]
    exact BitVec.toInt_neg_of_ne_intMin fun hw' => hleast (hw' ▸ hw)

/-- No amount that liquidity holds is the least word. -/
theorem ne_intMin {between : Liquidity → Rounding → Except Error Word}
    {amounts : ℕ → Rounding → Except Error ℕ} {held : ℚ} (h : Holds amounts held)
    (hvalue : ∀ L r, value (between L r) = amounts L.toNat r) (L : Liquidity) (r : Rounding) :
    between L r ≠ .ok (BitVec.intMin 256) := by
  intro hleast
  have hread := hvalue L r
  rw [hleast, h.eq_ok L.isLt] at hread
  have heq : pow2 255 = r.of (L.toNat * held) := Except.ok.inj hread
  exact (heq.trans_le (h.le L.isLt r)).not_gt (pow2_lt (by omega))

section Signed

variable {a b c : Word} {delta : Word → Word → Liquidity → Except Error Word} {held : ℕ → ℕ → ℚ}

theorem toInt_amount0Delta (ha : Priced 0 a.toNat) (hb : Priced 0 b.toNat) (change : Liquidity) :
    (amount0Delta a b change).map BitVec.toInt =
      Clamm.amount0Delta a.toNat b.toNat change.toInt :=
  toInt_signedDelta (value_amount0Between a b)
    (ne_intMin (amount0Between_holds ha hb) (value_amount0Between a b) _ _)

theorem toInt_amount1Delta (ha : Priced 0 a.toNat) (hb : Priced 0 b.toNat) (change : Liquidity) :
    (amount1Delta a b change).map BitVec.toInt =
      Clamm.amount1Delta a.toNat b.toNat change.toInt :=
  toInt_signedDelta (value_amount1Between a b)
    (ne_intMin (amount1Between_holds ha hb) (value_amount1Between a b) _ _)

/-- Between any two prices `delta` rounds up what a change of liquidity holds, and what a unit of
liquidity holds adds up over ranges that follow one another. -/
structure RoundsUp (delta : Word → Word → Liquidity → Except Error Word) (held : ℕ → ℕ → ℚ) :
    Prop where
  exact : ∀ {a b : Word}, Priced 0 a.toNat → Priced 0 b.toNat → ∀ change : Liquidity,
    ∃ w, delta a b change = .ok w ∧ w.toInt = ⌈change.toInt * held a.toNat b.toNat⌉
  add : ∀ {a b c : ℕ}, 0 < a → a ≤ b → b ≤ c → held a b + held b c = held a c

theorem roundsUp_amount0Delta : RoundsUp amount0Delta held0 where
  exact ha hb change := map_eq_ok_iff.mp ((toInt_amount0Delta ha hb change).trans
    ((amount0Between_holds ha hb).signedDelta (natAbs_toInt_lt change)))
  add := held0_add

theorem roundsUp_amount1Delta : RoundsUp amount1Delta held1 where
  exact ha hb change := map_eq_ok_iff.mp ((toInt_amount1Delta ha hb change).trans
    ((amount1Between_holds ha hb).signedDelta (natAbs_toInt_lt change)))
  add _ := held1_add

/-- The amounts for several changes come to no less than what they hold together. -/
theorem RoundsUp.sum_le (h : RoundsUp delta held) (ha : Priced 0 a.toNat) (hb : Priced 0 b.toNat)
    (changes : List Liquidity) : ∃ parts, changes.mapM (delta a b) = .ok parts ∧
      ⌈((changes.map BitVec.toInt).sum : ℚ) * held a.toNat b.toNat⌉ ≤
        (parts.map BitVec.toInt).sum := by
  induction changes with
  | nil => exact ⟨[], rfl, by simp⟩
  | cons change changes ih =>
    obtain ⟨w, hw, hexact⟩ := h.exact ha hb change
    obtain ⟨parts, hparts, hle⟩ := ih
    refine ⟨w :: parts, ?_, ?_⟩
    · rw [List.mapM_cons, hw, hparts]
      rfl
    · rw [List.map_cons, List.map_cons, List.sum_cons, List.sum_cons, hexact, Int.cast_add, add_mul]
      exact (Int.ceil_add_le _ _).trans (add_le_add_right hle _)

/-- The amounts over two ranges that follow one another come to no less than that over both. -/
theorem RoundsUp.add_le (h : RoundsUp delta held) (ha : Priced 0 a.toNat) (hb : Priced 0 b.toNat)
    (hc : Priced 0 c.toNat) (hab : a ≤ b) (hbc : b ≤ c) (change : Liquidity) :
    ∃ x y z, delta a b change = .ok x ∧ delta b c change = .ok y ∧ delta a c change = .ok z ∧
      z.toInt ≤ x.toInt + y.toInt := by
  obtain ⟨x, hx, hexactx⟩ := h.exact ha hb change
  obtain ⟨y, hy, hexacty⟩ := h.exact hb hc change
  obtain ⟨z, hz, hexactz⟩ := h.exact ha hc change
  refine ⟨x, y, z, hx, hy, hz, ?_⟩
  rw [hexactx, hexacty, hexactz, ← h.add ha.pos (BitVec.le_def.mp hab) (BitVec.le_def.mp hbc),
    mul_add]
  exact Int.ceil_add_le _ _

/-- **No split of a change of liquidity comes to less than the whole**, neither into changes of either
sign nor into ranges that follow one another. What changes that cancel come to is never paid out. -/
theorem deltas_unsplittable (hdelta : delta = amount0Delta ∨ delta = amount1Delta)
    (ha : Priced 0 a.toNat) (hb : Priced 0 b.toNat) (hc : Priced 0 c.toNat) :
    (∀ (changes : List Liquidity) (total : Liquidity),
      total.toInt = (changes.map BitVec.toInt).sum →
        ∃ parts whole, changes.mapM (delta a b) = .ok parts ∧ delta a b total = .ok whole ∧
          whole.toInt ≤ (parts.map BitVec.toInt).sum ∧
          (total = 0 → 0 ≤ (parts.map BitVec.toInt).sum)) ∧
      (a ≤ b → b ≤ c → ∀ change, ∃ x y z, delta a b change = .ok x ∧ delta b c change = .ok y ∧
        delta a c change = .ok z ∧ z.toInt ≤ x.toInt + y.toInt) := by
  obtain ⟨held, h⟩ : ∃ held, RoundsUp delta held := by
    rcases hdelta with rfl | rfl
    · exact ⟨held0, roundsUp_amount0Delta⟩
    · exact ⟨held1, roundsUp_amount1Delta⟩
  refine ⟨fun changes total htotal => ?_, h.add_le ha hb hc⟩
  obtain ⟨parts, hparts, hle⟩ := h.sum_le ha hb changes
  obtain ⟨whole, hwhole, hexact⟩ := h.exact ha hb total
  have hcost : whole.toInt ≤ (parts.map BitVec.toInt).sum := by rwa [hexact, htotal]
  refine ⟨parts, whole, hparts, hwhole, hcost, ?_⟩
  rintro rfl
  have hnone : whole.toInt = 0 := by
    rw [hexact, show (0 : Liquidity).toInt = 0 from rfl, Int.cast_zero, zero_mul, Int.ceil_zero]
  exact hnone ▸ hcost

/-- The least change and the changes that cancel it again, and a range that is cut in two. -/
theorem deltas_unsplittable_least_change :
    (∃ parts, [BitVec.intMin 128, BitVec.intMax 128, 1].mapM
        (amount0Delta (1 <<< 96) (3 <<< 96)) = .ok parts ∧ 0 ≤ (parts.map BitVec.toInt).sum) ∧
    ∃ x y z, amount0Delta (1 <<< 96) (3 <<< 96) 1000000 = .ok x ∧
      amount0Delta (3 <<< 96) (7 <<< 96) 1000000 = .ok y ∧
      amount0Delta (1 <<< 96) (7 <<< 96) 1000000 = .ok z ∧ z.toInt ≤ x.toInt + y.toInt := by
  obtain ⟨hchanges, hranges⟩ := @deltas_unsplittable (1 <<< 96) (3 <<< 96) (7 <<< 96) amount0Delta
    (Or.inl rfl) ⟨by decide, by decide⟩ ⟨by decide, by decide⟩ ⟨by decide, by decide⟩
  obtain ⟨parts, -, hparts, -, -, hcancels⟩ := hchanges
    [BitVec.intMin 128, BitVec.intMax 128, 1] 0 (by decide)
  exact ⟨⟨parts, hparts, hcancels rfl⟩, hranges (by decide) (by decide) 1000000⟩

end Signed

end Word

end Clamm
