import Mathlib
import Clamm.Proofs.Step.Settled

/-!
# No step fails

Between prices of at most `2 ^ 160`, at a liquidity of at most 128 bits and for an order within 256
bits, every division of a step has a divisor that is not zero and a quotient within its bounds:
amounts of either token are below `2 ^ 224`, divided once more by the lower price, so prices of more
than `k` bits leave `224 - k` bits; the fee adds 20 bits at most. Liquidity is needed only to move
the price short of the target, and an order that ends short has found some.

* `inputBetween_total`, `outputBetween_total`: the amounts between two prices, with their bound.
* `priceAfterInput_total`, `priceAfterOutput_total`: the price that an order ends short at.
* `step_total`: every step, with the bounds of what it takes, gives and charges.
-/

namespace Clamm

/-- The square-root price takes more than `k` bits and is at most `2 ^ 160`. -/
def Priced (k p : ℕ) : Prop := pow2 k ≤ p ∧ p ≤ pow2 160

theorem pow2_add (m n : ℕ) : pow2 (m + n) = pow2 m * pow2 n := pow_add 2 m n

theorem pow2_le {m n : ℕ} (h : m ≤ n) : pow2 m ≤ pow2 n := Nat.pow_le_pow_right two_pos h

theorem pow2_lt {m n : ℕ} (h : m < n) : pow2 m < pow2 n := Nat.pow_lt_pow_right one_lt_two h

theorem Priced.pos {k p : ℕ} (h : Priced k p) : 0 < p := (pow2_pos k).trans_le h.1

/-! ## Quotients -/

section Quotients

variable {r : Rounding} {a b d q L amount : ℕ}

/-- A quotient of either rounding is at most `q` if `q` divisors cover the dividend. -/
theorem Rounding.div_le (hb : 0 < b) (h : a ≤ q * b) : r.div a b ≤ q := by
  cases r with
  | floor => exact Nat.div_le_of_le_mul (mul_comm q b ▸ h)
  | ceil => exact (div_ceil_le_iff hb).mpr h

theorem mulDiv_total (hd : 0 < d) (h : a * b ≤ q * d) (hq : q < pow2 256) :
    ∃ x, mulDiv r a b d = .ok x ∧ x ≤ q :=
  have hle := Rounding.div_le (r := r) hd h
  ⟨_, mulDiv_eq_ok_iff.mpr ⟨hd.ne', hle.trans_lt hq, rfl⟩, hle⟩

theorem token1Move_total (hL : 0 < L) (h : amount * pow2 96 ≤ q * L) (hq : q < pow2 256) :
    ∃ m, token1Move r L amount = .ok m ∧ m ≤ q := by
  unfold token1Move
  split
  · exact mulDiv_total hL h hq
  · rw [if_neg hL.ne']
    exact ⟨_, rfl, Rounding.div_le hL h⟩

end Quotients

/-! ## Amounts -/

section Amounts

variable {d : Direction} {r : Rounding} {k a b lo hi L : ℕ}

theorem amount0Between_total_of_le (h : lo ≤ hi) (hlo : pow2 k ≤ lo) (hk : k ≤ 32)
    (hL : L < pow2 128) : ∃ x, amount0Between lo hi L r = .ok x ∧ x ≤ pow2 (224 - k) := by
  have hpos := (pow2_pos k).trans_le hlo
  have hscaled : L * pow2 96 ≤ pow2 224 := by
    rw [pow2_add 128 96]
    exact Nat.mul_le_mul_right _ hL.le
  have hinner : r.div (L * pow2 96 * (hi - lo)) hi ≤ pow2 224 :=
    Rounding.div_le (hpos.trans_le h) (Nat.mul_le_mul hscaled (Nat.sub_le hi lo))
  refine ⟨_, (amount0Between_eq_ok_iff h).mpr ⟨hpos, hinner.trans_lt (pow2_lt (by omega)), rfl⟩, ?_⟩
  refine Rounding.div_le hpos (hinner.trans ?_)
  rw [show 224 = 224 - k + k by omega, pow2_add, Nat.add_sub_cancel]
  exact Nat.mul_le_mul_left _ hlo

theorem amount0Between_total (ha : Priced k a) (hb : Priced k b) (hk : k ≤ 32) (hL : L < pow2 128) :
    ∃ x, amount0Between a b L r = .ok x ∧ x ≤ pow2 (224 - k) := by
  rcases le_total a b with h | h
  · exact amount0Between_total_of_le h ha.1 hk hL
  · rw [amount0Between_comm]
    exact amount0Between_total_of_le h hb.1 hk hL

theorem amount1Between_total (ha : Priced k a) (hb : Priced k b) (hk : k ≤ 32) (hL : L < pow2 128) :
    ∃ x, amount1Between a b L r = .ok x ∧ x ≤ pow2 (224 - k) := by
  unfold amount1Between
  refine mulDiv_total (pow2_pos 96) ?_ (pow2_lt (by omega))
  have hspread : max a b - min a b ≤ pow2 160 :=
    (Nat.sub_le _ _).trans (max_le ha.2 hb.2)
  calc L * (max a b - min a b) ≤ pow2 128 * pow2 160 := Nat.mul_le_mul hL.le hspread
    _ = pow2 192 * pow2 96 := by rw [← pow2_add, ← pow2_add]
    _ ≤ pow2 (224 - k) * pow2 96 := Nat.mul_le_mul_right _ (pow2_le (by omega))

theorem inputBetween_total (d : Direction) (ha : Priced k a) (hb : Priced k b) (hk : k ≤ 32)
    (hL : L < pow2 128) : ∃ x, inputBetween d a b L = .ok x ∧ x ≤ pow2 (224 - k) := by
  cases d with
  | down => exact amount0Between_total ha hb hk hL
  | up => exact amount1Between_total ha hb hk hL

theorem outputBetween_total (d : Direction) (ha : Priced k a) (hb : Priced k b) (hk : k ≤ 32)
    (hL : L < pow2 128) : ∃ x, outputBetween d a b L = .ok x ∧ x ≤ pow2 (224 - k) := by
  cases d with
  | down => exact amount1Between_total ha hb hk hL
  | up => exact amount0Between_total ha hb hk hL

end Amounts

/-! ## Ending short of the target -/

section Short

variable {d : Direction} {k p t L amount : ℕ}

/-- Without liquidity every move is covered by nothing. -/
theorem liquidity_pos_of_not_covers (h : ¬ d.Covers p t L amount) : 0 < L := by
  refine Nat.pos_of_ne_zero fun h0 => h ?_
  subst h0
  cases d <;> simp [Direction.Covers]

/-- **The price after an input of token 0** exists exactly if the denominator of its fallback fits in
256 bits. -/
theorem exists_priceAddingToken0_iff (hp : 0 < p) (hp' : p < pow2 256) (hL : 0 < L)
    (hL' : L < pow2 128) : (∃ q, priceAddingToken0 p L amount = .ok q) ↔
      L * pow2 96 / p + amount < pow2 256 := by
  have hscaled : 0 < L * pow2 96 := Nat.mul_pos hL (pow2_pos 96)
  have hscaled' : L * pow2 96 < pow2 256 :=
    (Nat.mul_lt_mul_of_pos_right hL' (pow2_pos 96)).trans (pow2_lt (m := 224) (by omega))
  unfold priceAddingToken0
  generalize L * pow2 96 = scaled at *
  by_cases h0 : amount = 0
  · rw [if_pos h0, h0]
    exact iff_of_true ⟨p, rfl⟩ ((Nat.div_le_self _ _).trans_lt hscaled')
  · rw [if_neg h0]
    dsimp only
    by_cases hfits : scaled + amount * p < pow2 256
    · rw [if_pos hfits]
      refine iff_of_true ?_ ?_
      · -- the exact quotient is at most the price
        have hle : scaled * p ≤ p * (scaled + amount * p) := by
          rw [mul_add, mul_comm scaled]
          exact Nat.le_add_right _ _
        obtain ⟨q, hq, -⟩ := mulDiv_total (r := .ceil) (Nat.add_pos_left hscaled _) hle hp'
        exact ⟨q, hq⟩
      · have hwhole := Nat.div_le_self scaled p
        have hpart := Nat.le_mul_of_pos_right amount hp
        omega
    · rw [if_neg hfits]
      constructor
      · rintro ⟨q, hq⟩
        obtain ⟨e, he, -⟩ := bind_eq_ok_iff.mp hq
        exact (toUnsigned_eq_ok_iff.mp he).1
      · intro hsum
        rw [toUnsigned_eq_ok_iff.mpr ⟨hsum, rfl⟩]
        exact ⟨_, rfl⟩

/-- An input of token 1 that does not cover the way to a price of at most `2 ^ 160` ends below it. -/
theorem priceAddingToken1_total (hL : 0 < L) (ht : t ≤ pow2 160) (hle : p ≤ t)
    (hshort : amount * pow2 96 < L * (t - p)) : ∃ q, priceAddingToken1 p L amount = .ok q := by
  rw [mul_comm L] at hshort
  have hspread : t - p < pow2 256 := ((Nat.sub_le t p).trans ht).trans_lt (pow2_lt (by omega))
  obtain ⟨m, hm, -⟩ := token1Move_total (r := .floor) hL hshort.le hspread
  have hmt : m < t - p := by
    rw [(token1Move_eq_ok hm).2]
    exact (Nat.div_lt_iff_lt_mul hL).mpr hshort
  simp only [priceAddingToken1, hm, ok_bind]
  exact ⟨p + m, toUnsigned_eq_ok_iff.mpr ⟨by omega, rfl⟩⟩

/-- **The price that an input order ends short at.** -/
theorem priceAfterInput_total (hp : Priced k p) (ht : Priced k t) (hlead : d.Leads p t)
    (hL : L < pow2 128) (hamount : amount ≤ pow2 255) (hshort : ¬ d.Covers p t L amount) :
    ∃ q, priceAfterInput d p L amount = .ok q := by
  have hLpos := liquidity_pos_of_not_covers hshort
  unfold priceAfterInput
  rw [checkCurve_eq_ok_iff.mpr ⟨hp.pos, hLpos⟩, ok_bind]
  cases d with
  | down =>
    refine (exists_priceAddingToken0_iff hp.pos (hp.2.trans_lt (pow2_lt (by omega))) hLpos hL).mpr ?_
    have hdouble : pow2 256 = 2 * pow2 255 := rfl
    have hscaled : L * pow2 96 < pow2 255 :=
      (Nat.mul_lt_mul_of_pos_right hL (pow2_pos 96)).trans (pow2_lt (m := 224) (by omega))
    have := Nat.div_le_self (L * pow2 96) p
    omega
  | up => exact priceAddingToken1_total hLpos ht.2 hlead (not_le.mp hshort)

/-- **The price after an output** exists if any price of at most 256 bits yields it. No output at all
keeps the price, which then must have at most 160 bits. -/
theorem priceAfterOutput_total (hp : Priced 0 p) (hkeeps : amount = 0 → p < pow2 160) (ht : 0 < t)
    (ht' : t < pow2 256) (hlead : d.Leads p t) (hL : 0 < L) (hyields : d.Yields p t L amount) :
    ∃ q, priceAfterOutput d p L amount = .ok q := by
  unfold priceAfterOutput
  rw [checkCurve_eq_ok_iff.mpr ⟨hp.pos, hL⟩, ok_bind]
  cases d with
  | down =>
    have hle : t ≤ p := hlead
    have hp' := hp.2
    have hbits : pow2 160 < pow2 256 := pow2_lt (by omega)
    have hmove : amount * pow2 96 ≤ (p - t) * L := by
      rw [mul_comm (p - t)]
      exact hyields
    obtain ⟨m, hm, hmt⟩ := token1Move_total (r := .ceil) hL hmove (by omega)
    have hfits : p - m < pow2 160 := by
      by_cases h0 : amount = 0
      · exact (Nat.sub_le p m).trans_lt (hkeeps h0)
      · have hpaid := Rounding.le_div_ceil_mul hL (amount * pow2 96)
        rw [← (token1Move_eq_ok hm).2] at hpaid
        have hmpos : 0 < m := Nat.pos_of_mul_pos_right
          ((Nat.mul_pos (Nat.pos_of_ne_zero h0) (pow2_pos 96)).trans_le hpaid)
        omega
    simp only [priceRemovingToken1, hm, ok_bind]
    rw [if_neg (by omega)]
    exact ⟨p - m, toUnsigned_eq_ok_iff.mpr ⟨hfits, rfl⟩⟩
  | up =>
    have hle : p ≤ t := hlead
    have hyields : amount * (p * t) ≤ L * pow2 96 * (t - p) := hyields
    have hscaled : 0 < L * pow2 96 := Nat.mul_pos hL (pow2_pos 96)
    simp only [priceRemovingToken0]
    generalize L * pow2 96 = scaled at *
    split
    · exact ⟨p, rfl⟩
    · have hreserve : amount * p < scaled := by
        refine lt_of_mul_lt_mul_right (a := t) ?_ (Nat.zero_le t)
        calc amount * p * t = amount * (p * t) := mul_assoc _ _ _
          _ ≤ scaled * (t - p) := hyields
          _ < scaled * t := Nat.mul_lt_mul_of_pos_left (Nat.sub_lt ht hp.pos) hscaled
      have hreach : scaled * p ≤ t * (scaled - amount * p) := by
        zify [hreserve.le, hle] at hyields ⊢
        linarith
      rw [if_pos hreserve]
      obtain ⟨q, hq, -⟩ := mulDiv_total (r := .ceil) (Nat.sub_pos_of_lt hreserve) hreach ht'
      exact ⟨q, hq⟩

end Short

/-! ## Steps -/

section Steps

variable {d : Direction} {k current target next L fee : ℕ} {remaining : ℤ} {s : Step}

theorem stepPrice_total (fee : ℕ) (hcur : Priced k current) (htar : Priced k target) (hk : k ≤ 32)
    (hlead : d.Leads current target) (hL : L < pow2 128) (hrem : remaining.natAbs ≤ pow2 255) :
    ∃ next, stepPrice d current target L remaining fee = .ok next := by
  unfold stepPrice
  split
  · -- the budget is no more than what remains
    have hbudget : remaining.natAbs * (feeUnit - fee) ≤ remaining.natAbs * feeUnit :=
      Nat.mul_le_mul_left _ (Nat.sub_le _ _)
    obtain ⟨budget, hb, hbr⟩ := mulDiv_total (r := .floor) (show 0 < feeUnit by decide) hbudget
      (hrem.trans_lt (pow2_lt (by omega)))
    obtain ⟨needed, hn, -⟩ := inputBetween_total d hcur htar hk hL
    rw [hb, ok_bind, hn, ok_bind]
    split
    · exact ⟨target, rfl⟩
    · rename_i hgt
      refine priceAfterInput_total hcur htar hlead hL (hbr.trans hrem) ?_
      rwa [← inputBetween_le_iff hlead hn]
  · rename_i hfix
    have hasked : 0 < remaining.natAbs := by
      rw [fixesInput, decide_eq_true_eq] at hfix
      omega
    obtain ⟨available, ha, -⟩ := outputBetween_total d hcur htar hk hL
    rw [ha, ok_bind]
    split
    · exact ⟨target, rfl⟩
    · rename_i hgt
      have hyields := (le_outputBetween_iff hlead ha).mp (not_le.mp hgt).le
      have hsome := (le_outputBetween_iff hlead ha).mp (le_refl available)
      have hcur' : Priced 0 current := ⟨hcur.pos, hcur.2⟩
      refine priceAfterOutput_total hcur' (fun h0 => absurd h0 hasked.ne') htar.pos
        (htar.2.trans_lt (pow2_lt (by omega))) hlead (Nat.pos_of_ne_zero fun h0 => hgt ?_) hyields
      -- without liquidity nothing is available
      subst h0
      have hnone : available = 0 := by
        cases d with
        | down => simpa [Direction.Yields, (pow2_pos 96).ne'] using hsome
        | up => simpa [Direction.Yields, hcur.pos.ne', htar.pos.ne'] using hsome
      rw [hnone]
      exact Nat.zero_le _

/-- A price on the way between two prices has as many bits. -/
theorem Priced.between (hcur : Priced k current) (htar : Priced k target)
    (hleaves : d.Leads current next) (hstops : d.Leads next target) : Priced k next := by
  cases d with
  | down => exact ⟨htar.1.trans hstops, le_trans hleaves hcur.2⟩
  | up => exact ⟨hcur.1.trans hleaves, le_trans hstops htar.2⟩

/-- **No step fails.** What it takes in and pays out has at most `224 - k` bits, and the fee on top
of the input of an output order at most `244 - k`. -/
theorem step_total (hcur : Priced k current) (htar : Priced k target) (hk : k ≤ 32)
    (hL : L < pow2 128) (hrem : remaining.natAbs ≤ pow2 255) (hfee : fee < feeUnit) :
    ∃ s, step current target L remaining fee = .ok s ∧
      (s.amountIn ≤ pow2 (224 - k) ∧ s.amountOut ≤ pow2 (224 - k)) ∧
      (fixesInput remaining = false → s.fee ≤ pow2 (244 - k)) := by
  have hlead := leads_ite current target
  simp only [step_eq_ok_iff]
  generalize (if target ≤ current then Direction.down else .up) = d at *
  obtain ⟨next, hnext⟩ := stepPrice_total fee hcur htar hk hlead hL hrem
  obtain ⟨hleaves, hstops, -⟩ := stepPrice_spec hlead hnext
  have hpriced := hcur.between htar hleaves hstops
  obtain ⟨amountIn, hin, hinle⟩ := inputBetween_total d hcur hpriced hk hL
  obtain ⟨released, hout, houtle⟩ := outputBetween_total d hcur hpriced hk hL
  have hcharge : amountIn * fee ≤ pow2 (244 - k) * (feeUnit - fee) := by
    have hunit : fee ≤ pow2 20 := hfee.le.trans (by decide)
    calc amountIn * fee ≤ pow2 (224 - k) * pow2 20 := Nat.mul_le_mul hinle hunit
      _ = pow2 (244 - k) := by rw [← pow2_add, show 224 - k + 20 = 244 - k by omega]
      _ ≤ pow2 (244 - k) * (feeUnit - fee) := Nat.le_mul_of_pos_right _ (by omega)
  obtain ⟨charged, hmul, hchargedle⟩ := mulDiv_total (r := .ceil) (Nat.sub_pos_of_lt hfee) hcharge
    (pow2_lt (by omega))
  obtain ⟨paid, hpaid⟩ : ∃ paid,
      paid = if fixesInput remaining then released else min released remaining.natAbs := ⟨_, rfl⟩
  have hpaidle : paid ≤ pow2 (224 - k) := by
    rw [hpaid]
    split
    · exact houtle
    · exact (min_le_left _ _).trans houtle
  by_cases hrest : fixesInput remaining = true ∧ next ≠ target
  · exact ⟨⟨next, amountIn, paid, (remaining.natAbs + pow2 256 - amountIn) % pow2 256⟩,
      ⟨hfee.le, hnext, hin, ⟨released, hout, hpaid⟩, Or.inl ⟨hrest.1, hrest.2, rfl⟩⟩,
      ⟨hinle, hpaidle⟩, fun hfix => absurd hrest.1 (by simp [hfix])⟩
  · have htarget : fixesInput remaining = true → next = target :=
      fun hfix => not_not.mp fun hne => hrest ⟨hfix, hne⟩
    exact ⟨⟨next, amountIn, paid, charged⟩,
      ⟨hfee.le, hnext, hin, ⟨released, hout, hpaid⟩, Or.inr ⟨htarget, hmul⟩⟩,
      ⟨hinle, hpaidle⟩, fun _ => hchargedle⟩

end Steps

end Clamm
