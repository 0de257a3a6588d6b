import Mathlib
import Clamm.Word.Step
import Clamm.Proofs.Step.Amounts
import Clamm.Proofs.Word.Division

/-!
# A step on words is a step

An operation on words and the same operation on numbers are compared by `value`, the number of the
word that comes out. Both fail together and for the same reason: where a result may leave 256 bits
the words are checked, and everywhere else the numbers stay within. Only the rest of an input order
may wrap, and it wraps on both sides.

* `value_mulDiv`, `value_divide`, `value_checkedAdd`: quotients and sums.
* `value_inputBetween`, `value_outputBetween`: the amounts between two prices.
* `value_priceAfterInput`, `value_priceAfterOutput`: the price moves.
* `numbers_step`: a whole step. The amount to the target that it keeps in hand is the one it would
  compute again (`cached_eq`).
-/

namespace Clamm

namespace Word

/-- The number of the word that an operation gives. -/
def value (x : Except Error Word) : Except Error ℕ := x.map BitVec.toNat

variable {a b d p amount : Word} {L : Liquidity} {r : Rounding}

section Value

variable {α : Type} {x : Except Error Word}

@[simp] theorem value_ok (w : Word) : value (.ok w) = .ok w.toNat := rfl

@[simp] theorem value_error (e : Error) : value (.error e) = .error e := rfl

theorem map_bind {α β γ : Type} (f : β → γ) (x : Except Error α) (g : α → Except Error β) :
    (x >>= g).map f = x >>= fun a => (g a).map f := by
  cases x <;> rfl

/-- The last of a chain of operations gives its word. -/
theorem value_bind (x : Except Error α) (f : α → Except Error Word) :
    value (x >>= f) = x >>= fun a => value (f a) := map_bind _ x f

/-- An operation that goes on with the number of a word may take the word. -/
theorem bind_value (x : Except Error Word) (f : ℕ → Except Error α) :
    value x >>= f = x >>= fun w => f w.toNat := by
  cases x <;> rfl

/-- An operation on words gives the word of its number. -/
theorem value_eq_ok_iff {w : Word} : value x = .ok w.toNat ↔ x = .ok w := by
  rw [value, map_eq_ok_iff]
  exact ⟨fun ⟨_, hv, hw⟩ => BitVec.eq_of_toNat_eq hw ▸ hv, fun h => ⟨w, h, rfl⟩⟩

/-- The number of a word determines it, and so does that of an operation. -/
theorem value_inj {y : Except Error Word} : value x = value y ↔ x = y := by
  refine ⟨fun h => ?_, congrArg value⟩
  cases y with
  | error e => cases x <;> cases h; rfl
  | ok w => exact value_eq_ok_iff.mp h

/-- The words that an operation gives, by their numbers. -/
theorem exists_value_iff {P : ℕ → Prop} :
    (∃ q, value x = .ok q ∧ P q) ↔ ∃ w, x = .ok w ∧ P w.toNat := by
  cases x <;> simp

theorem exists_value_eq_ok_iff : (∃ q, value x = .ok q) ↔ ∃ w, x = .ok w := by
  cases x <;> simp

end Value

/-! ## Arithmetic -/

theorem value_mulDiv (r : Rounding) (a b d : Word) :
    value (mulDiv r a b d) = Clamm.mulDiv r a.toNat b.toNat d.toNat := by
  by_cases hd : d = 0
  · rw [hd, mulDiv_zero]
    rfl
  · rw [mulDiv_eq r hd, Clamm.mulDiv, if_neg (toNat_pos hd).ne', toUnsigned]
    generalize r.div (a.toNat * b.toNat) d.toNat = q
    by_cases hq : q < 2 ^ 256
    · rw [if_pos hq, value_ok, BitVec.toNat_ofNat, Nat.mod_eq_of_lt hq]
      exact (if_pos hq).symm
    · rw [if_neg hq]
      exact (if_neg hq).symm

theorem divide_zero (r : Rounding) (a : Word) : divide r a 0 = .error .zeroDivisor := by
  cases r <;> rfl

theorem value_divide (hb : b ≠ 0) (r : Rounding) (a : Word) :
    value (divide r a b) = .ok (r.div a.toNat b.toNat) := by
  have hpos := toNat_pos hb
  have hrest : a % b = 0 ↔ a.toNat % b.toNat = 0 := by
    rw [← BitVec.toNat_inj, BitVec.toNat_umod]
    rfl
  cases r with
  | floor =>
    rw [divide, if_neg hb]
    rfl
  | ceil =>
    rw [divide, if_neg hb, Rounding.div_ceil hpos]
    by_cases h0 : a.toNat % b.toNat = 0
    · rw [if_pos (hrest.mpr h0), if_pos h0]
      rfl
    · rw [if_neg fun h => h0 (hrest.mp h), if_neg h0, value_ok, BitVec.toNat_add, BitVec.toNat_udiv]
      -- a quotient of the greatest word leaves nothing over
      have hlt : a.toNat / b.toNat + 1 < 2 ^ 256 := by
        by_cases h1 : b.toNat = 1
        · rw [h1, Nat.mod_one] at h0
          exact absurd rfl h0
        · have := Nat.div_le_div_left (show 2 ≤ b.toNat by omega) two_pos (a := a.toNat)
          have := a.isLt
          omega
      rw [show (1 : Word).toNat = 1 from rfl, Nat.mod_eq_of_lt hlt]

theorem toNat_mul (h : a.toNat * b.toNat < pow2 256) : (a * b).toNat = a.toNat * b.toNat := by
  rw [BitVec.toNat_mul]
  exact Nat.mod_eq_of_lt h

theorem toNat_add (h : a.toNat + b.toNat < pow2 256) : (a + b).toNat = a.toNat + b.toNat := by
  rw [BitVec.toNat_add]
  exact Nat.mod_eq_of_lt h

/-- An operation that overflows exactly if the number of its result is not that of a word. -/
theorem checked_eq (n : ℕ) (w : Word) : (if decide (2 ^ 256 ≤ n) then none else some w) =
    if n < pow2 256 then some w else none := by
  by_cases h : n < 2 ^ 256
  · rw [decide_eq_false (not_le.mpr h), if_neg Bool.false_ne_true]
    exact (if_pos h).symm
  · rw [decide_eq_true (not_lt.mp h), if_pos rfl]
    exact (if_neg h).symm

theorem checkedAdd_eq (a b : Word) : checkedAdd a b =
    if a.toNat + b.toNat < pow2 256 then some (a + b) else none := checked_eq _ _

theorem checkedMul_eq (a b : Word) : checkedMul a b =
    if a.toNat * b.toNat < pow2 256 then some (a * b) else none := checked_eq _ _

theorem value_checkedAdd (a b : Word) :
    value (orOverflow (checkedAdd a b)) = toUnsigned 256 (a.toNat + b.toNat) := by
  rw [checkedAdd_eq, toUnsigned]
  split
  · rename_i h
    rw [orOverflow, value_ok, toNat_add h]
  · rfl

theorem checkedMulAdd_eq (a b p : Word) : (checkedMul a b).bind (checkedAdd p) =
    if p.toNat + a.toNat * b.toNat < pow2 256 then some (p + a * b) else none := by
  rw [checkedMul_eq]
  by_cases hmul : a.toNat * b.toNat < pow2 256
  · rw [if_pos hmul, Option.bind_some, checkedAdd_eq, toNat_mul hmul]
  · rw [if_neg hmul, if_neg (by omega), Option.bind_none]

theorem toNat_widen (L : Liquidity) : L.widen.toNat = L.toNat := by
  have := L.isLt
  rw [Liquidity.widen, BitVec.toNat_setWidth]
  exact Nat.mod_eq_of_lt (by omega)

theorem toNat_scaled (L : Liquidity) : L.scaled.toNat = L.toNat * pow2 96 := by
  have := L.isLt
  rw [Liquidity.scaled, BitVec.toNat_shiftLeft, toNat_widen, Nat.shiftLeft_eq]
  exact Nat.mod_eq_of_lt (by omega)

/-! ## Amounts -/

theorem toNat_lower (a b : Word) : (if b < a then b else a).toNat = min a.toNat b.toNat := by
  split <;> rename_i h <;> rw [BitVec.lt_def] at h <;> omega

theorem toNat_spread (a b : Word) :
    ((if b < a then a else b) - if b < a then b else a).toNat =
      max a.toNat b.toNat - min a.toNat b.toNat := by
  have ha := a.isLt
  have hb := b.isLt
  split <;> rename_i h <;> rw [BitVec.lt_def] at h <;> rw [BitVec.toNat_sub] <;> omega

theorem toNat_upper (a b : Word) : (if b < a then a else b).toNat = max a.toNat b.toNat := by
  split <;> rename_i h <;> rw [BitVec.lt_def] at h <;> omega

theorem value_amount0Between (a b : Word) (L : Liquidity) (r : Rounding) :
    value (amount0Between a b L r) = Clamm.amount0Between a.toNat b.toNat L.toNat r := by
  have hlower := toNat_lower a b
  simp only [amount0Between, Clamm.amount0Between]
  by_cases h0 : (if b < a then b else a) = 0
  · have hzero : min a.toNat b.toNat = 0 := by rw [← hlower, h0]; rfl
    rw [if_pos h0, if_pos hzero, value_error]
  · have hpos : min a.toNat b.toNat ≠ 0 := hlower ▸ (toNat_pos h0).ne'
    rw [if_neg h0, if_neg hpos, value_bind, ← toNat_spread, ← toNat_upper, ← toNat_scaled,
      ← value_mulDiv, bind_value]
    simp only [value_divide h0, hlower]

theorem value_amount1Between (a b : Word) (L : Liquidity) (r : Rounding) :
    value (amount1Between a b L r) = Clamm.amount1Between a.toNat b.toNat L.toNat r := by
  rw [amount1Between, Clamm.amount1Between, value_mulDiv, toNat_spread, toNat_widen]
  rfl

theorem value_inputBetween (d : Direction) (a b : Word) (L : Liquidity) :
    value (inputBetween d a b L) = Clamm.inputBetween d a.toNat b.toNat L.toNat := by
  cases d with
  | down => exact value_amount0Between a b L .ceil
  | up => exact value_amount1Between a b L .ceil

theorem value_outputBetween (d : Direction) (a b : Word) (L : Liquidity) :
    value (outputBetween d a b L) = Clamm.outputBetween d a.toNat b.toNat L.toNat := by
  cases d with
  | down => exact value_amount1Between a b L .floor
  | up => exact value_amount0Between a b L .floor

/-! ## Price moves -/

theorem lt_pow160_iff (x : Word) : x < 1 <<< 160 ↔ x.toNat < pow2 160 := BitVec.lt_def

theorem value_fitPrice (p : Word) : value (fitPrice p) = toUnsigned 160 p.toNat := by
  unfold fitPrice toUnsigned
  simp only [lt_pow160_iff]
  split <;> rfl

theorem value_token1Move (r : Rounding) (L : Liquidity) (amount : Word) :
    value (token1Move r L amount) = Clamm.token1Move r L.toNat amount.toNat := by
  unfold token1Move Clamm.token1Move
  simp only [lt_pow160_iff]
  by_cases h : pow2 160 ≤ amount.toNat
  · rw [if_neg (not_lt.mpr h), if_pos h, value_mulDiv, toNat_widen]
    rfl
  · rw [if_pos (not_le.mp h), if_neg h]
    by_cases hL : L.widen = 0
    · have hL' : L.toNat = 0 := by rw [← toNat_widen, hL]; rfl
      rw [if_pos hL', hL, divide_zero, value_error]
    · have hshift : (amount <<< 96).toNat = amount.toNat * pow2 96 := by
        rw [BitVec.toNat_shiftLeft, Nat.shiftLeft_eq]
        exact Nat.mod_eq_of_lt (Nat.mul_lt_mul_of_pos_right (not_le.mp h) (pow2_pos 96))
      have hL' : L.toNat ≠ 0 := by rw [← toNat_widen]; exact (toNat_pos hL).ne'
      rw [if_neg hL', value_divide hL, hshift, toNat_widen]

theorem value_priceAddingToken0 (p : Word) (L : Liquidity) (amount : Word) :
    value (priceAddingToken0 p L amount) =
      Clamm.priceAddingToken0 p.toNat L.toNat amount.toNat := by
  unfold priceAddingToken0 Clamm.priceAddingToken0
  by_cases h0 : amount = 0
  · rw [if_pos h0, if_pos (by rw [h0]; rfl), value_ok]
  · have hpos := toNat_pos h0
    rw [if_neg h0, if_neg hpos.ne', checkedMulAdd_eq]
    simp only [← toNat_scaled]
    by_cases hfits : L.scaled.toNat + amount.toNat * p.toNat < pow2 256
    · have hmul : amount.toNat * p.toNat < pow2 256 := by omega
      have hsum : L.scaled.toNat + (amount * p).toNat < pow2 256 := by rwa [toNat_mul hmul]
      rw [if_pos hfits, if_pos hfits]
      simp only [value_mulDiv, toNat_add hsum, toNat_mul hmul]
    · have hp : p ≠ 0 := fun h => hfits <| by
        rw [h, show (0 : Word).toNat = 0 from rfl, Nat.mul_zero, Nat.add_zero]
        exact L.scaled.isLt
      rw [if_neg hfits, if_neg hfits]
      simp only [divide, if_neg hp, ok_bind]
      rw [value_bind, ← BitVec.toNat_udiv, ← value_checkedAdd, bind_value]
      refine bind_congr_ok fun w hw => value_divide (fun hzero => ?_) .ceil _
      -- the denominator is at least the amount
      have hsum := congrArg value hw
      rw [value_checkedAdd, value_ok, toUnsigned_eq_ok_iff, hzero] at hsum
      have : (0 : Word).toNat = 0 := rfl
      omega

theorem value_priceRemovingToken0 (p : Word) (L : Liquidity) (amount : Word) :
    value (priceRemovingToken0 p L amount) =
      Clamm.priceRemovingToken0 p.toNat L.toNat amount.toNat := by
  unfold priceRemovingToken0 Clamm.priceRemovingToken0
  by_cases h0 : amount = 0
  · rw [if_pos h0, if_pos (by rw [h0]; rfl), value_ok]
  · rw [if_neg h0, if_neg (toNat_pos h0).ne', checkedMul_eq]
    simp only [← toNat_scaled]
    by_cases hmul : amount.toNat * p.toNat < pow2 256
    · rw [if_pos hmul]
      by_cases hlt : amount.toNat * p.toNat < L.scaled.toNat
      · have hlt' : amount * p < L.scaled := by rwa [BitVec.lt_def, toNat_mul hmul]
        have hsub : (L.scaled - amount * p).toNat = L.scaled.toNat - amount.toNat * p.toNat := by
          rw [BitVec.toNat_sub_of_le (BitVec.le_def.mpr (BitVec.lt_def.mp hlt').le), toNat_mul hmul]
        simp only [if_pos hlt, if_pos hlt', value_mulDiv, hsub]
      · have hlt' : ¬ amount * p < L.scaled := by rwa [BitVec.lt_def, toNat_mul hmul]
        simp only [if_neg hlt, if_neg hlt', value_error]
    · have hlt : ¬ amount.toNat * p.toNat < L.scaled.toNat := fun h =>
        hmul (h.trans L.scaled.isLt)
      rw [if_neg hmul, if_neg hlt, value_error]

theorem value_priceAddingToken1 (p : Word) (L : Liquidity) (amount : Word) :
    value (priceAddingToken1 p L amount) =
      Clamm.priceAddingToken1 p.toNat L.toNat amount.toNat := by
  unfold priceAddingToken1 Clamm.priceAddingToken1
  rw [value_bind, ← value_token1Move, bind_value]
  refine bind_congr fun w => ?_
  rw [value_bind, checkedAdd_eq]
  by_cases hfits : p.toNat + w.toNat < pow2 256
  · rw [if_pos hfits, orOverflow, ok_bind, value_fitPrice, toNat_add hfits]
  · have h160 : ¬ p.toNat + w.toNat < pow2 160 := fun h => hfits (h.trans (by decide))
    rw [if_neg hfits, toUnsigned, if_neg h160]
    rfl

theorem value_priceRemovingToken1 (p : Word) (L : Liquidity) (amount : Word) :
    value (priceRemovingToken1 p L amount) =
      Clamm.priceRemovingToken1 p.toNat L.toNat amount.toNat := by
  unfold priceRemovingToken1 Clamm.priceRemovingToken1
  rw [value_bind, ← value_token1Move, bind_value]
  refine bind_congr fun w => ?_
  simp only [BitVec.le_def]
  split
  · rfl
  · rename_i hlt
    rw [value_fitPrice, BitVec.toNat_sub_of_le (BitVec.le_def.mpr (not_le.mp hlt).le)]

theorem checkCurve_eq (p : Word) (L : Liquidity) :
    checkCurve p L = Clamm.checkCurve p.toNat L.toNat := by
  have hp : p = 0 ↔ p.toNat = 0 := BitVec.toNat_inj.symm
  have hL : L = 0 ↔ L.toNat = 0 := BitVec.toNat_inj.symm
  simp only [checkCurve, Clamm.checkCurve, hp, hL]

theorem value_priceAfterInput (d : Direction) (p : Word) (L : Liquidity) (amount : Word) :
    value (priceAfterInput d p L amount) =
      Clamm.priceAfterInput d p.toNat L.toNat amount.toNat := by
  unfold priceAfterInput Clamm.priceAfterInput
  rw [value_bind, checkCurve_eq]
  cases d with
  | down => simp only [value_priceAddingToken0]
  | up => simp only [value_priceAddingToken1]

theorem value_priceAfterOutput (d : Direction) (p : Word) (L : Liquidity) (amount : Word) :
    value (priceAfterOutput d p L amount) =
      Clamm.priceAfterOutput d p.toNat L.toNat amount.toNat := by
  unfold priceAfterOutput Clamm.priceAfterOutput
  rw [value_bind, checkCurve_eq]
  cases d with
  | down => simp only [value_priceRemovingToken1]
  | up => simp only [value_priceRemovingToken0]

/-! ## Steps -/

/-- The numbers of a step. -/
def Step.numbers (s : Step) : Clamm.Step :=
  ⟨s.next.toNat, s.amountIn.toNat, s.amountOut.toNat, s.fee.toNat⟩

theorem toNat_magnitude (x : Word) : (magnitude x).toNat = x.toInt.natAbs := by
  have := x.isLt
  unfold magnitude
  rw [BitVec.toInt_eq_msb_cond]
  split
  · rename_i h
    have := BitVec.msb_eq_true_iff_two_mul_ge.mp h
    rw [BitVec.toNat_neg]
    omega
  · omega

theorem msb_eq_not_fixesInput (x : Word) : x.msb = !fixesInput x.toInt := by
  rw [BitVec.msb_eq_toInt, fixesInput, ← decide_not, decide_eq_decide, not_le]

section Steps

variable {d : Direction} {current target next whole order fee : Word}

/-- Up to the target the amount in hand is the amount of the step. -/
theorem cached_eq (f : Word → Except Error Word) (h : f target = .ok whole) (next : Word) :
    (if next = target then pure whole else f next) = f next := by
  split
  · rename_i htarget
    rw [htarget, h]
    rfl
  · rfl

theorem toNat_unit : unit.toNat = feeUnit := rfl

theorem toNat_complement (hfee : fee ≤ unit) : (unit - fee).toNat = feeUnit - fee.toNat :=
  BitVec.toNat_sub_of_le hfee

variable {remaining : ℤ}

theorem stepPrice_input (hfee : fee ≤ unit) (hrem : remaining.natAbs = order.toNat)
    (hfix : fixesInput remaining = true) :
    Clamm.stepPrice d current.toNat target.toNat L.toNat remaining fee.toNat =
      value (do
        let budget ← mulDiv .floor order (unit - fee) unit
        let whole ← inputBetween d current target L
        if whole ≤ budget then pure target else priceAfterInput d current L budget) := by
  rw [Clamm.stepPrice, if_pos hfix, hrem, ← toNat_complement hfee, ← toNat_unit, ← value_mulDiv,
    bind_value, value_bind]
  refine bind_congr fun budget => ?_
  rw [← value_inputBetween, bind_value, value_bind]
  refine bind_congr fun whole => ?_
  rw [← value_priceAfterInput]
  simp only [BitVec.le_def]
  split <;> rfl

theorem stepPrice_output (hrem : remaining.natAbs = order.toNat)
    (hfix : fixesInput remaining = false) (fee : ℕ) :
    Clamm.stepPrice d current.toNat target.toNat L.toNat remaining fee =
      value (do
        let whole ← outputBetween d current target L
        if whole ≤ order then pure target else priceAfterOutput d current L order) := by
  rw [Clamm.stepPrice, if_neg (by rw [hfix]; exact Bool.false_ne_true), hrem,
    ← value_outputBetween, bind_value, value_bind]
  refine bind_congr fun whole => ?_
  rw [← value_priceAfterOutput]
  simp only [BitVec.le_def]
  split <;> rfl

theorem numbers_stepInput (hfee : fee ≤ unit) (hrem : remaining.natAbs = order.toNat)
    (hfix : fixesInput remaining = true) :
    (stepInput d current target L order fee).map Step.numbers = do
      let next ← Clamm.stepPrice d current.toNat target.toNat L.toNat remaining fee.toNat
      let amountIn ← Clamm.inputBetween d current.toNat next L.toNat
      let amountOut ← Clamm.outputBetween d current.toNat next L.toNat
      let charged ←
        (if next = target.toNat then Clamm.mulDiv .ceil amountIn fee.toNat (feeUnit - fee.toNat)
        else pure ((order.toNat + pow2 256 - amountIn) % pow2 256))
      return ⟨next, amountIn, amountOut, charged⟩ := by
  rw [stepPrice_input hfee hrem hfix, bind_value, stepInput, map_bind, bind_assoc]
  refine bind_congr fun budget => ?_
  rw [map_bind, bind_assoc]
  refine bind_congr_ok fun whole hwhole => ?_
  rw [map_bind]
  refine bind_congr fun next => ?_
  rw [cached_eq (inputBetween d current · L) hwhole, map_bind, ← value_inputBetween, bind_value]
  refine bind_congr fun amountIn => ?_
  rw [map_bind, ← value_outputBetween, bind_value]
  refine bind_congr fun amountOut => ?_
  rw [map_bind, ← toNat_complement hfee, ← value_mulDiv]
  by_cases htarget : next = target
  · rw [if_pos htarget, if_pos (by rw [htarget]), bind_value]
    rfl
  · have hrest : (order - amountIn).toNat =
        (order.toNat + pow2 256 - amountIn.toNat) % pow2 256 := by
      have := amountIn.isLt
      rw [BitVec.toNat_sub, show order.toNat + pow2 256 - amountIn.toNat =
        2 ^ 256 - amountIn.toNat + order.toNat by rw [show pow2 256 = 2 ^ 256 from rfl]; omega]
      rfl
    rw [if_neg htarget, if_neg fun h => htarget (BitVec.eq_of_toNat_eq h), ← hrest]
    rfl

theorem numbers_stepOutput (hfee : fee ≤ unit) (hrem : remaining.natAbs = order.toNat)
    (hfix : fixesInput remaining = false) :
    (stepOutput d current target L order fee).map Step.numbers = do
      let next ← Clamm.stepPrice d current.toNat target.toNat L.toNat remaining fee.toNat
      let amountIn ← Clamm.inputBetween d current.toNat next L.toNat
      let amountOut ← Clamm.outputBetween d current.toNat next L.toNat
      let charged ← Clamm.mulDiv .ceil amountIn fee.toNat (feeUnit - fee.toNat)
      return ⟨next, amountIn, min amountOut order.toNat, charged⟩ := by
  rw [stepPrice_output hrem hfix, bind_value, stepOutput, map_bind, bind_assoc]
  refine bind_congr_ok fun whole hwhole => ?_
  rw [map_bind]
  refine bind_congr fun next => ?_
  rw [map_bind, ← value_inputBetween, bind_value]
  refine bind_congr fun amountIn => ?_
  rw [cached_eq (outputBetween d current · L) hwhole, map_bind, ← value_outputBetween, bind_value]
  refine bind_congr fun amountOut => ?_
  rw [map_bind, ← toNat_complement hfee, ← value_mulDiv, bind_value]
  refine bind_congr fun charged => ?_
  rw [← toNat_lower]
  rfl

/-- **A step on words is a step.** No word of it wraps but the rest of an input order. -/
theorem numbers_step (current target : Word) (L : Liquidity) (remaining : Word) (fee : BitVec 32) :
    (step current target L remaining fee).map Step.numbers =
      Clamm.step current.toNat target.toNat L.toNat remaining.toInt fee.toNat := by
  have hfee : (fee.setWidth 256).toNat = fee.toNat := by
    have := fee.isLt
    rw [BitVec.toNat_setWidth]
    exact Nat.mod_eq_of_lt (by omega)
  have hmag := (toNat_magnitude remaining).symm
  unfold step Clamm.step
  simp only [BitVec.le_def, BitVec.lt_def, hfee, toNat_unit, hmag, msb_eq_not_fixesInput remaining]
  generalize (if target.toNat ≤ current.toNat then Direction.down else Direction.up) = d
  split
  · rfl
  rename_i hunit
  have hunit' : fee.setWidth 256 ≤ unit := by
    rw [BitVec.le_def, hfee, toNat_unit]
    exact not_lt.mp hunit
  cases hfix : fixesInput remaining.toInt with
  | true =>
    rw [if_neg (by decide), numbers_stepInput hunit' hmag hfix, hfee]
    refine bind_congr fun next => bind_congr fun amountIn => bind_congr fun amountOut => ?_
    rw [if_pos rfl]
    split <;> rfl
  | false =>
    rw [if_pos (by decide), numbers_stepOutput hunit' hmag hfix, hfee]
    refine bind_congr fun next => bind_congr fun amountIn => bind_congr fun amountOut => ?_
    rw [if_neg Bool.false_ne_true]

end Steps

end Word

end Clamm
