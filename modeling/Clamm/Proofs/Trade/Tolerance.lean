import Mathlib
import Clamm.Proofs.Currency.Chains
import Clamm.Proofs.Trade.Spot
import Clamm.Trade.Basic

/-!
# What a tolerance makes of a trade

A tolerance `s` concerns the side of a trade that is not fixed. Of an output at least the share
`1 / (1 + s)` is accepted, and of an input at most `1 + s` times as much, in whole units both before
and after. The two bounds are floors of the rationals that say so (`leastOut`, `mostIn`), whatever
the representation of the tolerance, so they are monotone in it and are the trade's own whole units
without one. A price is the least output over the most input and can only fall.

* `Trade.leastOut_anti`, `Trade.mostIn_mono`: the bounds against the tolerance.
* `Trade.minOutput_eq`, `Trade.maxInput_eq`: the bounds are what is computed.
* `Trade.worstPrice_ratio`, `Trade.executionPrice_ratio`: the prices are ratios of bounds.
* `Trade.tolerance_bounds`: what a tolerance accepts, and how it compares with another.
-/

namespace Clamm

variable {t : Trade} {s s' : Percent} {x factor : Fraction} {least most : Amount} {w : Price}

/-! ## Shares in whole units -/

namespace Fraction

theorem quotient_eq_floor (h : 0 ≤ x.toRat) : x.quotient = ⌊x.toRat⌋ := by
  rw [quotient_eq_integerPart, integerPart, if_pos h]

/-- The whole units of a share of whole units. -/
theorem quotient_mul_quotient (hx : 0 ≤ x.toRat) (hfactor : 0 ≤ factor.toRat) :
    (factor * ofInt x.quotient).quotient = ⌊(⌊x.toRat⌋ : ℚ) * factor.toRat⌋ := by
  have hunits : (0 : ℚ) ≤ x.quotient :=
    Int.cast_nonneg (quotient_nonneg (toRat_nonneg_iff.mp hx))
  have hvalue : (factor * ofInt x.quotient).toRat = ⌊x.toRat⌋ * factor.toRat := by
    rw [toRat_mul, toRat_ofInt, quotient_eq_floor hx, mul_comm]
  rw [quotient_eq_floor, hvalue]
  rw [toRat_mul, toRat_ofInt]
  exact mul_nonneg hfactor hunits

theorem toRat_one_add (s : Percent) : (ofInt 1 + s).toRat = 1 + s.toRat := by
  rw [toRat_add, toRat_ofInt, Int.cast_one]

theorem not_isNegative (h : 0 ≤ s.toRat) : ¬s.isNegative = true :=
  fun hneg => absurd (of_decide_eq_true hneg) (not_lt.mpr (toRat_nonneg_iff.mp h))

end Fraction

/-- A price of whole units is their ratio. -/
theorem Price.make_eq_ok {base quote : Token} {den num : ℤ} (h : make base quote den num = .ok w) :
    den ≠ 0 ∧ w.ratio.toRat = num / den := by
  obtain ⟨ratio, hratio, h⟩ := bind_eq_ok_iff.mp h
  cases h
  exact Fraction.toRat_make hratio

namespace Trade

/-! ## The two bounds -/

/-- The least output that is accepted, in whole units. -/
def leastOut (t : Trade) (s : ℚ) : ℤ :=
  match t.kind with
  | .exactInput => ⌊(⌊t.output.value.toRat⌋ : ℚ) / (1 + s)⌋
  | .exactOutput => ⌊t.output.value.toRat⌋

/-- The most input that is accepted, in whole units. -/
def mostIn (t : Trade) (s : ℚ) : ℤ :=
  match t.kind with
  | .exactInput => ⌊t.input.value.toRat⌋
  | .exactOutput => ⌊(⌊t.input.value.toRat⌋ : ℚ) * (1 + s)⌋

theorem leastOut_zero (t : Trade) : t.leastOut 0 = ⌊t.output.value.toRat⌋ := by
  unfold leastOut
  cases t.kind <;> simp

theorem mostIn_zero (t : Trade) : t.mostIn 0 = ⌊t.input.value.toRat⌋ := by
  unfold mostIn
  cases t.kind <;> simp

/-- **More tolerance accepts no greater output.** -/
theorem leastOut_anti (hout : 0 ≤ t.output.value.toRat) {s s' : ℚ} (hs : 0 ≤ s) (h : s ≤ s') :
    t.leastOut s' ≤ t.leastOut s := by
  have hunits : (0 : ℚ) ≤ ⌊t.output.value.toRat⌋ := Int.cast_nonneg (Int.floor_nonneg.mpr hout)
  unfold leastOut
  cases t.kind with
  | exactOutput => exact le_rfl
  | exactInput =>
    have hpos : 0 < 1 + s := add_pos_of_pos_of_nonneg one_pos hs
    exact Int.floor_le_floor (div_le_div_of_nonneg_left hunits hpos (add_le_add_right h 1))

/-- **More tolerance accepts no less input.** -/
theorem mostIn_mono (hin : 0 ≤ t.input.value.toRat) {s s' : ℚ} (h : s ≤ s') :
    t.mostIn s ≤ t.mostIn s' := by
  have hunits : (0 : ℚ) ≤ ⌊t.input.value.toRat⌋ := Int.cast_nonneg (Int.floor_nonneg.mpr hin)
  unfold mostIn
  cases t.kind with
  | exactInput => exact le_rfl
  | exactOutput =>
    exact Int.floor_le_floor (mul_le_mul_of_nonneg_left (add_le_add_right h 1) hunits)

theorem leastOut_nonneg (hout : 0 ≤ t.output.value.toRat) {s : ℚ} (hs : 0 ≤ s) :
    0 ≤ t.leastOut s := by
  have hunits := Int.floor_nonneg.mpr hout
  unfold leastOut
  cases t.kind with
  | exactOutput => exact hunits
  | exactInput =>
    have hsum : 0 ≤ 1 + s := add_nonneg zero_le_one hs
    exact Int.floor_nonneg.mpr (div_nonneg (Int.cast_nonneg hunits) hsum)

/-- No tolerance accepts an input where the trade has none. -/
theorem mostIn_zero_ne {s : ℚ} (h : t.mostIn s ≠ 0) : t.mostIn 0 ≠ 0 := by
  rw [mostIn_zero]
  intro hzero
  unfold mostIn at h
  rw [hzero] at h
  cases hkind : t.kind <;> simp [hkind] at h

/-! ## Computing them -/

theorem minOutput_exactInput (hkind : t.kind = .exactInput) (hout : 0 ≤ t.output.value.toRat)
    (hs : 0 ≤ s.toRat) : t.minOutput s = Amount.ofInt t.output.token (t.leastOut s.toRat) := by
  have hpos : 0 < (Fraction.ofInt 1 + s).toRat := by
    rw [Fraction.toRat_one_add]
    exact add_pos_of_pos_of_nonneg one_pos hs
  obtain ⟨factor, hfactor, hvalue⟩ := Fraction.exists_invert hpos.ne'
  have hnonneg : 0 ≤ factor.toRat := hvalue ▸ inv_nonneg.mpr hpos.le
  unfold minOutput leastOut
  rw [if_neg (Fraction.not_isNegative hs), hkind]
  dsimp only
  rw [hfactor, ok_bind, Amount.quotient, Fraction.quotient_mul_quotient hout hnonneg, hvalue,
    Fraction.toRat_one_add, div_eq_mul_inv]

theorem maxInput_exactOutput (hkind : t.kind = .exactOutput) (hin : 0 ≤ t.input.value.toRat)
    (hs : 0 ≤ s.toRat) : t.maxInput s = Amount.ofInt t.input.token (t.mostIn s.toRat) := by
  have hnonneg : 0 ≤ (Fraction.ofInt 1 + s).toRat := by
    rw [Fraction.toRat_one_add]
    exact add_nonneg zero_le_one hs
  unfold maxInput mostIn
  rw [if_neg (Fraction.not_isNegative hs), hkind]
  dsimp only
  rw [Amount.quotient, Fraction.quotient_mul_quotient hin hnonneg, Fraction.toRat_one_add]

theorem minOutput_exactOutput (hkind : t.kind = .exactOutput) (hs : 0 ≤ s.toRat) :
    t.minOutput s = .ok t.output := by
  unfold minOutput
  rw [if_neg (Fraction.not_isNegative hs), hkind]
  rfl

theorem maxInput_exactInput (hkind : t.kind = .exactInput) (hs : 0 ≤ s.toRat) :
    t.maxInput s = .ok t.input := by
  unfold maxInput
  rw [if_neg (Fraction.not_isNegative hs), hkind]
  rfl

/-- The least output needs no more bits than the output. -/
theorem exists_minOutput (hkind : t.kind = .exactInput) (hout : 0 ≤ t.output.value.toRat)
    (hs : 0 ≤ s.toRat) : ∃ least, t.minOutput s = .ok least := by
  rw [minOutput_exactInput hkind hout hs]
  refine Amount.exists_ofInt _ ?_
  calc t.leastOut s.toRat ≤ t.leastOut 0 := leastOut_anti hout le_rfl hs
    _ = t.output.value.quotient := by rw [leastOut_zero, Fraction.quotient_eq_floor hout]
    _ ≤ maxUInt256 := t.output.quotient_le

/-- What is computed of an output comes to the least that is accepted. -/
theorem minOutput_quotient (hout : 0 ≤ t.output.value.toRat) (hs : 0 ≤ s.toRat)
    (h : t.minOutput s = .ok least) : least.quotient = t.leastOut s.toRat := by
  cases hkind : t.kind with
  | exactInput =>
    rw [minOutput_exactInput hkind hout hs] at h
    exact (Amount.ofInt_eq_ok h).2
  | exactOutput =>
    rw [minOutput_exactOutput hkind hs] at h
    cases h
    unfold leastOut
    rw [hkind]
    exact Fraction.quotient_eq_floor hout

/-- What is computed of an input comes to the most that is accepted. -/
theorem maxInput_quotient (hin : 0 ≤ t.input.value.toRat) (hs : 0 ≤ s.toRat)
    (h : t.maxInput s = .ok most) : most.quotient = t.mostIn s.toRat := by
  cases hkind : t.kind with
  | exactOutput =>
    rw [maxInput_exactOutput hkind hin hs] at h
    exact (Amount.ofInt_eq_ok h).2
  | exactInput =>
    rw [maxInput_exactInput hkind hs] at h
    cases h
    unfold mostIn
    rw [hkind]
    exact Fraction.quotient_eq_floor hin

/-! ## Prices -/

theorem worstPrice_ratio (hin : 0 ≤ t.input.value.toRat) (hout : 0 ≤ t.output.value.toRat)
    (hs : 0 ≤ s.toRat) (h : t.worstPrice s = .ok w) :
    t.mostIn s.toRat ≠ 0 ∧ w.ratio.toRat = t.leastOut s.toRat / t.mostIn s.toRat := by
  obtain ⟨most, hmost, h⟩ := bind_eq_ok_iff.mp h
  obtain ⟨least, hleast, h⟩ := bind_eq_ok_iff.mp h
  rw [maxInput_quotient hin hs hmost, minOutput_quotient hout hs hleast] at h
  exact Price.make_eq_ok h

/-- The price of a trade is its worst price without a tolerance. -/
theorem executionPrice_ratio (hin : 0 ≤ t.input.value.toRat) (hout : 0 ≤ t.output.value.toRat)
    (h : t.mostIn 0 ≠ 0) :
    ∃ e, t.executionPrice = .ok e ∧ e.ratio.toRat = t.leastOut 0 / t.mostIn 0 := by
  have hinput : t.input.quotient = t.mostIn 0 :=
    (Fraction.quotient_eq_floor hin).trans t.mostIn_zero.symm
  have houtput : t.output.quotient = t.leastOut 0 :=
    (Fraction.quotient_eq_floor hout).trans t.leastOut_zero.symm
  unfold executionPrice
  rw [hinput, houtput]
  cases hprice : Price.make t.input.token t.output.token (t.mostIn 0) (t.leastOut 0) with
  | ok e => exact ⟨e, rfl, (Price.make_eq_ok hprice).2⟩
  | error err =>
    rcases bind_eq_error_iff.mp hprice with hmake | ⟨ratio, -, hpure⟩
    · exact absurd (Fraction.make_eq_error_iff.mp hmake).1 h
    · cases hpure

/-- Less for more is a lower price. -/
theorem ratio_anti (hin : 0 ≤ t.input.value.toRat) (hout : 0 ≤ t.output.value.toRat) {s s' : ℚ}
    (hs : 0 ≤ s) (h : s ≤ s') (hne : t.mostIn s ≠ 0) :
    (t.leastOut s' : ℚ) / t.mostIn s' ≤ t.leastOut s / t.mostIn s := by
  have hzero : 0 ≤ t.mostIn 0 := t.mostIn_zero ▸ Int.floor_nonneg.mpr hin
  have hpos : 0 < t.mostIn s := lt_of_le_of_ne (hzero.trans (mostIn_mono hin hs)) hne.symm
  exact div_le_div₀ (Int.cast_nonneg (leastOut_nonneg hout hs))
    (Int.cast_le.mpr (leastOut_anti hout hs h)) (Int.cast_pos.mpr hpos)
    (Int.cast_le.mpr (mostIn_mono hin h))

/-! ## Tolerances -/

/-- **What a tolerance makes of a trade.** With the input fixed, the input stays and the least output
is the floor of its whole units over `1 + s`, which never fails; with the output fixed, the output
stays and the most input is the floor of its whole units times `1 + s`. Without a tolerance the
bounds are the whole units. With more tolerance the least output never grows, the most input never
shrinks, and the worst price never rises; it is at most the price of the trade. -/
theorem tolerance_bounds (t : Trade) (hin : 0 ≤ t.input.value.toRat)
    (hout : 0 ≤ t.output.value.toRat) {s s' : Percent} (hs : 0 ≤ s.toRat)
    (hle : s.toRat ≤ s'.toRat) :
    (t.kind = .exactInput →
      t.maxInput s = .ok t.input ∧ (∃ least, t.minOutput s = .ok least) ∧
      t.minOutput s =
        Amount.ofInt t.output.token ⌊(⌊t.output.value.toRat⌋ : ℚ) / (1 + s.toRat)⌋ ∧
      (s.toRat = 0 → t.minOutput s = Amount.ofInt t.output.token t.output.quotient)) ∧
    (t.kind = .exactOutput →
      t.minOutput s = .ok t.output ∧
      t.maxInput s = Amount.ofInt t.input.token ⌊(⌊t.input.value.toRat⌋ : ℚ) * (1 + s.toRat)⌋ ∧
      (s.toRat = 0 → t.maxInput s = Amount.ofInt t.input.token t.input.quotient)) ∧
    (∀ least least', t.minOutput s = .ok least → t.minOutput s' = .ok least' →
      least'.quotient ≤ least.quotient) ∧
    (∀ most most', t.maxInput s = .ok most → t.maxInput s' = .ok most' →
      most.quotient ≤ most'.quotient) ∧
    (∀ w w', t.worstPrice s = .ok w → t.worstPrice s' = .ok w' →
      w'.ratio.toRat ≤ w.ratio.toRat) ∧
    ∀ w, t.worstPrice s = .ok w →
      ∃ e, t.executionPrice = .ok e ∧ w.ratio.toRat ≤ e.ratio.toRat := by
  have hs' := hs.trans hle
  refine ⟨?_, ?_, ?_, ?_, ?_, ?_⟩
  · intro hkind
    have hleast := minOutput_exactInput hkind hout hs
    refine ⟨maxInput_exactInput hkind hs, exists_minOutput hkind hout hs, ?_, ?_⟩
    · rw [hleast, leastOut, hkind]
    · intro hzero
      rw [hleast, hzero, leastOut_zero, ← Fraction.quotient_eq_floor hout]
      rfl
  · intro hkind
    have hmost := maxInput_exactOutput hkind hin hs
    refine ⟨minOutput_exactOutput hkind hs, ?_, ?_⟩
    · rw [hmost, mostIn, hkind]
    · intro hzero
      rw [hmost, hzero, mostIn_zero, ← Fraction.quotient_eq_floor hin]
      rfl
  · intro least least' h h'
    rw [minOutput_quotient hout hs h, minOutput_quotient hout hs' h']
    exact leastOut_anti hout hs hle
  · intro most most' h h'
    rw [maxInput_quotient hin hs h, maxInput_quotient hin hs' h']
    exact mostIn_mono hin hle
  · intro w w' h h'
    obtain ⟨hne, hw⟩ := worstPrice_ratio hin hout hs h
    obtain ⟨-, hw'⟩ := worstPrice_ratio hin hout hs' h'
    rw [hw, hw']
    exact ratio_anti hin hout hs hle hne
  · intro w h
    obtain ⟨hne, hw⟩ := worstPrice_ratio hin hout hs h
    have hzero := mostIn_zero_ne hne
    obtain ⟨e, he, hratio⟩ := executionPrice_ratio hin hout hzero
    refine ⟨e, he, ?_⟩
    rw [hw, hratio]
    exact ratio_anti hin hout le_rfl hs hzero

/-- A trade of 500 units and a half for 499 and a half. -/
def halves (kind : TradeKind) : Trade :=
  let input : Amount := ⟨nestedPool.token0, ⟨1001, 2, by decide⟩, by decide⟩
  let output : Amount := ⟨nestedPool.token1, ⟨999, 2, by decide⟩, by decide⟩
  ⟨kind, [⟨nestedRoute, input, output⟩], input, output⟩

/-- Half a percent accepts 496 units, or asks for 502. Another one and a half times the input only
lowers the price. -/
theorem tolerance_bounds_halves :
    (halves .exactInput).minOutput ⟨1, 200, by decide⟩ = Amount.ofInt nestedPool.token1 496 ∧
    (halves .exactOutput).maxInput ⟨1, 200, by decide⟩ = Amount.ofInt nestedPool.token0 502 ∧
    ∃ w w' e, (halves .exactOutput).worstPrice ⟨1, 200, by decide⟩ = .ok w ∧
      (halves .exactOutput).worstPrice ⟨3, 2, by decide⟩ = .ok w' ∧
      (halves .exactOutput).executionPrice = .ok e ∧ w.ratio.toRat = 499 / 502 ∧
      w'.ratio.toRat ≤ w.ratio.toRat ∧ w.ratio.toRat ≤ e.ratio.toRat := by
  have hin : ∀ kind, 0 ≤ (halves kind).input.value.toRat := fun kind =>
    Fraction.toRat_nonneg_iff.mpr (show (0 : ℤ) ≤ 1001 by decide)
  have hout : ∀ kind, 0 ≤ (halves kind).output.value.toRat := fun kind =>
    Fraction.toRat_nonneg_iff.mpr (show (0 : ℤ) ≤ 999 by decide)
  have hs : 0 ≤ Fraction.toRat ⟨1, 200, by decide⟩ := Fraction.toRat_nonneg_iff.mpr (by decide)
  have hle : Fraction.toRat ⟨1, 200, by decide⟩ ≤ Fraction.toRat ⟨3, 2, by decide⟩ :=
    Fraction.toRat_le_toRat_iff.mpr (by decide)
  obtain ⟨hinput, -⟩ := tolerance_bounds (halves .exactInput) (hin _) (hout _) hs hle
  obtain ⟨-, houtput, -, -, hworse, hprice⟩ :=
    tolerance_bounds (halves .exactOutput) (hin _) (hout _) hs hle
  have hw : ((halves .exactOutput).worstPrice ⟨1, 200, by decide⟩).map (fun w =>
      w.ratio == ⟨499, 502, by decide⟩) = .ok true := by decide
  have hw' : ((halves .exactOutput).worstPrice ⟨3, 2, by decide⟩).map (fun w =>
      w.ratio == ⟨499, 1250, by decide⟩) = .ok true := by decide
  obtain ⟨w, hw, hratio⟩ := map_eq_ok_iff.mp hw
  obtain ⟨w', hw', -⟩ := map_eq_ok_iff.mp hw'
  obtain ⟨e, he, hbest⟩ := hprice w hw
  refine ⟨?_, ?_, w, w', e, hw, hw', he, ?_, hworse w w' hw hw', hbest⟩
  · rw [(hinput rfl).2.2.1]
    norm_num [halves, Fraction.toRat]
  · rw [(houtput rfl).2.1]
    norm_num [halves, Fraction.toRat]
  · rw [Fraction.beq_iff.mp hratio]
    norm_num [Fraction.toRat]

end Trade

end Clamm
