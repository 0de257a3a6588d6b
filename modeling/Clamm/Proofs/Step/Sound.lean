import Mathlib
import Clamm.Proofs.Step.Amounts

/-!
# One step favors the pool

A step of a swap stays on its way to the target, takes in at least what the move of the price costs
and pays out at most what it releases (`Step.Sound`). It also stays within the order: an input order
pays no more than what remains of it, fee included, and an output order receives no more.

* `stepPrice_spec`: where a step ends, and that its budget covers the way there.
* `step_eq_ok_iff`: the parts of a step, in both directions.
* `Step.parts_of_step`: they are its parts in the direction of its order. At zero length `step`
  cannot tell that direction and takes `down`, which then makes no difference.
* `step_sound`: every step that succeeds is sound, for either direction of the price.
-/

namespace Clamm

theorem fixesInput_eq_true_iff {amount : ℤ} : fixesInput amount = true ↔ 0 ≤ amount := by
  simp [fixesInput]

theorem fixesInput_eq_false_iff {amount : ℤ} : fixesInput amount = false ↔ amount < 0 := by
  simp [fixesInput]

/-- What a step guarantees when the price is to move in direction `d`. -/
structure Step.Sound (d : Direction) (current target L : ℕ) (remaining : ℤ) (s : Step) : Prop where
  leaves : d.Leads current s.next
  stops : d.Leads s.next target
  covers : d.Covers current s.next L s.amountIn
  yields : d.Yields current s.next L s.amountOut
  input_le : fixesInput remaining = true → s.amountIn + s.fee ≤ remaining.natAbs
  output_le : fixesInput remaining = false → s.amountOut ≤ remaining.natAbs

/-- The parts of a successful step in direction `d`. An input order that ends short of the target is
charged all that is left of it; every other step is charged on the input used. -/
structure Step.Parts (d : Direction) (current target L : ℕ) (remaining : ℤ) (fee : ℕ) (s : Step) :
    Prop where
  fee_le : fee ≤ feeUnit
  price : stepPrice d current target L remaining fee = .ok s.next
  input : inputBetween d current s.next L = .ok s.amountIn
  output : ∃ released, outputBetween d current s.next L = .ok released ∧
    s.amountOut = if fixesInput remaining then released else min released remaining.natAbs
  charge : (fixesInput remaining = true ∧ s.next ≠ target ∧
      s.fee = (remaining.natAbs + pow2 256 - s.amountIn) % pow2 256) ∨
    ((fixesInput remaining = true → s.next = target) ∧
      mulDiv .ceil s.amountIn fee (feeUnit - fee) = .ok s.fee)

section

variable {d d' : Direction} {current target next L fee a b r c : ℕ} {remaining : ℤ} {s : Step}

theorem stepPrice_spec (hlead : d.Leads current target)
    (h : stepPrice d current target L remaining fee = .ok next) :
    d.Leads current next ∧ d.Leads next target ∧
      (fixesInput remaining = true → ∃ budget, d.Covers current next L budget ∧
        budget * feeUnit ≤ remaining.natAbs * (feeUnit - fee)) := by
  unfold stepPrice at h
  split at h
  · obtain ⟨budget, hb, h⟩ := bind_eq_ok_iff.mp h
    obtain ⟨needed, hn, h⟩ := bind_eq_ok_iff.mp h
    obtain ⟨hunit, -, rfl⟩ := mulDiv_eq_ok_iff.mp hb
    have hbudget := Nat.div_mul_le_self (remaining.natAbs * (feeUnit - fee)) feeUnit
    split at h
    · rename_i hle
      cases h
      exact ⟨hlead, Direction.Leads.refl d _, fun _ =>
        ⟨_, (inputBetween_le_iff hlead hn).mp hle, hbudget⟩⟩
    · rename_i hgt
      obtain ⟨hleaves, hcovers, hreach⟩ := priceAfterInput_spec h
      refine ⟨hleaves, hreach target hlead ?_, fun _ => ⟨_, hcovers, hbudget⟩⟩
      rwa [← inputBetween_le_iff hlead hn]
  · rename_i hfix
    obtain ⟨available, ha, h⟩ := bind_eq_ok_iff.mp h
    split at h
    · cases h
      exact ⟨hlead, Direction.Leads.refl d _, fun hin => absurd hin hfix⟩
    · rename_i hgt
      obtain ⟨hleaves, hreach⟩ := priceAfterOutput_spec h
      refine ⟨hleaves, hreach target hlead ?_, fun hin => absurd hin hfix⟩
      rw [← le_outputBetween_iff hlead ha]
      omega

/-- The fee on an input within the budget leaves the sum within the order. -/
theorem add_fee_le (hb : a ≤ b) (hbudget : b * feeUnit ≤ r * (feeUnit - fee)) (hfee : fee ≤ feeUnit)
    (hc : mulDiv .ceil a fee (feeUnit - fee) = .ok c) : a + c ≤ r := by
  obtain ⟨hd, -, rfl⟩ := mulDiv_eq_ok_iff.mp hc
  have hpos := Nat.pos_of_ne_zero hd
  have hle : a * feeUnit ≤ r * (feeUnit - fee) := (Nat.mul_le_mul_right _ hb).trans hbudget
  have har : a ≤ r := by
    refine le_of_mul_le_mul_right ((Nat.mul_le_mul_left a (Nat.sub_le feeUnit fee)).trans hle) hpos
  have : Rounding.ceil.div (a * fee) (feeUnit - fee) ≤ r - a := by
    rw [Rounding.div_ceil_le_iff hpos]
    zify [hfee, har] at hle ⊢
    linarith
  omega

/-- What is left of the order after an input within it, in 256 bits. -/
theorem add_rest_le (hle : a ≤ r) : a + (r + pow2 256 - a) % pow2 256 ≤ r := by
  have hrest : (r + pow2 256 - a) % pow2 256 = (r - a) % pow2 256 := by
    rw [show r + pow2 256 - a = r - a + pow2 256 by omega, Nat.add_mod_right]
  have := Nat.mod_le (r - a) (pow2 256)
  omega

/-- The direction that a step takes its prices to lie in. -/
theorem leads_ite (a b : ℕ) : (if b ≤ a then Direction.down else .up).Leads a b := by
  split
  · assumption
  · rename_i h
    exact (not_le.mp h).le

/-- A step succeeds exactly with its parts, in the direction that it takes its prices to lie in. -/
theorem step_eq_ok_iff : step current target L remaining fee = .ok s ↔
    s.Parts (if target ≤ current then .down else .up) current target L remaining fee := by
  unfold step
  generalize (if target ≤ current then Direction.down else .up) = d
  dsimp only
  constructor
  · intro h
    split at h
    · cases h
    rename_i hfee
    obtain ⟨next, hnext, h⟩ := bind_eq_ok_iff.mp h
    obtain ⟨amountIn, hin, h⟩ := bind_eq_ok_iff.mp h
    obtain ⟨released, hout, h⟩ := bind_eq_ok_iff.mp h
    split at h
    · rename_i hfix
      split at h
      · rename_i htarget
        obtain ⟨charged, hcharge, h⟩ := bind_eq_ok_iff.mp h
        cases h
        exact ⟨not_lt.mp hfee, hnext, hin, ⟨released, hout, (if_pos hfix).symm⟩,
          Or.inr ⟨fun _ => htarget, hcharge⟩⟩
      · rename_i htarget
        obtain ⟨charged, hcharge, h⟩ := bind_eq_ok_iff.mp h
        cases hcharge
        cases h
        exact ⟨not_lt.mp hfee, hnext, hin, ⟨released, hout, (if_pos hfix).symm⟩,
          Or.inl ⟨hfix, htarget, rfl⟩⟩
    · rename_i hfix
      obtain ⟨charged, hcharge, h⟩ := bind_eq_ok_iff.mp h
      cases h
      exact ⟨not_lt.mp hfee, hnext, hin, ⟨released, hout, (if_neg hfix).symm⟩,
        Or.inr ⟨fun hin => absurd hin hfix, hcharge⟩⟩
  · rintro ⟨hfee, hnext, hin, ⟨released, hout, hpaid⟩, hcharge⟩
    obtain ⟨next, amountIn, amountOut, charged⟩ := s
    dsimp only at hnext hin hout hpaid hcharge
    rw [if_neg (not_lt.mpr hfee), hnext, ok_bind, hin, ok_bind, hout, ok_bind, hpaid]
    cases hfix : fixesInput remaining
    · obtain ⟨hin, -⟩ | ⟨-, hcharge⟩ := hcharge
      · rw [hfix] at hin
        cases hin
      · rw [hcharge]
        rfl
    · obtain ⟨-, htarget, hrest⟩ | ⟨htarget, hcharge⟩ := hcharge
      · rw [if_pos rfl, if_neg htarget, hrest]
        rfl
      · rw [if_pos rfl, if_pos (htarget hfix), hcharge]
        rfl

/-! ## The direction of a step -/

/-- Between equal prices the direction makes no difference. -/
theorem stepPrice_self (hc : 0 < c) : stepPrice d c c L remaining fee = stepPrice d' c c L remaining fee := by
  simp only [stepPrice, inputBetween_self hc, outputBetween_self hc, ok_bind, Nat.zero_le, if_true]

namespace Step

/-- The prices of a step are not zero. -/
theorem Parts.pos (h : s.Parts d current target L remaining fee) : 0 < current ∧ 0 < s.next := by
  obtain ⟨released, hout, -⟩ := h.output
  cases d with
  | down => exact amount0Between_pos h.input
  | up => exact amount0Between_pos hout

/-- A step between equal prices has its parts in either direction. -/
theorem Parts.turn (h : s.Parts .down c c L remaining fee) : s.Parts .up c c L remaining fee := by
  have hc := h.pos.1
  obtain ⟨hleaves, hstops, -⟩ := stepPrice_spec (Direction.Leads.refl _ c) h.price
  have hnext : s.next = c := le_antisymm hleaves hstops
  obtain ⟨released, hout, hpaid⟩ := h.output
  have hin := h.input
  rw [hnext, inputBetween_self hc] at hin
  rw [hnext, outputBetween_self hc] at hout
  refine ⟨h.fee_le, (stepPrice_self hc).trans h.price, ?_, ⟨released, ?_, hpaid⟩, h.charge⟩
  · rw [hnext, inputBetween_self hc]
    exact hin
  · rw [hnext, outputBetween_self hc]
    exact hout

/-- **The parts of a step in the direction of its order.** -/
theorem parts_of_step (hlead : d.Leads current target) (h : step current target L remaining fee = .ok s) :
    s.Parts d current target L remaining fee := by
  have hparts := step_eq_ok_iff.mp h
  cases d with
  | down =>
    have hle : target ≤ current := hlead
    rwa [if_pos hle] at hparts
  | up =>
    by_cases hback : target ≤ current
    · obtain rfl : current = target := le_antisymm hlead hback
      rw [if_pos hback] at hparts
      exact hparts.turn
    · rwa [if_neg hback] at hparts

end Step

/-- A step between equal prices moves nothing and costs nothing. -/
theorem step_self (h : step c c L remaining fee = .ok s) : s = ⟨c, 0, 0, 0⟩ := by
  have hparts := step_eq_ok_iff.mp h
  rw [if_pos le_rfl] at hparts
  have hc := hparts.pos.1
  obtain ⟨hleaves, hstops, -⟩ := stepPrice_spec (Direction.Leads.refl _ c) hparts.price
  have hnext : s.next = c := le_antisymm hleaves hstops
  obtain ⟨released, hout, hpaid⟩ := hparts.output
  have hin := hparts.input
  rw [hnext, inputBetween_self hc] at hin
  rw [hnext, outputBetween_self hc] at hout
  cases hout
  have hcharge := (hparts.charge.resolve_left fun hshort => hshort.2.1 hnext).2
  rw [← Except.ok.inj hin] at hcharge
  obtain ⟨hd, -, hfee⟩ := mulDiv_eq_ok_iff.mp hcharge
  rw [Nat.zero_mul, Rounding.div_zero_left (Nat.pos_of_ne_zero hd)] at hfee
  obtain ⟨next, amountIn, amountOut, charged⟩ := s
  simp only [Step.mk.injEq]
  exact ⟨hnext, (Except.ok.inj hin).symm, by simpa using hpaid, hfee⟩

/-! ## Soundness -/

/-- A step of an order that fixes its input has a budget that the step stays within. -/
theorem Step.Parts.exists_budget (h : s.Parts d current target L remaining fee)
    (hlead : d.Leads current target) (hfix : fixesInput remaining = true) :
    ∃ budget, s.amountIn ≤ budget ∧ budget ≤ remaining.natAbs ∧
      budget * feeUnit ≤ remaining.natAbs * (feeUnit - fee) := by
  obtain ⟨hleaves, -, hbudget⟩ := stepPrice_spec hlead h.price
  obtain ⟨budget, hcovers, hle⟩ := hbudget hfix
  refine ⟨budget, (inputBetween_le_iff hleaves h.input).mpr hcovers, ?_, hle⟩
  refine le_of_mul_le_mul_right (hle.trans ?_) (show 0 < feeUnit by decide)
  exact Nat.mul_le_mul_left _ (Nat.sub_le _ _)

/-- **Every step is sound**, for either direction of the price. -/
theorem step_sound (hlead : d.Leads current target)
    (h : step current target L remaining fee = .ok s) : s.Sound d current target L remaining := by
  have hparts := Step.parts_of_step hlead h
  obtain ⟨hleaves, hstops, -⟩ := stepPrice_spec hlead hparts.price
  obtain ⟨released, hout, hpaid⟩ := hparts.output
  have hyields := (le_outputBetween_iff hleaves hout).mp (le_refl _)
  refine ⟨hleaves, hstops, (inputBetween_le_iff hleaves hparts.input).mp (le_refl _), ?_, ?_, ?_⟩
  · refine hyields.anti ?_
    rw [hpaid]
    split
    · exact le_refl _
    · exact min_le_left _ _
  · intro hfix
    obtain ⟨budget, hab, hbr, hle⟩ := hparts.exists_budget hlead hfix
    rcases hparts.charge with ⟨-, -, hrest⟩ | ⟨-, hcharge⟩
    · rw [hrest]
      exact add_rest_le (hab.trans hbr)
    · exact add_fee_le hab hle hparts.fee_le hcharge
  · intro hfix
    rw [hpaid, hfix]
    exact min_le_right _ _

end

end Clamm
