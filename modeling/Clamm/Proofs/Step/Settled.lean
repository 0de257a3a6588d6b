import Mathlib
import Clamm.Proofs.Step.Sound

/-!
# What a step charges, and when it uses up the order

A step either ends on its target or uses up what remains of the order to the last unit. An input
order that ends short is charged all that is left of it; an output order that ends short moves the
price far enough for all of the output, since the move is rounded away from the start.

Either way the input that trades is at most what is paid in less the fee on it, which is what bounds
the price of a whole swap and its fees.

* `stepPrice_eq_target_iff`: an input order reaches the target exactly if it covers the way there.
* `stepPrice_delivers`: an output order that ends short of the target releases all that it asks for.
* `step_settled`: both laws, for every step of an order within 256 bits.
-/

namespace Clamm

/-- What a step owes to its order. -/
structure Step.Settled (target : ℕ) (remaining : ℤ) (fee : ℕ) (s : Step) : Prop where
  net : s.amountIn * feeUnit ≤ (s.amountIn + s.fee) * (feeUnit - fee)
  spends : s.next ≠ target → fixesInput remaining = true → s.amountIn + s.fee = remaining.natAbs
  delivers : s.next ≠ target → fixesInput remaining = false → s.amountOut = remaining.natAbs

section

variable {d : Direction} {current target next L fee a r c : ℕ} {remaining : ℤ} {s : Step}

/-- An output order that does not reach the target moves the price far enough for all of it. -/
theorem stepPrice_delivers (h : stepPrice d current target L remaining fee = .ok next)
    (hshort : next ≠ target) (hfix : fixesInput remaining = false) :
    d.Yields current next L remaining.natAbs := by
  unfold stepPrice at h
  rw [hfix, if_neg Bool.false_ne_true] at h
  obtain ⟨available, -, h⟩ := bind_eq_ok_iff.mp h
  split at h
  · cases h
    exact absurd rfl hshort
  · exact priceAfterOutput_yields h

/-- An input order reaches the target exactly if its budget is all that the way there needs. -/
theorem stepPrice_eq_target_iff {needed : ℕ} (hlead : d.Leads current target)
    (hneeded : inputBetween d current target L = .ok needed)
    (h : stepPrice d current target L remaining fee = .ok next) (hfix : fixesInput remaining = true) :
    next = target ↔ needed ≤ remaining.natAbs * (feeUnit - fee) / feeUnit := by
  unfold stepPrice at h
  rw [if_pos hfix] at h
  obtain ⟨budget, hbudget, h⟩ := bind_eq_ok_iff.mp h
  obtain ⟨-, -, rfl⟩ := mulDiv_eq_ok_iff.mp hbudget
  rw [hneeded, ok_bind] at h
  split at h
  · rename_i hle
    cases h
    exact iff_of_true rfl hle
  · rename_i hgt
    -- a price that ends on the target is covered by the budget, rounded or not
    refine iff_of_false (fun hnext => hgt ?_) hgt
    obtain ⟨-, hcovers, -⟩ := priceAfterInput_spec h
    rw [hnext] at hcovers
    exact (inputBetween_le_iff hlead hneeded).mpr hcovers

/-- A charge that is rounded up leaves the input its share of the sum. -/
theorem net_of_charge (hfee : fee ≤ feeUnit) (hc : mulDiv .ceil a fee (feeUnit - fee) = .ok c) :
    a * feeUnit ≤ (a + c) * (feeUnit - fee) := by
  obtain ⟨hd, -, rfl⟩ := mulDiv_eq_ok_iff.mp hc
  have hceil := Rounding.le_div_ceil_mul (Nat.pos_of_ne_zero hd) (a * fee)
  generalize Rounding.ceil.div (a * fee) (feeUnit - fee) = c at *
  zify [hfee] at hceil ⊢
  linarith

/-- What is left of an order within 256 bits after an input within it. -/
theorem add_rest_eq (hle : a ≤ r) (hr : r < pow2 256) :
    a + (r + pow2 256 - a) % pow2 256 = r := by
  rw [show r + pow2 256 - a = r - a + pow2 256 by omega, Nat.add_mod_right,
    Nat.mod_eq_of_lt (by omega)]
  omega

/-- **A step that ends short of its target uses up the order**, and every step leaves the input its
share of what is paid in. -/
theorem step_settled (hrem : remaining.natAbs < pow2 256)
    (h : step current target L remaining fee = .ok s) : s.Settled target remaining fee := by
  have hlead := leads_ite current target
  have hparts := step_eq_ok_iff.mp h
  generalize (if target ≤ current then Direction.down else .up) = d at *
  obtain ⟨hleaves, -, -⟩ := stepPrice_spec hlead hparts.price
  obtain ⟨released, hout, hpaid⟩ := hparts.output
  have hdelivers : s.next ≠ target → fixesInput remaining = false →
      s.amountOut = remaining.natAbs := by
    intro hshort hfix
    have hyields := stepPrice_delivers hparts.price hshort hfix
    rw [hpaid, hfix, if_neg Bool.false_ne_true]
    exact min_eq_right ((le_outputBetween_iff hleaves hout).mpr hyields)
  rcases hparts.charge with ⟨hfix, hshort, hrest⟩ | ⟨htarget, hcharge⟩
  · -- the fee is all that is left of the order
    obtain ⟨budget, hab, hbr, hle⟩ := hparts.exists_budget hlead hfix
    have hall : s.amountIn + s.fee = remaining.natAbs := by
      rw [hrest]
      exact add_rest_eq (hab.trans hbr) hrem
    refine ⟨?_, fun _ _ => hall, hdelivers⟩
    rw [hall]
    exact (Nat.mul_le_mul_right _ hab).trans hle
  · exact ⟨net_of_charge hparts.fee_le hcharge, fun hshort hfix => absurd (htarget hfix) hshort,
      hdelivers⟩

end

end Clamm
