import Mathlib
import Clamm.Proofs.Step.Total
import Clamm.Proofs.Word.Step

/-!
# Where a step on words lands, and what it costs

Between prices of 1 to `2 ^ 160` a step on words ends well: whatever the liquidity and whatever is
left of the order, also the least word, whose magnitude is no signed word itself, as long as the fee
is less than the whole. It then has the numbers of a step (`numbers_step`), which stays between its
prices and within its order. What is left to do here is to read the numbers back as words.

* `exists_step`: no step fails, and none has other numbers than a step.
* `step_lands`: it lands between its prices, and an input order reaches the target exactly if what
  is left of it after the fee pays for the way there.
* `step_accounts`: its amounts are those of the move it makes, and it either ends on the target or
  uses up the order.
-/

namespace Clamm

namespace Word

/-- The direction that a step takes its prices to lie in. -/
def heading (current target : Word) : Direction := if target ≤ current then .down else .up

/-- The accounts of a step: what it takes in, pays out and charges, against the move it makes and
what remains of the order. -/
structure Step.Accounts (d : Direction) (current target : Word) (L : Liquidity) (remaining : Word)
    (fee : BitVec 32) (s : Step) : Prop where
  input : inputBetween d current s.next L = .ok s.amountIn
  output : ∃ released, outputBetween d current s.next L = .ok released ∧
    s.amountOut.toNat =
      if 0 ≤ remaining.toInt then released.toNat else min released.toNat remaining.toInt.natAbs
  paid_le : 0 ≤ remaining.toInt → s.amountIn.toNat + s.fee.toNat ≤ remaining.toInt.natAbs
  spends : 0 ≤ remaining.toInt → s.next ≠ target →
    s.amountIn.toNat + s.fee.toNat = remaining.toInt.natAbs
  received_le : remaining.toInt < 0 → s.amountOut.toNat ≤ remaining.toInt.natAbs
  delivers : remaining.toInt < 0 → s.next ≠ target → s.amountOut.toNat = remaining.toInt.natAbs
  charges : s.amountIn.toNat * fee.toNat ≤ s.fee.toNat * (feeUnit - fee.toNat)

theorem natAbs_toInt_le (x : Word) : x.toInt.natAbs ≤ pow2 255 := by
  have hlow := x.le_toInt
  have hhigh := x.toInt_lt
  rw [show pow2 255 = 2 ^ 255 from rfl]
  omega

theorem heading_leads (current target : Word) :
    (heading current target).Leads current.toNat target.toNat := leads_ite _ _

section

variable {current target : Word} {fee : BitVec 32}

/-- **No step on words fails**, and its numbers are those of a step. -/
theorem exists_step (hcur : Priced 0 current.toNat) (htar : Priced 0 target.toNat)
    (hfee : fee.toNat < feeUnit) (L : Liquidity) (remaining : Word) :
    ∃ s : Step, step current target L remaining fee = .ok s ∧
      Clamm.step current.toNat target.toNat L.toNat remaining.toInt fee.toNat = .ok s.numbers := by
  obtain ⟨t, ht, -⟩ := step_total hcur htar (Nat.zero_le 32) L.isLt (natAbs_toInt_le remaining) hfee
  obtain ⟨s, hs, rfl⟩ := map_eq_ok_iff.mp ((numbers_step current target L remaining fee).trans ht)
  exact ⟨s, hs, ht⟩

/-- **Every step lands**, between its prices, and has the numbers of a step. An input order pays no
more than what remains of it, and reaches the target exactly if what is left of it after the fee
pays for the way there. -/
theorem step_lands (hcur : Priced 0 current.toNat) (htar : Priced 0 target.toNat)
    (hfee : fee.toNat < feeUnit) (L : Liquidity) (remaining : Word) :
    ∃ s : Step, step current target L remaining fee = .ok s ∧
      Clamm.step current.toNat target.toNat L.toNat remaining.toInt fee.toNat = .ok s.numbers ∧
      s.next.toNat ∈ Set.uIcc current.toNat target.toNat ∧
      (0 ≤ remaining.toInt →
        s.amountIn ≤ magnitude remaining ∧
        ∃ needed, inputBetween (heading current target) current target L = .ok needed ∧
          (s.next = target ↔
            needed.toNat ≤ remaining.toInt.natAbs * (feeUnit - fee.toNat) / feeUnit)) := by
  obtain ⟨s, hs, hnumbers⟩ := exists_step hcur htar hfee L remaining
  have hlead := heading_leads current target
  have hsound := step_sound hlead hnumbers
  have hparts := Step.parts_of_step hlead hnumbers
  refine ⟨s, hs, hnumbers, ?_, fun hfix => ⟨?_, ?_⟩⟩
  · have hleaves := hsound.leaves
    have hstops := hsound.stops
    generalize heading current target = d at *
    cases d with
    | down => exact Set.mem_uIcc.mpr (Or.inr ⟨hstops, hleaves⟩)
    | up => exact Set.mem_uIcc.mpr (Or.inl ⟨hleaves, hstops⟩)
  · rw [BitVec.le_def, toNat_magnitude]
    exact (Nat.le_add_right _ _).trans (hsound.input_le (fixesInput_eq_true_iff.mpr hfix))
  · obtain ⟨needed, hneeded, -⟩ := inputBetween_total (heading current target) hcur htar
      (Nat.zero_le 32) L.isLt
    obtain ⟨w, hw, rfl⟩ := map_eq_ok_iff.mp ((value_inputBetween _ _ _ _).trans hneeded)
    refine ⟨w, hw, ?_⟩
    rw [← stepPrice_eq_target_iff hlead hneeded hparts.price (fixesInput_eq_true_iff.mpr hfix)]
    exact BitVec.toNat_inj.symm

/-- An order of input that can afford the way from 2 to 1 lands there and keeps the rest. -/
theorem step_lands_on_one :
    step 2 1 1 3915081100057732413702495386755767 1 =
        .ok ⟨1, 39614081257132168796771975168, 0, 39614120871253040049813⟩ ∧
      ∃ needed, inputBetween (heading 2 1) 2 1 1 = .ok needed ∧
        needed.toNat ≤ 3915081100057732413702495386755767 * (feeUnit - 1) / feeUnit := by
  have hstep : step 2 1 1 3915081100057732413702495386755767 1 =
      .ok ⟨1, 39614081257132168796771975168, 0, 39614120871253040049813⟩ := by decide +kernel
  obtain ⟨s, hs, -, -, hinput⟩ := @step_lands 2 1 1 ⟨by decide, by decide⟩ ⟨by decide, by decide⟩
    (by decide) 1 3915081100057732413702495386755767
  cases hs.symm.trans hstep
  obtain ⟨-, needed, hneeded, hlands⟩ := hinput (by decide)
  exact ⟨hstep, needed, hneeded, hlands.mp rfl⟩

/-- **The accounts of every step.** -/
theorem step_accounts (hcur : Priced 0 current.toNat) (htar : Priced 0 target.toNat)
    (hfee : fee.toNat < feeUnit) (L : Liquidity) (remaining : Word) :
    ∃ s : Step, step current target L remaining fee = .ok s ∧
      s.Accounts (heading current target) current target L remaining fee := by
  obtain ⟨s, hs, hnumbers⟩ := exists_step hcur htar hfee L remaining
  have hlead := heading_leads current target
  have hsound := step_sound hlead hnumbers
  have hparts := Step.parts_of_step hlead hnumbers
  have hsettled := step_settled ((natAbs_toInt_le remaining).trans_lt (pow2_lt (by omega))) hnumbers
  -- short of the target among words is short of it among numbers
  have hshort : s.next ≠ target → s.numbers.next ≠ target.toNat := fun hne h =>
    hne (BitVec.eq_of_toNat_eq h)
  obtain ⟨released, hout, hpaid⟩ := hparts.output
  obtain ⟨out, hword, rfl⟩ := map_eq_ok_iff.mp ((value_outputBetween _ _ _ _).trans hout)
  simp only [fixesInput_eq_true_iff] at hpaid
  refine ⟨s, hs, ?_, ⟨out, hword, hpaid⟩, ?_, ?_, ?_, ?_, ?_⟩
  · exact value_eq_ok_iff.mp ((value_inputBetween _ _ _ _).trans hparts.input)
  · exact fun hfix => hsound.input_le (fixesInput_eq_true_iff.mpr hfix)
  · exact fun hfix hne => hsettled.spends (hshort hne) (fixesInput_eq_true_iff.mpr hfix)
  · exact fun hfix => hsound.output_le (fixesInput_eq_false_iff.mpr hfix)
  · exact fun hfix hne => hsettled.delivers (hshort hne) (fixesInput_eq_false_iff.mpr hfix)
  · have hnet : s.amountIn.toNat * feeUnit ≤
        (s.amountIn.toNat + s.fee.toNat) * (feeUnit - fee.toNat) := hsettled.net
    -- the share of the input, taken off both sides
    zify [hfee.le] at hnet ⊢
    linarith

/-- An order for one unit of output ends one price below its start. The move is rounded up to that,
releases two units and pays out one. -/
theorem step_accounts_of_one_unit :
    Step.Accounts .down 417332158212080721273783715441582 1452870262520218020823638996
      159344665391607089467575320103 (-1) 1 ⟨417332158212080721273783715441581, 1, 1, 1⟩ := by
  have hstep : step 417332158212080721273783715441582 1452870262520218020823638996
      159344665391607089467575320103 (-1) 1 =
        .ok ⟨417332158212080721273783715441581, 1, 1, 1⟩ := by decide +kernel
  obtain ⟨s, hs, haccounts⟩ := @step_accounts 417332158212080721273783715441582
    1452870262520218020823638996 1 ⟨by decide, by decide⟩ ⟨by decide, by decide⟩ (by decide)
    159344665391607089467575320103 (-1)
  cases hs.symm.trans hstep
  exact haccounts

end

end Word

end Clamm
