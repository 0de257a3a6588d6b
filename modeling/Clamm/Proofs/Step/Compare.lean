import Mathlib
import Clamm.Proofs.Step.Settled

/-!
# Steps of different orders, compared

Steps that start at one price and head for one target differ only in the order that they serve. A
step that reaches the target is the same for every order that affords it, and one that ends short
serves its order in full, so a comparison has to be made where the first of the two ends short.

The fee is what keeps such comparisons apart from the curve. A payment of `r` leaves `netOf fee r`
to trade with, and trading `a` takes a payment of `grossOf fee a`. The two roundings fit together:
a payment covers the gross of an amount exactly if its net covers the amount (`grossOf_le_iff`), so
neither of them is ever unfolded again.

* `Direction.Covers.add`, `Direction.Yields.add`: moves that follow one another add up.
* `priceAfterInput_mono`: a larger input moves the price at least as far, also where only one of
  the two has a denominator of more than 256 bits.
* `priceAfterInput_reaches`: an input whose denominator fits reaches every price it covers.
* `step_outdone`: a step of a larger order of the same kind.
* `step_split`: two input orders one after the other against both in one.
* `step_bought`: an output order against an input order of what it costs.
-/

namespace Clamm

/-! ## Moves that follow one another -/

namespace Direction

variable {d : Direction} {a b c L x y : ℕ}

/-- What covers a move covers every part of it from the start. -/
theorem Covers.shorten (h : d.Covers a c L x) (hbc : d.Leads b c) : d.Covers a b L x := by
  cases d with
  | down =>
    have hcb : c ≤ b := hbc
    exact (Nat.mul_le_mul_left _ (Nat.sub_le_sub_left hcb a)).trans
      (h.trans (Nat.mul_le_mul_left _ (Nat.mul_le_mul_right _ hcb)))
  | up =>
    have hbc' : b ≤ c := hbc
    exact (Nat.mul_le_mul_left _ (Nat.sub_le_sub_right hbc' a)).trans h

/-- What covers two moves covers both together. -/
theorem Covers.add (hb : 0 < b) (hab : d.Leads a b) (hbc : d.Leads b c) (hx : d.Covers a b L x)
    (hy : d.Covers b c L y) : d.Covers a c L (x + y) := by
  cases d with
  | down =>
    have hba : b ≤ a := hab
    have hcb : c ≤ b := hbc
    simp only [Covers] at hx hy ⊢
    refine le_of_mul_le_mul_right ?_ hb
    calc L * pow2 96 * (a - c) * b
        = L * pow2 96 * (a - b) * c + L * pow2 96 * (b - c) * a := by
          zify [hba, hcb, hcb.trans hba]
          ring
      _ ≤ x * (b * a) * c + y * (c * b) * a :=
          Nat.add_le_add (Nat.mul_le_mul_right _ hx) (Nat.mul_le_mul_right _ hy)
      _ = (x + y) * (c * a) * b := by ring
  | up =>
    have hab' : a ≤ b := hab
    have hbc' : b ≤ c := hbc
    simp only [Covers] at hx hy ⊢
    calc L * (c - a) = L * (b - a) + L * (c - b) := by
          zify [hab', hbc', hab'.trans hbc']
          ring
      _ ≤ x * pow2 96 + y * pow2 96 := Nat.add_le_add hx hy
      _ = (x + y) * pow2 96 := (Nat.add_mul _ _ _).symm

/-- What two moves yield both together yield. -/
theorem Yields.add (hb : 0 < b) (hab : d.Leads a b) (hbc : d.Leads b c) (hx : d.Yields a b L x)
    (hy : d.Yields b c L y) : d.Yields a c L (x + y) := by
  cases d with
  | down =>
    have hba : b ≤ a := hab
    have hcb : c ≤ b := hbc
    simp only [Yields] at hx hy ⊢
    calc (x + y) * pow2 96 = x * pow2 96 + y * pow2 96 := Nat.add_mul _ _ _
      _ ≤ L * (a - b) + L * (b - c) := Nat.add_le_add hx hy
      _ = L * (a - c) := by
          zify [hba, hcb, hcb.trans hba]
          ring
  | up =>
    have hab' : a ≤ b := hab
    have hbc' : b ≤ c := hbc
    simp only [Yields] at hx hy ⊢
    refine le_of_mul_le_mul_right ?_ hb
    calc (x + y) * (a * c) * b = x * (a * b) * c + y * (b * c) * a := by ring
      _ ≤ L * pow2 96 * (b - a) * c + L * pow2 96 * (c - b) * a :=
          Nat.add_le_add (Nat.mul_le_mul_right _ hx) (Nat.mul_le_mul_right _ hy)
      _ = L * pow2 96 * (c - a) * b := by
          zify [hab', hbc', hab'.trans hbc']
          ring

/-- A move that costs nothing yields nothing. -/
theorem eq_zero_of_yields (ha : 0 < a) (hb : 0 < b) (hcovers : d.Covers a b L 0)
    (hyields : d.Yields a b L x) : x = 0 := by
  cases d with
  | down =>
    simp only [Covers, Yields, zero_mul, Nat.le_zero] at hcovers hyields
    rw [mul_right_comm, mul_eq_zero] at hcovers
    rw [hcovers.resolve_right (pow2_pos 96).ne', Nat.le_zero, mul_eq_zero] at hyields
    exact hyields.resolve_right (pow2_pos 96).ne'
  | up =>
    simp only [Covers, Yields, zero_mul, Nat.le_zero] at hcovers hyields
    rw [mul_right_comm, hcovers, zero_mul, Nat.le_zero, mul_eq_zero] at hyields
    exact hyields.resolve_right (Nat.mul_pos ha hb).ne'

/-- What a move yields every move beyond it yields. -/
theorem Yields.extend (hb : 0 < b) (hab : d.Leads a b) (hbc : d.Leads b c) (h : d.Yields a b L x) :
    d.Yields a c L x := by
  refine h.add (y := 0) hb hab hbc ?_
  cases d <;> simp [Yields]

end Direction

/-! ## Net and gross -/

/-- What a payment leaves to trade with after the fee. -/
def netOf (fee r : ℕ) : ℕ := r * (feeUnit - fee) / feeUnit

/-- The payment for trading an amount, the fee included. -/
def grossOf (fee a : ℕ) : ℕ := a + Rounding.ceil.div (a * fee) (feeUnit - fee)

section Fees

variable {fee a b r : ℕ}

/-- **A payment covers the gross of an amount exactly if its net covers the amount.** -/
theorem grossOf_le_iff (hfee : fee < feeUnit) : grossOf fee a ≤ r ↔ a ≤ netOf fee r := by
  have hpos : 0 < feeUnit - fee := Nat.sub_pos_of_lt hfee
  have hnet : a ≤ netOf fee r ↔ a * feeUnit ≤ r * (feeUnit - fee) :=
    Nat.le_div_iff_mul_le (by decide)
  have hgross : grossOf fee a ≤ r ↔ a ≤ r ∧ a * fee ≤ (r - a) * (feeUnit - fee) := by
    rw [← Rounding.div_ceil_le_iff hpos]
    unfold grossOf
    omega
  rw [hnet, hgross]
  constructor
  · rintro ⟨har, h⟩
    zify [hfee.le, har] at h ⊢
    linarith
  · intro h
    have har : a ≤ r := by
      refine le_of_mul_le_mul_right (le_trans ?_ h) hpos
      exact Nat.mul_le_mul_left a (Nat.sub_le _ _)
    refine ⟨har, ?_⟩
    zify [hfee.le, har] at h ⊢
    linarith

theorem grossOf_mono (hfee : fee < feeUnit) (h : a ≤ b) : grossOf fee a ≤ grossOf fee b :=
  (grossOf_le_iff hfee).mpr (h.trans ((grossOf_le_iff hfee).mp (le_refl _)))

theorem netOf_mono (h : a ≤ b) : netOf fee a ≤ netOf fee b :=
  Nat.div_le_div_right (Nat.mul_le_mul_right _ h)

theorem netOf_le : netOf fee r ≤ r :=
  Nat.div_le_of_le_mul (by
    rw [mul_comm feeUnit]
    exact Nat.mul_le_mul_left _ (Nat.sub_le _ _))

/-- Two payments leave at most what their sum leaves. -/
theorem netOf_add_le : netOf fee a + netOf fee b ≤ netOf fee (a + b) := by
  unfold netOf
  rw [Nat.add_mul]
  exact Nat.div_add_div_le_add_div

/-- What a payment leaves and an amount beside it cost at most the payment and the gross of the
amount. -/
theorem grossOf_netOf_add_le (hfee : fee < feeUnit) :
    grossOf fee (netOf fee r + a) ≤ r + grossOf fee a := by
  rw [grossOf_le_iff hfee]
  exact (Nat.add_le_add_left ((grossOf_le_iff hfee).mp (le_refl _)) _).trans netOf_add_le

theorem charge_eq {c : ℕ} (h : mulDiv .ceil a fee (feeUnit - fee) = .ok c) :
    a + c = grossOf fee a := by
  obtain ⟨-, -, rfl⟩ := mulDiv_eq_ok_iff.mp h
  rfl

end Fees

/-! ## How far an input reaches -/

/-- The denominator of the price after an input fits in 256 bits. -/
def Direction.Fits (d : Direction) (p L amount : ℕ) : Prop :=
  d = down → L * pow2 96 + amount * p < pow2 256

section Reach

variable {d : Direction} {p q q' t L amount amount' : ℕ}

/-- It still does for less at a price further on. -/
theorem Direction.Fits.anti (h : d.Fits p L amount) (hlead : d.Leads p q)
    (hamount : amount' ≤ amount) : d.Fits q L amount' := by
  rintro rfl
  have hqp : q ≤ p := hlead
  exact (Nat.add_le_add_left (Nat.mul_le_mul hamount hqp) _).trans_lt (h rfl)

theorem Direction.Fits.of_int {x : ℤ} (hx : 0 ≤ x) (h : d = down → x * p + L * 2 ^ 96 < 2 ^ 256) :
    d.Fits p L x.natAbs := by
  intro hd
  have hlt := h hd
  rw [← Int.natAbs_of_nonneg hx] at hlt
  rw [add_comm, show pow2 96 = 2 ^ 96 from rfl, show pow2 256 = 2 ^ 256 from rfl]
  exact_mod_cast hlt

/-- The three prices after an input of token 0: no input, the exact quotient, and the fallback. -/
theorem priceAddingToken0_eq_ok (h : priceAddingToken0 p L amount = .ok q) :
    (amount = 0 ∧ q = p) ∨
      (0 < L * pow2 96 + amount * p ∧ L * pow2 96 + amount * p < pow2 256 ∧
        q = Rounding.ceil.div (L * pow2 96 * p) (L * pow2 96 + amount * p)) ∨
      (pow2 256 ≤ L * pow2 96 + amount * p ∧
        q = Rounding.ceil.div (L * pow2 96) (L * pow2 96 / p + amount)) := by
  unfold priceAddingToken0 at h
  split at h
  · rename_i h0
    cases h
    exact Or.inl ⟨h0, rfl⟩
  · dsimp only at h
    split at h
    · rename_i hfits
      obtain ⟨hd, -, rfl⟩ := mulDiv_eq_ok_iff.mp h
      exact Or.inr (Or.inl ⟨Nat.pos_of_ne_zero hd, hfits, rfl⟩)
    · rename_i hfits
      obtain ⟨e, he, hq⟩ := bind_eq_ok_iff.mp h
      obtain ⟨-, rfl⟩ := toUnsigned_eq_ok_iff.mp he
      cases hq
      exact Or.inr (Or.inr ⟨not_lt.mp hfits, rfl⟩)

/-- **An input whose denominator fits reaches every price it covers.** -/
theorem priceAfterInput_reaches (hfits : d.Fits p L amount)
    (h : priceAfterInput d p L amount = .ok q) (ht : d.Leads p t)
    (hcovers : d.Covers p t L amount) : d.Leads t q := by
  obtain ⟨⟨⟩, hc, h⟩ := bind_eq_ok_iff.mp h
  obtain ⟨-, hL⟩ := checkCurve_eq_ok_iff.mp hc
  cases d with
  | down =>
    have htp : t ≤ p := ht
    have hscaled : 0 < L * pow2 96 := Nat.mul_pos hL (pow2_pos 96)
    have hfits : L * pow2 96 + amount * p < pow2 256 := hfits rfl
    rcases priceAddingToken0_eq_ok h with ⟨rfl, rfl⟩ | ⟨hpos, -, rfl⟩ | ⟨hover, -⟩
    · rw [Direction.Covers, zero_mul, Nat.le_zero, mul_eq_zero] at hcovers
      rw [Direction.Leads]
      omega
    · rw [Direction.Leads, Rounding.div_ceil_le_iff hpos]
      exact (Direction.covers_down_iff htp).mp hcovers
    · exact absurd hover (not_le.mpr hfits)
  | up => exact ((priceAddingToken1_spec h).2 t ht).mpr hcovers

/-- The fallback reaches what a smaller input covers: it divides by a floor, which falls short by
less than the unit that it has more. -/
theorem fallback_le (hp : 0 < p) (hqp : q ≤ p) (hlt : amount < amount')
    (hcovers : Direction.down.Covers p q L amount) :
    Rounding.ceil.div (L * pow2 96) (L * pow2 96 / p + amount') ≤ q := by
  have hreach := (Direction.covers_down_iff hqp).mp hcovers
  generalize L * pow2 96 = scaled at *
  have hfloor : scaled ≤ p * (scaled / p + 1) := (Nat.lt_mul_div_succ scaled hp).le
  rw [Rounding.div_ceil_le_iff (Nat.add_pos_right _ (Nat.zero_lt_of_lt hlt))]
  refine le_of_mul_le_mul_right ?_ hp
  calc scaled * p ≤ q * (scaled + amount * p) := hreach
    _ ≤ q * (p * (scaled / p + 1) + amount * p) :=
        Nat.mul_le_mul_left q (Nat.add_le_add_right hfloor _)
    _ = q * (scaled / p + (amount + 1)) * p := by ring
    _ ≤ q * (scaled / p + amount') * p :=
        Nat.mul_le_mul_right p (Nat.mul_le_mul_left q (Nat.add_le_add_left hlt _))

/-- **A larger input moves the price at least as far.** -/
theorem priceAfterInput_mono (hle : amount ≤ amount') (h : priceAfterInput d p L amount = .ok q)
    (h' : priceAfterInput d p L amount' = .ok q') : d.Leads q q' := by
  obtain ⟨hleads, hcovers, -⟩ := priceAfterInput_spec h
  rcases hle.eq_or_lt with rfl | hlt
  · obtain rfl : q = q' := Except.ok.inj (h.symm.trans h')
    exact Direction.Leads.refl d q
  by_cases hfits : d.Fits p L amount'
  · exact priceAfterInput_reaches hfits h' hleads (hcovers.mono hle)
  · obtain ⟨rfl, hover⟩ := Classical.not_imp.mp hfits
    obtain ⟨⟨⟩, hc, h'⟩ := bind_eq_ok_iff.mp h'
    obtain ⟨hp, -⟩ := checkCurve_eq_ok_iff.mp hc
    have hq' : q' = Rounding.ceil.div (L * pow2 96) (L * pow2 96 / p + amount') := by
      rcases priceAddingToken0_eq_ok h' with ⟨h0, -⟩ | ⟨-, hfit, -⟩ | ⟨-, hq'⟩
      · omega
      · exact absurd hfit hover
      · exact hq'
    exact hq' ▸ fallback_le hp hleads hlt hcovers

end Reach

/-! ## The parts of a step -/

section Parts

variable {d : Direction} {current target L x fee : ℕ} {r : ℤ} {s : Step}

namespace Step

/-- An input order reaches the target if its net covers the way there. If not, it moves the price
as far as its net does, and all of it is paid. -/
theorem Parts.of_input (h : s.Parts d current target L r fee) (hlead : d.Leads current target)
    (hrem : r.natAbs < pow2 256) (hfix : fixesInput r = true) :
    (s.next = target ∧ d.Covers current target L (netOf fee r.natAbs) ∧
        s.amountIn + s.fee = grossOf fee s.amountIn) ∨
      (s.next ≠ target ∧ ¬ d.Covers current target L (netOf fee r.natAbs) ∧
        priceAfterInput d current L (netOf fee r.natAbs) = .ok s.next ∧
        s.amountIn + s.fee = r.natAbs) := by
  have hprice := h.price
  unfold stepPrice at hprice
  rw [if_pos hfix] at hprice
  obtain ⟨budget, hb, hprice⟩ := bind_eq_ok_iff.mp hprice
  obtain ⟨needed, hn, hprice⟩ := bind_eq_ok_iff.mp hprice
  obtain rfl : budget = netOf fee r.natAbs := (mulDiv_eq_ok_iff.mp hb).2.2
  have hafford := inputBetween_le_iff (y := netOf fee r.natAbs) hlead hn
  split at hprice
  · rename_i hle
    have hcovers := hafford.mp hle
    cases hprice
    refine Or.inl ⟨rfl, hcovers, ?_⟩
    rcases h.charge with ⟨-, hne, -⟩ | ⟨-, hcharge⟩
    · exact absurd rfl hne
    · exact charge_eq hcharge
  · rename_i hgt
    have hcovers := fun hcovers => hgt (hafford.mpr hcovers)
    obtain ⟨hleaves, hnet, -⟩ := priceAfterInput_spec hprice
    have hshort : s.next ≠ target := fun heq => hcovers (heq ▸ hnet)
    refine Or.inr ⟨hshort, hcovers, hprice, ?_⟩
    rcases h.charge with ⟨-, -, hrest⟩ | ⟨htarget, -⟩
    · have hle := (inputBetween_le_iff hleaves h.input).mpr hnet
      rw [hrest]
      exact add_rest_eq (hle.trans netOf_le) hrem
    · exact absurd (htarget hfix) hshort

/-- An output order reaches the target if the way there releases no more than it asks for. If not,
it receives all that it asks for. -/
theorem Parts.of_output (h : s.Parts d current target L r fee) (hlead : d.Leads current target)
    (hfix : fixesInput r = false) :
    s.amountIn + s.fee = grossOf fee s.amountIn ∧
      ∃ available, outputBetween d current target L = .ok available ∧
        ((available ≤ r.natAbs ∧ s.next = target ∧ s.amountOut = available) ∨
          (r.natAbs < available ∧ priceAfterOutput d current L r.natAbs = .ok s.next ∧
            s.amountOut = r.natAbs)) := by
  obtain ⟨released, hout, hpaid⟩ := h.output
  rw [if_neg (by rw [hfix]; exact Bool.false_ne_true)] at hpaid
  have hprice := h.price
  unfold stepPrice at hprice
  rw [if_neg (by rw [hfix]; exact Bool.false_ne_true)] at hprice
  obtain ⟨available, ha, hprice⟩ := bind_eq_ok_iff.mp hprice
  refine ⟨?_, available, ha, ?_⟩
  · rcases h.charge with ⟨hin, -, -⟩ | ⟨-, hcharge⟩
    · rw [hfix] at hin
      cases hin
    · exact charge_eq hcharge
  · split at hprice
    · rename_i hle
      cases hprice
      obtain rfl : released = available := Except.ok.inj (hout.symm.trans ha)
      exact Or.inl ⟨hle, rfl, hpaid.trans (min_eq_left hle)⟩
    · rename_i hgt
      have hyields := priceAfterOutput_yields hprice
      have hle := (le_outputBetween_iff (priceAfterOutput_spec hprice).1 hout).mpr hyields
      exact Or.inr ⟨not_le.mp hgt, hprice, hpaid.trans (min_eq_right hle)⟩

/-- The input is the least amount that covers the move of the step. -/
theorem Parts.amountIn_le_iff (h : s.Parts d current target L r fee)
    (hleaves : d.Leads current s.next) : s.amountIn ≤ x ↔ d.Covers current s.next L x :=
  inputBetween_le_iff hleaves h.input

/-- The output of an input order is the greatest amount that the move of the step yields. -/
theorem Parts.le_amountOut_iff (h : s.Parts d current target L r fee)
    (hleaves : d.Leads current s.next) (hfix : fixesInput r = true) :
    x ≤ s.amountOut ↔ d.Yields current s.next L x := by
  obtain ⟨released, hout, hpaid⟩ := h.output
  rw [if_pos hfix] at hpaid
  rw [hpaid]
  exact le_outputBetween_iff hleaves hout

theorem Parts.amountIn_eq {r' : ℤ} {s' : Step} (h : s.Parts d current target L r fee)
    (h' : s'.Parts d current target L r' fee) (heq : s'.next = s.next) :
    s'.amountIn = s.amountIn :=
  Except.ok.inj (h'.input.symm.trans (heq ▸ h.input))

end Step

end Parts

/-! ## Comparisons -/

namespace Step

/-- The step uses up the order that it serves. -/
structure Fills (r : ℤ) (s : Step) : Prop where
  paid : fixesInput r = true → s.amountIn + s.fee = r.natAbs
  received : fixesInput r = false → s.amountOut = r.natAbs

/-- Step `t` takes the price at least as far as `s`, takes in at least as much, fee included, and
pays out at least as much. -/
structure OutdoneBy (d : Direction) (s t : Step) : Prop where
  next : d.Leads s.next t.next
  paid : s.amountIn + s.fee ≤ t.amountIn + t.fee
  received : s.amountOut ≤ t.amountOut

theorem Fills.of_input {r : ℤ} {s : Step} (hfix : fixesInput r = true)
    (h : s.amountIn + s.fee = r.natAbs) : s.Fills r :=
  ⟨fun _ => h, fun hout => absurd (hfix.symm.trans hout) (by decide)⟩

theorem Fills.of_output {r : ℤ} {s : Step} (hfix : fixesInput r = false)
    (h : s.amountOut = r.natAbs) : s.Fills r :=
  ⟨fun hin => absurd (hin.symm.trans hfix) (by decide), fun _ => h⟩

theorem eq_of_paid_eq {s t : Step} (hnext : s.next = t.next) (hin : s.amountIn = t.amountIn)
    (hout : s.amountOut = t.amountOut) (hpaid : s.amountIn + s.fee = t.amountIn + t.fee) :
    s = t := by
  cases s
  cases t
  simp only [Step.mk.injEq] at *
  omega

end Step

section Compare

variable {d : Direction} {current target L fee : ℕ} {r r' : ℤ} {s s' t : Step}

/-- Of two input orders, the step of the smaller one is that of the larger one, or ends short of the
target, filled and outdone by it. -/
theorem step_outdone_input (hlead : d.Leads current target) (hfee : fee < feeUnit)
    (hrem : r'.natAbs < pow2 256) (hfix : fixesInput r = true) (hfix' : fixesInput r' = true)
    (hle : r.natAbs ≤ r'.natAbs) (h : step current target L r fee = .ok s)
    (h' : step current target L r' fee = .ok s') :
    s' = s ∨ s.next ≠ target ∧ s.Fills r ∧ s.OutdoneBy d s' := by
  have hparts := Step.parts_of_step hlead h
  have hparts' := Step.parts_of_step hlead h'
  have hsound := step_sound hlead h
  have hsound' := step_sound hlead h'
  have hout := fun x => hparts.le_amountOut_iff (x := x) hsound.leaves hfix
  have hout' := fun x => hparts'.le_amountOut_iff (x := x) hsound'.leaves hfix'
  rcases hparts.of_input hlead (hle.trans_lt hrem) hfix with
    ⟨hnext, hcovers, hpaid⟩ | ⟨hends, hshort, hprice, hpaid⟩
  · -- the smaller order affords the target, so both do
    left
    rcases hparts'.of_input hlead hrem hfix' with ⟨hnext', -, hpaid'⟩ | ⟨-, hshort', -⟩
    · have heq : s'.next = s.next := hnext'.trans hnext.symm
      have hin : s'.amountIn = s.amountIn := hparts.amountIn_eq hparts' heq
      have hamount : s'.amountOut = s.amountOut :=
        eq_of_forall_le_iff fun x => by rw [hout, hout', heq]
      rw [hin] at hpaid'
      exact Step.eq_of_paid_eq heq hin hamount (by omega)
    · exact absurd (hcovers.mono (netOf_mono hle)) hshort'
  · right
    refine ⟨hends, .of_input hfix hpaid, ?_⟩
    have hfurther : d.Leads s.next s'.next ∧ r.natAbs ≤ s'.amountIn + s'.fee := by
      rcases hparts'.of_input hlead hrem hfix' with
        ⟨hnext', -, hpaid'⟩ | ⟨-, -, hprice', hpaid'⟩
      · -- the target takes more than the net of the smaller order, so its gross is more
        refine ⟨hnext' ▸ hsound.stops, ?_⟩
        rw [hpaid']
        by_contra hless
        refine hshort (((hparts'.amountIn_le_iff hsound'.leaves).mp ?_).shorten ?_)
        · exact (grossOf_le_iff hfee).mp (not_le.mp hless).le
        · exact hnext' ▸ Direction.Leads.refl d target
      · exact ⟨priceAfterInput_mono (netOf_mono hle) hprice hprice', hpaid' ▸ hle⟩
    have hnext := hparts.pos.2
    refine ⟨hfurther.1, hpaid ▸ hfurther.2, (hout' _).mpr ?_⟩
    exact ((hout _).mp le_rfl).extend hnext hsound.leaves hfurther.1

/-- Of two output orders, the step of the smaller one is that of the larger one, or is filled and
outdone by it. -/
theorem step_outdone_output (hlead : d.Leads current target) (hfee : fee < feeUnit)
    (hfix : fixesInput r = false) (hfix' : fixesInput r' = false)
    (hle : r.natAbs ≤ r'.natAbs) (h : step current target L r fee = .ok s)
    (h' : step current target L r' fee = .ok s') : s' = s ∨ s.Fills r ∧ s.OutdoneBy d s' := by
  have hparts := Step.parts_of_step hlead h
  have hparts' := Step.parts_of_step hlead h'
  have hsound := step_sound hlead h
  have hsound' := step_sound hlead h'
  obtain ⟨hpaid, available, ha, hcases⟩ := hparts.of_output hlead hfix
  obtain ⟨hpaid', available', ha', hcases'⟩ := hparts'.of_output hlead hfix'
  obtain rfl : available = available' := Except.ok.inj (ha.symm.trans ha')
  rcases hcases with ⟨hafford, hnext, hamount⟩ | ⟨hshort, hprice, hamount⟩
  · left
    rcases hcases' with ⟨-, hnext', hamount'⟩ | ⟨hshort', -, -⟩
    · have heq : s'.next = s.next := hnext'.trans hnext.symm
      have hin : s'.amountIn = s.amountIn := hparts.amountIn_eq hparts' heq
      rw [hin] at hpaid'
      exact Step.eq_of_paid_eq heq hin (by omega) (by omega)
    · omega
  · right
    refine ⟨.of_output hfix hamount, ?_⟩
    have hfurther : d.Leads s.next s'.next ∧ r.natAbs ≤ s'.amountOut := by
      rcases hcases' with ⟨-, hnext', hamount'⟩ | ⟨-, hprice', hamount'⟩
      · exact ⟨hnext' ▸ hsound.stops, by omega⟩
      · obtain ⟨hleaves', -⟩ := priceAfterOutput_spec hprice'
        have hyields := (priceAfterOutput_yields hprice').anti hle
        exact ⟨(priceAfterOutput_spec hprice).2 _ hleaves' hyields, by omega⟩
    refine ⟨hfurther.1, ?_, hamount ▸ hfurther.2⟩
    rw [hpaid, hpaid']
    refine grossOf_mono hfee ((hparts.amountIn_le_iff hsound.leaves).mpr ?_)
    exact ((hparts'.amountIn_le_iff hsound'.leaves).mp le_rfl).shorten hfurther.1

/-- **Of two orders of one kind, the step of the smaller one is that of the larger one, or is filled
and outdone by it.** -/
theorem step_outdone (hlead : d.Leads current target) (hfee : fee < feeUnit)
    (hrem : r'.natAbs < pow2 256) (hfix : fixesInput r = fixesInput r')
    (hle : r.natAbs ≤ r'.natAbs) (h : step current target L r fee = .ok s)
    (h' : step current target L r' fee = .ok s') : s' = s ∨ s.Fills r ∧ s.OutdoneBy d s' := by
  cases hfix' : fixesInput r' with
  | true =>
    rcases step_outdone_input hlead hfee hrem (hfix.trans hfix') hfix' hle h h' with
      heq | ⟨-, hfills, hout⟩
    · exact Or.inl heq
    · exact Or.inr ⟨hfills, hout⟩
  | false => exact step_outdone_output hlead hfee (hfix.trans hfix') hfix' hle h h'

/-- **Two input orders one after the other are outdone by both together**, where the first ends
short of the target: the one step goes as far and pays out as much as the two, and if the second
of them reaches the target, so does the one, which then has at least as much left. -/
theorem step_split (hlead : d.Leads current target) (hfee : fee < feeUnit) (hr : 0 ≤ r)
    (hr' : 0 ≤ r') (hrem : (r + r').natAbs < pow2 256)
    (hfits : d.Fits current L (netOf fee (r + r').natAbs))
    (h : step current target L r fee = .ok s) (hshort : s.next ≠ target)
    (h' : step s.next target L r' fee = .ok s')
    (ht : step current target L (r + r') fee = .ok t) :
    s.amountOut + s'.amountOut ≤ t.amountOut ∧
      (s'.next = target → t.next = target ∧
        t.amountIn + t.fee ≤ r.natAbs + (s'.amountIn + s'.fee)) := by
  have hfix : fixesInput r = true := decide_eq_true hr
  have hfix' : fixesInput r' = true := decide_eq_true hr'
  have hfixt : fixesInput (r + r') = true := decide_eq_true (by omega)
  have hsound := step_sound hlead h
  have hsound' := step_sound hsound.stops h'
  have hsoundt := step_sound hlead ht
  have hparts := Step.parts_of_step hlead h
  have hparts' := Step.parts_of_step hsound.stops h'
  have hpartst := Step.parts_of_step hlead ht
  have hpos := hparts.pos.2
  have hpos' := hparts'.pos.2
  have hsum : (r + r').natAbs = r.natAbs + r'.natAbs := by omega
  have hnet : netOf fee r.natAbs + netOf fee r'.natAbs ≤ netOf fee (r + r').natAbs :=
    hsum ▸ netOf_add_le
  -- the first order covers its move by its net
  have hfirst : d.Covers current s.next L (netOf fee r.natAbs) := by
    rcases hparts.of_input hlead (by omega) hfix with ⟨hnext, -⟩ | ⟨-, -, hprice, -⟩
    · exact absurd hnext hshort
    · exact (priceAfterInput_spec hprice).2.1
  have hsecond := fun x => hparts'.amountIn_le_iff (x := x) hsound'.leaves
  have hfar : d.Leads s'.next t.next ∧ (s'.next = target → t.next = target ∧
      t.amountIn + t.fee ≤ r.natAbs + (s'.amountIn + s'.fee)) := by
    rcases hparts'.of_input hsound.stops (by omega) hfix' with
      ⟨hnext', hcovers', hpaid'⟩ | ⟨hshort', -, hprice', -⟩
    · -- the way to the target costs at most the first net and the second input
      have hcovers := hfirst.add hpos hsound.leaves hsound'.leaves ((hsecond _).mp le_rfl)
      rw [hnext'] at hcovers
      have hle : s'.amountIn ≤ netOf fee r'.natAbs := (hsecond _).mpr (hnext'.symm ▸ hcovers')
      rcases hpartst.of_input hlead hrem hfixt with ⟨hnextt, -, hpaidt⟩ | ⟨-, hshortt, -⟩
      · have hint : t.amountIn ≤ netOf fee r.natAbs + s'.amountIn :=
          (hpartst.amountIn_le_iff hsoundt.leaves).mpr (hnextt.symm ▸ hcovers)
        refine ⟨hnextt ▸ hsound'.stops, fun _ => ⟨hnextt, ?_⟩⟩
        rw [hpaidt, hpaid']
        exact (grossOf_mono hfee hint).trans (grossOf_netOf_add_le hfee)
      · exact absurd (hcovers.mono ((Nat.add_le_add_left hle _).trans hnet)) hshortt
    · refine ⟨?_, fun hnext' => absurd hnext' hshort'⟩
      obtain ⟨hleaves', hcovers', -⟩ := priceAfterInput_spec hprice'
      rcases hpartst.of_input hlead hrem hfixt with ⟨hnextt, -⟩ | ⟨-, -, hpricet, -⟩
      · exact hnextt ▸ hsound'.stops
      · exact priceAfterInput_reaches hfits hpricet (hsound.leaves.trans hleaves')
          ((hfirst.add hpos hsound.leaves hleaves' hcovers').mono hnet)
  refine ⟨?_, hfar.2⟩
  rw [hpartst.le_amountOut_iff hsoundt.leaves hfixt]
  exact (hsound.yields.add hpos hsound.leaves hsound'.leaves hsound'.yields).extend hpos'
    (hsound.leaves.trans hsound'.leaves) hfar.1

/-- **What an output order costs buys at least its output.** The step of an input order that can pay
for the step of an output order is that step, but for the output it is asked for, or the output
order is filled; and it pays out at least as much. -/
theorem step_bought (hlead : d.Leads current target) (hfee : fee < feeUnit)
    (hfix : fixesInput r = false) (hfix' : fixesInput r' = true) (hrem : r'.natAbs < pow2 256)
    (hfits : d.Fits current L (netOf fee r'.natAbs))
    (h : step current target L r fee = .ok s) (hpays : s.amountIn + s.fee ≤ r'.natAbs)
    (h' : step current target L r' fee = .ok s') :
    s.amountOut ≤ s'.amountOut ∧
      (s.amountOut = r.natAbs ∨
        s'.next = s.next ∧ s'.amountIn + s'.fee = s.amountIn + s.fee) := by
  have hparts := Step.parts_of_step hlead h
  have hparts' := Step.parts_of_step hlead h'
  have hsound := step_sound hlead h
  have hsound' := step_sound hlead h'
  obtain ⟨hpaid, available, -, hcases⟩ := hparts.of_output hlead hfix
  have hcovers : d.Covers current s.next L (netOf fee r'.natAbs) := by
    refine (hparts.amountIn_le_iff hsound.leaves).mp ((grossOf_le_iff hfee).mp ?_)
    exact hpaid ▸ hpays
  have hfar : d.Leads s.next s'.next ∧ (s.amountOut = r.natAbs ∨
      s'.next = s.next ∧ s'.amountIn + s'.fee = s.amountIn + s.fee) := by
    rcases hparts'.of_input hlead hrem hfix' with
      ⟨hnext', -, hpaid'⟩ | ⟨-, hshort', hprice', -⟩
    · refine ⟨hnext' ▸ hsound.stops, ?_⟩
      rcases hcases with ⟨-, hnext, -⟩ | ⟨-, -, hfilled⟩
      · have heq : s'.next = s.next := hnext'.trans hnext.symm
        have hin : s'.amountIn = s.amountIn := hparts.amountIn_eq hparts' heq
        exact Or.inr ⟨heq, by rw [hpaid', hpaid, hin]⟩
      · exact Or.inl hfilled
    · refine ⟨priceAfterInput_reaches hfits hprice' hsound.leaves hcovers, ?_⟩
      rcases hcases with ⟨-, hnext, -⟩ | ⟨-, -, hfilled⟩
      · exact absurd (hnext ▸ hcovers) hshort'
      · exact Or.inl hfilled
  refine ⟨?_, hfar.2⟩
  rw [hparts'.le_amountOut_iff hsound'.leaves hfix']
  exact hsound.yields.extend hparts.pos.2 hsound.leaves hfar.1

end Compare

end Clamm
