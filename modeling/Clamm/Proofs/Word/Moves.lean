import Mathlib
import Clamm.Proofs.Step.Compare
import Clamm.Proofs.Step.Total
import Clamm.Proofs.Word.Step

/-!
# A price moves as far as an input pays for, and as little as an output needs

An input of a given amount can pay for the way to some prices, at the rounded-up amount that the way
there costs, and an output is released on the way to some prices, at the rounded-down amount. The
price that a pool of constant liquidity moves to is picked from these (`Word.affordable`,
`Word.deliverable`): as far as the input pays for, and no further than the output needs.

* `exists_inputBetween_le_iff`, `exists_le_outputBetween_iff`: the amounts between two prices against
  the exact curve, where an amount that does not exist counts as too much or too little.
* `priceAfterInput_furthest`: an input of token 1 reaches the greatest price that it pays for. One of
  token 0 reaches the least if its denominator fits in 256 bits; if not, it ends at a price that it
  pays for all the same, and never below the exact quotient.
* `priceAfterOutput_nearest`: an output ends at the first price that has released it, and fails only
  if there is none.
-/

namespace Clamm

/-! ## Amounts that exist and are within a bound -/

section Between

variable {d : Direction} {a b L y : ℕ}

/-- No input covers the way to a price of zero. -/
theorem Direction.Covers.pos (ha : 0 < a) (hL : 0 < L) (hlead : d.Leads a b)
    (h : d.Covers a b L y) : 0 < b := by
  cases d with
  | down =>
    refine Nat.pos_of_ne_zero fun h0 => ?_
    have hcost : 0 < L * pow2 96 * a := Nat.mul_pos (Nat.mul_pos hL (pow2_pos 96)) ha
    simp only [h0, Covers, Nat.sub_zero, zero_mul, mul_zero] at h
    omega
  | up => exact ha.trans_le hlead

/-- A move is paid for within `y` exactly if `y` covers it. -/
theorem exists_inputBetween_le_iff (ha : 0 < a) (hL : 0 < L) (hL' : L < pow2 128)
    (hy : y < pow2 256) (hlead : d.Leads a b) :
    (∃ x, inputBetween d a b L = .ok x ∧ x ≤ y) ↔ d.Covers a b L y := by
  constructor
  · rintro ⟨x, hx, hle⟩
    exact (inputBetween_le_iff hlead hx).mp hle
  · intro hcovers
    obtain ⟨x, hx⟩ : ∃ x, inputBetween d a b L = .ok x := by
      cases d with
      | down =>
        obtain ⟨x, hx, -⟩ := amount0Between_total_of_le (r := .ceil) (k := 0) hlead
          (hcovers.pos ha hL hlead) (Nat.zero_le 32) hL'
        exact ⟨x, (amount0Between_comm a b L .ceil).trans hx⟩
      | up =>
        have hle := (Rounding.div_ceil_le_iff (pow2_pos 96)).mpr hcovers
        exact ⟨_, (amount1Between_eq_ok_iff hlead).mpr ⟨hle.trans_lt hy, rfl⟩⟩
    exact ⟨x, hx, (inputBetween_le_iff hlead hx).mpr hcovers⟩

/-- A move releases at least `y` exactly if it yields `y`. -/
theorem exists_le_outputBetween_iff (ha : Priced 0 a) (hb : 0 < b) (hL : L < pow2 128)
    (hlead : d.Leads a b) :
    (∃ x, outputBetween d a b L = .ok x ∧ y ≤ x) ↔ d.Yields a b L y := by
  obtain ⟨x, hx⟩ : ∃ x, outputBetween d a b L = .ok x := by
    cases d with
    | down =>
      have hba : b ≤ a := hlead
      obtain ⟨x, hx, -⟩ := amount1Between_total (r := .floor) ha ⟨hb, hba.trans ha.2⟩
        (Nat.zero_le 32) hL
      exact ⟨x, hx⟩
    | up =>
      obtain ⟨x, hx, -⟩ := amount0Between_total_of_le (r := .floor) hlead ha.1 (Nat.zero_le 32) hL
      exact ⟨x, hx⟩
  rw [← le_outputBetween_iff hlead hx]
  constructor
  · rintro ⟨x', hx', hle⟩
    exact Except.ok.inj (hx.symm.trans hx') ▸ hle
  · exact fun hle => ⟨x, hx, hle⟩

end Between

/-! ## Outputs that fail and that do not -/

section Outputs

variable {r : Rounding} {d : Direction} {a b p bits x L amount : ℕ} {e : Error}

theorem eq_of_toUnsigned_eq_error (h : toUnsigned bits x = .error e) : e = .arithmetic .overflow := by
  unfold toUnsigned at h
  split at h <;> cases h
  rfl

theorem eq_of_mulDiv_eq_error (hb : 0 < b) (h : mulDiv r a x b = .error e) :
    e = .arithmetic .overflow := by
  rw [mulDiv, if_neg hb.ne'] at h
  exact eq_of_toUnsigned_eq_error h

theorem eq_of_token1Move_eq_error (hL : 0 < L) (h : token1Move r L amount = .error e) :
    e = .arithmetic .overflow := by
  unfold token1Move at h
  split at h
  · exact eq_of_mulDiv_eq_error hL h
  · rw [if_neg hL.ne'] at h
    cases h

/-- **An output fails for want of reserves or by overflow.** -/
theorem priceAfterOutput_eq_error (hp : 0 < p) (hL : 0 < L)
    (h : priceAfterOutput d p L amount = .error e) :
    e = .state .insufficientReserves ∨ e = .arithmetic .overflow := by
  unfold priceAfterOutput at h
  rw [checkCurve_eq_ok_iff.mpr ⟨hp, hL⟩, ok_bind] at h
  cases d with
  | down =>
    dsimp only [priceRemovingToken1] at h
    rcases bind_eq_error_iff.mp h with hmove | ⟨m, -, h⟩
    · exact Or.inr (eq_of_token1Move_eq_error hL hmove)
    · split at h
      · cases h
        exact Or.inl rfl
      · exact Or.inr (eq_of_toUnsigned_eq_error h)
  | up =>
    dsimp only [priceRemovingToken0] at h
    split at h
    · cases h
    · split at h
      · rename_i hlt
        exact Or.inr (eq_of_mulDiv_eq_error (Nat.sub_pos_of_lt hlt) h)
      · cases h
        exact Or.inl rfl

/-- An output leaves a price above zero. -/
theorem priceAfterOutput_pos (h : priceAfterOutput d p L amount = .ok x) : 0 < x := by
  have hlead := (priceAfterOutput_spec h).1
  obtain ⟨⟨⟩, hcurve, h⟩ := bind_eq_ok_iff.mp h
  obtain ⟨hp, -⟩ := checkCurve_eq_ok_iff.mp hcurve
  cases d with
  | down =>
    obtain ⟨m, -, h⟩ := bind_eq_ok_iff.mp h
    split at h
    · cases h
    · obtain ⟨-, rfl⟩ := toUnsigned_eq_ok_iff.mp h
      omega
  | up => exact hp.trans_le hlead

end Outputs

namespace Word

/-! ## The prices to pick from -/

/-- The prices in direction `d` of `p` that an input of `amount` pays the way to. -/
def affordable (d : Direction) (p : Word) (L : Liquidity) (amount : Word) : Set Word :=
  {t | 0 < t ∧ d.Leads p.toNat t.toNat ∧ ∃ cost, inputBetween d p t L = .ok cost ∧ cost ≤ amount}

/-- The prices in direction `d` of `p` that have released an output of `amount` on the way to them. -/
def deliverable (d : Direction) (p : Word) (L : Liquidity) (amount : Word) : Set Word :=
  {t | 0 < t ∧ d.Leads p.toNat t.toNat ∧
    ∃ released, outputBetween d p t L = .ok released ∧ amount ≤ released}

section Moves

variable {d : Direction} {p t n amount : Word} {L : Liquidity}

theorem mem_affordable_iff (hp : 0 < p.toNat) (hL : 0 < L.toNat) :
    t ∈ affordable d p L amount ↔
      d.Leads p.toNat t.toNat ∧ d.Covers p.toNat t.toNat L.toNat amount.toNat := by
  have hcost : ∀ hlead : d.Leads p.toNat t.toNat,
      (∃ cost, inputBetween d p t L = .ok cost ∧ cost ≤ amount) ↔
        d.Covers p.toNat t.toNat L.toNat amount.toNat := fun hlead => by
    rw [← exists_inputBetween_le_iff hp hL L.isLt amount.isLt hlead, ← value_inputBetween]
    exact (exists_value_iff (P := (· ≤ amount.toNat))).symm
  constructor
  · rintro ⟨-, hlead, h⟩
    exact ⟨hlead, (hcost hlead).mp h⟩
  · rintro ⟨hlead, h⟩
    exact ⟨h.pos hp hL hlead, hlead, (hcost hlead).mpr h⟩

theorem mem_deliverable_iff (hp : Priced 0 p.toNat) :
    t ∈ deliverable d p L amount ↔
      0 < t.toNat ∧ d.Leads p.toNat t.toNat ∧ d.Yields p.toNat t.toNat L.toNat amount.toNat := by
  refine and_congr_right fun ht => and_congr_right fun hlead => ?_
  rw [← exists_le_outputBetween_iff hp ht L.isLt hlead, ← value_outputBetween]
  exact (exists_value_iff (P := (amount.toNat ≤ ·))).symm

/-! ## Inputs -/

theorem toNat_priceAfterInput (h : priceAfterInput d p L amount = .ok n) :
    Clamm.priceAfterInput d p.toNat L.toNat amount.toNat = .ok n.toNat :=
  (value_priceAfterInput d p L amount).symm.trans (value_eq_ok_iff.mpr h)

/-- A price that an input moves to is one that it pays the way to, and all that it pays the way to
lie before it if the denominator fits. -/
theorem priceAfterInput_mem (h : priceAfterInput d p L amount = .ok n) (hp : 0 < p.toNat)
    (hL : 0 < L.toNat) : n ∈ affordable d p L amount ∧
      (d.Fits p.toNat L.toNat amount.toNat →
        ∀ t ∈ affordable d p L amount, d.Leads t.toNat n.toNat) := by
  have hnum := toNat_priceAfterInput h
  obtain ⟨hlead, hcovers, -⟩ := priceAfterInput_spec hnum
  refine ⟨(mem_affordable_iff hp hL).mpr ⟨hlead, hcovers⟩, fun hfits t ht => ?_⟩
  obtain ⟨htlead, htcovers⟩ := (mem_affordable_iff hp hL).mp ht
  exact priceAfterInput_reaches hfits hnum htlead htcovers

theorem isGreatest_priceAfterInput_up (h : priceAfterInput .up p L amount = .ok n)
    (hp : 0 < p.toNat) (hL : 0 < L.toNat) : IsGreatest (affordable .up p L amount) n := by
  obtain ⟨hmem, hreaches⟩ := priceAfterInput_mem h hp hL
  exact ⟨hmem, hreaches fun hdown => by cases hdown⟩

/-- An input of token 1 ends at a price of at most 160 bits. -/
theorem priceAfterInput_up_lt (h : priceAfterInput .up p L amount = .ok n) : n.toNat < 2 ^ 160 := by
  obtain ⟨⟨⟩, -, hmove⟩ := bind_eq_ok_iff.mp (toNat_priceAfterInput h)
  obtain ⟨m, -, hfits⟩ := bind_eq_ok_iff.mp hmove
  obtain ⟨hlt, heq⟩ := toUnsigned_eq_ok_iff.mp hfits
  exact heq ▸ hlt

/-- An input of token 1 moves the price if the greatest one that it pays the way to has at most 160
bits. -/
theorem exists_priceAfterInput_up (hp : 0 < p.toNat) (hL : 0 < L.toNat) (hlt : n.toNat < 2 ^ 160)
    (hn : IsGreatest (affordable .up p L amount) n) :
    ∃ w, priceAfterInput .up p L amount = .ok w := by
  obtain ⟨hmem, hupper⟩ := hn
  obtain ⟨hlead, -⟩ := (mem_affordable_iff hp hL).mp hmem
  have hle : p.toNat ≤ n.toNat + 1 := Nat.le_succ_of_le hlead
  -- the price after `n` is not paid for, so the input ends below it
  have hnext : (BitVec.ofNat 256 (n.toNat + 1)).toNat = n.toNat + 1 := by
    rw [BitVec.toNat_ofNat]
    exact Nat.mod_eq_of_lt (by omega)
  have hshort : amount.toNat * pow2 96 < L.toNat * (n.toNat + 1 - p.toNat) := by
    by_contra hcovers
    have hafter : BitVec.ofNat 256 (n.toNat + 1) ∈ affordable .up p L amount := by
      rw [mem_affordable_iff hp hL, hnext]
      exact ⟨hle, not_lt.mp hcovers⟩
    have hback := BitVec.le_def.mp (hupper hafter)
    omega
  obtain ⟨q, hq⟩ := priceAddingToken1_total hL (Nat.succ_le_of_lt hlt) hle hshort
  rw [← exists_value_eq_ok_iff, value_priceAfterInput, Clamm.priceAfterInput,
    checkCurve_eq_ok_iff.mpr ⟨hp, hL⟩]
  exact ⟨q, hq⟩

/-- An input of token 1 moves to the greatest price that it pays the way to, if that has at most 160
bits. -/
theorem priceAfterInput_up_iff (hp : 0 < p.toNat) (hL : 0 < L.toNat) :
    priceAfterInput .up p L amount = .ok n ↔
      n.toNat < 2 ^ 160 ∧ IsGreatest (affordable .up p L amount) n := by
  constructor
  · exact fun h => ⟨priceAfterInput_up_lt h, isGreatest_priceAfterInput_up h hp hL⟩
  · rintro ⟨hlt, hn⟩
    obtain ⟨w, hw⟩ := exists_priceAfterInput_up hp hL hlt hn
    have hw' := isGreatest_priceAfterInput_up hw hp hL
    rw [hw, BitVec.le_antisymm (hn.2 hw'.1) (hw'.2 hn.1)]

/-- An input of token 0 moves the price if the denominator of the fallback fits. -/
theorem exists_priceAfterInput_down_iff (hp : 0 < p.toNat) (hL : 0 < L.toNat) :
    (∃ n, priceAfterInput .down p L amount = .ok n) ↔
      L.toNat * 2 ^ 96 / p.toNat + amount.toNat < 2 ^ 256 := by
  refine Iff.trans ?_ (exists_priceAddingToken0_iff hp p.isLt hL L.isLt)
  rw [← exists_value_eq_ok_iff, value_priceAfterInput, Clamm.priceAfterInput,
    checkCurve_eq_ok_iff.mpr ⟨hp, hL⟩]
  exact Iff.rfl

/-- **An input moves the price as far as it pays for.** One of token 1 reaches the greatest price that
it pays the way to, and fails only if that has more than 160 bits. One of token 0 reaches the least,
unless the denominator takes more than 256 bits: then it ends at a price that it pays the way to, no
lower than the exact quotient, and fails only if the denominator of the fallback does not fit. -/
theorem priceAfterInput_furthest (hp : 0 < p.toNat) (hL : 0 < L.toNat) (amount : Word) :
    (∀ n, priceAfterInput .up p L amount = .ok n ↔
      n.toNat < 2 ^ 160 ∧ IsGreatest (affordable .up p L amount) n) ∧
    ((∃ n, priceAfterInput .down p L amount = .ok n) ↔
      L.toNat * 2 ^ 96 / p.toNat + amount.toNat < 2 ^ 256) ∧
    ∀ n, priceAfterInput .down p L amount = .ok n →
      n ∈ affordable .down p L amount ∧
      (amount.toNat * p.toNat + L.toNat * 2 ^ 96 < 2 ^ 256 →
        IsLeast (affordable .down p L amount) n) ∧
      Rounding.ceil.of (L.toNat * 2 ^ 96 * p.toNat /
        (L.toNat * 2 ^ 96 + amount.toNat * p.toNat) : ℚ) ≤ n.toNat := by
  refine ⟨fun n => priceAfterInput_up_iff hp hL, exists_priceAfterInput_down_iff hp hL,
    fun n h => ?_⟩
  obtain ⟨hmem, hreaches⟩ := priceAfterInput_mem h hp hL
  refine ⟨hmem, fun hfits => ⟨hmem, hreaches fun _ => ?_⟩, ?_⟩
  · rw [add_comm]
    exact hfits
  obtain ⟨hlead, hcovers⟩ := (mem_affordable_iff hp hL).mp hmem
  have hpos : 0 < L.toNat * 2 ^ 96 + amount.toNat * p.toNat :=
    Nat.add_pos_left (Nat.mul_pos hL (by positivity)) _
  have hreach : L.toNat * 2 ^ 96 * p.toNat ≤
      n.toNat * (L.toNat * 2 ^ 96 + amount.toNat * p.toNat) :=
    (Direction.covers_down_iff hlead).mp hcovers
  rw [Rounding.of, Nat.ceil_le, div_le_iff₀ (by exact_mod_cast hpos)]
  exact_mod_cast hreach

/-- An input of token 1 that reaches a price exactly, and one of token 0 whose denominator takes more
than 256 bits: it ends above the exact quotient. -/
theorem priceAfterInput_furthest_fallback :
    IsGreatest (affordable .up (1 <<< 96) 1000000000000000000 100000000000000000)
      87150978765690771352898345369 ∧
    42535295863466721213938703423892900827 ∈ affordable .down (3 <<< 158) (1 <<< 127) (1 <<< 98) ∧
    Rounding.ceil.of ((2 ^ 127 : ℕ) * 2 ^ 96 * (3 * 2 ^ 158 : ℕ) /
      ((2 ^ 127 : ℕ) * 2 ^ 96 + (2 ^ 98 : ℕ) * (3 * 2 ^ 158 : ℕ)) : ℚ) ≤ 42535295863466721213938703423892900827 := by
  have hup := (@priceAfterInput_furthest (1 <<< 96) 1000000000000000000 (by decide) (by decide)
    100000000000000000).1 87150978765690771352898345369
  obtain ⟨-, -, hdown⟩ := @priceAfterInput_furthest (3 <<< 158) (1 <<< 127) (by decide) (by decide)
    (1 <<< 98)
  obtain ⟨hmem, -, hquot⟩ := hdown 42535295863466721213938703423892900827 (by decide +kernel)
  exact ⟨(hup.mp (by decide +kernel)).2, hmem, hquot⟩

/-! ## Outputs -/

/-- An output moves to the first price that has released it. -/
theorem priceAfterOutput_mem (h : priceAfterOutput d p L amount = .ok n) (hp : Priced 0 p.toNat) :
    n ∈ deliverable d p L amount ∧
      ∀ t ∈ deliverable d p L amount, d.Leads n.toNat t.toNat := by
  have hnum := (value_priceAfterOutput d p L amount).symm.trans (value_eq_ok_iff.mpr h)
  obtain ⟨hlead, hfirst⟩ := priceAfterOutput_spec hnum
  refine ⟨(mem_deliverable_iff hp).mpr
    ⟨priceAfterOutput_pos hnum, hlead, priceAfterOutput_yields hnum⟩, fun t ht => ?_⟩
  obtain ⟨-, htlead, htyields⟩ := (mem_deliverable_iff hp).mp ht
  exact hfirst t.toNat htlead htyields

/-- It moves there if there is one. -/
theorem exists_priceAfterOutput (hp : 0 < p.toNat) (hp' : p.toNat < 2 ^ 160) (hL : 0 < L.toNat)
    (ht : t ∈ deliverable d p L amount) : ∃ n, priceAfterOutput d p L amount = .ok n := by
  obtain ⟨htpos, htlead, htyields⟩ := (mem_deliverable_iff ⟨hp, hp'.le⟩).mp ht
  obtain ⟨q, hq⟩ := priceAfterOutput_total ⟨hp, hp'.le⟩ (fun _ => hp') htpos t.isLt htlead hL htyields
  exact exists_value_eq_ok_iff.mp ⟨q, (value_priceAfterOutput d p L amount).trans hq⟩

theorem priceAfterOutput_eq_ok_iff (hp : 0 < p.toNat) (hp' : p.toNat < 2 ^ 160) (hL : 0 < L.toNat) :
    priceAfterOutput d p L amount = .ok n ↔
      n ∈ deliverable d p L amount ∧
        ∀ t ∈ deliverable d p L amount, d.Leads n.toNat t.toNat := by
  constructor
  · exact fun h => priceAfterOutput_mem h ⟨hp, hp'.le⟩
  · rintro ⟨hmem, hfirst⟩
    obtain ⟨w, hw⟩ := exists_priceAfterOutput hp hp' hL hmem
    obtain ⟨hmemw, hfirstw⟩ := priceAfterOutput_mem hw ⟨hp, hp'.le⟩
    have heq := (hfirstw n hmem).antisymm (hfirst w hmemw)
    rw [hw, BitVec.eq_of_toNat_eq heq]

/-- **An output moves the price no further than it needs.** It ends at the first price in its direction
that has released it, and it fails, for want of reserves or by overflow, exactly if there is none. -/
theorem priceAfterOutput_nearest (hp : 0 < p.toNat) (hp' : p.toNat < 2 ^ 160) (hL : 0 < L.toNat)
    (amount : Word) :
    (∀ n, priceAfterOutput .down p L amount = .ok n ↔
      IsGreatest (deliverable .down p L amount) n) ∧
    (∀ n, priceAfterOutput .up p L amount = .ok n ↔ IsLeast (deliverable .up p L amount) n) ∧
    ∀ d, (priceAfterOutput d p L amount = .error (.state .insufficientReserves) ∨
      priceAfterOutput d p L amount = .error (.arithmetic .overflow)) ↔
        deliverable d p L amount = ∅ := by
  refine ⟨fun n => priceAfterOutput_eq_ok_iff hp hp' hL, fun n => priceAfterOutput_eq_ok_iff hp hp' hL,
    fun d => ⟨fun hfails => ?_, fun hnone => ?_⟩⟩
  · refine Set.eq_empty_of_forall_notMem fun t ht => ?_
    obtain ⟨n, hn⟩ := exists_priceAfterOutput hp hp' hL ht
    rw [hn] at hfails
    rcases hfails with h | h <;> cases h
  · have hnum := value_priceAfterOutput d p L amount
    cases hout : priceAfterOutput d p L amount with
    | ok n =>
      have hmem := (priceAfterOutput_mem hout ⟨hp, hp'.le⟩).1
      rw [hnone] at hmem
      exact absurd hmem (Set.notMem_empty n)
    | error e =>
      rw [hout, value_error] at hnum
      rcases priceAfterOutput_eq_error hp hL hnum.symm with rfl | rfl
      · exact Or.inl rfl
      · exact Or.inr rfl

/-- Outputs up to the reserves in either direction, and one whose price takes more than 256 bits. -/
theorem priceAfterOutput_nearest_reserves :
    IsGreatest (deliverable .down (1 <<< 104) 1024 262143) (1 <<< 86) ∧
    IsLeast (deliverable .up (1 <<< 104) 1024 3) (1 <<< 106) ∧
    deliverable .up 1379402611965241533297761989081689356033768203169 10491952120640685906315474934
      602621802 = ∅ := by
  have hdown := (@priceAfterOutput_nearest (1 <<< 104) 1024 (by decide) (by decide) (by decide)
    262143).1 (1 <<< 86)
  have hup := (@priceAfterOutput_nearest (1 <<< 104) 1024 (by decide) (by decide) (by decide)
    3).2.1 (1 <<< 106)
  have hnone := (@priceAfterOutput_nearest 1379402611965241533297761989081689356033768203169
    10491952120640685906315474934 (by decide) (by decide) (by decide) 602621802).2.2 .up
  exact ⟨hdown.mp (by decide +kernel), hup.mp (by decide +kernel),
    hnone.mp (Or.inr (by decide +kernel))⟩

end Moves

end Word

end Clamm
