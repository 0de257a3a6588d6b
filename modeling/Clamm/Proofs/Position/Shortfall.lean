import Mathlib
import Clamm.Proofs.Position.Minting

/-!
# Closing a position against opening it

`Position.burnBound` rounds down what the liquidity of a position holds at the ends of a band, and
`Position.mintBound` rounds up what another liquidity costs there: the one that the cost of the
position funds when the product of the two prices is cut to 96 bits first. Between the two ends
nothing but the liquidity matters, so closing never yields more than opening costs where that one is
no smaller. It can be smaller: the cut takes `c * b % 2 ^ 96` out of `c * b`, and that share of the
liquidity with it. Token 1 is funded without a cut, so above the range nothing is lost.

* `le_maxLiquidity_staged_add`: how much liquidity the staged product may lose.
* `Position.Funds`: the amounts cover a liquidity, by cross-multiplication.
* `Position.bandAmounts_worth_le_costs`: a liquidity is worth at most what two parts of it cost.
* `Position.burnBound_le_mintBound_add`: closing yields at most what opening costs and the cost of
  the liquidity that was lost.
-/

namespace Clamm

/-! ## What the staged product loses -/

section Liquidity

variable {p a b c x y k L M : ℕ}

/-- Cutting the product of the prices loses no more than its share of the liquidity. -/
theorem le_liquidityOf0_staged_add (hc : 0 < c) (hcb : c < b)
    (hx : L * pow2 96 * (b - c) ≤ x * (c * b)) (hk : L * (c * b % pow2 96) ≤ k * (c * b)) :
    L ≤ liquidityOf0 c b x .staged + k := by
  rw [← Nat.sub_le_iff_le_add]
  unfold liquidityOf0
  rw [Nat.le_div_iff_mul_le (Nat.sub_pos_of_lt hcb)]
  refine le_of_mul_le_mul_right ?_ (Nat.mul_pos hc (hc.trans hcb))
  have hcut := Nat.div_add_mod (c * b) (pow2 96)
  generalize c * b / pow2 96 = I at *
  -- what is left of the liquidity fits in what is left of the product
  have hleft : (L - k) * (c * b) ≤ L * (pow2 96 * I) := by
    rw [Nat.sub_mul, Nat.sub_le_iff_le_add]
    calc L * (c * b) = L * (pow2 96 * I) + L * (c * b % pow2 96) := by rw [← mul_add, hcut]
      _ ≤ L * (pow2 96 * I) + k * (c * b) := Nat.add_le_add_left hk _
  calc (L - k) * (b - c) * (c * b) = (L - k) * (c * b) * (b - c) := mul_right_comm _ _ _
    _ ≤ L * (pow2 96 * I) * (b - c) := Nat.mul_le_mul_right _ hleft
    _ = L * pow2 96 * (b - c) * I := by ring
    _ ≤ x * (c * b) * I := Nat.mul_le_mul_right _ hx
    _ = x * I * (c * b) := mul_right_comm _ _ _

/-- **The liquidity of two budgets under the staged product.** With the price `c` held in the range,
budgets that cover a liquidity fund all of it but the share that the cut takes from `c * b`, and
above the range all of it. -/
theorem le_maxLiquidity_staged_add (ha : 0 < a) (hab : a < b) (hc : c = max a (min p b))
    (hx : L * pow2 96 * (b - c) ≤ x * (c * b)) (hy : L * (c - a) ≤ y * pow2 96)
    (hk : p < b → L * (c * b % pow2 96) ≤ k * (c * b))
    (h : maxLiquidity p a b x y .staged = .ok M) : L ≤ M + k := by
  unfold maxLiquidity at h
  simp only [min_eq_left hab.le, max_eq_right hab.le, if_neg hab.ne] at h
  split at h
  · rename_i hlow
    cases h
    rw [max_eq_left ((min_le_left p b).trans hlow)] at hc
    subst hc
    exact le_liquidityOf0_staged_add ha hab hx (hk (hlow.trans_lt hab))
  · rename_i hlow
    split at h
    · rename_i hhigh
      cases h
      rw [min_eq_left hhigh.le, max_eq_right (not_le.mp hlow).le] at hc
      subst hc
      rw [← min_add_add_right, le_min_iff]
      exact ⟨le_liquidityOf0_staged_add (ha.trans (not_le.mp hlow)) hhigh hx (hk hhigh),
        ((le_liquidityOf1_iff (not_le.mp hlow)).mpr hy).trans (Nat.le_add_right _ _)⟩
    · rename_i hhigh
      cases h
      rw [min_eq_right (not_lt.mp hhigh), max_eq_right hab.le] at hc
      subst hc
      exact ((le_liquidityOf1_iff hab).mpr hy).trans (Nat.le_add_right _ _)

end Liquidity

namespace Position

variable {p p' p'' : Position} {t : Percent} {q k l l' n lo hi : ℕ}
  {m m' burn mint lost : TokenAmounts}

/-! ## Amounts that fund a liquidity -/

/-- The amounts cover liquidity `l` over the range of the position, each on its side of the held
price. -/
def Funds (p : Position) (l : ℕ) (m : TokenAmounts) : Prop :=
  l * pow2 96 * (ratioAt p.upper - p.heldPrice) ≤ m.amount0 * (p.heldPrice * ratioAt p.upper) ∧
    l * (p.heldPrice - ratioAt p.lower) ≤ m.amount1 * pow2 96

/-- What a position costs covers its liquidity. -/
theorem funds_of_mintAmounts (h : p.mintAmounts = .ok m) : p.Funds p.liquidity m := by
  obtain ⟨m', hm', h0, h1⟩ := p.amounts_total .ceil
  cases h.symm.trans hm'
  exact ⟨(amount0_ceil_le_iff p.heldPrice_le_high h0).mp le_rfl,
    (amount1_ceil_le_iff p.low_le_heldPrice h1).mp le_rfl⟩

/-- What a position is worth is no more than any amounts that cover its liquidity. -/
theorem Funds.worth_le (h : p.Funds p.liquidity m) (hm' : p.amounts .floor = .ok m') :
    m'.amount0 ≤ m.amount0 ∧ m'.amount1 ≤ m.amount1 := by
  obtain ⟨a, ha, h0, h1⟩ := p.amounts_total .floor
  cases hm'.symm.trans ha
  have hpos := Nat.mul_pos p.priced_heldPrice.pos p.priced_high.pos
  have hle0 := (le_amount0_floor_iff p.heldPrice_le_high h0).mp le_rfl
  have hle1 := (le_amount1_floor_iff p.low_le_heldPrice h1).mp le_rfl
  exact ⟨le_of_mul_le_mul_right (hle0.trans h.1) hpos,
    le_of_mul_le_mul_right (hle1.trans h.2) (pow2_pos 96)⟩

theorem Funds.mono (h : p.Funds l' m) (hl : l ≤ l') : p.Funds l m :=
  ⟨(Nat.mul_le_mul_right _ (Nat.mul_le_mul_right _ hl)).trans h.1,
    (Nat.mul_le_mul_right _ hl).trans h.2⟩

theorem Funds.add (h : p.Funds l m) (h' : p.Funds l' m') :
    p.Funds (l + l') ⟨m.amount0 + m'.amount0, m.amount1 + m'.amount1⟩ := by
  constructor
  · simpa only [add_mul] using Nat.add_le_add h.1 h'.1
  · simpa only [add_mul] using Nat.add_le_add h.2 h'.2

/-- Over one range at one price the same amounts cover a liquidity. -/
theorem At.funds (h : p.At q l p') (h' : p.At q l' p'') (hf : p'.Funds k m) : p''.Funds k m := by
  have hheld : p''.heldPrice = p'.heldPrice := by
    unfold heldPrice
    rw [h.price, h.lower, h.upper, h'.price, h'.lower, h'.upper]
  unfold Funds at hf ⊢
  rw [hheld, h'.lower, h'.upper]
  rwa [h.lower, h.upper] at hf

/-! ## One band, two liquidities -/

/-- What a band is worth is no more than amounts that cover the liquidity at its two ends. -/
theorem bandAmounts_floor_le (hburn : p.bandAmounts (lo, hi) l .floor = .ok burn)
    (hlow : ∀ p', p.At lo l p' → p'.Funds l m) (hhigh : ∀ p', p.At hi l p' → p'.Funds l m') :
    burn.amount0 ≤ m'.amount0 ∧ burn.amount1 ≤ m.amount1 := by
  obtain ⟨low, high, a, b, hmlow, hmhigh, ha, hb, rfl⟩ := bandAmounts_eq_ok_iff.mp hburn
  have hlow := hlow low (.of_movedTo hmlow)
  have hhigh := hhigh high (.of_movedTo hmhigh)
  rw [← (At.of_movedTo hmlow).liquidity] at hlow
  rw [← (At.of_movedTo hmhigh).liquidity] at hhigh
  exact ⟨(hhigh.worth_le hb).1, (hlow.worth_le ha).2⟩

/-- What a band costs is made of amounts that cover the liquidity at its two ends. -/
theorem exists_funds_of_bandAmounts (hmint : p.bandAmounts (lo, hi) l .ceil = .ok mint) :
    ∃ a b, (∀ l' p', p.At lo l' p' → p'.Funds l a) ∧ (∀ l' p', p.At hi l' p' → p'.Funds l b) ∧
      mint.amount0 = b.amount0 ∧ mint.amount1 = a.amount1 := by
  obtain ⟨low, high, a, b, hmlow, hmhigh, ha, hb, rfl⟩ := bandAmounts_eq_ok_iff.mp hmint
  have hatlow := At.of_movedTo hmlow
  have hathigh := At.of_movedTo hmhigh
  have hlow := funds_of_mintAmounts ha
  have hhigh := funds_of_mintAmounts hb
  rw [hatlow.liquidity] at hlow
  rw [hathigh.liquidity] at hhigh
  exact ⟨a, b, fun _ _ hat => hatlow.funds hat hlow, fun _ _ hat => hathigh.funds hat hhigh,
    rfl, rfl⟩

/-- **A larger liquidity costs at least what a smaller one is worth**, at the ends of one band. -/
theorem bandAmounts_worth_le_cost (hburn : p.bandAmounts (lo, hi) l .floor = .ok burn)
    (hmint : p.bandAmounts (lo, hi) l' .ceil = .ok mint) (hl : l ≤ l') :
    burn.amount0 ≤ mint.amount0 ∧ burn.amount1 ≤ mint.amount1 := by
  obtain ⟨a, b, hlow, hhigh, h0, h1⟩ := exists_funds_of_bandAmounts hmint
  rw [h0, h1]
  exact bandAmounts_floor_le hburn (fun p' hat => (hlow l p' hat).mono hl)
    fun p' hat => (hhigh l p' hat).mono hl

/-- **Two liquidities together cost at least what their sum is worth.** -/
theorem bandAmounts_worth_le_costs (hburn : p.bandAmounts (lo, hi) l .floor = .ok burn)
    (hmint : p.bandAmounts (lo, hi) l' .ceil = .ok mint)
    (hlost : p.bandAmounts (lo, hi) n .ceil = .ok lost) (hl : l ≤ l' + n) :
    burn.amount0 ≤ mint.amount0 + lost.amount0 ∧ burn.amount1 ≤ mint.amount1 + lost.amount1 := by
  obtain ⟨a, b, hlow, hhigh, h0, h1⟩ := exists_funds_of_bandAmounts hmint
  obtain ⟨a', b', hlow', hhigh', h0', h1'⟩ := exists_funds_of_bandAmounts hlost
  rw [h0, h1, h0', h1']
  exact bandAmounts_floor_le hburn
    (fun p' hat => ((hlow l p' hat).add (hlow' l p' hat)).mono hl)
    fun p' hat => ((hhigh l p' hat).add (hhigh' l p' hat)).mono hl

/-! ## The liquidity of a cost -/

/-- What the staged product may lose of the liquidity of a position: the share that the cut takes
from the product of the held price and the upper end, rounded up. -/
def stagedLoss (p : Position) : ℕ :=
  Rounding.ceil.div (p.liquidity * (p.heldPrice * ratioAt p.upper % pow2 96))
    (p.heldPrice * ratioAt p.upper)

/-- **What the cost of a position funds**: its liquidity less the staged loss, and all of it at and
above the range. -/
theorem liquidity_of_cost {cost : TokenAmounts} {minted : Position}
    (hcost : p.mintAmounts = .ok cost)
    (hminted : ofAmounts p.pool p.lower p.upper cost.amount0 cost.amount1 .staged = .ok minted) :
    p.liquidity ≤ minted.liquidity + p.stagedLoss ∧
      (ratioAt p.upper ≤ p.pool.state.sqrtPrice → p.liquidity ≤ minted.liquidity) := by
  obtain ⟨hx, hy⟩ := funds_of_mintAmounts hcost
  unfold ofAmounts at hminted
  rw [p.sqrtPriceAt_lower, ok_bind, p.sqrtPriceAt_upper, ok_bind] at hminted
  obtain ⟨M, hM, hmake⟩ := bind_eq_ok_iff.mp hminted
  rw [liquidity_of_make hmake]
  have hloss := Rounding.le_div_ceil_mul
    (Nat.mul_pos p.priced_heldPrice.pos p.priced_high.pos)
    (p.liquidity * (p.heldPrice * ratioAt p.upper % pow2 96))
  refine ⟨le_maxLiquidity_staged_add p.priced_low.pos p.low_lt_high rfl hx hy (fun _ => hloss) hM,
    fun habove => ?_⟩
  exact le_maxLiquidity_staged_add (k := 0) p.priced_low.pos p.low_lt_high rfl hx hy
    (fun hlt => absurd hlt (not_lt.mpr habove)) hM

/-- **Closing a position yields at most what opening it costs, and what the missing liquidity
costs.** The bound on minting is that of the liquidity `minted`, which the cost of the position
funds. Where that is no less than the position's own, closing yields at most what opening costs; so
it is at and above the range. It is never less by more than the staged loss, and then closing
exceeds opening by at most the cost of the missing liquidity at the same ends of the band. -/
theorem burnBound_le_mintBound_add (hburn : p.burnBound t = .ok burn)
    (hmint : p.mintBound t = .ok mint) :
    ∃ band cost minted lost, p.slippageBand t = .ok band ∧ p.mintAmounts = .ok cost ∧
      ofAmounts p.pool p.lower p.upper cost.amount0 cost.amount1 .staged = .ok minted ∧
      (p.liquidity ≤ minted.liquidity →
        burn.amount0 ≤ mint.amount0 ∧ burn.amount1 ≤ mint.amount1) ∧
      (ratioAt p.upper ≤ p.pool.state.sqrtPrice → p.liquidity ≤ minted.liquidity) ∧
      p.liquidity ≤ minted.liquidity + p.stagedLoss ∧
      p.bandAmounts band (p.liquidity - minted.liquidity) .ceil = .ok lost ∧
      burn.amount0 ≤ mint.amount0 + lost.amount0 ∧ burn.amount1 ≤ mint.amount1 + lost.amount1 := by
  obtain ⟨ht, hburn⟩ := burnBound_eq_ok_iff.mp hburn
  obtain ⟨-, cost, minted, hcost, hminted, hmint⟩ := mintBound_eq_ok_iff.mp hmint
  obtain ⟨hloss, habove⟩ := liquidity_of_cost hcost hminted
  obtain ⟨lost, hlost⟩ := exists_bandAmounts hburn
    ((Nat.sub_le p.liquidity minted.liquidity).trans_lt p.liquidity_lt) .ceil
  exact ⟨_, cost, minted, lost, slippageBand_eq p ht, hcost, hminted,
    bandAmounts_worth_le_cost hburn hmint, habove, hloss, hlost,
    bandAmounts_worth_le_costs hburn hmint hlost le_add_tsub⟩

/-- The pool of the two nested positions at a price of a millionth of a millionth. -/
def cheapPool : Pool :=
  { nestedPool with
    state := ⟨79228162514264337593543, 0, -276325⟩
    tick_mem := by decide
    price_mem := by decide +kernel
    price_pos := by decide
    liquidity_lt := by decide }

/-- A position around that price. -/
def cheapPosition : Position :=
  ⟨cheapPool, -276360, -276240, 1000000000000000000, by decide, by decide, by decide, by decide⟩

/-- With no tolerance at all closing it yields 29345 of token 0 more than opening it costs. -/
theorem cheapPosition_bounds :
    cheapPosition.burnBound ⟨0, 1, by decide⟩ = .ok ⟨4192299601853744955657, 1796971601⟩ ∧
    cheapPosition.mintBound ⟨0, 1, by decide⟩ = .ok ⟨4192299601853744926312, 1796971602⟩ ∧
    cheapPosition.stagedLoss = 7 := by
  decide +kernel

/-- Its cost funds less than its liquidity, by no more than the staged loss of 7. -/
theorem burnBound_le_mintBound_add_cheap :
    cheapPosition.burnBound ⟨0, 1, by decide⟩ = .ok ⟨4192299601853744955657, 1796971601⟩ ∧
    cheapPosition.mintBound ⟨0, 1, by decide⟩ = .ok ⟨4192299601853744926312, 1796971602⟩ ∧
    ∃ band cost minted lost, cheapPosition.mintAmounts = .ok cost ∧
      ofAmounts cheapPool (-276360) (-276240) cost.amount0 cost.amount1 .staged =
        .ok minted ∧
      minted.liquidity < 1000000000000000000 ∧ 1000000000000000000 ≤ minted.liquidity + 7 ∧
      cheapPosition.bandAmounts band (1000000000000000000 - minted.liquidity) .ceil = .ok lost ∧
      4192299601853744955657 ≤ 4192299601853744926312 + lost.amount0 ∧
      1796971601 ≤ 1796971602 + lost.amount1 := by
  obtain ⟨hburn, hmint, hstaged⟩ := cheapPosition_bounds
  obtain ⟨band, cost, minted, lost, -, hcost, hminted, hle, -, hloss, hlost, hwithin⟩ :=
    burnBound_le_mintBound_add hburn hmint
  rw [hstaged] at hloss
  refine ⟨hburn, hmint, band, cost, minted, lost, hcost, hminted, not_le.mp fun h => ?_, hloss,
    hlost, hwithin⟩
  exact absurd (hle h).1 (by decide)

/-- **Closing may yield more than opening costs**, at the same price and in the same token. -/
theorem exists_burn_beyond_mint :
    ¬ ∀ (p : Position) (t : Percent) (burn mint : TokenAmounts), 0 ≤ t.num →
      p.burnBound t = .ok burn → p.mintBound t = .ok mint →
      burn.amount0 ≤ mint.amount0 ∧ burn.amount1 ≤ mint.amount1 := by
  intro h
  obtain ⟨hburn, hmint, -⟩ := cheapPosition_bounds
  exact absurd (h _ _ _ _ (by decide) hburn hmint).1 (by decide)

end Position

end Clamm
