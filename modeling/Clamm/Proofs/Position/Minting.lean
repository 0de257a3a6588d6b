import Mathlib
import Clamm.Proofs.Position.Band

/-!
# What opening a position costs in the slippage band

Over a band of prices the cost of a position is not bounded by either end alone: it takes the most
token 0 at the lower end and the most token 1 at the upper one. `Position.bandAmounts` reads the
other two, token 0 at the upper end and token 1 at the lower one. They are the least of each token
that any price of the band asks for.

* `Position.coversBand_iff`: amounts cover the cost everywhere in a band exactly if they cover token
  0 at its lower end and token 1 at its upper end.
* `Position.mintBound_least`: so the amounts of `Position.mintBound` are a least cost, and cover the
  band exactly if its two ends cost the same.
-/

namespace Clamm

namespace Position

variable {p low high : Position} {t : Percent} {q l l' lo hi : ℕ} {r : Rounding}
  {m a b : TokenAmounts}

/-! ## The bounds and the positions they are read off -/

/-- A position that has been moved is where it was moved to. -/
theorem At.of_movedTo {p' : Position} (h : p.movedTo q l = .ok p') : p.At q l p' := by
  unfold movedTo at h
  obtain ⟨tick, -, h⟩ := bind_eq_ok_iff.mp h
  obtain ⟨pool, hpool, h⟩ := bind_eq_ok_iff.mp h
  obtain ⟨hstate, -⟩ := Pool.make_eq_ok hpool
  obtain ⟨-, -, -, -, rfl, hlower, hupper, hliquidity⟩ := make_eq_ok_iff.mp h
  exact ⟨by rw [hstate], hlower, hupper, hliquidity⟩

/-- A price that one liquidity is moved to is one for every liquidity. -/
theorem exists_movedTo_of_movedTo {p' : Position} (h : p.movedTo q l = .ok p')
    (hl : l' < pow2 128) : ∃ p'', p.movedTo q l' = .ok p'' := by
  unfold movedTo at h ⊢
  obtain ⟨tick, htick, h⟩ := bind_eq_ok_iff.mp h
  obtain ⟨pool, hpool, h⟩ := bind_eq_ok_iff.mp h
  obtain ⟨p'', hp''⟩ := make_of_range h hl
  exact ⟨p'', bind_eq_ok_iff.mpr ⟨tick, htick, bind_eq_ok_iff.mpr ⟨pool, hpool, hp''⟩⟩⟩

/-- The amounts of a band are those of the position moved to its two ends. -/
theorem bandAmounts_eq_ok_iff : p.bandAmounts (lo, hi) l r = .ok m ↔
    ∃ low high a b, p.movedTo lo l = .ok low ∧ p.movedTo hi l = .ok high ∧
      low.amounts r = .ok a ∧ high.amounts r = .ok b ∧ m = ⟨b.amount0, a.amount1⟩ := by
  simp only [bandAmounts, bind_eq_ok_iff]
  constructor
  · rintro ⟨high, hhigh, b, hb, low, hlow, a, ha, h⟩
    cases h
    exact ⟨low, high, a, b, hlow, hhigh, ha, hb, rfl⟩
  · rintro ⟨low, high, a, b, hlow, hhigh, ha, hb, rfl⟩
    exact ⟨high, hhigh, b, hb, low, hlow, a, ha, rfl⟩

/-- A band that has amounts for one liquidity has them for every liquidity. -/
theorem exists_bandAmounts (h : p.bandAmounts (lo, hi) l r = .ok m) (hl : l' < pow2 128)
    (r' : Rounding) : ∃ m', p.bandAmounts (lo, hi) l' r' = .ok m' := by
  obtain ⟨low, high, a, b, hlow, hhigh, -⟩ := bandAmounts_eq_ok_iff.mp h
  obtain ⟨low', hlow'⟩ := exists_movedTo_of_movedTo hlow hl
  obtain ⟨high', hhigh'⟩ := exists_movedTo_of_movedTo hhigh hl
  obtain ⟨a', ha', -⟩ := low'.amounts_total r'
  obtain ⟨b', hb', -⟩ := high'.amounts_total r'
  exact ⟨_, bandAmounts_eq_ok_iff.mpr ⟨low', high', a', b', hlow', hhigh', ha', hb', rfl⟩⟩

theorem burnBound_eq_ok_iff : p.burnBound t = .ok m ↔
    0 ≤ t.num ∧ p.bandAmounts (p.lowEdge t, p.highEdge t) p.liquidity .floor = .ok m := by
  unfold burnBound
  simp only [bind_eq_ok_iff, slippageBand_eq_ok_iff, and_assoc, exists_and_left, exists_eq_left]

theorem mintBound_eq_ok_iff : p.mintBound t = .ok m ↔
    0 ≤ t.num ∧ ∃ cost minted, p.mintAmounts = .ok cost ∧
      ofAmounts p.pool p.lower p.upper cost.amount0 cost.amount1 .staged = .ok minted ∧
      p.bandAmounts (p.lowEdge t, p.highEdge t) minted.liquidity .ceil = .ok m := by
  unfold mintBound
  simp only [bind_eq_ok_iff, slippageBand_eq_ok_iff, and_assoc, exists_and_left, exists_eq_left]

/-! ## Amounts that cover a band -/

/-- The amounts cover the cost of liquidity `l` at every price from `lo` to `hi`. -/
def CoversBand (p : Position) (lo hi l : ℕ) (m : TokenAmounts) : Prop :=
  ∀ q p', lo ≤ q → q ≤ hi → p.At q l p' → p'.CostsWithin m.amount0 m.amount1

theorem CostsWithin.le {x y : ℕ} (h : p.CostsWithin x y) (hm : p.mintAmounts = .ok m) :
    m.amount0 ≤ x ∧ m.amount1 ≤ y := by
  obtain ⟨m', hm', hle⟩ := h
  cases hm.symm.trans hm'
  exact hle

/-- **A band is covered at its ends**: token 0 at the lower one and token 1 at the upper one. -/
theorem coversBand_iff (hle : lo ≤ hi) (hlow : p.At lo l low) (hhigh : p.At hi l high)
    (ha : low.mintAmounts = .ok a) (hb : high.mintAmounts = .ok b) :
    p.CoversBand lo hi l m ↔ a.amount0 ≤ m.amount0 ∧ b.amount1 ≤ m.amount1 := by
  constructor
  · intro h
    exact ⟨((h lo low le_rfl hle hlow).le ha).1, ((h hi high hle le_rfl hhigh).le hb).2⟩
  · rintro ⟨h0, h1⟩ q p' hq hq' hat
    obtain ⟨c, hc, -⟩ := p'.amounts_total .ceil
    exact ⟨c, hc, (hlow.amounts_le hat hq ha hc).1.trans h0,
      (hat.amounts_le hhigh hq' hc hb).2.trans h1⟩

/-- **The bound on minting is the least cost in the band.** Where there is one, opening the position
with the liquidity that the cost at the current price funds takes at least these amounts at every
price of the band: token 0 is that of the upper end, and token 1 that of the lower end. Over ends in
order the amounts cover the band exactly if both ends cost the same. -/
theorem mintBound_least (h : p.mintBound t = .ok m) :
    ∃ lo hi cost minted a b, p.slippageBand t = .ok (lo, hi) ∧ p.mintAmounts = .ok cost ∧
      ofAmounts p.pool p.lower p.upper cost.amount0 cost.amount1 .staged = .ok minted ∧
      (∃ low, p.At lo minted.liquidity low ∧ low.mintAmounts = .ok a ∧ m.amount1 = a.amount1) ∧
      (∃ high, p.At hi minted.liquidity high ∧ high.mintAmounts = .ok b ∧
        m.amount0 = b.amount0) ∧
      (∀ q p', lo ≤ q → q ≤ hi → p.At q minted.liquidity p' → ∃ c, p'.mintAmounts = .ok c ∧
        m.amount0 ≤ c.amount0 ∧ m.amount1 ≤ c.amount1) ∧
      (lo ≤ hi → (p.CoversBand lo hi minted.liquidity m ↔ a = b)) := by
  obtain ⟨ht, cost, minted, hcost, hminted, hbound⟩ := mintBound_eq_ok_iff.mp h
  obtain ⟨low, high, a, b, hlow, hhigh, ha, hb, rfl⟩ := bandAmounts_eq_ok_iff.mp hbound
  have hlow := At.of_movedTo hlow
  have hhigh := At.of_movedTo hhigh
  refine ⟨_, _, cost, minted, a, b, slippageBand_eq p ht, hcost, hminted, ⟨low, hlow, ha, rfl⟩,
    ⟨high, hhigh, hb, rfl⟩, fun q p' hq hq' hat => ?_, fun hle => ?_⟩
  · obtain ⟨c, hc, -⟩ := p'.amounts_total .ceil
    exact ⟨c, hc, (hat.amounts_le hhigh hq' hc hb).1, (hlow.amounts_le hat hq ha hc).2⟩
  · rw [coversBand_iff hle hlow hhigh ha hb]
    obtain ⟨h0, h1⟩ := hlow.amounts_le hhigh hle ha hb
    constructor
    · rintro ⟨h0', h1'⟩
      cases a
      cases b
      exact congrArg₂ TokenAmounts.mk (h0'.antisymm h0) (h1.antisymm h1')
    · rintro rfl
      exact ⟨le_rfl, le_rfl⟩

/-- What the cost of the inner position funds. -/
def nestedMinted : Position :=
  { nestedInner with
    liquidity := 1000215
    liquidity_lt := by decide }

/-- The inner position costs 2996 of each token, and so does what they fund. With a tolerance of a
thousandth it is bounded by 2497 and 2496. -/
theorem nestedInner_minting :
    (nestedInner.slippageBand ⟨1, 1000, by decide⟩ =
        .ok (79188538524532033966444101902, 79267766696949822951113378804) ∧
      nestedInner.mintBound ⟨1, 1000, by decide⟩ = .ok ⟨2497, 2496⟩) ∧
    nestedInner.mintAmounts = .ok ⟨2996, 2996⟩ ∧ nestedMinted.mintAmounts = .ok ⟨2996, 2996⟩ ∧
    maxLiquidity nestedPool.state.sqrtPrice (ratioAt (-60)) (ratioAt 60) 2996 2996 .staged =
      .ok nestedMinted.liquidity := by
  decide +kernel

/-- Nowhere in the band less than the bound is enough to open the inner position. -/
theorem mintBound_least_nested : nestedInner.mintBound ⟨1, 1000, by decide⟩ = .ok ⟨2497, 2496⟩ ∧
    ∃ minted, ofAmounts nestedPool (-60) 60 2996 2996 .staged = .ok minted ∧
      ∀ q p', 79188538524532033966444101902 ≤ q → q ≤ 79267766696949822951113378804 →
        nestedInner.At q minted.liquidity p' → ∃ c, p'.mintAmounts = .ok c ∧
          2497 ≤ c.amount0 ∧ 2496 ≤ c.amount1 := by
  obtain ⟨⟨hslip, hbound⟩, hinner, -⟩ := nestedInner_minting
  obtain ⟨lo, hi, cost, minted, a, b, hband, hcost, hminted, -, -, hleast, -⟩ :=
    mintBound_least hbound
  cases hband.symm.trans hslip
  cases hcost.symm.trans hinner
  exact ⟨hbound, minted, hminted, hleast⟩

/-- **The bound on minting does not cover the band**, not even the price that the pool stands at:
the liquidity that 2996 of each token fund at price 1 costs that much there. -/
theorem exists_cost_beyond_mintBound :
    ¬ ∀ (p : Position) (t : Percent) (m cost : TokenAmounts) (minted : Position) (lo hi : ℕ),
      p.mintBound t = .ok m → p.mintAmounts = .ok cost →
      ofAmounts p.pool p.lower p.upper cost.amount0 cost.amount1 .staged = .ok minted →
      p.slippageBand t = .ok (lo, hi) → p.CoversBand lo hi minted.liquidity m := by
  intro h
  obtain ⟨⟨hband, hbound⟩, hinner, hcost, hfunds⟩ := nestedInner_minting
  have hmake : make nestedPool (-60) 60 nestedMinted.liquidity = .ok nestedMinted :=
    make_eq_ok_iff.mpr ⟨by decide, by decide, by decide, by decide, rfl, rfl, rfl, rfl⟩
  have hcovers := h _ _ _ _ _ _ _ hbound hinner ((ofAmounts_eq hmake hfunds).trans hmake) hband
  have hwithin := hcovers (pow2 96) nestedMinted (by decide) (by decide) ⟨rfl, rfl, rfl, rfl⟩
  exact absurd (hwithin.le hcost).1 (by decide)

end Position

end Clamm
