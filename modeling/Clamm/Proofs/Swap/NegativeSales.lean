import Mathlib
import Clamm.Proofs.Swap.Requotes

/-!
# Selling less than nothing

Amounts of a token can be negative, as differences are, and an order fixes its input or its output
by the sign of its amount alone. So a sale of a negative amount is not refused: it fixes the output,
and is a purchase of as much of the other token. Whoever sells less than nothing receives, and is
not told what that costs.

A purchase is refused unless it is delivered in full, and a negative sale is not: at its limit it
receives what there is up to it.

* `Pool.Reaches.gained_lt`: what a swap receives stays within 255 bits, so every output that a
  negative sale gives can be asked for.
* `negative_sale_buys`: a negative sale against the purchase of as much.
* `exists_negative_sale_gain`: a negative sale that receives.
-/

namespace Clamm

/-! ## What a swap receives -/

section Gained

variable {pool : Pool} {o : Order} {s s' : Progress} {d : Direction} {amount : ℤ}
  {limit : Option ℕ} {r : SwapOutcome} {n : ℕ}

/-- An advance receives at most 192 bits. -/
theorem Trading.gained_le (hadv : pool.ticks.Advances pool.spacing) (ho : o.Inside)
    (ha : IsInt256 o.amount) (hs : Trading o s) (h : pool.advance o s = .ok s') :
    o.gained s' ≤ o.gained s + pow2 192 := by
  obtain ⟨next, flag, taken, h⟩ := Pool.advance_eq_ok h
  have hspan := spans_stopTick hadv hs.underway.accepted.tick_mem h.search
  obtain ⟨taken', htaken, -, hout, -⟩ := hs.exists_step ho ha hspan (stopTick_mem next) pool.fee_lt
  obtain rfl : taken = taken' := Except.ok.inj (h.trade.symm.trans htaken)
  have hgained := h.gained_eq
  omega

theorem Pool.Reaches.gained_le (hadv : pool.ticks.Advances pool.spacing)
    (ha : IsInt256 o.amount) (hlimit : o.checkLimit pool.state.sqrtPrice = .ok ())
    (h : pool.Reaches o n s) : o.gained s ≤ n * pow2 192 := by
  induction h with
  | start => simp [(Order.accounts_start pool o).2]
  | advance hreach _ hstep ih =>
    have hmore := (hreach.trading hadv hlimit).gained_le hadv
      (Pool.checkLimit_eq_ok pool.accepted hlimit).1 ha hstep
    push_cast
    linarith

/-- What a swap receives stays within 255 bits: there are no more advances than ticks. -/
theorem Pool.Reaches.gained_lt (hadv : pool.ticks.Advances pool.spacing)
    (ha : IsInt256 o.amount) (hlimit : o.checkLimit pool.state.sqrtPrice = .ok ())
    (h : pool.Reaches o n s) : o.gained s < pow2 255 := by
  have hn : (n : ℤ) ≤ pow2 21 :=
    (h.le_ticks hadv ha hlimit).trans (show maxTick - minTick + 1 ≤ (pow2 21 : ℤ) by decide)
  calc o.gained s ≤ n * pow2 192 := h.gained_le hadv ha hlimit
    _ ≤ pow2 21 * pow2 192 := Int.mul_le_mul_of_nonneg_right hn (Int.natCast_nonneg _)
    _ < pow2 255 := by decide

/-- Both amounts of a swap can be ordered again. -/
theorem Pool.swap_amounts_fit (hadv : pool.ticks.Advances pool.spacing) (ha : IsInt256 amount)
    (h : pool.swap d amount limit = .ok r) :
    IsInt256 (r.paid d) ∧ 0 ≤ r.received d ∧ IsInt256 (r.received d) := by
  obtain ⟨o, n, e, rfl, hlimit, hreach, -, rfl⟩ := Pool.swap_reaches hadv ha h
  have hnonneg := (hreach.booked hadv ha hlimit).received_nonneg
  exact ⟨(hreach.fits hadv ha hlimit).spent, hnonneg, by dsimp only at hnonneg; omega,
    hreach.gained_lt hadv ha hlimit⟩

/-- An output order receives at most what it asks for, and all of it unless it meets its limit. -/
theorem Pool.swap_output (hadv : pool.ticks.Advances pool.spacing) (ha : IsInt256 amount)
    (hneg : amount < 0) (h : pool.swap d amount limit = .ok r) :
    r.received d ≤ -amount ∧
      (r.state.sqrtPrice ≠ limit.getD (Order.defaultLimit d) → r.received d = -amount) := by
  obtain ⟨o, n, e, rfl, hlimit, hreach, hfin, rfl⟩ := Pool.swap_reaches hadv ha h
  have hmem := Set.mem_uIcc.mp (hreach.trading hadv hlimit).remaining_mem
  have hreceived := (settle_output (o := ⟨d, amount, limit.getD (Order.defaultLimit d)⟩) (s := e)
    (fixesInput_eq_false_iff.mpr hneg)).2
  have hends := Pool.finished_eq_true_iff.mp hfin
  dsimp only at hmem hreceived hends
  rw [Pool.settle_state, hreceived]
  exact ⟨by omega, fun hshort => by rw [hends.resolve_right hshort, zero_sub]⟩

/-- Where no crossing fails, an order with a limit ahead of the price is a swap. -/
theorem Pool.Complete.exists_swap {ticks : List Tick} (hc : pool.Complete ticks)
    (ha : IsInt256 amount)
    (hallows : d.Allows pool.state.sqrtPrice (limit.getD (Order.defaultLimit d))) :
    ∃ r, pool.swap d amount limit = .ok r := by
  have hlimit := Direction.Allows.checkLimit
    (o := ⟨d, amount, limit.getD (Order.defaultLimit d)⟩) hallows
  obtain ⟨e, hrun⟩ := hc.exists_run ha hlimit
  refine ⟨Order.settle ⟨d, amount, limit.getD (Order.defaultLimit d)⟩ e, ?_⟩
  simp only [Pool.swap, hlimit, ok_bind, hrun]
  rfl

end Gained

/-! ## Quotes -/

section Quotes

variable {pool : Pool} {x : Amount} {limit : Option ℕ} {r : SwapOutcome} {units : ℤ}

theorem IsInt256.le_max (h : IsInt256 units) : units ≤ maxUInt256 :=
  h.2.le.trans (show (pow2 255 : ℤ) ≤ maxUInt256 by decide)

/-- **Every sale that can be swapped is quoted.** -/
theorem Pool.exists_outputFor (hadv : pool.ticks.Advances pool.spacing)
    (hinv : pool.involves x.token = true) (hint : IsInt256 x.quotient)
    (h : pool.swap (pool.selling x.token) x.quotient limit = .ok r) :
    ∃ y next, pool.outputFor x limit = .ok (y, next) := by
  obtain ⟨-, -, hreceived⟩ := swap_amounts_fit hadv hint h
  obtain ⟨y, hy⟩ := Amount.exists_ofInt (pool.bought (pool.selling x.token)) hreceived.le_max
  exact ⟨y, _, outputFor_eq_ok_iff.mpr
    ⟨hinv, hint, r, h, hy, moveTo_eq_ok_iff.mpr ⟨(swap_underway hadv h).1, rfl⟩⟩⟩

/-- **A negative sale is a purchase.** Over any list and any table of ticks, for a negative amount
of either token and any limit: a sale that succeeds receives between nothing and as much of the
other token as was sold below zero, and all of that unless the price met the limit. It receives all
of it exactly if the purchase of that much succeeds, and both leave the same pool. No negative
amount within 256 bits is refused: where no crossing fails, every one has a quote. -/
theorem negative_sale_buys
    (hsource : (∃ l : TickList, pool.ticks = l.source) ∨ ∃ b : TickBitmap, pool.ticks = b.source)
    (hinv : pool.involves x.token = true) (hx : x.quotient < 0) :
    (∀ y next, pool.outputFor x limit = .ok (y, next) →
      y.token = pool.bought (pool.selling x.token) ∧
        (0 ≤ y.quotient ∧ y.quotient ≤ -x.quotient) ∧
        (next.state.sqrtPrice ≠ limit.getD (Order.defaultLimit (pool.selling x.token)) →
          y.quotient = -x.quotient)) ∧
      (∀ z : Amount, (z.token == pool.bought (pool.selling x.token)) = true →
        z.quotient = -x.quotient → ∀ next, (∃ c, pool.inputFor z limit = .ok (c, next)) ↔
          ∃ y, pool.outputFor x limit = .ok (y, next) ∧ y.quotient = z.quotient) ∧
      ∀ ticks, pool.Complete ticks → IsInt256 x.quotient →
        (pool.selling x.token).Allows pool.state.sqrtPrice
          (limit.getD (Order.defaultLimit (pool.selling x.token))) →
        ∃ y next, pool.outputFor x limit = .ok (y, next) := by
  have hadv : pool.ticks.Advances pool.spacing := advances_of_list_or_bitmap hsource
  refine ⟨?_, ?_, ?_⟩
  · intro y next h
    obtain ⟨-, hint, r, hswap, hy, hmove⟩ := Pool.outputFor_eq_ok_iff.mp h
    obtain ⟨-, hnonneg, -⟩ := Pool.swap_amounts_fit hadv hint hswap
    obtain ⟨hmost, hall⟩ := Pool.swap_output hadv hint hx hswap
    obtain ⟨htoken, hquot⟩ := Amount.ofInt_eq_ok hy
    obtain ⟨hacc, rfl⟩ := Pool.moveTo_eq_ok_iff.mp hmove
    rw [hquot]
    exact ⟨htoken, ⟨hnonneg, hmost⟩, hall⟩
  · intro z hz hzx next
    -- both are swaps of one and the same order
    have hback : -z.quotient = x.quotient := by rw [hzx, neg_neg]
    simp only [Pool.inputFor_eq_ok_iff, Pool.outputFor_eq_ok_iff, Pool.buying_of_beq hz, hback]
    constructor
    · rintro ⟨c, -, hint, r, hswap, hfull, -, hmove⟩
      obtain ⟨y, hy⟩ := Amount.exists_ofInt (pool.bought (pool.selling x.token)) hint.le_max
      exact ⟨y, ⟨hinv, hback ▸ hint.neg (by omega), r, hswap, hfull ▸ hy, hmove⟩,
        (Amount.ofInt_eq_ok hy).2⟩
    · rintro ⟨y, ⟨-, hint, r, hswap, hy, hmove⟩, hfull⟩
      obtain ⟨hpaid, -, hreceived⟩ := Pool.swap_amounts_fit hadv hint hswap
      have heq : r.received (pool.selling x.token) = z.quotient :=
        (Amount.ofInt_eq_ok hy).2.symm.trans hfull
      obtain ⟨c, hc⟩ := Amount.exists_ofInt (pool.sold (pool.selling x.token)) hpaid.le_max
      exact ⟨c, Pool.involves_of_beq hz, heq ▸ hreceived, r, hswap, heq, hc, hmove⟩
  · intro ticks hcomplete hint hallows
    obtain ⟨r, hswap⟩ := hcomplete.exists_swap hint hallows
    exact Pool.exists_outputFor hadv hinv hint hswap

theorem nestedPool_reversed :
    (⟨79122524964245318476752558402, 1500000, -27⟩ : PoolState).Accepted :=
  ⟨by decide, by unfold PoolState.InTick ratioAt; decide, by decide⟩

/-- Selling 2000 of token 0 below zero receives 2000 of token 1. -/
theorem nestedPool_negative_sale :
    nestedPool.outputFor ⟨nestedPool.token0, .ofInt (-2000), by decide⟩ none =
      .ok (⟨nestedPool.token1, .ofInt 2000, by decide⟩,
        nestedPool.withState _ nestedPool_reversed) :=
  Pool.outputFor_eq_ok_iff.mpr ⟨by decide, by decide,
    ⟨2010, -2000, ⟨79122524964245318476752558402, 1500000, -27⟩, 7⟩, by decide +kernel, rfl,
    Pool.moveTo_eq_ok_iff.mpr ⟨nestedPool_reversed, rfl⟩⟩

/-- The 2000 of token 1 are bought, and leave the pool that the negative sale leaves. -/
theorem negative_sale_buys_nested :
    ((∃ l : TickList, nestedPool.ticks = l.source) ∨
      ∃ b : TickBitmap, nestedPool.ticks = b.source) ∧
      ∃ x y z next, nestedPool.involves x.token = true ∧ x.quotient = -2000 ∧ x.quotient < 0 ∧
        nestedPool.outputFor x none = .ok (y, next) ∧ y.quotient = 2000 ∧
        y.quotient ≤ -x.quotient ∧ z.quotient = 2000 ∧
        ∃ c, nestedPool.inputFor z none = .ok (c, next) := by
  have hsource : (∃ l : TickList, nestedPool.ticks = l.source) ∨
      ∃ b : TickBitmap, nestedPool.ticks = b.source := Or.inl ⟨nestedTicks, rfl⟩
  have hx : (⟨nestedPool.token0, .ofInt (-2000), by decide⟩ : Amount).quotient < 0 := by decide
  have hinv : nestedPool.involves nestedPool.token0 = true := by decide
  have hmost := ((negative_sale_buys hsource hinv hx).1 _ _ nestedPool_negative_sale).2.1.2
  exact ⟨hsource, _, _, ⟨nestedPool.token1, .ofInt 2000, by decide⟩, _, hinv, rfl, hx,
    nestedPool_negative_sale, rfl, hmost, rfl,
    ((negative_sale_buys hsource hinv hx).2.1 _ (by decide) rfl _).mpr
      ⟨_, nestedPool_negative_sale, rfl⟩⟩

/-- **A sale of a negative amount can receive tokens**, over a list of ticks in strict order. -/
theorem exists_negative_sale_gain :
    ¬ ∀ (pool : Pool) (l : TickList) (x y : Amount) (next : Pool), pool.ticks = l.source →
      (l.ticks.Pairwise fun a b => a.index < b.index) → pool.involves x.token = true →
      x.quotient < 0 → pool.outputFor x none = .ok (y, next) → y.quotient ≤ 0 := by
  intro h
  exact absurd (h nestedPool nestedTicks _ _ _ rfl (by decide) (by decide) (by decide)
    nestedPool_negative_sale) (by decide)

end Quotes

end Clamm
