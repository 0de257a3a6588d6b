import Mathlib
import Clamm.Proofs.Swap.Reserves

/-!
# No sequence of swaps is a free lunch

Every step of a swap is paid at least what it adds to the reserves of the pool, in any valuation of
token 0 (`Pool.Crosses.surplus_le`), so a session pays at least what the reserves have gained
(`Pool.Crosses.session_pays`). Valued at the price the session started from they cannot have lost,
since the session moved the price through liquid ticks only (`reserves_le`). A session that took
something out of the pool for nothing would have paid less than nothing in that valuation.

The reserves are those of the ticks that swaps of the pool cross, with the excess that the pool has
beyond them, which no swap changes. So the law needs neither that every stored tick is flagged nor
that the pool has the liquidity of its ticks.

* `Pool.Crosses.no_loss`: the pool never loses in one token without gaining in the other.
* `no_free_lunch`: this for every session, and that no round trip returns more than went in.
-/

namespace Clamm

/-- What the trader pays in a swap of the given direction. -/
def SwapOutcome.paid (r : SwapOutcome) : Direction → ℤ
  | .down => r.amount0
  | .up => r.amount1

/-- What the trader receives in a swap of the given direction. -/
def SwapOutcome.received (r : SwapOutcome) : Direction → ℤ
  | .down => -r.amount1
  | .up => -r.amount0

/-- The sum of the amounts of token 0 over a session. -/
def total0 (rs : List SwapOutcome) : ℤ := (rs.map SwapOutcome.amount0).sum

/-- The sum of the amounts of token 1 over a session. -/
def total1 (rs : List SwapOutcome) : ℤ := (rs.map SwapOutcome.amount1).sum

/-- What a swap on its way has paid beyond what the reserves are worth. -/
def surplus (c : ℚ) (base : ℤ) (ticks : List Tick) (o : Order) (s : Progress) : ℚ :=
  payment c (o.settle s).amount0 (o.settle s).amount1 - reserves c base ticks s.state.sqrtPrice

theorem payment_add (c : ℚ) (a b a' b' : ℤ) :
    payment c (a + a') (b + b') = payment c a b + payment c a' b' := by
  unfold payment
  push_cast
  ring

/-! ## The books of a swap -/

section Books

variable {o : Order} {s s' : Progress} {i w : ℤ}

theorem settle_start (pool : Pool) (o : Order) :
    (o.settle (pool.start o)).amount0 = 0 ∧ (o.settle (pool.start o)).amount1 = 0 := by
  unfold Order.settle Pool.start
  dsimp only
  split <;> simp

/-- Booking a step adds its signed amounts to those of the swap. -/
theorem settle_book (h : (s'.remaining, s'.other) = o.book s i w) :
    (o.settle s').amount0 = (o.settle s).amount0 + (o.direction.signed i w).1 ∧
      (o.settle s').amount1 = (o.settle s).amount1 + (o.direction.signed i w).2 := by
  obtain ⟨d, amount, limit⟩ := o
  unfold Order.book at h
  unfold Order.settle
  dsimp only at h ⊢
  cases hfix : fixesInput amount
  · rw [hfix] at h
    obtain ⟨h1, h2⟩ := Prod.mk.inj h
    cases d <;> simp [Direction.signed, h1, h2] <;> omega
  · rw [hfix] at h
    obtain ⟨h1, h2⟩ := Prod.mk.inj h
    cases d <;> simp [Direction.signed, h1, h2] <;> omega

/-- An input order pays what it has used, and receives what the other side has come to. -/
theorem settle_input (hfix : fixesInput o.amount = true) :
    (o.settle s).paid o.direction = o.amount - s.remaining ∧
      (o.settle s).received o.direction = -s.other := by
  obtain ⟨d, amount, limit⟩ := o
  unfold Order.settle
  dsimp only at hfix ⊢
  rw [hfix]
  cases d with
  | down => exact ⟨rfl, rfl⟩
  | up => exact ⟨rfl, rfl⟩

end Books

/-! ## One swap -/

section Swap

variable {pool last next : Pool} {ticks : List Tick} {numbers : List ℤ} {d : Direction}
  {amount : ℤ} {limit limit' : Option ℕ} {r r' : SwapOutcome} {rs : List SwapOutcome} {o : Order}
  {s s' : Progress} {c : ℚ}

theorem PoolState.liquidity_eq (p : PoolState) (ticks : List Tick) :
    p.excess ticks + netAtOrBelow ticks p.tick = p.liquidity := sub_add_cancel _ _

/-- **The surplus of a swap never falls.** -/
theorem Pool.Crosses.surplus_le (hx : pool.Crosses ticks)
    (hrange : ∀ t ∈ ticks, minTick ≤ t.index ∧ t.index ≤ maxTick) (hc : 0 ≤ c) (ho : o.Inside)
    (hu : Underway o s.state) (h : pool.advance o s = .ok s') :
    surplus c (s.state.excess ticks) ticks o s ≤ surplus c (s.state.excess ticks) ticks o s' := by
  obtain ⟨next, flag, taken, h, hsound, hprice, hstride, hclear, -⟩ := hx.stride ho hu h
  obtain ⟨⟨ha1, ha2⟩, hb1, hb2⟩ := hstride.spans
  have hp := hu.accepted.pos
  have hq : 0 < s'.state.sqrtPrice := (hstride.accepted hu.accepted).pos
  have hnet : s.state.excess ticks +
      netAtOrBelow ticks (o.direction.lower s.state.tick (stopTick next)) =
        s.state.liquidity := by
    rw [← hclear.netAtOrBelow_eq ha2 hb1, PoolState.liquidity_eq]
  have hreserves : reserves c (s.state.excess ticks) ticks s'.state.sqrtPrice -
      reserves c (s.state.excess ticks) ticks s.state.sqrtPrice = _ :=
    reserves_sub hclear hrange ⟨ha1, by omega⟩ ⟨by omega, hb2⟩ hstride.start hstride.arrival
  have hpays := worth_le_payment hc hp (hprice ▸ hq) hsound.leaves
    (hsound.covers.mono (Nat.le_add_right _ taken.fee)) hsound.yields
  obtain ⟨h0, h1⟩ := settle_book h.book
  unfold surplus
  rw [h0, h1, payment_add]
  rw [hnet, hprice] at hreserves
  rw [hprice]
  push_cast at hpays hreserves
  linarith

/-- The ticks that an advance moves past have the liquidity of one of its two ends. -/
theorem Stride.eq_or_mem {s s' : PoolState} {stop i : ℤ} {flag : Bool}
    (h : Stride pool d s s' stop flag) (hi : i ∈ Set.uIcc s.tick s'.tick) :
    i = s'.tick ∨ (d.lower s.tick stop ≤ i ∧ i < d.upper s.tick stop) := by
  obtain ⟨⟨-, h1⟩, h2, -⟩ := h.spans
  rcases h.landing with ⟨-, -, hcross⟩ | hsame | ⟨-, -, h3, h4⟩
  · rw [Set.mem_uIcc, hcross.tick] at hi
    rw [hcross.tick]
    cases d with
    | down =>
      simp only [Direction.lower, Direction.upper, tickBeyond] at *
      omega
    | up =>
      simp only [Direction.lower, Direction.upper, tickBeyond] at *
      omega
  · rw [hsame, Set.uIcc_self] at hi
    exact Or.inl (hsame ▸ hi)
  · rw [Set.mem_uIcc] at hi
    omega

theorem Pool.Crosses.liquid (hx : pool.Crosses ticks) (ho : o.Inside) (hu : Underway o s.state)
    (h : pool.advance o s = .ok s') :
    Liquid (s.state.excess ticks) ticks s.state.tick s'.state.tick := by
  have hexcess := hx.excess_advance ho hu h
  obtain ⟨next, flag, taken, -, -, -, hstride, hclear, -⟩ := hx.stride ho hu h
  intro i hi
  rcases hstride.eq_or_mem hi with rfl | ⟨h1, h2⟩
  · rw [← hexcess, PoolState.liquidity_eq]
    exact Int.natCast_nonneg _
  · rw [hstride.spans.netAtOrBelow_eq hclear h1 h2, PoolState.liquidity_eq]
    exact Int.natCast_nonneg _

/-- A swap that has not moved has passed its own tick only. -/
theorem PoolState.liquid_self (p : PoolState) (ticks : List Tick) :
    Liquid (p.excess ticks) ticks p.tick p.tick := by
  intro i hi
  rw [Set.uIcc_self] at hi
  rw [hi, PoolState.liquidity_eq]
  exact Int.natCast_nonneg _

/-- **A swap pays at least what it adds to the reserves, and passes liquid ticks only.** -/
theorem Pool.Crosses.swap_pays (hx : pool.Crosses ticks)
    (hrange : ∀ t ∈ ticks, minTick ≤ t.index ∧ t.index ≤ maxTick) (hc : 0 ≤ c)
    (h : pool.swap d amount limit = .ok r) :
    reserves c (pool.state.excess ticks) ticks r.state.sqrtPrice -
        reserves c (pool.state.excess ticks) ticks pool.state.sqrtPrice ≤
        payment c r.amount0 r.amount1 ∧
      Liquid (pool.state.excess ticks) ticks pool.state.tick r.state.tick := by
  obtain ⟨o, e, -, hlimit, hrun, rfl⟩ := Pool.swap_eq_ok h
  have hin := (Pool.checkLimit_eq_ok pool.accepted hlimit).1
  generalize hbase : pool.state.excess ticks = base
  have hstep : ∀ s s', Underway o s.state → s.state.excess ticks = pool.state.excess ticks →
      surplus c base ticks o (pool.start o) ≤ surplus c base ticks o s ∧
        Liquid base ticks pool.state.tick s.state.tick →
      pool.advance o s = .ok s' →
      surplus c base ticks o (pool.start o) ≤ surplus c base ticks o s' ∧
        Liquid base ticks pool.state.tick s'.state.tick := by
    rintro s s' hu hexcess ⟨hsurplus, hnet⟩ h
    obtain rfl : s.state.excess ticks = base := hexcess.trans hbase
    exact ⟨hsurplus.trans (hx.surplus_le hrange hc hin hu h), hnet.trans (hx.liquid hin hu h)⟩
  obtain ⟨-, hsurplus, hnet⟩ :=
    hx.run_induction hlimit hstep ⟨le_refl _, hbase ▸ pool.state.liquid_self ticks⟩ hrun
  obtain ⟨h0, h1⟩ := settle_start pool o
  unfold surplus at hsurplus
  rw [h0, h1] at hsurplus
  rw [Pool.settle_state]
  refine ⟨?_, hnet⟩
  simp only [payment, Pool.start, Int.cast_zero, zero_mul, add_zero, zero_sub] at hsurplus ⊢
  linarith

/-- An input order pays at most its amount, and receives a non-negative one. -/
theorem Pool.swap_input (hadv : pool.ticks.Advances pool.spacing) (hamount : 0 ≤ amount)
    (h : pool.swap d amount limit = .ok r) : r.paid d ≤ amount ∧ 0 ≤ r.received d := by
  obtain ⟨o, e, ho, hlimit, hrun, rfl⟩ := Pool.swap_eq_ok h
  obtain ⟨hin, hbefore⟩ := Pool.checkLimit_eq_ok pool.accepted hlimit
  have hfix : fixesInput o.amount = true := ho ▸ decide_eq_true hamount
  have hstep : ∀ s s', Underway o s.state ∧ 0 ≤ s.remaining ∧ s.other ≤ 0 →
      Pool.finished o s = false → pool.advance o s = .ok s' →
      Underway o s'.state ∧ 0 ≤ s'.remaining ∧ s'.other ≤ 0 := by
    rintro s s' ⟨hu, hrem, hother⟩ - h
    refine ⟨(hu.advance hadv hin h).1, ?_⟩
    obtain ⟨next, flag, taken, h⟩ := Pool.advance_eq_ok h
    obtain ⟨hsound, -, -⟩ := hu.stride hadv hin h
    have hle := hsound.input_le (decide_eq_true hrem)
    have hbook := h.book
    simp only [Order.book, hfix, if_true, Prod.mk.injEq] at hbook
    omega
  obtain ⟨-, hrem, hother⟩ :=
    Pool.run_induction hstep ⟨⟨pool.accepted, hbefore⟩, ho ▸ hamount, le_refl _⟩ hrun
  obtain ⟨hpaid, hreceived⟩ := settle_input (s := e) hfix
  subst ho
  rw [hpaid, hreceived]
  dsimp only
  omega

/-! ## Sessions -/

theorem Pool.Crosses.session_pays (hx : pool.Crosses ticks)
    (hrange : ∀ t ∈ ticks, minTick ≤ t.index ∧ t.index ≤ maxTick) (hc : 0 ≤ c)
    (h : pool.Session rs last) :
    reserves c (pool.state.excess ticks) ticks last.state.sqrtPrice -
        reserves c (pool.state.excess ticks) ticks pool.state.sqrtPrice ≤
        payment c (total0 rs) (total1 rs) ∧
      Liquid (pool.state.excess ticks) ticks pool.state.tick last.state.tick := by
  induction h with
  | nil pool =>
    exact ⟨by simp [payment, total0, total1], pool.state.liquid_self ticks⟩
  | @cons pool next last d amount limit r rs hswap hmove _ ih =>
    obtain ⟨hpays, hnet⟩ := hx.swap_pays hrange hc hswap
    have hexcess := hx.excess_swap hswap
    obtain ⟨hpays', hnet'⟩ := ih (hx.moveTo hmove)
    obtain ⟨hs, rfl⟩ := Pool.moveTo_eq_ok_iff.mp hmove
    simp only [Pool.withState, hexcess] at hpays' hnet'
    refine ⟨?_, hnet.trans hnet'⟩
    simp only [total0, total1, List.map_cons, List.sum_cons, payment_add] at hpays' ⊢
    linarith

/-- **The pool never loses in one token without gaining in the other.** -/
theorem Pool.Crosses.no_loss (hx : pool.Crosses ticks)
    (hrange : ∀ t ∈ ticks, minTick ≤ t.index ∧ t.index ≤ maxTick) (h : pool.Session rs last) :
    ¬ (total0 rs ≤ 0 ∧ total1 rs ≤ 0 ∧ (total0 rs < 0 ∨ total1 rs < 0)) := by
  have hp : (0 : ℚ) < pool.state.sqrtPrice := by exact_mod_cast pool.price_pos
  have hc : (0 : ℚ) < pool.state.sqrtPrice * pool.state.sqrtPrice := mul_pos hp hp
  obtain ⟨hpays, hnet⟩ := hx.session_pays hrange hc.le h
  have hgain := reserves_le hrange ⟨pool.tick_mem, pool.price_mem⟩
    ⟨last.tick_mem, last.price_mem⟩ hnet
  have hvalue : (0 : ℚ) < pool.state.sqrtPrice * pool.state.sqrtPrice / 2 ^ 96 :=
    div_pos hc (by positivity)
  have hpay := (sub_nonneg.mpr hgain).trans hpays
  unfold payment at hpay
  rintro ⟨h0, h1, hlt⟩
  have h0' : (total0 rs : ℚ) ≤ 0 := by exact_mod_cast h0
  have h1' : (total1 rs : ℚ) ≤ 0 := by exact_mod_cast h1
  rcases hlt with hlt | hlt
  · have hlt' : (total0 rs : ℚ) < 0 := by exact_mod_cast hlt
    have := mul_neg_of_neg_of_pos hlt' hvalue
    linarith
  · have hlt' : (total1 rs : ℚ) < 0 := by exact_mod_cast hlt
    have := mul_nonpos_of_nonpos_of_nonneg h0' hvalue.le
    linarith

/-- Selling, and then selling back what was received, returns at most what was sold. -/
theorem Pool.Crosses.round_trip (hx : pool.Crosses ticks)
    (hrange : ∀ t ∈ ticks, minTick ≤ t.index ∧ t.index ≤ maxTick) (hamount : 0 ≤ amount)
    (h : pool.swap d amount limit = .ok r) (hmove : pool.moveTo r.state = .ok next)
    (h' : next.swap d.opposite (r.received d) limit' = .ok r') :
    r'.received d.opposite ≤ amount := by
  have hx' := hx.moveTo hmove
  obtain ⟨hpaid, hreceived⟩ := pool.swap_input hx.advances hamount h
  obtain ⟨hpaid', -⟩ := next.swap_input hx'.advances hreceived h'
  obtain ⟨hacc, -, -⟩ := next.swap_underway hx'.advances h'
  have hloss := hx.no_loss hrange
    (.cons h hmove (.cons h' (Pool.moveTo_eq_ok_iff.mpr ⟨hacc, rfl⟩) (.nil _)))
  simp only [total0, total1, List.map_cons, List.map_nil, List.sum_cons, List.sum_nil] at hloss
  cases d with
  | down =>
    simp only [SwapOutcome.paid, SwapOutcome.received, Direction.opposite] at *
    omega
  | up =>
    simp only [SwapOutcome.paid, SwapOutcome.received, Direction.opposite] at *
    omega

/-- **There is no free lunch.** Over any list or table that the operations build, whose ticks are on
the grid of the pool, and whatever liquidity the pool starts with: no session takes something out of
the pool in one token and puts nothing in in the other; and on every pool that a session leads to,
selling an amount and then selling back what was received returns at most the amount. -/
theorem no_free_lunch (hholds : pool.ticks.Holds ticks numbers) (hgrid : OnGrid pool.spacing ticks)
    (hsession : pool.Session rs last) :
    ¬ (total0 rs ≤ 0 ∧ total1 rs ≤ 0 ∧ (total0 rs < 0 ∨ total1 rs < 0)) ∧
      ∀ d amount limit r next limit' r', 0 ≤ amount → last.swap d amount limit = .ok r →
        last.moveTo r.state = .ok next →
        next.swap d.opposite (r.received d) limit' = .ok r' → r'.received d.opposite ≤ amount := by
  obtain ⟨met, hmet, hmeets⟩ := hholds.exists_meets pool.spacing
  have hx : pool.Crosses met := ⟨hholds.advances _, hmeets, hgrid.distinct.sublist hmet⟩
  have hrange : ∀ t ∈ met, minTick ≤ t.index ∧ t.index ≤ maxTick := fun t ht =>
    hgrid.mem_range t (hmet.subset ht)
  refine ⟨hx.no_loss hrange hsession, ?_⟩
  intro d amount limit r next limit' r' hamount h hmove h'
  exact (hx.session hsession).1.round_trip hrange hamount h hmove h'

end Swap

theorem nestedPool_outer : (⟨78953298129055874447463142322, 1000000, -70⟩ : PoolState).Accepted :=
  ⟨by decide, by unfold PoolState.InTick ratioAt; decide, by decide⟩

theorem nestedPool_inner : (⟨79227262881972095934987510833, 1500000, -1⟩ : PoolState).Accepted :=
  ⟨by decide, by unfold PoolState.InTick ratioAt; decide, by decide⟩

/-- Out of the inner position and back into it: the trader is left without 35 of token 0. -/
theorem no_free_lunch_nested :
    nestedPool.ticks.Holds nestedTicks.ticks [] ∧ OnGrid nestedPool.spacing nestedTicks.ticks ∧
      ∃ rs last, nestedPool.Session rs last ∧ total0 rs = 35 ∧ total1 rs = 0 ∧
        ¬ (total0 rs ≤ 0 ∧ total1 rs ≤ 0 ∧ (total0 rs < 0 ∨ total1 rs < 0)) :=
  have hout : nestedPool.swap .down 5000 none =
      .ok ⟨5000, -4966, ⟨78953298129055874447463142322, 1000000, -70⟩, 16⟩ := by decide +kernel
  have hback : (nestedPool.withState _ nestedPool_outer).swap .up 4966 none =
      .ok ⟨-4965, 4966, ⟨79227262881972095934987510833, 1500000, -1⟩, 16⟩ := by decide +kernel
  have hsession : nestedPool.Session _ _ :=
    .cons hout (Pool.moveTo_eq_ok_iff.mpr ⟨nestedPool_outer, rfl⟩)
      (.cons hback (Pool.moveTo_eq_ok_iff.mpr ⟨nestedPool_inner, rfl⟩) (.nil _))
  ⟨.list nestedTicks, nestedTicks_onGrid, _, _, hsession, by decide, by decide,
    (no_free_lunch (.list nestedTicks) nestedTicks_onGrid hsession).1⟩

end Clamm
