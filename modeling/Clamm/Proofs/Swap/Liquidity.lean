import Mathlib
import Clamm.Proofs.Swap.Session

/-!
# The liquidity of a pool is that of its ticks

In range at tick `t` is the net liquidity of all ticks at or below `t`, `netAtOrBelow ticks t`. What
a pool has beyond that (`PoolState.excess`) stays what it is through every swap: a search passes none
of the ticks that searches meet, so the liquidity is constant over the ticks that an advance searches
(`Direction.Spans.netAtOrBelow_eq`), and a crossing changes it by what the tick is worth in that
direction (`crossed_eq_ok`).

* `Stride.excess_eq`: one advance keeps liquidity and tick in step.
* `Pool.Crosses.excess_swap`, `Pool.Crosses.session`: so do a swap and a session.
* `swap_keeps_liquidity`: a pool that starts with the liquidity of all of its ticks keeps it.
* `exists_liquidity_drift`: where the words of a table do not tell its ticks apart it need not.
-/

namespace Clamm

/-- The part of the liquidity in range that is not that of the ticks. -/
def PoolState.excess (s : PoolState) (ticks : List Tick) : ℤ :=
  s.liquidity - netAtOrBelow ticks s.tick

/-- The other direction. -/
def Direction.opposite : Direction → Direction
  | down => up
  | up => down

section

variable {pool : Pool} {ticks : List Tick} {d : Direction} {s s' : PoolState} {t : Tick}
  {tick next stop change : ℤ} {flag : Bool}

/-- Crossing a tick changes the liquidity from that of the tick on one side of its price to that of
the tick on the other side. -/
theorem crossed_eq_ok (hd : ticks.Pairwise fun a b => a.index ≠ b.index) (ht : t ∈ ticks)
    (h : t.crossed d = .ok change) :
    change = netAtOrBelow ticks (tickBeyond t.index d) -
      netAtOrBelow ticks (tickBeyond t.index d.opposite) := by
  have hstep := netAtOrBelow_index hd ht
  cases d with
  | down =>
    unfold Tick.crossed at h
    dsimp only at h
    split at h
    · cases h
    · cases h
      simp only [tickBeyond, Direction.opposite]
      omega
  | up =>
    cases h
    simp only [tickBeyond, Direction.opposite]
    omega

/-- Where no tick is stored both sides of a price have the same liquidity. -/
theorem netAtOrBelow_beyond (h : ∀ t ∈ ticks, t.index ≠ stop) (d : Direction) :
    netAtOrBelow ticks (tickBeyond stop d) = netAtOrBelow ticks (tickBeyond stop d.opposite) := by
  refine netAtOrBelow_congr fun t ht => ?_
  have := h t ht
  cases d with
  | down =>
    simp only [tickBeyond, Direction.opposite]
    omega
  | up =>
    simp only [tickBeyond, Direction.opposite]
    omega

/-- A search that passes no stored tick passes none up to where it is taken to stop. -/
theorem Clear.stopTick (hadv : pool.ticks.Advances pool.spacing)
    (ht : minTick ≤ tick ∧ tick < maxTick)
    (h : pool.ticks.next tick pool.spacing d = .ok (next, flag))
    (hc : Clear ticks (d.lower tick next) (d.upper tick next)) :
    Clear ticks (d.lower tick (stopTick next)) (d.upper tick (stopTick next)) := by
  intro t hmem
  have hnext := hadv tick d next flag h
  cases d with
  | down =>
    have := hc t hmem
    simp only [Direction.lower, Direction.upper, Clamm.stopTick] at *
    omega
  | up =>
    have := hc t hmem
    simp only [Direction.lower, Direction.upper, Clamm.stopTick] at *
    omega

/-- The liquidity is the same over all ticks of a search that passes no stored tick. -/
theorem Direction.Spans.netAtOrBelow_eq (h : d.Spans tick stop)
    (hc : Clear ticks (d.lower tick stop) (d.upper tick stop)) {i : ℤ}
    (h1 : d.lower tick stop ≤ i) (h2 : i < d.upper tick stop) :
    netAtOrBelow ticks i = netAtOrBelow ticks tick := by
  rw [hc.netAtOrBelow_eq h1 h2, hc.netAtOrBelow_eq h.1.2 h.2.1]

/-- A search reaches the price of its stop from the side that it searched. -/
theorem Direction.Spans.opposite_mem (h : d.Spans tick stop) :
    d.lower tick stop ≤ tickBeyond stop d.opposite ∧
      tickBeyond stop d.opposite < d.upper tick stop := by
  obtain ⟨⟨-, h1⟩, h2, -⟩ := h
  cases d with
  | down => exact ⟨le_refl _, Int.lt_add_one_iff.mpr h1⟩
  | up => exact ⟨Int.le_sub_one_of_lt h2, sub_one_lt stop⟩

/-- **An advance keeps the excess**: it changes the liquidity as the ticks do that it meets. -/
theorem Stride.excess_eq (h : Stride pool d s s' stop flag)
    (hd : ticks.Pairwise fun a b => a.index ≠ b.index)
    (hc : Clear ticks (d.lower s.tick stop) (d.upper s.tick stop))
    (htells : minTick < stop ∧ stop < maxTick → pool.ticks.Tells ticks stop flag) :
    s'.excess ticks = s.excess ticks := by
  unfold PoolState.excess
  rcases h.landing with ⟨-, hstop, hcross⟩ | hsame | ⟨hkept, -, h1, h2⟩
  · have hside := h.spans.netAtOrBelow_eq hc h.spans.opposite_mem.1 h.spans.opposite_mem.2
    have htold := htells hstop
    rw [hcross.tick]
    cases flag with
    | true =>
      obtain ⟨t, change, hfind, hchange, hadd⟩ := hcross.changed rfl
      obtain ⟨ht, rfl⟩ := htold t hfind
      rw [(addLiquidity_eq_ok hadd).1, crossed_eq_ok hd ht hchange]
      omega
    | false => rw [hcross.kept rfl, netAtOrBelow_beyond htold, hside]
  · rw [hsame]
  · rw [hkept, h.spans.netAtOrBelow_eq hc h1 h2]

/-- A search from the grid passes none of the ticks up to where it is taken to stop, and says which
of them is there if that is inside the grid. -/
theorem TickSource.Meets.search_clear (hm : pool.ticks.Meets pool.spacing ticks)
    (hadv : pool.ticks.Advances pool.spacing) (ht : minTick ≤ tick ∧ tick < maxTick)
    (h : pool.ticks.next tick pool.spacing d = .ok (next, flag)) :
    Clear ticks (d.lower tick (stopTick next)) (d.upper tick (stopTick next)) ∧
      (minTick < stopTick next ∧ stopTick next < maxTick →
        pool.ticks.Tells ticks (stopTick next) flag) := by
  refine ⟨Clear.stopTick hadv ht h (hm.clear _ _ _ _ ht h), fun ⟨h1, h2⟩ => ?_⟩
  rw [eq_of_stopTick h1 h2]
  exact hm.tells _ _ _ _ ht h

end

/-! ## Swaps -/

/-- These are the ticks that swaps of the pool cross: searches meet them, and no two are at the same
index. -/
structure Pool.Crosses (pool : Pool) (ticks : List Tick) : Prop where
  advances : pool.ticks.Advances pool.spacing
  meets : pool.ticks.Meets pool.spacing ticks
  distinct : ticks.Pairwise fun a b => a.index ≠ b.index

/-- The liquidity in range is that of the ticks that swaps of the pool cross. -/
structure Pool.Backed (pool : Pool) (ticks : List Tick) : Prop extends pool.Crosses ticks where
  liquidity : (pool.state.liquidity : ℤ) = netAtOrBelow ticks pool.state.tick

section

variable {pool last next : Pool} {ticks : List Tick} {numbers : List ℤ} {d : Direction} {amount : ℤ}
  {limit : Option ℕ} {r : SwapOutcome} {rs : List SwapOutcome} {o : Order} {s s' : Progress}

/-- An advance over ticks that it crosses: a sound step, within searched ticks with none of them
between. -/
theorem Pool.Crosses.stride (hc : pool.Crosses ticks) (ho : o.Inside) (hu : Underway o s.state)
    (h : pool.advance o s = .ok s') :
    ∃ next flag taken, pool.Advanced o s s' next flag taken ∧
      taken.Sound o.direction s.state.sqrtPrice (o.target (ratioAt (stopTick next)))
        s.state.liquidity s.remaining ∧
      s'.state.sqrtPrice = taken.next ∧
      Stride pool o.direction s.state s'.state (stopTick next) flag ∧
      Clear ticks (o.direction.lower s.state.tick (stopTick next))
        (o.direction.upper s.state.tick (stopTick next)) ∧
      (minTick < stopTick next ∧ stopTick next < maxTick →
        pool.ticks.Tells ticks (stopTick next) flag) := by
  obtain ⟨next, flag, taken, h⟩ := Pool.advance_eq_ok h
  obtain ⟨hsound, hprice, hstride⟩ := hu.stride hc.advances ho h
  obtain ⟨hclear, htells⟩ := hc.meets.search_clear hc.advances hu.accepted.tick_mem h.search
  exact ⟨next, flag, taken, h, hsound, hprice, hstride, hclear, htells⟩

theorem Pool.Crosses.excess_advance (hc : pool.Crosses ticks) (ho : o.Inside)
    (hu : Underway o s.state) (h : pool.advance o s = .ok s') :
    s'.state.excess ticks = s.state.excess ticks := by
  obtain ⟨next, flag, taken, -, -, -, hstride, hclear, htells⟩ := hc.stride ho hu h
  exact hstride.excess_eq hc.distinct hclear htells

/-- A swap stays underway, keeps the excess, and keeps whatever its advances keep under these
two. -/
theorem Pool.Crosses.run_induction (hc : pool.Crosses ticks) {P : Progress → Prop}
    (hlimit : o.checkLimit pool.state.sqrtPrice = .ok ())
    (hstep : ∀ s s', Underway o s.state → s.state.excess ticks = pool.state.excess ticks → P s →
      pool.advance o s = .ok s' → P s')
    (hs : P (pool.start o)) {e : Progress} (hrun : pool.run o maxSteps (pool.start o) = .ok e) :
    e.state.excess ticks = pool.state.excess ticks ∧ P e := by
  obtain ⟨hin, hbefore⟩ := Pool.checkLimit_eq_ok pool.accepted hlimit
  refine (Pool.run_induction (P := fun s => Underway o s.state ∧
    s.state.excess ticks = pool.state.excess ticks ∧ P s) ?_
    ⟨⟨pool.accepted, hbefore⟩, rfl, hs⟩ hrun).2
  rintro s s' ⟨hu, hexcess, hP⟩ - h
  exact ⟨(hu.advance hc.advances hin h).1, (hc.excess_advance hin hu h).trans hexcess,
    hstep s s' hu hexcess hP h⟩

/-- **A swap keeps the excess.** -/
theorem Pool.Crosses.excess_swap (hc : pool.Crosses ticks)
    (h : pool.swap d amount limit = .ok r) : r.state.excess ticks = pool.state.excess ticks := by
  obtain ⟨o, e, -, hlimit, hrun, rfl⟩ := Pool.swap_eq_ok h
  rw [Pool.settle_state]
  exact (hc.run_induction (P := fun _ => True) hlimit (fun _ _ _ _ _ _ => trivial) trivial hrun).1

theorem Pool.Crosses.of_eq {pool' : Pool} (hc : pool.Crosses ticks)
    (hticks : pool'.ticks = pool.ticks) (hspacing : pool'.spacing = pool.spacing) :
    pool'.Crosses ticks := by
  refine ⟨?_, ?_, hc.distinct⟩
  · rw [hticks, hspacing]
    exact hc.advances
  · rw [hticks, hspacing]
    exact hc.meets

theorem Pool.Crosses.moveTo {p : PoolState} (hc : pool.Crosses ticks)
    (hmove : pool.moveTo p = .ok next) : next.Crosses ticks := by
  obtain ⟨hs, rfl⟩ := Pool.moveTo_eq_ok_iff.mp hmove
  exact hc.of_eq rfl rfl

/-- **A session keeps the excess.** -/
theorem Pool.Crosses.session (hc : pool.Crosses ticks) (h : pool.Session rs last) :
    last.Crosses ticks ∧ last.state.excess ticks = pool.state.excess ticks := by
  induction h with
  | nil => exact ⟨hc, rfl⟩
  | cons hswap hmove _ ih =>
    obtain ⟨hlast, hexcess⟩ := ih (hc.moveTo hmove)
    obtain ⟨hs, rfl⟩ := Pool.moveTo_eq_ok_iff.mp hmove
    exact ⟨hlast, hexcess.trans (hc.excess_swap hswap)⟩

theorem Pool.Backed.advance (hb : pool.Backed ticks) (ho : o.Inside) (hu : Underway o s.state)
    (hs : (s.state.liquidity : ℤ) = netAtOrBelow ticks s.state.tick)
    (h : pool.advance o s = .ok s') :
    (s'.state.liquidity : ℤ) = netAtOrBelow ticks s'.state.tick :=
  sub_eq_zero.mp ((hb.excess_advance ho hu h).trans (sub_eq_zero.mpr hs))

/-- **The liquidity of a pool is that of its ticks, after every swap of every session**, if the
words of a table tell the ticks apart that came with them. Over a list, or over a table that the
operations built and whose loaded ticks have numbers within `[-2 ^ 23, 2 ^ 23)`, with ticks on the
grid of the pool: if the liquidity in range is the net liquidity of all ticks at or below the
current one at the start, it is so after each successful swap. -/
theorem swap_keeps_liquidity (hholds : pool.ticks.Holds ticks numbers)
    (hnum : ∀ n ∈ numbers, Numbered n) (hgrid : OnGrid pool.spacing ticks)
    (hstart : (pool.state.liquidity : ℤ) = netAtOrBelow ticks pool.state.tick)
    (hsession : pool.Session rs last) (h : last.swap d amount limit = .ok r) :
    (r.state.liquidity : ℤ) = netAtOrBelow ticks r.state.tick := by
  have hc : pool.Crosses ticks :=
    ⟨hholds.advances _, (hholds.faithful hnum hgrid).meets, hgrid.distinct⟩
  obtain ⟨hlast, hexcess⟩ := hc.session hsession
  exact sub_eq_zero.mp ((hlast.excess_swap h).trans (hexcess.trans (sub_eq_zero.mpr hstart)))

end

theorem nestedTicks_onGrid : OnGrid 60 nestedTicks.ticks :=
  ⟨by decide, by decide, by decide⟩

theorem pairTicks_onGrid : OnGrid 60 TickBitmap.pairTicks :=
  ⟨by decide, by decide, by decide⟩

theorem nestedPool_half : (⟨pow2 96, 500000, 0⟩ : PoolState).Accepted :=
  ⟨by decide, by unfold PoolState.InTick ratioAt; decide, by decide⟩

/-- A pool of one position at price 1, over a table. -/
def pairedPool : Pool :=
  { nestedPool.withState _ nestedPool_half with ticks := TickBitmap.paired.source }

/-- Once the position is left, the liquidity is that of no position. -/
theorem swap_keeps_liquidity_paired :
    pairedPool.ticks.Holds TickBitmap.pairTicks [-1, 1] ∧ (∀ n ∈ [-1, 1], Numbered n) ∧
      (pairedPool.state.liquidity : ℤ) =
        netAtOrBelow TickBitmap.pairTicks pairedPool.state.tick ∧
      ∃ r, pairedPool.swap .up 5000 none = .ok r ∧ r.state.liquidity = 0 ∧
        (r.state.liquidity : ℤ) = netAtOrBelow TickBitmap.pairTicks r.state.tick :=
  have hholds : pairedPool.ticks.Holds TickBitmap.pairTicks [-1, 1] :=
    TickBitmap.paired_tickList ▸ .bitmap TickBitmap.paired TickBitmap.paired_built
  have hstart : (pairedPool.state.liquidity : ℤ) =
      netAtOrBelow TickBitmap.pairTicks pairedPool.state.tick := by decide
  have h : pairedPool.swap .up 5000 none =
      .ok ⟨-1497, 1508, ⟨maxSqrtPrice - 1, 0, 887271⟩, 5⟩ := by decide +kernel
  ⟨hholds, TickBitmap.pairTicks_numbered, hstart, _, h, rfl,
    swap_keeps_liquidity hholds TickBitmap.pairTicks_numbered pairTicks_onGrid hstart
      (.nil pairedPool) h⟩

/-- The same pool over the table that lost the flag of 60. -/
def unflaggedPool : Pool := { pairedPool with ticks := TickBitmap.unflagged.source }

theorem unflaggedPool_holds :
    unflaggedPool.ticks.Holds TickBitmap.pairTicks [-1, 1, 16777217] :=
  TickBitmap.unflagged_tickList ▸ .bitmap TickBitmap.unflagged TickBitmap.unflagged_built

/-- **Over words that do not tell the loaded ticks apart the liquidity may drift.** The table holds
two ticks of the grid and a swap leads past one of them that is not flagged: it ends where no
liquidity is in range, with all of it. -/
theorem exists_liquidity_drift : ∃ (pool : Pool) (ticks : List Tick) (numbers : List ℤ)
    (r : SwapOutcome), pool.ticks.Holds ticks numbers ∧ pool.spacing < 2 ^ 22 ∧ OnGrid pool.spacing ticks ∧
      (pool.state.liquidity : ℤ) = netAtOrBelow ticks pool.state.tick ∧
      pool.swap .up 5000 none = .ok r ∧ r.state.tick = 198 ∧ r.state.liquidity = 500000 ∧
      netAtOrBelow ticks r.state.tick = 0 :=
  have h : unflaggedPool.swap .up 5000 none =
      .ok ⟨-4935, 5000, ⟨80018067294531553039351583520, 500000, 198⟩, 15⟩ := by decide +kernel
  ⟨unflaggedPool, _, _, _, unflaggedPool_holds, by decide, pairTicks_onGrid, by decide, h, rfl, rfl,
    by decide⟩

end Clamm
