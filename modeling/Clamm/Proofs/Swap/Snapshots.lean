import Mathlib
import Clamm.Proofs.Swap.Splitting

/-!
# The two snapshots of a price on a tick

A price that sits on a grid point belongs to the tick above it and to the one below it, with the
liquidity of either. A swap from the side that it heads for does nothing else than a swap from the
other side: if a search from there stops at the grid point, the first advance is a step of zero
length (`step_self`) that crosses it, and leads to the state on the side that the swap heads for; if
not, no tick is stored there, and both swaps advance alike from the start.

* `Pool.Poised`: on its way from the price of a grid point, on one side of it.
* `Pool.Poised.cross`: the advance of zero length; `Pool.Poised.together`: two alike advances.
* `Pool.Completes.same`: both sides come to the same end.
* `snapshots_agree`: the law for swaps.
* `exists_snapshots_differ`: where the words of a table do not tell its ticks apart it may fail.
-/

namespace Clamm

/-- Two swaps on their way have the same accounts and the same price. -/
structure Progress.Same (s u : Progress) : Prop where
  remaining : u.remaining = s.remaining
  other : u.other = s.other
  fees : u.fees = s.fees
  price : u.state.sqrtPrice = s.state.sqrtPrice

/-- A swap on its way that stands at the price of grid point `t`, at tick `i`, with the liquidity
that the ticks have there. -/
structure Pool.Poised (ticks : List Tick) (o : Order) (t i : ℤ) (s : Progress) : Prop where
  trading : Trading o s
  price : s.state.sqrtPrice = ratioAt t
  tick : s.state.tick = i
  liquidity : (s.state.liquidity : ℤ) = netAtOrBelow ticks s.state.tick

section

variable {pool pool' : Pool} {ticks : List Tick} {o : Order} {s s' u u' e e' : Progress} {t i : ℤ}
  {next : ℤ} {flag : Bool} {taken : Step} {price : ℕ}

theorem Progress.Same.refl (s : Progress) : s.Same s := ⟨rfl, rfl, rfl, rfl⟩

theorem Progress.Same.symm (h : s.Same u) : u.Same s :=
  ⟨h.remaining.symm, h.other.symm, h.fees.symm, h.price.symm⟩

theorem Progress.Same.trans (h : s.Same s') (h' : s'.Same u) : s.Same u :=
  ⟨h'.remaining.trans h.remaining, h'.other.trans h.other, h'.fees.trans h.fees,
    h'.price.trans h.price⟩

/-- Whether a swap is finished depends on its accounts and its price only. -/
theorem Progress.Same.finished (h : s.Same u) : Pool.finished o u = Pool.finished o s := by
  unfold Pool.finished
  rw [h.remaining, h.price]

theorem Progress.Same.eq (h : s.Same u) (hstate : u.state = s.state) : u = s := by
  obtain ⟨remaining, other, state, fees⟩ := u
  obtain ⟨hremaining, hother, hfees, -⟩ := h
  dsimp only at *
  subst hremaining hother hfees hstate
  rfl

/-- What stands on the same side of the same grid point is in the same state. -/
theorem Pool.Poised.eq (hs : Poised ticks o t i s) (hu : Poised ticks o t i u) (h : s.Same u) :
    u = s := by
  refine h.eq ?_
  have hliquidity : u.state.liquidity = s.state.liquidity := by
    have h1 := hs.liquidity
    have h2 := hu.liquidity
    rw [hs.tick] at h1
    rw [hu.tick] at h2
    exact_mod_cast h2.trans h1.symm
  have htick := hu.tick.trans hs.tick.symm
  have hprice := h.price
  generalize u.state = p at *
  generalize s.state = q at *
  cases p
  cases q
  simp_all

/-- From a price that lies on the grid point, an order heads for the grid point. -/
theorem Order.target_self (h : o.direction.Leads price o.limit) : o.target price = price := by
  unfold target
  cases hd : o.direction with
  | down =>
    rw [hd] at h
    exact max_eq_left h
  | up =>
    rw [hd] at h
    exact min_eq_left h

/-! ## One advance -/

/-- **An advance that stops where it starts crosses the grid point**, and does nothing else. -/
theorem Pool.Poised.cross (hb : pool.Backed ticks) (ho : o.Inside)
    (hs : Poised ticks o t (tickBeyond t o.direction.opposite) s)
    (hgo : finished o s = false) (hstep : pool.advance o s = .ok s')
    (h : pool.Advanced o s s' next flag taken) (hfees : s'.fees = s.fees + taken.fee)
    (hstop : stopTick next = t) :
    Poised ticks o t (tickBeyond t o.direction) s' ∧ s.Same s' := by
  have hu := hs.trading.underway
  have htrade := h.trade
  rw [hstop, hs.price, Order.target_self (hs.price ▸ hu.before)] at htrade
  obtain rfl := step_self htrade
  have hland := Pool.land_eq_ok h.land
  rw [hstop] at hland
  obtain ⟨hprice, ⟨-, hcross⟩ | ⟨hne, -⟩ | ⟨hne, -⟩⟩ := hland
  · have hbook := h.book
    simp only [Order.book, Nat.cast_zero, add_zero, sub_zero, ite_self] at hbook
    obtain ⟨hremaining, hother⟩ := Prod.mk.inj hbook
    refine ⟨⟨hs.trading.advance hb.advances ho hgo hstep, hprice, hcross.tick, ?_⟩,
      ⟨hremaining, hother, hfees, hprice.trans hs.price.symm⟩⟩
    exact hb.advance ho hu hs.liquidity hstep
  · exact absurd rfl hne
  · exact absurd rfl hne

/-- A search that passes the grid point gives the same answer from its other side, where the
liquidity is the same. -/
theorem Pool.Poised.pass (hb : pool.Backed ticks) (hsteady : pool.ticks.Steady pool.spacing)
    (hs : Poised ticks o t (tickBeyond t o.direction.opposite) s)
    (hu : Poised ticks o t (tickBeyond t o.direction) u)
    (h : pool.ticks.next s.state.tick pool.spacing o.direction = .ok (next, flag))
    (hpass : stopTick next ≠ t) :
    pool.ticks.next u.state.tick pool.spacing o.direction = .ok (next, flag) ∧
      u.state.liquidity = s.state.liquidity := by
  have htick := hs.trading.underway.accepted.tick_mem
  have hspan := spans_stopTick hb.advances htick h
  have hbetween : o.direction.lower s.state.tick (stopTick next) ≤ u.state.tick ∧
      u.state.tick < o.direction.upper s.state.tick (stopTick next) := by
    have hside := hs.tick
    rw [hu.tick]
    cases hd : o.direction with
    | down =>
      simp only [hd, Direction.opposite, tickBeyond, Direction.Spans, Direction.lower,
        Direction.upper] at *
      omega
    | up =>
      simp only [hd, Direction.opposite, tickBeyond, Direction.Spans, Direction.lower,
        Direction.upper] at *
      omega
  obtain ⟨hclear, -⟩ := hb.meets.search_clear hb.advances htick h
  refine ⟨hsteady.stopTick hb.advances htick h hbetween.1 hbetween.2, ?_⟩
  have hliquidity := hspan.netAtOrBelow_eq hclear hbetween.1 hbetween.2
  rw [← hu.liquidity, ← hs.liquidity] at hliquidity
  exact_mod_cast hliquidity

/-- **From both sides of a grid point that the search passes the advances are alike**: they lead to
the same state, or finish the swap at the same price. -/
theorem Pool.Poised.together (hb : pool.Backed ticks)
    (hsteady : pool.ticks.Steady pool.spacing) (ha : IsInt256 o.amount)
    (hs : Poised ticks o t (tickBeyond t o.direction.opposite) s)
    (hu : Poised ticks o t (tickBeyond t o.direction) u) (hsame : s.Same u)
    (hgo : finished o s = false) (hstep : pool.advance o u = .ok u')
    (h : pool.Advanced o s s' next flag taken) (hfees : s'.fees = s.fees + taken.fee)
    (hpass : stopTick next ≠ t) :
    s'.Same u' ∧ (u' = s' ∨ finished o s' = true) := by
  obtain ⟨hsearch, hliquidity⟩ := hs.pass hb hsteady hu h.search hpass
  obtain ⟨next', flag', taken', h', -, hfees'⟩ := advance_eq_ok_iff.mp hstep
  -- the other advance searches and trades alike
  obtain ⟨rfl, rfl⟩ := Prod.mk.inj (Except.ok.inj (h'.search.symm.trans hsearch))
  have htrade := h'.trade
  rw [hsame.price, hliquidity, hsame.remaining, h.trade] at htrade
  obtain rfl := Except.ok.inj htrade
  have hbook := h'.book
  unfold Order.book at hbook
  rw [hsame.remaining, hsame.other] at hbook
  obtain ⟨hremaining, hother⟩ := Prod.mk.inj (hbook.trans h.book.symm)
  have hsame' : s'.Same u' := ⟨hremaining, hother, by rw [hfees', hsame.fees, hfees],
    (land_eq_ok h'.land).1.trans (land_eq_ok h.land).1.symm⟩
  refine ⟨hsame', ?_⟩
  by_cases hedge : taken.next = ratioAt (stopTick next')
  · left
    have hland := h'.land
    rw [hedge, land_congr (q := s.state) hliquidity, ← hedge] at hland
    have hland' := h.land
    rw [hedge] at hland hland'
    exact hsame'.eq (Except.ok.inj (hland.symm.trans hland'))
  · exact Or.inr (hs.trading.finished_of_short ha hgo h hedge)

/-! ## Swaps -/

/-- **From both sides of a grid point a swap comes to the same end.** -/
theorem Pool.Completes.same (hb : pool.Backed ticks) (hsteady : pool.ticks.Steady pool.spacing)
    (ho : o.Inside) (ha : IsInt256 o.amount)
    (hs : Poised ticks o t (tickBeyond t o.direction.opposite) s)
    (hu : Poised ticks o t (tickBeyond t o.direction) u) (hsame : s.Same u)
    (h : pool.Completes o s e) (h' : pool.Completes o u e') : e.Same e' := by
  cases h with
  | done hfin =>
    rw [h'.eq_of_finished (hsame.finished.trans hfin)]
    exact hsame
  | advance hgo hstep rest =>
    obtain ⟨next, flag, taken, hparts, -, hfees⟩ := advance_eq_ok_iff.mp hstep
    by_cases hstop : stopTick next = t
    · obtain ⟨hs', hsame'⟩ := hs.cross hb ho hgo hstep hparts hfees hstop
      obtain rfl := hs'.eq hu (hsame'.symm.trans hsame)
      rw [rest.unique h']
      exact .refl e
    · cases h' with
      | done hfin =>
        rw [hsame.finished, hgo] at hfin
        cases hfin
      | advance _ hstep' rest' =>
        obtain ⟨hsame', rfl | hfin⟩ := hs.together hb hsteady ha hu hsame hgo hstep' hparts hfees hstop
        · rw [rest.unique rest']
          exact .refl e
        · rw [rest.eq_of_finished hfin, rest'.eq_of_finished (hsame'.finished.trans hfin)]
          exact hsame'

/-- What a swap comes to is read off its accounts and its price. -/
theorem Progress.Same.settle (h : s.Same u) :
    (o.settle u).amount0 = (o.settle s).amount0 ∧ (o.settle u).amount1 = (o.settle s).amount1 ∧
      (o.settle u).state.sqrtPrice = (o.settle s).state.sqrtPrice ∧
      (o.settle u).fees = (o.settle s).fees := by
  unfold Order.settle
  rw [h.remaining, h.other, h.fees]
  dsimp only
  split
  · exact ⟨rfl, rfl, h.price, rfl⟩
  · exact ⟨rfl, rfl, h.price, rfl⟩

/-- Pools over the same ticks that stand on the two sides of a grid point swap alike. -/
theorem Pool.swap_same {d : Direction} {amount : ℤ} {limit : Option ℕ} {r r' : SwapOutcome}
    (hb : pool.Backed ticks) (hb' : pool'.Backed ticks)
    (hsteady : pool.ticks.Steady pool.spacing) (hticks : pool'.ticks = pool.ticks)
    (hspacing : pool'.spacing = pool.spacing) (hfee : pool'.fee = pool.fee)
    (hprice : pool.state.sqrtPrice = ratioAt t) (hprice' : pool'.state.sqrtPrice = ratioAt t)
    (htick : pool.state.tick = tickBeyond t d.opposite) (htick' : pool'.state.tick = tickBeyond t d)
    (ha : IsInt256 amount) (h : pool.swap d amount limit = .ok r)
    (h' : pool'.swap d amount limit = .ok r') :
    r'.amount0 = r.amount0 ∧ r'.amount1 = r.amount1 ∧
      r'.state.sqrtPrice = r.state.sqrtPrice ∧ r'.fees = r.fees := by
  obtain ⟨o, e, ho, hlimit, hrun, rfl⟩ := swap_completes h
  obtain ⟨o', e', ho', hlimit', hrun', rfl⟩ := swap_completes h'
  obtain rfl : o' = o := ho'.trans ho.symm
  subst ho
  have hin := (checkLimit_eq_ok pool.accepted hlimit).1
  have hs : Poised ticks _ t (tickBeyond t d.opposite) (pool.start _) :=
    ⟨Trading.start hlimit, hprice, htick, hb.liquidity⟩
  have hu : Poised ticks _ t (tickBeyond t d) (pool'.start _) :=
    ⟨Trading.start hlimit', hprice', htick', hb'.liquidity⟩
  exact (hrun.same hb hsteady hin ha hs hu ⟨rfl, rfl, rfl, hprice'.trans hprice.symm⟩
    (hrun'.transfer hticks hspacing hfee)).settle

end

/-- **The two snapshots of a price on a grid point are equivalent**, if the words of a table tell the
ticks apart that came with them. Over a list, or over a table that the operations built and whose
loaded ticks have numbers within `[-2 ^ 23, 2 ^ 23)`, with ticks on the grid: pools of the same
tokens, fee and spacing that stand at the price of `t`, one at tick `t` and one at tick `t - 1`, each
with the net liquidity of the ticks at or below its tick. In either direction, for every amount and
limit, if both swaps succeed they exchange the same amounts, end at the same price and charge the
same fees. -/
theorem snapshots_agree {above below : Pool} {a b : Token} {fee liquidity liquidity' price : ℕ}
    {spacing t amount : ℤ} {source : TickSource} {ticks : List Tick} {numbers : List ℤ}
    {d : Direction} {limit : Option ℕ} {r r' : SwapOutcome}
    (hsource : source.Holds ticks numbers) (hnum : ∀ n ∈ numbers, Numbered n)
    (hgrid : OnGrid spacing ticks) (hprice : sqrtPriceAt t = .ok price)
    (hliquidity : (liquidity : ℤ) = netAtOrBelow ticks t)
    (hliquidity' : (liquidity' : ℤ) = netAtOrBelow ticks (t - 1))
    (habove : Pool.make a b fee spacing ⟨price, liquidity, t⟩ source = .ok above)
    (hbelow : Pool.make a b fee spacing ⟨price, liquidity', t - 1⟩ source = .ok below)
    (ha : IsInt256 amount) (h : above.swap d amount limit = .ok r)
    (h' : below.swap d amount limit = .ok r') :
    r'.amount0 = r.amount0 ∧ r'.amount1 = r.amount1 ∧
      r'.state.sqrtPrice = r.state.sqrtPrice ∧ r'.fees = r.fees := by
  obtain ⟨-, rfl⟩ := sqrtPriceAt_eq_ok_iff.mp hprice
  obtain ⟨hstate, rfl, rfl, rfl⟩ := Pool.make_eq_ok habove
  obtain ⟨hstate', hticks', hspacing', hfee'⟩ := Pool.make_eq_ok hbelow
  have hc : above.Crosses ticks :=
    ⟨hsource.advances _, (hsource.faithful hnum hgrid).meets, hgrid.distinct⟩
  have hb : above.Backed ticks := ⟨hc, by rw [hstate]; exact hliquidity⟩
  have hb' : below.Backed ticks :=
    ⟨hc.of_eq hticks' hspacing', by rw [hstate']; exact hliquidity'⟩
  have hsteady := hsource.steady above.spacing
  cases d with
  | down =>
    exact Pool.swap_same (t := t) hb hb' hsteady hticks' hspacing' hfee' (by rw [hstate])
      (by rw [hstate']) (by rw [hstate]; rfl) (by rw [hstate']; rfl) ha h h'
  | up =>
    obtain ⟨h0, h1, hp, hf⟩ := Pool.swap_same (t := t) hb' hb
      (hticks'.symm ▸ hspacing'.symm ▸ hsteady) hticks'.symm hspacing'.symm hfee'.symm
      (by rw [hstate']) (by rw [hstate]) (by rw [hstate']; rfl) (by rw [hstate]; rfl) ha h' h
    exact ⟨h0.symm, h1.symm, hp.symm, hf.symm⟩

theorem pairedPool_above : (⟨79466191966197645195421774833, 0, 60⟩ : PoolState).Accepted :=
  ⟨by decide, by unfold PoolState.InTick ratioAt; decide, by decide⟩

theorem pairedPool_below : (⟨79466191966197645195421774833, 500000, 59⟩ : PoolState).Accepted :=
  ⟨by decide, by unfold PoolState.InTick ratioAt; decide, by decide⟩

/-- Sold from the upper end of the position, 1000 bring 1000 on both sides of it. -/
theorem snapshots_agree_paired : ∃ price above below r r',
    (∀ n ∈ [-1, 1], Numbered n) ∧ sqrtPriceAt 60 = .ok price ∧
      Pool.make nestedPool.token0 nestedPool.token1 3000 60 ⟨price, 0, 60⟩
        TickBitmap.paired.source = .ok above ∧
      Pool.make nestedPool.token0 nestedPool.token1 3000 60 ⟨price, 500000, 60 - 1⟩
        TickBitmap.paired.source = .ok below ∧
      (above.swap .down 1000 none = .ok r ∧ below.swap .down 1000 none = .ok r') ∧
      (r.amount0 = 1000 ∧ r.amount1 = -1000) ∧
      r'.amount0 = r.amount0 ∧ r'.amount1 = r.amount1 ∧
      r'.state.sqrtPrice = r.state.sqrtPrice ∧ r'.fees = r.fees := by
  have hprice : sqrtPriceAt 60 = .ok 79466191966197645195421774833 := by decide +kernel
  have habove : pairedPool.moveTo _ = _ := Pool.moveTo_eq_ok_iff.mpr ⟨pairedPool_above, rfl⟩
  have hbelow : pairedPool.moveTo _ = _ := Pool.moveTo_eq_ok_iff.mpr ⟨pairedPool_below, rfl⟩
  have h : (pairedPool.withState _ pairedPool_above).swap .down 1000 none =
      .ok ⟨1000, -1000, ⟨79307577550085394193538528921, 500000, 20⟩, 3⟩ := by decide +kernel
  have h' : (pairedPool.withState _ pairedPool_below).swap .down 1000 none =
      .ok ⟨1000, -1000, ⟨79307577550085394193538528921, 500000, 20⟩, 3⟩ := by decide +kernel
  exact ⟨_, _, _, _, _, TickBitmap.pairTicks_numbered, hprice, habove, hbelow, ⟨h, h'⟩, ⟨rfl, rfl⟩,
    snapshots_agree (.bitmap TickBitmap.paired TickBitmap.paired_built)
      TickBitmap.pairTicks_numbered pairTicks_onGrid hprice (by decide) (by decide) habove hbelow
      (by decide) h h'⟩

/-- **Over words that do not tell the loaded ticks apart the two snapshots may differ.** At the price
of a tick that lost its flag, a purchase from the side that has left the position receives nothing,
and one from the side that is still in it does not leave it. -/
theorem exists_snapshots_differ : ∃ (above below : Pool) (source : TickSource)
    (ticks : List Tick) (numbers : List ℤ) (price liquidity liquidity' : ℕ) (r r' : SwapOutcome),
    source.Holds ticks numbers ∧ OnGrid 60 ticks ∧ sqrtPriceAt 60 = .ok price ∧
      (liquidity : ℤ) = netAtOrBelow ticks 60 ∧ (liquidity' : ℤ) = netAtOrBelow ticks (60 - 1) ∧
      Pool.make nestedPool.token0 nestedPool.token1 3000 60 ⟨price, liquidity, 60⟩ source =
        .ok above ∧
      Pool.make nestedPool.token0 nestedPool.token1 3000 60 ⟨price, liquidity', 60 - 1⟩ source =
        .ok below ∧
      above.swap .up 1000 none = .ok r ∧ below.swap .up 1000 none = .ok r' ∧
      (r.amount0, r.amount1) = (0, 0) ∧ (r'.amount0, r'.amount1) = (-989, 1000) := by
  have hprice : sqrtPriceAt 60 = .ok 79466191966197645195421774833 := by decide +kernel
  have habove : unflaggedPool.moveTo _ = _ := Pool.moveTo_eq_ok_iff.mpr ⟨pairedPool_above, rfl⟩
  have hbelow : unflaggedPool.moveTo _ = _ := Pool.moveTo_eq_ok_iff.mpr ⟨pairedPool_below, rfl⟩
  have h : (unflaggedPool.withState _ pairedPool_above).swap .up 1000 none =
      .ok ⟨0, 0, ⟨maxSqrtPrice - 1, 0, 887271⟩, 0⟩ := by decide +kernel
  have h' : (unflaggedPool.withState _ pairedPool_below).swap .up 1000 none =
      .ok ⟨-989, 1000, ⟨79624172922251088284583301469, 500000, 99⟩, 3⟩ := by decide +kernel
  exact ⟨_, _, _, _, _, _, _, _, _, _, unflaggedPool_holds, pairTicks_onGrid, hprice, by decide,
    by decide, habove, hbelow, h, h', rfl, rfl⟩

end Clamm
