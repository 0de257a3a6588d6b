import Mathlib
import Clamm.Proofs.Swap.Monotone
import Clamm.Proofs.Ticks.Steady

/-!
# Splitting an order never pays

An input order of `a` and then one of `b` are compared with one order of `a + b`. The combined order
goes hand in hand with the first one, with `b` more left, until the first one is used up. If that is
on the way to a grid point, the second order searches again and finds the same one
(`TickSource.Steady`), so the rest of the way is one step of the second order against the rest of
the combined step (`step_split`). From there on the combined order has at least as much left as the
second one, at the same state, and goes at least as far (`Pool.Completes.outdone`).

* `Pool.Advanced.resume`: an advance that takes up a way that was left.
* `Trading.split`: two advances on one way against the combined one.
* `swap_split`: the law for swaps.
-/

namespace Clamm

section Resume

variable {pool : Pool} {o : Order} {s s' : Progress} {next : ℤ} {flag : Bool} {taken : Step}

/-- A tick on the way to where a search is taken to stop is on the way to what it found. -/
theorem TickSource.Steady.stopTick {source : TickSource} {spacing tick tick' : ℤ} {d : Direction}
    (hsteady : source.Steady spacing) (hadv : source.Advances spacing)
    (htick : minTick ≤ tick ∧ tick < maxTick)
    (h : source.next tick spacing d = .ok (next, flag))
    (h1 : d.lower tick (stopTick next) ≤ tick') (h2 : tick' < d.upper tick (stopTick next)) :
    source.next tick' spacing d = .ok (next, flag) := by
  have hnext := hadv tick d next flag h
  refine hsteady tick tick' d next flag h ?_ ?_
  · cases d with
    | down =>
      simp only [Direction.lower, Clamm.stopTick] at h1 hnext ⊢
      omega
    | up => exact h1
  · cases d with
    | down => exact h2
    | up =>
      simp only [Direction.upper, Clamm.stopTick] at h2 hnext ⊢
      omega

/-- A grid point that is not beyond the target is the target. -/
theorem Order.eq_target {edge : ℕ} (h : o.direction.Leads edge (o.target edge)) :
    edge = o.target edge :=
  h.antisymm (leads_of_target (Direction.Leads.refl _ _)).1

/-- **A search from where an advance ended short of its target gives the same answer**, at the same
liquidity. -/
theorem Pool.Advanced.resume (hadv : pool.ticks.Advances pool.spacing)
    (hsteady : pool.ticks.Steady pool.spacing) (ho : o.Inside) (hu : Underway o s.state)
    (h : pool.Advanced o s s' next flag taken)
    (hshort : taken.next ≠ o.target (ratioAt (stopTick next))) :
    pool.ticks.next s'.state.tick pool.spacing o.direction = .ok (next, flag) ∧
      s'.state.liquidity = s.state.liquidity := by
  obtain ⟨hsound, hprice, hstride⟩ := hu.stride hadv ho h
  have hedge : taken.next ≠ ratioAt (stopTick next) := fun heq => by
    refine hshort (heq.trans ?_)
    have hfar := (leads_of_target (Direction.Leads.refl _ (o.target (ratioAt (stopTick next))))).1
    exact (heq ▸ hsound.stops).antisymm hfar
  rcases hstride.landing with ⟨heq, -⟩ | hsame | ⟨hkept, -, h1, h2⟩
  · exact absurd (hprice.symm.trans heq) hedge
  · rw [hsame]
    exact ⟨h.search, rfl⟩
  · exact ⟨hsteady.stopTick hadv hu.accepted.tick_mem h.search h1 h2, hkept⟩

end Resume

/-! ## Both orders and the combined one -/

/-- What the comparison of orders of `a` and `b` with one of `a + b` rests on. -/
structure Pool.Splits (pool : Pool) (d : Direction) (a b : ℤ) (limit : ℕ) : Prop where
  advances : pool.ticks.Advances pool.spacing
  steady : pool.ticks.Steady pool.spacing
  inside : Order.Inside ⟨d, a + b, limit⟩
  first_nonneg : 0 ≤ a
  second_nonneg : 0 ≤ b
  isInt256 : IsInt256 (a + b)
  fits : ∀ n t, pool.Reaches ⟨d, a + b, limit⟩ n t →
    d.Fits pool.state.sqrtPrice t.state.liquidity (a + b).natAbs

/-- The order of `a + b` stands at `t` where that of `a` stands at `s`, and has `b` more left. -/
structure Pool.Alongside (pool : Pool) (d : Direction) (a b : ℤ) (limit : ℕ) (s t : Progress) :
    Prop where
  together : pool.Together ⟨d, a, limit⟩ ⟨d, a + b, limit⟩ s t
  remaining_nonneg : 0 ≤ s.remaining
  remaining : t.remaining = s.remaining + b

section Split

variable {pool : Pool} {d : Direction} {a b : ℤ} {limit : ℕ} {s s' t t' u u' e e' f : Progress}
  {next : ℤ} {flag : Bool} {taken taken₂ whole : Step}

/-- Landing on the grid point depends on the liquidity only. -/
theorem Pool.land_congr {p q : PoolState} {stop : ℤ} {edge : ℕ} (h : p.liquidity = q.liquidity) :
    pool.land d p stop edge flag edge = pool.land d q stop edge flag edge := by
  unfold land
  rw [if_pos rfl, if_pos rfl, h]

theorem Pool.Splits.isInt256_second (h : pool.Splits d a b limit) : IsInt256 b := by
  have hsum := h.isInt256
  have := h.first_nonneg
  have := h.second_nonneg
  unfold IsInt256 at hsum ⊢
  omega

theorem Pool.Alongside.fits (hsplits : pool.Splits d a b limit)
    (h : pool.Alongside d a b limit s t) :
    d.Fits t.state.sqrtPrice t.state.liquidity t.remaining.natAbs := by
  refine h.together.fits hsplits.fits ?_
  have hmem := Set.mem_uIcc.mp h.together.second.remaining_mem
  have := h.remaining_nonneg
  have := h.remaining
  have := hsplits.second_nonneg
  dsimp only at hmem
  omega

theorem Pool.Alongside.remaining_mem (hsplits : pool.Splits d a b limit)
    (h : pool.Alongside d a b limit s t) : s.remaining ∈ Set.uIcc 0 t.remaining := by
  have := h.remaining_nonneg
  have := hsplits.second_nonneg
  rw [Set.mem_uIcc, h.remaining]
  omega

/-- The combined order is not finished before the first one. -/
theorem Pool.Alongside.unfinished (hsplits : pool.Splits d a b limit)
    (h : pool.Alongside d a b limit s t) (hgo : Pool.finished ⟨d, a, limit⟩ s = false) :
    Pool.finished ⟨d, a + b, limit⟩ t = false :=
  finished_eq_false_of_le h.together.state (h.remaining_mem hsplits) hgo

/-- **The combined order goes along with the first one**, until that is used up short of the
target. -/
theorem Pool.Alongside.advance (hsplits : pool.Splits d a b limit)
    (h : pool.Alongside d a b limit s t) (hgo : Pool.finished ⟨d, a, limit⟩ s = false)
    (hstep : pool.advance ⟨d, a, limit⟩ s = .ok s')
    (hstep' : pool.advance ⟨d, a + b, limit⟩ t = .ok t') :
    (pool.Alongside d a b limit s' t' ∧
        Order.gained ⟨d, a, limit⟩ s' - Order.gained ⟨d, a, limit⟩ s =
          Order.gained ⟨d, a + b, limit⟩ t' - Order.gained ⟨d, a + b, limit⟩ t) ∨
      ∃ next flag taken whole, pool.Advanced ⟨d, a, limit⟩ s s' next flag taken ∧
        pool.Advanced ⟨d, a + b, limit⟩ t t' next flag whole ∧ s'.remaining = 0 ∧
        taken.next ≠ Order.target ⟨d, a, limit⟩ (ratioAt (stopTick next)) := by
  have hoa : Order.Inside ⟨d, a, limit⟩ := hsplits.inside
  have hgo' := h.unfinished hsplits hgo
  obtain ⟨next, flag, taken, whole, hadv, hadv'⟩ := exists_steps h.together.state hstep hstep'
  obtain ⟨hsound, -, -⟩ := h.together.first.underway.stride hsplits.advances hoa hadv
  have hbound := (natAbs_remaining_le h.together.second.remaining_mem hsplits.isInt256).trans_lt
    (show pow2 255 < pow2 256 by decide)
  have htrade := hadv'.trade
  rw [← h.together.state] at htrade
  have hpos := h.remaining_nonneg
  have hb := hsplits.second_nonneg
  have hrem := h.remaining
  rcases step_outdone_input (hsound.leaves.trans hsound.stops) pool.fee_lt hbound
      (fixesInput_eq_true_iff.mpr hpos) (fixesInput_eq_true_iff.mpr (by omega)) (by omega)
      hadv.trade htrade with rfl | ⟨hshort, hfills, -⟩
  · left
    have hleft := h.together.first.remaining_input hpos hgo hadv
    have hleft' := h.together.second.remaining_input (by omega) hgo' hadv'
    have hpaid := hsound.input_le (fixesInput_eq_true_iff.mpr hpos)
    have hgained := hadv.gained_eq
    have hgained' := hadv'.gained_eq
    have hstate := hadv.state_eq hadv' rfl h.together.state rfl
    exact ⟨⟨h.together.advance hsplits.advances hoa hsplits.inside hgo hgo' hstep hstep' hstate,
      by omega, by omega⟩, by omega⟩
  · right
    refine ⟨next, flag, taken, whole, hadv, hadv', ?_, hshort⟩
    exact remaining_eq_zero_of_book h.together.first.remaining_mem (finished_eq_false_iff.mp hgo).1
      hfills.paid hfills.received (by exact_mod_cast hadv.book)

/-- **The second order and the combined one on the grid point**: they land alike, and the combined
one has at least as much left. -/
theorem Pool.Alongside.land (hsplits : pool.Splits d a b limit)
    (h : pool.Alongside d a b limit s t) (hgo : Pool.finished ⟨d, a, limit⟩ s = false)
    (hu : Trading ⟨d, b, limit⟩ u) (hurem : u.remaining = b)
    (hugo : Pool.finished ⟨d, b, limit⟩ u = false)
    (hliquidity : u.state.liquidity = t.state.liquidity)
    (hadv' : pool.Advanced ⟨d, a + b, limit⟩ t t' next flag whole)
    (hadv₂ : pool.Advanced ⟨d, b, limit⟩ u u' next flag taken₂)
    (hedge : taken₂.next = ratioAt (stopTick next)) (hwhole : whole.next = ratioAt (stopTick next))
    (hpaid : whole.amountIn + whole.fee ≤ s.remaining.natAbs + (taken₂.amountIn + taken₂.fee)) :
    u'.state = t'.state ∧ u'.remaining ∈ Set.uIcc 0 t'.remaining := by
  have hob : Order.Inside ⟨d, b, limit⟩ := hsplits.inside
  obtain ⟨hsound₂, -, -⟩ := hu.underway.stride hsplits.advances hob hadv₂
  have hpos := h.remaining_nonneg
  have hb := hsplits.second_nonneg
  have hrem := h.remaining
  have hland := hadv'.land
  have hland₂ := hadv₂.land
  rw [hwhole] at hland
  rw [hedge, land_congr hliquidity, hland] at hland₂
  have hleft := h.together.second.remaining_input (by omega) (h.unfinished hsplits hgo) hadv'
  have hleft₂ := hu.remaining_input (by omega) hugo hadv₂
  have hpaid₂ := hsound₂.input_le (fixesInput_eq_true_iff.mpr (by omega))
  refine ⟨(Except.ok.inj hland₂).symm, ?_⟩
  rw [Set.mem_uIcc]
  omega

/-- **The second order on the way that the first one left**: the two of them receive no more than
the combined one, and unless the second one is finished then, the combined one is at the same state
with as much left. -/
theorem Pool.Alongside.resume (hsplits : pool.Splits d a b limit)
    (h : pool.Alongside d a b limit s t) (hgo : Pool.finished ⟨d, a, limit⟩ s = false)
    (hadv : pool.Advanced ⟨d, a, limit⟩ s s' next flag taken)
    (hadv' : pool.Advanced ⟨d, a + b, limit⟩ t t' next flag whole)
    (hshort : taken.next ≠ Order.target ⟨d, a, limit⟩ (ratioAt (stopTick next)))
    (hu : Trading ⟨d, b, limit⟩ u) (hustate : u.state = s'.state) (hurem : u.remaining = b)
    (hugo : Pool.finished ⟨d, b, limit⟩ u = false)
    (hstep : pool.advance ⟨d, b, limit⟩ u = .ok u') :
    Order.gained ⟨d, a, limit⟩ s' - Order.gained ⟨d, a, limit⟩ s +
        (Order.gained ⟨d, b, limit⟩ u' - Order.gained ⟨d, b, limit⟩ u) ≤
          Order.gained ⟨d, a + b, limit⟩ t' - Order.gained ⟨d, a + b, limit⟩ t ∧
      (Pool.finished ⟨d, b, limit⟩ u' = true ∨
        u'.state = t'.state ∧ u'.remaining ∈ Set.uIcc 0 t'.remaining) := by
  have hoa : Order.Inside ⟨d, a, limit⟩ := hsplits.inside
  have hob : Order.Inside ⟨d, b, limit⟩ := hsplits.inside
  obtain ⟨hsound, hprice, -⟩ := h.together.first.underway.stride hsplits.advances hoa hadv
  obtain ⟨hsearch, hkept⟩ :=
    hadv.resume hsplits.advances hsplits.steady hoa h.together.first.underway hshort
  -- the second search finds what the first one did
  obtain ⟨next₂, flag₂, taken₂, hadv₂⟩ := advance_eq_ok hstep
  have hsearch₂ := hadv₂.search
  rw [hustate] at hsearch₂
  obtain ⟨rfl, rfl⟩ := Prod.mk.inj (Except.ok.inj (hsearch.symm.trans hsearch₂))
  have hpos := h.remaining_nonneg
  have hb := hsplits.second_nonneg
  have hrem := h.remaining
  have hbound := (natAbs_remaining_le h.together.second.remaining_mem hsplits.isInt256).trans_lt
    (show pow2 255 < pow2 256 by decide)
  have htrade := hadv'.trade
  have htrade₂ := hadv₂.trade
  have hfits := h.fits hsplits
  rw [hustate, hprice, hkept, hurem] at htrade₂
  rw [hrem] at hbound
  rw [← h.together.state, hrem] at htrade hfits
  obtain ⟨hout, hreach⟩ := step_split (hsound.leaves.trans hsound.stops) pool.fee_lt hpos hb hbound
    (hfits.anti (Direction.Leads.refl _ _) netOf_le) hadv.trade hshort htrade₂ htrade
  have hgained := hadv.gained_eq
  have hgained' := hadv'.gained_eq
  have hgained₂ := hadv₂.gained_eq
  refine ⟨by omega, ?_⟩
  by_cases hedge : taken₂.next = ratioAt (stopTick next)
  · right
    obtain ⟨hsound₂, -, -⟩ := hu.underway.stride hsplits.advances hob hadv₂
    have hend : taken₂.next = Order.target ⟨d, b, limit⟩ (ratioAt (stopTick next)) :=
      hedge.trans (Order.eq_target (hedge ▸ hsound₂.stops))
    obtain ⟨hwhole, hpaid⟩ := hreach hend
    exact h.land hsplits hgo hu hurem hugo (by rw [hustate, hkept, h.together.state]) hadv' hadv₂
      hedge (hwhole.trans (hend.symm.trans hedge)) hpaid
  · left
    exact hu.finished_of_short hsplits.isInt256_second hugo hadv₂ hedge

/-- **An order in two parts receives no more than in one**, where the first part is used up by an
advance that stops short of its target. -/
theorem Pool.Alongside.completes_short (hsplits : pool.Splits d a b limit)
    (h : pool.Alongside d a b limit s t) (hgo : Pool.finished ⟨d, a, limit⟩ s = false)
    (hstep : pool.advance ⟨d, a, limit⟩ s = .ok s') (hzero : s'.remaining = 0)
    (hstep' : pool.advance ⟨d, a + b, limit⟩ t = .ok t')
    (hadv : pool.Advanced ⟨d, a, limit⟩ s s' next flag taken)
    (hadv' : pool.Advanced ⟨d, a + b, limit⟩ t t' next flag whole)
    (hshort : taken.next ≠ Order.target ⟨d, a, limit⟩ (ratioAt (stopTick next)))
    (hu : Trading ⟨d, b, limit⟩ u) (hustate : u.state = s'.state) (hurem : u.remaining = b)
    (hsecond : pool.Completes ⟨d, b, limit⟩ u e')
    (hrest : pool.Completes ⟨d, a + b, limit⟩ t' f) :
    Order.gained ⟨d, a, limit⟩ s' - Order.gained ⟨d, a, limit⟩ s +
        (Order.gained ⟨d, b, limit⟩ e' - Order.gained ⟨d, b, limit⟩ u) ≤
      Order.gained ⟨d, a + b, limit⟩ f - Order.gained ⟨d, a + b, limit⟩ t := by
  have hoa : Order.Inside ⟨d, a, limit⟩ := hsplits.inside
  have hob : Order.Inside ⟨d, b, limit⟩ := hsplits.inside
  have hgo' := h.unfinished hsplits hgo
  have ht' := h.together.second.advance hsplits.advances hsplits.inside hgo' hstep'
  cases hsecond with
  | done =>
    -- the second order asks for nothing, and the first one alone is outdone
    have hfirst : pool.Completes ⟨d, a, limit⟩ s s' :=
      .advance hgo hstep (.done (finished_eq_true_iff.mpr (Or.inl hzero)))
    have hout := hfirst.outdone hsplits.advances hoa hsplits.isInt256 h.together.first
      (.advance hgo' hstep' hrest) h.together.second h.together.state (h.remaining_mem hsplits)
    have := hout.gained
    omega
  | @advance _ u' _ hugo hustep urest =>
    obtain ⟨hle, hends⟩ := h.resume hsplits hgo hadv hadv' hshort hu hustate hurem hugo hustep
    rcases hends with hfin | ⟨hsame, hmem⟩
    · rw [urest.eq_of_finished hfin]
      have := (hrest.grows hsplits.advances hsplits.inside ht').gained
      omega
    · have hu' := hu.advance hsplits.advances hob hugo hustep
      have hout := urest.outdone hsplits.advances hob hsplits.isInt256 hu' hrest ht' hsame hmem
      have := hout.gained
      omega

/-- **An order in two parts receives no more than in one.** -/
theorem Pool.Alongside.completes (hsplits : pool.Splits d a b limit)
    (h : pool.Alongside d a b limit s t) (hfirst : pool.Completes ⟨d, a, limit⟩ s e)
    (hlimit : e.state.sqrtPrice ≠ limit) (hu : Trading ⟨d, b, limit⟩ u)
    (hustate : u.state = e.state) (hurem : u.remaining = b)
    (hsecond : pool.Completes ⟨d, b, limit⟩ u e')
    (hboth : pool.Completes ⟨d, a + b, limit⟩ t f) :
    Order.gained ⟨d, a, limit⟩ e - Order.gained ⟨d, a, limit⟩ s +
        (Order.gained ⟨d, b, limit⟩ e' - Order.gained ⟨d, b, limit⟩ u) ≤
      Order.gained ⟨d, a + b, limit⟩ f - Order.gained ⟨d, a + b, limit⟩ t := by
  have hob : Order.Inside ⟨d, b, limit⟩ := hsplits.inside
  induction hfirst generalizing t with
  | @done s hfin =>
    -- the first order is filled, so the combined one has as much left as the second one
    have hrem := (finished_eq_true_iff.mp hfin).resolve_right hlimit
    have hmem : u.remaining ∈ Set.uIcc 0 t.remaining := by
      rw [h.remaining, hrem, zero_add, hurem]
      exact Set.right_mem_uIcc
    have hout := hsecond.outdone hsplits.advances hob hsplits.isInt256 hu hboth h.together.second
      (hustate.trans h.together.state) hmem
    have := hout.gained
    omega
  | @advance s s' e hgo hstep rest ih =>
    have hgo' := h.unfinished hsplits hgo
    cases hboth with
    | done hfin =>
      rw [hgo'] at hfin
      cases hfin
    | @advance _ t' _ _ hstep' rest' =>
      rcases h.advance hsplits hgo hstep hstep' with
        ⟨hal, heq⟩ | ⟨next, flag, taken, whole, hadv, hadv', hzero, hshort⟩
      · have := ih hal hlimit hustate rest'
        omega
      · obtain rfl := rest.eq_of_finished (finished_eq_true_iff.mpr (Or.inl hzero))
        exact h.completes_short hsplits hgo hstep hzero hstep' hadv hadv' hshort hu hustate hurem
          hsecond rest'

theorem Pool.Alongside.start (hsplits : pool.Splits d a b limit)
    (hlimit : Order.checkLimit ⟨d, a, limit⟩ pool.state.sqrtPrice = .ok ()) :
    pool.Alongside d a b limit (pool.start ⟨d, a, limit⟩) (pool.start ⟨d, a + b, limit⟩) :=
  ⟨.start hlimit hlimit, hsplits.first_nonneg, rfl⟩

end Split

/-! ## Swaps -/

section Swaps

variable {pool next : Pool} {d : Direction} {a b : ℤ} {r r₁ r₂ : SwapOutcome} {o : Order}
  {s e : Progress} {p : PoolState}

/-- The advances of an order do not depend on where the pool stands. -/
theorem Pool.Completes.of_withState {hp : p.Accepted} (h : (pool.withState p hp).Completes o s e) :
    pool.Completes o s e :=
  h.transfer rfl rfl rfl

/-- A limit that is accepted is not met yet. -/
theorem Order.ne_limit {price : ℕ} (h : o.checkLimit price = .ok ()) : price ≠ o.limit := by
  unfold checkLimit at h
  rintro rfl
  split at h
  · split at h
    · cases h
    · simp at h
  · split at h
    · cases h
    · simp at h

theorem steady_of_list_or_bitmap {source : TickSource} {spacing : ℤ}
    (h : (∃ l : TickList, source = l.source) ∨
      ∃ b : TickBitmap, (∀ i, b.words.word i < 2 ^ 256) ∧ source = b.source) :
    source.Steady spacing := by
  rcases h with ⟨l, rfl⟩ | ⟨b, hb, rfl⟩
  · exact l.steady spacing
  · exact b.steady hb spacing

/-- **Splitting an order never pays.** Over any list of ticks and any table with words of 256 bits:
what an input order of `a` receives, and one of `b` on the pool that it leaves, is together no more
than what an order of `a + b` receives. For a price that moves down, the denominators of the price
formula are to fit in 256 bits at every liquidity that the last order comes to. -/
theorem swap_split
    (hsource : (∃ l : TickList, pool.ticks = l.source) ∨
      ∃ b : TickBitmap, (∀ i, b.words.word i < 2 ^ 256) ∧ pool.ticks = b.source)
    (ha : 0 ≤ a) (hb : 0 ≤ b) (hab : IsInt256 (a + b))
    (hfits : d = .down → ∀ n s, pool.Reaches ⟨.down, a + b, Order.defaultLimit .down⟩ n s →
      (a + b) * pool.state.sqrtPrice + s.state.liquidity * 2 ^ 96 < 2 ^ 256)
    (h₁ : pool.swap d a none = .ok r₁) (hmove : pool.moveTo r₁.state = .ok next)
    (h₂ : next.swap d b none = .ok r₂) (h : pool.swap d (a + b) none = .ok r) :
    r₁.received d + r₂.received d ≤ r.received d := by
  have hadv : pool.ticks.Advances pool.spacing :=
    advances_of_list_or_bitmap (hsource.imp_right fun ⟨b, _, hb⟩ => ⟨b, hb⟩)
  have hsteady : pool.ticks.Steady pool.spacing := steady_of_list_or_bitmap hsource
  obtain ⟨_, e₁, rfl, hlimit₁, hrun₁, rfl⟩ := Pool.swap_completes h₁
  obtain ⟨hacc, rfl⟩ := Pool.moveTo_eq_ok_iff.mp hmove
  obtain ⟨_, e₂, rfl, hlimit₂, hrun₂, rfl⟩ := Pool.swap_completes h₂
  obtain ⟨_, e, rfl, hlimit, hrun, rfl⟩ := Pool.swap_completes h
  have hsplits : pool.Splits d a b (Order.defaultLimit d) := by
    refine ⟨hadv, hsteady, (Pool.checkLimit_eq_ok pool.accepted hlimit).1, ha, hb, hab, ?_⟩
    refine fun n t hreach => .of_int (add_nonneg ha hb) ?_
    rintro rfl
    exact hfits rfl n t hreach
  have hends : e₁.state.sqrtPrice ≠ Order.defaultLimit d := fun heq =>
    Order.ne_limit hlimit₂ ((congrArg PoolState.sqrtPrice (Pool.settle_state _ e₁)).trans heq)
  have hle := (Pool.Alongside.start hsplits hlimit₁).completes hsplits hrun₁ hends
    (Trading.start hlimit₂) (Pool.settle_state _ e₁) rfl hrun₂.of_withState hrun
  simp only [(Order.accounts_start _ _).2, sub_zero] at hle
  exact hle

theorem nestedPool_sold : (⟨79122981697261444713038750824, 1500000, -27⟩ : PoolState).Accepted :=
  ⟨by decide, by unfold PoolState.InTick ratioAt; decide, by decide⟩

/-- Selling 2000 and then 3000 brings 4965, selling 5000 at once 4966. -/
theorem swap_split_nested :
    ((∃ l : TickList, nestedPool.ticks = l.source) ∨
      ∃ b : TickBitmap, (∀ i, b.words.word i < 2 ^ 256) ∧ nestedPool.ticks = b.source) ∧
      IsInt256 (2000 + 3000) ∧
      (∀ n s, nestedPool.Reaches ⟨.down, 2000 + 3000, Order.defaultLimit .down⟩ n s →
        (2000 + 3000) * (nestedPool.state.sqrtPrice : ℤ) + s.state.liquidity * 2 ^ 96 < 2 ^ 256) ∧
      ∃ r₁ next r₂ r, nestedPool.swap .down 2000 none = .ok r₁ ∧
        nestedPool.moveTo r₁.state = .ok next ∧ next.swap .down 3000 none = .ok r₂ ∧
        nestedPool.swap .down (2000 + 3000) none = .ok r ∧
        r₁.received .down + r₂.received .down = 4965 ∧ r.received .down = 4966 ∧
        r₁.received .down + r₂.received .down ≤ r.received .down := by
  have hsource : (∃ l : TickList, nestedPool.ticks = l.source) ∨
      ∃ b : TickBitmap, (∀ i, b.words.word i < 2 ^ 256) ∧ nestedPool.ticks = b.source :=
    Or.inl ⟨nestedTicks, rfl⟩
  have hab : IsInt256 (2000 + 3000) := by decide
  have hfits : ∀ n s, nestedPool.Reaches ⟨.down, 2000 + 3000, Order.defaultLimit .down⟩ n s →
      (2000 + 3000) * (nestedPool.state.sqrtPrice : ℤ) + s.state.liquidity * 2 ^ 96 < 2 ^ 256 := by
    intro n s hreach
    have hlt := (hreach.trading (nestedTicks.advances _) (by decide)).underway.accepted.liquidity_lt
    have hprice : nestedPool.state.sqrtPrice = 2 ^ 96 := rfl
    rw [pow2_eq] at hlt
    rw [hprice]
    push_cast
    omega
  have h₁ : nestedPool.swap .down 2000 none =
      .ok ⟨2000, -1991, ⟨79122981697261444713038750824, 1500000, -27⟩, 6⟩ := by decide +kernel
  have hmove : nestedPool.moveTo ⟨79122981697261444713038750824, 1500000, -27⟩ =
      .ok (nestedPool.withState _ nestedPool_sold) :=
    Pool.moveTo_eq_ok_iff.mpr ⟨nestedPool_sold, rfl⟩
  have h₂ : (nestedPool.withState _ nestedPool_sold).swap .down 3000 none =
      .ok ⟨3000, -2974, ⟨78953298129055874447463142322, 1000000, -70⟩, 10⟩ := by decide +kernel
  have h : nestedPool.swap .down (2000 + 3000) none =
      .ok ⟨5000, -4966, ⟨78953298129055874447463142322, 1000000, -70⟩, 16⟩ := by decide +kernel
  exact ⟨hsource, hab, hfits, _, _, _, _, h₁, hmove, h₂, h, rfl, rfl,
    swap_split hsource (by decide) (by decide) hab (fun _ => hfits) h₁ hmove h₂ h⟩

end Swaps

end Clamm
