import Mathlib
import Clamm.Proofs.Swap.Advance
import Clamm.Proofs.Ticks.Flagged

/-!
# Swaps and sequences of swaps stay on the grid

A `Session` is a sequence of successful swaps, each on the pool that the one before it left. Moving
a pool to the outcome of a swap never fails, so a session ends only where a swap does.

* `Pool.swap_underway`: the outcome of a swap is accepted, and lies between the start and the limit.
* `Pool.moveTo_eq_ok_iff`: a pool can be moved to every accepted state, and to no other.
* `swap_between_limits`: both, for every pool that a session reaches.
-/

namespace Clamm

theorem Token.pair_of_before {a b : Token} (h : a.Before b) : a.pair b = .ok ⟨(a, b), h⟩ := by
  unfold Token.pair
  rw [dif_pos h.1, dif_pos h.2]

namespace Pool

variable {pool next : Pool} {d : Direction} {amount : ℤ} {limit : Option ℕ} {r : SwapOutcome}
  {s : PoolState}

theorem accepted (pool : Pool) : pool.state.Accepted :=
  ⟨pool.tick_mem, pool.price_mem, pool.liquidity_lt⟩

/-! ## One swap -/

/-- An accepted limit lies inside the grid and ahead of the price. -/
theorem checkLimit_eq_ok {o : Order} (hs : s.Accepted) (h : o.checkLimit s.sqrtPrice = .ok ()) :
    o.Inside ∧ o.direction.Leads s.sqrtPrice o.limit := by
  obtain ⟨hlow, hhigh⟩ := hs.range
  unfold Order.checkLimit at h
  unfold Order.Inside
  split at h
  · rename_i hd
    rw [hd]
    split at h
    · cases h
    · split at h
      · cases h
      · exact ⟨by omega, le_of_lt (by omega)⟩
  · rename_i hd
    rw [hd]
    split at h
    · cases h
    · split at h
      · cases h
      · exact ⟨by omega, le_of_lt (by omega)⟩

theorem settle_state (o : Order) (e : Progress) : (o.settle e).state = e.state := by
  unfold Order.settle
  dsimp only
  split <;> rfl

/-- **The outcome of a swap is accepted and lies between the start and the limit.** -/
theorem swap_underway (hadv : pool.ticks.Advances pool.spacing)
    (h : pool.swap d amount limit = .ok r) :
    r.state.Accepted ∧ d.Leads pool.state.sqrtPrice r.state.sqrtPrice ∧
      d.Leads r.state.sqrtPrice (limit.getD (Order.defaultLimit d)) := by
  obtain ⟨o, e, ho, hlimit, hrun, rfl⟩ := swap_eq_ok h
  obtain ⟨hin, hbefore⟩ := checkLimit_eq_ok pool.accepted hlimit
  have hend : Underway o e.state ∧ o.direction.Leads pool.state.sqrtPrice e.state.sqrtPrice := by
    refine run_induction (P := fun s => Underway o s.state ∧
      o.direction.Leads pool.state.sqrtPrice s.state.sqrtPrice) ?_
      ⟨⟨pool.accepted, hbefore⟩, Direction.Leads.refl _ _⟩ hrun
    rintro s s' ⟨hu, hlead⟩ - hs
    obtain ⟨hu', hlead'⟩ := hu.advance hadv hin hs
    exact ⟨hu', hlead.trans hlead'⟩
  rw [settle_state]
  subst ho
  exact ⟨hend.1.accepted, hend.2, hend.1.before⟩

/-! ## Making and moving a pool -/

/-- The same pool in another accepted state. -/
def withState (pool : Pool) (s : PoolState) (hs : s.Accepted) : Pool :=
  { pool with
    state := s
    tick_mem := hs.tick_mem
    price_mem := hs.in_tick
    price_pos := hs.pos
    liquidity_lt := hs.liquidity_lt }

/-- An accepted pool is made of what it was made from. -/
theorem make_eq_ok {a b : Token} {fee : ℕ} {spacing : ℤ} {p : PoolState} {source : TickSource}
    (h : make a b fee spacing p source = .ok pool) :
    pool.state = p ∧ pool.ticks = source ∧ pool.spacing = spacing ∧ pool.fee = fee := by
  simp only [make, dite_error_eq_ok_iff, bind_eq_ok_iff] at h
  obtain ⟨_, _, _, _, _, _, _, _, h⟩ := h
  cases h
  exact ⟨rfl, rfl, rfl, rfl⟩

/-- **A pool can be moved to every accepted state, and to no other.** -/
theorem moveTo_eq_ok_iff : pool.moveTo s = .ok next ↔ ∃ hs, next = pool.withState s hs := by
  simp only [moveTo, make, dite_error_eq_ok_iff, bind_eq_ok_iff]
  constructor
  · rintro ⟨_, _, ht, hp, pair, hpair, _, hl, h⟩
    rw [Token.pair_of_before pool.ordered] at hpair
    cases hpair
    cases h
    exact ⟨⟨ht, hp, hl⟩, rfl⟩
  · rintro ⟨hs, rfl⟩
    exact ⟨pool.fee_lt, pool.spacing_pos, hs.tick_mem, hs.in_tick, _,
      Token.pair_of_before pool.ordered, hs.pos, hs.liquidity_lt, rfl⟩

/-! ## Sessions -/

/-- The outcomes of successful swaps, each on the pool that the swap before it left. -/
inductive Session : Pool → List SwapOutcome → Pool → Prop
  | nil (pool : Pool) : Session pool [] pool
  | cons {pool next last : Pool} {d : Direction} {amount : ℤ} {limit : Option ℕ}
      {r : SwapOutcome} {rs : List SwapOutcome} (swap : pool.swap d amount limit = .ok r)
      (move : pool.moveTo r.state = .ok next) (rest : Session next rs last) :
      Session pool (r :: rs) last

/-- A session changes neither the ticks of the pool nor their spacing. -/
theorem Session.source_eq {last : Pool} {rs : List SwapOutcome} (h : Session pool rs last) :
    last.ticks = pool.ticks ∧ last.spacing = pool.spacing := by
  induction h with
  | nil => exact ⟨rfl, rfl⟩
  | cons _ hmove _ ih =>
    obtain ⟨hs, rfl⟩ := moveTo_eq_ok_iff.mp hmove
    exact ih

end Pool

/-- **Swaps stay between their limits and on the grid.** Over any list and any table of ticks, on
every pool that swaps lead to: the price of a successful swap ends between the start and the limit,
its tick is a tick of the grid with the price between its own price and that of the next tick, and
the pool can be moved there. -/
theorem swap_between_limits {pool last : Pool} {rs : List SwapOutcome} {d : Direction} {amount : ℤ}
    {limit : Option ℕ} {r : SwapOutcome}
    (hsource : (∃ l : TickList, pool.ticks = l.source) ∨ ∃ b : TickBitmap, pool.ticks = b.source)
    (hsession : pool.Session rs last) (h : last.swap d amount limit = .ok r) :
    (d.Leads last.state.sqrtPrice r.state.sqrtPrice ∧
        d.Leads r.state.sqrtPrice (limit.getD (Order.defaultLimit d))) ∧
      (minTick ≤ r.state.tick ∧ r.state.tick < maxTick) ∧
      (∃ lower upper, sqrtPriceAt r.state.tick = .ok lower ∧
        sqrtPriceAt (r.state.tick + 1) = .ok upper ∧
        lower ≤ r.state.sqrtPrice ∧ r.state.sqrtPrice ≤ upper) ∧
      ∃ next, last.moveTo r.state = .ok next ∧ next.state = r.state := by
  obtain ⟨hticks, hspacing⟩ := hsession.source_eq
  have hadv : last.ticks.Advances last.spacing := by
    rw [hticks]
    rcases hsource with ⟨l, hl⟩ | ⟨b, hb⟩
    · rw [hl]
      exact l.advances _
    · rw [hb]
      exact b.advances _
  obtain ⟨hacc, hleaves, hstops⟩ := Pool.swap_underway hadv h
  have hnext : last.moveTo r.state = .ok (last.withState r.state hacc) :=
    Pool.moveTo_eq_ok_iff.mpr ⟨hacc, rfl⟩
  obtain ⟨ht1, ht2⟩ := hacc.tick_mem
  obtain ⟨hl, hu⟩ := hacc.in_tick
  exact ⟨⟨hleaves, hstops⟩, ⟨ht1, ht2⟩,
    ⟨_, _, sqrtPriceAt_eq_ok_iff.mpr ⟨⟨ht1, ht2.le⟩, rfl⟩,
      sqrtPriceAt_eq_ok_iff.mpr ⟨⟨by omega, Int.add_one_le_of_lt ht2⟩, rfl⟩, hl, hu⟩,
    _, hnext, rfl⟩

/-- Two positions around tick 0, one within the other. -/
def nestedTicks : TickList where
  ticks := [⟨-120, 1000000, 1000000⟩, ⟨-60, 500000, 500000⟩, ⟨60, 500000, -500000⟩,
    ⟨120, 1000000, -1000000⟩]
  sorted := by decide

/-- A pool of the two positions at price 1. -/
def nestedPool : Pool where
  token0 := ⟨1, 1, 18, none, none⟩
  token1 := ⟨1, 2, 18, none, none⟩
  fee := 3000
  spacing := 60
  state := ⟨pow2 96, 1500000, 0⟩
  ticks := nestedTicks.source
  ordered := by decide
  fee_lt := by decide
  spacing_pos := by decide
  tick_mem := by decide
  price_mem := by decide +kernel
  price_pos := by decide
  liquidity_lt := by decide

/-- A swap that leaves the inner position ends in the outer one. -/
theorem swap_between_limits_nested :
    ∃ r, nestedPool.swap .down 5000 none = .ok r ∧ r.state.tick = -70 ∧
      (minTick ≤ r.state.tick ∧ r.state.tick < maxTick) ∧
      ∃ next, nestedPool.moveTo r.state = .ok next ∧ next.state = r.state :=
  have h : nestedPool.swap .down 5000 none =
      .ok ⟨5000, -4966, ⟨78953298129055874447463142322, 1000000, -70⟩, 16⟩ := by decide +kernel
  have hrange := swap_between_limits (Or.inl ⟨nestedTicks, rfl⟩) (.nil nestedPool) h
  ⟨_, h, rfl, hrange.2.1, hrange.2.2.2⟩

end Clamm
