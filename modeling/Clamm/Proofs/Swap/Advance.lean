import Mathlib
import Clamm.Pool.Swap
import Clamm.Proofs.Grid.Inverse
import Clamm.Proofs.Step.Sound
import Clamm.Proofs.Ticks.Source

/-!
# What one advance of a swap does

`Pool.advance` searches, trades and lands. `Pool.advance_eq_ok_iff` gives the parts of an advance
that succeeds, and `Pool.land_eq_ok` tells the three ways of landing apart: on the grid point that
was searched, on the price the advance started from, and anywhere else.

A state that `Pool.make` accepts (`PoolState.Accepted`) on its way to a limit inside the grid stays
one (`Underway.advance`). Every law of a whole swap goes through `Pool.run_induction`.
-/

namespace Clamm

/-- The tick that a search is taken to stop at. -/
def stopTick (next : ℤ) : ℤ := max minTick (min next maxTick)

theorem stopTick_mem (next : ℤ) : minTick ≤ stopTick next ∧ stopTick next ≤ maxTick :=
  ⟨le_max_left _ _, max_le (by decide) (min_le_right _ _)⟩

/-- A stop inside the grid is the one that the search found. -/
theorem eq_of_stopTick {next : ℤ} (h1 : minTick < stopTick next) (h2 : stopTick next < maxTick) :
    stopTick next = next := by
  unfold stopTick at *
  omega

namespace Pool

variable {pool : Pool} {o : Order} {s s' : Progress} {d : Direction} {amount : ℤ}
  {limit : Option ℕ} {r : SwapOutcome}

/-- The parts of a successful advance. -/
structure Advanced (pool : Pool) (o : Order) (s s' : Progress) (next : ℤ) (flag : Bool)
    (taken : Step) : Prop where
  search : pool.ticks.next s.state.tick pool.spacing o.direction = .ok (next, flag)
  trade : step s.state.sqrtPrice (o.target (ratioAt (stopTick next))) s.state.liquidity s.remaining
    pool.fee = .ok taken
  book : (s'.remaining, s'.other) = o.book s (taken.amountIn + taken.fee) taken.amountOut
  land : pool.land o.direction s.state (stopTick next) (ratioAt (stopTick next)) flag taken.next =
    .ok s'.state

/-- An advance succeeds exactly with its parts, if what it takes and pays fits in 256 bits. -/
theorem advance_eq_ok_iff : pool.advance o s = .ok s' ↔ ∃ next flag taken,
    Advanced pool o s s' next flag taken ∧
      (IsInt256 (taken.amountIn + taken.fee) ∧ IsInt256 taken.amountOut) ∧
      s'.fees = s.fees + taken.fee := by
  constructor
  · intro h
    obtain ⟨⟨next, flag⟩, hsearch, h1⟩ := bind_eq_ok_iff.mp h
    obtain ⟨edge, hedge, h2⟩ := bind_eq_ok_iff.mp h1
    obtain ⟨taken, htrade, h3⟩ := bind_eq_ok_iff.mp h2
    obtain ⟨paidIn, hin, h4⟩ := bind_eq_ok_iff.mp h3
    obtain ⟨paidOut, hout, h5⟩ := bind_eq_ok_iff.mp h4
    obtain ⟨⟨remaining, other⟩, hbook⟩ : ∃ pair, pair = o.book s paidIn paidOut := ⟨_, rfl⟩
    rw [← hbook] at h5
    obtain ⟨state, hland, h6⟩ := bind_eq_ok_iff.mp h5
    cases h6
    rw [(sqrtPriceAt_eq_ok_iff.mp hedge).2] at htrade hland
    obtain ⟨hfitsIn, rfl⟩ := toInt256_eq_ok_iff.mp hin
    obtain ⟨hfitsOut, rfl⟩ := toInt256_eq_ok_iff.mp hout
    exact ⟨next, flag, taken, ⟨hsearch, htrade, hbook, hland⟩, ⟨hfitsIn, hfitsOut⟩, rfl⟩
  · rintro ⟨next, flag, taken, ⟨hsearch, htrade, hbook, hland⟩, ⟨hin, hout⟩, hfees⟩
    obtain ⟨remaining, other, state, fees⟩ := s'
    have hedge : sqrtPriceAt (stopTick next) = .ok (ratioAt (stopTick next)) :=
      sqrtPriceAt_eq_ok_iff.mpr ⟨stopTick_mem next, rfl⟩
    unfold stopTick at hedge htrade hland
    unfold advance
    simp only [hsearch, ok_bind, hedge, htrade, toInt256_eq_ok_iff.mpr ⟨hin, rfl⟩,
      toInt256_eq_ok_iff.mpr ⟨hout, rfl⟩, ← hbook, hland, ← hfees]
    rfl

theorem advance_eq_ok (h : pool.advance o s = .ok s') :
    ∃ next flag taken, Advanced pool o s s' next flag taken := by
  obtain ⟨next, flag, taken, h, -⟩ := advance_eq_ok_iff.mp h
  exact ⟨next, flag, taken, h⟩

/-- Landing on the price `edge` of the grid point `stop`. -/
structure Crossed (pool : Pool) (d : Direction) (s : PoolState) (stop : ℤ) (flag : Bool)
    (s' : PoolState) : Prop where
  tick : s'.tick = tickBeyond stop d
  kept : flag = false → s'.liquidity = s.liquidity
  changed : flag = true → ∃ t change, pool.ticks.find stop = .ok t ∧ t.crossed d = .ok change ∧
    addLiquidity s.liquidity change = .ok s'.liquidity

/-- The ways of landing. -/
theorem land_eq_ok {s s' : PoolState} {stop : ℤ} {edge price : ℕ} {flag : Bool}
    (h : pool.land d s stop edge flag price = .ok s') : s'.sqrtPrice = price ∧
      ((price = edge ∧ Crossed pool d s stop flag s') ∨
        (price ≠ edge ∧ price = s.sqrtPrice ∧ s' = s) ∨
        (price ≠ edge ∧ price ≠ s.sqrtPrice ∧ s'.liquidity = s.liquidity ∧
          IsTickOf price s'.tick)) := by
  unfold land at h
  split at h
  · rename_i hedge
    cases flag with
    | true =>
      obtain ⟨t, ht, h⟩ := bind_eq_ok_iff.mp h
      obtain ⟨change, hchange, h⟩ := bind_eq_ok_iff.mp h
      obtain ⟨l, hl, h⟩ := bind_eq_ok_iff.mp h
      cases h
      exact ⟨rfl, Or.inl ⟨hedge, rfl, nofun, fun _ => ⟨t, change, ht, hchange, hl⟩⟩⟩
    | false =>
      obtain ⟨l, hl, h⟩ := bind_eq_ok_iff.mp h
      cases hl
      cases h
      exact ⟨rfl, Or.inl ⟨hedge, rfl, fun _ => rfl, nofun⟩⟩
  · rename_i hedge
    split at h
    · rename_i hsame
      cases h
      exact ⟨hsame.symm, Or.inr (Or.inl ⟨hedge, hsame, rfl⟩)⟩
    · rename_i hmoved
      obtain ⟨t, ht, h⟩ := bind_eq_ok_iff.mp h
      cases h
      exact ⟨rfl, Or.inr (Or.inr ⟨hedge, hmoved, rfl, tickAt_eq_ok_iff.mp ht⟩)⟩

/-! ## Runs -/

/-- What every advance of an unfinished swap preserves holds when the swap ends. -/
theorem run_induction {P : Progress → Prop}
    (hstep : ∀ s s', P s → finished o s = false → pool.advance o s = .ok s' → P s') :
    ∀ {steps : ℕ} {s r : Progress}, P s → pool.run o steps s = .ok r → P r
  | 0, s, r, hs, h => by
    unfold run at h
    split at h
    · cases h
      exact hs
    · cases h
  | steps + 1, s, r, hs, h => by
    unfold run at h
    split at h
    · cases h
      exact hs
    · rename_i hgo
      obtain ⟨s', hs', h⟩ := bind_eq_ok_iff.mp h
      exact run_induction hstep (hstep s s' hs (Bool.eq_false_iff.mpr hgo) hs') h

/-- A successful swap is a run of an order whose limit was accepted. -/
theorem swap_eq_ok (h : pool.swap d amount limit = .ok r) :
    ∃ o e, o = ⟨d, amount, limit.getD (Order.defaultLimit d)⟩ ∧
      o.checkLimit pool.state.sqrtPrice = .ok () ∧
      pool.run o maxSteps (pool.start o) = .ok e ∧ r = o.settle e := by
  obtain ⟨⟨⟩, hlimit, h⟩ := bind_eq_ok_iff.mp h
  obtain ⟨e, hrun, h⟩ := bind_eq_ok_iff.mp h
  cases h
  exact ⟨_, e, rfl, hlimit, hrun, rfl⟩

end Pool

/-! ## Staying on the grid -/

/-- What `Pool.make` asks of a state. -/
structure PoolState.Accepted (s : PoolState) : Prop where
  tick_mem : minTick ≤ s.tick ∧ s.tick < maxTick
  in_tick : s.InTick
  liquidity_lt : s.liquidity < pow2 128

theorem PoolState.Accepted.pos {s : PoolState} (hs : s.Accepted) : 0 < s.sqrtPrice :=
  (ratioAt_pos hs.tick_mem.1 hs.tick_mem.2.le).trans_le hs.in_tick.1

theorem PoolState.Accepted.range {s : PoolState} (hs : s.Accepted) :
    minSqrtPrice ≤ s.sqrtPrice ∧ s.sqrtPrice ≤ maxSqrtPrice := by
  obtain ⟨⟨h1, h2⟩, ⟨hl, hu⟩, -⟩ := hs
  exact ⟨(ratioAt_range h1 h2.le).1.trans hl,
    hu.trans (ratioAt_range (by omega) (Int.add_one_le_of_lt h2)).2⟩

/-- The limit lies strictly inside the grid. -/
def Order.Inside (o : Order) : Prop := minSqrtPrice < o.limit ∧ o.limit < maxSqrtPrice

/-- A state on its way to the limit of an order. -/
structure Underway (o : Order) (s : PoolState) : Prop where
  accepted : s.Accepted
  before : o.direction.Leads s.sqrtPrice o.limit

/-- The ticks from `tick` to `stop` are ticks of the grid. -/
def Direction.Spans (d : Direction) (tick stop : ℤ) : Prop :=
  (minTick ≤ d.lower tick stop ∧ d.lower tick stop ≤ tick) ∧
    (tick < d.upper tick stop ∧ d.upper tick stop ≤ maxTick)

/-- The square-root price `p` lies between those of the ticks from `tick` to `stop`. -/
def Direction.Encloses (d : Direction) (tick stop : ℤ) (p : ℕ) : Prop :=
  ratioAt (d.lower tick stop) ≤ p ∧ p ≤ ratioAt (d.upper tick stop)

/-- Where an advance toward the grid point `stop` leads: within the ticks that it searched, and to
one of the three landings. -/
structure Stride (pool : Pool) (d : Direction) (s s' : PoolState) (stop : ℤ) (flag : Bool) :
    Prop where
  spans : d.Spans s.tick stop
  start : d.Encloses s.tick stop s.sqrtPrice
  arrival : d.Encloses s.tick stop s'.sqrtPrice
  landing : (s'.sqrtPrice = ratioAt stop ∧ (minTick < stop ∧ stop < maxTick) ∧
      pool.Crossed d s stop flag s') ∨
    s' = s ∨
    (s'.liquidity = s.liquidity ∧ IsTickOf s'.sqrtPrice s'.tick ∧
      (d.lower s.tick stop ≤ s'.tick ∧ s'.tick < d.upper s.tick stop))

section

variable {pool : Pool} {o : Order} {s s' : Progress} {d : Direction} {tick next stop : ℤ}
  {flag : Bool} {taken : Step} {p q edge l l' : ℕ} {change : ℤ}

theorem addLiquidity_eq_ok (h : addLiquidity l change = .ok l') :
    (l' : ℤ) = l + change ∧ (l < pow2 128 → l' < pow2 128) := by
  unfold addLiquidity at h
  split at h
  · split at h
    · cases h
    · cases h
      exact ⟨by omega, by omega⟩
  · obtain ⟨hlt, rfl⟩ := toUnsigned_eq_ok_iff.mp h
    exact ⟨by omega, fun _ => hlt⟩

theorem spans_stopTick (hadv : pool.ticks.Advances pool.spacing)
    (ht : minTick ≤ tick ∧ tick < maxTick)
    (h : pool.ticks.next tick pool.spacing d = .ok (next, flag)) :
    d.Spans tick (stopTick next) := by
  have hnext := hadv tick d next flag h
  have hstop := stopTick_mem next
  cases d with
  | down =>
    simp only [Direction.Spans, Direction.lower, Direction.upper] at hnext ⊢
    unfold stopTick at *
    omega
  | up =>
    simp only [Direction.Spans, Direction.lower, Direction.upper] at hnext ⊢
    unfold stopTick at *
    omega

/-- The price of an accepted state lies between those of the ticks it searches. -/
theorem PoolState.Accepted.encloses {s : PoolState} (hs : s.Accepted)
    (hspan : d.Spans s.tick stop) : d.Encloses s.tick stop s.sqrtPrice := by
  obtain ⟨⟨h1, h2⟩, h3, h4⟩ := hspan
  obtain ⟨⟨ht1, ht2⟩, ⟨hl, hu⟩, -⟩ := hs
  exact ⟨(ratioAt_le_ratioAt h1 h2 ht2.le).trans hl,
    hu.trans (ratioAt_le_ratioAt (by omega) (by omega) h4)⟩

/-- The target of a step lies ahead of the price. -/
theorem leads_target {s : PoolState} (hu : Underway o s)
    (hstart : o.direction.Encloses s.tick stop s.sqrtPrice) :
    o.direction.Leads s.sqrtPrice (o.target (ratioAt stop)) := by
  have hbefore := hu.before
  unfold Order.target
  cases hd : o.direction with
  | down =>
    rw [hd] at hstart hbefore
    exact max_le hstart.1 hbefore
  | up =>
    rw [hd] at hstart hbefore
    exact le_min hstart.2 hbefore

/-- Whatever is not ahead of the target is neither ahead of the grid point nor of the limit. -/
theorem leads_of_target (h : o.direction.Leads q (o.target edge)) :
    o.direction.Leads q edge ∧ o.direction.Leads q o.limit := by
  unfold Order.target at h
  cases hd : o.direction with
  | down =>
    rw [hd] at h
    exact max_le_iff.mp h
  | up =>
    rw [hd] at h
    exact le_min_iff.mp h

/-- A grid point that a limit inside the grid lets one reach is inside the grid. -/
theorem stop_inside (ho : o.Inside) (hstop : minTick ≤ stop ∧ stop ≤ maxTick)
    (hspan : o.direction.Spans tick stop) (hlimit : o.direction.Leads (ratioAt stop) o.limit) :
    minTick < stop ∧ stop < maxTick := by
  obtain ⟨hlo, hhi⟩ := ho
  cases hd : o.direction with
  | down =>
    rw [hd] at hspan hlimit
    have hlt : ratioAt minTick < ratioAt stop := ratioAt_minTick ▸ hlo.trans_le hlimit
    have := lt_of_ratioAt_lt (by decide) hstop.1 hlt
    simp only [Direction.Spans, Direction.lower, Direction.upper] at hspan
    omega
  | up =>
    rw [hd] at hspan hlimit
    have hlt : ratioAt stop < ratioAt maxTick := ratioAt_maxTick ▸ hlimit.trans_lt hhi
    have := lt_of_ratioAt_lt hstop.2 (by decide) hlt
    simp only [Direction.Spans, Direction.lower, Direction.upper] at hspan
    omega

/-- The price stays within the searched ticks. -/
theorem Direction.Encloses.arrival (hstart : d.Encloses tick stop p) (hleaves : d.Leads p q)
    (hstops : d.Leads q (ratioAt stop)) : d.Encloses tick stop q := by
  cases d with
  | down => exact ⟨hstops, le_trans hleaves hstart.2⟩
  | up => exact ⟨hstart.1.trans hleaves, hstops⟩

/-- A price that moved and did not reach the stop is below the upper end of the search. -/
theorem Direction.Encloses.lt_upper (hstart : d.Encloses tick stop p) (hleaves : d.Leads p q)
    (hstops : d.Leads q (ratioAt stop)) (hedge : q ≠ ratioAt stop) (hmoved : q ≠ p) :
    q < ratioAt (d.upper tick stop) := by
  cases d with
  | down => exact (lt_of_le_of_ne hleaves hmoved).trans_le hstart.2
  | up => exact lt_of_le_of_ne hstops hedge

/-- **An advance is a sound step that stays within the ticks it searched.** -/
theorem Underway.stride (hadv : pool.ticks.Advances pool.spacing) (ho : o.Inside)
    (hu : Underway o s.state) (h : pool.Advanced o s s' next flag taken) :
    taken.Sound o.direction s.state.sqrtPrice (o.target (ratioAt (stopTick next)))
        s.state.liquidity s.remaining ∧
      s'.state.sqrtPrice = taken.next ∧
      Stride pool o.direction s.state s'.state (stopTick next) flag := by
  have hspan := spans_stopTick hadv hu.accepted.tick_mem h.search
  have hstart := hu.accepted.encloses hspan
  have hsound := step_sound (leads_target hu hstart) h.trade
  obtain ⟨hedge, hlimit⟩ := leads_of_target hsound.stops
  have hin := hstart.arrival hsound.leaves hedge
  obtain ⟨hprice, hland⟩ := Pool.land_eq_ok h.land
  refine ⟨hsound, hprice, hspan, hstart, hprice ▸ hin, ?_⟩
  rcases hland with ⟨heq, hcross⟩ | ⟨-, -, hsame⟩ | ⟨hne, hmoved, hkept, htick⟩
  · rw [heq] at hlimit
    exact Or.inl ⟨hprice.trans heq, stop_inside ho (stopTick_mem next) hspan hlimit, hcross⟩
  · exact Or.inr (Or.inl hsame)
  · refine Or.inr (Or.inr ⟨hkept, hprice ▸ htick, ?_⟩)
    have hlt := hstart.lt_upper hsound.leaves hedge hne hmoved
    obtain ⟨⟨ht1, ht2⟩, hl, hu⟩ := htick
    obtain ⟨⟨hs1, hs2⟩, hs3, hs4⟩ := hspan
    have h1 := lt_of_ratioAt_lt (by omega) (by omega) (hin.1.trans_lt hu)
    have h2 := lt_of_ratioAt_lt ht2.le (by omega) (hl.trans_lt hlt)
    exact ⟨by omega, h2⟩

theorem Pool.Crossed.liquidity_lt {s s' : PoolState} (h : pool.Crossed d s stop flag s')
    (hs : s.liquidity < pow2 128) : s'.liquidity < pow2 128 := by
  cases flag with
  | true =>
    obtain ⟨t, change, -, -, hadd⟩ := h.changed rfl
    exact (addLiquidity_eq_ok hadd).2 hs
  | false =>
    rw [h.kept rfl]
    exact hs

/-- The tick that is assigned at a grid point is one of the two that share its price. -/
theorem tickBeyond_mem (d : Direction) (stop : ℤ) :
    tickBeyond stop d ≤ stop ∧ stop ≤ tickBeyond stop d + 1 := by
  cases d <;> simp [tickBeyond]

/-- A landing is accepted. -/
theorem Stride.accepted {s s' : PoolState} (h : Stride pool d s s' stop flag) (hs : s.Accepted) :
    s'.Accepted := by
  rcases h.landing with ⟨hprice, ⟨h1, h2⟩, hcross⟩ | hsame | ⟨hkept, htick, -⟩
  · obtain ⟨hb1, hb2⟩ := tickBeyond_mem d stop
    rw [← hcross.tick] at hb1 hb2
    refine ⟨⟨by omega, by omega⟩, ⟨?_, ?_⟩, hcross.liquidity_lt hs.liquidity_lt⟩
    · rw [hprice]
      exact ratioAt_le_ratioAt (by omega) hb1 h2.le
    · rw [hprice]
      exact ratioAt_le_ratioAt h1.le hb2 (by omega)
  · rw [hsame]
    exact hs
  · exact ⟨htick.1, ⟨htick.2.1, htick.2.2.le⟩, hkept ▸ hs.liquidity_lt⟩

/-- **An advance keeps a swap underway.** -/
theorem Underway.advance (hadv : pool.ticks.Advances pool.spacing) (ho : o.Inside)
    (hu : Underway o s.state) (h : pool.advance o s = .ok s') :
    Underway o s'.state ∧ o.direction.Leads s.state.sqrtPrice s'.state.sqrtPrice := by
  obtain ⟨next, flag, taken, h⟩ := Pool.advance_eq_ok h
  obtain ⟨hsound, hprice, hstride⟩ := hu.stride hadv ho h
  rw [hprice]
  exact ⟨⟨hstride.accepted hu.accepted, hprice ▸ (leads_of_target hsound.stops).2⟩, hsound.leaves⟩

end

end Clamm
