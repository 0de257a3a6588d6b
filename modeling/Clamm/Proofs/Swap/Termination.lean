import Mathlib
import Clamm.Proofs.Step.Settled
import Clamm.Proofs.Swap.Session
import Clamm.Proofs.Ticks.Answers

/-!
# Every swap stops

An advance that does not end on the grid point it searched either meets the limit or uses up the
order (`step_settled`), and then the swap is finished. One that does end there moves the tick
strictly in the direction of the swap, even when the price stays where it is, and never past the
ends of the grid (`stop_inside`). So an advance finishes the swap or leaves fewer ticks ahead
(`Trading.finished_or_fewer`), for any source whose searches keep to their direction.

* `Pool.Reaches o n s`: `n` advances of an unfinished swap lead to `s`.
* `Pool.Reaches.lt_ticks`: there are fewer of them than ticks, if `s` is not finished yet.
* `Pool.run_stops`: a run with that many steps ends where the advances end.
* `swap_stops`: both for every swap; and lists and tables keep to their direction.
-/

namespace Clamm

/-! ## What remains of an order -/

section Remaining

variable {o : Order} {s s' : Progress} {amount remaining : ℤ} {i w : ℕ}

/-- An order that is not filled fixes what it fixed at the start. -/
theorem fixesInput_remaining (h : remaining ∈ Set.uIcc 0 amount) (h0 : remaining ≠ 0) :
    fixesInput remaining = fixesInput amount := by
  rw [Set.mem_uIcc] at h
  unfold fixesInput
  rw [decide_eq_decide]
  omega

theorem natAbs_remaining_le (h : remaining ∈ Set.uIcc 0 amount) (ha : IsInt256 amount) :
    remaining.natAbs ≤ pow2 255 := by
  rw [Set.mem_uIcc] at h
  unfold IsInt256 at ha
  omega

/-- A step is booked on the side that the order fixes, and on the other one. -/
theorem book_cases {paid received : ℤ} (hs : s.remaining ∈ Set.uIcc 0 o.amount)
    (h0 : s.remaining ≠ 0) (hbook : (s'.remaining, s'.other) = o.book s paid received) :
    (fixesInput s.remaining = true ∧ s'.remaining = s.remaining - paid ∧
        s'.other = s.other - received) ∨
      (fixesInput s.remaining = false ∧ s'.remaining = s.remaining + received ∧
        s'.other = s.other + paid) := by
  rw [fixesInput_remaining hs h0]
  unfold Order.book at hbook
  cases hfix : fixesInput o.amount with
  | true =>
    rw [hfix, if_pos rfl] at hbook
    exact Or.inl ⟨rfl, Prod.mk.inj hbook⟩
  | false =>
    rw [hfix, if_neg Bool.false_ne_true] at hbook
    exact Or.inr ⟨rfl, Prod.mk.inj hbook⟩

/-- A step within what remains of the order leaves something between nothing and all of it. -/
theorem remaining_mem_of_book (hs : s.remaining ∈ Set.uIcc 0 o.amount) (h0 : s.remaining ≠ 0)
    (hin : fixesInput s.remaining = true → i ≤ s.remaining.natAbs)
    (hout : fixesInput s.remaining = false → w ≤ s.remaining.natAbs)
    (hbook : (s'.remaining, s'.other) = o.book s i w) : s'.remaining ∈ Set.uIcc 0 o.amount := by
  rcases book_cases hs h0 hbook with ⟨hfix, hrem, -⟩ | ⟨hfix, hrem, -⟩
  · have := hin hfix
    have := fixesInput_eq_true_iff.mp hfix
    rw [Set.mem_uIcc] at hs ⊢
    omega
  · have := hout hfix
    have := fixesInput_eq_false_iff.mp hfix
    rw [Set.mem_uIcc] at hs ⊢
    omega

/-- A step of all that remains of the order fills it. -/
theorem remaining_eq_zero_of_book (hs : s.remaining ∈ Set.uIcc 0 o.amount) (h0 : s.remaining ≠ 0)
    (hin : fixesInput s.remaining = true → i = s.remaining.natAbs)
    (hout : fixesInput s.remaining = false → w = s.remaining.natAbs)
    (hbook : (s'.remaining, s'.other) = o.book s i w) : s'.remaining = 0 := by
  rcases book_cases hs h0 hbook with ⟨hfix, hrem, -⟩ | ⟨hfix, hrem, -⟩
  · have := hin hfix
    have := fixesInput_eq_true_iff.mp hfix
    omega
  · have := hout hfix
    have := fixesInput_eq_false_iff.mp hfix
    omega

end Remaining

/-! ## One advance -/

/-- The number of ticks that a swap in direction `d` can still come to from `tick`. -/
def Direction.ticksAhead : Direction → ℤ → ℤ
  | down, tick => tick - minTick
  | up, tick => maxTick - 1 - tick

/-- A swap on its way: between nothing and all of the order remains. -/
structure Trading (o : Order) (s : Progress) : Prop where
  underway : Underway o s.state
  remaining_mem : s.remaining ∈ Set.uIcc 0 o.amount

section Advance

variable {pool : Pool} {o : Order} {s s' : Progress} {next : ℤ} {flag : Bool} {taken : Step}
  {edge : ℕ}

theorem Pool.finished_eq_false_iff :
    Pool.finished o s = false ↔ s.remaining ≠ 0 ∧ s.state.sqrtPrice ≠ o.limit := by
  simp [Pool.finished]

theorem Pool.finished_eq_true_iff :
    Pool.finished o s = true ↔ s.remaining = 0 ∨ s.state.sqrtPrice = o.limit := by
  simp [Pool.finished]

theorem Trading.start (hlimit : o.checkLimit pool.state.sqrtPrice = .ok ()) :
    Trading o (pool.start o) :=
  ⟨⟨pool.accepted, (Pool.checkLimit_eq_ok pool.accepted hlimit).2⟩, Set.right_mem_uIcc⟩

/-- **An advance keeps a swap on its way.** -/
theorem Trading.advance (hadv : pool.ticks.Advances pool.spacing) (ho : o.Inside)
    (hs : Trading o s) (hgo : Pool.finished o s = false) (h : pool.advance o s = .ok s') :
    Trading o s' := by
  refine ⟨(hs.underway.advance hadv ho h).1, ?_⟩
  obtain ⟨next, flag, taken, h⟩ := Pool.advance_eq_ok h
  obtain ⟨hsound, -, -⟩ := hs.underway.stride hadv ho h
  exact remaining_mem_of_book hs.remaining_mem (Pool.finished_eq_false_iff.mp hgo).1
    hsound.input_le hsound.output_le (by exact_mod_cast h.book)

/-- A target that is not the grid point is the limit. -/
theorem Order.target_eq_limit (h : o.target edge ≠ edge) : o.target edge = o.limit := by
  unfold Order.target at *
  cases hd : o.direction with
  | down =>
    rw [hd] at h
    exact (max_choice edge o.limit).resolve_left h
  | up =>
    rw [hd] at h
    exact (min_choice edge o.limit).resolve_left h

/-- An advance that does not end on the grid point it searched finishes the swap. -/
theorem Trading.finished_of_short (hs : Trading o s) (ha : IsInt256 o.amount)
    (hgo : Pool.finished o s = false) (h : pool.Advanced o s s' next flag taken)
    (hshort : taken.next ≠ ratioAt (stopTick next)) : Pool.finished o s' = true := by
  have hprice := (Pool.land_eq_ok h.land).1
  rw [Pool.finished_eq_true_iff]
  by_cases htarget : taken.next = o.target (ratioAt (stopTick next))
  · rw [htarget] at hshort
    exact Or.inr (hprice.trans (htarget.trans (Order.target_eq_limit hshort)))
  · have hrem := (natAbs_remaining_le hs.remaining_mem ha).trans_lt
      (show pow2 255 < pow2 256 by decide)
    obtain ⟨-, hspends, hdelivers⟩ := step_settled hrem h.trade
    exact Or.inl (remaining_eq_zero_of_book hs.remaining_mem
      (Pool.finished_eq_false_iff.mp hgo).1 (hspends htarget) (hdelivers htarget)
      (by exact_mod_cast h.book))

/-- **An advance finishes the swap or leaves fewer ticks ahead.** -/
theorem Trading.finished_or_fewer (hadv : pool.ticks.Advances pool.spacing)
    (ha : IsInt256 o.amount) (hs : Trading o s) (hgo : Pool.finished o s = false)
    (h : pool.advance o s = .ok s') : Pool.finished o s' = true ∨
      o.direction.ticksAhead s'.state.tick + 1 ≤ o.direction.ticksAhead s.state.tick := by
  obtain ⟨next, flag, taken, h⟩ := Pool.advance_eq_ok h
  by_cases hedge : taken.next = ratioAt (stopTick next)
  · right
    have hspan := spans_stopTick hadv hs.underway.accepted.tick_mem h.search
    have htick : s'.state.tick = tickBeyond (stopTick next) o.direction := by
      rcases (Pool.land_eq_ok h.land).2 with ⟨-, hcross⟩ | ⟨hne, -⟩ | ⟨hne, -⟩
      · exact hcross.tick
      · exact absurd hedge hne
      · exact absurd hedge hne
    rw [htick]
    cases hd : o.direction with
    | down =>
      simp only [hd, Direction.Spans, Direction.lower] at hspan
      simp only [Direction.ticksAhead, tickBeyond]
      omega
    | up =>
      simp only [hd, Direction.Spans, Direction.upper] at hspan
      simp only [Direction.ticksAhead, tickBeyond]
      omega
  · exact Or.inl (hs.finished_of_short ha hgo h hedge)

end Advance

/-! ## Runs -/

namespace Pool

/-- `n` advances of an unfinished swap lead to a state. -/
inductive Reaches (pool : Pool) (o : Order) : ℕ → Progress → Prop
  | start : Reaches pool o 0 (pool.start o)
  | advance {n : ℕ} {s s' : Progress} (reached : Reaches pool o n s)
      (unfinished : finished o s = false) (step : pool.advance o s = .ok s') :
      Reaches pool o (n + 1) s'

variable {pool : Pool} {o : Order} {s : Progress} {n : ℕ}

theorem Reaches.trading (hadv : pool.ticks.Advances pool.spacing)
    (hlimit : o.checkLimit pool.state.sqrtPrice = .ok ()) (h : pool.Reaches o n s) :
    Trading o s := by
  induction h with
  | start => exact Trading.start hlimit
  | advance _ hgo hstep ih =>
    exact ih.advance hadv (checkLimit_eq_ok pool.accepted hlimit).1 hgo hstep

/-- Every advance up to an unfinished state has left fewer ticks ahead. -/
theorem Reaches.add_ticksAhead_le (hadv : pool.ticks.Advances pool.spacing)
    (ha : IsInt256 o.amount) (hlimit : o.checkLimit pool.state.sqrtPrice = .ok ())
    (h : pool.Reaches o n s) (hgo : finished o s = false) :
    n + o.direction.ticksAhead s.state.tick ≤ o.direction.ticksAhead pool.state.tick := by
  induction h with
  | start => simp [Pool.start]
  | @advance n s s' hreach hgo' hstep ih =>
    have ih := ih hgo'
    rcases (hreach.trading hadv hlimit).finished_or_fewer hadv ha hgo' hstep with hfin | hfewer
    · rw [hgo] at hfin
      cases hfin
    · push_cast
      omega

/-- **A swap that is not finished has made fewer advances than there are ticks.** -/
theorem Reaches.lt_ticks (hadv : pool.ticks.Advances pool.spacing) (ha : IsInt256 o.amount)
    (hlimit : o.checkLimit pool.state.sqrtPrice = .ok ()) (h : pool.Reaches o n s)
    (hgo : finished o s = false) : (n : ℤ) < maxTick - minTick + 1 := by
  have hle := h.add_ticksAhead_le hadv ha hlimit hgo
  obtain ⟨h1, h2⟩ := (h.trading hadv hlimit).underway.accepted.tick_mem
  obtain ⟨h3, h4⟩ := pool.tick_mem
  cases hd : o.direction with
  | down =>
    simp only [hd, Direction.ticksAhead] at hle
    omega
  | up =>
    simp only [hd, Direction.ticksAhead] at hle
    omega

/-- No swap makes more advances than there are ticks. -/
theorem Reaches.le_ticks (hadv : pool.ticks.Advances pool.spacing) (ha : IsInt256 o.amount)
    (hlimit : o.checkLimit pool.state.sqrtPrice = .ok ()) (h : pool.Reaches o n s) :
    (n : ℤ) ≤ maxTick - minTick + 1 := by
  cases h with
  | start => decide
  | advance hreach hgo _ =>
    have := hreach.lt_ticks hadv ha hlimit hgo
    push_cast
    omega

/-- Where the advances of a swap end, and what comes of it: a finished state, or the error of the
advance from an unfinished one. -/
inductive Ends (pool : Pool) (o : Order) (s : Progress) : Except Error Progress → Prop
  | finished (h : finished o s = true) : Ends pool o s (.ok s)
  | failed {e : Error} (unfinished : Pool.finished o s = false) (h : pool.advance o s = .error e) :
      Ends pool o s (.error e)

/-- A run with as many steps as there are advances to make ends where they end. -/
theorem run_stops {steps : ℕ} (h : pool.Reaches o n s)
    (hbound : ∀ k e, pool.Reaches o k e → finished o e = false → k < n + steps) :
    ∃ k e, pool.Reaches o k e ∧ pool.Ends o e (pool.run o steps s) := by
  induction steps generalizing n s with
  | zero =>
    cases hgo : finished o s
    · exact absurd (hbound n s h hgo) (lt_irrefl n)
    · unfold run
      rw [if_pos hgo]
      exact ⟨n, s, h, .finished hgo⟩
  | succ steps ih =>
    unfold run
    cases hgo : finished o s
    · rw [if_neg Bool.false_ne_true]
      cases hstep : pool.advance o s with
      | error e => exact ⟨n, s, h, .failed hgo hstep⟩
      | ok s' =>
        have hbound' : ∀ k e, pool.Reaches o k e → finished o e = false → k < n + 1 + steps := by
          intro k e hk he
          have := hbound k e hk he
          omega
        exact ih (h.advance hgo hstep) hbound'
    · rw [if_pos rfl]
      exact ⟨n, s, h, .finished hgo⟩

/-- The run of a swap ends where its advances end. -/
theorem run_start_stops (hadv : pool.ticks.Advances pool.spacing) (ha : IsInt256 o.amount)
    (hlimit : o.checkLimit pool.state.sqrtPrice = .ok ()) :
    ∃ n s, pool.Reaches o n s ∧ pool.Ends o s (pool.run o maxSteps (pool.start o)) := by
  refine run_stops .start fun n s h hgo => ?_
  have := h.lt_ticks hadv ha hlimit hgo
  unfold maxSteps
  omega

/-- A successful swap comes to a finished state that advances lead to. -/
theorem swap_reaches {d : Direction} {amount : ℤ} {limit : Option ℕ} {r : SwapOutcome}
    (hadv : pool.ticks.Advances pool.spacing) (ha : IsInt256 amount)
    (h : pool.swap d amount limit = .ok r) :
    ∃ o n e, o = ⟨d, amount, limit.getD (Order.defaultLimit d)⟩ ∧
      o.checkLimit pool.state.sqrtPrice = .ok () ∧ pool.Reaches o n e ∧
      finished o e = true ∧ r = o.settle e := by
  obtain ⟨o, e, rfl, hlimit, hrun, hr⟩ := swap_eq_ok h
  obtain ⟨n, s, hreach, hends⟩ := run_start_stops hadv ha hlimit
  rw [hrun] at hends
  cases hends with
  | finished hfin => exact ⟨_, n, e, rfl, hlimit, hreach, hfin, hr⟩

end Pool

/-! ## Swaps -/

/-- **Every swap stops.** Over any source of ticks that searches in the direction it is asked, for
every order within 256 bits whose limit is accepted: each iteration is at most the last of as many
as there are ticks, and the swap comes to the state that finishes it or to the error of an
iteration. Lists and tables are such sources, at every tick and for every spacing, and answer every
search of a positive spacing and of their own one. -/
theorem swap_stops :
    (∀ (pool : Pool) (d : Direction) (amount : ℤ) (limit : Option ℕ) (o : Order),
      o = ⟨d, amount, limit.getD (Order.defaultLimit d)⟩ →
      pool.ticks.Advances pool.spacing → IsInt256 amount →
      (∀ e, o.checkLimit pool.state.sqrtPrice = .error e → pool.swap d amount limit = .error e) ∧
      (o.checkLimit pool.state.sqrtPrice = .ok () →
        (∀ n s, pool.Reaches o n s → Pool.finished o s = false →
          (n : ℤ) + 1 ≤ maxTick - minTick + 1) ∧
        ∃ n s result, pool.Reaches o n s ∧ (n : ℤ) ≤ maxTick - minTick + 1 ∧
          pool.Ends o s result ∧ pool.swap d amount limit = result.map o.settle)) ∧
    (∀ (l : TickList) (spacing : ℤ), l.source.Advances spacing ∧
      (0 < spacing → ∀ tick d, ∃ stop flag, l.source.next tick spacing d = .ok (stop, flag))) ∧
    (∀ (b : TickBitmap) (spacing : ℤ), b.source.Advances spacing ∧
      ∀ tick d, ∃ stop flag, b.source.next tick b.spacing d = .ok (stop, flag)) := by
  refine ⟨?_, fun l spacing => ⟨l.advances spacing, fun hs tick d => l.next_total hs tick d⟩,
    fun b spacing => ⟨b.advances spacing, fun tick d => b.next_total tick d⟩⟩
  rintro pool d amount limit o rfl hadv ha
  constructor
  · intro e he
    simp only [Pool.swap, he]
    rfl
  · intro hlimit
    obtain ⟨n, s, hreach, hends⟩ := Pool.run_start_stops hadv ha hlimit
    refine ⟨fun n s h hgo => h.lt_ticks hadv ha hlimit hgo, n, s, _, hreach,
      hreach.le_ticks hadv ha hlimit, hends, ?_⟩
    simp only [Pool.swap, hlimit, ok_bind]
    generalize pool.run _ _ _ = result
    cases result <;> rfl

/-- A swap that leaves the inner position comes to an end. -/
theorem swap_stops_nested :
    nestedPool.ticks.Advances nestedPool.spacing ∧ IsInt256 5000 ∧
      (⟨.down, 5000, minSqrtPrice + 1⟩ : Order).checkLimit nestedPool.state.sqrtPrice = .ok () ∧
      ∃ n s result, nestedPool.Reaches ⟨.down, 5000, minSqrtPrice + 1⟩ n s ∧
        (n : ℤ) ≤ maxTick - minTick + 1 ∧
        nestedPool.Ends ⟨.down, 5000, minSqrtPrice + 1⟩ s result ∧
        nestedPool.swap .down 5000 none =
          result.map (⟨.down, 5000, minSqrtPrice + 1⟩ : Order).settle :=
  have hadv : nestedPool.ticks.Advances nestedPool.spacing := nestedTicks.advances 60
  have ha : IsInt256 5000 := by decide
  have hlimit : (⟨.down, 5000, minSqrtPrice + 1⟩ : Order).checkLimit nestedPool.state.sqrtPrice =
      .ok () := by decide
  ⟨hadv, ha, hlimit, ((swap_stops.1 nestedPool .down 5000 none _ rfl hadv ha).2 hlimit).2⟩

end Clamm
