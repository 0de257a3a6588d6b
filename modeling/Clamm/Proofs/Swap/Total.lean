import Mathlib
import Clamm.Proofs.Step.Total
import Clamm.Proofs.Swap.Accounting
import Clamm.Proofs.Ticks.Answers

/-!
# No swap fails

An advance can fail in its search, its step, the conversion of its amounts, the lookup of a tick,
the change of liquidity and the tick of its new price. Over a source that answers, with a liquidity
that fits in 128 bits at every tick of the grid (`Pool.Complete`), none of them does: prices stay on
the grid, so they have between 32 and 160 bits and a tick each; the search flags only ticks that are
stored; and a crossing leads from the liquidity on one side of a tick to that on the other.

A swap then ends in a finished state, since it has no more steps to make than there are ticks. Their
number also bounds the sums that it keeps.

* `Trading.exists_step`: the step of every advance, with the bounds of its amounts.
* `Pool.Complete.exists_land`: every landing.
* `Pool.Complete.exists_advance`: every advance.
* `Pool.Reaches.fits`: what every state of a swap counts fits in 256 bits.
* `swap_total`: every swap; `exists_swap_fails`: where the words of a table do not tell its ticks
  apart one may fail.
-/

namespace Clamm

/-! ## Prices on the grid -/

section Prices

variable {d : Direction} {o : Order} {s : PoolState} {tick stop : ℤ} {p q : ℕ}

/-- Prices of the grid have between 32 and 160 bits. -/
theorem priced_of_range (h1 : minSqrtPrice ≤ p) (h2 : p ≤ maxSqrtPrice) : Priced 32 p :=
  ⟨(show pow2 32 ≤ minSqrtPrice by decide).trans h1,
    h2.trans (show maxSqrtPrice ≤ pow2 160 by decide)⟩

theorem PoolState.Accepted.priced (hs : s.Accepted) : Priced 32 s.sqrtPrice :=
  priced_of_range hs.range.1 hs.range.2

/-- The target of a step is a price of the grid. -/
theorem Order.Inside.priced_target (ho : o.Inside) (hstop : minTick ≤ stop ∧ stop ≤ maxTick) :
    Priced 32 (o.target (ratioAt stop)) := by
  obtain ⟨h1, h2⟩ := ratioAt_range hstop.1 hstop.2
  obtain ⟨hlo, hhi⟩ := ho
  unfold Order.target
  cases o.direction with
  | down => exact priced_of_range (h1.trans (le_max_left _ _)) (max_le h2 hhi.le)
  | up => exact priced_of_range (le_min h1 hlo.le) ((min_le_left _ _).trans h2)

/-- A price that moved and did not reach the stop has a tick. -/
theorem Direction.Spans.exists_tickAt (hspan : d.Spans tick stop) (hstart : d.Encloses tick stop p)
    (hleaves : d.Leads p q) (hstops : d.Leads q (ratioAt stop)) (hedge : q ≠ ratioAt stop)
    (hmoved : q ≠ p) : ∃ t, tickAt q = .ok t := by
  obtain ⟨⟨h1, h2⟩, h3, h4⟩ := hspan
  have hlow := (ratioAt_range h1 (by omega)).1
  have hhigh := (ratioAt_range (by omega) h4).2
  obtain ⟨t, ht⟩ := exists_tick (hlow.trans (hstart.arrival hleaves hstops).1)
    ((hstart.lt_upper hleaves hstops hedge hmoved).trans_le hhigh)
  exact ⟨t, tickAt_of_isTickOf ht⟩

end Prices

/-! ## Liquidity -/

theorem Tick.exists_crossed {t : Tick} (h : -(pow2 127 : ℤ) < t.net) (d : Direction) :
    ∃ change, t.crossed d = .ok change := by
  cases d with
  | down => exact ⟨-t.net, if_neg h.ne'⟩
  | up => exact ⟨t.net, rfl⟩

/-- A change that leaves between nothing and 128 bits of liquidity. -/
theorem exists_addLiquidity {l : ℕ} {change : ℤ} (h0 : 0 ≤ l + change)
    (h1 : l + change < (pow2 128 : ℤ)) : ∃ l', addLiquidity l change = .ok l' := by
  unfold addLiquidity
  split
  · rw [if_neg (by omega)]
    exact ⟨_, rfl⟩
  · exact ⟨_, toUnsigned_eq_ok_iff.mpr ⟨by omega, rfl⟩⟩

/-- A pool of which no swap fails: its source answers and is faithful to these ticks, each can be
crossed both ways, and the liquidity in range is theirs and fits in 128 bits at every tick of the
grid. -/
structure Pool.Complete (pool : Pool) (ticks : List Tick) : Prop extends pool.Backed ticks where
  faithful : pool.ticks.Faithful pool.spacing ticks
  answers : pool.ticks.Answers pool.spacing ticks
  net_gt : ∀ t ∈ ticks, -(pow2 127 : ℤ) < t.net
  profile : ∀ i, 0 ≤ netAtOrBelow ticks i ∧ netAtOrBelow ticks i < pow2 128

section Landing

variable {pool : Pool} {ticks : List Tick} {d : Direction} {s : PoolState} {t : Tick} {stop : ℤ}
  {flag : Bool} {l q : ℕ}

/-- **A crossing.** A stored tick is found, and changes the liquidity on the near side of its price
to that on the far side. -/
theorem Pool.Complete.exists_crossing (hc : pool.Complete ticks) (ht : t ∈ ticks)
    (hl : (l : ℤ) = netAtOrBelow ticks (tickBeyond t.index d.opposite)) :
    ∃ u change l', pool.ticks.find t.index = .ok u ∧ u.crossed d = .ok change ∧
      addLiquidity l change = .ok l' := by
  obtain ⟨u, hfind⟩ := hc.answers.find t ht
  obtain ⟨hu, hindex⟩ := hc.faithful.find _ _ hfind
  obtain ⟨change, hchange⟩ := Tick.exists_crossed (hc.net_gt u hu) d
  have hfar : (l : ℤ) + change = netAtOrBelow ticks (tickBeyond t.index d) := by
    rw [crossed_eq_ok hc.distinct hu hchange, hindex, hl]
    exact add_sub_cancel _ _
  obtain ⟨h0, h1⟩ := hc.profile (tickBeyond t.index d)
  obtain ⟨l', hl'⟩ := exists_addLiquidity (hfar ▸ h0) (hfar ▸ h1)
  exact ⟨u, change, l', hfind, hchange, hl'⟩

/-- A landing short of the stop crosses nothing and succeeds. -/
theorem Pool.exists_land_short (hspan : d.Spans s.tick stop)
    (hstart : d.Encloses s.tick stop s.sqrtPrice) (hleaves : d.Leads s.sqrtPrice q)
    (hstops : d.Leads q (ratioAt stop)) (hedge : q ≠ ratioAt stop) :
    ∃ s', pool.land d s stop (ratioAt stop) flag q = .ok s' := by
  unfold Pool.land
  rw [if_neg hedge]
  by_cases hmoved : q = s.sqrtPrice
  · rw [if_pos hmoved]
    exact ⟨_, rfl⟩
  · obtain ⟨t, ht⟩ := hspan.exists_tickAt hstart hleaves hstops hedge hmoved
    rw [if_neg hmoved, ht, ok_bind]
    exact ⟨_, rfl⟩

/-- **Every landing succeeds** on a price within the ticks that were searched. -/
theorem Pool.Complete.exists_land (hc : pool.Complete ticks) (hspan : d.Spans s.tick stop)
    (hstart : d.Encloses s.tick stop s.sqrtPrice) (hleaves : d.Leads s.sqrtPrice q)
    (hstops : d.Leads q (ratioAt stop)) (hnet : (s.liquidity : ℤ) = netAtOrBelow ticks s.tick)
    (hclear : Clear ticks (d.lower s.tick stop) (d.upper s.tick stop))
    (hflag : q = ratioAt stop → (flag = true ↔ ∃ t ∈ ticks, t.index = stop)) :
    ∃ s', pool.land d s stop (ratioAt stop) flag q = .ok s' := by
  by_cases hedge : q = ratioAt stop
  · unfold Pool.land
    rw [if_pos hedge]
    cases hinit : flag with
    | true =>
      obtain ⟨t, ht, rfl⟩ := (hflag hedge).mp hinit
      -- the search reaches the tick with the liquidity it started with
      have hnear : (s.liquidity : ℤ) = netAtOrBelow ticks (tickBeyond t.index d.opposite) := by
        rw [hspan.netAtOrBelow_eq hclear hspan.opposite_mem.1 hspan.opposite_mem.2, hnet]
      obtain ⟨u, change, l', hfind, hchange, hl'⟩ := hc.exists_crossing ht hnear
      simp only [if_pos, hfind, ok_bind, hchange, hl']
      exact ⟨_, rfl⟩
    | false => exact ⟨_, rfl⟩
  · exact pool.exists_land_short hspan hstart hleaves hstops hedge

end Landing

/-! ## Advances -/

section Advances

variable {pool : Pool} {ticks : List Tick} {o : Order} {s s' : Progress} {stop : ℤ} {fee n : ℕ}

theorem isInt256_of_le {k a : ℕ} (hk : k < 255) (h : a ≤ pow2 k) : IsInt256 a := by
  have hlt := h.trans_lt (pow2_lt hk)
  unfold IsInt256
  omega

/-- **The step of every advance succeeds.** It pays out at most 192 bits, the input of an output
order has at most 213, and both amounts fit. -/
theorem Trading.exists_step (hs : Trading o s) (ho : o.Inside) (ha : IsInt256 o.amount)
    (hspan : o.direction.Spans s.state.tick stop) (hstop : minTick ≤ stop ∧ stop ≤ maxTick)
    (hfee : fee < feeUnit) :
    ∃ taken, step s.state.sqrtPrice (o.target (ratioAt stop)) s.state.liquidity s.remaining fee =
        .ok taken ∧
      (IsInt256 (taken.amountIn + taken.fee) ∧ IsInt256 taken.amountOut) ∧
      taken.amountOut ≤ pow2 192 ∧
      (fixesInput s.remaining = false → taken.amountIn + taken.fee ≤ pow2 213) := by
  have hacc := hs.underway.accepted
  have hrem := natAbs_remaining_le hs.remaining_mem ha
  obtain ⟨taken, htaken, ⟨hin, hout⟩, hcharge⟩ := step_total hacc.priced (ho.priced_target hstop)
    (le_refl 32) hacc.liquidity_lt hrem hfee
  have hsound := step_sound (leads_target hs.underway (hacc.encloses hspan)) htaken
  have hinput : fixesInput s.remaining = false → taken.amountIn + taken.fee ≤ pow2 213 :=
    fun hfix => (Nat.add_le_add hin (hcharge hfix)).trans (by decide)
  have hfits : IsInt256 (taken.amountIn + taken.fee) := by
    cases hfix : fixesInput s.remaining with
    | true =>
      -- an input order stays within what remains of it
      have hle := hsound.input_le hfix
      have hnonneg := fixesInput_eq_true_iff.mp hfix
      have hmem := Set.mem_uIcc.mp hs.remaining_mem
      unfold IsInt256 at ha ⊢
      omega
    | false => exact_mod_cast isInt256_of_le (by decide) (hinput hfix)
  exact ⟨taken, htaken, ⟨hfits, isInt256_of_le (by decide) hout⟩, hout, hinput⟩

/-- The parts of an advance whose amounts fit make one. -/
theorem Pool.exists_advance_of_parts {next : ℤ} {flag : Bool} {taken : Step} {state : PoolState}
    (hsearch : pool.ticks.next s.state.tick pool.spacing o.direction = .ok (next, flag))
    (htrade : step s.state.sqrtPrice (o.target (ratioAt (stopTick next))) s.state.liquidity
      s.remaining pool.fee = .ok taken)
    (hfits : IsInt256 (taken.amountIn + taken.fee) ∧ IsInt256 taken.amountOut)
    (hland : pool.land o.direction s.state (stopTick next) (ratioAt (stopTick next)) flag
      taken.next = .ok state) :
    ∃ s', pool.advance o s = .ok s' ∧ pool.Advanced o s s' next flag taken ∧ s'.state = state := by
  have hparts : pool.Advanced o s ⟨_, _, state, s.fees + taken.fee⟩ next flag taken :=
    ⟨hsearch, htrade, rfl, hland⟩
  exact ⟨_, Pool.advance_eq_ok_iff.mpr ⟨next, flag, taken, hparts, hfits, rfl⟩, hparts, rfl⟩

/-- **Every advance succeeds.** -/
theorem Pool.Complete.exists_advance (hc : pool.Complete ticks) (ho : o.Inside)
    (ha : IsInt256 o.amount) (hs : Trading o s)
    (hnet : (s.state.liquidity : ℤ) = netAtOrBelow ticks s.state.tick) :
    ∃ s', pool.advance o s = .ok s' := by
  have hacc := hs.underway.accepted
  obtain ⟨next, flag, hsearch⟩ := hc.answers.search s.state.tick o.direction
  have hspan := spans_stopTick hc.advances hacc.tick_mem hsearch
  have hstart := hacc.encloses hspan
  obtain ⟨hclear, -⟩ := hc.meets.search_clear hc.advances hacc.tick_mem hsearch
  obtain ⟨taken, htaken, hfits, -⟩ := hs.exists_step ho ha hspan (stopTick_mem next) pool.fee_lt
  have hsound := step_sound (leads_target hs.underway hstart) htaken
  obtain ⟨hedge, hlimit⟩ := leads_of_target hsound.stops
  have hinside : taken.next = ratioAt (stopTick next) →
      (flag = true ↔ ∃ t ∈ ticks, t.index = stopTick next) := fun heq => by
    obtain ⟨h1, h2⟩ := stop_inside ho (stopTick_mem next) hspan (heq ▸ hlimit)
    rw [eq_of_stopTick h1 h2]
    exact (hc.faithful.search _ _ _ _ hacc.tick_mem hsearch).2
  obtain ⟨state, hland⟩ := hc.exists_land hspan hstart hsound.leaves hedge hnet hclear hinside
  obtain ⟨s', hs', -⟩ := Pool.exists_advance_of_parts hsearch htaken hfits hland
  exact ⟨s', hs'⟩

/-- The liquidity of every state that advances lead to is that of the ticks. -/
theorem Pool.Reaches.liquidity (hb : pool.Backed ticks)
    (hlimit : o.checkLimit pool.state.sqrtPrice = .ok ()) (h : pool.Reaches o n s) :
    (s.state.liquidity : ℤ) = netAtOrBelow ticks s.state.tick := by
  induction h with
  | start => exact hb.liquidity
  | advance hreach _ hstep ih =>
    exact hb.advance (Pool.checkLimit_eq_ok pool.accepted hlimit).1
      (hreach.trading hb.advances hlimit).underway ih hstep

end Advances

/-! ## The sums that a swap keeps -/

/-- What a swap on its way counts fits in 256 bits: what remains of the order and what is used of
it, what the other side has come to, and the fees. -/
structure Progress.Fits (o : Order) (s : Progress) : Prop where
  remaining : IsInt256 s.remaining
  used : IsInt256 (o.amount - s.remaining)
  other : IsInt256 s.other
  fees_lt : s.fees < pow2 256

section Sums

variable {pool : Pool} {o : Order} {s s' : Progress} {n : ℕ}

/-- Each advance adds at most 213 bits to the side of the order that is not fixed. -/
theorem Trading.abs_other_le (hadv : pool.ticks.Advances pool.spacing) (ho : o.Inside)
    (ha : IsInt256 o.amount) (hs : Trading o s) (hgo : Pool.finished o s = false)
    (h : pool.advance o s = .ok s') : |s'.other| ≤ |s.other| + pow2 213 := by
  obtain ⟨next, flag, taken, h⟩ := Pool.advance_eq_ok h
  have hspan := spans_stopTick hadv hs.underway.accepted.tick_mem h.search
  obtain ⟨taken', htaken, -, hout, hin⟩ :=
    hs.exists_step ho ha hspan (stopTick_mem next) pool.fee_lt
  obtain rfl : taken = taken' := Except.ok.inj (h.trade.symm.trans htaken)
  have hle : pow2 192 ≤ pow2 213 := by decide
  have hlow := neg_abs_le s.other
  have hhigh := le_abs_self s.other
  rcases book_cases hs.remaining_mem (Pool.finished_eq_false_iff.mp hgo).1 h.book with
    ⟨-, -, hother⟩ | ⟨hfix, -, hother⟩
  · rw [hother]
    exact abs_le.mpr ⟨by omega, by omega⟩
  · have := hin hfix
    rw [hother]
    exact abs_le.mpr ⟨by omega, by omega⟩

theorem Pool.Reaches.abs_other_le (hadv : pool.ticks.Advances pool.spacing)
    (ha : IsInt256 o.amount) (hlimit : o.checkLimit pool.state.sqrtPrice = .ok ())
    (h : pool.Reaches o n s) : |s.other| ≤ n * pow2 213 := by
  induction h with
  | start => simp [Pool.start]
  | advance hreach hgo hstep ih =>
    have hstep := (hreach.trading hadv hlimit).abs_other_le hadv
      (Pool.checkLimit_eq_ok pool.accepted hlimit).1 ha hgo hstep
    push_cast
    linarith

/-- The other side of a swap stays within 255 bits: there are no more advances than ticks. -/
theorem Pool.Reaches.abs_other_lt (hadv : pool.ticks.Advances pool.spacing)
    (ha : IsInt256 o.amount) (hlimit : o.checkLimit pool.state.sqrtPrice = .ok ())
    (h : pool.Reaches o n s) : |s.other| < pow2 255 := by
  have hn : (n : ℤ) ≤ pow2 21 :=
    (h.le_ticks hadv ha hlimit).trans (show maxTick - minTick + 1 ≤ (pow2 21 : ℤ) by decide)
  calc |s.other| ≤ n * pow2 213 := h.abs_other_le hadv ha hlimit
    _ ≤ pow2 21 * pow2 213 := Int.mul_le_mul_of_nonneg_right hn (Int.natCast_nonneg _)
    _ < pow2 255 := by decide

/-- **What a swap counts fits in 256 bits**, over every source that searches in the direction it is
asked. -/
theorem Pool.Reaches.fits (hadv : pool.ticks.Advances pool.spacing) (ha : IsInt256 o.amount)
    (hlimit : o.checkLimit pool.state.sqrtPrice = .ok ()) (h : pool.Reaches o n s) :
    s.Fits o := by
  have hmem := Set.mem_uIcc.mp (h.trading hadv hlimit).remaining_mem
  have hbooked := h.booked hadv ha hlimit
  obtain ⟨hother1, hother2⟩ := abs_lt.mp (h.abs_other_lt hadv ha hlimit)
  have hdouble : pow2 256 = 2 * pow2 255 := rfl
  unfold IsInt256 at ha
  refine ⟨⟨by omega, by omega⟩, ⟨by omega, by omega⟩, ⟨hother1.le, hother2⟩, ?_⟩
  have hfees := hbooked.fees_le
  cases hfix : fixesInput o.amount
  · rw [(settle_output hfix).1] at hfees
    omega
  · rw [(settle_input hfix).1] at hfees
    omega

end Sums

/-! ## Swaps -/

/-- A limit strictly between the price and the end of the grid. -/
def Direction.Allows (d : Direction) (sqrtPrice limit : ℕ) : Prop :=
  match d with
  | down => minSqrtPrice < limit ∧ limit < sqrtPrice
  | up => sqrtPrice < limit ∧ limit < maxSqrtPrice

section Swaps

variable {pool : Pool} {ticks : List Tick} {numbers : List ℤ} {d : Direction} {amount : ℤ}
  {limit : Option ℕ} {o : Order} {p : ℕ}

theorem Direction.Allows.checkLimit (h : o.direction.Allows p o.limit) :
    o.checkLimit p = .ok () := by
  unfold Order.checkLimit
  cases hd : o.direction with
  | down =>
    rw [hd] at h
    obtain ⟨h1, h2⟩ := h
    simp only [if_neg (not_le.mpr h1), if_neg (not_le.mpr h2)]
  | up =>
    rw [hd] at h
    obtain ⟨h1, h2⟩ := h
    simp only [if_neg (not_le.mpr h2), if_neg (not_le.mpr h1)]

/-- **Every run succeeds**: none of its advances fails, and it has enough of them. -/
theorem Pool.Complete.exists_run (hc : pool.Complete ticks) (ha : IsInt256 o.amount)
    (hlimit : o.checkLimit pool.state.sqrtPrice = .ok ()) :
    ∃ e, pool.run o maxSteps (pool.start o) = .ok e := by
  obtain ⟨n, s, hreach, hends⟩ := Pool.run_start_stops hc.advances ha hlimit
  generalize pool.run o maxSteps (pool.start o) = result at hends
  cases hends with
  | finished => exact ⟨s, rfl⟩
  | failed _ hfail =>
    obtain ⟨s', hs'⟩ := hc.exists_advance (Pool.checkLimit_eq_ok pool.accepted hlimit).1 ha
      (hreach.trading hc.advances hlimit) (hreach.liquidity hc.toBacked hlimit)
    rw [hs'] at hfail
    cases hfail

/-- Over a list, or a table with words that tell the loaded ticks apart, no swap fails if the ticks
are on the grid and can be crossed, and the liquidity in range is theirs and fits. -/
theorem TickSource.HoldsAt.complete (hsource : pool.ticks.HoldsAt pool.spacing ticks numbers)
    (hnum : ∀ n ∈ numbers, Numbered n) (hgrid : OnGrid pool.spacing ticks)
    (hnet : ∀ t ∈ ticks, -2 ^ 127 < t.net)
    (hprofile : ∀ i, 0 ≤ netAtOrBelow ticks i ∧ netAtOrBelow ticks i < 2 ^ 128)
    (hstart : (pool.state.liquidity : ℤ) = netAtOrBelow ticks pool.state.tick) :
    pool.Complete ticks :=
  have hfaithful := hsource.holds.faithful hnum hgrid
  { advances := hsource.holds.advances _
    meets := hfaithful.meets
    distinct := hgrid.distinct
    liquidity := hstart
    faithful := hfaithful
    answers := hsource.answers pool.spacing_pos
    net_gt := hnet
    profile := hprofile }

/-- **No swap fails**, if the words of a table tell the ticks apart that came with them. Over a list,
or over a table for the spacing of the pool that the operations built and whose loaded ticks have
numbers within `[-2 ^ 23, 2 ^ 23)`, with ticks on the grid that can be crossed both ways and with a
liquidity in range that is theirs and fits in 128 bits at every tick: every order within 256 bits,
with any limit strictly between the price and the end of the grid, succeeds. No sum it keeps on the
way leaves its 256 bits, and for spacings below `2 ^ 22` no grid point that a search computes with
leaves 32 bits. -/
theorem swap_total (hsource : pool.ticks.HoldsAt pool.spacing ticks numbers)
    (hnum : ∀ n ∈ numbers, Numbered n) (hgrid : OnGrid pool.spacing ticks)
    (hspacing : pool.spacing < 2 ^ 22) (hnet : ∀ t ∈ ticks, -2 ^ 127 < t.net)
    (hprofile : ∀ i, 0 ≤ netAtOrBelow ticks i ∧ netAtOrBelow ticks i < 2 ^ 128)
    (hstart : (pool.state.liquidity : ℤ) = netAtOrBelow ticks pool.state.tick)
    (hamount : IsInt256 amount)
    (hallows : d.Allows pool.state.sqrtPrice (limit.getD (Order.defaultLimit d))) :
    (∃ r, pool.swap d amount limit = .ok r) ∧
      ∀ n s, pool.Reaches ⟨d, amount, limit.getD (Order.defaultLimit d)⟩ n s →
        s.Fits ⟨d, amount, limit.getD (Order.defaultLimit d)⟩ ∧
        ∀ k, s.state.tick / pool.spacing - 256 ≤ k → k ≤ s.state.tick / pool.spacing + 256 →
          IsInt32 (k * pool.spacing) := by
  have hc := hsource.complete hnum hgrid hnet hprofile hstart
  have hlimit := Direction.Allows.checkLimit
    (o := ⟨d, amount, limit.getD (Order.defaultLimit d)⟩) hallows
  constructor
  · obtain ⟨e, hrun⟩ := hc.exists_run hamount hlimit
    refine ⟨Order.settle ⟨d, amount, limit.getD (Order.defaultLimit d)⟩ e, ?_⟩
    simp only [Pool.swap, hlimit, ok_bind, hrun]
    rfl
  · intro n s hreach
    have htick := (hreach.trading hc.advances hlimit).underway.accepted.tick_mem
    exact ⟨hreach.fits hc.advances hamount hlimit,
      fun k h1 h2 => isInt32_near pool.spacing_pos hspacing htick h1 h2⟩

end Swaps

/-- At most the one position is in range. -/
theorem pairTicks_profile (i : ℤ) : 0 ≤ netAtOrBelow TickBitmap.pairTicks i ∧
    netAtOrBelow TickBitmap.pairTicks i < 2 ^ 128 := by
  have hnil : netAtOrBelow [] i = 0 := rfl
  simp only [TickBitmap.pairTicks, netAtOrBelow_cons, hnil]
  split_ifs <;> omega

/-- The largest output order there is: it ends at the end of the grid, past the position. -/
theorem swap_total_paired :
    pairedPool.ticks.HoldsAt pairedPool.spacing TickBitmap.pairTicks [-1, 1] ∧
      (∀ n ∈ [-1, 1], Numbered n) ∧
      (∀ t ∈ TickBitmap.pairTicks, -2 ^ 127 < t.net) ∧
      (pairedPool.state.liquidity : ℤ) =
        netAtOrBelow TickBitmap.pairTicks pairedPool.state.tick ∧
      IsInt256 (-2 ^ 255) ∧
      Direction.up.Allows pairedPool.state.sqrtPrice
        ((none : Option ℕ).getD (Order.defaultLimit .up)) ∧
      (∃ r, pairedPool.swap .up (-2 ^ 255) none = .ok r) ∧
      ∀ n s, pairedPool.Reaches ⟨.up, -2 ^ 255, maxSqrtPrice - 1⟩ n s →
        s.Fits ⟨.up, -2 ^ 255, maxSqrtPrice - 1⟩ :=
  have hsource : pairedPool.ticks.HoldsAt pairedPool.spacing TickBitmap.pairTicks [-1, 1] :=
    .bitmap TickBitmap.paired TickBitmap.paired_built
  have hnet : ∀ t ∈ TickBitmap.pairTicks, -2 ^ 127 < t.net := by decide
  have hstart : (pairedPool.state.liquidity : ℤ) =
      netAtOrBelow TickBitmap.pairTicks pairedPool.state.tick := by decide
  have hamount : IsInt256 (-2 ^ 255) := by decide
  have hallows : Direction.up.Allows pairedPool.state.sqrtPrice
      ((none : Option ℕ).getD (Order.defaultLimit .up)) := ⟨by decide, by decide⟩
  have htotal := swap_total hsource TickBitmap.pairTicks_numbered pairTicks_onGrid (by decide)
    hnet pairTicks_profile hstart hamount hallows
  ⟨hsource, TickBitmap.pairTicks_numbered, hnet, hstart, hamount, hallows, htotal.1,
    fun n s h => (htotal.2 n s h).1⟩

/-- The pool of one position over the table that lost the tick at 60 and kept its flag. -/
def orphanedPool : Pool := { pairedPool with ticks := TickBitmap.orphaned.source }

/-- What is left of the position is in range from its lower end on. -/
theorem orphaned_profile (i : ℤ) : 0 ≤ netAtOrBelow TickBitmap.orphaned.tickList i ∧
    netAtOrBelow TickBitmap.orphaned.tickList i < 2 ^ 128 := by
  have hnil : netAtOrBelow [] i = 0 := rfl
  simp only [TickBitmap.orphaned_tickList, netAtOrBelow_cons, hnil]
  split_ifs <;> omega

/-- **Over words that do not tell the loaded ticks apart a swap may fail.** A search stops at a flag
without a tick, which is not found. -/
theorem exists_swap_fails : ∃ (pool : Pool) (ticks : List Tick) (numbers : List ℤ),
    pool.ticks.HoldsAt pool.spacing ticks numbers ∧ OnGrid pool.spacing ticks ∧
      pool.spacing < 2 ^ 22 ∧ (∀ t ∈ ticks, -2 ^ 127 < t.net) ∧
      (∀ i, 0 ≤ netAtOrBelow ticks i ∧ netAtOrBelow ticks i < 2 ^ 128) ∧
      (pool.state.liquidity : ℤ) = netAtOrBelow ticks pool.state.tick ∧ IsInt256 5000 ∧
      Direction.up.Allows pool.state.sqrtPrice
        ((none : Option ℕ).getD (Order.defaultLimit .up)) ∧
      pool.swap .up 5000 none = .error (.tick (.missing 60)) :=
  have h : orphanedPool.swap .up 5000 none = .error (.tick (.missing 60)) := by decide +kernel
  have hgrid : OnGrid 60 TickBitmap.orphaned.tickList :=
    TickBitmap.orphaned_tickList ▸ ⟨by decide, by decide, by decide⟩
  ⟨orphanedPool, _, _, .bitmap TickBitmap.orphaned TickBitmap.orphaned_built, hgrid, by decide,
    by decide, orphaned_profile, by decide, by decide, ⟨by decide, by decide⟩, h⟩

end Clamm
