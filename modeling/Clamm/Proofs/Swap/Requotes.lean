import Mathlib
import Clamm.Proofs.Swap.Quotes
import Clamm.Proofs.Swap.Total

/-!
# Asking for what a sale receives

An input order and an output order that asks for no more than the first one receives go hand in
hand: where the input order reaches the target of a step, the output order either takes the same
step or is filled on the way, at no greater cost. Where the input order ends short of its target, so
does the output order, as long as the way to the target has more to give than it asks for.

That can fail only at the last unit. An output order that asks for all that there is up to its
target is sent to the target, and an input that does not pay for the whole way may already receive
all of it, since amounts are rounded down. There the purchase of the whole output costs more than
the sale, and it crosses the target if that is a tick.

* `step_requoted`, `step_drained`: one step of both orders.
* `Pool.Requoting.cases`: one advance of both orders: the output order goes along, is filled on the
  way, or asks for all that a drained step receives.
* `Pool.Completes.requoted`, `Pool.Drains.exceeds`: all advances.
* `Pool.Drained`: the end at which the last unit is not to be had for the same price.
* `requote_within`: buying less than a sale receives costs at most the sale; buying all of it costs
  at most the sale exactly where the sale is not drained.
* `exists_requote_beyond`: a sale of which not all is to be had for what is sold.
-/

namespace Clamm

/-! ## One step -/

section Steps

variable {d : Direction} {current target L fee : ℕ} {r r' : ℤ} {s s' : Step}

/-- A step stops short of its target, with all that there is up to it. -/
structure Step.Drains (s : Step) (d : Direction) (current target L : ℕ) : Prop where
  short : s.next ≠ target
  all : outputBetween d current target L = .ok s.amountOut

/-- **An output order that asks for all that there is up to the target** is sent there. Where an
input order receives as much and stops short, it has not paid for the whole way. -/
theorem step_drained (hlead : d.Leads current target) (hfee : fee < feeUnit)
    (hrem : r.natAbs < pow2 256) (hfix : fixesInput r = true) (hfix' : fixesInput r' = false)
    (h : step current target L r fee = .ok s) (h' : step current target L r' fee = .ok s')
    (hdrains : s.Drains d current target L) (hasks : r'.natAbs = s.amountOut) :
    s'.amountOut = r'.natAbs ∧ s.amountIn + s.fee < s'.amountIn + s'.fee := by
  have hparts := Step.parts_of_step hlead h
  have hparts' := Step.parts_of_step hlead h'
  obtain ⟨hpaid', available, ha, hcases⟩ := hparts'.of_output hlead hfix'
  obtain rfl : available = s.amountOut := Except.ok.inj (ha.symm.trans hdrains.all)
  rcases hcases with ⟨-, hnext', hamount'⟩ | ⟨hmore, -⟩
  · refine ⟨hamount'.trans hasks.symm, ?_⟩
    rcases hparts.of_input hlead hrem hfix with ⟨hnext, -⟩ | ⟨-, hdear, -, hpaid⟩
    · exact absurd hnext hdrains.short
    · by_contra hless
      refine hdear (hnext' ▸ (hparts'.amountIn_le_iff (step_sound hlead h').leaves).mp ?_)
      rw [← grossOf_le_iff hfee, ← hpaid', ← hpaid]
      exact not_lt.mp hless
  · exact absurd hasks hmore.ne

/-- **The step of an output order that asks for no more than an input order receives** is the step
of the input order, or fills the output order within it, or the output order asks for all that there
is up to the target and the input order receives this short of it. -/
theorem step_requoted (hlead : d.Leads current target) (hfee : fee < feeUnit)
    (hrem : r.natAbs < pow2 256) (hfix : fixesInput r = true) (hfix' : fixesInput r' = false)
    (h : step current target L r fee = .ok s) (h' : step current target L r' fee = .ok s')
    (hasks : s.next ≠ target → r'.natAbs ≤ s.amountOut) :
    s' = s ∨ (s'.Fills r' ∧ s'.OutdoneBy d s) ∨
      (s.Drains d current target L ∧ r'.natAbs = s.amountOut) := by
  have hparts := Step.parts_of_step hlead h
  have hparts' := Step.parts_of_step hlead h'
  have hsound := step_sound hlead h
  have hsound' := step_sound hlead h'
  have hout := fun x => hparts.le_amountOut_iff (x := x) hsound.leaves hfix
  obtain ⟨hpaid', available, ha, hcases⟩ := hparts'.of_output hlead hfix'
  have hall := fun x => le_outputBetween_iff (y := x) hlead ha
  have hsome : s.amountOut ≤ available :=
    (hall _).mpr (((hout _).mp le_rfl).extend hparts.pos.2 hsound.leaves hsound.stops)
  rcases hcases with ⟨hafford, hnext', hamount'⟩ | ⟨hmore, hprice', hamount'⟩
  · -- the output order is sent to the target
    rcases hparts.of_input hlead hrem hfix with ⟨hnext, -, hpaid⟩ | ⟨hnext, -, -, -⟩
    · left
      have heq : s'.next = s.next := hnext'.trans hnext.symm
      have hin : s'.amountIn = s.amountIn := hparts.amountIn_eq hparts' heq
      have hamount : available ≤ s.amountOut := (hout _).mpr (hnext.symm ▸ (hall _).mp le_rfl)
      exact Step.eq_of_paid_eq heq hin (hamount'.trans (le_antisymm hamount hsome))
        (by rw [hpaid', hpaid, hin])
    · right
      right
      obtain rfl : available = s.amountOut := le_antisymm (hafford.trans (hasks hnext)) hsome
      exact ⟨⟨hnext, ha⟩, le_antisymm (hasks hnext) hafford⟩
  · right
    left
    have hless : r'.natAbs ≤ s.amountOut := by
      by_cases hnext : s.next = target
      · exact hmore.le.trans ((hout _).mpr (hnext.symm ▸ (hall _).mp le_rfl))
      · exact hasks hnext
    have hfirst : d.Leads s'.next s.next :=
      (priceAfterOutput_spec hprice').2 _ hsound.leaves ((hout _).mp hless)
    have hin : s'.amountIn ≤ s.amountIn :=
      (hparts'.amountIn_le_iff hsound'.leaves).mpr
        (((hparts.amountIn_le_iff hsound.leaves).mp le_rfl).shorten hfirst)
    have hnet : s.amountIn ≤ netOf fee (s.amountIn + s.fee) :=
      (Nat.le_div_iff_mul_le (by decide)).mpr (step_settled hrem h).net
    refine ⟨.of_output hfix' hamount', hfirst, ?_, hamount'.trans_le hless⟩
    rw [hpaid', grossOf_le_iff hfee]
    exact hin.trans hnet

end Steps

/-! ## A sale and a purchase -/

/-- What the comparison of an input order of `x` with an output order of `-c` rests on. -/
structure Pool.Requotes (pool : Pool) (d : Direction) (x c : ℤ) (limit : ℕ) : Prop where
  advances : pool.ticks.Advances pool.spacing
  inside : Order.Inside ⟨d, x, limit⟩
  sale : IsInt256 x
  sale_nonneg : 0 ≤ x
  purchase : IsInt256 c
  purchase_nonpos : c ≤ 0

/-- The output order stands at `s` where the input order stands at `t`, neither is finished, and the
input order advances. -/
structure Pool.Requoting (pool : Pool) (d : Direction) (x c : ℤ) (limit : ℕ) (s t t' : Progress)
    (next : ℤ) (flag : Bool) (taken : Step) : Prop where
  together : pool.Together ⟨d, c, limit⟩ ⟨d, x, limit⟩ s t
  selling : Pool.finished ⟨d, x, limit⟩ t = false
  buying : Pool.finished ⟨d, c, limit⟩ s = false
  parts : pool.Advanced ⟨d, x, limit⟩ t t' next flag taken

/-- An output order advances as an input order does: to the same state, receiving and paying the
same. -/
def Pool.GoesAlong (pool : Pool) (o' : Order) (s : Progress) (o : Order) (t t' : Progress) : Prop :=
  ∃ s', pool.advance o' s = .ok s' ∧ s'.state = t'.state ∧
    s'.remaining = s.remaining + (o.gained t' - o.gained t) ∧
    o'.spent s' - o'.spent s = o.spent t' - o.spent t

/-- An order is filled by a swap that goes no further and pays no more than what another one does
from `t` to `e`. -/
def Pool.FilledWithin (pool : Pool) (o' : Order) (s : Progress) (o : Order) (t e : Progress) :
    Prop :=
  ∃ e', pool.Completes o' s e' ∧ e'.remaining = 0 ∧
    o.direction.Leads e'.state.sqrtPrice e.state.sqrtPrice ∧
    o'.spent e' - o'.spent s ≤ o.spent e - o.spent t

/-- An order is filled by no swap that pays as little as another one does from `t` to `e`. -/
def Pool.Exceeds (pool : Pool) (o' : Order) (s : Progress) (o : Order) (t e : Progress) : Prop :=
  ∀ e', pool.Completes o' s e' →
    e'.remaining = 0 ∧ o.spent e - o.spent t < o'.spent e' - o'.spent s

/-- **An order is drained** from `t` to `e`: it is used up by a last step that stops short of its
target, and that receives something which is all there is up to the target. -/
inductive Pool.Drains (pool : Pool) (o : Order) : Progress → Progress → Prop
  | last {t e : Progress} {next : ℤ} {flag : Bool} {taken : Step}
      (unfinished : Pool.finished o t = false) (step : pool.advance o t = .ok e)
      (parts : pool.Advanced o t e next flag taken) (used : e.remaining = 0)
      (drains : taken.Drains o.direction t.state.sqrtPrice (o.target (ratioAt (stopTick next)))
        t.state.liquidity)
      (some : 0 < taken.amountOut) : Drains pool o t e
  | advance {t t' e : Progress} (unfinished : Pool.finished o t = false)
      (step : pool.advance o t = .ok t') (rest : Drains pool o t' e) : Drains pool o t e

section Runs

variable {pool : Pool} {o o' : Order} {d : Direction} {x c : ℤ} {limit n : ℕ}
  {s s' t t' e e' : Progress} {next : ℤ} {flag : Bool} {taken taken' : Step}

theorem Pool.Drains.unfinished (h : pool.Drains o t e) : Pool.finished o t = false := by
  cases h with
  | last hgo => exact hgo
  | advance hgo => exact hgo

theorem Pool.Drains.completes (h : pool.Drains o t e) : pool.Completes o t e := by
  induction h with
  | last hgo hstep _ hused =>
    exact .advance hgo hstep (.done (finished_eq_true_iff.mpr (Or.inl hused)))
  | advance hgo hstep _ ih => exact .advance hgo hstep ih

theorem Pool.Drains.remaining_eq (h : pool.Drains o t e) : e.remaining = 0 := by
  induction h with
  | last _ _ _ hused => exact hused
  | advance _ _ _ ih => exact ih

/-- A drained order receives something before it is used up. -/
theorem Pool.Drains.gained_lt (hadv : pool.ticks.Advances pool.spacing) (ho : o.Inside)
    (ht : Trading o t) (h : pool.Drains o t e) : o.gained t < o.gained e := by
  induction h with
  | last _ _ hparts _ _ hsome =>
    have := hparts.gained_eq
    omega
  | advance hgo hstep _ ih =>
    have hgrow := (ht.grows hadv ho hstep).gained
    exact hgrow.trans_lt (ih (ht.advance hadv ho hgo hstep))

/-- What an output order has left after an advance. -/
theorem Trading.remaining_output (hs : Trading o s) (hneg : s.remaining < 0)
    (hgo : Pool.finished o s = false) (h : pool.Advanced o s s' next flag taken) :
    s'.remaining = s.remaining + taken.amountOut := by
  rcases book_cases hs.remaining_mem (Pool.finished_eq_false_iff.mp hgo).1 h.book with
    ⟨hpos, -⟩ | ⟨-, hrem, -⟩
  · rw [fixesInput_eq_false_iff.mpr hneg] at hpos
    cases hpos
  · exact hrem

/-- Landing no further than a price on which a landing succeeds. -/
theorem Pool.exists_land_before {state next : PoolState} {stop : ℤ} {p q : ℕ}
    (hspan : d.Spans state.tick stop) (hstart : d.Encloses state.tick stop state.sqrtPrice)
    (hleaves : d.Leads state.sqrtPrice q) (hstops : d.Leads q p)
    (hedge : d.Leads p (ratioAt stop))
    (h : pool.land d state stop (ratioAt stop) flag p = .ok next) :
    ∃ next', pool.land d state stop (ratioAt stop) flag q = .ok next' := by
  by_cases hsame : q = p
  · exact ⟨next, hsame ▸ h⟩
  · refine pool.exists_land_short hspan hstart hleaves (hstops.trans hedge) fun hq => hsame ?_
    exact hstops.antisymm (hq ▸ hedge)

/-! ### One advance of both orders -/

/-- What both orders have left before an advance. -/
theorem Pool.Requoting.signs (hq : pool.Requotes d x c limit)
    (h : pool.Requoting d x c limit s t t' next flag taken) :
    0 < t.remaining ∧ s.remaining < 0 := by
  have hrem := (finished_eq_false_iff.mp h.selling).1
  have hrem' := (finished_eq_false_iff.mp h.buying).1
  have hmem := Set.mem_uIcc.mp h.together.second.remaining_mem
  have hmem' := Set.mem_uIcc.mp h.together.first.remaining_mem
  have := hq.sale_nonneg
  have := hq.purchase_nonpos
  dsimp only at hmem hmem'
  omega

/-- An output order that stands where an input order does, and asks for more, is not finished either
where that one advances. -/
theorem Pool.Together.requoting (hboth : pool.Together ⟨d, c, limit⟩ ⟨d, x, limit⟩ s t)
    (hgo : Pool.finished ⟨d, x, limit⟩ t = false) (hask : s.remaining ≠ 0)
    (h : pool.Advanced ⟨d, x, limit⟩ t t' next flag taken) :
    pool.Requoting d x c limit s t t' next flag taken where
  together := hboth
  selling := hgo
  buying := finished_eq_false_iff.mpr ⟨hask, hboth.state ▸ (finished_eq_false_iff.mp hgo).2⟩
  parts := h

/-- An input order that ends short of its target is used up. -/
theorem Pool.Requoting.used (hq : pool.Requotes d x c limit)
    (h : pool.Requoting d x c limit s t t' next flag taken)
    (hshort : taken.next ≠ Order.target ⟨d, x, limit⟩ (ratioAt (stopTick next))) :
    t'.remaining = 0 := by
  have hpos := (h.signs hq).1
  have hbound := (natAbs_remaining_le h.together.second.remaining_mem hq.sale).trans_lt
    (show pow2 255 < pow2 256 by decide)
  have hpaid := (step_settled hbound h.parts.trade).spends hshort
    (fixesInput_eq_true_iff.mpr hpos.le)
  have := h.together.second.remaining_input hpos.le h.selling h.parts
  omega

/-- The search and the step of the output order, toward the same target. -/
theorem Pool.Requoting.exists_trade (hq : pool.Requotes d x c limit)
    (h : pool.Requoting d x c limit s t t' next flag taken) :
    pool.ticks.next s.state.tick pool.spacing d = .ok (next, flag) ∧
      ∃ taken', step s.state.sqrtPrice (Order.target ⟨d, c, limit⟩ (ratioAt (stopTick next)))
          s.state.liquidity s.remaining pool.fee = .ok taken' ∧
        IsInt256 (taken'.amountIn + taken'.fee) ∧ IsInt256 taken'.amountOut := by
  have hs := h.together.first
  have hsearch : pool.ticks.next s.state.tick pool.spacing d = .ok (next, flag) :=
    h.together.state ▸ h.parts.search
  have hspan := spans_stopTick hq.advances hs.underway.accepted.tick_mem hsearch
  obtain ⟨taken', htrade, hfits, -⟩ :=
    hs.exists_step hq.inside hq.purchase hspan (stopTick_mem next) pool.fee_lt
  exact ⟨hsearch, taken', htrade, hfits⟩

/-- **The same step** leads the output order along. -/
theorem Pool.Requoting.along (hq : pool.Requotes d x c limit)
    (h : pool.Requoting d x c limit s t t' next flag taken)
    (htrade : step s.state.sqrtPrice (Order.target ⟨d, c, limit⟩ (ratioAt (stopTick next)))
      s.state.liquidity s.remaining pool.fee = .ok taken)
    (hfits : IsInt256 (taken.amountIn + taken.fee) ∧ IsInt256 taken.amountOut) :
    pool.GoesAlong ⟨d, c, limit⟩ s ⟨d, x, limit⟩ t t' := by
  have hland := h.parts.land
  rw [← h.together.state] at hland
  obtain ⟨s', hs', hstep', hstate⟩ :=
    exists_advance_of_parts (h.exists_trade hq).1 htrade hfits hland
  have hleft := h.together.first.remaining_output (h.signs hq).2 h.buying hstep'
  have hspent := h.parts.spent_eq
  have hgained := h.parts.gained_eq
  have hspent' := hstep'.spent_eq
  exact ⟨s', hs', hstate, by omega, by omega⟩

/-- **A step within that of the input order** that fills the output order. -/
theorem Pool.Requoting.filled (hq : pool.Requotes d x c limit)
    (h : pool.Requoting d x c limit s t t' next flag taken)
    (htrade : step s.state.sqrtPrice (Order.target ⟨d, c, limit⟩ (ratioAt (stopTick next)))
      s.state.liquidity s.remaining pool.fee = .ok taken')
    (hfits : IsInt256 (taken'.amountIn + taken'.fee) ∧ IsInt256 taken'.amountOut)
    (hfills : taken'.Fills s.remaining) (hout : taken'.OutdoneBy d taken) :
    pool.FilledWithin ⟨d, c, limit⟩ s ⟨d, x, limit⟩ t t' := by
  have hs := h.together.first
  have hsearch := (h.exists_trade hq).1
  have hspan := spans_stopTick hq.advances hs.underway.accepted.tick_mem hsearch
  obtain ⟨hsound, hprice, -⟩ := h.together.second.underway.stride hq.advances hq.inside h.parts
  have hlead := hsound.leaves.trans hsound.stops
  have hland := h.parts.land
  rw [← h.together.state] at hland hlead
  obtain ⟨state, hland'⟩ := exists_land_before hspan (hs.underway.accepted.encloses hspan)
    (step_sound hlead htrade).leaves hout.next (leads_of_target hsound.stops).1 hland
  obtain ⟨s', hs', hstep', -⟩ := exists_advance_of_parts hsearch htrade hfits hland'
  have hzero : s'.remaining = 0 :=
    remaining_eq_zero_of_book hs.remaining_mem (finished_eq_false_iff.mp h.buying).1 hfills.paid
      hfills.received (by exact_mod_cast hstep'.book)
  have hdone : pool.Completes ⟨d, c, limit⟩ s' s' :=
    .done (finished_eq_true_iff.mpr (Or.inl hzero))
  refine ⟨s', .advance h.buying hs' hdone, hzero, ?_, ?_⟩
  · rw [hprice, (land_eq_ok hstep'.land).1]
    exact hout.next
  · have hspent := h.parts.spent_eq
    have hspent' := hstep'.spent_eq
    have := hout.paid
    omega

/-- **A step to the target** fills an output order that asks for all that there is up to it, for
more than an input order pays that receives this short of it. -/
theorem Pool.Requoting.exceeds (hq : pool.Requotes d x c limit)
    (h : pool.Requoting d x c limit s t t' next flag taken)
    (hdrains : taken.Drains d t.state.sqrtPrice
      (Order.target ⟨d, x, limit⟩ (ratioAt (stopTick next))) t.state.liquidity)
    (hasks : s.remaining.natAbs = taken.amountOut) :
    pool.Exceeds ⟨d, c, limit⟩ s ⟨d, x, limit⟩ t t' := by
  intro e' hrun
  obtain ⟨hpos, hneg⟩ := h.signs hq
  have hbound := (natAbs_remaining_le h.together.second.remaining_mem hq.sale).trans_lt
    (show pow2 255 < pow2 256 by decide)
  obtain ⟨hsound, -, -⟩ := h.together.second.underway.stride hq.advances hq.inside h.parts
  cases hrun with
  | done hfin =>
    rw [h.buying] at hfin
    cases hfin
  | @advance _ s' _ _ hs' rest =>
    obtain ⟨next', flag', taken', hstep'⟩ := advance_eq_ok hs'
    obtain ⟨rfl, rfl⟩ := h.parts.search_eq hstep' rfl h.together.state.symm
    have htrade' := hstep'.trade
    rw [h.together.state] at htrade'
    obtain ⟨hfilled, hmore⟩ := step_drained (hsound.leaves.trans hsound.stops) pool.fee_lt hbound
      (fixesInput_eq_true_iff.mpr hpos.le) (fixesInput_eq_false_iff.mpr hneg) h.parts.trade htrade'
      hdrains hasks
    have hzero : s'.remaining = 0 := by
      have := h.together.first.remaining_output hneg h.buying hstep'
      omega
    have hspent := h.parts.spent_eq
    have hspent' := hstep'.spent_eq
    rw [rest.eq_of_finished (finished_eq_true_iff.mpr (Or.inl hzero))]
    exact ⟨hzero, by omega⟩

/-- **One advance of an input order and of an output order that asks for no more**: they stay
together, or the output order is filled within the advance, or it asks for all that there is up to
the target and the input order receives this short of it. -/
theorem Pool.Requoting.cases (hq : pool.Requotes d x c limit)
    (h : pool.Requoting d x c limit s t t' next flag taken)
    (hasks : t'.remaining = 0 →
      -s.remaining ≤ Order.gained ⟨d, x, limit⟩ t' - Order.gained ⟨d, x, limit⟩ t) :
    pool.GoesAlong ⟨d, c, limit⟩ s ⟨d, x, limit⟩ t t' ∨
    (pool.FilledWithin ⟨d, c, limit⟩ s ⟨d, x, limit⟩ t t' ∧
      -s.remaining ≤ Order.gained ⟨d, x, limit⟩ t' - Order.gained ⟨d, x, limit⟩ t) ∨
    (taken.Drains d t.state.sqrtPrice (Order.target ⟨d, x, limit⟩ (ratioAt (stopTick next)))
        t.state.liquidity ∧ s.remaining.natAbs = taken.amountOut) := by
  obtain ⟨hpos, hneg⟩ := h.signs hq
  obtain ⟨-, taken', htrade, hfits⟩ := h.exists_trade hq
  have hbound := (natAbs_remaining_le h.together.second.remaining_mem hq.sale).trans_lt
    (show pow2 255 < pow2 256 by decide)
  obtain ⟨hsound, -, -⟩ := h.together.second.underway.stride hq.advances hq.inside h.parts
  have hgained := h.parts.gained_eq
  have hless : taken.next ≠ Order.target ⟨d, x, limit⟩ (ratioAt (stopTick next)) →
      s.remaining.natAbs ≤ taken.amountOut := fun hshort => by
    have := hasks (h.used hq hshort)
    omega
  have htrade' := htrade
  rw [h.together.state] at htrade'
  rcases step_requoted (hsound.leaves.trans hsound.stops) pool.fee_lt hbound
    (fixesInput_eq_true_iff.mpr hpos.le) (fixesInput_eq_false_iff.mpr hneg) h.parts.trade htrade'
    hless with rfl | ⟨hfills, hout⟩ | hdrained
  · exact Or.inl (h.along hq htrade hfits)
  · have hfilled := hfills.received (fixesInput_eq_false_iff.mpr hneg)
    have := hout.received
    exact Or.inr (Or.inl ⟨h.filled hq htrade hfits hfills hout, by omega⟩)
  · exact Or.inr (Or.inr hdrained)

/-! ### All advances of both orders -/

/-- An output order that goes along stays together with the input order. -/
theorem Pool.Requoting.advance (hq : pool.Requotes d x c limit)
    (h : pool.Requoting d x c limit s t t' next flag taken)
    (hstep : pool.advance ⟨d, x, limit⟩ t = .ok t')
    (hstep' : pool.advance ⟨d, c, limit⟩ s = .ok s') (hstate : s'.state = t'.state) :
    pool.Together ⟨d, c, limit⟩ ⟨d, x, limit⟩ s' t' :=
  h.together.advance hq.advances hq.inside hq.inside h.buying h.selling hstep' hstep hstate

/-- **An input order against an output order that asks for no more than it receives.** The output
order is filled within it, unless the input order is drained and the output order asks for all of
it. -/
theorem Pool.Completes.requoted (hq : pool.Requotes d x c limit)
    (h : pool.Completes ⟨d, x, limit⟩ t e)
    (hboth : pool.Together ⟨d, c, limit⟩ ⟨d, x, limit⟩ s t)
    (hasks : -s.remaining ≤ Order.gained ⟨d, x, limit⟩ e - Order.gained ⟨d, x, limit⟩ t) :
    pool.FilledWithin ⟨d, c, limit⟩ s ⟨d, x, limit⟩ t e ∨
      (pool.Drains ⟨d, x, limit⟩ t e ∧
        -s.remaining = Order.gained ⟨d, x, limit⟩ e - Order.gained ⟨d, x, limit⟩ t) := by
  have hsign := Set.mem_uIcc.mp hboth.first.remaining_mem
  have := hq.purchase_nonpos
  dsimp only at hsign
  induction h generalizing s with
  | @done t hfin =>
    left
    have hzero : s.remaining = 0 := by omega
    refine ⟨s, .done (finished_eq_true_iff.mpr (Or.inl hzero)), hzero, ?_, by omega⟩
    exact hboth.state ▸ Direction.Leads.refl _ _
  | @advance t t' e hgo hstep rest ih =>
    have hgrow := hboth.second.grows hq.advances hq.inside hstep
    have hgrows := rest.grows hq.advances hq.inside
      (hboth.second.advance hq.advances hq.inside hgo hstep)
    have hspent := hgrows.spent
    by_cases hzero : s.remaining = 0
    · -- an order that asks for nothing more has nothing more to pay
      left
      have := hgrow.spent
      refine ⟨s, .done (finished_eq_true_iff.mpr (Or.inl hzero)), hzero, ?_, by omega⟩
      exact hboth.state ▸ (hgrow.trans hgrows).leads
    have hlast : t'.remaining = 0 → e = t' := fun hzero =>
      rest.eq_of_finished (finished_eq_true_iff.mpr (Or.inl hzero))
    obtain ⟨next, flag, taken, hparts⟩ := advance_eq_ok hstep
    have hone := hboth.requoting hgo hzero hparts
    rcases hone.cases hq (fun hzero => hlast hzero ▸ hasks) with
      ⟨s', hstep', hstate, hleft, hpaid⟩ | ⟨⟨e', hrun, hfilled, hlead, hpaid⟩, -⟩ |
        ⟨hdrains, hall⟩
    · have hboth' := hone.advance hq hstep hstep' hstate
      have hsign' := Set.mem_uIcc.mp hboth'.first.remaining_mem
      rcases ih hboth' (by omega) hsign' with ⟨e', hrun, hfilled, hlead, hle⟩ | ⟨hrest, hask⟩
      · exact Or.inl ⟨e', .advance hone.buying hstep' hrun, hfilled, hlead, by omega⟩
      · exact Or.inr ⟨.advance hgo hstep hrest, by omega⟩
    · exact Or.inl ⟨e', hrun, hfilled, hlead.trans hgrows.leads, by omega⟩
    · have hused := hone.used hq hdrains.short
      have hgained := hparts.gained_eq
      obtain rfl := hlast hused
      exact Or.inr ⟨.last hgo hstep hparts hused hdrains (by omega), by omega⟩

/-- **An output order that asks for all that a drained input order receives** pays more. -/
theorem Pool.Drains.exceeds (hq : pool.Requotes d x c limit) (h : pool.Drains ⟨d, x, limit⟩ t e)
    (hboth : pool.Together ⟨d, c, limit⟩ ⟨d, x, limit⟩ s t)
    (hasks : -s.remaining = Order.gained ⟨d, x, limit⟩ e - Order.gained ⟨d, x, limit⟩ t) :
    pool.Exceeds ⟨d, c, limit⟩ s ⟨d, x, limit⟩ t e := by
  have hless := h.gained_lt hq.advances hq.inside hboth.second
  induction h generalizing s with
  | @last t e next flag taken hgo hstep hparts hused hdrains hsome =>
    have hone := hboth.requoting hgo (by omega) hparts
    have hneg := (hone.signs hq).2
    have hgained := hparts.gained_eq
    exact hone.exceeds hq hdrains (by omega)
  | @advance t t' e hgo hstep hrest ih =>
    obtain ⟨next, flag, taken, hparts⟩ := advance_eq_ok hstep
    have hone := hboth.requoting hgo (by omega) hparts
    have hleft := (finished_eq_false_iff.mp hrest.unfinished).1
    have hmore := hrest.gained_lt hq.advances hq.inside
      (hboth.second.advance hq.advances hq.inside hgo hstep)
    -- what is still to be received keeps the output order along
    rcases hone.cases hq (fun hzero => absurd hzero hleft) with
      ⟨s', hstep', hstate, hask, hpaid⟩ | ⟨-, hfilled⟩ | ⟨hdrains, -⟩
    · intro e' hrun
      cases hrun with
      | done hfin =>
        rw [hone.buying] at hfin
        cases hfin
      | advance _ hagain rest =>
        obtain rfl := Except.ok.inj (hstep'.symm.trans hagain)
        obtain ⟨hzero, hcosts⟩ := ih (hone.advance hq hstep hstep' hstate) (by omega) hmore e' rest
        exact ⟨hzero, by omega⟩
    · omega
    · exact absurd (hone.used hq hdrains.short) hleft

/-! ## From the advances to the swap -/

/-- An order without a limit of its own. -/
abbrev Order.unlimited (d : Direction) (amount : ℤ) : Order := ⟨d, amount, defaultLimit d⟩

/-- What advances lead to on the way is completed alike. -/
theorem Pool.Reaches.completes (hreach : pool.Reaches o n s)
    (h : pool.Completes o (pool.start o) e) : pool.Completes o s e := by
  induction hreach with
  | start => exact h
  | advance _ hgo hstep ih =>
    cases ih with
    | done hfin =>
      rw [hgo] at hfin
      cases hfin
    | advance _ hstep' rest =>
      obtain rfl := Except.ok.inj (hstep.symm.trans hstep')
      exact rest

/-- **Advances that lead to the end of a swap are the swap.** -/
theorem Pool.Completes.swap (hadv : pool.ticks.Advances pool.spacing) (ha : IsInt256 x)
    (hlimit : (Order.unlimited d x).checkLimit pool.state.sqrtPrice = .ok ())
    (h : pool.Completes (.unlimited d x) (pool.start (.unlimited d x)) e) :
    pool.swap d x none = .ok ((Order.unlimited d x).settle e) ∧
      ∃ n, pool.Reaches (.unlimited d x) n e := by
  obtain ⟨n, s, hreach, hends⟩ := run_start_stops hadv ha hlimit
  have hrest := hreach.completes h
  unfold Pool.swap
  dsimp only [Option.getD_none]
  rw [hlimit, ok_bind]
  generalize pool.run _ _ _ = result at hends
  cases hends with
  | finished hfin =>
    rw [hrest.eq_of_finished hfin]
    exact ⟨rfl, n, hreach⟩
  | failed hgo hfail =>
    cases hrest with
    | done hfin =>
      rw [hgo] at hfin
      cases hfin
    | advance _ hstep =>
      rw [hfail] at hstep
      cases hstep

/-- What has been paid fits in 256 bits. -/
theorem Progress.Fits.spent (h : s.Fits o) : IsInt256 (o.spent s) := by
  unfold Order.spent
  cases hfix : fixesInput o.amount with
  | true =>
    rw [(settle_input hfix).1]
    exact h.used
  | false =>
    rw [(settle_output hfix).1]
    exact h.other

/-- An output order that is filled has received what it asks for. -/
theorem Pool.Completes.gained_eq (hc0 : c ≤ 0)
    (h : pool.Completes ⟨d, c, limit⟩ (pool.start ⟨d, c, limit⟩) e) (hfilled : e.remaining = 0) :
    Order.gained ⟨d, c, limit⟩ e = -c := by
  rcases hc0.eq_or_lt with rfl | hneg
  · rw [h.eq_of_finished (finished_eq_true_iff.mpr (Or.inl rfl)), (Order.accounts_start _ _).2,
      neg_zero]
  · unfold Order.gained
    rw [(settle_output (fixesInput_eq_false_iff.mpr hneg)).2, hfilled, zero_sub]

/-- **An order is drained**: its last step receives something, and stops short of its target with
all that there is up to it. -/
def Pool.Drained (pool : Pool) (o : Order) : Prop :=
  ∃ e, pool.Drains o (pool.start o) e

end Runs

/-! ## Quotes -/

/-- A sale of `x` in a direction, without a limit, comes to `e` and receives `y`. -/
structure Pool.Sells (pool : Pool) (d : Direction) (x y : Amount) (e : Progress) : Prop where
  advances : pool.ticks.Advances pool.spacing
  nonneg : 0 ≤ x.quotient
  isInt256 : IsInt256 x.quotient
  sold : (pool.sold d == x.token) = true
  bought : pool.bought d = y.token
  accepts : (Order.unlimited d x.quotient).checkLimit pool.state.sqrtPrice = .ok ()
  completes : pool.Completes (.unlimited d x.quotient) (pool.start (.unlimited d x.quotient)) e
  received : y.quotient = (Order.unlimited d x.quotient).gained e

/-- Buying `z` is quoted in the token of `x`, at no more than `x`. -/
def Pool.QuotedWithin (pool : Pool) (z x : Amount) : Prop :=
  ∃ c next, pool.inputFor z none = .ok (c, next) ∧ (c.token == x.token) = true ∧
    c.quotient ≤ x.quotient

section Quotes

variable {pool next : Pool} {d : Direction} {x y z c : Amount} {e e' : Progress} {a : ℤ}

/-- **An output order that is filled is a quote**, at what it has paid. -/
theorem Pool.exists_inputFor (hadv : pool.ticks.Advances pool.spacing)
    (hz : (z.token == pool.bought d) = true) (hint : IsInt256 z.quotient) (h0 : 0 ≤ z.quotient)
    (hlimit : (Order.unlimited d (-z.quotient)).checkLimit pool.state.sqrtPrice = .ok ())
    (h : pool.Completes (.unlimited d (-z.quotient)) (pool.start (.unlimited d (-z.quotient))) e)
    (hfilled : e.remaining = 0) :
    ∃ c next, pool.inputFor z none = .ok (c, next) ∧ c.token = pool.sold d ∧
      c.quotient = (Order.unlimited d (-z.quotient)).spent e := by
  have hneg := hint.neg h0
  obtain ⟨hswap, n, hreach⟩ := h.swap hadv hneg hlimit
  have hacc := (hreach.trading hadv hlimit).underway.accepted
  have hcost := (hreach.fits hadv hneg hlimit).spent
  obtain ⟨c, hc⟩ := Amount.exists_ofInt (pool.sold d)
    (hcost.2.le.trans (show (pow2 255 : ℤ) ≤ maxUInt256 by decide))
  obtain ⟨htoken, hquot⟩ := Amount.ofInt_eq_ok hc
  refine ⟨c, pool.withState e.state hacc, inputFor_eq_ok_iff.mpr ?_, htoken, hquot⟩
  rw [buying_of_beq hz]
  refine ⟨involves_of_beq hz, hint, _, hswap, ?_, hc, ?_⟩
  · exact (h.gained_eq (neg_nonpos.mpr h0) hfilled).trans (neg_neg _)
  · rw [settle_state]
    exact moveTo_eq_ok_iff.mpr ⟨hacc, rfl⟩

/-- A quoted purchase is an output order that completes. -/
theorem Pool.exists_completes_of_inputFor (hz : (z.token == pool.bought d) = true)
    (h : pool.inputFor z none = .ok (c, next)) :
    ∃ e, pool.Completes (.unlimited d (-z.quotient)) (pool.start (.unlimited d (-z.quotient))) e ∧
      c.quotient = (Order.unlimited d (-z.quotient)).spent e := by
  obtain ⟨-, -, r, hswap, -, hc, -⟩ := inputFor_eq_ok_iff.mp h
  rw [buying_of_beq hz] at hswap hc
  obtain ⟨_, e, rfl, -, hrun, rfl⟩ := swap_completes hswap
  exact ⟨e, hrun, (Amount.ofInt_eq_ok hc).2⟩

/-- What a quoted sale comes to. -/
theorem Pool.exists_sells (hadv : pool.ticks.Advances pool.spacing) (hx : 0 ≤ x.quotient)
    (h : pool.outputFor x none = .ok (y, next)) :
    ∃ e, pool.Sells (pool.selling x.token) x y e := by
  obtain ⟨hinv, hint, r, hswap, hy, -⟩ := outputFor_eq_ok_iff.mp h
  obtain ⟨_, e, rfl, hlimit, hrun, rfl⟩ := swap_completes hswap
  obtain ⟨htoken, hquot⟩ := Amount.ofInt_eq_ok hy
  exact ⟨e, hadv, hx, hint, pool.sold_selling hinv, htoken.symm, hlimit, hrun, hquot⟩

/-- What is received is not negative and fits in 256 bits. -/
theorem Pool.Sells.received_mem (h : pool.Sells d x y e) :
    0 ≤ y.quotient ∧ y.quotient < pow2 255 := by
  obtain ⟨-, n, hreach⟩ := h.completes.swap h.advances h.isInt256 h.accepts
  have hother : (Order.unlimited d x.quotient).gained e = -e.other :=
    (settle_input (fixesInput_eq_true_iff.mpr h.nonneg)).2
  have hlt := abs_lt.mp (hreach.abs_other_lt h.advances h.isInt256 h.accepts)
  have hge := (hreach.booked h.advances h.isInt256 h.accepts).received_nonneg
  have hreceived := h.received
  refine ⟨hreceived ▸ hge, ?_⟩
  omega

/-- What is paid is at most what is sold. -/
theorem Pool.Sells.spent_le (h : pool.Sells d x y e) :
    (Order.unlimited d x.quotient).spent e ≤ x.quotient := by
  obtain ⟨-, n, hreach⟩ := h.completes.swap h.advances h.isInt256 h.accepts
  have hmem := Set.mem_uIcc.mp (hreach.trading h.advances h.accepts).remaining_mem
  have hpaid : (Order.unlimited d x.quotient).spent e = x.quotient - e.remaining :=
    (settle_input (fixesInput_eq_true_iff.mpr h.nonneg)).1
  have := h.nonneg
  dsimp only [Order.unlimited] at hmem
  omega

/-- A purchase of no more than a sale receives can be compared with the sale. -/
theorem Pool.Sells.requotes (h : pool.Sells d x y e) (h0 : 0 ≤ a) (hle : a ≤ y.quotient) :
    pool.Requotes d x.quotient (-a) (Order.defaultLimit d) :=
  have hmem := h.received_mem
  { advances := h.advances
    inside := (checkLimit_eq_ok pool.accepted h.accepts).1
    sale := h.isInt256
    sale_nonneg := h.nonneg
    purchase := IsInt256.neg ⟨by omega, by omega⟩ h0
    purchase_nonpos := neg_nonpos.mpr h0 }

/-- **A purchase of no more than a sale receives** is filled for no more than what is sold, unless
it asks for all that a drained sale receives. -/
theorem Pool.Sells.filled_or_drained (h : pool.Sells d x y e) (h0 : 0 ≤ a) (hle : a ≤ y.quotient) :
    (∃ e', pool.Completes (.unlimited d (-a)) (pool.start (.unlimited d (-a))) e' ∧
      e'.remaining = 0 ∧ (Order.unlimited d (-a)).spent e' ≤ x.quotient) ∨
    (a = y.quotient ∧ pool.Drained (.unlimited d x.quotient)) := by
  obtain ⟨hspent, hgained⟩ := Order.accounts_start pool (.unlimited d x.quotient)
  obtain ⟨hspent', -⟩ := Order.accounts_start pool (.unlimited d (-a))
  have hstart : (pool.start (.unlimited d (-a))).remaining = -a := rfl
  have hreceived := h.received
  have hpaid := h.spent_le
  have hsale := h.completes
  dsimp only [Order.unlimited] at *
  rcases hsale.requoted (h.requotes h0 hle) (.start h.accepts h.accepts) (by omega) with
    ⟨e', hrun, hfilled, -, hcost⟩ | ⟨hdrains, hall⟩
  · exact Or.inl ⟨e', hrun, hfilled, by omega⟩
  · exact Or.inr ⟨by omega, e, hdrains⟩

/-- **All that a drained sale receives** is bought for more than what is sold. -/
theorem Pool.Sells.lt_spent (h : pool.Sells d x y e)
    (hdrained : pool.Drained (.unlimited d x.quotient))
    (hrun : pool.Completes (.unlimited d (-y.quotient)) (pool.start (.unlimited d (-y.quotient)))
      e') :
    e'.remaining = 0 ∧ x.quotient < (Order.unlimited d (-y.quotient)).spent e' := by
  obtain ⟨e₀, hdrains⟩ := hdrained
  obtain rfl : e₀ = e := h.completes.unique hdrains.completes
  obtain ⟨hspent, hgained⟩ := Order.accounts_start pool (.unlimited d x.quotient)
  obtain ⟨hspent', -⟩ := Order.accounts_start pool (.unlimited d (-y.quotient))
  have hstart : (pool.start (.unlimited d (-y.quotient))).remaining = -y.quotient := rfl
  have hpaid : (Order.unlimited d x.quotient).spent e₀ = x.quotient - e₀.remaining :=
    (settle_input (fixesInput_eq_true_iff.mpr h.nonneg)).1
  have hused := hdrains.remaining_eq
  have hreceived := h.received
  dsimp only [Order.unlimited] at *
  obtain ⟨hfilled, hmore⟩ := hdrains.exceeds (h.requotes h.received_mem.1 le_rfl)
    (.start h.accepts h.accepts) (by omega) e' hrun
  exact ⟨hfilled, by omega⟩

/-- A purchase of no more than a sale receives is quoted within the sale, unless it asks for all
that a drained sale receives. -/
theorem Pool.Sells.quotedWithin (h : pool.Sells d x y e) (hz : (z.token == y.token) = true)
    (h0 : 0 ≤ z.quotient) (hle : z.quotient ≤ y.quotient)
    (hnot : z.quotient = y.quotient → ¬ pool.Drained (.unlimited d x.quotient)) :
    pool.QuotedWithin z x := by
  rcases h.filled_or_drained h0 hle with ⟨e', hrun, hfilled, hcost⟩ | ⟨hall, hdrained⟩
  · have hmem := h.received_mem
    obtain ⟨c, next, hquote, htoken, hquot⟩ := exists_inputFor h.advances (h.bought ▸ hz)
      ⟨by omega, by omega⟩ h0 h.accepts hrun hfilled
    exact ⟨c, next, hquote, htoken ▸ h.sold, hquot.trans_le hcost⟩
  · exact absurd hdrained (hnot hall)

/-- All that a drained sale receives is quoted wherever no crossing fails. -/
theorem Pool.Sells.exists_quote (h : pool.Sells d x y e) {ticks : List Tick}
    (hcomplete : pool.Complete ticks) (hdrained : pool.Drained (.unlimited d x.quotient)) :
    ∃ c next, pool.inputFor y none = .ok (c, next) := by
  have hmem := h.received_mem
  have hint : IsInt256 y.quotient := ⟨by omega, hmem.2⟩
  obtain ⟨e', hrun⟩ := hcomplete.exists_run (o := .unlimited d (-y.quotient))
    (hint.neg hmem.1) h.accepts
  have hrun := completes_of_run hrun
  have hself : (y.token == y.token) = true := Token.beq_iff.mpr ⟨rfl, rfl⟩
  obtain ⟨c, next, hquote, -⟩ := exists_inputFor h.advances (h.bought ▸ hself) hint hmem.1
    h.accepts hrun (h.lt_spent hdrained hrun).1
  exact ⟨c, next, hquote⟩

/-- **Buying less than a sale receives costs at most the sale.** Over any list and any table of
ticks: if selling `x` receives `y`, then every smaller amount of the token of `y` is quoted on the
same pool, at no more than `x`. So is `y` itself, unless the sale is drained: its last step receives
something, and stops short of its target with all that there is up to it. Then `y` is never quoted
at `x` or less, and it is quoted wherever no crossing fails. -/
theorem requote_within
    (hsource : (∃ l : TickList, pool.ticks = l.source) ∨ ∃ b : TickBitmap, pool.ticks = b.source)
    (hx : 0 ≤ x.quotient) (h : pool.outputFor x none = .ok (y, next)) :
    (∀ z : Amount, (z.token == y.token) = true → 0 ≤ z.quotient → z.quotient < y.quotient →
      pool.QuotedWithin z x) ∧
    (¬ pool.Drained (.unlimited (pool.selling x.token) x.quotient) → pool.QuotedWithin y x) ∧
    (pool.Drained (.unlimited (pool.selling x.token) x.quotient) →
      (∀ c next', pool.inputFor y none = .ok (c, next') → x.quotient < c.quotient) ∧
      ∀ ticks, pool.Complete ticks → ∃ c next', pool.inputFor y none = .ok (c, next')) := by
  have hadv : pool.ticks.Advances pool.spacing := advances_of_list_or_bitmap hsource
  obtain ⟨e, hsale⟩ := Pool.exists_sells hadv hx h
  have hself : (y.token == y.token) = true := Token.beq_iff.mpr ⟨rfl, rfl⟩
  refine ⟨fun z hz h0 hlt => ?_, fun hnot => ?_, fun hdrained => ⟨fun c next' hquote => ?_,
    fun ticks hcomplete => hsale.exists_quote hcomplete hdrained⟩⟩
  · exact hsale.quotedWithin hz h0 hlt.le fun hall => absurd hall hlt.ne
  · exact hsale.quotedWithin hself hsale.received_mem.1 le_rfl fun _ => hnot
  · have hbought : (y.token == pool.bought (pool.selling x.token)) = true :=
      hsale.bought.symm ▸ hself
    obtain ⟨e', hrun, hcost⟩ := Pool.exists_completes_of_inputFor hbought hquote
    exact hcost ▸ (hsale.lt_spent hdrained hrun).2

theorem nestedPool_short : (⟨79704906419853123644591122755, 1000000, 119⟩ : PoolState).Accepted :=
  ⟨by decide, by unfold PoolState.InTick ratioAt; decide, by decide⟩

theorem nestedPool_drained : (⟨79704936542881920863903188246, 0, 120⟩ : PoolState).Accepted :=
  ⟨by decide, by unfold PoolState.InTick ratioAt; decide, by decide⟩

/-- A sale that ends short of the last tick. -/
theorem nestedPool_sale :
    nestedPool.outputFor ⟨nestedPool.token1, .ofInt 7544, by decide⟩ none =
      .ok (⟨nestedPool.token0, .ofInt 7479, by decide⟩,
        nestedPool.withState _ nestedPool_short) :=
  Pool.outputFor_eq_ok_iff.mpr ⟨by decide, by decide,
    ⟨-7479, 7544, ⟨79704906419853123644591122755, 1000000, 119⟩, 24⟩, by decide +kernel, rfl,
    Pool.moveTo_eq_ok_iff.mpr ⟨nestedPool_short, rfl⟩⟩

/-- The purchase of its output crosses the tick. -/
theorem nestedPool_purchase :
    nestedPool.inputFor ⟨nestedPool.token0, .ofInt 7479, by decide⟩ none =
      .ok (⟨nestedPool.token1, .ofInt 7545, by decide⟩,
        nestedPool.withState _ nestedPool_drained) :=
  Pool.inputFor_eq_ok_iff.mpr ⟨by decide, by decide,
    ⟨-7479, 7545, ⟨79704936542881920863903188246, 0, 120⟩, 24⟩, by decide +kernel, by decide, rfl,
    Pool.moveTo_eq_ok_iff.mpr ⟨nestedPool_drained, rfl⟩⟩

/-- Selling 7544 of token 1 receives 7479 of token 0 and is drained; 7478 are to be had for no more
than 7544, and 7479 are not. -/
theorem requote_within_nested :
    ((∃ l : TickList, nestedPool.ticks = l.source) ∨
      ∃ b : TickBitmap, nestedPool.ticks = b.source) ∧
      ∃ x y next, x.quotient = 7544 ∧ 0 ≤ x.quotient ∧
        nestedPool.outputFor x none = .ok (y, next) ∧ y.quotient = 7479 ∧
        (∃ z, z.quotient = 7478 ∧ nestedPool.QuotedWithin z x) ∧
        nestedPool.Drained (.unlimited (nestedPool.selling x.token) x.quotient) ∧
        ∃ c next', nestedPool.inputFor y none = .ok (c, next') ∧ 7544 < c.quotient := by
  have hsource : (∃ l : TickList, nestedPool.ticks = l.source) ∨
      ∃ b : TickBitmap, nestedPool.ticks = b.source := Or.inl ⟨nestedTicks, rfl⟩
  obtain ⟨hless, hwithin, hbeyond⟩ := requote_within hsource (by decide) nestedPool_sale
  have hdrained : nestedPool.Drained (.unlimited (nestedPool.selling nestedPool.token1) 7544) := by
    by_contra hnot
    obtain ⟨c, next', hquote, -, hcost⟩ := hwithin hnot
    cases hquote.symm.trans nestedPool_purchase
    exact absurd hcost (by decide)
  exact ⟨hsource, _, _, _, rfl, by decide, nestedPool_sale, rfl,
    ⟨⟨nestedPool.token0, .ofInt 7478, by decide⟩, rfl,
      hless _ (by decide) (by decide) (by decide)⟩, hdrained, _, _, nestedPool_purchase,
    (hbeyond hdrained).1 _ _ nestedPool_purchase⟩

/-- **Not all that a sale receives is to be had for what is sold**, not even over ticks in strict
order with the liquidity that is theirs: the 7479 received for 7544 cost 7545. -/
theorem exists_requote_beyond :
    ¬ ∀ (pool : Pool) (l : TickList) (x y : Amount) (next : Pool), pool.ticks = l.source →
      (l.ticks.Pairwise fun a b => a.index < b.index) →
      (∀ t ∈ l.ticks, minTick ≤ t.index ∧ t.index ≤ maxTick) →
      (pool.state.liquidity : ℤ) = netAtOrBelow l.ticks pool.state.tick →
      0 ≤ x.quotient → pool.outputFor x none = .ok (y, next) → 0 < y.quotient →
      ∃ c next', pool.inputFor y none = .ok (c, next') ∧ c.quotient ≤ x.quotient := by
  intro h
  obtain ⟨c, next', hquote, hcost⟩ := h nestedPool nestedTicks _ _ _ rfl (by decide) (by decide)
    (by decide) (by decide) nestedPool_sale (by decide)
  cases hquote.symm.trans nestedPool_purchase
  exact absurd hcost (by decide)

end Quotes

end Clamm
