import Mathlib
import Clamm.Proofs.Step.Compare
import Clamm.Proofs.Swap.Accounting

/-!
# A larger order goes further

Two orders of one direction and limit that stand at the same state search for the same grid point
and trade toward the same target. As long as their steps agree they land alike, so the two swaps go
hand in hand; where the steps part, the smaller order is used up, and whatever the larger one still
does only adds to its accounts.

* `Pool.Completes o s e`: the advances of an order lead from `s` to the finished state `e`.
* `Pool.Completes.grows`: on the way the price leads on, the accounts only grow, and nothing is
  received for nothing.
* `Trading.outdone`: one advance of two orders, the larger of which has more left.
* `swap_monotone`: a swap of more goes at least as far, pays and receives at least as much.
-/

namespace Clamm

/-! ## The advances to the end of a swap -/

/-- What an order has paid so far, fees included. -/
def Order.spent (o : Order) (s : Progress) : ℤ := (o.settle s).paid o.direction

/-- What an order has received so far. -/
def Order.gained (o : Order) (s : Progress) : ℤ := (o.settle s).received o.direction

/-- The advances of an order lead from a state to a finished one. -/
inductive Pool.Completes (pool : Pool) (o : Order) : Progress → Progress → Prop
  | done {s : Progress} (finished : Pool.finished o s = true) : Completes pool o s s
  | advance {s s' e : Progress} (unfinished : Pool.finished o s = false)
      (step : pool.advance o s = .ok s') (rest : Completes pool o s' e) : Completes pool o s e

/-- From `s` to `e` the price leads on, the accounts grow, and nothing is received for nothing. -/
structure Order.Grows (o : Order) (s e : Progress) : Prop where
  leads : o.direction.Leads s.state.sqrtPrice e.state.sqrtPrice
  spent : o.spent s ≤ o.spent e
  gained : o.gained s ≤ o.gained e
  free : o.spent e = o.spent s → o.gained e = o.gained s

/-- Order `o` from `s` to `e` ends no further, pays no more and receives no more than order `o'`
from `t` to `e'`. -/
structure Order.Outdone (o : Order) (s e : Progress) (o' : Order) (t e' : Progress) : Prop where
  leads : o.direction.Leads e.state.sqrtPrice e'.state.sqrtPrice
  spent : o.spent e - o.spent s ≤ o'.spent e' - o'.spent t
  gained : o.gained e - o.gained s ≤ o'.gained e' - o'.gained t

section Runs

variable {pool : Pool} {o o' : Order} {s s' t t' e e' : Progress} {next : ℤ} {flag : Bool}
  {taken taken' : Step} {steps : ℕ} {d : Direction} {amount : ℤ} {limit : Option ℕ}
  {r : SwapOutcome}

theorem Pool.completes_of_run (h : pool.run o steps s = .ok e) : pool.Completes o s e := by
  induction steps generalizing s with
  | zero =>
    unfold run at h
    split at h
    · rename_i hfin
      cases h
      exact .done hfin
    · cases h
  | succ steps ih =>
    unfold run at h
    split at h
    · rename_i hfin
      cases h
      exact .done hfin
    · rename_i hgo
      obtain ⟨s', hstep, h⟩ := bind_eq_ok_iff.mp h
      exact .advance (Bool.eq_false_iff.mpr hgo) hstep (ih h)

/-- The advances of a successful swap, from its start to its outcome. -/
theorem Pool.swap_completes (h : pool.swap d amount limit = .ok r) :
    ∃ o e, o = ⟨d, amount, limit.getD (Order.defaultLimit d)⟩ ∧
      o.checkLimit pool.state.sqrtPrice = .ok () ∧ pool.Completes o (pool.start o) e ∧
      r = o.settle e := by
  obtain ⟨o, e, ho, hlimit, hrun, hr⟩ := swap_eq_ok h
  exact ⟨o, e, ho, hlimit, completes_of_run hrun, hr⟩

/-- A finished state is completed by itself only. -/
theorem Pool.Completes.eq_of_finished (h : pool.Completes o s e)
    (hfin : Pool.finished o s = true) : e = s := by
  cases h with
  | done => rfl
  | advance hgo =>
    rw [hfin] at hgo
    cases hgo

/-- Advances that lead to the end of a swap lead there only. -/
theorem Pool.Completes.unique (h : pool.Completes o s e) (h' : pool.Completes o s e') : e' = e := by
  induction h with
  | done hfin => exact h'.eq_of_finished hfin
  | advance hgo hstep _ ih =>
    cases h' with
    | done hfin =>
      rw [hgo] at hfin
      cases hfin
    | advance _ hstep' rest =>
      obtain rfl := Except.ok.inj (hstep.symm.trans hstep')
      exact ih rest

/-- The advances of an order depend on the ticks and the fee of a pool only. -/
theorem Pool.Completes.transfer {pool' : Pool} (h : pool'.Completes o s e)
    (hticks : pool'.ticks = pool.ticks) (hspacing : pool'.spacing = pool.spacing)
    (hfee : pool'.fee = pool.fee) : pool.Completes o s e := by
  have hsame : ∀ s, pool'.advance o s = pool.advance o s := fun s => by
    unfold Pool.advance Pool.land
    rw [hticks, hspacing, hfee]
  induction h with
  | done hfin => exact .done hfin
  | advance hgo hstep _ ih => exact .advance hgo ((hsame _).symm.trans hstep) ih

/-! ## Accounts that grow -/

theorem Order.accounts_start (pool : Pool) (o : Order) :
    o.spent (pool.start o) = 0 ∧ o.gained (pool.start o) = 0 :=
  settle_start_accounts pool o

theorem Pool.Advanced.spent_eq (h : pool.Advanced o s s' next flag taken) :
    o.spent s' = o.spent s + (taken.amountIn + taken.fee) :=
  (paid_book h.book).1

theorem Pool.Advanced.gained_eq (h : pool.Advanced o s s' next flag taken) :
    o.gained s' = o.gained s + taken.amountOut :=
  (paid_book h.book).2

theorem Order.Grows.refl (o : Order) (s : Progress) : o.Grows s s :=
  ⟨Direction.Leads.refl _ _, le_rfl, le_rfl, fun _ => rfl⟩

theorem Order.Grows.trans (h : o.Grows s s') (h' : o.Grows s' e) : o.Grows s e := by
  refine ⟨h.leads.trans h'.leads, h.spent.trans h'.spent, h.gained.trans h'.gained, fun heq => ?_⟩
  have hspent := h.spent
  have hspent' := h'.spent
  rw [h'.free (by omega), h.free (by omega)]

/-- **An advance grows the accounts.** -/
theorem Trading.grows (hadv : pool.ticks.Advances pool.spacing) (ho : o.Inside) (hs : Trading o s)
    (h : pool.advance o s = .ok s') : o.Grows s s' := by
  obtain ⟨hunderway, hleads⟩ := hs.underway.advance hadv ho h
  obtain ⟨next, flag, taken, h⟩ := Pool.advance_eq_ok h
  obtain ⟨hsound, hprice, -⟩ := hs.underway.stride hadv ho h
  have hspent := h.spent_eq
  have hgained := h.gained_eq
  refine ⟨hleads, by omega, by omega, fun heq => ?_⟩
  have hin : taken.amountIn = 0 := by omega
  have hout : taken.amountOut = 0 :=
    Direction.eq_zero_of_yields hs.underway.accepted.pos (hprice ▸ hunderway.accepted.pos)
      (hin ▸ hsound.covers) hsound.yields
  omega

/-- **A swap on its way only grows its accounts.** -/
theorem Pool.Completes.grows (hadv : pool.ticks.Advances pool.spacing) (ho : o.Inside)
    (hs : Trading o s) (h : pool.Completes o s e) : o.Grows s e := by
  induction h with
  | done => exact .refl o _
  | advance hgo hstep _ ih =>
    exact (hs.grows hadv ho hstep).trans (ih (hs.advance hadv ho hgo hstep))

theorem Order.Outdone.trans (h : o.Outdone s s' o' t t') (h' : o.Outdone s' e o' t' e') :
    o.Outdone s e o' t e' := by
  obtain ⟨-, hspent, hgained⟩ := h
  obtain ⟨hleads, hspent', hgained'⟩ := h'
  exact ⟨hleads, by omega, by omega⟩

/-- What outdoes an order still does when it grows. -/
theorem Order.Outdone.grow (h : o.Outdone s e o' t t') (hd : o'.direction = o.direction)
    (hgrows : o'.Grows t' e') : o.Outdone s e o' t e' := by
  obtain ⟨hleads, hspent, hgained⟩ := h
  obtain ⟨hleads', hspent', hgained', -⟩ := hgrows
  exact ⟨hleads.trans (hd ▸ hleads'), by omega, by omega⟩

/-- What an input order has left after an advance. -/
theorem Trading.remaining_input (hs : Trading o s) (hpos : 0 ≤ s.remaining)
    (hgo : Pool.finished o s = false) (h : pool.Advanced o s s' next flag taken) :
    s'.remaining = s.remaining - (taken.amountIn + taken.fee) := by
  rcases book_cases hs.remaining_mem (Pool.finished_eq_false_iff.mp hgo).1 h.book with
    ⟨-, hrem, -⟩ | ⟨hneg, -⟩
  · exact hrem
  · rw [fixesInput_eq_true_iff.mpr hpos] at hneg
    cases hneg

/-! ## Two orders at one state -/

/-- A step within the smaller of two orders leaves it the smaller one. -/
theorem remaining_mem_of_books {i w : ℕ} (hs : s.remaining ∈ Set.uIcc 0 o.amount)
    (ht : t.remaining ∈ Set.uIcc 0 o'.amount) (hle : s.remaining ∈ Set.uIcc 0 t.remaining)
    (hrem : s.remaining ≠ 0) (hrem' : t.remaining ≠ 0)
    (hin : fixesInput s.remaining = true → i ≤ s.remaining.natAbs)
    (hout : fixesInput s.remaining = false → w ≤ s.remaining.natAbs)
    (hbook : (s'.remaining, s'.other) = o.book s i w)
    (hbook' : (t'.remaining, t'.other) = o'.book t i w) :
    s'.remaining ∈ Set.uIcc 0 t'.remaining := by
  have hfix := fixesInput_remaining hle hrem
  rw [Set.mem_uIcc] at hle ⊢
  rcases book_cases hs hrem hbook with ⟨hkind, hs', -⟩ | ⟨hkind, hs', -⟩
  · have := hin hkind
    have := fixesInput_eq_true_iff.mp hkind
    rcases book_cases ht hrem' hbook' with ⟨-, ht', -⟩ | ⟨hkind', -, -⟩
    · omega
    · rw [← hfix, hkind] at hkind'
      cases hkind'
  · have := hout hkind
    have := fixesInput_eq_false_iff.mp hkind
    rcases book_cases ht hrem' hbook' with ⟨hkind', -, -⟩ | ⟨-, ht', -⟩
    · rw [← hfix, hkind] at hkind'
      cases hkind'
    · omega

/-- Advances of one direction from one state search for the same grid point. -/
theorem Pool.Advanced.search_eq {next' : ℤ} {flag' : Bool}
    (h : pool.Advanced o s s' next flag taken) (h' : pool.Advanced o' t t' next' flag' taken')
    (hd : o'.direction = o.direction) (hstate : s.state = t.state) :
    next' = next ∧ flag' = flag := by
  have hsearch := h'.search
  rw [← hstate, hd, h.search] at hsearch
  cases hsearch
  exact ⟨rfl, rfl⟩

/-- They land alike if their steps go equally far. -/
theorem Pool.Advanced.state_eq (h : pool.Advanced o s s' next flag taken)
    (h' : pool.Advanced o' t t' next flag taken') (hd : o'.direction = o.direction)
    (hstate : s.state = t.state) (hnext : taken'.next = taken.next) : s'.state = t'.state := by
  have hland := h'.land
  rw [← hstate, hd, hnext, h.land] at hland
  exact Except.ok.inj hland

end Runs

section Orders

variable {pool : Pool} {d : Direction} {a b : ℤ} {limit : ℕ} {s s' t t' e e' : Progress}

/-- The steps of two orders from one state: the same search, and steps toward the same target. -/
theorem Pool.exists_steps (hstate : s.state = t.state)
    (h : pool.advance ⟨d, a, limit⟩ s = .ok s') (h' : pool.advance ⟨d, b, limit⟩ t = .ok t') :
    ∃ next flag taken taken', pool.Advanced ⟨d, a, limit⟩ s s' next flag taken ∧
      pool.Advanced ⟨d, b, limit⟩ t t' next flag taken' := by
  obtain ⟨next, flag, taken, h⟩ := advance_eq_ok h
  obtain ⟨next', flag', taken', h'⟩ := advance_eq_ok h'
  obtain ⟨rfl, rfl⟩ := h.search_eq h' rfl hstate
  exact ⟨_, _, taken, taken', h, h'⟩

/-- An order that is not finished leaves a larger one at the same state unfinished. -/
theorem Pool.finished_eq_false_of_le (hstate : s.state = t.state)
    (hle : s.remaining ∈ Set.uIcc 0 t.remaining)
    (hgo : Pool.finished ⟨d, a, limit⟩ s = false) : Pool.finished ⟨d, b, limit⟩ t = false := by
  obtain ⟨hrem, hprice⟩ := finished_eq_false_iff.mp hgo
  refine finished_eq_false_iff.mpr ⟨fun h0 => hrem ?_, hstate ▸ hprice⟩
  simpa [h0] using hle

/-- Two orders on their way that stand at one state, where the second one has come from the
start. -/
structure Pool.Together (pool : Pool) (o o' : Order) (s t : Progress) : Prop where
  first : Trading o s
  second : Trading o' t
  state : s.state = t.state
  reached : ∃ n, pool.Reaches o' n t
  ahead : o'.direction.Leads pool.state.sqrtPrice t.state.sqrtPrice

theorem Pool.Together.start {o o' : Order} (h : o.checkLimit pool.state.sqrtPrice = .ok ())
    (h' : o'.checkLimit pool.state.sqrtPrice = .ok ()) :
    pool.Together o o' (pool.start o) (pool.start o') :=
  ⟨.start h, .start h', rfl, ⟨0, .start⟩, Direction.Leads.refl _ _⟩

/-- Advances that land alike leave two orders together. -/
theorem Pool.Together.advance {o o' : Order} (hadv : pool.ticks.Advances pool.spacing)
    (ho : o.Inside) (ho' : o'.Inside) (h : pool.Together o o' s t)
    (hgo : Pool.finished o s = false) (hgo' : Pool.finished o' t = false)
    (hstep : pool.advance o s = .ok s') (hstep' : pool.advance o' t = .ok t')
    (hstate : s'.state = t'.state) : pool.Together o o' s' t' := by
  obtain ⟨n, hreach⟩ := h.reached
  exact ⟨h.first.advance hadv ho hgo hstep, h.second.advance hadv ho' hgo' hstep', hstate,
    ⟨n + 1, hreach.advance hgo' hstep'⟩,
    h.ahead.trans (h.second.underway.advance hadv ho' hstep').2⟩

/-- A denominator that fits at the price of the start fits on the way. -/
theorem Pool.Together.fits {o o' : Order} {x x' : ℕ} (h : pool.Together o o' s t)
    (hfits : ∀ n t, pool.Reaches o' n t →
      o'.direction.Fits pool.state.sqrtPrice t.state.liquidity x)
    (hle : x' ≤ x) : o'.direction.Fits t.state.sqrtPrice t.state.liquidity x' := by
  obtain ⟨n, hreach⟩ := h.reached
  exact (hfits n t hreach).anti h.ahead hle

/-- **An advance of an order is outdone by that of an order with more left**, which it goes along
with unless it is used up. -/
theorem Trading.outdone (hadv : pool.ticks.Advances pool.spacing)
    (ho : Order.Inside ⟨d, a, limit⟩) (hb : IsInt256 b) (hs : Trading ⟨d, a, limit⟩ s)
    (ht : Trading ⟨d, b, limit⟩ t) (hstate : s.state = t.state)
    (hle : s.remaining ∈ Set.uIcc 0 t.remaining)
    (hgo : Pool.finished ⟨d, a, limit⟩ s = false)
    (h : pool.advance ⟨d, a, limit⟩ s = .ok s') (h' : pool.advance ⟨d, b, limit⟩ t = .ok t') :
    Order.Outdone ⟨d, a, limit⟩ s s' ⟨d, b, limit⟩ t t' ∧
      (Pool.finished ⟨d, a, limit⟩ s' = true ∨
        s'.state = t'.state ∧ s'.remaining ∈ Set.uIcc 0 t'.remaining) := by
  have hs' := hs.advance hadv ho hgo h
  have hrem := (Pool.finished_eq_false_iff.mp hgo).1
  have hrem' := (Pool.finished_eq_false_iff.mp
    (Pool.finished_eq_false_of_le (b := b) hstate hle hgo)).1
  obtain ⟨next, flag, taken, taken', h, h'⟩ := Pool.exists_steps hstate h h'
  obtain ⟨hsound, hprice, -⟩ := hs.underway.stride hadv ho h
  have hlead := hsound.leaves.trans hsound.stops
  have hbound := (natAbs_remaining_le ht.remaining_mem hb).trans_lt
    (show pow2 255 < pow2 256 by decide)
  have htrade := h'.trade
  rw [← hstate] at htrade
  have hfix := fixesInput_remaining hle hrem
  have hnatAbs : s.remaining.natAbs ≤ t.remaining.natAbs := by
    rw [Set.mem_uIcc] at hle
    omega
  have hspent := h.spent_eq
  have hspent' := h'.spent_eq
  have hgained := h.gained_eq
  have hgained' := h'.gained_eq
  rcases step_outdone hlead pool.fee_lt hbound hfix hnatAbs h.trade htrade with
    rfl | ⟨hfills, hout⟩
  · have hlands := h.state_eq h' rfl hstate rfl
    refine ⟨⟨hlands ▸ Direction.Leads.refl _ _, by omega, by omega⟩, Or.inr ⟨hlands, ?_⟩⟩
    exact remaining_mem_of_books hs.remaining_mem ht.remaining_mem hle hrem hrem' hsound.input_le
      hsound.output_le (by exact_mod_cast h.book) (by exact_mod_cast h'.book)
  · have hzero : s'.remaining = 0 :=
      remaining_eq_zero_of_book hs.remaining_mem hrem hfills.paid hfills.received
        (by exact_mod_cast h.book)
    have ho' : Order.Inside ⟨d, b, limit⟩ := ho
    obtain ⟨-, hprice', -⟩ := ht.underway.stride hadv ho' h'
    have hpaid := hout.paid
    have hreceived := hout.received
    refine ⟨⟨?_, by omega, by omega⟩, Or.inl (Pool.finished_eq_true_iff.mpr (Or.inl hzero))⟩
    rw [hprice, hprice']
    exact hout.next

/-- **A swap on its way is outdone by one at the same state with more left.** -/
theorem Pool.Completes.outdone (hadv : pool.ticks.Advances pool.spacing)
    (ho : Order.Inside ⟨d, a, limit⟩) (hb : IsInt256 b)
    (h : pool.Completes ⟨d, a, limit⟩ s e) (hs : Trading ⟨d, a, limit⟩ s)
    (h' : pool.Completes ⟨d, b, limit⟩ t e') (ht : Trading ⟨d, b, limit⟩ t)
    (hstate : s.state = t.state) (hle : s.remaining ∈ Set.uIcc 0 t.remaining) :
    Order.Outdone ⟨d, a, limit⟩ s e ⟨d, b, limit⟩ t e' := by
  have ho' : Order.Inside ⟨d, b, limit⟩ := ho
  induction h generalizing t with
  | done =>
    have hgrows := h'.grows hadv ho' ht
    refine ⟨hstate ▸ hgrows.leads, ?_, ?_⟩
    · rw [sub_self, sub_nonneg]
      exact hgrows.spent
    · rw [sub_self, sub_nonneg]
      exact hgrows.gained
  | @advance s s' e hgo hstep rest ih =>
    have hgo' := Pool.finished_eq_false_of_le (b := b) hstate hle hgo
    cases h' with
    | done hfin =>
      rw [hgo'] at hfin
      cases hfin
    | @advance _ t' _ _ hstep' rest' =>
      have hs' := hs.advance hadv ho hgo hstep
      have ht' := ht.advance hadv ho' hgo' hstep'
      obtain ⟨hout, hfin | ⟨hstate', hle'⟩⟩ := hs.outdone hadv ho hb ht hstate hle hgo hstep hstep'
      · rw [rest.eq_of_finished hfin]
        exact hout.grow rfl (rest'.grows hadv ho' ht')
      · exact hout.trans (ih hs' rest' ht' hstate' hle')

end Orders

/-! ## Swaps -/

section Swaps

variable {pool : Pool} {d : Direction} {a b : ℤ} {limit : Option ℕ} {r r' : SwapOutcome}

/-- **A swap of more goes further.** Over any list and any table of ticks, for two orders of one
direction, limit and kind: the swap of the larger amount ends at a price at least as far, pays at
least as much, fees included, and receives at least as much. -/
theorem swap_monotone
    (hsource : (∃ l : TickList, pool.ticks = l.source) ∨ ∃ b : TickBitmap, pool.ticks = b.source)
    (hb : IsInt256 b) (hkind : 0 ≤ a ↔ 0 ≤ b) (hle : |a| ≤ |b|)
    (h : pool.swap d a limit = .ok r) (h' : pool.swap d b limit = .ok r') :
    d.Leads r.state.sqrtPrice r'.state.sqrtPrice ∧ r.paid d ≤ r'.paid d ∧
      r.received d ≤ r'.received d := by
  have hadv : pool.ticks.Advances pool.spacing := advances_of_list_or_bitmap hsource
  obtain ⟨_, e, rfl, hlimit, hrun, rfl⟩ := Pool.swap_completes h
  obtain ⟨_, e', rfl, hlimit', hrun', rfl⟩ := Pool.swap_completes h'
  have hmem : a ∈ Set.uIcc 0 b := by
    rw [Int.abs_eq_natAbs, Int.abs_eq_natAbs] at hle
    rw [Set.mem_uIcc]
    omega
  obtain ⟨hleads, hspent, hgained⟩ := hrun.outdone hadv
    (Pool.checkLimit_eq_ok pool.accepted hlimit).1 hb (.start hlimit) hrun' (.start hlimit') rfl
    hmem
  simp only [(Order.accounts_start pool _).1, (Order.accounts_start pool _).2, sub_zero]
    at hspent hgained
  rw [Pool.settle_state, Pool.settle_state]
  exact ⟨hleads, hspent, hgained⟩

/-- Selling 5000 goes through the end of the inner position, selling 2000 stays within it. -/
theorem swap_monotone_nested :
    ((∃ l : TickList, nestedPool.ticks = l.source) ∨
      ∃ b : TickBitmap, nestedPool.ticks = b.source) ∧ IsInt256 5000 ∧ |(2000 : ℤ)| ≤ |5000| ∧
      ∃ r r', nestedPool.swap .down 2000 none = .ok r ∧ nestedPool.swap .down 5000 none = .ok r' ∧
        r.received .down = 1991 ∧ r'.received .down = 4966 ∧
        r'.state.sqrtPrice ≤ r.state.sqrtPrice ∧ r.paid .down ≤ r'.paid .down ∧
        r.received .down ≤ r'.received .down :=
  have hsource : (∃ l : TickList, nestedPool.ticks = l.source) ∨
      ∃ b : TickBitmap, nestedPool.ticks = b.source := Or.inl ⟨nestedTicks, rfl⟩
  have hb : IsInt256 5000 := by decide
  have hle : |(2000 : ℤ)| ≤ |5000| := by decide
  have h : nestedPool.swap .down 2000 none =
      .ok ⟨2000, -1991, ⟨79122981697261444713038750824, 1500000, -27⟩, 6⟩ := by decide +kernel
  have h' : nestedPool.swap .down 5000 none =
      .ok ⟨5000, -4966, ⟨78953298129055874447463142322, 1000000, -70⟩, 16⟩ := by decide +kernel
  ⟨hsource, hb, hle, _, _, h, h', rfl, rfl, swap_monotone hsource hb (by decide) hle h h'⟩

end Swaps

end Clamm
