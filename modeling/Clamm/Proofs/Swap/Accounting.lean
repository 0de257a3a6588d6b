import Mathlib
import Clamm.Proofs.Swap.NoProfit
import Clamm.Proofs.Swap.Termination

/-!
# The accounts of a swap

Each advance adds what a step takes in, fee included, to what the trader has paid, and what it gives
to what the trader has received. Three laws of a step add up over a swap of any length (`Booked`):
the fee is part of what is paid and at least its share of it, nothing is received below zero, and
what is received is worth at most what is paid less the fee, at the price the swap started from. The
last one holds since the price only moves away from the start: against the trader.

* `withinSpot_of_covers`: one step against the price of the start.
* `Pool.Reaches.booked`: the accounts of every state that advances lead to.
* `swap_accounts`: what a swap pays, receives and charges.
* `swap_within_spot`: no swap is better than the price it starts from, net of fees.
-/

namespace Clamm

/-- What is received is worth at most what is paid less the fee, at the square-root price `p`. -/
def Direction.WithinSpot (d : Direction) (p fee : ℕ) (paid received : ℤ) : Prop :=
  match d with
  | down => received * 2 ^ 192 * feeUnit ≤ paid * (feeUnit - fee) * p ^ 2
  | up => received * p ^ 2 * feeUnit ≤ paid * (feeUnit - fee) * 2 ^ 192

/-- The accounts of a swap on its way. -/
structure Booked (pool : Pool) (o : Order) (s : Progress) : Prop where
  ahead : o.direction.Leads pool.state.sqrtPrice s.state.sqrtPrice
  received_nonneg : 0 ≤ (o.settle s).received o.direction
  fees_le : (s.fees : ℤ) ≤ (o.settle s).paid o.direction
  fees_ge : pool.fee * (o.settle s).paid o.direction ≤ s.fees * feeUnit
  spot : o.direction.WithinSpot pool.state.sqrtPrice pool.fee ((o.settle s).paid o.direction)
    ((o.settle s).received o.direction)

/-! ## The price of one step -/

section Spot

variable {d : Direction} {p a b L fee i f w : ℕ} {paid received paid' received' : ℤ}

theorem Direction.WithinSpot.add (h : d.WithinSpot p fee paid received)
    (h' : d.WithinSpot p fee paid' received') :
    d.WithinSpot p fee (paid + paid') (received + received') := by
  cases d with
  | down =>
    simp only [Direction.WithinSpot] at *
    linarith
  | up =>
    simp only [Direction.WithinSpot] at *
    linarith

/-- Amounts that cover a move and that it yields trade at the prices between its ends. -/
theorem withinSpot_of_covers (hpa : d.Leads p a) (hab : d.Leads a b) (hcovers : d.Covers a b L i)
    (hyields : d.Yields a b L w) (hnet : i * feeUnit ≤ (i + f) * (feeUnit - fee))
    (hfee : fee ≤ feeUnit) : d.WithinSpot p fee (i + f : ℕ) w := by
  have e : pow2 96 * pow2 96 = 2 ^ 192 := by rw [pow2_eq, ← pow_add]
  cases d with
  | down =>
    have hpa' : a ≤ p := hpa
    have hab' : b ≤ a := hab
    simp only [Direction.Covers, Direction.Yields] at hcovers hyields
    have hprice : w * 2 ^ 192 ≤ i * p ^ 2 := by
      calc w * 2 ^ 192 = w * pow2 96 * pow2 96 := by rw [mul_assoc, e]
        _ ≤ L * (a - b) * pow2 96 := Nat.mul_le_mul_right _ hyields
        _ = L * pow2 96 * (a - b) := mul_right_comm _ _ _
        _ ≤ i * (b * a) := hcovers
        _ ≤ i * p ^ 2 := by
          rw [sq]
          exact Nat.mul_le_mul_left _ (Nat.mul_le_mul (hab'.trans hpa') hpa')
    have hsum : w * 2 ^ 192 * feeUnit ≤ (i + f) * (feeUnit - fee) * p ^ 2 := by
      calc w * 2 ^ 192 * feeUnit ≤ i * p ^ 2 * feeUnit := Nat.mul_le_mul_right _ hprice
        _ = i * feeUnit * p ^ 2 := mul_right_comm _ _ _
        _ ≤ (i + f) * (feeUnit - fee) * p ^ 2 := Nat.mul_le_mul_right _ hnet
    simp only [Direction.WithinSpot]
    zify [hfee] at hsum
    exact hsum
  | up =>
    have hpa' : p ≤ a := hpa
    have hab' : a ≤ b := hab
    simp only [Direction.Covers, Direction.Yields] at hcovers hyields
    have hprice : w * p ^ 2 ≤ i * 2 ^ 192 := by
      calc w * p ^ 2 ≤ w * (a * b) := by
            rw [sq]
            exact Nat.mul_le_mul_left _ (Nat.mul_le_mul hpa' (hpa'.trans hab'))
        _ ≤ L * pow2 96 * (b - a) := hyields
        _ = L * (b - a) * pow2 96 := mul_right_comm _ _ _
        _ ≤ i * pow2 96 * pow2 96 := Nat.mul_le_mul_right _ hcovers
        _ = i * 2 ^ 192 := by rw [mul_assoc, e]
    have hsum : w * p ^ 2 * feeUnit ≤ (i + f) * (feeUnit - fee) * 2 ^ 192 := by
      calc w * p ^ 2 * feeUnit ≤ i * 2 ^ 192 * feeUnit := Nat.mul_le_mul_right _ hprice
        _ = i * feeUnit * 2 ^ 192 := mul_right_comm _ _ _
        _ ≤ (i + f) * (feeUnit - fee) * 2 ^ 192 := Nat.mul_le_mul_right _ hnet
    simp only [Direction.WithinSpot]
    zify [hfee] at hsum
    exact hsum

/-- The fee is at least its share of what is paid. -/
theorem fee_mul_le (hnet : i * feeUnit ≤ (i + f) * (feeUnit - fee)) (hfee : fee ≤ feeUnit) :
    fee * (i + f) ≤ f * feeUnit := by
  zify [hfee] at hnet ⊢
  linarith

end Spot

/-! ## The accounts of a swap on its way -/

section Accounts

variable {pool : Pool} {o : Order} {s s' : Progress} {i w : ℤ} {n : ℕ}

/-- Booking a step adds to what is paid and to what is received. -/
theorem paid_book (h : (s'.remaining, s'.other) = o.book s i w) :
    (o.settle s').paid o.direction = (o.settle s).paid o.direction + i ∧
      (o.settle s').received o.direction = (o.settle s).received o.direction + w := by
  obtain ⟨h0, h1⟩ := settle_book h
  cases hd : o.direction with
  | down =>
    simp only [hd, Direction.signed] at h0 h1
    simp only [SwapOutcome.paid, SwapOutcome.received]
    omega
  | up =>
    simp only [hd, Direction.signed] at h0 h1
    simp only [SwapOutcome.paid, SwapOutcome.received]
    omega

/-- An output order pays what the other side has come to, and receives what it has used. -/
theorem settle_output (hfix : fixesInput o.amount = false) :
    (o.settle s).paid o.direction = s.other ∧
      (o.settle s).received o.direction = s.remaining - o.amount := by
  obtain ⟨d, amount, limit⟩ := o
  unfold Order.settle
  dsimp only at hfix ⊢
  rw [hfix]
  cases d with
  | down => exact ⟨rfl, neg_sub _ _⟩
  | up => exact ⟨rfl, neg_sub _ _⟩

theorem settle_fees (o : Order) (s : Progress) : (o.settle s).fees = s.fees := by
  unfold Order.settle
  dsimp only
  split <;> rfl

/-- The accounts open at zero. -/
theorem settle_start_accounts (pool : Pool) (o : Order) :
    (o.settle (pool.start o)).paid o.direction = 0 ∧
      (o.settle (pool.start o)).received o.direction = 0 := by
  obtain ⟨h0, h1⟩ := settle_start pool o
  cases o.direction with
  | down => exact ⟨h0, neg_eq_zero.mpr h1⟩
  | up => exact ⟨h1, neg_eq_zero.mpr h0⟩

theorem Booked.start (pool : Pool) (o : Order) : Booked pool o (pool.start o) := by
  obtain ⟨hpaid, hreceived⟩ := settle_start_accounts pool o
  refine ⟨Direction.Leads.refl _ _, hreceived.ge, hpaid.ge, ?_, ?_⟩
  · rw [hpaid, mul_zero]
    exact mul_nonneg (Int.natCast_nonneg _) (Int.natCast_nonneg _)
  · rw [hpaid, hreceived]
    cases o.direction <;> simp [Direction.WithinSpot]

/-- **An advance keeps the accounts.** -/
theorem Booked.advance (hadv : pool.ticks.Advances pool.spacing) (ho : o.Inside)
    (ha : IsInt256 o.amount) (ht : Trading o s) (hs : Booked pool o s)
    (h : pool.advance o s = .ok s') : Booked pool o s' := by
  have hlead := (ht.underway.advance hadv ho h).2
  obtain ⟨next, flag, taken, h, -, hfees⟩ := Pool.advance_eq_ok_iff.mp h
  obtain ⟨hsound, -, -⟩ := ht.underway.stride hadv ho h
  have hrem := (natAbs_remaining_le ht.remaining_mem ha).trans_lt
    (show pow2 255 < pow2 256 by decide)
  have hnet := (step_settled hrem h.trade).net
  have hstep := withinSpot_of_covers hs.ahead hsound.leaves hsound.covers hsound.yields hnet
    pool.fee_lt.le
  have hshare := fee_mul_le hnet pool.fee_lt.le
  obtain ⟨hpaid, hreceived⟩ := paid_book h.book
  refine ⟨hs.ahead.trans hlead, ?_, ?_, ?_, ?_⟩
  · have := hs.received_nonneg
    omega
  · have := hs.fees_le
    omega
  · have := hs.fees_ge
    rw [hpaid, hfees]
    zify at hshare
    push_cast
    linarith
  · rw [hpaid, hreceived]
    exact hs.spot.add (by exact_mod_cast hstep)

/-- **Every state that advances lead to has its accounts in order.** -/
theorem Pool.Reaches.booked (hadv : pool.ticks.Advances pool.spacing) (ha : IsInt256 o.amount)
    (hlimit : o.checkLimit pool.state.sqrtPrice = .ok ()) (h : pool.Reaches o n s) :
    Booked pool o s := by
  induction h with
  | start => exact Booked.start pool o
  | advance hreach _ hstep ih =>
    exact ih.advance hadv (Pool.checkLimit_eq_ok pool.accepted hlimit).1 ha
      (hreach.trading hadv hlimit) hstep

end Accounts

/-! ## Swaps -/

section Swaps

variable {pool : Pool} {d : Direction} {amount : ℤ} {limit : Option ℕ} {r : SwapOutcome}

theorem advances_of_list_or_bitmap {spacing : ℤ} {source : TickSource}
    (h : (∃ l : TickList, source = l.source) ∨ ∃ b : TickBitmap, source = b.source) :
    source.Advances spacing := by
  rcases h with ⟨l, rfl⟩ | ⟨b, rfl⟩
  · exact l.advances spacing
  · exact b.advances spacing

/-- **What a swap pays, receives and charges.** Over any list and any table of ticks, a successful
swap receives and pays no less than nothing. An order that fixes the input pays at most that much,
and all of it unless the price met the limit; one that fixes the output receives at most that much,
and all of it unless the price met the limit. The fees are part of what is paid, and at least their
share of it. -/
theorem swap_accounts
    (hsource : (∃ l : TickList, pool.ticks = l.source) ∨ ∃ b : TickBitmap, pool.ticks = b.source)
    (hamount : IsInt256 amount) (h : pool.swap d amount limit = .ok r) :
    (0 ≤ r.paid d ∧ 0 ≤ r.received d) ∧
      (0 ≤ amount → r.paid d ≤ amount ∧
        (r.state.sqrtPrice ≠ limit.getD (Order.defaultLimit d) → r.paid d = amount)) ∧
      (amount < 0 → r.received d ≤ |amount| ∧
        (r.state.sqrtPrice ≠ limit.getD (Order.defaultLimit d) → r.received d = |amount|)) ∧
      (r.fees : ℤ) ≤ r.paid d ∧ pool.fee * r.paid d ≤ r.fees * 10 ^ 6 := by
  have hadv : pool.ticks.Advances pool.spacing := advances_of_list_or_bitmap hsource
  obtain ⟨o, n, e, rfl, hlimit, hreach, hfin, rfl⟩ := Pool.swap_reaches hadv hamount h
  have hbooked := hreach.booked hadv hamount hlimit
  have hrem := Set.mem_uIcc.mp (hreach.trading hadv hlimit).remaining_mem
  have hfilled := Pool.finished_eq_true_iff.mp hfin
  rw [Pool.settle_state, settle_fees]
  refine ⟨⟨(Int.natCast_nonneg _).trans hbooked.fees_le, hbooked.received_nonneg⟩, ?_, ?_,
    hbooked.fees_le, hbooked.fees_ge⟩
  · intro hin
    have hpaid := (settle_input (o := ⟨d, amount, limit.getD (Order.defaultLimit d)⟩) (s := e)
      (fixesInput_eq_true_iff.mpr hin)).1
    dsimp only at hpaid hrem hfilled
    rw [hpaid]
    refine ⟨by omega, fun hshort => ?_⟩
    rw [hfilled.resolve_right hshort, sub_zero]
  · intro hout
    have hreceived := (settle_output (o := ⟨d, amount, limit.getD (Order.defaultLimit d)⟩) (s := e)
      (fixesInput_eq_false_iff.mpr hout)).2
    dsimp only at hreceived hrem hfilled
    rw [hreceived, abs_of_neg hout]
    refine ⟨by omega, fun hshort => ?_⟩
    rw [hfilled.resolve_right hshort, zero_sub]

/-- An output order that meets its limit first: 7417 of 8000 are received, for 7482 with a fee of
23. -/
theorem swap_accounts_nested :
    ((∃ l : TickList, nestedPool.ticks = l.source) ∨
      ∃ b : TickBitmap, nestedPool.ticks = b.source) ∧ IsInt256 (-8000) ∧
      ∃ r, nestedPool.swap .up (-8000) (some 79700000000000000000000000000) = .ok r ∧
        r.paid .up = 7482 ∧ r.received .up = 7417 ∧ r.received .up ≤ |(-8000 : ℤ)| ∧
        (r.fees : ℤ) ≤ r.paid .up ∧ nestedPool.fee * r.paid .up ≤ r.fees * 10 ^ 6 :=
  have hsource : (∃ l : TickList, nestedPool.ticks = l.source) ∨
      ∃ b : TickBitmap, nestedPool.ticks = b.source := Or.inl ⟨nestedTicks, rfl⟩
  have hamount : IsInt256 (-8000) := by decide
  have h : nestedPool.swap .up (-8000) (some 79700000000000000000000000000) =
      .ok ⟨-7417, 7482, ⟨79700000000000000000000000000, 1000000, 118⟩, 23⟩ := by decide +kernel
  have haccounts := swap_accounts hsource hamount h
  ⟨hsource, hamount, _, h, rfl, rfl, (haccounts.2.2.1 (by decide)).1, haccounts.2.2.2⟩

/-- **No swap is better than the price it starts from, net of fees.** Over any list and any table of
ticks, for every order: at the square-root price `P` of the start and a fee of `f` pips, what is
received is at most what is paid less `f` pips of it, converted at `P ^ 2 / 2 ^ 192` of token 1 for
token 0. -/
theorem swap_within_spot
    (hsource : (∃ l : TickList, pool.ticks = l.source) ∨ ∃ b : TickBitmap, pool.ticks = b.source)
    (hamount : IsInt256 amount) (h : pool.swap d amount limit = .ok r) :
    match d with
    | .down => r.received .down * 2 ^ 192 * 10 ^ 6 ≤
        r.paid .down * (10 ^ 6 - pool.fee) * (pool.state.sqrtPrice : ℤ) ^ 2
    | .up => r.received .up * (pool.state.sqrtPrice : ℤ) ^ 2 * 10 ^ 6 ≤
        r.paid .up * (10 ^ 6 - pool.fee) * 2 ^ 192 := by
  have hadv : pool.ticks.Advances pool.spacing := advances_of_list_or_bitmap hsource
  obtain ⟨o, n, e, rfl, hlimit, hreach, -, rfl⟩ := Pool.swap_reaches hadv hamount h
  have hspot := (hreach.booked hadv hamount hlimit).spot
  cases d with
  | down => exact hspot
  | up => exact hspot

/-- 2000 of token 0 at price 1 and a fee of 3000 pips cost more than 2006 of token 1. -/
theorem swap_within_spot_nested :
    ((∃ l : TickList, nestedPool.ticks = l.source) ∨
      ∃ b : TickBitmap, nestedPool.ticks = b.source) ∧ IsInt256 (-2000) ∧
      ∃ r, nestedPool.swap .up (-2000) none = .ok r ∧ r.paid .up = 2010 ∧ r.received .up = 2000 ∧
        r.received .up * (nestedPool.state.sqrtPrice : ℤ) ^ 2 * 10 ^ 6 ≤
          r.paid .up * (10 ^ 6 - nestedPool.fee) * 2 ^ 192 :=
  have hsource : (∃ l : TickList, nestedPool.ticks = l.source) ∨
      ∃ b : TickBitmap, nestedPool.ticks = b.source := Or.inl ⟨nestedTicks, rfl⟩
  have hamount : IsInt256 (-2000) := by decide
  have h : nestedPool.swap .up (-2000) none =
      .ok ⟨-2000, 2010, ⟨79333941102400872089663501672, 1500000, 26⟩, 7⟩ := by decide +kernel
  ⟨hsource, hamount, _, h, rfl, rfl, swap_within_spot hsource hamount h⟩

end Swaps

end Clamm
