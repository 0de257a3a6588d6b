import Mathlib
import Clamm.Proofs.Currency.Fraction
import Clamm.Proofs.Swap.Accounting
import Clamm.Proofs.Swap.Quotes
import Clamm.Trade.Basic

/-!
# Trades against the mid price

What a swap receives is worth at most what it pays, at the price it starts from. The mid price of a
route is the product of such prices, so the bound passes from one pool to the next: forward from an
input, where each pool receives what the one before it gave, and backward from an output, where each
pool is asked for what the next one costs. Whole units are all that is traded; what a fractional
input has beyond them only adds to what the mid price would give.

The totals of a trade are the sums over its legs, and so is the output at the mid prices. Hence the
output falls short of it by a share between nothing and everything.

* `Amount.Within`: one amount against another at a rate, composed by `Amount.Within.trans`.
* `Pool.outputFor_within`, `Pool.inputFor_within`: one hop.
* `Leg.simulate_within`: a leg against the mid price of its route.
* `Trade.priceImpact_le_one`: a trade against the mid prices of its routes.
-/

namespace Clamm

/-! ## Amounts -/

section Amounts

variable {rate rate' : ℚ} {x y z : Amount}

theorem Amount.add_value (h : x.add y = .ok z) : z.value = x.value + y.value := by
  obtain ⟨-, -, h⟩ := bind_eq_ok_iff.mp h
  exact (make_eq_ok h).2

/-- A sum keeps the token, and is the sum of the rationals. -/
theorem Amount.add_eq_ok (h : x.add y = .ok z) :
    z.token = x.token ∧ z.value.toRat = x.value.toRat + y.value.toRat := by
  rw [add_value h, Fraction.toRat_add]
  obtain ⟨-, -, h⟩ := bind_eq_ok_iff.mp h
  exact ⟨(make_eq_ok h).1, rfl⟩

theorem Price.convert_value {p : Price} (h : p.convert x = .ok y) : y.value = p.ratio * x.value := by
  unfold convert at h
  split at h
  · exact (Amount.make_eq_ok h).2
  · cases h

/-- A whole number of units, and not a negative one. -/
def Amount.Whole (x : Amount) : Prop := 0 ≤ x.value.num ∧ (x.value.den : ℤ) ∣ x.value.num

/-- At a rate, `x` is worth at least `y`. Nothing is negative. -/
structure Amount.Within (rate : ℚ) (x y : Amount) : Prop where
  rate_nonneg : 0 ≤ rate
  input_nonneg : 0 ≤ x.value.toRat
  output_nonneg : 0 ≤ y.value.toRat
  output_le : y.value.toRat ≤ rate * x.value.toRat

theorem Amount.Within.refl (h : 0 ≤ x.value.num) : Amount.Within 1 x x :=
  have hx := Fraction.toRat_nonneg_iff.mpr h
  ⟨zero_le_one, hx, hx, (one_mul _).ge⟩

theorem Amount.Within.trans (h : Amount.Within rate x y) (h' : Amount.Within rate' y z) :
    Amount.Within (rate * rate') x z where
  rate_nonneg := mul_nonneg h.rate_nonneg h'.rate_nonneg
  input_nonneg := h.input_nonneg
  output_nonneg := h'.output_nonneg
  output_le := by
    calc z.value.toRat ≤ rate' * y.value.toRat := h'.output_le
      _ ≤ rate' * (rate * x.value.toRat) := mul_le_mul_of_nonneg_left h.output_le h'.rate_nonneg
      _ = rate * rate' * x.value.toRat := by ring

end Amounts

/-! ## One hop -/

namespace Pool

variable {pool next : Pool} {d : Direction} {token : Token} {price : Price} {amount : ℤ}
  {limit : Option ℕ} {r : SwapOutcome} {x y : Amount} {paid received : ℤ}

/-- The price of what is sold in a direction. -/
def spot (pool : Pool) : Direction → Price
  | .down => pool.price0
  | .up => pool.price1

theorem spot_quote (pool : Pool) (d : Direction) : (pool.spot d).quote = pool.bought d := by
  cases d <;> rfl

/-- A pool prices its own tokens, each in the other. -/
theorem exists_spot (h : pool.priceOf? token = some price) :
    ∃ d, (token == pool.sold d) = true ∧ price = pool.spot d := by
  unfold priceOf? at h
  split at h
  · rename_i heq
    exact ⟨.down, heq, (Option.some.inj h).symm⟩
  · split at h
    · rename_i heq
      exact ⟨.up, heq, (Option.some.inj h).symm⟩
    · cases h

theorem ratio_spot_nonneg (pool : Pool) (d : Direction) : 0 ≤ (pool.spot d).ratio.toRat := by
  rw [Fraction.toRat_nonneg_iff]
  cases d <;> exact Int.natCast_nonneg _

/-- Without a fee the price is only better. -/
theorem le_div_mul_of_net {num den unit fee : ℤ} (hden : 0 < den) (hnum : 0 ≤ num)
    (hunit : 0 < unit) (hfee : 0 ≤ fee) (hpaid : 0 ≤ paid)
    (h : received * den * unit ≤ paid * (unit - fee) * num) :
    (received : ℚ) ≤ num / den * paid := by
  have hnet := mul_le_mul_of_nonneg_left (sub_le_self unit hfee) hpaid
  have hle : received * den ≤ num * paid := by
    refine le_of_mul_le_mul_right ?_ hunit
    calc received * den * unit ≤ paid * (unit - fee) * num := h
      _ ≤ paid * unit * num := mul_le_mul_of_nonneg_right hnet hnum
      _ = num * paid * unit := by ring
  rw [div_mul_eq_mul_div, le_div_iff₀ (by exact_mod_cast hden)]
  exact_mod_cast hle

/-- The price of the start is the pool's, and it bounds what is received with and without the fee. -/
theorem le_spot (h : d.WithinSpot pool.state.sqrtPrice pool.fee paid received) (hpaid : 0 ≤ paid) :
    (received : ℚ) ≤ (pool.spot d).ratio.toRat * paid := by
  have hunit : (0 : ℤ) < feeUnit := by decide
  have hfee := Int.natCast_nonneg pool.fee
  have hprice : (0 : ℤ) < pool.state.squaredPrice := by
    exact_mod_cast Nat.mul_pos pool.price_pos pool.price_pos
  have hscale : (0 : ℤ) < (pow2 192 : ℕ) := by exact_mod_cast pow2_pos 192
  have hsquare : (pool.state.sqrtPrice : ℤ) ^ 2 = pool.state.squaredPrice := by
    unfold PoolState.squaredPrice
    push_cast
    exact sq _
  have hpow : (2 : ℤ) ^ 192 = (pow2 192 : ℕ) := by
    rw [pow2_eq]
    push_cast
  cases d with
  | down =>
    simp only [Direction.WithinSpot, hsquare, hpow] at h
    exact le_div_mul_of_net hscale hprice.le hunit hfee hpaid h
  | up =>
    simp only [Direction.WithinSpot, hsquare, hpow] at h
    exact le_div_mul_of_net hprice hscale.le hunit hfee hpaid h

/-- A swap pays and receives at the price it starts from, and pays no more than an input it fixes. -/
theorem swap_spot (hadv : pool.ticks.Advances pool.spacing) (hamount : IsInt256 amount)
    (h : pool.swap d amount limit = .ok r) :
    0 ≤ r.paid d ∧ 0 ≤ r.received d ∧ (0 ≤ amount → r.paid d ≤ amount) ∧
      (r.received d : ℚ) ≤ (pool.spot d).ratio.toRat * r.paid d := by
  obtain ⟨o, n, e, rfl, hlimit, hreach, -, rfl⟩ := swap_reaches hadv hamount h
  have hbooked := hreach.booked hadv hamount hlimit
  have hpaid := (Int.natCast_nonneg _).trans hbooked.fees_le
  refine ⟨hpaid, hbooked.received_nonneg, fun hin => ?_, le_spot hbooked.spot hpaid⟩
  have hrem := Set.mem_uIcc.mp (hreach.trading hadv hlimit).remaining_mem
  have hsettle := (settle_input (o := ⟨d, amount, limit.getD (Order.defaultLimit d)⟩) (s := e)
    (fixesInput_eq_true_iff.mpr hin)).1
  dsimp only at hrem hsettle
  omega

/-- **What a sale receives is worth at most what is sold.** -/
theorem outputFor_within (hadv : pool.ticks.Advances pool.spacing) (hx : 0 ≤ x.value.num)
    (htoken : (x.token == pool.sold d) = true) (h : pool.outputFor x none = .ok (y, next)) :
    y.token = pool.bought d ∧ Amount.Within (pool.spot d).ratio.toRat x y := by
  obtain ⟨-, hint, r, hswap, hy, -⟩ := outputFor_eq_ok_iff.mp h
  rw [selling_of_beq htoken] at hswap hy
  obtain ⟨hytoken, hyvalue⟩ := Amount.make_eq_ok hy
  obtain ⟨-, hreceived, hpaid, hspot⟩ := swap_spot hadv hint hswap
  have hrate := pool.ratio_spot_nonneg d
  have hsold : (r.paid d : ℚ) ≤ x.value.toRat :=
    (by exact_mod_cast hpaid (Fraction.quotient_nonneg hx) : (r.paid d : ℚ) ≤ x.quotient).trans
      (Fraction.quotient_le_toRat hx)
  refine ⟨hytoken, hrate, Fraction.toRat_nonneg_iff.mpr hx, ?_, ?_⟩
  · rw [hyvalue, Fraction.toRat_ofInt]
    exact_mod_cast hreceived
  · rw [hyvalue, Fraction.toRat_ofInt]
    exact hspot.trans (mul_le_mul_of_nonneg_left hsold hrate)

/-- **What is bought is worth at most what it costs.** -/
theorem inputFor_within (hadv : pool.ticks.Advances pool.spacing) (hy : y.Whole)
    (htoken : (y.token == pool.bought d) = true) (h : pool.inputFor y none = .ok (x, next)) :
    x.token = pool.sold d ∧ x.Whole ∧ Amount.Within (pool.spot d).ratio.toRat x y := by
  obtain ⟨-, hint, r, hswap, hfull, hx, -⟩ := inputFor_eq_ok_iff.mp h
  rw [buying_of_beq htoken] at hswap hfull hx
  obtain ⟨hxtoken, hxvalue⟩ := Amount.make_eq_ok hx
  have hquot := Fraction.quotient_nonneg hy.1
  obtain ⟨hpaid, -, -, hspot⟩ := swap_spot hadv (hint.neg hquot) hswap
  have hbought : y.value.toRat = r.received d := by
    rw [← Fraction.quotient_eq_toRat hy.2, hfull]
    rfl
  have hcost : x.value.toRat = r.paid d := by rw [hxvalue, Fraction.toRat_ofInt]
  refine ⟨hxtoken, ?_, pool.ratio_spot_nonneg d, ?_, Fraction.toRat_nonneg_iff.mpr hy.1, ?_⟩
  · unfold Amount.Whole
    rw [hxvalue]
    exact ⟨hpaid, one_dvd _⟩
  · rw [hcost]
    exact_mod_cast hpaid
  · rw [hbought, hcost]
    exact hspot

end Pool

/-! ## Routes -/

/-- A source whose answers are those of a list or of a table. -/
abbrev TickSource.Stored (source : TickSource) : Prop :=
  (∃ l : TickList, source = l.source) ∨ ∃ b : TickBitmap, source = b.source

section Routes

variable {pools : List Pool} {token : Token} {hops : List Price} {x y : Amount} {route : Route}
  {kind : TradeKind} {leg : Leg}

/-- The rate of a chain of hops. -/
def chainRate (hops : List Price) : ℚ := (hops.map fun p => p.ratio.toRat).prod

theorem chainRate_cons (p : Price) (hops : List Price) :
    chainRate (p :: hops) = p.ratio.toRat * chainRate hops := List.prod_cons

/-- The hops of a list of pools are its first pool's price and the hops from what that buys. -/
theorem Route.hops?_cons {pool : Pool} (h : Route.hops? (pool :: pools) token = some hops) :
    ∃ d rest, (token == pool.sold d) = true ∧ hops? pools (pool.bought d) = some rest ∧
      hops = pool.spot d :: rest := by
  rw [hops?] at h
  split at h
  · rename_i price hprice
    obtain ⟨d, htoken, rfl⟩ := Pool.exists_spot hprice
    rw [pool.spot_quote d] at h
    obtain ⟨rest, hrest, rfl⟩ := Option.map_eq_some_iff.mp h
    exact ⟨d, rest, htoken, hrest, rfl⟩
  · cases h

/-- **Selling through a chain of pools**, forward. -/
theorem Route.sale_within (hsource : ∀ pool ∈ pools, pool.ticks.Stored)
    (hhops : Route.hops? pools token = some hops) (htoken : (x.token == token) = true)
    (hx : 0 ≤ x.value.num)
    (h : pools.foldlM (fun a pool => do return (← pool.outputFor a none).1) x = .ok y) :
    Amount.Within (chainRate hops) x y := by
  induction pools generalizing token hops x with
  | nil =>
    cases hhops
    cases h
    exact .refl hx
  | cons pool pools ih =>
    obtain ⟨d, rest, hsold, hrest, rfl⟩ := hops?_cons hhops
    rw [List.foldlM_cons] at h
    obtain ⟨z, hz, h⟩ := bind_eq_ok_iff.mp h
    obtain ⟨⟨z', next⟩, hout, hz⟩ := bind_eq_ok_iff.mp hz
    cases hz
    have hadv : pool.ticks.Advances pool.spacing :=
      advances_of_list_or_bitmap (hsource pool List.mem_cons_self)
    obtain ⟨hztoken, hwithin⟩ :=
      Pool.outputFor_within hadv hx ((Token.beq_congr htoken _).trans hsold) hout
    rw [chainRate_cons]
    exact hwithin.trans (ih (fun p hp => hsource p (List.mem_cons_of_mem _ hp)) hrest
      (Token.beq_iff.mpr (hztoken ▸ ⟨rfl, rfl⟩)) (Fraction.toRat_nonneg_iff.mp hwithin.output_nonneg)
      h)

/-- **Buying through a chain of pools**, backward from what is bought. -/
theorem Route.purchase_within (hsource : ∀ pool ∈ pools, pool.ticks.Stored)
    (hhops : Route.hops? pools token = some hops)
    (htoken : (y.token == Route.arrival token hops) = true) (hy : y.Whole)
    (h : pools.reverse.foldlM (fun a pool => do return (← pool.inputFor a none).1) y = .ok x) :
    (x.token == token) = true ∧ x.Whole ∧ Amount.Within (chainRate hops) x y := by
  rw [List.foldlM_reverse] at h
  induction pools generalizing token hops x with
  | nil =>
    cases hhops
    cases h
    exact ⟨htoken, hy, .refl hy.1⟩
  | cons pool pools ih =>
    obtain ⟨d, rest, hsold, hrest, rfl⟩ := hops?_cons hhops
    rw [List.foldrM_cons] at h
    obtain ⟨z, hz, h⟩ := bind_eq_ok_iff.mp h
    obtain ⟨⟨x', next⟩, hin, hx⟩ := bind_eq_ok_iff.mp h
    cases hx
    rw [arrival, pool.spot_quote d] at htoken
    obtain ⟨hztoken, hzwhole, hafter⟩ :=
      ih (fun p hp => hsource p (List.mem_cons_of_mem _ hp)) hrest htoken hz
    have hadv : pool.ticks.Advances pool.spacing :=
      advances_of_list_or_bitmap (hsource pool List.mem_cons_self)
    obtain ⟨hxtoken, hxwhole, hwithin⟩ := Pool.inputFor_within hadv hzwhole hztoken hin
    rw [chainRate_cons]
    refine ⟨?_, hxwhole, hwithin.trans hafter⟩
    rw [hxtoken, Token.beq_iff]
    exact ⟨(Token.beq_iff.mp hsold).1.symm, (Token.beq_iff.mp hsold).2.symm⟩

theorem Fraction.toRat_foldl_mul (factors : List Fraction) (a : Fraction) :
    (factors.foldl (· * ·) a).toRat = a.toRat * (factors.map toRat).prod := by
  induction factors generalizing a with
  | nil => simp
  | cons b factors ih =>
    rw [List.foldl_cons, ih, toRat_mul, List.map_cons, List.prod_cons, mul_assoc]

/-- The mid price of a route is the rate of its hops. -/
theorem Route.midPrice_rate (route : Route) :
    route.midPrice.ratio.toRat = chainRate route.hops := by
  unfold midPrice chainRate
  dsimp only
  rw [Fraction.toRat_foldl_mul, List.map_map, Fraction.toRat_ofInt, Int.cast_one, one_mul]
  rfl

/-- **A leg comes to at most what the mid price of its route gives.** -/
theorem Leg.simulate_within (hsource : ∀ pool ∈ route.pools, pool.ticks.Stored)
    (hx : 0 ≤ x.value.num) (hwhole : kind = .exactOutput → (x.value.den : ℤ) ∣ x.value.num)
    (h : Leg.simulate route x kind = .ok leg) :
    Amount.Within leg.route.midPrice.ratio.toRat leg.input leg.output := by
  unfold simulate at h
  cases kind with
  | exactInput =>
    obtain ⟨htoken, h⟩ := ite_error_eq_ok_iff.mp h
    obtain ⟨y, hy, h⟩ := bind_eq_ok_iff.mp h
    cases h
    rw [Route.midPrice_rate]
    exact Route.sale_within hsource route.hops_eq htoken hx hy
  | exactOutput =>
    obtain ⟨htoken, h⟩ := ite_error_eq_ok_iff.mp h
    obtain ⟨y, hy, h⟩ := bind_eq_ok_iff.mp h
    cases h
    have harrival : (x.token == Route.arrival route.input route.hops) = true := by
      rw [Token.beq_congr htoken, Token.beq_iff]
      have := Token.beq_iff.mp route.arrives
      exact ⟨this.1.symm, this.2.symm⟩
    rw [Route.midPrice_rate]
    exact (Route.purchase_within hsource route.hops_eq harrival ⟨hx, hwhole rfl⟩ hy).2.2

end Routes

/-! ## Trades -/

section Trades

variable {kind : TradeKind} {routes : List (Route × Amount)} {legs : List Leg} {t : Trade}
  {spot : Amount} {v : Percent} {leg : Leg} {totals totals' : Amount × Amount}

/-- A fold that may fail adds up what its steps add. -/
theorem foldlM_sum {σ α : Type} {step : σ → α → Except Error σ} (total : σ → ℚ) (value : α → ℚ)
    (hstep : ∀ s a s', step s a = .ok s' → total s' = total s + value a) {l : List α} {s s' : σ}
    (h : l.foldlM step s = .ok s') : total s' = total s + (l.map value).sum := by
  induction l generalizing s with
  | nil =>
    cases h
    simp
  | cons a l ih =>
    rw [List.foldlM_cons] at h
    obtain ⟨s₁, hs₁, h⟩ := bind_eq_ok_iff.mp h
    rw [ih h, hstep _ _ _ hs₁, List.map_cons, List.sum_cons, add_assoc]

/-- What holds of every result holds of all that are collected. -/
theorem forall_mem_of_mapM {α β : Type} {f : α → Except Error β} {P : β → Prop} {as : List α}
    {bs : List β} (hf : ∀ a ∈ as, ∀ b, f a = .ok b → P b) (h : as.mapM f = .ok bs) :
    ∀ b ∈ bs, P b := by
  induction as generalizing bs with
  | nil =>
    cases h
    exact fun b hb => absurd hb List.not_mem_nil
  | cons a as ih =>
    rw [List.mapM_cons] at h
    obtain ⟨b, hb, h⟩ := bind_eq_ok_iff.mp h
    obtain ⟨bs, hbs, h⟩ := bind_eq_ok_iff.mp h
    cases h
    exact List.forall_mem_cons.mpr ⟨hf a List.mem_cons_self b hb,
      ih (fun a ha => hf a (List.mem_cons_of_mem _ ha)) hbs⟩

/-- A leg adds its amounts to totals, each of the other's token. -/
theorem Trade.addLeg_eq_ok (h : addLeg totals leg = .ok totals') :
    totals'.1.token = totals.1.token ∧ totals'.2.token = totals.2.token ∧
      totals'.1.value.toRat = totals.1.value.toRat + leg.input.value.toRat ∧
      totals'.2.value.toRat = totals.2.value.toRat + leg.output.value.toRat := by
  obtain ⟨x, hx, h⟩ := bind_eq_ok_iff.mp h
  obtain ⟨y, hy, h⟩ := bind_eq_ok_iff.mp h
  cases h
  obtain ⟨hxtoken, hxvalue⟩ := Amount.add_eq_ok hx
  obtain ⟨hytoken, hyvalue⟩ := Amount.add_eq_ok hy
  exact ⟨hxtoken, hytoken, hxvalue, hyvalue⟩

/-- The output of a trade is the sum over its legs. -/
theorem Trade.make_output (h : Trade.make kind legs = .ok t) :
    t.legs = legs ∧ t.output.value.toRat = (legs.map fun leg => leg.output.value.toRat).sum := by
  unfold make at h
  split at h
  · cases h
  · obtain ⟨-, -, h⟩ := bind_eq_ok_iff.mp h
    obtain ⟨-, h⟩ := ite_error_eq_ok_iff.mp h
    obtain ⟨z, hz, h⟩ := bind_eq_ok_iff.mp h
    obtain ⟨z', hz', h⟩ := bind_eq_ok_iff.mp h
    obtain ⟨totals, htotals, h⟩ := bind_eq_ok_iff.mp h
    cases h
    refine ⟨rfl, ?_⟩
    have hsum := foldlM_sum (fun s : Amount × Amount => s.2.value.toRat)
      (fun leg => leg.output.value.toRat) (fun s leg s' hadd => (addLeg_eq_ok hadd).2.2.2) htotals
    rw [hsum, (Amount.make_eq_ok hz').2, Fraction.toRat_ofInt, Int.cast_zero, zero_add]

/-- The output that the mid prices of the routes give for the inputs. -/
def Trade.midOutput (t : Trade) : ℚ :=
  (t.legs.map fun leg => leg.route.midPrice.ratio.toRat * leg.input.value.toRat).sum

theorem Trade.spotOutput_value (h : t.spotOutput = .ok spot) : spot.value.toRat = t.midOutput := by
  obtain ⟨z, hz, h⟩ := bind_eq_ok_iff.mp h
  have hsum := foldlM_sum (fun s : Amount => s.value.toRat)
    (fun leg : Leg => leg.route.midPrice.ratio.toRat * leg.input.value.toRat)
    (fun s leg s' hadd => ?_) h
  · rw [hsum, (Amount.make_eq_ok hz).2, Fraction.toRat_ofInt, Int.cast_zero, zero_add]
    rfl
  · obtain ⟨x, hx, hadd⟩ := bind_eq_ok_iff.mp hadd
    rw [Amount.add_value hadd, Fraction.toRat_add, Price.convert_value hx, Fraction.toRat_mul]

/-- One route is a list of one. -/
theorem Trade.ofRoute_eq (kind : TradeKind) (route : Route) (amount : Amount) :
    Trade.ofRoute kind route amount = Trade.ofRoutes kind [(route, amount)] := by
  simp [ofRoute, ofRoutes]

/-- **A trade comes to at most what the mid prices of its routes give.** -/
theorem Trade.output_le_midOutput
    (hsource : ∀ r ∈ routes, ∀ pool ∈ r.1.pools, pool.ticks.Stored)
    (hamount : ∀ r ∈ routes, 0 ≤ r.2.value.num ∧
      (kind = .exactOutput → (r.2.value.den : ℤ) ∣ r.2.value.num))
    (h : Trade.ofRoutes kind routes = .ok t) :
    0 ≤ t.output.value.toRat ∧ t.output.value.toRat ≤ t.midOutput := by
  obtain ⟨legs, hlegs, h⟩ := bind_eq_ok_iff.mp h
  obtain ⟨rfl, houtput⟩ := make_output h
  have hwithin : ∀ leg ∈ t.legs,
      Amount.Within leg.route.midPrice.ratio.toRat leg.input leg.output :=
    forall_mem_of_mapM (fun r hr leg hleg =>
      Leg.simulate_within (hsource r hr) (hamount r hr).1 (hamount r hr).2 hleg) hlegs
  rw [houtput]
  refine ⟨List.sum_nonneg fun q hq => ?_,
    List.sum_le_sum fun leg hleg => (hwithin leg hleg).output_le⟩
  obtain ⟨leg, hleg, rfl⟩ := List.mem_map.mp hq
  exact (hwithin leg hleg).output_nonneg

/-- **A simulated trade never beats the mid price.** Whatever is sold or bought over one route or
over several, the output is at most what the mid prices of the routes give for the inputs, and so the
price impact is a share between nothing and everything. The pools answer from any list or any table
of ticks; nothing is negative, and what is bought is whole. -/
theorem Trade.priceImpact_le_one
    (hsource : ∀ r ∈ routes, ∀ pool ∈ r.1.pools,
      (∃ l : TickList, pool.ticks = l.source) ∨ ∃ b : TickBitmap, pool.ticks = b.source)
    (hamount : ∀ r ∈ routes, 0 ≤ r.2.value.num ∧
      (kind = .exactOutput → (r.2.value.den : ℤ) ∣ r.2.value.num))
    (h : Trade.ofRoutes kind routes = .ok t ∨
      ∃ route amount, routes = [(route, amount)] ∧ Trade.ofRoute kind route amount = .ok t) :
    (∀ spot, t.spotOutput = .ok spot → t.output.value.toRat ≤ spot.value.toRat) ∧
      ∀ v, t.priceImpact = .ok v → 0 ≤ v.toRat ∧ v.toRat ≤ 1 := by
  have hmake : Trade.ofRoutes kind routes = .ok t := by
    rcases h with h | ⟨route, amount, rfl, h⟩
    · exact h
    · rwa [ofRoute_eq] at h
  obtain ⟨hnonneg, hle⟩ := output_le_midOutput hsource hamount hmake
  have hspot : ∀ spot, t.spotOutput = .ok spot → t.output.value.toRat ≤ spot.value.toRat :=
    fun spot h => hle.trans (spotOutput_value h).ge
  refine ⟨hspot, fun v hv => ?_⟩
  obtain ⟨spot, hs, hv⟩ := bind_eq_ok_iff.mp hv
  obtain ⟨hne, hv⟩ := Fraction.toRat_divide hv
  have hout := hspot spot hs
  have hpos : 0 < spot.value.toRat := lt_of_le_of_ne (hnonneg.trans hout) hne.symm
  rw [hv, Fraction.toRat_sub]
  exact ⟨div_nonneg (sub_nonneg.mpr hout) hpos.le,
    (div_le_one hpos).mpr (sub_le_self _ hnonneg)⟩

/-- The route through the nested pool, at a mid price of 1. -/
def nestedRoute : Route where
  pools := [nestedPool]
  input := nestedPool.token0
  output := nestedPool.token1
  hops := [nestedPool.price0]
  pools_ne_nil := List.cons_ne_nil _ _
  hops_eq := rfl
  arrives := by decide

/-- 4950 units bought over a tick cost 4983, an impact of 33 in 4983. -/
theorem Trade.priceImpact_le_one_nested :
    (∀ pool ∈ nestedRoute.pools, pool.ticks.Stored) ∧ ∃ amount t v,
      amount.quotient = 4950 ∧ 0 ≤ amount.value.num ∧ (amount.value.den : ℤ) ∣ amount.value.num ∧
      Trade.ofRoute .exactOutput nestedRoute amount = .ok t ∧ t.input.quotient = 4983 ∧
      t.priceImpact = .ok v ∧ (v == ⟨33, 4983, by decide⟩) = true ∧
      0 ≤ v.toRat ∧ v.toRat ≤ 1 := by
  have hsource : ∀ pool ∈ nestedRoute.pools, pool.ticks.Stored :=
    List.forall_mem_singleton.mpr (Or.inl ⟨nestedTicks, rfl⟩)
  have hrun : (do
      let t ← Trade.ofRoute .exactOutput nestedRoute ⟨nestedPool.token1, .ofInt 4950, by decide⟩
      let v ← t.priceImpact
      return (t.input.quotient, v == ⟨33, 4983, by decide⟩) : Except Error (ℤ × Bool)) =
        .ok (4983, true) := by decide +kernel
  obtain ⟨t, ht, hrun⟩ := bind_eq_ok_iff.mp hrun
  obtain ⟨v, hv, hrun⟩ := bind_eq_ok_iff.mp hrun
  obtain ⟨hinput, hshare⟩ := Prod.ext_iff.mp (Except.ok.inj hrun)
  have himpact := (Trade.priceImpact_le_one (List.forall_mem_singleton.mpr hsource)
    (List.forall_mem_singleton.mpr ⟨by decide, fun _ => one_dvd _⟩)
    (Or.inr ⟨_, _, rfl, ht⟩)).2 v hv
  exact ⟨hsource, _, t, v, rfl, by decide, one_dvd _, ht, hinput, hv, hshare, himpact⟩

end Trades

end Clamm
