import Mathlib
import Clamm.Proofs.Trade.Search
import Clamm.Proofs.Trade.Spot
import Clamm.Trade.Assembly

/-!
# Routes followed forward and backward

A token taken through pools is exchanged by each for the other token of the pool (`Follows`). That is
all there is to a route: the chains of the pools and the ends are right as soon as it arrives, and
both walks that work a route out are this one (`Itinerary.make_eq`).

Taken back from where it arrives, through the pools in reverse, a token meets the same tokens in
reverse, and every hop at the price turned over (`hops?_reverse`). A mid price is a product that is
never reduced, so turning all hops over exchanges its numerator and its denominator.

* `Route.follows_iff`: the walk and the hops of a route.
* `Itinerary.make_eq`: an itinerary is what is known of a route.
* `Route.hops?_reverse`: the hops of the way back.
* `Itinerary.make_follows`: which routes there are, what they visit and cost, and their ways back.
-/

namespace Clamm

variable {pool : Pool} {pools : List Pool} {token next input output : Token} {path : List Token}
  {p q : Price} {hops : List Price} {d : Direction} {i : Itinerary} {r : Route}

theorem Token.beq_comm (a b : Token) : (a == b) = (b == a) := by
  rw [Bool.eq_iff_iff, beq_iff, beq_iff, eq_comm, @eq_comm _ a.address]

theorem Token.beq_rfl (a : Token) : (a == a) = true := beq_iff.mpr ⟨rfl, rfl⟩

/-! ## Following a token -/

/-- A pool takes one of its tokens and gives the other. -/
def Pool.Exchanges (pool : Pool) (a b : Token) : Prop :=
  (a == pool.token0) = true ∧ b = pool.token1 ∨ (a == pool.token1) = true ∧ b = pool.token0

theorem Pool.exchanges_iff :
    pool.Exchanges token next ↔ ∃ d, (token == pool.sold d) = true ∧ next = pool.bought d := by
  constructor
  · rintro (⟨h, rfl⟩ | ⟨h, rfl⟩)
    · exact ⟨.down, h, rfl⟩
    · exact ⟨.up, h, rfl⟩
  · rintro ⟨d, h, rfl⟩
    cases d with
    | down => exact Or.inl ⟨h, rfl⟩
    | up => exact Or.inr ⟨h, rfl⟩

/-- Taken through pools one after another, a token is exchanged for the tokens of the path. -/
inductive Follows : Token → List Pool → List Token → Prop where
  | done (token : Token) : Follows token [] [token]
  | hop {token next : Token} {pool : Pool} {pools : List Pool} {path : List Token}
      (exchanges : pool.Exchanges token next) (rest : Follows next pools path) :
      Follows token (pool :: pools) (token :: path)

/-- No token is both tokens of a pool. -/
theorem Pool.sold_ne (pool : Pool) (h0 : (token == pool.token0) = true)
    (h1 : (token == pool.token1) = true) : False :=
  pool.ordered.address_ne ((Token.beq_iff.mp h0).2.symm.trans (Token.beq_iff.mp h1).2)

theorem Pool.involves_of_sold (h : (token == pool.sold d) = true) : pool.involves token = true := by
  unfold involves
  cases d with
  | down => exact Bool.or_eq_true_iff.mpr (Or.inl h)
  | up => exact Bool.or_eq_true_iff.mpr (Or.inr h)

theorem Pool.priceOf?_of_beq (h : (token == pool.sold d) = true) :
    pool.priceOf? token = some (pool.spot d) := by
  unfold priceOf?
  cases d with
  | down => exact if_pos h
  | up => exact (if_neg fun h' => pool.sold_ne h' h).trans (if_pos h)

theorem Pool.priceOf?_eq_none_iff : pool.priceOf? token = none ↔
    ¬(token == pool.token0) = true ∧ ¬(token == pool.token1) = true := by
  unfold priceOf?
  split_ifs <;> simp [*]

namespace Route

theorem hops?_cons_of_beq (h : (token == pool.sold d) = true) :
    hops? (pool :: pools) token = (hops? pools (pool.bought d)).map (pool.spot d :: ·) := by
  rw [hops?, Pool.priceOf?_of_beq h, ← pool.spot_quote d]

theorem getLast?_path (token : Token) (hops : List Price) :
    (token :: hops.map Price.quote).getLast? = some (arrival token hops) := by
  induction hops generalizing token with
  | nil => rfl
  | cons p hops ih => exact ih p.quote

/-- **The walk of a token is that of its hops.** -/
theorem follows_iff : Follows token pools path ↔
    ∃ hops, hops? pools token = some hops ∧ path = token :: hops.map Price.quote := by
  constructor
  · intro h
    induction h with
    | done token => exact ⟨[], rfl, rfl⟩
    | @hop token next pool pools path hexch _ ih =>
      obtain ⟨d, hsold, rfl⟩ := Pool.exchanges_iff.mp hexch
      obtain ⟨hops, hhops, rfl⟩ := ih
      refine ⟨pool.spot d :: hops, ?_, ?_⟩
      · rw [hops?_cons_of_beq hsold, hhops]
        rfl
      · rw [List.map_cons, pool.spot_quote d]
  · rintro ⟨hops, hhops, rfl⟩
    induction pools generalizing token hops with
    | nil =>
      cases hhops
      exact .done token
    | cons pool pools ih =>
      obtain ⟨d, rest, hsold, hrest, rfl⟩ := hops?_cons hhops
      rw [List.map_cons, pool.spot_quote d]
      exact .hop (Pool.exchanges_iff.mpr ⟨d, hsold, rfl⟩) (ih rest hrest)

/-- There is only one walk. -/
theorem follows_iff_of_hops (h : hops? pools token = some hops) :
    Follows token pools path ↔ path = token :: hops.map Price.quote := by
  rw [follows_iff]
  constructor
  · rintro ⟨hops', h', hpath⟩
    obtain rfl : hops = hops' := Option.some.inj (h.symm.trans h')
    exact hpath
  · intro hpath
    exact ⟨hops, h, hpath⟩

/-- The hops are the prices of the tokens of the path. -/
theorem mapM_priceOf (h : hops? pools token = some hops) :
    (pools.zip (token :: hops.map Price.quote)).mapM (fun hop => hop.1.priceOf hop.2) =
      .ok hops := by
  induction pools generalizing token hops with
  | nil =>
    cases h
    rfl
  | cons pool pools ih =>
    obtain ⟨d, rest, hsold, hrest, rfl⟩ := hops?_cons h
    have hprice : pool.priceOf token = .ok (pool.spot d) := by
      rw [Pool.priceOf, Pool.priceOf?_of_beq hsold]
    rw [List.zip_cons_cons, List.mapM_cons, hprice, ok_bind, List.map_cons, pool.spot_quote d,
      ih hrest]
    rfl

/-! ## Which routes there are -/

/-- All pools that a token is taken through are on its chain. -/
theorem chain_eq_of_hops (h : hops? pools token = some hops) :
    ∀ pool ∈ pools, pool.chain = token.chain := by
  induction pools generalizing token hops with
  | nil => exact fun pool hmem => absurd hmem List.not_mem_nil
  | cons pool pools ih =>
    obtain ⟨d, rest, hsold, hrest, -⟩ := hops?_cons h
    have hsame := (Token.beq_iff.mp hsold).1
    have hpool : pool.chain = token.chain ∧ (pool.bought d).chain = token.chain := by
      cases d with
      | down => exact ⟨hsame.symm, pool.ordered.1.symm.trans hsame.symm⟩
      | up => exact ⟨pool.ordered.1.trans hsame.symm, pool.ordered.1.trans hsame.symm⟩
    refine List.forall_mem_cons.mpr ⟨hpool.1, fun p hmem => ?_⟩
    exact (ih hrest p hmem).trans hpool.2

theorem involves_of_hops (h : hops? pools token = some hops) (hne : pools ≠ []) :
    (pools.head hne).involves token = true := by
  cases pools with
  | nil => exact absurd rfl hne
  | cons pool pools =>
    obtain ⟨d, rest, hsold, -⟩ := hops?_cons h
    exact Pool.involves_of_sold hsold

theorem involves_arrival (h : hops? pools token = some hops) (hne : pools ≠ []) :
    (pools.getLast hne).involves (arrival token hops) = true := by
  induction pools generalizing token hops with
  | nil => exact absurd rfl hne
  | cons pool pools ih =>
    obtain ⟨d, rest, hsold, hrest, rfl⟩ := hops?_cons h
    rw [arrival, pool.spot_quote d]
    by_cases hp : pools = []
    · subst hp
      cases hrest
      exact Pool.involves_of_beq (Token.beq_rfl _)
    · rw [List.getLast_cons hp]
      exact ih hrest hp

/-- **A route is accepted as soon as it arrives.** -/
theorem make_self (r : Route) : make r.pools r.input r.output = .ok r := by
  have hchain := chain_eq_of_hops r.hops_eq
  have hmixed : ¬(r.pools.any fun pool => pool.chain != (r.pools.head r.pools_ne_nil).chain) =
      true := by
    rw [List.any_eq_true]
    rintro ⟨pool, hmem, hne⟩
    rw [hchain pool hmem, hchain _ (List.head_mem _)] at hne
    simp at hne
  have hfirst := involves_of_hops r.hops_eq r.pools_ne_nil
  have hlast := involves_arrival r.hops_eq r.pools_ne_nil
  rw [Pool.involves, Token.beq_congr r.arrives, Token.beq_congr r.arrives] at hlast
  unfold make
  rw [dif_neg r.pools_ne_nil]
  dsimp only
  rw [if_neg hmixed, if_neg (by simp [hfirst]), if_neg (by simp [Pool.involves, hlast])]
  split
  · rename_i hnone
    rw [r.hops_eq] at hnone
    cases hnone
  · rename_i hops hhops
    obtain rfl : r.hops = hops := Option.some.inj (r.hops_eq.symm.trans hhops)
    exact dif_pos r.arrives

/-- There is a route exactly if a token follows its pools. -/
theorem exists_make_iff : (∃ r, make pools input output = .ok r) ↔
    pools ≠ [] ∧ ∃ path, Follows input pools path ∧ path.getLast?.any (· == output) = true := by
  constructor
  · rintro ⟨r, hr⟩
    obtain ⟨rfl, rfl, rfl⟩ := make_eq_ok hr
    refine ⟨r.pools_ne_nil, _, (follows_iff_of_hops r.hops_eq).mpr rfl, ?_⟩
    rw [getLast?_path]
    exact r.arrives
  · rintro ⟨hne, path, hfollows, hlast⟩
    obtain ⟨hops, hhops, rfl⟩ := follows_iff.mp hfollows
    rw [getLast?_path] at hlast
    exact ⟨_, make_self ⟨pools, input, output, hops, hne, hhops, hlast⟩⟩

end Route

/-! ## The way back -/

/-- One price is the other turned over, part by part. -/
def Price.Turned (p q : Price) : Prop :=
  q.ratio.num = p.ratio.den ∧ (q.ratio.den : ℤ) = p.ratio.num

/-- The way back through a pool. -/
theorem Pool.exists_back (pool : Pool) (d : Direction) : ∃ d', pool.sold d' = pool.bought d ∧
    pool.bought d' = pool.sold d ∧ (pool.spot d).Turned (pool.spot d') := by
  cases d with
  | down => exact ⟨.up, rfl, rfl, rfl, rfl⟩
  | up => exact ⟨.down, rfl, rfl, rfl, rfl⟩

theorem Token.beq_list_iff {as bs : List Token} :
    (as == bs) = true ↔ List.Forall₂ (fun a b => (a == b) = true) as bs := by
  induction as generalizing bs with
  | nil => cases bs <;> simp
  | cons a as ih =>
    cases bs with
    | nil => simp
    | cons b bs => rw [List.cons_beq_cons, Bool.and_eq_true, ih, List.forall₂_cons]

namespace Route

theorem hops?_concat (h : hops? pools token = some hops)
    (hsold : (arrival token hops == pool.sold d) = true) :
    hops? (pools ++ [pool]) token = some (hops ++ [pool.spot d]) := by
  induction pools generalizing token hops with
  | nil =>
    cases h
    exact hops?_cons_of_beq hsold
  | cons p pools ih =>
    obtain ⟨d', rest, hp, hrest, rfl⟩ := hops?_cons h
    rw [arrival, p.spot_quote d'] at hsold
    rw [List.cons_append, hops?_cons_of_beq hp, ih hrest hsold]
    rfl

theorem arrival_concat (token : Token) (hops : List Price) (p : Price) :
    arrival token (hops ++ [p]) = p.quote := by
  have h := getLast?_path token (hops ++ [p])
  rw [List.map_append, ← List.cons_append] at h
  exact (Option.some.inj (List.getLast?_concat.symm.trans h)).symm

/-- **The way back**: the pools in reverse take the token of arrival back, through the same tokens
and at prices that are turned over. -/
theorem hops?_reverse (h : hops? pools token = some hops)
    (harrive : (arrival token hops == output) = true) :
    ∃ back, hops? pools.reverse output = some back ∧ List.Forall₂ Price.Turned hops.reverse back ∧
      (arrival output back == token) = true ∧
      List.Forall₂ (fun a b => (a == b) = true) (output :: back.map Price.quote)
        (token :: hops.map Price.quote).reverse := by
  induction pools generalizing token hops with
  | nil =>
    cases h
    rw [Token.beq_comm] at harrive
    exact ⟨[], rfl, .nil, harrive, .cons harrive .nil⟩
  | cons pool pools ih =>
    obtain ⟨d, rest, hsold, hrest, rfl⟩ := hops?_cons h
    rw [arrival, pool.spot_quote d] at harrive
    obtain ⟨back, hback, hturned, hlast, hpath⟩ := ih hrest harrive
    obtain ⟨d', hsold', hbought', hturn⟩ := pool.exists_back d
    rw [← hsold'] at hlast
    have hhome : ((pool.spot d').quote == token) = true := by
      rw [pool.spot_quote d', hbought', Token.beq_comm]
      exact hsold
    refine ⟨back ++ [pool.spot d'], ?_, ?_, ?_, ?_⟩
    · rw [List.reverse_cons]
      exact hops?_concat hback hlast
    · rw [List.reverse_cons]
      exact List.rel_append hturned (.cons hturn .nil)
    · rw [arrival_concat]
      exact hhome
    · rw [List.map_append, List.map_singleton, ← List.cons_append, List.reverse_cons,
        List.map_cons, pool.spot_quote d]
      exact List.rel_append hpath (.cons hhome .nil)

end Route

/-! ## The two walks -/

namespace Itinerary

/-- A pool that holds the token in hand gives its other one. -/
theorem tokensFrom_cons_of_beq (h : (token == pool.sold d) = true) (pools : List Pool) :
    tokensFrom token (pool :: pools) = (tokensFrom (pool.bought d) pools).map (token :: ·) := by
  rw [tokensFrom]
  cases d with
  | down => exact if_pos h
  | up => exact (if_neg fun h' => pool.sold_ne h' h).trans (if_pos h)

/-- The first walk collects the tokens of the hops. -/
theorem tokensFrom_eq (token : Token) (pools : List Pool) :
    tokensFrom token pools = match Route.hops? pools token with
      | some hops => .ok (token :: hops.map Price.quote)
      | none => .error (.route .brokenPath) := by
  induction pools generalizing token with
  | nil => rfl
  | cons pool pools ih =>
    cases hprice : pool.priceOf? token with
    | none =>
      obtain ⟨h0, h1⟩ := Pool.priceOf?_eq_none_iff.mp hprice
      rw [Route.hops?, hprice, tokensFrom, if_neg h0, if_neg h1]
      rfl
    | some price =>
      obtain ⟨d, hsold, -⟩ := Pool.exists_spot hprice
      rw [tokensFrom_cons_of_beq hsold, Route.hops?_cons_of_beq hsold, ih]
      cases hhops : Route.hops? pools (pool.bought d) with
      | none => rfl
      | some hops =>
        rw [← pool.spot_quote d]
        rfl

/-- The second walk takes the same hops, and the currencies of their prices match. -/
theorem compose_cons (h : (token == pool.sold d) = true) (pools : List Pool) :
    compose token none (pool :: pools) = compose (pool.bought d) (some (pool.spot d)) pools ∧
      ((p.quote == token) = true → compose token (some p) (pool :: pools) =
        compose (pool.bought d) (some ⟨p.base, pool.bought d, p.ratio * (pool.spot d).ratio⟩)
          pools) := by
  have hside : (if token == pool.token0 then (pool.price0, pool.token1)
      else (pool.price1, pool.token0)) = (pool.spot d, pool.bought d) := by
    cases d with
    | down => exact if_pos h
    | up => exact if_neg fun h' => pool.sold_ne h' h
  have hbase : (pool.spot d).base = pool.sold d := by cases d <;> rfl
  refine ⟨?_, fun hp => ?_⟩
  · rw [compose, hside]
    rfl
  · rw [compose, hside]
    dsimp only
    rw [Price.chain, hbase, Token.beq_congr hp, if_pos h, ok_bind, pool.spot_quote d]

/-- The second walk multiplies the prices of the hops. -/
theorem compose_eq (hhops : Route.hops? pools token = some hops) (hp : (p.quote == token) = true) :
    ∃ base quote, compose token (some p) pools =
      .ok (some ⟨base, quote, (hops.map Price.ratio).foldl (· * ·) p.ratio⟩) := by
  induction pools generalizing token p hops with
  | nil =>
    cases hhops
    exact ⟨p.base, p.quote, rfl⟩
  | cons pool pools ih =>
    obtain ⟨d, rest, hsold, hrest, rfl⟩ := Route.hops?_cons hhops
    rw [(compose_cons hsold pools).2 hp]
    exact ih hrest (Token.beq_rfl _)

/-- One is nothing to a product, not even to its parts. -/
theorem ofInt_one_mul (a : Fraction) : Fraction.ofInt 1 * a = a := by
  obtain ⟨num, den, hden⟩ := a
  change Fraction.mul _ _ = _
  simp [Fraction.mul, Fraction.ofInt]

/-- The mid price is passed on with its parts exchanged twice. -/
theorem make_ratio (input output : Token) (a : Fraction) :
    Price.make input output a.den a.num = .ok ⟨input, output, a⟩ := by
  have hden : (a.den : ℤ) ≠ 0 := Int.natCast_ne_zero.mpr a.den_pos.ne'
  unfold Price.make Fraction.make
  rw [dif_neg hden]
  rfl

/-- The second walk comes to the mid price of the route. -/
theorem compose_route (r : Route) :
    ∃ p, compose r.input none r.pools = .ok (some p) ∧ p.ratio = r.midPrice.ratio := by
  have hhops := r.hops_eq
  unfold Route.midPrice
  dsimp only
  match hp : r.pools with
  | [] => exact absurd hp r.pools_ne_nil
  | pool :: pools =>
    rw [hp] at hhops
    obtain ⟨d, rest, hsold, hrest, heq⟩ := Route.hops?_cons hhops
    have hquote : ((pool.spot d).quote == pool.bought d) = true := by
      rw [pool.spot_quote d]
      exact Token.beq_rfl _
    obtain ⟨base, quote, hcompose⟩ := compose_eq hrest hquote
    refine ⟨_, (compose_cons (p := pool.spot d) hsold pools).1.trans hcompose, ?_⟩
    rw [heq, List.map_cons, List.foldl_cons, ofInt_one_mul]

/-- **An itinerary is what is known of a route**, and fails as the route does. -/
theorem make_eq (pools : List Pool) (input output : Token) :
    make pools input output = (Route.make pools input output).map ofRoute := by
  unfold make Route.make
  by_cases hp : pools = []
  · subst hp
    rfl
  rw [dif_neg hp, List.head?_eq_some_head hp, List.getLast?_eq_some_getLast hp]
  dsimp only
  have htokens := tokensFrom_eq input pools
  split_ifs
  · rfl
  · rfl
  · rfl
  · split
    · rename_i hhops
      rw [hhops] at htokens
      rw [htokens]
      rfl
    · rename_i hops hhops
      rw [hhops] at htokens
      rw [htokens, ok_bind, Route.getLast?_path, Option.any_some]
      split_ifs with harrive
      · obtain ⟨p, hcompose, hratio⟩ :=
          compose_route ⟨pools, input, output, hops, hp, hhops, harrive⟩
        rw [hcompose, ok_bind]
        dsimp only
        rw [make_ratio, hratio]
        rfl
      · rfl

end Itinerary

/-! ## Mid prices -/

namespace Fraction

theorem num_foldl_mul (factors : List Fraction) (a : Fraction) :
    (factors.foldl (· * ·) a).num = a.num * (factors.map num).prod := by
  induction factors generalizing a with
  | nil => simp
  | cons b factors ih =>
    rw [List.foldl_cons, ih, List.map_cons, List.prod_cons, ← mul_assoc]
    rfl

theorem den_foldl_mul (factors : List Fraction) (a : Fraction) :
    (factors.foldl (· * ·) a).den = a.den * (factors.map den).prod := by
  induction factors generalizing a with
  | nil => simp
  | cons b factors ih =>
    rw [List.foldl_cons, ih, List.map_cons, List.prod_cons, ← mul_assoc]
    rfl

/-- A fraction whose parts are those of another exchanged is its reciprocal. -/
theorem invert_of_exchanged {a b : Fraction} (hnum : b.num = a.den) (hden : (b.den : ℤ) = a.num) :
    a.invert = .ok b := by
  have hpos : 0 < a.num := hden ▸ Int.natCast_pos.mpr b.den_pos
  obtain ⟨num, den, hb⟩ := b
  dsimp only at hnum hden
  unfold invert make
  rw [dif_neg hpos.ne', if_neg hpos.not_gt]
  simp only [Except.ok.injEq, mk.injEq, hnum, true_and]
  omega

end Fraction

/-- Turned over, prices have the product with its parts exchanged. -/
theorem Price.prod_turned {ps qs : List Price} (h : List.Forall₂ Price.Turned ps qs) :
    (qs.map fun q => q.ratio.num).prod = (((ps.map fun p => p.ratio.den).prod : ℕ) : ℤ) ∧
      (((qs.map fun q => q.ratio.den).prod : ℕ) : ℤ) = (ps.map fun p => p.ratio.num).prod := by
  induction h with
  | nil => exact ⟨rfl, rfl⟩
  | cons hturn _ ih =>
    simp only [List.map_cons, List.prod_cons, Nat.cast_mul]
    rw [hturn.1, hturn.2, ih.1, ih.2]
    exact ⟨rfl, rfl⟩

/-- The way back has the mid price with its parts exchanged. -/
theorem Route.midPrice_turned {r back : Route}
    (h : List.Forall₂ Price.Turned r.hops.reverse back.hops) :
    back.midPrice.ratio.num = r.midPrice.ratio.den ∧
      (back.midPrice.ratio.den : ℤ) = r.midPrice.ratio.num := by
  obtain ⟨hnum, hden⟩ := Price.prod_turned h
  rw [List.map_reverse, (List.reverse_perm _).prod_eq] at hnum hden
  unfold midPrice
  dsimp only
  simp only [Fraction.num_foldl_mul, Fraction.den_foldl_mul, List.map_map, Function.comp_def,
    Fraction.ofInt, one_mul]
  exact ⟨hnum, hden⟩

/-! ## Routes -/

/-- **Every route has a way back**, with its path in reverse and its mid price inverted. -/
theorem Route.exists_back (r : Route) : ∃ back, make r.pools.reverse r.output r.input = .ok back ∧
    (back.path == r.path.reverse) = true ∧ r.midPrice.invert = .ok back.midPrice := by
  obtain ⟨hops, hhops, hturned, hhome, hpath⟩ := hops?_reverse r.hops_eq r.arrives
  let back : Route := ⟨r.pools.reverse, r.output, r.input, hops,
    List.reverse_eq_nil_iff.not.mpr r.pools_ne_nil, hhops, hhome⟩
  have hturned : List.Forall₂ Price.Turned r.hops.reverse back.hops := hturned
  obtain ⟨hnum, hden⟩ := midPrice_turned hturned
  refine ⟨back, make_self back, Token.beq_list_iff.mpr hpath, ?_⟩
  unfold Price.invert
  rw [Fraction.invert_of_exchanged hnum hden]
  rfl

/-- A price that is inverted is the reciprocal. -/
theorem Price.ratio_invert {p q : Price} (h : p.invert = .ok q) :
    q.ratio.toRat = p.ratio.toRat⁻¹ := by
  obtain ⟨ratio, hratio, h⟩ := bind_eq_ok_iff.mp h
  cases h
  exact Fraction.toRat_invert hratio

/-- **Routes followed forward and backward.** An itinerary is what is known of a route. There is one
exactly if there are pools and a token taken through them, each giving its other token for the one in
hand, arrives at the output. Its path is the one walk there is, and its mid price the product of the
prices of the tokens of the path in the pools. Then there is one back through the pools in reverse,
with the path in reverse and the reciprocal mid price. -/
theorem Itinerary.make_follows (pools : List Pool) (input output : Token) :
    make pools input output = (Route.make pools input output).map ofRoute ∧
    ((∃ i, make pools input output = .ok i) ↔
      pools ≠ [] ∧ ∃ path, Follows input pools path ∧ path.getLast?.any (· == output) = true) ∧
    ∀ i, make pools input output = .ok i →
      (∀ path, Follows input pools path ↔ path = i.path) ∧
      (∃ hops, (pools.zip i.path).mapM (fun hop => hop.1.priceOf hop.2) = .ok hops ∧
        i.midPrice.ratio.toRat = (hops.map fun p => p.ratio.toRat).prod) ∧
      ∃ back, make pools.reverse output input = .ok back ∧ (back.path == i.path.reverse) = true ∧
        i.midPrice.invert = .ok back.midPrice ∧
        back.midPrice.ratio.toRat = i.midPrice.ratio.toRat⁻¹ := by
  refine ⟨make_eq pools input output, ?_, fun i hi => ?_⟩
  · rw [make_eq, ← Route.exists_make_iff]
    constructor
    · rintro ⟨i, hi⟩
      obtain ⟨r, hr, -⟩ := map_eq_ok_iff.mp hi
      exact ⟨r, hr⟩
    · rintro ⟨r, hr⟩
      exact ⟨ofRoute r, map_eq_ok_iff.mpr ⟨r, hr, rfl⟩⟩
  · rw [make_eq] at hi
    obtain ⟨r, hr, rfl⟩ := map_eq_ok_iff.mp hi
    obtain ⟨rfl, rfl, rfl⟩ := Route.make_eq_ok hr
    obtain ⟨back, hback, hpath, hinvert⟩ := r.exists_back
    refine ⟨fun path => Route.follows_iff_of_hops r.hops_eq,
      ⟨r.hops, Route.mapM_priceOf r.hops_eq, r.midPrice_rate⟩,
      ofRoute back, ?_, hpath, hinvert, Price.ratio_invert hinvert⟩
    rw [make_eq, hback]
    rfl

/-- From token 1 to token 2, back to token 1 where token 1 is worth 4, and on to token 4. -/
def roundPools : List Pool :=
  [nestedPool,
    { nestedPool with
      state := ⟨2 * pow2 96, 1500000, 13863⟩
      tick_mem := by decide
      price_mem := by decide +kernel
      price_pos := by decide },
    { nestedPool with token1 := ⟨1, 4, 18, none, none⟩, ordered := by decide }]

/-- A quarter on the way out, past a token that is met twice, and four on the way back. -/
theorem Itinerary.make_follows_round : ∃ i back,
    make roundPools ⟨1, 1, 18, none, none⟩ ⟨1, 4, 18, none, none⟩ = .ok i ∧
    i.path.map Token.address = [1, 2, 1, 4] ∧ i.midPrice.ratio.toRat = 1 / 4 ∧
    make roundPools.reverse ⟨1, 4, 18, none, none⟩ ⟨1, 1, 18, none, none⟩ = .ok back ∧
    (back.path == i.path.reverse) = true ∧ back.midPrice.ratio.toRat = 4 := by
  have hrun : (make roundPools ⟨1, 1, 18, none, none⟩ ⟨1, 4, 18, none, none⟩).map (fun i =>
      (i.path.map Token.address, i.midPrice.ratio == ⟨1, 4, by decide⟩)) =
        .ok ([1, 2, 1, 4], true) := by decide +kernel
  obtain ⟨i, hi, hrun⟩ := map_eq_ok_iff.mp hrun
  obtain ⟨haddresses, hprice⟩ := Prod.ext_iff.mp hrun
  have hquarter : i.midPrice.ratio.toRat = 1 / 4 := by
    rw [Fraction.beq_iff.mp hprice]
    norm_num [Fraction.toRat]
  obtain ⟨-, -, back, hback, hpath, -, hrate⟩ := (make_follows _ _ _).2.2 i hi
  refine ⟨i, back, hi, haddresses, hquarter, hback, hpath, ?_⟩
  rw [hrate, hquarter]
  norm_num

end Clamm
