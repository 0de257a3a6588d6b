import Mathlib
import Clamm.Proofs.Currency.Fraction
import Clamm.Proofs.Swap.Session
import Clamm.Proofs.Trade.Ranking
import Clamm.Proofs.Trade.Walks

/-!
# The search ranks all trades

The search visits the pools as `walks` does, quotes each walk once and simulates it once more as a
trade, which carries the same amounts (`carries_of_tradeOver`). It stops short of `walks` only at a
path over all pools, which no walk continues. So the trades over all walks go into the ranked list
one by one, depth first (`Follows.explore`), and the list is the front of their stable sort.

* `Trade.rankAs`: the order of trades, a lexicographic one for each side that is fixed.
* `BestTrades.Carries`: the trade over the pools of a walk.
* `BestTrades.Follows`: what holds of a path that the search has followed.
* `BestTrades.search_ranks_all`: the search returns the best of all candidates.
-/

namespace Clamm

/-! ## The order of trades -/

instance : Std.TransOrd Fraction where
  eq_swap := Std.OrientedOrd.eq_swap (α := ℤ)
  isLE_trans {x y z} hxy hyz := by
    rw [Fraction.isLE_compare_iff] at hxy hyz ⊢
    have hpos : (0 : ℤ) < y.den := by exact_mod_cast y.den_pos
    refine le_of_mul_le_mul_right ?_ hpos
    calc x.num * z.den * y.den = x.num * y.den * z.den := by ring
      _ ≤ y.num * x.den * z.den := Int.mul_le_mul_of_nonneg_right hxy (Int.natCast_nonneg _)
      _ = y.num * z.den * x.den := by ring
      _ ≤ z.num * y.den * x.den := Int.mul_le_mul_of_nonneg_right hyz (Int.natCast_nonneg _)
      _ = z.num * x.den * y.den := by ring

/-- The order of trades on which a given side is fixed. -/
def Trade.rankAs : TradeKind → Trade → Trade → Ordering
  | .exactInput =>
    compareLex (compareLex (fun s t => compare t.output.value s.output.value)
      (compareOn Trade.pathLength)) (compareOn fun t => t.input.value)
  | .exactOutput =>
    compareLex (compareLex (compareOn fun t => t.input.value) (compareOn Trade.pathLength))
      fun s t => compare t.output.value s.output.value

theorem Trade.rank_eq (s t : Trade) : Trade.rank s t = Trade.rankAs s.kind s t := by
  unfold rank rankAs
  cases s.kind <;> rfl

instance : Std.TransCmp fun s t : Trade => compare t.output.value s.output.value :=
  inferInstanceAs (Std.TransCmp fun s t : Trade => compareOn (fun t : Trade => t.output.value) t s)

instance (kind : TradeKind) : Std.TransCmp (Trade.rankAs kind) := by
  cases kind <;> exact inferInstanceAs (Std.TransCmp (compareLex _ _))

/-! ## Trades of one leg -/

section Single

variable {pools : List Pool} {input output : Token} {r : Route} {kind : TradeKind} {leg : Leg}
  {t : Trade} {x y z : Amount}

theorem Route.make_eq_ok (h : Route.make pools input output = .ok r) :
    r.pools = pools ∧ r.input = input ∧ r.output = output := by
  unfold make at h
  dsimp only at h
  split_ifs at h
  split at h
  · cases h
  · split_ifs at h
    cases h
    exact ⟨rfl, rfl, rfl⟩

theorem Fraction.ofInt_zero_add (v : Fraction) : Fraction.ofInt 0 + v = v := by
  change Fraction.add _ _ = v
  obtain ⟨num, den, hden⟩ := v
  simp only [Fraction.add, Fraction.ofInt]
  split_ifs with h
  · simp [h]
  · simp

/-- A total that starts at zero is the amount added, as it is kept. -/
theorem Amount.add_of_zero (hz : Amount.ofInt x.token 0 = .ok z) (h : z.add x = .ok y) : y = x := by
  unfold ofInt make at hz
  split at hz
  · cases hz
    obtain ⟨-, -, h⟩ := bind_eq_ok_iff.mp h
    unfold make at h
    split at h
    · cases h
      simp only [Fraction.ofInt_zero_add]
    · cases h
  · cases hz

/-- A trade of one leg has the leg's amounts. -/
theorem Trade.make_single (h : Trade.make kind [leg] = .ok t) :
    t = ⟨kind, [leg], leg.input, leg.output⟩ := by
  unfold make at h
  dsimp only at h
  obtain ⟨-, -, h⟩ := bind_eq_ok_iff.mp h
  split_ifs at h
  obtain ⟨z, hz, h⟩ := bind_eq_ok_iff.mp h
  obtain ⟨z', hz', h⟩ := bind_eq_ok_iff.mp h
  obtain ⟨totals, htotals, h⟩ := bind_eq_ok_iff.mp h
  cases h
  rw [List.foldlM_cons] at htotals
  obtain ⟨_, hadd, hend⟩ := bind_eq_ok_iff.mp htotals
  cases hend
  obtain ⟨x, hx, hadd⟩ := bind_eq_ok_iff.mp hadd
  obtain ⟨y, hy, hadd⟩ := bind_eq_ok_iff.mp hadd
  cases hadd
  rw [Amount.add_of_zero hz hx, Amount.add_of_zero hz' hy]

end Single

namespace BestTrades

variable {q : BestTrades} {hop : Hop} {path : List Hop} {hops : ℕ} {a b c : Amount}
  {ixs : List ℕ} {ss ss' : List (List ℕ)} {t : Trade} {best best' best'' : List Trade}

/-! ## The trade over a walk -/

/-- The pools at given indices. -/
def poolsAt (q : BestTrades) (ixs : List ℕ) : List Pool := ixs.filterMap (q.pools[·]?)

/-- The trade takes the fixed amount over the pools at given indices, and its other amount is what
their walk comes to. -/
def Carries (q : BestTrades) (ixs : List ℕ) (t : Trade) : Prop :=
  ∃ c route, q.Walk q.fixed ixs c ∧
    match q.kind with
    | .exactInput =>
      route.pools = q.poolsAt ixs ∧ route.input = q.fixed.token ∧ route.output = q.target ∧
        t = ⟨.exactInput, [⟨route, q.fixed, c⟩], q.fixed, c⟩
    | .exactOutput =>
      route.pools = (q.poolsAt ixs).reverse ∧ route.input = q.target ∧
        route.output = q.fixed.token ∧ t = ⟨.exactOutput, [⟨route, c, q.fixed⟩], c, q.fixed⟩

/-- What is met in the order of the search, in the order of a route. -/
def orient {α : Type} (q : BestTrades) (xs : List α) : List α :=
  match q.kind with
  | .exactInput => xs
  | .exactOutput => xs.reverse

theorem extend_orient : q.extend (q.orient path) hop = q.orient (path ++ [hop]) := by
  unfold extend orient
  cases q.kind <;> simp

theorem orient_map : (q.orient path).map Prod.fst = q.orient (path.map Prod.fst) := by
  unfold orient
  cases q.kind <;> simp

theorem length_orient : (q.orient path).length = path.length := by
  unfold orient
  cases q.kind <;> simp

theorem usable_orient {token : Token} : usable (q.orient path) token = usable path token := by
  funext hop
  unfold usable orient
  cases q.kind <;> simp

theorem poolsAt_indices (h : ∀ hop ∈ path, q.pools[hop.2]? = some hop.1) :
    q.poolsAt (indices path) = path.map Prod.fst := by
  rw [poolsAt, indices, List.filterMap_map, ← List.filterMap_eq_map]
  exact List.filterMap_congr h

/-- The quotes of a walk, one pool after another. -/
theorem Walk.foldlM_quote (h : q.Walk a ixs c) :
    (q.poolsAt ixs).foldlM (fun a pool => q.quote pool a) a = .ok c := by
  induction h with
  | arrive hpool hquote _ => simp [poolsAt, hpool, hquote]
  | onward hpool hquote _ _ ih =>
    rw [poolsAt, List.filterMap_cons_some hpool, List.foldlM_cons, hquote]
    exact ih

/-- **A trade over a walk carries its quotes.** -/
theorem carries_of_tradeOver (hwalk : q.Walk q.fixed ixs c)
    (hpath : path.map Prod.fst = q.orient (q.poolsAt ixs)) (h : q.tradeOver path = .ok t) :
    q.Carries ixs t := by
  have hquotes := hwalk.foldlM_quote
  unfold quote at hquotes
  unfold tradeOver at h
  unfold orient at hpath
  unfold Carries
  cases hkind : q.kind with
  | exactInput =>
    simp only [hkind] at h hquotes hpath ⊢
    obtain ⟨route, hroute, h⟩ := bind_eq_ok_iff.mp h
    obtain ⟨leg, hleg, h⟩ := bind_eq_ok_iff.mp h
    obtain ⟨hpools, hin, hout⟩ := Route.make_eq_ok hroute
    rw [hpath] at hpools
    unfold Leg.simulate at hleg
    rw [hpools, hquotes, ite_error_eq_ok_iff] at hleg
    cases hleg.2
    exact ⟨c, route, hwalk, hpools, hin, hout, Trade.make_single h⟩
  | exactOutput =>
    simp only [hkind] at h hquotes hpath ⊢
    obtain ⟨route, hroute, h⟩ := bind_eq_ok_iff.mp h
    obtain ⟨leg, hleg, h⟩ := bind_eq_ok_iff.mp h
    obtain ⟨hpools, hin, hout⟩ := Route.make_eq_ok hroute
    rw [hpath] at hpools
    unfold Leg.simulate at hleg
    rw [hpools, List.reverse_reverse, hquotes, ite_error_eq_ok_iff] at hleg
    cases hleg.2
    exact ⟨c, route, hwalk, hpools, hin, hout, Trade.make_single h⟩

theorem Carries.kind_eq (h : q.Carries ixs t) : t.kind = q.kind := by
  obtain ⟨c, route, -, h⟩ := h
  cases hkind : q.kind with
  | exactInput =>
    rw [hkind] at h
    rw [h.2.2.2]
  | exactOutput =>
    rw [hkind] at h
    rw [h.2.2.2]

theorem kind_of_mem {trades : List Trade} (h : List.Forall₂ q.Carries ss trades) :
    ∀ t ∈ trades, t.kind = q.kind := by
  induction h with
  | nil => exact fun _ h => absurd h List.not_mem_nil
  | cons hcarry _ ih => exact List.forall_mem_cons.mpr ⟨hcarry.kind_eq, ih⟩

/-! ## The search -/

/-- Puts a trade into the ranked list. -/
def keep (q : BestTrades) (best : List Trade) (t : Trade) : Except Error (List Trade) := do
  return (← Ranking.insert Trade.rank q.capacity best t).1

/-- The trades over the continuations `ss` of a path over `ixs` go into the ranked list one by
one. -/
def Keeps (q : BestTrades) (ixs : List ℕ) (ss : List (List ℕ)) (best best' : List Trade) : Prop :=
  ∃ trades, List.Forall₂ (fun s t => q.Carries (ixs ++ s) t) ss trades ∧
    trades.foldlM q.keep best = .ok best'

theorem Keeps.nil : q.Keeps ixs [] best best := ⟨[], .nil, rfl⟩

theorem Keeps.append (h : q.Keeps ixs ss best best') (h' : q.Keeps ixs ss' best' best'') :
    q.Keeps ixs (ss ++ ss') best best'' := by
  obtain ⟨trades, hcarry, hkeep⟩ := h
  obtain ⟨trades', hcarry', hkeep'⟩ := h'
  refine ⟨trades ++ trades', List.rel_append hcarry hcarry', ?_⟩
  rw [List.foldlM_append, hkeep]
  exact hkeep'

/-- The continuations that start with one pool continue the path extended by it. -/
theorem Keeps.cons (h : q.Keeps (indices (path ++ [hop])) ss best best') :
    q.Keeps (indices path) (ss.map (hop.2 :: ·)) best best' := by
  obtain ⟨trades, hcarry, hkeep⟩ := h
  refine ⟨trades, List.forall₂_map_left_iff.mpr (hcarry.imp fun s t hst => ?_), hkeep⟩
  simpa using hst

/-- The path is one that the search follows, `a` being quoted at its open end. -/
structure Follows (q : BestTrades) (path : List Hop) (a : Amount) : Prop where
  nodup : (indices path).Nodup
  getElem? : ∀ hop ∈ path, q.pools[hop.2]? = some hop.1
  walk : ∀ s c, q.Walk a s c → q.Walk q.fixed (indices path ++ s) c

theorem Follows.start : q.Follows [] q.fixed :=
  ⟨List.nodup_nil, fun _ h => absurd h List.not_mem_nil, fun _ _ h => h⟩

theorem Follows.lt (h : q.Follows path a) : ∀ i ∈ indices path, i < q.pools.length := by
  intro i hi
  obtain ⟨hop, hmem, rfl⟩ := List.mem_map.mp hi
  exact (List.getElem?_eq_some_iff.mp (h.getElem? hop hmem)).1

theorem Follows.getElem?_concat (h : q.Follows path a) (hpool : q.pools[hop.2]? = some hop.1) :
    ∀ used ∈ path ++ [hop], q.pools[used.2]? = some used.1 := by
  intro used hused
  rcases List.mem_append.mp hused with hused | hused
  · exact h.getElem? used hused
  · rwa [List.mem_singleton.mp hused]

/-- The search goes on from a quote that is not in the target token. -/
theorem Follows.concat (h : q.Follows path a) (hpool : q.pools[hop.2]? = some hop.1)
    (hunused : hop.2 ∉ indices path) (hquote : q.quote hop.1 a = .ok b)
    (htarget : (b.token == q.target) = false) : q.Follows (path ++ [hop]) b where
  nodup := by
    rw [indices, List.map_append]
    exact h.nodup.append (List.nodup_singleton _) (by simpa using hunused)
  getElem? := h.getElem?_concat hpool
  walk s c hwalk := by
    have := h.walk (hop.2 :: s) c (.onward hpool hquote htarget hwalk)
    simpa using this

/-- One turn of the loop over the pools. -/
def visit (q : BestTrades) (rest : List Hop → Amount → List Trade → Except Error (List Trade))
    (path : List Hop) (a : Amount) (best : List Trade) (hop : Hop) : Except Error (List Trade) :=
  match q.quote hop.1 a with
  | .error e => if skips e then .ok best else .error e
  | .ok b => do
    let path := q.extend path hop
    if b.token == q.target then
      return (← Ranking.insert Trade.rank q.capacity best (← q.tradeOver path)).1
    else if path.length < q.pools.length then rest path b best
    else return best

theorem explore_succ (path : List Hop) : q.explore (hops + 1) path a best =
    (q.pools.zipIdx.filter (usable path a.token)).foldlM (q.visit (q.explore hops) path a) best :=
  rfl

/-- **One turn keeps the trades over the walks through its pool.** -/
theorem Follows.visit (h : q.Follows path a) (hpool : q.pools[hop.2]? = some hop.1)
    (hunused : hop.2 ∉ indices path)
    (hrest : ∀ b best best', q.Follows (path ++ [hop]) b →
      q.explore hops (q.orient (path ++ [hop])) b best = .ok best' →
        q.Keeps (indices (path ++ [hop])) (q.walks hops (path ++ [hop]) b) best best')
    (hvisit : q.visit (q.explore hops) (q.orient path) a best hop = .ok best') :
    q.Keeps (indices path) (q.branch (q.walks hops) path a hop) best best' := by
  unfold BestTrades.visit at hvisit
  unfold branch
  cases hquote : q.quote hop.1 a with
  | error e =>
    rw [hquote] at hvisit
    obtain ⟨-, hvisit⟩ := ite_error_eq_ok_iff.mp hvisit
    cases hvisit
    exact .nil
  | ok b =>
    rw [hquote] at hvisit
    dsimp only at hvisit ⊢
    rw [extend_orient] at hvisit
    cases htarget : b.token == q.target with
    | true =>
      rw [htarget, if_pos rfl] at hvisit
      obtain ⟨t, htrade, hinsert⟩ := bind_eq_ok_iff.mp hvisit
      have hwalk := h.walk [hop.2] b (.arrive hpool hquote htarget)
      have hpath : (q.orient (path ++ [hop])).map Prod.fst =
          q.orient (q.poolsAt (indices path ++ [hop.2])) := by
        rw [orient_map, ← poolsAt_indices (h.getElem?_concat hpool)]
        simp
      refine ⟨[t], .cons (carries_of_tradeOver hwalk hpath htrade) .nil, ?_⟩
      rw [List.foldlM_cons, keep, hinsert]
      rfl
    | false =>
      have hnext := h.concat hpool hunused hquote htarget
      rw [htarget, if_neg Bool.false_ne_true] at hvisit
      rw [if_neg Bool.false_ne_true]
      split at hvisit
      · exact (hrest b best best' hnext hvisit).cons
      · rename_i hfull
        cases hvisit
        rw [length_orient] at hfull
        rw [walks_eq_nil hnext.nodup hnext.lt (not_lt.mp hfull)]
        exact .nil

/-- **The search keeps the trades over all walks**, depth first. -/
theorem Follows.explore (h : q.Follows path a)
    (hexplore : q.explore hops (q.orient path) a best = .ok best') :
    q.Keeps (indices path) (q.walks hops path a) best best' := by
  induction hops generalizing path a best best' with
  | zero =>
    cases hexplore
    exact .nil
  | succ hops ih =>
    rw [explore_succ, usable_orient] at hexplore
    rw [walks]
    -- the pools still to be visited
    have hpools : ∀ hop ∈ q.pools.zipIdx.filter (usable path a.token),
        q.pools[hop.2]? = some hop.1 ∧ hop.2 ∉ indices path := fun hop hmem =>
      ⟨List.mem_zipIdx_iff_getElem?.mp (List.mem_filter.mp hmem).1,
        (usable_iff.mp (List.mem_filter.mp hmem).2).1⟩
    generalize q.pools.zipIdx.filter (usable path a.token) = todo at hexplore hpools
    induction todo generalizing best with
    | nil =>
      cases hexplore
      exact .nil
    | cons hop todo ihTodo =>
      rw [List.foldlM_cons] at hexplore
      obtain ⟨next, hvisit, hexplore⟩ := bind_eq_ok_iff.mp hexplore
      obtain ⟨hpool, hunused⟩ := hpools hop List.mem_cons_self
      rw [List.flatMap_cons]
      refine (h.visit hpool hunused (fun b best best' hfollows => ih hfollows) hvisit).append ?_
      exact ihTodo hexplore fun hop hmem => hpools hop (List.mem_cons_of_mem _ hmem)

/-- A way to trade the fixed amount over at most `maxHops` pools: no pool is used twice, every quote
succeeds, and the target token is first met at the end. -/
def Candidate (q : BestTrades) (maxHops : ℕ) (ixs : List ℕ) : Prop :=
  1 ≤ ixs.length ∧ ixs.length ≤ maxHops ∧ ixs.Nodup ∧ ∃ c, q.Walk q.fixed ixs c

/-- **The search ranks all trades.** Take the trades over all candidates, in the order of the
candidates' indices, each with the quotes of its walk. What the search returns is the front of their
stable sort, cut off at the capacity. -/
theorem search_ranks_all {maxHops : ℕ} (h : q.search maxHops = .ok best) :
    ∃ walks trades, walks.Pairwise (· < ·) ∧ (∀ ixs, ixs ∈ walks ↔ q.Candidate maxHops ixs) ∧
      List.Forall₂ q.Carries walks trades ∧
      best = (trades.mergeSort fun s t => (Trade.rank s t).isLE).take q.capacity := by
  unfold search at h
  split_ifs at h
  have hstart : q.orient ([] : List Hop) = [] := by
    unfold orient
    cases q.kind <;> rfl
  rw [← hstart] at h
  obtain ⟨trades, hcarry, hkeep⟩ := Follows.start.explore h
  have hrank : ∀ s ∈ trades, ∀ t ∈ trades, Trade.rank s t = Trade.rankAs q.kind s t :=
    fun s hs t _ => by rw [Trade.rank_eq, kind_of_mem hcarry s hs]
  have hempty : (Ranking.ranked (Trade.rankAs q.kind) []).take q.capacity = [] := by
    simp [Ranking.ranked]
  have hbest := Ranking.foldlM_insert_ranked hrank (hempty.symm ▸ hkeep)
  refine ⟨q.walks maxHops [] q.fixed, trades, walks_sorted, fun ixs => ?_, hcarry, ?_⟩
  · rw [mem_walks (Follows.start (q := q)).nodup]
    constructor
    · rintro ⟨hlen, hnodup, c, hwalk⟩
      exact ⟨List.length_pos_iff.mpr hwalk.ne_nil, hlen, hnodup, c, hwalk⟩
    · rintro ⟨-, hlen, hnodup, c, hwalk⟩
      exact ⟨hlen, hnodup, c, hwalk⟩
  · rw [hbest, List.nil_append, ← Ranking.ranked_congr hrank, Ranking.ranked]

/-- Sells 1000 of token 0 for token 1 over two pools that differ in the fee, the dear one first, and
one that leads nowhere. -/
def twoFees : BestTrades where
  kind := .exactInput
  pools := [nestedPool,
    { nestedPool with token1 := ⟨1, 3, 18, none, none⟩, ordered := by decide },
    { nestedPool with fee := 500, fee_lt := by decide }]
  fixed := ⟨nestedPool.token0, .ofInt 1000, by decide⟩
  target := nestedPool.token1
  capacity := 3

/-- The cheap pool comes first, although it is found last. -/
theorem search_ranks_all_two_fees : ∃ best, twoFees.search 2 = .ok best ∧
    best.map (fun t => (t.input.quotient, t.output.quotient)) = [(1000, 998), (1000, 996)] ∧
      ∃ walks trades, walks.Pairwise (· < ·) ∧ (∀ ixs, ixs ∈ walks ↔ twoFees.Candidate 2 ixs) ∧
        List.Forall₂ twoFees.Carries walks trades ∧
        best = (trades.mergeSort fun s t => (Trade.rank s t).isLE).take 3 := by
  have hamounts : (twoFees.search 2).map
      (List.map fun t => (t.input.quotient, t.output.quotient)) =
        .ok [(1000, 998), (1000, 996)] := by decide +kernel
  cases h : twoFees.search 2 with
  | error e =>
    rw [h] at hamounts
    cases hamounts
  | ok best =>
    rw [h] at hamounts
    exact ⟨best, rfl, Except.ok.inj hamounts, search_ranks_all h⟩

end BestTrades

end Clamm
