import Mathlib
import Clamm.Proofs.Swap.Quotes
import Clamm.Trade.Search

/-!
# The walks of a search

A walk quotes one pool after another and ends at the first quote in the target token. `walks` lists
those that continue a path, with nothing pruned: it goes through the pools as the search does, and
knows neither ranks nor capacity. A walk that has the smaller index where two part comes first, so
the list is in lexicographic order.

* `BestTrades.Walk`: the walk over given pools, and what it comes to.
* `BestTrades.mem_walks`: `walks` lists the walks that fit the hops and repeat no pool.
* `BestTrades.walks_sorted`: depth first is lexicographic.
* `BestTrades.walks_eq_nil`: a path over all pools has no continuation.
-/

namespace Clamm.BestTrades

variable {q : BestTrades} {pool : Pool} {hop : Hop} {path : List Hop} {a b c : Amount} {i : ℕ}
  {s ixs : List ℕ} {hops : ℕ}

/-- Quoted one after another from `a`, the pools at the indices come to `c`. The last quote, and no
other, is in the target token. A pool quotes only amounts of its own tokens (`involves_of_quote`), so
the pools chain the token of `a` to the target. -/
inductive Walk (q : BestTrades) : Amount → List ℕ → Amount → Prop where
  | arrive {pool : Pool} {a b : Amount} {i : ℕ} (hpool : q.pools[i]? = some pool)
      (hquote : q.quote pool a = .ok b) (htarget : (b.token == q.target) = true) :
      Walk q a [i] b
  | onward {pool : Pool} {a b c : Amount} {i : ℕ} {ixs : List ℕ}
      (hpool : q.pools[i]? = some pool) (hquote : q.quote pool a = .ok b)
      (htarget : (b.token == q.target) = false) (rest : Walk q b ixs c) :
      Walk q a (i :: ixs) c

/-- The indices at which a path stands. -/
abbrev indices (path : List Hop) : List ℕ := path.map Prod.snd

/-- A pool quotes an amount only if it holds the amount's token. -/
theorem involves_of_quote (h : q.quote pool a = .ok b) : pool.involves a.token = true := by
  unfold quote at h
  cases hkind : q.kind with
  | exactInput =>
    rw [hkind] at h
    obtain ⟨r, hr, -⟩ := bind_eq_ok_iff.mp h
    exact (Pool.outputFor_eq_ok_iff.mp hr).1
  | exactOutput =>
    rw [hkind] at h
    obtain ⟨r, hr, -⟩ := bind_eq_ok_iff.mp h
    exact (Pool.inputFor_eq_ok_iff.mp hr).1

theorem usable_iff : usable path a.token hop = true ↔
    hop.2 ∉ indices path ∧ hop.1.involves a.token = true := by
  rw [usable, Bool.and_eq_true, Bool.not_eq_true', List.any_eq_false]
  simp only [indices, List.mem_map, not_exists, not_and, beq_iff_eq]

theorem Walk.ne_nil (h : q.Walk a ixs c) : ixs ≠ [] := by
  cases h <;> exact List.cons_ne_nil _ _

theorem Walk.lt (h : q.Walk a ixs c) : ∀ i ∈ ixs, i < q.pools.length := by
  induction h with
  | arrive hpool =>
    intro i hi
    rw [List.mem_singleton.mp hi]
    exact (List.getElem?_eq_some_iff.mp hpool).1
  | onward hpool _ _ _ ih =>
    intro i hi
    rcases List.mem_cons.mp hi with rfl | hi
    · exact (List.getElem?_eq_some_iff.mp hpool).1
    · exact ih i hi

/-! ## All walks, depth first -/

/-- The walks that continue a path with a given pool. -/
def branch (q : BestTrades) (rest : List Hop → Amount → List (List ℕ)) (path : List Hop)
    (a : Amount) (hop : Hop) : List (List ℕ) :=
  match q.quote hop.1 a with
  | .error _ => []
  | .ok b =>
    if b.token == q.target then [[hop.2]] else (rest (path ++ [hop]) b).map (hop.2 :: ·)

/-- The walks that continue a path by at most `hops` pools. -/
def walks (q : BestTrades) : (hops : ℕ) → List Hop → Amount → List (List ℕ)
  | 0, _, _ => []
  | hops + 1, path, a =>
    (q.pools.zipIdx.filter (usable path a.token)).flatMap (q.branch (walks q hops) path a)

/-- A continuation with a pool starts at it, and either ends there or goes on from its quote. -/
theorem mem_branch {rest : List Hop → Amount → List (List ℕ)} : s ∈ q.branch rest path a hop ↔
    ∃ b, q.quote hop.1 a = .ok b ∧
      (((b.token == q.target) = true ∧ s = [hop.2]) ∨
        ((b.token == q.target) = false ∧ ∃ r ∈ rest (path ++ [hop]) b, hop.2 :: r = s)) := by
  unfold branch
  cases hquote : q.quote hop.1 a with
  | error e => simp
  | ok b =>
    by_cases htarget : b.token == q.target
    · simp [htarget]
    · simp [htarget]

theorem exists_cons_of_mem_branch {rest : List Hop → Amount → List (List ℕ)}
    (h : s ∈ q.branch rest path a hop) : ∃ r, s = hop.2 :: r := by
  obtain ⟨b, -, ⟨-, rfl⟩ | ⟨-, r, -, rfl⟩⟩ := mem_branch.mp h
  · exact ⟨[], rfl⟩
  · exact ⟨r, rfl⟩

/-- **The list of walks is sound and complete.** -/
theorem mem_walks (hpath : (indices path).Nodup) : s ∈ q.walks hops path a ↔
    s.length ≤ hops ∧ (indices path ++ s).Nodup ∧ ∃ c, q.Walk a s c := by
  induction hops generalizing path a s with
  | zero =>
    refine ⟨fun h => absurd h List.not_mem_nil, ?_⟩
    rintro ⟨hlen, -, c, hwalk⟩
    exact absurd (List.length_eq_zero_iff.mp (Nat.le_zero.mp hlen)) hwalk.ne_nil
  | succ hops ih =>
    have hextend : ∀ hop : Hop, hop.2 ∉ indices path → (indices (path ++ [hop])).Nodup :=
      fun hop hunused => by
        rw [indices, List.map_append]
        exact hpath.append (List.nodup_singleton _) (by simpa using hunused)
    have hshift : ∀ (hop : Hop) (r : List ℕ),
        indices (path ++ [hop]) ++ r = indices path ++ hop.2 :: r := fun hop r => by simp
    rw [walks, List.mem_flatMap]
    constructor
    · rintro ⟨hop, hmem, hs⟩
      obtain ⟨hpool, huse⟩ := List.mem_filter.mp hmem
      rw [List.mem_zipIdx_iff_getElem?] at hpool
      have hnodup := hextend hop (usable_iff.mp huse).1
      obtain ⟨b, hquote, ⟨htarget, rfl⟩ | ⟨htarget, r, hr, rfl⟩⟩ := mem_branch.mp hs
      · refine ⟨Nat.succ_le_succ (Nat.zero_le hops), ?_, b, .arrive hpool hquote htarget⟩
        rw [← hshift, List.append_nil]
        exact hnodup
      · obtain ⟨hlen, hr, c, hwalk⟩ := (ih hnodup).mp hr
        exact ⟨Nat.succ_le_succ hlen, hshift hop r ▸ hr, c, .onward hpool hquote htarget hwalk⟩
    · rintro ⟨hlen, hnodup, c, hwalk⟩
      cases hwalk with
      | @arrive pool _ _ i hpool hquote htarget =>
        have hunused : i ∉ indices path := fun hi =>
          (List.nodup_append'.mp hnodup).2.2 hi (List.mem_singleton_self i)
        refine ⟨(pool, i), List.mem_filter.mpr ⟨List.mem_zipIdx_iff_getElem?.mpr hpool,
          usable_iff.mpr ⟨hunused, involves_of_quote hquote⟩⟩, ?_⟩
        exact mem_branch.mpr ⟨c, hquote, Or.inl ⟨htarget, rfl⟩⟩
      | @onward pool _ b _ i r hpool hquote htarget hrest =>
        have hunused : i ∉ indices path := fun hi =>
          (List.nodup_append'.mp hnodup).2.2 hi List.mem_cons_self
        refine ⟨(pool, i), List.mem_filter.mpr ⟨List.mem_zipIdx_iff_getElem?.mpr hpool,
          usable_iff.mpr ⟨hunused, involves_of_quote hquote⟩⟩, ?_⟩
        have hr : r ∈ q.walks hops (path ++ [(pool, i)]) b :=
          (ih (hextend (pool, i) hunused)).mpr
            ⟨Nat.le_of_succ_le_succ hlen, (hshift (pool, i) r).symm ▸ hnodup, c, hrest⟩
        exact mem_branch.mpr ⟨b, hquote, Or.inr ⟨htarget, r, hr, rfl⟩⟩

theorem zipIdx_sorted (pools : List Pool) : pools.zipIdx.Pairwise fun x y => x.2 < y.2 := by
  rw [← List.pairwise_map (R := fun x y : ℕ => x < y), List.zipIdx_map_snd]
  exact List.pairwise_lt_range' 1

/-- **Depth first is lexicographic.** -/
theorem walks_sorted : (q.walks hops path a).Pairwise (· < ·) := by
  induction hops generalizing path a with
  | zero => exact List.Pairwise.nil
  | succ hops ih =>
    rw [walks, List.pairwise_flatMap]
    constructor
    · intro hop _
      unfold branch
      split
      · exact List.Pairwise.nil
      · split
        · exact List.pairwise_singleton _ _
        · refine List.pairwise_map.mpr (ih.imp fun hlt => ?_)
          exact List.cons_lt_cons_iff.mpr (Or.inr ⟨rfl, hlt⟩)
    · refine ((zipIdx_sorted q.pools).sublist List.filter_sublist).imp fun hlt s hs t ht => ?_
      obtain ⟨r, rfl⟩ := exists_cons_of_mem_branch hs
      obtain ⟨r', rfl⟩ := exists_cons_of_mem_branch ht
      exact List.cons_lt_cons_iff.mpr (Or.inl hlt)

/-- A path over all pools has no continuation. -/
theorem walks_eq_nil (hpath : (indices path).Nodup) (hmem : ∀ i ∈ indices path, i < q.pools.length)
    (hfull : q.pools.length ≤ path.length) : q.walks hops path a = [] := by
  refine List.eq_nil_iff_forall_not_mem.mpr fun s hs => ?_
  obtain ⟨-, hnodup, c, hwalk⟩ := (mem_walks hpath).mp hs
  have hsub : indices path ++ s ⊆ List.range q.pools.length := fun i hi =>
    List.mem_range.mpr ((List.mem_append.mp hi).elim (hmem i) (hwalk.lt i))
  have hle := (List.subperm_of_subset hnodup hsub).length_le
  rw [List.length_append, List.length_map, List.length_range] at hle
  have := List.length_pos_iff.mpr hwalk.ne_nil
  omega

end Clamm.BestTrades
