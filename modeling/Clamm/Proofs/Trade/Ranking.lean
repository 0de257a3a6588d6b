import Mathlib
import Clamm.Trade.Ranking

/-!
# A bounded ranked list is the front of a stable sort

Entries that are put behind all that they do not come before keep the order of insertion among
equals, so a list filled one by one is the stable sort of what was inserted (`ranked_concat`). An
entry that falls out of a bounded list never comes back: of two ranked lists with the same front of
`k` entries, one more entry makes two with the same front again (`take_place`). So a bounded list is
the front of the stable sort, whatever was evicted on the way.

* `Ranking.ranked`: the stable sort by a comparison.
* `Ranking.insert_ranked`: an insertion into the front of a ranked list always succeeds.
* `Ranking.insert_congr`: only comparisons with the entries of the list matter.
* `Ranking.foldlM_insert_ranked`: a bounded list that takes many entries is the front of the stable
  sort of all of them.
-/

namespace Clamm.Ranking

variable {α : Type} {cmp cmp' : α → α → Ordering} {a x y : α} {xs ys items : List α}
  {capacity : ℕ}

/-- The stable sort by a comparison. -/
def ranked (cmp : α → α → Ordering) (xs : List α) : List α :=
  xs.mergeSort fun a b => (cmp a b).isLE

/-- The first entry does not come after the second one. -/
abbrev Precedes (cmp : α → α → Ordering) (a b : α) : Prop := (cmp a b).isLE

/-- The order of a ranked list. -/
abbrev InOrder (cmp : α → α → Ordering) (xs : List α) : Prop := xs.Pairwise (Precedes cmp)

theorem InOrder.tail (h : InOrder cmp (y :: ys)) : InOrder cmp ys := (List.pairwise_cons.mp h).2

theorem stays_eq (cmp : α → α → Ordering) (x y : α) : stays cmp x y = (cmp y x).isLE := by
  unfold stays
  cases cmp y x <;> rfl

/-! ## One entry -/

section Place

variable [Std.TransCmp cmp]

instance : Std.Total (Precedes cmp) where
  total a b := by
    rw [Precedes, Precedes, ← Std.OrientedCmp.isGE_eq_isLE (a := a) (b := b)]
    cases cmp a b <;> simp

instance : IsTrans α (Precedes cmp) where
  trans _ _ _ := Std.TransCmp.isLE_trans

theorem isLE_or_isLE (a b : α) : ((cmp a b).isLE || (cmp b a).isLE) = true := by
  simpa using total_of (Precedes cmp) a b

theorem ranked_inOrder (xs : List α) : InOrder cmp (ranked cmp xs) :=
  List.pairwise_mergeSort (fun _ _ _ => Std.TransCmp.isLE_trans) isLE_or_isLE xs

theorem InOrder.stays (h : InOrder cmp items) :
    items.Pairwise fun a b => stays cmp x b → stays cmp x a := by
  refine h.imp fun hab hb => ?_
  rw [stays_eq] at hb ⊢
  exact Std.TransCmp.isLE_trans hab hb

theorem place_nil (cmp : α → α → Ordering) (x : α) : place cmp [] x = [x] := by
  simp [place]

/-- An entry is placed behind the first one if that stays in front of it. -/
theorem place_cons (h : InOrder cmp (y :: ys)) :
    place cmp (y :: ys) x = if (cmp y x).isLE then y :: place cmp ys x else x :: y :: ys := by
  rw [place_eq h.stays, place_eq h.tail.stays, List.takeWhile_cons,
    List.dropWhile_cons, stays_eq]
  split <;> rfl

/-- Of two ranked lists with the same front, one more entry makes two with the same front. -/
theorem take_place (h : InOrder cmp items) :
    (place cmp (items.take capacity) x).take capacity = (place cmp items x).take capacity := by
  induction items generalizing capacity with
  | nil => simp
  | cons y ys ih =>
    cases capacity with
    | zero => rfl
    | succ n =>
      have htake : InOrder cmp (y :: ys.take n) := h.sublist ((List.take_sublist n ys).cons_cons y)
      rw [List.take_succ_cons, place_cons htake, place_cons h]
      split
      · rw [List.take_succ_cons, List.take_succ_cons, ih h.tail]
      · cases n with
        | zero => rfl
        | succ n => simp [List.take_take]

/-- A ranked list takes one entry in front of its equals and one behind them in either order. -/
theorem orderedInsert_place (h : InOrder cmp items) :
    (place cmp items x).orderedInsert (Precedes cmp) a =
      place cmp (items.orderedInsert (Precedes cmp) a) x := by
  have hinsert : InOrder cmp (items.orderedInsert (Precedes cmp) a) := h.orderedInsert a items
  induction items with
  | nil =>
    rw [place_nil, List.orderedInsert_nil, place_cons (List.pairwise_singleton _ _), place_nil]
    simp [List.orderedInsert_cons]
  | cons y ys ih =>
    rw [place_cons h]
    rw [List.orderedInsert_cons] at hinsert ⊢
    by_cases hay : (cmp a y).isLE
    · rw [if_pos hay] at hinsert ⊢
      rw [place_cons hinsert, place_cons h]
      by_cases hyx : (cmp y x).isLE
      · rw [if_pos hyx, if_pos (Std.TransCmp.isLE_trans hay hyx), List.orderedInsert_cons,
          if_pos hay]
      · rw [if_neg hyx, List.orderedInsert_cons]
        split
        · rfl
        · rw [List.orderedInsert_cons, if_pos hay]
    · rw [if_neg hay] at hinsert ⊢
      rw [place_cons hinsert]
      by_cases hyx : (cmp y x).isLE
      · rw [if_pos hyx, if_pos hyx, List.orderedInsert_cons, if_neg hay, ih h.tail hinsert.tail]
      · -- the new entry comes before `y`, which comes before `a`
        have hax : ¬ (cmp a x).isLE := fun hax =>
          hyx (Std.TransCmp.isLE_trans ((total_of (Precedes cmp) a y).resolve_left hay) hax)
        rw [if_neg hyx, if_neg hyx, List.orderedInsert_cons, if_neg hax, List.orderedInsert_cons,
          if_neg hay]

/-- A stable sort puts the first entry in front of its equals. -/
theorem ranked_cons (a : α) (xs : List α) :
    ranked cmp (a :: xs) = (ranked cmp xs).orderedInsert (Precedes cmp) a := by
  obtain ⟨front, back, hcons, hxs, hfront⟩ := @List.mergeSort_cons α (fun a b => (cmp a b).isLE)
    (fun _ _ _ => Std.TransCmp.isLE_trans) isLE_or_isLE a xs
  have hsorted : InOrder cmp (ranked cmp (a :: xs)) := ranked_inOrder _
  unfold ranked at hsorted ⊢
  rw [hcons] at hsorted ⊢
  rw [hxs]
  clear hcons hxs
  induction front with
  | nil =>
    have hback := (List.pairwise_cons.mp hsorted).1
    cases back with
    | nil => rfl
    | cons b back => exact (List.orderedInsert_cons_of_le _ _ (hback b List.mem_cons_self)).symm
  | cons b front ih =>
    have hb := hfront b List.mem_cons_self
    rw [List.cons_append, List.cons_append, List.orderedInsert_cons, if_neg (by simpa using hb),
      ← ih (fun c hc => hfront c (List.mem_cons_of_mem _ hc)) hsorted.tail]

/-- **A stable sort puts one more entry in its place.** -/
theorem ranked_concat (xs : List α) (x : α) :
    ranked cmp (xs ++ [x]) = place cmp (ranked cmp xs) x := by
  induction xs with
  | nil => simp [ranked, place]
  | cons a xs ih =>
    rw [List.cons_append, ranked_cons, ranked_cons, ih, orderedInsert_place (ranked_inOrder xs)]

/-- An entry that the last one stays in front of is placed last. -/
theorem place_of_last_stays (h : InOrder cmp items) (hlast : items.getLast?.any (stays cmp x)) :
    place cmp items x = items ++ [x] := by
  have hall : ∀ y ∈ items, stays cmp x y = true := by
    obtain ⟨last, hsome, hstays⟩ := (Option.any_eq_true _ _).mp hlast
    obtain ⟨init, rfl⟩ := List.getLast?_eq_some_iff.mp hsome
    intro y hy
    rcases List.mem_append.mp hy with hy | hy
    · have hle := (List.pairwise_append.mp h).2.2 y hy last (List.mem_singleton_self last)
      rw [stays_eq] at hstays ⊢
      exact Std.TransCmp.isLE_trans hle hstays
    · rwa [List.mem_singleton.mp hy]
  rw [place_eq h.stays, List.takeWhile_eq_self_iff.mpr hall, List.dropWhile_eq_nil_iff.mpr hall]

/-- **An insertion into the front of a ranked list** succeeds, and leaves the front of the list that
is ranked with the new entry. -/
theorem insert_ranked (hcap : 0 < capacity) (xs : List α) (x : α) : ∃ evicted,
    insert cmp capacity ((ranked cmp xs).take capacity) x =
      .ok ((ranked cmp (xs ++ [x])).take capacity, evicted) := by
  have hsorted : InOrder cmp ((ranked cmp xs).take capacity) :=
    (ranked_inOrder xs).sublist (List.take_sublist _ _)
  unfold insert
  rw [if_neg hcap.ne', if_neg (not_lt.mpr (List.length_take_le _ _)), ranked_concat,
    ← take_place (ranked_inOrder xs)]
  split
  · rename_i hfull
    rw [place_of_last_stays hsorted hfull.2, List.take_left' hfull.1]
    exact ⟨_, rfl⟩
  · exact ⟨_, rfl⟩

end Place

/-! ## Comparisons that agree -/

theorem leading_congr {test test' : α → Bool} (h : ∀ a ∈ items, test a = test' a) :
    leading test items = leading test' items := by
  fun_induction leading test items with
  | case1 items hlen htest ih =>
    rw [ih fun a ha => h a (List.mem_of_mem_drop ha)]
    rw [h _ (List.getElem_mem _)] at htest
    conv => rhs; rw [leading, dif_pos hlen, if_pos htest]
  | case2 items hlen htest ih =>
    rw [ih fun a ha => h a (List.mem_of_mem_take ha)]
    rw [h _ (List.getElem_mem _)] at htest
    conv => rhs; rw [leading, dif_pos hlen, if_neg htest]
  | case3 items hlen =>
    rw [leading, dif_neg hlen]
    exact List.countP_congr fun a ha => by rw [h a ha]

/-- Only comparisons with the entries of the list matter. -/
theorem insert_congr (h : ∀ y ∈ items, cmp y x = cmp' y x) :
    insert cmp capacity items x = insert cmp' capacity items x := by
  have hstays : ∀ y ∈ items, stays cmp x y = stays cmp' x y := fun y hy => by
    rw [stays, stays, h y hy]
  have hlast : items.getLast?.any (stays cmp x) = items.getLast?.any (stays cmp' x) := by
    cases hsome : items.getLast? with
    | none => rfl
    | some y => exact hstays y (List.mem_of_getLast? hsome)
  simp only [insert, place, leading_congr hstays, hlast]

theorem ranked_congr (h : ∀ a ∈ xs, ∀ b ∈ xs, cmp a b = cmp' a b) :
    ranked cmp xs = ranked cmp' xs := by
  have hmap := List.map_mergeSort (f := id) (r := fun a b => (cmp a b).isLE)
    (s := fun a b => (cmp' a b).isLE) (l := xs)
    fun a ha b hb => congrArg Ordering.isLE (h a ha b hb)
  rwa [List.map_id, List.map_id] at hmap

/-! ## Many entries -/

/-- **A bounded list that takes many entries** is the front of the stable sort of all of them, for a
comparison that is an order on these entries. -/
theorem foldlM_insert_ranked [Std.TransCmp cmp']
    (hcmp : ∀ a ∈ xs ++ ys, ∀ b ∈ xs ++ ys, cmp a b = cmp' a b)
    (h : ys.foldlM (fun items x => do return (← insert cmp capacity items x).1)
      ((ranked cmp' xs).take capacity) = .ok items) :
    items = (ranked cmp' (xs ++ ys)).take capacity := by
  induction ys generalizing xs with
  | nil =>
    cases h
    rw [List.append_nil]
  | cons y ys ih =>
    rw [List.append_cons] at hcmp ⊢
    rw [List.foldlM_cons] at h
    obtain ⟨next, hnext, h⟩ := bind_eq_ok_iff.mp h
    obtain ⟨inserted, hinsert, heq⟩ := bind_eq_ok_iff.mp hnext
    cases heq
    rcases Nat.eq_zero_or_pos capacity with rfl | hcap
    · cases hinsert
    · have hrank : ∀ z ∈ (ranked cmp' xs).take capacity, cmp z y = cmp' z y := fun z hz =>
        hcmp z (by simp [List.mem_mergeSort.mp (List.mem_of_mem_take hz)]) y (by simp)
      obtain ⟨evicted, hok⟩ : ∃ evicted, insert cmp' capacity ((ranked cmp' xs).take capacity) y =
          .ok ((ranked cmp' (xs ++ [y])).take capacity, evicted) := insert_ranked hcap xs y
      rw [insert_congr hrank, hok] at hinsert
      cases hinsert
      exact ih hcmp h

end Clamm.Ranking
