import Mathlib
import Clamm.Proofs.Trade.Ranking
import Clamm.Trade.InPlace

/-!
# A bounded list filled in place

A stable sort is known by three things: its entries are those of the list, they are in order, and
entries that tie stand as they stood. Together they leave one list (`isStableSort_iff`), so "the
stable sort" needs no algorithm.

Filling a list in place is inserting one entry after the other. One insertion loses nothing: what
was in the list and the new entry are what is in the list afterwards and what it evicted
(`insert_perm`). A run adds this up.

* `Call.insert_run`: an insertion in place is an insertion, and a refused one changes nothing.
* `Call.mapM_insert_run`: a run of insertions into the front of a ranked list.
* `Call.insertions_rank`: a bounded list filled in place is the front of the stable sort.
-/

namespace Clamm.Ranking

variable {α : Type} {cmp : α → α → Ordering} {a x : α} {xs ys zs items items' : List α}
  {evicted : Option α} {capacity : ℕ}

/-! ## Stable sorts -/

/-- The entries that tie with `a`, in the order in which they stand. -/
def ties (cmp : α → α → Ordering) (a : α) (xs : List α) : List α :=
  xs.filter fun b => cmp a b == .eq

/-- `ys` is a stable sort of `xs`. -/
structure IsStableSort (cmp : α → α → Ordering) (xs ys : List α) : Prop where
  perm : ys.Perm xs
  inOrder : InOrder cmp ys
  ties_eq : ∀ a, ties cmp a ys = ties cmp a xs

theorem mem_ties {b : α} : b ∈ ties cmp a xs ↔ b ∈ xs ∧ cmp a b = .eq := by
  simp [ties]

theorem ties_ties (cmp : α → α → Ordering) (a : α) (xs : List α) :
    ties cmp a (ties cmp a xs) = ties cmp a xs := by
  simp [ties]

theorem ties_cons_of_eq (h : cmp a x = .eq) (xs : List α) :
    ties cmp a (x :: xs) = x :: ties cmp a xs :=
  List.filter_cons_of_pos (by simp [h])

section StableSort

variable [Std.TransCmp cmp]

/-- Entries that tie with one entry are in order, however they stand. -/
theorem ties_inOrder (a : α) (xs : List α) : InOrder cmp (ties cmp a xs) := by
  refine List.pairwise_of_forall_mem_list fun b hb c hc => ?_
  have hbc := Std.TransCmp.eq_trans (Std.OrientedCmp.eq_symm (mem_ties.mp hb).2) (mem_ties.mp hc).2
  rw [Precedes, hbc]
  rfl

theorem ranked_isStableSort (xs : List α) : IsStableSort cmp xs (ranked cmp xs) := by
  have hperm : (ranked cmp xs).Perm xs := List.mergeSort_perm _ _
  refine ⟨hperm, ranked_inOrder xs, fun a => ?_⟩
  -- the ties of `a` are in order as they stand, so they stay a sublist, and no other entry ties
  have hsub : (ties cmp a xs).Sublist (ranked cmp xs) :=
    List.sublist_mergeSort (fun _ _ _ => Std.TransCmp.isLE_trans) isLE_or_isLE
      (ties_inOrder a xs) List.filter_sublist
  have hties : (ties cmp a xs).Sublist (ties cmp a (ranked cmp xs)) := by
    rw [← ties_ties cmp a xs]
    exact hsub.filter _
  exact (hties.eq_of_length (hperm.filter _).length_eq.symm).symm

/-- The first entry of a list in order comes after none of its entries. -/
theorem InOrder.head_isLE (h : InOrder cmp (x :: xs)) (ha : a ∈ x :: xs) : (cmp x a).isLE := by
  rcases List.mem_cons.mp ha with rfl | ha
  · exact Std.ReflCmp.isLE_rfl
  · exact (List.pairwise_cons.mp h).1 a ha

/-- **Two lists in order with the same entries and the same ties are one list.** -/
theorem InOrder.eq_of_ties (hy : InOrder cmp ys) (hz : InOrder cmp zs) (hperm : ys.Perm zs)
    (hties : ∀ a, ties cmp a ys = ties cmp a zs) : ys = zs := by
  induction ys generalizing zs with
  | nil => exact hperm.nil_eq
  | cons y ys ih =>
    cases zs with
    | nil => exact absurd hperm.eq_nil (List.cons_ne_nil _ _)
    | cons z zs =>
      -- neither of the two first entries comes after the other
      have hyz := hy.head_isLE (hperm.symm.subset List.mem_cons_self)
      have hzy := hz.head_isLE (hperm.subset List.mem_cons_self)
      rw [← Std.OrientedCmp.isGE_eq_isLE (a := y)] at hzy
      have htie : cmp y z = .eq := Ordering.eq_eq_of_isLE_of_isGE hyz hzy
      have hself : cmp y y = .eq := Std.ReflCmp.compare_self
      have hhead := hties y
      rw [ties_cons_of_eq hself, ties_cons_of_eq htie] at hhead
      obtain ⟨rfl, -⟩ := List.cons.inj hhead
      rw [ih hy.tail hz.tail hperm.cons_inv fun a => ?_]
      have htail := hties a
      by_cases ha : cmp a y = .eq
      · rw [ties_cons_of_eq ha, ties_cons_of_eq ha] at htail
        exact (List.cons.inj htail).2
      · simpa [ties, ha] using htail

/-- **There is one stable sort.** -/
theorem isStableSort_iff : IsStableSort cmp xs ys ↔ ys = ranked cmp xs := by
  have hranked : IsStableSort cmp xs (ranked cmp xs) := ranked_isStableSort xs
  constructor
  · intro h
    exact h.inOrder.eq_of_ties hranked.inOrder (h.perm.trans hranked.perm.symm)
      fun a => (h.ties_eq a).trans (hranked.ties_eq a).symm
  · rintro rfl
    exact hranked

end StableSort

/-! ## One insertion -/

theorem place_perm (cmp : α → α → Ordering) (items : List α) (x : α) :
    (place cmp items x).Perm (x :: items) := by
  refine List.perm_middle.trans ?_
  rw [List.take_append_drop]

/-- **An insertion loses nothing**: the entries before and the new one are those afterwards and the
evicted one. -/
theorem insert_perm (h : insert cmp capacity items x = .ok (items', evicted)) :
    (evicted.toList ++ items').Perm (x :: items) := by
  unfold insert at h
  split at h
  · cases h
  split at h
  · cases h
  rename_i hfits
  split at h
  · cases h
    exact List.Perm.refl _
  · cases h
    have hdrop : (place cmp items x)[capacity]?.toList = (place cmp items x).drop capacity := by
      rw [List.drop_eq_getElem?_toList_append, List.drop_eq_nil_of_le, List.append_nil]
      rw [length_place]
      omega
    rw [hdrop]
    refine List.perm_append_comm.trans ?_
    rw [List.take_append_drop]
    exact place_perm cmp items x

namespace Call

/-- **An insertion in place is an insertion**, and leaves the list as it was if it fails. -/
theorem insert_run (cmp : α → α → Ordering) (capacity : ℕ) (items : List α) (x : α) :
    Call.insert cmp capacity x items =
      ((match Ranking.insert cmp capacity items x with
        | .ok (items', evicted) => (.ok evicted, items')
        | .error e => (.error e, items)) : Except Error (Option α) × List α) := by
  have hlen := length_place cmp items x
  unfold Call.insert Ranking.insert
  rw [InPlace.bind_run, InPlace.get_run]
  dsimp only
  by_cases hzero : capacity = 0
  · rw [if_pos hzero, if_pos hzero]
    rfl
  rw [if_neg hzero, if_neg hzero]
  by_cases hover : capacity < items.length
  · rw [if_pos hover, if_pos hover]
    rfl
  rw [if_neg hover, if_neg hover]
  by_cases hlast : items.length = capacity ∧ items.getLast?.any (stays cmp x)
  · rw [if_pos hlast, if_pos hlast]
    rfl
  rw [if_neg hlast, if_neg hlast, InPlace.bind_run, InPlace.set_run]
  dsimp only
  by_cases hfull : items.length = capacity
  · -- the list is one longer than the capacity until its last entry is taken out
    have hpop : Call.pop (place cmp items x) = ((.ok (place cmp items x).getLast?,
        (place cmp items x).dropLast) : Except Error (Option α) × List α) := rfl
    rw [if_pos hfull, hpop, List.getLast?_eq_getElem?, List.dropLast_eq_take, hlen, hfull]
    rfl
  · rw [if_neg hfull, InPlace.pure_run, List.take_of_length_le (by omega),
      List.getElem?_eq_none (by omega)]

/-- **A run of insertions into the front of a ranked list** succeeds, leaves the front of the list
that is ranked with all new entries, and loses nothing. -/
theorem mapM_insert_run (cmp : α → α → Ordering) [Std.TransCmp cmp] (hcap : 0 < capacity)
    (xs ys : List α) :
    ∃ evicted : List (Option α),
      ys.mapM (Call.insert cmp capacity) ((ranked cmp xs).take capacity) =
        ((.ok evicted, (ranked cmp (xs ++ ys)).take capacity) :
          Except Error (List (Option α)) × List α) ∧
      (evicted.reduceOption ++ (ranked cmp (xs ++ ys)).take capacity).Perm
        ((ranked cmp xs).take capacity ++ ys) := by
  induction ys generalizing xs with
  | nil =>
    refine ⟨[], ?_, ?_⟩
    · rw [List.mapM_nil, List.append_nil, InPlace.pure_run]
    · rw [List.append_nil, List.append_nil]
      exact List.Perm.refl _
  | cons y ys ih =>
    obtain ⟨gone, hgone⟩ : ∃ gone, Ranking.insert cmp capacity ((ranked cmp xs).take capacity) y =
        .ok ((ranked cmp (xs ++ [y])).take capacity, gone) := insert_ranked hcap xs y
    obtain ⟨evicted, hrun, hperm⟩ := ih (xs ++ [y])
    rw [← List.append_cons] at hrun hperm
    refine ⟨gone :: evicted, ?_, ?_⟩
    · rw [List.mapM_cons, InPlace.bind_run, insert_run, hgone]
      dsimp only
      rw [InPlace.bind_run, hrun]
      rfl
    · have hsplit : (gone :: evicted).reduceOption = gone.toList ++ evicted.reduceOption := by
        cases gone <;> rfl
      calc (gone :: evicted).reduceOption ++ (ranked cmp (xs ++ y :: ys)).take capacity
          = gone.toList ++
              (evicted.reduceOption ++ (ranked cmp (xs ++ y :: ys)).take capacity) := by
            rw [hsplit, List.append_assoc]
        List.Perm _ (gone.toList ++ ((ranked cmp (xs ++ [y])).take capacity ++ ys)) :=
            hperm.append_left _
        _ = gone.toList ++ (ranked cmp (xs ++ [y])).take capacity ++ ys :=
            (List.append_assoc _ _ _).symm
        List.Perm _ (y :: (ranked cmp xs).take capacity ++ ys) :=
            (insert_perm hgone).append_right ys
        List.Perm _ ((ranked cmp xs).take capacity ++ y :: ys) := List.perm_middle.symm

/-- **A bounded list filled in place is the front of the stable sort.** With a comparison that is an
order in which entries may tie, however many entries are inserted one by one into an empty list,
every insertion succeeds, the list is the front of the stable sort of all of them, and they are what
it evicted and what it still holds, each as often as it was inserted. An insertion into a list of
capacity zero, or into one with too many entries, fails and changes nothing. -/
theorem insertions_rank (cmp : α → α → Ordering) (capacity : ℕ) :
    (Std.TransCmp cmp → 0 < capacity → ∀ xs : List α, ∃ sorted evicted,
      (∀ ys, IsStableSort cmp xs ys ↔ ys = sorted) ∧
      xs.mapM (Call.insert cmp capacity) [] =
        ((.ok evicted, sorted.take capacity) : Except Error (List (Option α)) × List α) ∧
      (evicted.reduceOption ++ sorted.take capacity).Perm xs) ∧
    ∀ (items : List α) (x : α), capacity = 0 ∨ capacity < items.length →
      Call.insert cmp capacity x items =
        ((.error (.search (if capacity = 0 then .zeroCapacity else .overfull)), items) :
          Except Error (Option α) × List α) := by
  constructor
  · intro _ hcap xs
    obtain ⟨evicted, hrun, hperm⟩ := mapM_insert_run cmp hcap [] xs
    have hempty : (ranked cmp []).take capacity = [] := by
      rw [ranked, List.mergeSort_nil, List.take_nil]
    rw [hempty, List.nil_append] at hrun hperm
    exact ⟨ranked cmp xs, evicted, fun _ => isStableSort_iff, hrun, hperm⟩
  · intro items x h
    rw [insert_run]
    unfold Ranking.insert
    by_cases hzero : capacity = 0
    · rw [if_pos hzero, if_pos hzero]
    · rw [if_neg hzero, if_neg hzero, if_pos (h.resolve_left hzero)]

/-- Ties in a full list: the fourth entry evicts the second one, and the last is turned away. -/
theorem insertions_rank_ties :
    ((∀ ys, IsStableSort (compareOn Prod.fst) [(1, 0), (2, 1), (1, 2), (0, 3), (1, 4)] ys ↔
        ys = [(0, 3), (1, 0), (1, 2), (1, 4), (2, 1)]) ∧
      [(1, 0), (2, 1), (1, 2), (0, 3), (1, 4)].mapM (Call.insert (compareOn Prod.fst) 3) [] =
        ((.ok [none, none, none, some (2, 1), some (1, 4)], [(0, 3), (1, 0), (1, 2)]) :
          Except Error (List (Option (ℕ × ℕ))) × List (ℕ × ℕ)) ∧
      [(2, 1), (1, 4), (0, 3), (1, 0), (1, 2)].Perm [(1, 0), (2, 1), (1, 2), (0, 3), (1, 4)]) ∧
    Call.insert (compareOn Prod.fst) 1 (0, 2) [(0, 0), (1, 1)] =
      ((.error (.search .overfull), [(0, 0), (1, 1)]) :
        Except Error (Option (ℕ × ℕ)) × List (ℕ × ℕ)) := by
  constructor
  · obtain ⟨sorted, evicted, hsort, hrun, hperm⟩ :=
      (insertions_rank (compareOn (Prod.fst : ℕ × ℕ → ℕ)) 3).1 inferInstance (by decide)
        [(1, 0), (2, 1), (1, 2), (0, 3), (1, 4)]
    have hranked : ranked (compareOn Prod.fst) [(1, 0), (2, 1), (1, 2), (0, 3), (1, 4)] =
        [(0, 3), (1, 0), (1, 2), (1, 4), (2, 1)] := by cbv
    have hcalls : [(1, 0), (2, 1), (1, 2), (0, 3), (1, 4)].mapM
        (Call.insert (compareOn Prod.fst) 3) [] =
          ((.ok [none, none, none, some (2, 1), some (1, 4)], [(0, 3), (1, 0), (1, 2)]) :
            Except Error (List (Option (ℕ × ℕ))) × List (ℕ × ℕ)) := by cbv
    obtain rfl : ranked (compareOn Prod.fst) [(1, 0), (2, 1), (1, 2), (0, 3), (1, 4)] = sorted :=
      (hsort _).mp (ranked_isStableSort _)
    rw [hranked] at hsort hperm
    obtain ⟨hevicted, -⟩ := Prod.mk.inj (hcalls.symm.trans hrun)
    cases hevicted
    exact ⟨hsort, hcalls, hperm⟩
  · exact (insertions_rank (compareOn (Prod.fst : ℕ × ℕ → ℕ)) 1).2 _ _ (.inr (by decide))

end Call

end Clamm.Ranking
