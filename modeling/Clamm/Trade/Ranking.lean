import Clamm.Error

/-!
# Ranked lists of bounded size

`Ranking.insert` puts an entry into a list that is ranked by a comparison, behind all entries that
it does not come before. A list holds at most a given number of entries. A full list whose last
entry does not come after the new one turns the new one away; otherwise it evicts its last entry.

* The place of an entry is found by bisection (`leading`). In a ranked list it is the number of
  entries in front that do not come after the new one (`leading_eq_length_takeWhile`), so `place`
  keeps a ranked list ranked and equal entries in the order of insertion (`place_eq`).
-/

namespace Clamm.Ranking

variable {α : Type}

/-- How many entries in front pass a test, by bisection: the entry in the middle says whether to go
on behind it, itself included, or in front of it. The test has to fail from some point on. -/
def leading (test : α → Bool) (items : List α) : Nat :=
  if h : 1 < items.length then
    if test items[items.length / 2] then
      items.length / 2 + leading test (items.drop (items.length / 2))
    else leading test (items.take (items.length - items.length / 2))
  else items.countP test
termination_by items.length
decreasing_by
  · rw [List.length_drop]; omega
  · rw [List.length_take]; omega

/-- Whether an entry of the list stays in front of a new one. -/
def stays (cmp : α → α → Ordering) (x y : α) : Bool := cmp y x != .gt

/-- Puts an entry behind the leading entries that stay in front of it. -/
def place (cmp : α → α → Ordering) (items : List α) (x : α) : List α :=
  let n := leading (stays cmp x) items
  items.take n ++ x :: items.drop n

/-- Inserts an entry and says which one is evicted. -/
def insert (cmp : α → α → Ordering) (capacity : Nat) (items : List α) (x : α) :
    Except Error (List α × Option α) :=
  if capacity = 0 then .error (.search .zeroCapacity)
  else if capacity < items.length then .error (.search .overfull)
  else if items.length = capacity ∧ items.getLast?.any (stays cmp x) then .ok (items, some x)
  else
    let all := place cmp items x
    .ok (all.take capacity, all[capacity]?)

theorem takeWhile_eq_nil_of_forall {test : α → Bool} {items : List α}
    (h : ∀ a ∈ items, test a = false) : items.takeWhile test = [] := by
  cases items with
  | nil => rfl
  | cons a as => rw [List.takeWhile_cons_of_neg (by simp [h a])]

/-- Where the test fails from some point on, bisection finds that point. -/
theorem leading_eq_length_takeWhile {test : α → Bool} {items : List α}
    (h : items.Pairwise fun a b => test b → test a) :
    leading test items = (items.takeWhile test).length := by
  fun_induction leading test items with
  | case1 items hlen htest ih =>
    have hsplit := List.take_append_drop (items.length / 2) items
    have hmid : items[items.length / 2] ∈ items.drop (items.length / 2) :=
      List.mem_drop_iff_getElem.2 ⟨0, by omega, by simp⟩
    rw [← hsplit, List.pairwise_append] at h
    have hfront : ∀ a ∈ items.take (items.length / 2), test a = true :=
      fun a ha => h.2.2 a ha _ hmid htest
    conv => rhs; rw [← hsplit, List.takeWhile_append_of_pos hfront]
    rw [ih h.2.1, List.length_append, List.length_take]
    omega
  | case2 items hlen htest ih =>
    have hsplit := List.take_append_drop (items.length - items.length / 2) items
    have hback : ∀ b ∈ items.drop (items.length - items.length / 2), test b = false := by
      intro b hb
      obtain ⟨i, hi, rfl⟩ := List.mem_drop_iff_getElem.1 hb
      refine Bool.eq_false_iff.2 fun hb => htest ?_
      by_cases heq : items.length - items.length / 2 + i = items.length / 2
      · simpa only [heq] using hb
      · exact List.pairwise_iff_getElem.1 h _ _ (by omega) (by omega) (by omega) hb
    conv =>
      rhs
      rw [← hsplit, List.takeWhile_append, takeWhile_eq_nil_of_forall hback, List.append_nil]
    rw [ih (h.sublist (List.take_sublist _ _))]
    split
    · next hall => rw [hall]
    · rfl
  | case3 items hlen =>
    match items with
    | [] => rfl
    | [a] => cases ha : test a <;> simp [ha]
    | _ :: _ :: _ => simp at hlen

/-- In a ranked list, a new entry goes behind the entries that stay in front of it. -/
theorem place_eq {cmp : α → α → Ordering} {items : List α} {x : α}
    (h : items.Pairwise fun a b => stays cmp x b → stays cmp x a) :
    place cmp items x =
      items.takeWhile (stays cmp x) ++ x :: items.dropWhile (stays cmp x) := by
  have htake := List.prefix_iff_eq_take.1 (List.takeWhile_prefix (l := items) (stays cmp x))
  have hdrop : items.drop (items.takeWhile (stays cmp x)).length = items.dropWhile (stays cmp x) :=
    List.append_cancel_left
      (((congrArg (· ++ _) htake).trans (List.take_append_drop _ _)).trans
        List.takeWhile_append_dropWhile.symm)
  simp only [place, leading_eq_length_takeWhile h]
  rw [hdrop, ← htake]

theorem length_place (cmp : α → α → Ordering) (items : List α) (x : α) :
    (place cmp items x).length = items.length + 1 := by
  simp only [place, List.length_append, List.length_cons, List.length_take, List.length_drop]
  omega

end Clamm.Ranking
