import Mathlib
import Clamm.Tick.Basic
import Std.Data.TreeMap

/-!
# What is held after writes

The ticks of a table change by writes at one index each: a tick is stored, or the index is cleared.
What an index holds after them is what was written there last.

* `lastWritten`: what an index holds after writes.
* `getElem?_foldl_insert`: a map that ticks are stored in one after the other holds the last writes.
* `lastWritten_eq_some_iff`: ticks with indices of their own are all held.
-/

namespace Clamm

/-- A write at an index: the tick that it stores, or none if it clears the index. -/
abbrev Write := ℤ × Option Tick

/-- What an index holds after writes, if it held `before` ahead of them. -/
def lastWritten (i : ℤ) (before : Option Tick) (writes : List Write) : Option Tick :=
  writes.foldl (fun held w => if w.1 = i then w.2 else held) before

section

variable {i : ℤ} {before : Option Tick} {writes : List Write} {t : Tick}

theorem lastWritten_cons (w : Write) (writes : List Write) : lastWritten i before (w :: writes) =
    lastWritten i (if w.1 = i then w.2 else before) writes :=
  rfl

theorem lastWritten_append (writes' : List Write) : lastWritten i before (writes ++ writes') =
    lastWritten i (lastWritten i before writes) writes' :=
  List.foldl_append

/-- What an index holds was there before or is one of the writes. -/
theorem mem_of_lastWritten (h : lastWritten i before writes = some t) :
    before = some t ∨ (i, some t) ∈ writes := by
  induction writes generalizing before with
  | nil => exact Or.inl h
  | cons w ws ih =>
    rw [lastWritten_cons] at h
    rcases ih h with h | h
    · split at h
      · rename_i hi
        right
        rw [← hi, ← h]
        exact List.mem_cons_self
      · exact Or.inl h
    · exact Or.inr (List.mem_cons_of_mem _ h)

/-- What is held after ticks were stored is one of them. -/
theorem mem_of_lastWritten_ticks {ticks : List Tick}
    (h : lastWritten i none (ticks.map fun t => (t.index, some t)) = some t) :
    t ∈ ticks ∧ t.index = i := by
  obtain ⟨u, hu, heq⟩ := List.mem_map.mp ((mem_of_lastWritten h).resolve_left nofun)
  obtain ⟨hi, ht⟩ := Prod.mk.inj heq
  cases ht
  exact ⟨hu, hi⟩

/-- Storing ticks one after the other leaves the last one of each index. -/
theorem getElem?_foldl_insert (ticks : List Tick) (m : Std.TreeMap ℤ Tick) (i : ℤ) :
    (ticks.foldl (fun m t => m.insert t.index t) m)[i]? =
      lastWritten i m[i]? (ticks.map fun t => (t.index, some t)) := by
  induction ticks generalizing m with
  | nil => rfl
  | cons t ts ih =>
    rw [List.foldl_cons, ih, List.map_cons, lastWritten_cons, Std.TreeMap.getElem?_insert]
    simp only [compare_eq_iff_eq]

/-- Of ticks with indices of their own each one is what is written last at its index. -/
theorem lastWritten_eq_some_iff {ticks : List Tick}
    (hd : ticks.Pairwise fun t u => t.index ≠ u.index) :
    lastWritten i none (ticks.map fun t => (t.index, some t)) = some t ↔
      t ∈ ticks ∧ t.index = i := by
  constructor
  · exact mem_of_lastWritten_ticks
  · rintro ⟨ht, rfl⟩
    obtain ⟨before, rest, rfl⟩ := List.append_of_mem ht
    have hrest := (List.pairwise_cons.mp (List.pairwise_append.mp hd).2.1).1
    rw [List.map_append, lastWritten_append, List.map_cons, lastWritten_cons, if_pos rfl]
    clear hd ht
    induction rest with
    | nil => rfl
    | cons u us ih =>
      obtain ⟨hu, hus⟩ := List.forall_mem_cons.mp hrest
      rw [List.map_cons, lastWritten_cons, if_neg (Ne.symm hu)]
      exact ih hus

end

end Clamm
