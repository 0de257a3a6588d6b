import Clamm.InPlace
import Clamm.Trade.Ranking

/-!
# Ranked lists changed in place

A `Ranking.Call` works on one list and leaves it changed. `Call.insert` is `Ranking.insert` as such
a call: it puts the new entry into the list before it takes the last one out of a list that was
full, so for a moment there is one entry more than the capacity.
-/

namespace Clamm.Ranking

/-- An operation on a list in place. -/
abbrev Call (α β : Type) := ExceptT Error (StateM (List α)) β

namespace Call

variable {α : Type}

/-- Takes the last entry out of the list. -/
def pop : Call α (Option α) := do
  let items ← get
  set items.dropLast
  return items.getLast?

/-- Inserts an entry and says which one is evicted. -/
def insert (cmp : α → α → Ordering) (capacity : Nat) (x : α) : Call α (Option α) := do
  let items ← get
  if capacity = 0 then throw (.search .zeroCapacity)
  else if capacity < items.length then throw (.search .overfull)
  else if items.length = capacity ∧ items.getLast?.any (stays cmp x) then return some x
  else
    set (place cmp items x)
    if items.length = capacity then pop else return none

end Call

end Clamm.Ranking
