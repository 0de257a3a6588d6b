import Clamm.Direction
import Clamm.Error

/-!
# Ticks and where they come from

A `Tick` records the liquidity that starts or ends at one index of the grid. A pool asks a
`TickSource` two questions: which tick is stored at an index, and where the next initialized tick
lies in a direction, looking no further than one word of 256 grid points.

A source keeps its contract (`TickSource.Advances`) when a search downward answers an index at or
below the one it starts from, and a search upward one above it. `TickSource.none` answers nothing:
it serves pools that are priced and never traded through.
-/

namespace Clamm

/-- The liquidity that references a grid point: in total, and net when crossed upward. -/
structure Tick where
  index : Int
  gross : Nat
  net : Int
  deriving DecidableEq, Repr

/-- The ticks of a pool, as a swap looks them up. -/
structure TickSource where
  /-- The tick stored at an index. -/
  find : Int → Except Error Tick
  /-- The next grid point to stop at from `tick`, for grid points `spacing` apart, and whether a
  tick is initialized there. -/
  next : (tick spacing : Int) → Direction → Except Error (Int × Bool)

namespace TickSource

/-- Every answer of the search lies in the direction asked for. -/
def Advances (source : TickSource) (spacing : Int) : Prop :=
  ∀ tick d stop flag, source.next tick spacing d = .ok (stop, flag) →
    match d with
    | .down => stop ≤ tick
    | .up => tick < stop

/-- A source that has no ticks to tell of. -/
def none : TickSource := ⟨fun _ => .error (.tick .noData), fun _ _ _ => .error (.tick .noData)⟩

theorem none_advances (spacing : Int) : none.Advances spacing := by
  intro tick d stop flag h
  cases h

end TickSource

end Clamm
