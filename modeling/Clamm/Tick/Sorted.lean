import Clamm.Integer
import Clamm.Tick.Basic

/-!
# Sorted lists of ticks

`TickList` is a snapshot of all ticks of a pool in ascending order. `TickList.make` accepts a list
whose indices are multiples of the spacing and do not descend, and whose net liquidity sums to zero
without leaving 128 bits on the way. Where several ticks share an index, the last one is found.
-/

namespace Clamm

/-- Ticks in ascending order of index. -/
structure TickList where
  ticks : List Tick
  sorted : ticks.Pairwise fun a b => a.index ≤ b.index

namespace TickList

/-- Adds the net liquidity of a tick to a sum, if the result fits in 128 bits, signed. -/
def addNet (sum : Int) (t : Tick) : Option Int :=
  let sum := sum + t.net
  if -(pow2 127 : Int) ≤ sum ∧ sum < pow2 127 then some sum else none

/-- The sum of the net liquidity, if every partial sum fits in 128 bits. -/
def sumNet (ticks : List Tick) : Option Int := ticks.foldlM addNet 0

/-- Accepts a consistent snapshot for a grid of the given spacing. -/
def make (ticks : List Tick) (spacing : Int) : Except Error TickList :=
  if spacing ≤ 0 then .error (.tick .zeroSpacing)
  else if ticks.any (fun t => ¬ spacing ∣ t.index) then .error (.tick .misaligned)
  else if sumNet ticks ≠ some 0 then .error (.tick .unbalanced)
  else if h : ticks.Pairwise fun a b => a.index ≤ b.index then .ok ⟨ticks, h⟩
  else .error (.tick .unsorted)

/-- The last tick at or below an index. -/
def floor? (l : TickList) (index : Int) : Option Tick :=
  (l.ticks.takeWhile fun t => t.index ≤ index).getLast?

/-- The first tick above an index. -/
def above? (l : TickList) (index : Int) : Option Tick :=
  l.ticks.find? fun t => index < t.index

/-- No tick lies at or below the index. -/
def isBelowSmallest (l : TickList) (index : Int) : Bool :=
  match l.ticks.head? with
  | some t => index < t.index
  | none => true

/-- No tick lies above the index. -/
def isAtOrAboveLargest (l : TickList) (index : Int) : Bool :=
  match l.ticks.getLast? with
  | some t => t.index ≤ index
  | none => true

/-- The nearest tick at or below an index for `down`, above it for `up`. -/
def nextTick (l : TickList) (index : Int) : Direction → Except Error Tick
  | .down =>
    match l.floor? index with
    | some t => .ok t
    | none => .error (.tick .belowSmallest)
  | .up =>
    match l.above? index with
    | some t => .ok t
    | none => .error (.tick .atOrAboveLargest)

/-- The tick stored at an index. -/
def find (l : TickList) (index : Int) : Except Error Tick :=
  match l.floor? index with
  | some t => if t.index = index then .ok t else .error (.tick (.missing index))
  | none => .error (.tick (.missing index))

/-- The nearest tick in a direction if it lies within the word of 256 grid points that the search
starts in, else the end of the word. -/
def next (l : TickList) (tick spacing : Int) (d : Direction) : Except Error (Int × Bool) :=
  if spacing ≤ 0 then .error (.tick .zeroSpacing)
  else
    let number := tick / spacing
    match d with
    | .down =>
      let first := number / 256 * 256 * spacing
      match l.floor? tick with
      | some t => .ok (max first t.index, first ≤ t.index)
      | none => .ok (first, false)
    | .up =>
      let last := ((number + 1) / 256 * 256 + 255) * spacing
      match l.above? tick with
      | some t => .ok (min last t.index, t.index ≤ last)
      | none => .ok (last, false)

/-- The list as a source of ticks. -/
def source (l : TickList) : TickSource := ⟨l.find, l.next⟩

end TickList

end Clamm
