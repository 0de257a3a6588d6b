import Clamm.SqrtPrice.Grid
import Clamm.Tick.Words

/-!
# Ticks with a map of flags

`TickBitmap` stores ticks by index beside a word map that flags the stored indices, as a pool's own
storage does. `insert` and `remove` keep the two in step: a tick without liquidity is not stored,
and a flag is toggled exactly when an index starts or stops being stored. `ofWords` accepts words
and ticks loaded from elsewhere only if they agree.

`searchWords` lists the words a swap may have to look at.
-/

namespace Clamm

/-- Ticks by index, and the flags of the stored indices. -/
structure TickBitmap where
  spacing : Int
  spacing_pos : 0 < spacing
  words : WordMap
  ticks : Std.TreeMap Int Tick

namespace TickBitmap

/-- No ticks, on a grid of positive spacing. -/
def empty (spacing : Int) : Except Error TickBitmap :=
  if h : 0 < spacing then .ok ⟨spacing, h, ∅, ∅⟩ else .error (.tick .zeroSpacing)

/-- The place of the flag of a tick. -/
def slotOf (b : TickBitmap) (index : Int) : Slot := slot (index / b.spacing)

/-- The tick stored at an index, and the rest. -/
def remove (b : TickBitmap) (index : Int) : Option Tick × TickBitmap :=
  match b.ticks[index]? with
  | some t =>
    (some t, { b with words := b.words.toggle (b.slotOf index), ticks := b.ticks.erase index })
  | none => (none, b)

/-- Stores a tick in place of any other at its index; one without gross liquidity only removes. -/
def insert (b : TickBitmap) (t : Tick) : Except Error TickBitmap :=
  if ¬ b.spacing ∣ t.index then .error (.tick .misaligned)
  else if t.gross = 0 then .ok (b.remove t.index).2
  else
    let words := if t.index ∈ b.ticks then b.words else b.words.toggle (b.slotOf t.index)
    .ok { b with words, ticks := b.ticks.insert t.index t }

/-- Stores ticks one after the other. -/
def ofTicks (ticks : List Tick) (spacing : Int) : Except Error TickBitmap := do
  ticks.foldlM insert (← empty spacing)

/-- Stores one tick under flags that are already set. -/
def load (b : TickBitmap) (t : Tick) : Except Error TickBitmap :=
  if ¬ b.spacing ∣ t.index then .error (.tick .misaligned)
  else if ¬ b.words.isSet (b.slotOf t.index) then .error (.tick (.unflagged t.index))
  else .ok { b with ticks := b.ticks.insert t.index t }

/-- Words and ticks loaded together: every tick is aligned and flagged, and every flag has its
tick. -/
def ofWords (spacing : Int) (words : WordMap) (ticks : List Tick) : Except Error TickBitmap := do
  let b ← ticks.foldlM load { ← empty spacing with words }
  match (words.flagged spacing).find? fun index => index ∉ b.ticks with
  | some index => .error (.tick (.missing index))
  | none => .ok b

/-- The tick stored at an index. -/
def find (b : TickBitmap) (index : Int) : Except Error Tick :=
  match b.ticks[index]? with
  | some t => .ok t
  | none => .error (.tick (.missing index))

/-- The next flagged tick within one word; only for the spacing of the flags. -/
def next (b : TickBitmap) (tick spacing : Int) (d : Direction) : Except Error (Int × Bool) :=
  if spacing = b.spacing then b.words.next tick spacing d else .error (.tick .misaligned)

/-- The indices of the words from that of `tick` to the end of the grid in a direction. -/
def searchWords (b : TickBitmap) (tick : Int) (d : Direction) : List Int :=
  let between (first last : Int) : List Int :=
    (List.range (last + 1 - first).toNat).map fun i => first + (i : Nat)
  match d with
  | .down => between (b.slotOf minTick).word (b.slotOf tick).word
  | .up => between (b.slotOf tick).word (b.slotOf maxTick).word

/-- The table as a source of ticks. -/
def source (b : TickBitmap) : TickSource := ⟨b.find, b.next⟩

end TickBitmap

end Clamm
