import Clamm.InPlace
import Clamm.Tick.Flagged

/-!
# Tables of ticks changed in place

A `TickBitmap.Call` works on one table and leaves it changed. What it has changed stays changed when
it fails later on, so a call that writes ticks and flags one after the other could leave them out
of step. `Call.insert` and `Call.remove` are `TickBitmap.insert` and `TickBitmap.remove` as such
calls; a `Request` is one of them with its argument.
-/

namespace Clamm

namespace TickBitmap

/-- An operation on a table in place. -/
abbrev Call (α : Type) := ExceptT Error (StateM TickBitmap) α

namespace Call

/-- Toggles the flag of a tick. -/
def flip (index : Int) : Call Unit := do
  let b ← get
  let words ← b.words.flip index b.spacing
  set { b with words }

/-- Takes the tick at an index out of the table, and toggles its flag if there was one. -/
def remove (index : Int) : Call (Option Tick) := do
  let b ← get
  match b.ticks[index]? with
  | some t =>
    set { b with ticks := b.ticks.erase index }
    flip index
    return some t
  | none => return none

/-- Stores a tick, and toggles its flag if none was stored at its index. One without gross liquidity
is only removed. -/
def insert (t : Tick) : Call Unit := do
  let b ← get
  if ¬ b.spacing ∣ t.index then throw (.tick .misaligned)
  else if t.gross = 0 then
    let _ ← remove t.index
  else
    set { b with ticks := b.ticks.insert t.index t }
    if t.index ∉ b.ticks then flip t.index

end Call

/-- A call that changes a table. -/
inductive Request where
  | insert (t : Tick)
  | remove (index : Int)
  deriving DecidableEq, Repr

namespace Request

/-- The call of a request. -/
def call : Request → Call Unit
  | insert t => Call.insert t
  | remove index => do
    let _ ← Call.remove index

/-- What the request comes to, and the table that it leaves. -/
def run (r : Request) (b : TickBitmap) : Except Error Unit × TickBitmap := r.call b

end Request

/-- The table that requests leave, one made after the other. -/
def after (b : TickBitmap) (requests : List Request) : TickBitmap :=
  requests.foldl (fun b r => (r.run b).2) b

end TickBitmap

end Clamm
