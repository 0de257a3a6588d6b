import Clamm.Tick.Words
import Clamm.Word.Basic

/-!
# Tick flags on words

`Word.Flags` holds the words of flags of a `WordMap` as words, and searches them by masks: `upTo`
keeps the bits of a word up to one place and `onward` those from it on, and the outermost bit that
is left is the flag nearest to that place.
-/

namespace Clamm.Word

/-- The index of the highest set bit. -/
def highest (x : Word) : Except Error Nat :=
  if x = 0 then .error (.arithmetic .invalidInput) else .ok (255 - x.clz.toNat)

/-- The index of the lowest set bit. -/
def lowest (x : Word) : Except Error Nat :=
  if x = 0 then .error (.arithmetic .invalidInput) else .ok x.ctz.toNat

/-- The bits of a word at and below bit `b`. -/
def upTo (x : Word) (b : Nat) : Word := x &&& greatest >>> (255 - b)

/-- The bits of a word at and above bit `b`. -/
def onward (x : Word) (b : Nat) : Word := x &&& greatest <<< b

/-- Words of flags by index; a missing word is zero. -/
abbrev Flags := Std.TreeMap Int Word

namespace Flags

/-- The word at an index. -/
def word (m : Flags) (i : Int) : Word := m[i]?.getD 0

/-- Whether a flag is set. -/
def isSet (m : Flags) (s : Slot) : Bool := (m.word s.word).getLsbD s.bit

/-- Toggles one flag. -/
def toggle (m : Flags) (s : Slot) : Flags :=
  let w := m.word s.word ^^^ (1 : Word) <<< s.bit
  if w = 0 then m.erase s.word else m.insert s.word w

/-- Toggles the flag of a tick, which must be a multiple of `spacing`. -/
def flip (m : Flags) (tick spacing : Int) : Except Error Flags :=
  if spacing ≤ 0 then .error (.tick .zeroSpacing)
  else if ¬ spacing ∣ tick then .error (.tick .misaligned)
  else .ok (m.toggle (slot (tick / spacing)))

/-- The next flagged tick in the word of `tick`: at or below it for `down`, above it for `up`. The
last grid point of the word in that direction, and `false`, if no flag is set. -/
def next (m : Flags) (tick spacing : Int) (d : Direction) : Except Error (Int × Bool) :=
  if spacing ≤ 0 then .error (.tick .zeroSpacing)
  else
    let number := tick / spacing
    match d with
    | .down =>
      let s := slot number
      let masked := (m.word s.word).upTo s.bit
      if masked = 0 then .ok ((number - s.bit) * spacing, false)
      else do
        let distance := s.bit - (← highest masked)
        return ((number - distance) * spacing, true)
    | .up =>
      let s := slot (number + 1)
      let masked := (m.word s.word).onward s.bit
      if masked = 0 then .ok ((number + 1 + (255 - s.bit : Nat)) * spacing, false)
      else do
        let distance := (← lowest masked) - s.bit
        return ((number + 1 + distance) * spacing, true)

end Flags

end Clamm.Word
