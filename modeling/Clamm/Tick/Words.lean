import Clamm.Bits
import Clamm.Tick.Basic
import Std.Data.TreeMap

/-!
# Tick flags packed into words

Grid points are numbered by `tick / spacing`, and each number has one flag: bit `number % 256` of
word `number / 256`. Words are indexed by 16-bit signed integers, so numbers `2 ^ 24` apart share a
flag. `WordMap` holds the non-zero words.

* `WordMap.flip` toggles the flag of a tick, and keeps no word that becomes zero.
* `WordMap.next` finds the next flagged tick within one word, or the end of the word.
* `WordMap.flagged` lists the ticks whose flag is set.
-/

namespace Clamm

/-- The place of one flag. -/
structure Slot where
  word : Int
  bit : Nat
  deriving DecidableEq, Repr

/-- The place of the flag of grid point `number`. -/
def slot (number : Int) : Slot := ⟨Int.bmod (number / 256) 65536, (number % 256).toNat⟩

/-- Words of flags by index; a missing word is zero. -/
abbrev WordMap := Std.TreeMap Int Nat

namespace WordMap

/-- The word at an index. -/
def word (m : WordMap) (i : Int) : Nat := m[i]?.getD 0

/-- Whether a flag is set. -/
def isSet (m : WordMap) (s : Slot) : Bool := (word m s.word).testBit s.bit

/-- Toggles one flag. -/
def toggle (m : WordMap) (s : Slot) : WordMap :=
  let w := word m s.word ^^^ 1 <<< s.bit
  if w = 0 then m.erase s.word else m.insert s.word w

theorem word_toggle (m : WordMap) (s : Slot) (i : Int) :
    word (toggle m s) i = if i = s.word then word m s.word ^^^ 1 <<< s.bit else word m i := by
  by_cases hi : i = s.word
  · subst hi
    simp only [toggle, if_pos]
    split
    · next h => rw [h]; simp [word]
    · simp [word]
  · simp only [toggle, if_neg hi]
    have hi' : ¬ s.word = i := fun e => hi e.symm
    split <;> simp [word, Std.TreeMap.getElem?_erase, Std.TreeMap.getElem?_insert, hi']

/-- Toggling changes the flag of its slot and no other. -/
theorem isSet_toggle (m : WordMap) (s s' : Slot) :
    isSet (toggle m s) s' = (isSet m s' ^^ decide (s' = s)) := by
  simp only [isSet, word_toggle]
  obtain ⟨w, b⟩ := s
  obtain ⟨w', b'⟩ := s'
  by_cases hw : w' = w
  · subst hw
    have hbit : (1 <<< b).testBit b' = decide (b' = b) := by
      rw [Nat.one_shiftLeft, Nat.testBit_two_pow, decide_eq_decide]
      exact eq_comm
    simp [Nat.testBit_xor, hbit]
  · simp [hw]

/-- Toggles the flag of a tick, which must be a multiple of `spacing`. -/
def flip (m : WordMap) (tick spacing : Int) : Except Error WordMap :=
  if spacing ≤ 0 then .error (.tick .zeroSpacing)
  else if ¬ spacing ∣ tick then .error (.tick .misaligned)
  else .ok (toggle m (slot (tick / spacing)))

/-- The next flagged tick in the word of `tick`: at or below it for `down`, above it for `up`. The
last grid point of the word in that direction, and `false`, if no flag is set. -/
def next (m : WordMap) (tick spacing : Int) (d : Direction) : Except Error (Int × Bool) :=
  if spacing ≤ 0 then .error (.tick .zeroSpacing)
  else
    let number := tick / spacing
    match d with
    | .down =>
      let s := slot number
      match Bits.lastUpTo (word m s.word) s.bit with
      | some b => .ok ((number - (s.bit - b)) * spacing, true)
      | none => .ok ((number - s.bit) * spacing, false)
    | .up =>
      let s := slot (number + 1)
      match Bits.firstFrom (word m s.word) s.bit with
      | some b => .ok ((number + 1 + (b - s.bit)) * spacing, true)
      | none => .ok ((number + 1 + (255 - s.bit)) * spacing, false)

/-- The ticks whose flag is set, words and bits in ascending order. -/
def flagged (m : WordMap) (spacing : Int) : List Int :=
  m.toList.flatMap fun (i, w) =>
    (List.range 256).filterMap fun b =>
      if w.testBit b then some ((i * 256 + b) * spacing) else none

end WordMap

end Clamm
