import Mathlib
import Clamm.Word.Flags
import Clamm.Proofs.Ticks.Words

/-!
# Flags on words are flags

Words of flags and their numbers are searched alike: masking a word up to a place is taking a
remainder of its number, masking it from a place on only clears bits below that place, and counting
the zeros outside the set bits of what is left finds the bits that the numbers are searched for.

* `highest_eq`, `lowest_eq`: the outermost set bits of a word and of its number.
* `toNat_upTo`, `toNat_onward`: the two masks.
* `Flags.next_numbers`: a search on words answers as the search on their numbers does.
* `Flags.isSet_toggle`, `Flags.ne_zero_of_toggle`: toggling changes one flag and stores no zero.
-/

namespace Clamm

/-! ## Bits -/

namespace Bits

variable {x b : ℕ}

/-- Bits below the lowest one add to its index. -/
theorem trailingZeros_shiftLeft (hx : x ≠ 0) : trailingZeros (x <<< b) = b + trailingZeros x := by
  induction b with
  | zero => simp
  | succ b ih =>
    have hne : x <<< b ≠ 0 := by
      rw [Nat.shiftLeft_eq]
      exact Nat.mul_ne_zero hx (Nat.two_pow_pos b).ne'
    have hdouble : x <<< (b + 1) = 2 * x <<< b := Nat.shiftLeft_succ x b
    rw [hdouble, trailingZeros, if_neg (by omega), if_neg (by omega),
      Nat.mul_div_cancel_left _ two_pos, ih]
    omega

/-- The lowest set bit is the only one with nothing below it. -/
theorem trailingZeros_eq {k : ℕ} (hset : x.testBit k = true)
    (hbelow : ∀ j < k, x.testBit j = false) : trailingZeros x = k := by
  have hx : x ≠ 0 := by
    rintro rfl
    simp at hset
  obtain ⟨hset', hbelow'⟩ := testBit_trailingZeros hx
  rcases lt_trichotomy (trailingZeros x) k with h | h | h
  · rw [hbelow _ h] at hset'
    cases hset'
  · exact h
  · rw [hbelow' _ h] at hset
    cases hset

end Bits

namespace Word

variable {x : Word} {b : ℕ}

theorem toNat_eq_zero_iff : x.toNat = 0 ↔ x = 0 :=
  ⟨fun h => BitVec.eq_of_toNat_eq h, fun h => congrArg BitVec.toNat h⟩

theorem highest_eq (x : Word) : highest x = Bits.highest x.toNat := by
  unfold highest Bits.highest
  by_cases hx : x = 0
  · rw [if_pos hx, if_pos (toNat_eq_zero_iff.mpr hx)]
  · have hne : x.toNat ≠ 0 := fun h => hx (toNat_eq_zero_iff.mp h)
    have hlt := BitVec.toNat_lt_two_pow_sub_clz (x := x)
    have hle := BitVec.two_pow_sub_clz_le_toNat_of_ne_zero (x := x) (by decide) hx
    have hclz : x.clz.toNat < 256 := BitVec.clz_lt_iff_ne_zero.mpr hx
    rw [if_neg hx, if_neg hne, (Nat.log2_eq_iff hne).mpr ⟨hle, ?_⟩]
    rwa [show 256 - 1 - x.clz.toNat + 1 = 256 - x.clz.toNat by omega]

theorem lowest_eq (x : Word) : lowest x = Bits.lowest x.toNat := by
  unfold lowest Bits.lowest
  by_cases hx : x = 0
  · rw [if_pos hx, if_pos (toNat_eq_zero_iff.mpr hx)]
  · rw [if_neg hx, if_neg fun h => hx (toNat_eq_zero_iff.mp h),
      Bits.trailingZeros_eq (k := x.ctz.toNat)]
    · exact BitVec.getLsbD_true_ctz_of_ne_zero hx
    · exact fun j hj => BitVec.getLsbD_false_of_lt_ctz hj

/-! ## Masks -/

theorem getLsbD_upTo (hb : b < 256) (j : ℕ) :
    (x.upTo b).getLsbD j = (decide (j ≤ b) && x.getLsbD j) := by
  rw [upTo, greatest, BitVec.getLsbD_and, BitVec.getLsbD_ushiftRight, BitVec.getLsbD_allOnes,
    Bool.and_comm]
  congr 1
  exact decide_eq_decide.mpr (by omega)

theorem getLsbD_onward (j : ℕ) :
    (x.onward b).getLsbD j = (decide (b ≤ j) && x.getLsbD j) := by
  rw [onward, greatest, BitVec.getLsbD_and, BitVec.getLsbD_shiftLeft, BitVec.getLsbD_allOnes]
  by_cases hj : j < 256
  · by_cases hb : b ≤ j
    · simp [hj, hb, show j - b < 256 by omega]
    · simp [hb]
  · simp [BitVec.getLsbD_of_ge x j (not_lt.mp hj)]

/-- Masking up to a place is taking a remainder. -/
theorem toNat_upTo (hb : b < 256) : (x.upTo b).toNat = x.toNat % 1 <<< (b + 1) := by
  refine Nat.eq_of_testBit_eq fun j => ?_
  rw [BitVec.testBit_toNat, getLsbD_upTo hb, Nat.one_shiftLeft, Nat.testBit_mod_two_pow,
    BitVec.testBit_toNat]
  congr 1
  exact decide_eq_decide.mpr Nat.lt_succ_iff.symm

/-- Masking from a place on clears what is below it. -/
theorem toNat_onward : (x.onward b).toNat = (x.toNat >>> b) <<< b := by
  refine Nat.eq_of_testBit_eq fun j => ?_
  rw [BitVec.testBit_toNat, getLsbD_onward, Nat.testBit_shiftLeft, Nat.testBit_shiftRight,
    BitVec.testBit_toNat]
  by_cases hb : b ≤ j
  · simp [hb]
  · simp [hb]

/-- A word with a bit set has its last one up to a place where the highest bit that the mask leaves
is. -/
theorem lastUpTo_toNat (hb : b < 256) : Bits.lastUpTo x.toNat b =
    if x.upTo b = 0 then none else some (x.upTo b).toNat.log2 := by
  unfold Bits.lastUpTo
  dsimp only
  rw [← toNat_upTo hb]
  exact if_congr toNat_eq_zero_iff rfl rfl

theorem firstFrom_toNat : Bits.firstFrom x.toNat b =
    if x.onward b = 0 then none else some (Bits.trailingZeros (x.onward b).toNat) := by
  unfold Bits.firstFrom
  dsimp only
  have hzero : x.toNat >>> b = 0 ↔ x.onward b = 0 := by
    rw [← toNat_eq_zero_iff, toNat_onward, Nat.shiftLeft_eq, Nat.mul_eq_zero]
    simp
  by_cases hx : x.onward b = 0
  · rw [if_pos hx, if_pos (hzero.mpr hx)]
  · have hne := fun h => hx (hzero.mp h)
    rw [if_neg hx, if_neg hne, toNat_onward, Bits.trailingZeros_shiftLeft hne]

namespace Flags

variable {m : Flags} {s s' : Slot} {i : ℤ}

/-- The words as numbers. -/
def numbers (m : Flags) : WordMap := m.map fun _ w => w.toNat

theorem word_numbers (m : Flags) (i : ℤ) : m.numbers.word i = (m.word i).toNat := by
  unfold numbers WordMap.word word
  rw [Std.TreeMap.getElem?_map]
  cases m[i]? <;> rfl

theorem isSet_numbers (m : Flags) (s : Slot) : m.numbers.isSet s = m.isSet s := by
  rw [WordMap.isSet, word_numbers, BitVec.testBit_toNat]
  rfl

/-- **A search on words answers as the search on their numbers does.** -/
theorem next_numbers (m : Flags) (tick spacing : ℤ) (d : Direction) :
    m.numbers.next tick spacing d = m.next tick spacing d := by
  unfold WordMap.next next
  by_cases hs : spacing ≤ 0
  · rw [if_pos hs, if_pos hs]
  · rw [if_neg hs, if_neg hs]
    cases d with
    | down =>
      dsimp only
      have hb := slot_bit_lt (tick / spacing)
      generalize slot (tick / spacing) = s at *
      have hspec := Bits.lastUpTo_spec (x := (m.word s.word).toNat) (b := s.bit)
      rw [lastUpTo_toNat hb] at hspec
      rw [word_numbers, lastUpTo_toNat hb]
      by_cases hx : (m.word s.word).upTo s.bit = 0
      · rw [if_pos hx, if_pos hx]
      · rw [if_neg hx] at hspec
        rw [if_neg hx, if_neg hx, highest_eq, Bits.highest, if_neg (hx ∘ toNat_eq_zero_iff.mp),
          ok_bind, Nat.cast_sub hspec.1]
        rfl
    | up =>
      dsimp only
      have hb := slot_bit_lt (tick / spacing + 1)
      generalize slot (tick / spacing + 1) = s at *
      have hspec := Bits.firstFrom_spec (x := (m.word s.word).toNat) (b := s.bit)
      rw [firstFrom_toNat] at hspec
      rw [word_numbers, firstFrom_toNat]
      by_cases hx : (m.word s.word).onward s.bit = 0
      · rw [if_pos hx, if_pos hx, Nat.cast_sub (Nat.le_of_lt_succ hb)]
        rfl
      · rw [if_neg hx] at hspec
        rw [if_neg hx, if_neg hx, lowest_eq, Bits.lowest, if_neg (hx ∘ toNat_eq_zero_iff.mp),
          ok_bind, Nat.cast_sub hspec.1]
        rfl

/-! ## Toggling -/

theorem word_toggle (m : Flags) (s : Slot) (i : ℤ) :
    (m.toggle s).word i =
      if i = s.word then m.word s.word ^^^ (1 : Word) <<< s.bit else m.word i := by
  by_cases hi : i = s.word
  · subst hi
    simp only [toggle, if_pos]
    split
    · rename_i h
      rw [h]
      simp [word]
    · simp [word]
  · simp only [toggle, if_neg hi]
    have hi' : ¬ s.word = i := fun e => hi e.symm
    split <;> simp [word, Std.TreeMap.getElem?_erase, Std.TreeMap.getElem?_insert, hi']

theorem getLsbD_one_shiftLeft (hb : b < 256) (j : ℕ) :
    ((1 : Word) <<< b).getLsbD j = decide (j = b) := by
  rw [← BitVec.testBit_toNat, BitVec.toNat_shiftLeft, show (1 : Word).toNat = 1 from rfl,
    Nat.one_shiftLeft, Nat.mod_eq_of_lt (Nat.pow_lt_pow_right one_lt_two hb), Nat.testBit_two_pow,
    decide_eq_decide]
  exact eq_comm

/-- Toggling changes the flag of its slot and no other. -/
theorem isSet_toggle (hb : s.bit < 256) :
    (m.toggle s).isSet s' = (m.isSet s' ^^ decide (s' = s)) := by
  obtain ⟨w, b⟩ := s
  obtain ⟨w', b'⟩ := s'
  unfold isSet
  rw [word_toggle]
  dsimp only
  by_cases hw : w' = w
  · subst hw
    rw [if_pos rfl, BitVec.getLsbD_xor, getLsbD_one_shiftLeft hb]
    simp
  · rw [if_neg hw]
    simp [hw]

/-- No word that is stored is zero. -/
def NoZero (m : Flags) : Prop := ∀ i : ℤ, m[i]? ≠ some 0

theorem NoZero.toggle (h : m.NoZero) (s : Slot) : (m.toggle s).NoZero := by
  intro i
  unfold Flags.toggle
  dsimp only
  split
  · rw [Std.TreeMap.getElem?_erase]
    split
    · exact nofun
    · exact h i
  · rename_i hw
    rw [Std.TreeMap.getElem?_insert]
    split
    · exact fun e => hw (Option.some.inj e)
    · exact h i

/-- Maps that store no zero and have the same flags are the same. -/
theorem NoZero.toList_eq {m' : Flags} (h : m.NoZero) (h' : m'.NoZero)
    (hsame : ∀ s, m'.isSet s = m.isSet s) : m'.toList = m.toList := by
  have hword : ∀ i, m'.word i = m.word i := fun i =>
    BitVec.eq_of_getLsbD_eq fun b _ => hsame ⟨i, b⟩
  refine (Std.TreeMap.Equiv.of_forall_constGet?_eq fun i => ?_).toList_eq
  have hi := hword i
  have hne := h i
  have hne' := h' i
  unfold word at hi
  generalize m[i]? = x at *
  generalize m'[i]? = x' at *
  cases x with
  | none =>
    cases x' with
    | none => rfl
    | some w => exact absurd (congrArg some hi) hne'
  | some v =>
    cases x' with
    | none => exact absurd (congrArg some hi.symm) hne
    | some w => exact congrArg some hi

end Flags

end Word

end Clamm
