import Mathlib
import Clamm.Tick.Words

/-!
# The search in one word of flags

Grid points less than `2 ^ 24` apart have flags of their own (`slot_inj`), so in that range a word
map is a set of grid points and `WordMap.next` looks for the nearest one.

* `Bits.lastUpTo_spec`, `Bits.firstFrom_spec`: the two searches in a word find the nearest set bit.
* `WordMap.next_down`, `WordMap.next_up`: the search stops at a grid point in its direction, passes
  no flag on the way, and reports the flag of the point that it stops at.
* `WordMap.next_advances`: the direction is kept even where a word holds more than its 256 flags.
-/

namespace Clamm

/-! ## Bits -/

namespace Bits

variable {x b : ℕ}

theorem testBit_trailingZeros (hx : x ≠ 0) :
    x.testBit (trailingZeros x) = true ∧ ∀ j < trailingZeros x, x.testBit j = false := by
  induction x using trailingZeros.induct with
  | case1 => exact absurd rfl hx
  | case2 x h0 hodd =>
    rw [trailingZeros, if_neg h0, if_pos hodd]
    simp [Nat.testBit_zero, hodd]
  | case3 x h0 heven ih =>
    obtain ⟨hset, hbelow⟩ := ih (by omega)
    rw [trailingZeros, if_neg h0, if_neg heven]
    refine ⟨by rwa [Nat.testBit_succ], fun j hj => ?_⟩
    cases j with
    | zero => simp [Nat.testBit_zero, heven]
    | succ j =>
      rw [Nat.testBit_succ]
      exact hbelow j (by omega)

/-- The bit found is the last one set up to `b`; none is found only where none is set. -/
theorem lastUpTo_spec : match lastUpTo x b with
    | some k => k ≤ b ∧ x.testBit k = true ∧ ∀ j, k < j → j ≤ b → x.testBit j = false
    | none => ∀ j ≤ b, x.testBit j = false := by
  have hbit : ∀ j ≤ b, (x % 2 ^ (b + 1)).testBit j = x.testBit j := fun j hj => by
    simp [Nat.testBit_mod_two_pow, Nat.lt_succ_of_le hj]
  have hlt := Nat.mod_lt x (Nat.two_pow_pos (b + 1))
  simp only [lastUpTo, Nat.one_shiftLeft]
  generalize x % 2 ^ (b + 1) = low at *
  by_cases h0 : low = 0
  · rw [if_pos h0]
    intro j hj
    rw [← hbit j hj, h0, Nat.zero_testBit]
  · rw [if_neg h0]
    have hk : low.log2 ≤ b := Nat.lt_succ_iff.mp ((Nat.log2_lt h0).mpr hlt)
    refine ⟨hk, ?_, fun j hlo hj => ?_⟩
    · rw [← hbit _ hk, Nat.testBit_log2 h0]
    · rw [← hbit j hj]
      exact Nat.testBit_lt_two_pow ((Nat.log2_lt h0).mp hlo)

/-- The bit found is the first one set from `b` on; none is found only where none is set. -/
theorem firstFrom_spec : match firstFrom x b with
    | some k => b ≤ k ∧ x.testBit k = true ∧ ∀ j, b ≤ j → j < k → x.testBit j = false
    | none => ∀ j, b ≤ j → x.testBit j = false := by
  have hbit : ∀ j, b ≤ j → (x >>> b).testBit (j - b) = x.testBit j := fun j hj => by
    rw [Nat.testBit_shiftRight, Nat.add_sub_cancel' hj]
  simp only [firstFrom]
  generalize x >>> b = high at *
  by_cases h0 : high = 0
  · rw [if_pos h0]
    intro j hj
    rw [← hbit j hj, h0, Nat.zero_testBit]
  · rw [if_neg h0]
    obtain ⟨hset, hbelow⟩ := testBit_trailingZeros h0
    refine ⟨Nat.le_add_right _ _, ?_, fun j hj hlt => ?_⟩
    · rw [← hbit _ (Nat.le_add_right _ _), Nat.add_sub_cancel_left, hset]
    · rw [← hbit j hj]
      exact hbelow _ (by omega)

end Bits

/-! ## Slots -/

/-- The numbers that the slots tell apart. -/
def Numbered (n : ℤ) : Prop := -2 ^ 23 ≤ n ∧ n < 2 ^ 23

theorem slot_bit_lt (n : ℤ) : (slot n).bit < 256 := by
  simp only [slot]
  omega

/-- Bit `j` of the word of `n` belongs to the grid point `j` places after the first of the word. -/
theorem slot_shift (n : ℤ) {j : ℕ} (hj : j < 256) :
    slot (n - (slot n).bit + j) = ⟨(slot n).word, j⟩ := by
  have hq : (n - (slot n).bit + j) / 256 = n / 256 := by
    simp only [slot]
    omega
  have hr : ((n - (slot n).bit + j) % 256).toNat = j := by
    simp only [slot]
    omega
  rw [slot, hq, hr]
  rfl

/-- The grid points around `n` share its word. -/
theorem slot_near {n j : ℤ} (h1 : n - (slot n).bit ≤ j) (h2 : j < n - (slot n).bit + 256) :
    slot j = ⟨(slot n).word, (j - (n - (slot n).bit)).toNat⟩ := by
  have hslot := slot_shift n (j := (j - (n - (slot n).bit)).toNat) (by omega)
  rwa [show n - (slot n).bit + ((j - (n - (slot n).bit)).toNat : ℕ) = j by omega] at hslot

/-- The first grid point of the word of `n`. -/
theorem sub_slot_bit (n : ℤ) : n - (slot n).bit = n / 256 * 256 := by
  simp only [slot]
  omega

/-- The grid points of a word share it. -/
theorem slot_word_near {n j : ℤ} (h1 : n / 256 * 256 ≤ j) (h2 : j < n / 256 * 256 + 256) :
    (slot j).word = (slot n).word := by
  rw [← sub_slot_bit] at h1 h2
  rw [slot_near h1 h2]

theorem slot_word {n : ℤ} (h : Numbered n) : (slot n).word = n / 256 := by
  obtain ⟨h1, h2⟩ := h
  exact Int.bmod_eq_of_le (by omega) (by omega)

/-- A number that the slots tell apart is the one of its place. -/
theorem slot_number {n : ℤ} (h : Numbered n) : (slot n).word * 256 + (slot n).bit = n := by
  rw [slot_word h]
  simp only [slot]
  omega

theorem slot_inj {m n : ℤ} (hm : Numbered m) (hn : Numbered n) (h : slot m = slot n) : m = n := by
  rw [← slot_number hm, ← slot_number hn, h]

theorem slot_mul_add {w : ℤ} {j : ℕ} (hj : j < 256) (h : Numbered (w * 256 + j)) :
    slot (w * 256 + j) = ⟨w, j⟩ := by
  have hw : (slot (w * 256 + j)).word = w := by
    rw [slot_word h]
    omega
  have hb : (slot (w * 256 + j)).bit = j := by
    simp only [slot]
    omega
  generalize slot (w * 256 + j) = s at *
  subst hw hb
  rfl

/-! ## The search -/

namespace WordMap

variable {m : WordMap} {tick spacing stop : ℤ} {flag : Bool}

theorem bit_lt_of_isSet {s : Slot} (hm : ∀ i, word m i < 2 ^ 256) (hs : m.isSet s = true) :
    s.bit < 256 := by
  by_contra hge
  have := (hm s.word).trans_le (Nat.pow_le_pow_right two_pos (not_lt.mp hge))
  rw [isSet, Nat.testBit_lt_two_pow this] at hs
  cases hs

/-- The flags of the grid points around `n` are the bits of its word. -/
theorem isSet_eq_testBit {n j : ℤ} (h1 : n - (slot n).bit ≤ j) (h2 : j < n - (slot n).bit + 256) :
    m.isSet (slot j) = (word m (slot n).word).testBit (j - (n - (slot n).bit)).toNat := by
  rw [slot_near h1 h2]
  rfl

/-- A search downward stops at or below its start, having passed no flag. -/
theorem next_down (h : m.next tick spacing .down = .ok (stop, flag)) :
    ∃ k, (tick / spacing - 256 < k ∧ k ≤ tick / spacing) ∧ stop = k * spacing ∧
      flag = m.isSet (slot k) ∧ ∀ j, k < j → j ≤ tick / spacing → m.isSet (slot j) = false := by
  unfold next at h
  split at h
  · cases h
  generalize tick / spacing = n at *
  have hspec := Bits.lastUpTo_spec (x := word m (slot n).word) (b := (slot n).bit)
  have hbit := slot_bit_lt n
  dsimp only at h
  split at h
  · rename_i b hb
    rw [hb] at hspec
    obtain ⟨hle, hset, hclear⟩ := hspec
    cases h
    refine ⟨_, ⟨by omega, by omega⟩, rfl, ?_, fun j h1 h2 => ?_⟩
    · rw [isSet_eq_testBit (n := n) (by omega) (by omega), ← hset]
      congr 1
      omega
    · rw [isSet_eq_testBit (n := n) (by omega) (by omega)]
      exact hclear _ (by omega) (by omega)
  · rename_i hb
    rw [hb] at hspec
    cases h
    refine ⟨_, ⟨by omega, by omega⟩, rfl, ?_, fun j h1 h2 => ?_⟩
    · rw [isSet_eq_testBit (n := n) (by omega) (by omega)]
      exact (hspec _ (by omega)).symm
    · rw [isSet_eq_testBit (n := n) (by omega) (by omega)]
      exact hspec _ (by omega)

/-- A search upward stops above its start, having passed no flag. -/
theorem next_up (hm : ∀ i, word m i < 2 ^ 256) (h : m.next tick spacing .up = .ok (stop, flag)) :
    ∃ k, (tick / spacing < k ∧ k ≤ tick / spacing + 256) ∧ stop = k * spacing ∧
      flag = m.isSet (slot k) ∧ ∀ j, tick / spacing < j → j < k → m.isSet (slot j) = false := by
  unfold next at h
  split at h
  · cases h
  dsimp only at h
  obtain ⟨n, hn⟩ : ∃ n, n = tick / spacing + 1 := ⟨_, rfl⟩
  rw [← hn] at h
  have hspec := Bits.firstFrom_spec (x := word m (slot n).word) (b := (slot n).bit)
  have hbit := slot_bit_lt n
  split at h
  · rename_i b hb
    rw [hb] at hspec
    obtain ⟨hle, hset, hclear⟩ := hspec
    have hb256 : b < 256 := bit_lt_of_isSet (s := ⟨(slot n).word, b⟩) hm hset
    cases h
    refine ⟨_, ⟨by omega, by omega⟩, rfl, ?_, fun j h1 h2 => ?_⟩
    · rw [isSet_eq_testBit (n := n) (by omega) (by omega), ← hset]
      congr 1
      omega
    · rw [isSet_eq_testBit (n := n) (by omega) (by omega)]
      exact hclear _ (by omega) (by omega)
  · rename_i hb
    rw [hb] at hspec
    cases h
    refine ⟨_, ⟨by omega, by omega⟩, rfl, ?_, fun j h1 h2 => ?_⟩
    · rw [isSet_eq_testBit (n := n) (by omega) (by omega)]
      exact (hspec _ (by omega)).symm
    · rw [isSet_eq_testBit (n := n) (by omega) (by omega)]
      exact hspec _ (by omega)

theorem spacing_pos_of_next {d : Direction} (h : m.next tick spacing d = .ok (stop, flag)) :
    0 < spacing := by
  unfold next at h
  split at h
  · cases h
  · rename_i hs
    exact not_le.mp hs

/-- Whatever the words hold, a search upward stops at a grid point above its start. -/
theorem next_up_ahead (h : m.next tick spacing .up = .ok (stop, flag)) :
    ∃ k, tick / spacing < k ∧ stop = k * spacing := by
  have hs := spacing_pos_of_next h
  unfold next at h
  rw [if_neg (not_le.mpr hs)] at h
  dsimp only at h
  obtain ⟨n, hn⟩ : ∃ n, n = tick / spacing + 1 := ⟨_, rfl⟩
  rw [← hn] at h
  split at h
  · rename_i b hb
    have hspec := Bits.firstFrom_spec (x := word m (slot n).word) (b := (slot n).bit)
    rw [hb] at hspec
    cases h
    exact ⟨_, by omega, rfl⟩
  · have hbit := slot_bit_lt n
    cases h
    exact ⟨_, by omega, rfl⟩

/-- Whatever the words hold, a search downward stops at or below its start, and a search upward
above it. -/
theorem next_advances {d : Direction} : m.next tick spacing d = .ok (stop, flag) →
    match d with
    | .down => stop ≤ tick
    | .up => tick < stop := by
  intro h
  have hs := spacing_pos_of_next h
  cases d with
  | down =>
    obtain ⟨k, ⟨-, hk⟩, rfl, -⟩ := next_down h
    exact (Int.le_ediv_iff_mul_le hs).mp hk
  | up =>
    obtain ⟨k, hk, rfl⟩ := next_up_ahead h
    exact (Int.ediv_lt_iff_lt_mul hs).mp hk

end WordMap

end Clamm
