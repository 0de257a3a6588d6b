import Mathlib
import Clamm.Proofs.Grid.Exponential

/-!
# The fixed-point logarithm

`logPrice p` computes 14 fractional bits of the binary logarithm of `p / 2 ^ 96` by squaring a
128-bit mantissa and cutting it each time. Every cut loses less than one part in `2 ^ 127`, each
squaring doubles what was lost before, and halving the weight of a digit undoes the doubling.

* `topBit_spec`: halving the window finds the highest set bit.
* `squareMantissa_spec`: a squaring keeps the mantissa in its range and doubles its logarithm, up
  to the digit it gives off.
* `logDigits_spec`: the digits are a lower bound of the logarithm that is off by less than one in
  the last place.
* `logPrice_spec`: so is `logPrice`.
-/

namespace Clamm

open Real

/-! ## The integer part -/

theorem topBit_spec : ∀ {n x : ℕ}, 0 < x → x < 2 ^ 2 ^ n →
    2 ^ Bits.topBit n x ≤ x ∧ x < 2 ^ (Bits.topBit n x + 1)
  | 0, x, h0, hx => by
    unfold Bits.topBit
    omega
  | n + 1, x, h0, hx => by
    unfold Bits.topBit
    simp only [Nat.one_shiftLeft, Nat.shiftRight_eq_div_pow]
    split
    · rename_i hhalf
      have hpos : 0 < 2 ^ 2 ^ n := Nat.two_pow_pos _
      have hlt : x / 2 ^ 2 ^ n < 2 ^ 2 ^ n := by
        rw [Nat.div_lt_iff_lt_mul hpos, ← pow_add, ← two_mul, ← pow_succ']
        exact hx
      obtain ⟨h1, h2⟩ := topBit_spec (Nat.div_pos hhalf hpos) hlt
      rw [Nat.le_div_iff_mul_le hpos] at h1
      rw [Nat.div_lt_iff_lt_mul hpos] at h2
      constructor
      · rw [pow_add, mul_comm]
        exact h1
      · rw [add_assoc, pow_add, mul_comm]
        exact h2
    · rename_i hhalf
      exact topBit_spec h0 (not_le.mp hhalf)

/-! ## Mantissas -/

/-- A mantissa has 128 bits. -/
def IsMantissa (m : ℕ) : Prop := 2 ^ 127 ≤ m ∧ m < 2 ^ 128

/-- The logarithm of what a mantissa stands for. -/
noncomputable def logMantissa (m : ℕ) : ℝ := log m - 127 * log (2 : ℕ)

theorem logMantissa_eq (m : ℕ) : logMantissa m = log m - 127 * log 2 := by
  simp [logMantissa]

theorem IsMantissa.pos {m : ℕ} (h : IsMantissa m) : 0 < m :=
  lt_of_lt_of_le (Nat.two_pow_pos 127) h.1

theorem IsMantissa.logMantissa_nonneg {m : ℕ} (h : IsMantissa m) : 0 ≤ logMantissa m := by
  have h1 : ((2 : ℝ) ^ 127) ≤ m := by exact_mod_cast h.1
  have h2 := log_le_log (by positivity) h1
  rw [log_pow] at h2
  push_cast at h2
  simp only [logMantissa_eq]
  linarith

theorem IsMantissa.logMantissa_le {m : ℕ} (h : IsMantissa m) : logMantissa m ≤ log 2 := by
  have h0 : (0 : ℝ) < m := by exact_mod_cast h.pos
  have h1 : (m : ℝ) ≤ 2 ^ 128 := by exact_mod_cast h.2.le
  have h2 := log_le_log h0 h1
  rw [log_pow] at h2
  push_cast at h2
  simp only [logMantissa_eq]
  linarith

/-- Cutting a quotient to a mantissa loses less than one part in `2 ^ 127`. -/
theorem log_cut {a b : ℕ} (hb : 0 < b) (h : IsMantissa (a / b)) :
    log (a / b : ℕ) ≤ log a - log b ∧ log a - log b ≤ log (a / b : ℕ) + 1 / 2 ^ 127 := by
  obtain ⟨m, hm⟩ : ∃ m, m = a / b := ⟨_, rfl⟩
  rw [← hm] at h ⊢
  have hm0 : (0 : ℝ) < m := by exact_mod_cast h.pos
  have hb0 : (0 : ℝ) < b := by exact_mod_cast hb
  have hle : m * b ≤ a := hm ▸ Nat.div_mul_le_self a b
  have hlt : a < m * b + b := hm ▸ Nat.lt_div_mul_add hb
  have hle' : (m : ℝ) * b ≤ a := by exact_mod_cast hle
  have hlt' : (a : ℝ) ≤ (m + 1) * b := by
    have : (a : ℝ) ≤ m * b + b := by exact_mod_cast hlt.le
    linarith
  have ha0 : (0 : ℝ) < a := lt_of_lt_of_le (mul_pos hm0 hb0) hle'
  have h1 := log_le_log (mul_pos hm0 hb0) hle'
  have h2 := log_le_log ha0 hlt'
  rw [log_mul hm0.ne' hb0.ne'] at h1
  rw [log_mul (by positivity) hb0.ne'] at h2
  have h3 : log ((m : ℝ) + 1) - log m ≤ 1 / 2 ^ 127 := by
    rw [← log_div (by positivity) hm0.ne']
    refine (log_le_sub_one_of_pos (by positivity)).trans ?_
    have hm1 : (2 : ℝ) ^ 127 ≤ m := by exact_mod_cast h.1
    rw [add_div, div_self hm0.ne', add_sub_cancel_left]
    exact one_div_le_one_div_of_le (by positivity) hm1
  constructor <;> linarith

/-- The leading bits of a number as a mantissa. -/
theorem mantissa_spec {x top : ℕ} (h1 : 2 ^ top ≤ x) (h2 : x < 2 ^ (top + 1)) :
    IsMantissa (mantissa x top) ∧ logMantissa (mantissa x top) ≤ log x - top * log 2 ∧
      log x - top * log 2 ≤ logMantissa (mantissa x top) + 1 / 2 ^ 127 := by
  have hx0 : 0 < x := lt_of_lt_of_le (Nat.two_pow_pos top) h1
  unfold mantissa
  split
  · rename_i htop
    rw [Nat.shiftRight_eq_div_pow]
    have hpos : 0 < 2 ^ (top - 127) := Nat.two_pow_pos _
    have hm : IsMantissa (x / 2 ^ (top - 127)) := by
      constructor
      · rw [Nat.le_div_iff_mul_le hpos, ← pow_add, Nat.add_sub_cancel' (by omega)]
        exact h1
      · rw [Nat.div_lt_iff_lt_mul hpos, ← pow_add, show 128 + (top - 127) = top + 1 by omega]
        exact h2
    obtain ⟨hl, hu⟩ := log_cut hpos hm
    have hexp : log ((2 ^ (top - 127) : ℕ) : ℝ) = top * log 2 - 127 * log 2 := by
      push_cast
      rw [log_pow, Nat.cast_sub (by omega)]
      push_cast
      ring
    rw [hexp] at hl hu
    simp only [logMantissa_eq]
    refine ⟨hm, ?_, ?_⟩ <;> linarith
  · rename_i htop
    rw [Nat.shiftLeft_eq]
    have hm : IsMantissa (x * 2 ^ (127 - top)) := by
      constructor
      · calc 2 ^ 127 = 2 ^ top * 2 ^ (127 - top) := by rw [← pow_add]; congr 1; omega
          _ ≤ x * 2 ^ (127 - top) := Nat.mul_le_mul_right _ h1
      · calc x * 2 ^ (127 - top) < 2 ^ (top + 1) * 2 ^ (127 - top) :=
              Nat.mul_lt_mul_of_pos_right h2 (Nat.two_pow_pos _)
          _ = 2 ^ 128 := by rw [← pow_add]; congr 1; omega
    have hlog : logMantissa (x * 2 ^ (127 - top)) = log x - top * log 2 := by
      simp only [logMantissa_eq]
      push_cast
      rw [log_mul (by positivity) (by positivity), log_pow, Nat.cast_sub (by omega)]
      push_cast
      ring
    rw [hlog]
    exact ⟨hm, le_refl _, by linarith [(by positivity : (0 : ℝ) < 1 / 2 ^ 127)]⟩

/-! ## Digits -/

/-- **One squaring** doubles the logarithm, gives off its integer part as a digit and leaves the
fraction as a mantissa. -/
theorem squareMantissa_spec {m : ℕ} (h : IsMantissa m) :
    IsMantissa (squareMantissa m).2 ∧
      logMantissa (squareMantissa m).2 ≤ 2 * logMantissa m - (squareMantissa m).1 * log 2 ∧
      2 * logMantissa m - (squareMantissa m).1 * log 2 ≤
        logMantissa (squareMantissa m).2 + 1 / 2 ^ 127 := by
  obtain ⟨h1, h2⟩ := h
  have hlow : 2 ^ 254 ≤ m * m :=
    calc 2 ^ 254 = 2 ^ 127 * 2 ^ 127 := by norm_num
      _ ≤ m * m := Nat.mul_le_mul h1 h1
  have hhigh : m * m < 2 ^ 256 :=
    calc m * m < 2 ^ 128 * 2 ^ 128 := Nat.mul_lt_mul'' h2 h2
      _ = 2 ^ 256 := by norm_num
  obtain ⟨d, hd⟩ : ∃ d, d = m * m / 2 ^ 127 / 2 ^ 128 := ⟨_, rfl⟩
  have hd1 : d ≤ 1 := by omega
  have hrest : m * m / 2 ^ 127 / 2 ^ d = m * m / 2 ^ (127 + d) := by
    rw [Nat.div_div_eq_div_mul, ← pow_add]
  have hsq : squareMantissa m = (d, m * m / 2 ^ (127 + d)) := by
    simp only [squareMantissa, pow2_eq, ← hd, hrest]
  rw [hsq]
  have hpos : 0 < 2 ^ (127 + d) := Nat.two_pow_pos _
  have hm : IsMantissa (m * m / 2 ^ (127 + d)) := by
    rw [← hrest]
    rcases Nat.le_one_iff_eq_zero_or_eq_one.mp hd1 with rfl | rfl
    · rw [pow_zero, Nat.div_one]
      constructor <;> omega
    · rw [pow_one]
      constructor <;> omega
  obtain ⟨hl, hu⟩ := log_cut hpos hm
  have hm0 : (0 : ℝ) < m := by
    exact_mod_cast lt_of_lt_of_le (Nat.two_pow_pos 127) h1
  have hlog : log ((m * m : ℕ) : ℝ) - log ((2 ^ (127 + d) : ℕ) : ℝ) =
      2 * logMantissa m - d * log 2 + 127 * log 2 := by
    simp only [logMantissa_eq]
    push_cast
    rw [log_mul hm0.ne' hm0.ne', log_pow]
    push_cast
    ring
  rw [hlog] at hl hu
  refine ⟨hm, ?_, ?_⟩ <;> simp only [logMantissa_eq] at hl hu ⊢ <;> linarith

/-- **The digits** are the logarithm cut in the last place. What the cuts lose doubles with every
squaring. -/
theorem logDigits_spec : ∀ {n m : ℕ}, IsMantissa m →
    logDigits n m * log 2 ≤ 2 ^ n * logMantissa m ∧
      2 ^ n * logMantissa m ≤ (logDigits n m + 1) * log 2 + 2 ^ n / 2 ^ 127
  | 0, m, h => by
    have h0 := h.logMantissa_nonneg
    have h1 := h.logMantissa_le
    simp only [logDigits, Nat.cast_zero, pow_zero]
    constructor
    · linarith
    · linarith [(by positivity : (0 : ℝ) < 1 / 2 ^ 127)]
  | n + 1, m, h => by
    obtain ⟨hm, hl, hu⟩ := squareMantissa_spec h
    obtain ⟨ihl, ihu⟩ := logDigits_spec (n := n) hm
    have hpow : (0 : ℝ) ≤ 2 ^ n := by positivity
    have hl' := mul_le_mul_of_nonneg_left hl hpow
    have hu' := mul_le_mul_of_nonneg_left hu hpow
    simp only [logDigits]
    push_cast [cast_pow2]
    rw [pow_succ]
    constructor
    · linarith
    · have e : (2 : ℝ) ^ n * 2 / 2 ^ 127 = 2 ^ n / 2 ^ 127 + 2 ^ n * (1 / 2 ^ 127) := by ring
      rw [e]
      linarith

/-! ## Prices -/

/-- `logPrice` in units of the last digit it computes. -/
theorem logPrice_eq (p : ℕ) : (logPrice p : ℝ) = 2 ^ 50 * (2 ^ 14 *
    ((Bits.topBit 8 (p <<< 32) : ℝ) - 128) +
      logDigits 14 (mantissa (p <<< 32) (Bits.topBit 8 (p <<< 32)))) := by
  simp only [logPrice]
  push_cast [cast_pow2]
  ring

/-- **The fixed-point logarithm is the true one**, cut after 14 digits. -/
theorem logPrice_spec {p : ℕ} (h0 : 0 < p) (hp : p < 2 ^ 224) :
    logPrice p * log 2 ≤ 2 ^ 64 * (log p - 96 * log 2) ∧
      2 ^ 64 * (log p - 96 * log 2) ≤ (logPrice p + 2 ^ 50) * log 2 + 1 := by
  obtain ⟨ratio, hratio⟩ : ∃ ratio, ratio = p <<< 32 := ⟨_, rfl⟩
  rw [logPrice_eq, ← hratio]
  rw [Nat.shiftLeft_eq] at hratio
  obtain ⟨ht1, ht2⟩ := topBit_spec (n := 8) (x := ratio) (by omega) (by norm_num; omega)
  obtain ⟨hm, hl, hu⟩ := mantissa_spec ht1 ht2
  obtain ⟨hdl, hdu⟩ := logDigits_spec (n := 14) hm
  have hlog : log (ratio : ℝ) = log p + 32 * log 2 := by
    have hp0 : (0 : ℝ) < p := by exact_mod_cast h0
    rw [hratio, Nat.cast_mul, Nat.cast_pow, Nat.cast_ofNat, log_mul hp0.ne' (by positivity),
      log_pow, Nat.cast_ofNat]
  rw [hlog] at hl hu
  norm_num at hdl hdu hu ⊢
  constructor <;> linarith

end Clamm
