import Mathlib
import Clamm.SqrtPrice.Grid

/-!
# The tick grid is geometric

`ratioAt` multiplies 128-bit factors, cuts every product and inverts at the end. This file bounds
what all of that loses: the logarithm of `ratioAt t` is within `2 ^ -28` of
`96 * log 2 + t * logTick`, the logarithm of `2 ^ 96 * 1.0001 ^ (t / 2)`.

* `atLeast_of_chain`, `atMost_of_chain`: every factor of the table is nearly the square of the one
  before (`Squares`, checked on the table), so the factors lie between the repeated squares of two
  numbers just below and just above the first one.
* `le_decay`, `decay_le`: between such bounds the product of the factors of the set bits of `n` lies
  between two `n`-th powers, up to one unit lost in each cut.
* `abs_log_ratioAt_sub_le`: the bound on `ratioAt`, and from it
* `ratioAt_lt_ratioAt`: the grid is strictly increasing.
-/

namespace Clamm

open Real

theorem pow2_eq (n : ℕ) : pow2 n = 2 ^ n := rfl

theorem cast_pow2 (n : ℕ) : ((pow2 n : ℕ) : ℝ) = 2 ^ n := by
  rw [pow2_eq]
  push_cast
  rfl

/-! ## The table of factors -/

/-- `c'` is the square of `c`, up to one part in `2 ^ 88`, both with 128 fractional bits. -/
def Squares (c c' : ℕ) : Prop :=
  c * c * (2 ^ 88 - 1) ≤ c' * 2 ^ 216 ∧ c' * 2 ^ 216 ≤ c * c * (2 ^ 88 + 1)

instance (c c' : ℕ) : Decidable (Squares c c') := inferInstanceAs (Decidable (_ ∧ _))

/-- The factors are at least `x`, `x ^ 2`, `x ^ 4` and so on. -/
def AtLeast : ℝ → List ℕ → Prop
  | _, [] => True
  | x, c :: cs => 2 ^ 128 * x ≤ c ∧ AtLeast (x ^ 2) cs

/-- The factors are at most `x`, `x ^ 2`, `x ^ 4` and so on. -/
def AtMost : ℝ → List ℕ → Prop
  | _, [] => True
  | x, c :: cs => (c : ℝ) ≤ 2 ^ 128 * x ∧ AtMost (x ^ 2) cs

-- The bounds of a chain keep one spare part in `2 ^ 88` at each entry: squaring it twice pays for
-- what the next entry may be off.
theorem atLeast_of_chain : ∀ {cs : List ℕ} {c : ℕ} {x : ℝ}, 0 ≤ x →
    2 ^ 128 * x ≤ c * (1 - 1 / 2 ^ 88) → (c :: cs).IsChain Squares → AtLeast x (c :: cs)
  | [], c, x, hx, h, _ => by
    refine ⟨h.trans ?_, trivial⟩
    have : (0 : ℝ) ≤ c := Nat.cast_nonneg c
    nlinarith
  | c' :: cs, c, x, hx, h, hchain => by
    obtain ⟨hsq, htail⟩ := List.isChain_cons_cons.mp hchain
    have hc : (0 : ℝ) ≤ c := Nat.cast_nonneg c
    refine ⟨h.trans (by nlinarith), atLeast_of_chain (sq_nonneg x) ?_ htail⟩
    have hsq' : (c : ℝ) * c * (2 ^ 88 - 1) ≤ c' * 2 ^ 216 := by
      have := hsq.1
      rw [show 2 ^ 88 - 1 = 309485009821345068724781055 by norm_num] at this
      have h' : ((c * c * 309485009821345068724781055 : ℕ) : ℝ) ≤ ((c' * 2 ^ 216 : ℕ) : ℝ) := by
        exact_mod_cast this
      push_cast at h'
      linarith
    have hmul : (2 ^ 128 * x) * (2 ^ 128 * x) ≤ (c * (1 - 1 / 2 ^ 88)) * (c * (1 - 1 / 2 ^ 88)) :=
      mul_self_le_mul_self (by positivity) h
    nlinarith

theorem atMost_of_chain : ∀ {cs : List ℕ} {c : ℕ} {x : ℝ},
    c * (1 + 1 / 2 ^ 88) ≤ 2 ^ 128 * x → (c :: cs).IsChain Squares → AtMost x (c :: cs)
  | [], c, x, h, _ => by
    have : (0 : ℝ) ≤ c := Nat.cast_nonneg c
    exact ⟨le_trans (by nlinarith) h, trivial⟩
  | c' :: cs, c, x, h, hchain => by
    obtain ⟨hsq, htail⟩ := List.isChain_cons_cons.mp hchain
    have hc : (0 : ℝ) ≤ c := Nat.cast_nonneg c
    refine ⟨le_trans (by nlinarith) h, atMost_of_chain ?_ htail⟩
    have hsq' : (c' : ℝ) * 2 ^ 216 ≤ c * c * (2 ^ 88 + 1) := by exact_mod_cast hsq.2
    have hmul : (c * (1 + 1 / 2 ^ 88)) * (c * (1 + 1 / 2 ^ 88)) ≤ (2 ^ 128 * x) * (2 ^ 128 * x) :=
      mul_self_le_mul_self (by positivity) h
    nlinarith

theorem chain_decayFactors : decayFactors.IsChain Squares := by decide +kernel

/-! ## The product of the factors -/

/-- The product over the set bits of `n` is at least the `n`-th power of the lower bound, less one
unit for each cut. -/
theorem le_decay : ∀ {cs : List ℕ} {x : ℝ} {n : ℕ} (acc : ℕ), 0 ≤ x → x ≤ 1 → AtLeast x cs →
    n < 2 ^ cs.length → acc * x ^ n - cs.length ≤ decay cs n acc
  | [], x, n, acc, _, _, _, hn => by
    obtain rfl : n = 0 := by simpa using hn
    simp [decay]
  | c :: cs, x, n, acc, hx, hx1, ⟨hc, hcs⟩, hn => by
    have hn2 : n / 2 < 2 ^ cs.length := by
      rw [List.length_cons, pow_succ] at hn
      omega
    have hpow : x ^ n = x ^ (n % 2) * (x ^ 2) ^ (n / 2) := by
      rw [← pow_mul, ← pow_add, Nat.mod_add_div]
    have hp0 : 0 ≤ (x ^ 2) ^ (n / 2) := by positivity
    have hp1 : (x ^ 2) ^ (n / 2) ≤ 1 := pow_le_one₀ (by positivity) (pow_le_one₀ hx hx1)
    unfold decay
    refine le_trans ?_ (le_decay _ (sq_nonneg x) (pow_le_one₀ hx hx1) hcs hn2)
    rw [hpow, List.length_cons]
    push_cast
    rcases Nat.mod_two_eq_zero_or_one n with h | h
    · rw [h, if_neg (by norm_num), pow_zero, one_mul]
      linarith
    · rw [h, if_pos rfl, pow_one]
      -- the cut product is above the exact one less a unit
      have hcut : (acc : ℝ) * x - 1 ≤ (acc * c / pow2 128 : ℕ) := by
        have h1 := Nat.lt_div_mul_add (a := acc * c) (pow2_pos 128)
        have h2 : ((acc * c : ℕ) : ℝ) < ((acc * c / pow2 128 * pow2 128 + pow2 128 : ℕ) : ℝ) := by
          exact_mod_cast h1
        push_cast [cast_pow2] at h2
        have h3 : (acc : ℝ) * (2 ^ 128 * x) ≤ acc * c :=
          mul_le_mul_of_nonneg_left hc (Nat.cast_nonneg acc)
        nlinarith
      nlinarith

/-- The product over the set bits of `n` is at most the `n`-th power of the upper bound. -/
theorem decay_le : ∀ {cs : List ℕ} {x : ℝ} {n : ℕ} (acc : ℕ), 0 ≤ x → AtMost x cs →
    n < 2 ^ cs.length → (decay cs n acc : ℝ) ≤ acc * x ^ n
  | [], x, n, acc, _, _, hn => by
    obtain rfl : n = 0 := by simpa using hn
    simp [decay]
  | c :: cs, x, n, acc, hx, ⟨hc, hcs⟩, hn => by
    have hn2 : n / 2 < 2 ^ cs.length := by
      rw [List.length_cons, pow_succ] at hn
      omega
    have hpow : x ^ n = x ^ (n % 2) * (x ^ 2) ^ (n / 2) := by
      rw [← pow_mul, ← pow_add, Nat.mod_add_div]
    have hp0 : 0 ≤ (x ^ 2) ^ (n / 2) := by positivity
    unfold decay
    refine (decay_le _ (sq_nonneg x) hcs hn2).trans ?_
    rw [hpow, ← mul_assoc]
    refine mul_le_mul_of_nonneg_right ?_ hp0
    rcases Nat.mod_two_eq_zero_or_one n with h | h
    · rw [h, if_neg (by norm_num)]
      simp
    · rw [h, if_pos rfl, pow_one]
      have h1 := Nat.div_mul_le_self (acc * c) (pow2 128)
      have h2 : ((acc * c / pow2 128 * pow2 128 : ℕ) : ℝ) ≤ ((acc * c : ℕ) : ℝ) := by
        exact_mod_cast h1
      push_cast [cast_pow2] at h2
      have h3 : (acc : ℝ) * c ≤ acc * (2 ^ 128 * x) :=
        mul_le_mul_of_nonneg_left hc (Nat.cast_nonneg acc)
      have h4 : (0 : ℝ) < 2 ^ 128 := by positivity
      nlinarith

/-! ## Logarithms -/

/-- The logarithm of the factor between the square-root prices of neighbouring ticks. -/
noncomputable def logTick : ℝ := log 1.0001 / 2

/-- Three terms of the series give `logTick` to one part in `10 ^ 11`. -/
theorem abs_logTick_sub_le : |logTick - 0.000049997500166666666| ≤ 0.0000000000000001 := by
  have h := abs_log_sub_add_sum_range_le (x := -0.0001) (by rw [abs_lt]; constructor <;> norm_num) 3
  have e : (1 : ℝ) - -0.0001 = 1.0001 := by norm_num
  rw [e, abs_of_neg (by norm_num : (-0.0001 : ℝ) < 0)] at h
  norm_num [Finset.sum_range_succ] at h
  rw [abs_le] at h ⊢
  unfold logTick
  constructor <;> norm_num at h ⊢ <;> linarith [h.1, h.2]

theorem logTick_pos : 0 < logTick := by
  have := (abs_le.mp abs_logTick_sub_le).1
  linarith

/-- The first factor of the table, with room for the error of the chain, is within `2 ^ -85` of
`1.0001 ^ (-1 / 2)` on either side. -/
theorem log_first_factor {x : ℝ} (hx : 0 < x) (h1 : 1 - 1 / 2 ^ 86 ≤ x ^ 2 * 1.0001)
    (h2 : x ^ 2 * 1.0001 ≤ 1 + 1 / 2 ^ 86) : |log x + logTick| ≤ 1 / 2 ^ 86 := by
  have e : log (x ^ 2 * 1.0001) = 2 * (log x + logTick) := by
    rw [log_mul (by positivity) (by norm_num), log_pow, logTick]
    push_cast
    ring
  have hpos : 0 < x ^ 2 * 1.0001 := by positivity
  have hup := log_le_sub_one_of_pos hpos
  have hlow := one_sub_inv_le_log_of_pos hpos
  have hinv : (x ^ 2 * 1.0001)⁻¹ ≤ 1 + 1 / 2 ^ 85 := by
    rw [inv_le_comm₀ hpos (by positivity)]
    refine le_trans ?_ h1
    rw [inv_le_comm₀ (by positivity) (by norm_num)]
    norm_num
  rw [e] at hup hlow
  rw [abs_le]
  constructor <;> nlinarith

/-- The lower power stays so large that the units lost in the cuts do not count. -/
theorem log_sub_cuts {u : ℝ} (hu : 2 ^ 60 ≤ u) : log u - 1 / 2 ^ 50 ≤ log (u - 20) := by
  have hu0 : 0 < u := lt_of_lt_of_le (by positivity) hu
  have hcut : 0 < u - 20 := by linarith [hu, (by norm_num : (20 : ℝ) < 2 ^ 60)]
  have hpos : (0 : ℝ) < 1 - 1 / 2 ^ 52 := by norm_num
  have h1 : u * (1 - 1 / 2 ^ 52) ≤ u - 20 := by nlinarith
  have h2 := log_le_log (by positivity) h1
  have h3 := one_sub_inv_le_log_of_pos hpos
  rw [log_mul hu0.ne' hpos.ne'] at h2
  norm_num at h3 ⊢
  norm_num at h2
  linarith

/-- The product of the factors is a power of `1.0001 ^ (-1 / 2)`. -/
theorem abs_log_decay_sub_le {n : ℕ} (hn : n ≤ 887272) :
    |log (decay decayFactors n (pow2 128)) - (128 * log 2 - n * logTick)| ≤ 1 / 2 ^ 40 := by
  obtain ⟨lo, hlo⟩ : ∃ lo : ℝ, lo =
    0xfffcb933bd6fad37aa2d162d1a594001 * (1 - 1 / 2 ^ 88) / 2 ^ 128 := ⟨_, rfl⟩
  obtain ⟨hi, hhi⟩ : ∃ hi : ℝ, hi =
    0xfffcb933bd6fad37aa2d162d1a594001 * (1 + 1 / 2 ^ 88) / 2 ^ 128 := ⟨_, rfl⟩
  have hlo0 : 0 < lo := by rw [hlo]; norm_num
  have hhi0 : 0 < hi := by rw [hhi]; norm_num
  have hlo1 : lo ≤ 1 := by rw [hlo]; norm_num
  have hlogLo : |log lo + logTick| ≤ 1 / 2 ^ 86 :=
    log_first_factor hlo0 (by rw [hlo]; norm_num) (by rw [hlo]; norm_num)
  have hlogHi : |log hi + logTick| ≤ 1 / 2 ^ 86 :=
    log_first_factor hhi0 (by rw [hhi]; norm_num) (by rw [hhi]; norm_num)
  have hlen : n < 2 ^ decayFactors.length := lt_of_le_of_lt hn (by decide)
  have hAtLeast : AtLeast lo decayFactors :=
    atLeast_of_chain hlo0.le (by rw [hlo]; norm_num) chain_decayFactors
  have hAtMost : AtMost hi decayFactors :=
    atMost_of_chain (by rw [hhi]; norm_num) chain_decayFactors
  have hge := le_decay (pow2 128) hlo0.le hlo1 hAtLeast hlen
  have hle := decay_le (pow2 128) hhi0.le hAtMost hlen
  rw [cast_pow2] at hge hle
  have hn' : (n : ℝ) ≤ 887272 := by exact_mod_cast hn
  have hn0 : (0 : ℝ) ≤ n := Nat.cast_nonneg n
  have hlog2 := log_two_gt_d9
  obtain ⟨hT1, hT2⟩ := abs_le.mp abs_logTick_sub_le
  obtain ⟨hL1, -⟩ := abs_le.mp hlogLo
  obtain ⟨-, hH2⟩ := abs_le.mp hlogHi
  have hloN : -(n * logTick) - 1 / 2 ^ 60 ≤ n * log lo := by nlinarith
  have hhiN : n * log hi ≤ -(n * logTick) + 1 / 2 ^ 60 := by nlinarith
  have hnT : n * logTick ≤ 44.4 := by nlinarith
  have hlogU : log (2 ^ 128 * lo ^ n) = 128 * log 2 + n * log lo := by
    rw [log_mul (by positivity) (by positivity), log_pow, log_pow]
    push_cast
    ring
  have hbig : 2 ^ 60 ≤ 2 ^ 128 * lo ^ n := by
    rw [← log_le_log_iff (by positivity) (by positivity), hlogU, log_pow]
    push_cast
    linarith
  have hcuts : (2 : ℝ) ^ 128 * lo ^ n - 20 ≤ decay decayFactors n (pow2 128) := hge
  have hpos : (0 : ℝ) < 2 ^ 128 * lo ^ n - 20 := by linarith
  have h1 := (log_sub_cuts hbig).trans (log_le_log hpos hcuts)
  have h2 := log_le_log (hpos.trans_le hcuts) hle
  rw [hlogU] at h1
  rw [log_mul (by positivity) (by positivity), log_pow, log_pow] at h2
  push_cast at h2
  rw [abs_le]
  constructor <;> linarith

/-- Rounding a number moves its logarithm by one part in it. -/
theorem abs_log_sub_log_le {u : ℝ} {m : ℕ} (hu : 2 ^ 30 ≤ u) (h1 : u - 1 ≤ m) (h2 : m ≤ u + 1) :
    |log m - log u| ≤ 1 / 2 ^ 29 := by
  have hu0 : 0 < u := lt_of_lt_of_le (by positivity) hu
  have hm0 : (0 : ℝ) < m := by linarith
  have hquot : log m - log u = log (m / u) := (log_div hm0.ne' hu0.ne').symm
  have hup := log_le_sub_one_of_pos (div_pos hm0 hu0)
  have hlow := one_sub_inv_le_log_of_pos (div_pos hm0 hu0)
  have h3 : (m : ℝ) / u ≤ 1 + 1 / 2 ^ 29 := by
    rw [div_le_iff₀ hu0]
    nlinarith
  have h4 : ((m : ℝ) / u)⁻¹ ≤ 1 + 1 / 2 ^ 29 := by
    rw [inv_div, div_le_iff₀ hm0]
    nlinarith
  rw [hquot, abs_le]
  constructor <;> linarith

/-- So an integer next to a number of known logarithm has nearly that logarithm. -/
theorem abs_log_sub_le_of_near {u c : ℝ} {m : ℕ} (hu0 : 0 < u) (hc : 22 ≤ c)
    (hu : |log u - c| ≤ 1 / 2 ^ 40) (h1 : u - 1 ≤ m) (h2 : m ≤ u + 1) :
    |log m - c| ≤ 1 / 2 ^ 28 := by
  obtain ⟨hu1, hu2⟩ := abs_le.mp hu
  have hbig : 2 ^ 30 ≤ u := by
    have hlog2 := log_two_lt_d9
    rw [← log_le_log_iff (by positivity) hu0, log_pow]
    push_cast
    linarith
  obtain ⟨hr1, hr2⟩ := abs_le.mp (abs_log_sub_log_le hbig h1 h2)
  rw [abs_le]
  constructor <;> linarith

/-- A ceiling over `2 ^ 32` is within one of the quotient. -/
theorem div_ceil_bounds (a : ℕ) : (a : ℝ) / 2 ^ 32 ≤ Rounding.ceil.div a (pow2 32) ∧
    (Rounding.ceil.div a (pow2 32) : ℝ) ≤ a / 2 ^ 32 + 1 := by
  have h1 := Rounding.le_div_ceil_mul (pow2_pos 32) a
  have h2 := (Rounding.div_ceil_mul_lt (pow2_pos 32) a).le
  have h1' : (a : ℝ) ≤ ((Rounding.ceil.div a (pow2 32) * pow2 32 : ℕ) : ℝ) := by exact_mod_cast h1
  have h2' : ((Rounding.ceil.div a (pow2 32) * pow2 32 : ℕ) : ℝ) ≤ ((a + pow2 32 : ℕ) : ℝ) := by
    exact_mod_cast h2
  push_cast [cast_pow2] at h1' h2'
  constructor
  · rw [div_le_iff₀ (by positivity)]
    exact h1'
  · rw [← sub_le_iff_le_add, le_div_iff₀ (by positivity)]
    linarith

/-- A lower tick rounds the product up. -/
theorem ratioAt_of_nonpos {t : ℤ} (ht : ¬ 0 < t) :
    (decay decayFactors t.natAbs (pow2 128) : ℝ) / 2 ^ 32 ≤ ratioAt t ∧
      (ratioAt t : ℝ) ≤ decay decayFactors t.natAbs (pow2 128) / 2 ^ 32 + 1 := by
  have h := div_ceil_bounds (decay decayFactors t.natAbs (pow2 128))
  unfold ratioAt
  simpa only [if_neg ht] using h

/-- An upper tick inverts the product, cuts the quotient and rounds it up. -/
theorem ratioAt_of_pos {t : ℤ} (ht : 0 < t) (hD : 0 < decay decayFactors t.natAbs (pow2 128)) :
    2 ^ 224 / (decay decayFactors t.natAbs (pow2 128) : ℝ) - 1 ≤ ratioAt t ∧
      (ratioAt t : ℝ) ≤ 2 ^ 224 / decay decayFactors t.natAbs (pow2 128) + 1 := by
  set D := decay decayFactors t.natAbs (pow2 128) with hDdef
  have h : ratioAt t = Rounding.ceil.div (maxUInt256 / D) (pow2 32) := by
    unfold ratioAt
    simp only [if_pos ht, ← hDdef]
  obtain ⟨h1, h2⟩ := div_ceil_bounds (maxUInt256 / D)
  have hD' : (0 : ℝ) < D := by exact_mod_cast hD
  have hmax : maxUInt256 + 1 = 2 ^ 256 := by decide
  have hcut : 2 ^ 256 / (D : ℝ) - 1 ≤ (maxUInt256 / D : ℕ) := by
    have h3 := Nat.lt_div_mul_add (a := maxUInt256) hD
    have h4 : ((2 ^ 256 : ℕ) : ℝ) ≤ ((maxUInt256 / D * D + D : ℕ) : ℝ) := by
      exact_mod_cast (by omega : 2 ^ 256 ≤ maxUInt256 / D * D + D)
    push_cast at h4
    rw [sub_le_iff_le_add, div_le_iff₀ hD']
    linarith
  have hmul : ((maxUInt256 / D : ℕ) : ℝ) ≤ 2 ^ 256 / D := by
    have h3 := Nat.div_mul_le_self maxUInt256 D
    have h4 : ((maxUInt256 / D * D : ℕ) : ℝ) ≤ ((2 ^ 256 : ℕ) : ℝ) := by
      exact_mod_cast (by omega : maxUInt256 / D * D ≤ 2 ^ 256)
    push_cast at h4
    rw [le_div_iff₀ hD']
    linarith
  have e : (2 : ℝ) ^ 224 / D = 2 ^ 256 / D / 2 ^ 32 := by ring
  rw [h, e]
  constructor <;> linarith

/-- **The square-root price of a tick** is `2 ^ 96 * 1.0001 ^ (t / 2)`, up to one part in
`2 ^ 28`. -/
theorem abs_log_ratioAt_sub_le {t : ℤ} (h1 : minTick ≤ t) (h2 : t ≤ maxTick) :
    |log (ratioAt t) - (96 * log 2 + t * logTick)| ≤ 1 / 2 ^ 28 := by
  unfold minTick at h1
  unfold maxTick at h2
  have hn : t.natAbs ≤ 887272 := by omega
  have hlogD := abs_log_decay_sub_le hn
  obtain ⟨D, hD⟩ : ∃ D, D = decay decayFactors t.natAbs (pow2 128) := ⟨_, rfl⟩
  rw [← hD] at hlogD
  obtain ⟨hl1, hl2⟩ := abs_le.mp hlogD
  obtain ⟨hT1, hT2⟩ := abs_le.mp abs_logTick_sub_le
  have hlog2 := log_two_gt_d9
  have hc : 22 ≤ 96 * log 2 + t * logTick := by
    have : (-887272 : ℝ) ≤ t := by exact_mod_cast h1
    nlinarith
  have hD0 : (0 : ℝ) < D := by
    have hn' : (t.natAbs : ℝ) ≤ 887272 := by exact_mod_cast hn
    refine (Nat.cast_nonneg D).lt_of_ne fun h => ?_
    rw [← h, log_zero] at hl1
    nlinarith
  by_cases ht : 0 < t
  · obtain ⟨hb1, hb2⟩ := ratioAt_of_pos ht (by rw [← hD]; exact_mod_cast hD0)
    rw [← hD] at hb1 hb2
    refine abs_log_sub_le_of_near (by positivity) hc ?_ hb1 hb2
    rw [Nat.cast_natAbs, abs_of_pos ht] at hl1 hl2
    rw [log_div (by positivity) hD0.ne', log_pow, abs_le]
    push_cast
    constructor <;> linarith
  · obtain ⟨hb1, hb2⟩ := ratioAt_of_nonpos ht
    rw [← hD] at hb1 hb2
    refine abs_log_sub_le_of_near (by positivity) hc ?_ (by linarith) hb2
    rw [Nat.cast_natAbs, abs_of_nonpos (not_lt.mp ht), Int.cast_neg] at hl1 hl2
    rw [log_div hD0.ne' (by positivity), log_pow, abs_le]
    push_cast
    constructor <;> linarith

theorem ratioAt_pos {t : ℤ} (h1 : minTick ≤ t) (h2 : t ≤ maxTick) : 0 < ratioAt t := by
  by_contra h
  have h0 : ratioAt t = 0 := by omega
  have hlog := (abs_le.mp (abs_log_ratioAt_sub_le h1 h2)).1
  obtain ⟨hT1, hT2⟩ := abs_le.mp abs_logTick_sub_le
  have ht : (-887272 : ℝ) ≤ t := by exact_mod_cast h1
  have hlog2 := log_two_gt_d9
  rw [h0, Nat.cast_zero, log_zero] at hlog
  nlinarith

/-- **The grid is strictly increasing.** -/
theorem ratioAt_lt_ratioAt {s t : ℤ} (hs : minTick ≤ s) (hst : s < t) (ht : t ≤ maxTick) :
    ratioAt s < ratioAt t := by
  have h1 := abs_le.mp (abs_log_ratioAt_sub_le hs (by omega))
  have h2 := abs_le.mp (abs_log_ratioAt_sub_le (by omega) ht)
  have hT := (abs_le.mp abs_logTick_sub_le).1
  have hst' : (s : ℝ) + 1 ≤ t := by exact_mod_cast hst
  have hgap : s * logTick + logTick ≤ t * logTick := by nlinarith [logTick_pos]
  have hlog : log (ratioAt s) < log (ratioAt t) := by linarith [h1.2, h2.1]
  have hpos : (0 : ℝ) < ratioAt s := by exact_mod_cast ratioAt_pos hs (by omega)
  have hpos' : (0 : ℝ) < ratioAt t := by exact_mod_cast ratioAt_pos (by omega) ht
  exact_mod_cast (log_lt_log_iff hpos hpos').mp hlog

end Clamm
