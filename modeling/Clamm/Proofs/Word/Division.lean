import Mathlib
import Clamm.Word.Division

/-!
# Division on words is exact

`Word.mulDiv` gives the quotient of the full product of two words, rounded, whenever that is a word,
and overflows otherwise. Three facts carry it.

* `toNat_fullProduct`: the two words recovered from the residues are the product.
* `mul_inverse`: six rounds of Newton's iteration invert an odd word. The error `1 - d * x` of an
  approximation is squared in a round (`refine_dvd`), so the powers of two in it double, from four
  in the seed to `2 ^ 256`, which is zero.
* `Wide.toNat_exactQuotient`: shifting the powers of two out of a multiple of `d` and multiplying by
  the inverse of what is left of `d` divides by `d`.

From them `mulDiv_exact`, against the rationals.
-/

namespace Clamm

/-- The integer around a number that a rounding takes. -/
def Rounding.of : Rounding → ℚ → ℕ
  | floor, x => ⌊x⌋₊
  | ceil, x => ⌈x⌉₊

/-- A rounded division is the rounded quotient. -/
theorem Rounding.of_div (r : Rounding) (a : ℕ) {b : ℕ} (hb : 0 < b) :
    r.of ((a : ℚ) / b) = r.div a b := by
  cases r with
  | floor => exact Nat.floor_div_eq_div a b
  | ceil =>
    refine eq_of_forall_ge_iff fun q => ?_
    rw [Rounding.of, Nat.ceil_le, div_le_iff₀ (by exact_mod_cast hb), div_ceil_le_iff hb]
    exact_mod_cast Iff.rfl

namespace Word

variable {a b d x y : Word}

theorem toNat_pos (hd : d ≠ 0) : 0 < d.toNat :=
  Nat.pos_of_ne_zero fun h => hd (BitVec.eq_of_toNat_eq h)

/-! ## The full product -/

theorem toNat_mulMod (hd : d ≠ 0) (a b : Word) :
    (mulMod a b d).toNat = a.toNat * b.toNat % d.toNat := by
  rw [mulMod, BitVec.toNat_ofNat]
  exact Nat.mod_eq_of_lt ((Nat.mod_lt _ (toNat_pos hd)).trans d.isLt)

theorem toNat_greatest : greatest.toNat = 2 ^ 256 - 1 := rfl

/-- Below its base by one, a number is congruent to the sum of its digits. -/
theorem digits_mod (q r m : ℕ) : (q * (m + 1) + r) % m = (q + r) % m := by
  rw [Nat.mul_succ, Nat.add_assoc, Nat.add_comm, Nat.mul_comm, Nat.add_mul_mod_self_left]

/-- **The two words are the product.** -/
theorem toNat_fullProduct (a b : Word) : (fullProduct a b).toNat = a.toNat * b.toNat := by
  have ha := a.isLt
  have hb := b.isLt
  have hlow : (a * b).toNat = a.toNat * b.toNat % 2 ^ 256 := BitVec.toNat_mul a b
  have hsplit := Nat.div_add_mod' (a.toNat * b.toNat) (2 ^ 256)
  have hresidue : (mulMod a b greatest).toNat =
      (a.toNat * b.toNat / 2 ^ 256 + a.toNat * b.toNat % 2 ^ 256) % (2 ^ 256 - 1) := by
    rw [toNat_mulMod (by decide), toNat_greatest, ← digits_mod]
    exact congrArg (· % (2 ^ 256 - 1)) hsplit.symm
  have hquotient : a.toNat * b.toNat / 2 ^ 256 < 2 ^ 256 - 1 := by
    rw [Nat.div_lt_iff_lt_mul (by positivity)]
    calc a.toNat * b.toNat ≤ (2 ^ 256 - 1) * (2 ^ 256 - 1) :=
          Nat.mul_le_mul (Nat.le_pred_of_lt ha) (Nat.le_pred_of_lt hb)
      _ < (2 ^ 256 - 1) * 2 ^ 256 := by norm_num
  have hdigit := Nat.mod_lt (a.toNat * b.toNat) (show 0 < 2 ^ 256 by positivity)
  generalize a.toNat * b.toNat = p at *
  generalize p / 2 ^ 256 = q at *
  generalize p % 2 ^ 256 = r at *
  -- the digits add up to less than twice the modulus, so the residue borrows at most once
  have hhigh : (fullProduct a b).high.toNat = q := by
    simp only [fullProduct]
    generalize mulMod a b greatest = residue at *
    generalize a * b = low at *
    split <;> rename_i hborrow <;> rw [BitVec.lt_def] at hborrow
    · rw [BitVec.toNat_sub, BitVec.toNat_sub, show (1 : Word).toNat = 1 from rfl]
      omega
    · rw [BitVec.toNat_sub]
      omega
  rw [← hsplit, Wide.toNat, hhigh]
  exact congrArg _ hlow

/-! ## The power of two in a word -/

/-- An odd number and its complement have only the lowest bit in common. -/
theorem odd_and_two_pow_sub {j m : ℕ} (h : 2 * j + 1 < 2 ^ m) :
    (2 * j + 1) &&& (2 ^ m - (2 * j + 1)) = 1 := by
  have hm : 0 < m := Nat.pos_of_ne_zero fun h0 => by subst h0; omega
  refine Nat.eq_of_testBit_eq fun i => ?_
  rw [Nat.testBit_and, Nat.testBit_two_pow_sub_succ (Nat.lt_of_succ_lt h)]
  cases i with
  | zero => simp [hm]
  | succ i =>
    simp only [Nat.testBit_succ, show (2 * j + 1) / 2 = j by omega, show 2 * j / 2 = j by omega]
    cases j.testBit i <;> simp

theorem exists_lowestBit (hd : d ≠ 0) : ∃ k j, k < 256 ∧
    d.toNat = 2 ^ k * (2 * j + 1) ∧ (lowestBit d).toNat = 2 ^ k := by
  have hpos := toNat_pos hd
  obtain ⟨k, o, ⟨j, rfl⟩, hk⟩ := Nat.exists_eq_two_pow_mul_odd hpos.ne'
  have hlt := d.isLt
  have hk256 : k < 256 := by
    rw [← Nat.pow_lt_pow_iff_right one_lt_two]
    exact (hk ▸ Nat.le_mul_of_pos_right _ (Nat.succ_pos _)).trans_lt hlt
  have hpow : 2 ^ 256 = 2 ^ k * 2 ^ (256 - k) := by rw [← pow_add, Nat.add_sub_cancel' hk256.le]
  have hj : 2 * j + 1 < 2 ^ (256 - k) := by
    rw [hk, hpow] at hlt
    exact lt_of_mul_lt_mul_left hlt (Nat.zero_le _)
  refine ⟨k, j, hk256, hk, ?_⟩
  rw [lowestBit, BitVec.toNat_and, BitVec.toNat_neg, Nat.mod_eq_of_lt (by omega), hk, hpow,
    ← Nat.mul_sub]
  simp only [mul_comm (2 ^ k), ← Nat.shiftLeft_eq]
  rw [← Nat.shiftLeft_and_distrib, odd_and_two_pow_sub hj, Nat.one_shiftLeft]

/-! ## The inverse of an odd word -/

/-- A round squares the error. -/
theorem refine_dvd {n : ℕ} (h : (2 : Word) ^ n ∣ 1 - d * x) :
    (2 : Word) ^ (n + n) ∣ 1 - d * refine d x := by
  have hsq : 1 - d * refine d x = (1 - d * x) * (1 - d * x) := by
    unfold refine
    ring
  rw [hsq, pow_add]
  exact mul_dvd_mul h h

theorem refined_dvd (n : ℕ) {m : ℕ} {x : Word} (h : (2 : Word) ^ m ∣ 1 - d * x) :
    (2 : Word) ^ (2 ^ n * m) ∣ 1 - d * refined d n x := by
  induction n generalizing m x with
  | zero => rwa [pow_zero, one_mul]
  | succ n ih =>
    have := ih (refine_dvd h)
    rwa [← two_mul, ← mul_assoc, ← pow_succ] at this

theorem dvd_one_sub (h : y.toNat % 16 = 1) : (2 : Word) ^ 4 ∣ 1 - y := by
  obtain ⟨c, hc⟩ : ∃ c, y.toNat = 16 * c + 1 := ⟨y.toNat / 16, by omega⟩
  have hy : y = 16 * BitVec.ofNat 256 c + 1 := by
    refine BitVec.eq_of_toNat_eq ?_
    have := y.isLt
    rw [BitVec.toNat_add, BitVec.toNat_mul, BitVec.toNat_ofNat, show (16 : Word).toNat = 16 from rfl,
      show (1 : Word).toNat = 1 from rfl]
    omega
  rw [hy]
  exact ⟨-BitVec.ofNat 256 c, by ring⟩

/-- The seed is an inverse modulo 16. -/
theorem seed_dvd (hd : d.toNat % 2 = 1) : (2 : Word) ^ 4 ∣ 1 - d * (3 * d ^^^ 2) := by
  have hseed : (3 * d ^^^ 2).toNat % 16 = (3 * (d.toNat % 16) % 16) ^^^ 2 := by
    rw [show 16 = 2 ^ 4 from rfl, BitVec.toNat_xor, Nat.xor_mod_two_pow, BitVec.toNat_mul,
      Nat.mod_mod_of_dvd _ (by decide), Nat.mul_mod]
    rfl
  have hclasses : ∀ e < 16, e % 2 = 1 → e * ((3 * e % 16) ^^^ 2) % 16 = 1 := by decide
  refine dvd_one_sub ?_
  rw [BitVec.toNat_mul, Nat.mod_mod_of_dvd _ (by decide), Nat.mul_mod, hseed]
  exact hclasses _ (Nat.mod_lt _ (by decide)) (by omega)

/-- **Six rounds invert an odd word.** -/
theorem mul_inverse (hd : d.toNat % 2 = 1) : d * inverse d = 1 := by
  have h := refined_dvd 6 (seed_dvd hd)
  rw [show (2 : Word) ^ (2 ^ 6 * 4) = 0 by decide +kernel] at h
  exact (sub_eq_zero.mp (zero_dvd_iff.mp h)).symm

/-! ## Division of two words by one -/

namespace Wide

theorem toNat_sub {x : Wide} (h : y.toNat ≤ x.toNat) : (x.sub y).toNat = x.toNat - y.toNat := by
  have hlow := x.low.isLt
  have hhigh := x.high.isLt
  have hy := y.isLt
  simp only [toNat, sub, show pow2 256 = 2 ^ 256 from rfl, BitVec.lt_def, BitVec.toNat_sub] at h ⊢
  split
  · rw [BitVec.toNat_sub, show (1 : Word).toNat = 1 from rfl]
    omega
  · omega

/-- A number in two words shifted down, as far as one word holds it. -/
theorem toNat_shifted {x : Wide} {twos : Word} {k : ℕ} (hk : k < 256) (htwos : twos.toNat = 2 ^ k) :
    (x.low / twos ||| x.high * (-twos / twos + 1)).toNat = x.toNat / 2 ^ k % 2 ^ 256 := by
  have hpow : 2 ^ 256 = 2 ^ (256 - k) * 2 ^ k := by rw [← pow_add, Nat.sub_add_cancel hk.le]
  have hpos : 0 < 2 ^ k := by positivity
  have hlow : x.low.toNat / 2 ^ k < 2 ^ (256 - k) := by
    rw [Nat.div_lt_iff_lt_mul hpos, ← hpow]
    exact x.low.isLt
  have hcarry : (-twos / twos + 1).toNat = 2 ^ (256 - k) % 2 ^ 256 := by
    have hneg : (-twos).toNat = (2 ^ (256 - k) - 1) * 2 ^ k := by
      have hlt : 2 ^ k < 2 ^ 256 := Nat.pow_lt_pow_right one_lt_two hk
      rw [BitVec.toNat_neg, htwos, Nat.mod_eq_of_lt (by omega), Nat.sub_one_mul, ← hpow]
    rw [BitVec.toNat_add, BitVec.toNat_udiv, hneg, htwos, Nat.mul_div_cancel _ hpos,
      show (1 : Word).toNat = 1 from rfl, Nat.sub_add_cancel Nat.one_le_two_pow]
  have hhigh : (x.high * (-twos / twos + 1)).toNat = 2 ^ (256 - k) * (x.high.toNat % 2 ^ k) := by
    rw [BitVec.toNat_mul, hcarry, Nat.mul_mod_mod, mul_comm, hpow, Nat.mul_mod_mul_left]
  have hquotient : x.toNat / 2 ^ k = 2 ^ (256 - k) * x.high.toNat + x.low.toNat / 2 ^ k := by
    rw [toNat, show pow2 256 = 2 ^ 256 from rfl, hpow, ← mul_assoc, add_comm,
      Nat.add_mul_div_right _ _ hpos, mul_comm, add_comm]
  -- the shifted low word fills the bits that the carried high word leaves
  rw [BitVec.toNat_or, BitVec.toNat_udiv, htwos, hhigh, Nat.or_comm,
    ← Nat.two_pow_add_eq_or_of_lt hlow, hquotient, hpow, Nat.mod_mul, Nat.mul_add_mod,
    Nat.mod_eq_of_lt hlow, Nat.mul_add_div (by positivity), Nat.div_eq_of_lt hlow, add_zero,
    add_comm]

/-- **Division by a divisor**, with a quotient of one word. -/
theorem toNat_exactQuotient {x : Wide} {q : ℕ} (hd : d ≠ 0) (hq : q < 2 ^ 256)
    (h : x.toNat = q * d.toNat) : (x.exactQuotient d).toNat = q := by
  obtain ⟨k, j, hk, hdk, htwos⟩ := exists_lowestBit hd
  have hodd : (d / lowestBit d).toNat = 2 * j + 1 := by
    rw [BitVec.toNat_udiv, htwos, hdk, Nat.mul_div_cancel_left _ (by positivity)]
  have hshift : x.low / lowestBit d ||| x.high * (-lowestBit d / lowestBit d + 1) =
      BitVec.ofNat 256 q * (d / lowestBit d) := by
    refine BitVec.eq_of_toNat_eq ?_
    rw [toNat_shifted hk htwos, h, hdk, mul_left_comm, Nat.mul_div_cancel_left _ (by positivity),
      BitVec.toNat_mul, hodd, BitVec.toNat_ofNat, Nat.mod_eq_of_lt hq]
  rw [exactQuotient, hshift, mul_assoc, mul_inverse (by omega), mul_one, BitVec.toNat_ofNat,
    Nat.mod_eq_of_lt hq]

end Wide

/-! ## Rounded quotients -/

theorem mulDivDown_eq (hd : d ≠ 0) : mulDivDown a b d =
    if a.toNat * b.toNat / d.toNat < 2 ^ 256 then
      .ok (BitVec.ofNat 256 (a.toNat * b.toNat / d.toNat))
    else .error (.arithmetic .overflow) := by
  have hpos := toNat_pos hd
  have hx := toNat_fullProduct a b
  have hrest : (mulMod a b d).toNat = a.toNat * b.toNat % d.toNat := toNat_mulMod hd a b
  simp only [mulDivDown, if_neg hd]
  generalize a.toNat * b.toNat = p at *
  generalize fullProduct a b = x at *
  have hlow := x.low.isLt
  have hproduct : x.high.toNat * 2 ^ 256 + x.low.toNat = p := hx
  split
  · -- the product is a word
    rename_i hhigh
    have hp : p = x.low.toNat := by
      rw [← hproduct, hhigh]
      simp
    have hq : p / d.toNat < 2 ^ 256 := (Nat.div_le_self _ _).trans_lt (hp ▸ hlow)
    rw [if_pos hq, hp, ← BitVec.toNat_udiv, BitVec.ofNat_toNat, BitVec.setWidth_eq]
  · split
    · -- as many as `2 ^ 256` divisors fit
      rename_i hle
      have hle' : 2 ^ 256 * d.toNat ≤ p := by
        rw [BitVec.le_def] at hle
        rw [← hproduct, mul_comm]
        exact (Nat.mul_le_mul_right _ hle).trans (Nat.le_add_right _ _)
      rw [if_neg (not_lt.mpr ((Nat.le_div_iff_mul_le hpos).mpr hle'))]
    · rename_i hgt
      have hq : p / d.toNat < 2 ^ 256 := by
        rw [BitVec.le_def, not_le] at hgt
        rw [Nat.div_lt_iff_lt_mul hpos]
        omega
      have hmul : (x.sub (mulMod a b d)).toNat = p / d.toNat * d.toNat := by
        have hle : (mulMod a b d).toNat ≤ x.toNat := by
          rw [hrest, hx]
          exact Nat.mod_le _ _
        rw [Wide.toNat_sub hle, hrest, hx, Nat.div_mul_self_eq_mod_sub_self]
      rw [if_pos hq]
      refine congrArg Except.ok (BitVec.eq_of_toNat_eq ?_)
      rw [Wide.toNat_exactQuotient hd hq hmul, BitVec.toNat_ofNat, Nat.mod_eq_of_lt hq]

theorem mulDivUp_eq (hd : d ≠ 0) : mulDivUp a b d =
    if Rounding.ceil.div (a.toNat * b.toNat) d.toNat < 2 ^ 256 then
      .ok (BitVec.ofNat 256 (Rounding.ceil.div (a.toNat * b.toNat) d.toNat))
    else .error (.arithmetic .overflow) := by
  have hpos := toNat_pos hd
  have hrest : (mulMod a b d).toNat = a.toNat * b.toNat % d.toNat := toNat_mulMod hd a b
  rw [mulDivUp, mulDivDown_eq hd, Rounding.div_ceil hpos]
  generalize a.toNat * b.toNat = p at *
  by_cases hfits : p / d.toNat < 2 ^ 256
  · have hover : 0 < mulMod a b d ↔ p % d.toNat ≠ 0 := by
      rw [BitVec.lt_def, hrest]
      exact Nat.pos_iff_ne_zero
    rw [if_pos hfits, ok_bind]
    by_cases hleft : p % d.toNat = 0
    · rw [if_neg fun h => hover.mp h hleft, if_pos hleft, add_zero, if_pos hfits]
      rfl
    · rw [if_pos (hover.mpr hleft), if_neg hleft]
      -- rounding the greatest word up overflows
      by_cases hlast : p / d.toNat = 2 ^ 256 - 1
      · rw [if_pos (BitVec.eq_of_toNat_eq (by rw [hlast]; rfl)), if_neg (by omega)]
      · have hne : BitVec.ofNat 256 (p / d.toNat) ≠ greatest := fun h => hlast <| by
          rw [← toNat_greatest, ← h, BitVec.toNat_ofNat, Nat.mod_eq_of_lt hfits]
        rw [if_neg hne, if_pos (by omega), BitVec.ofNat_add]
        rfl
  · rw [if_neg hfits, if_neg (by omega)]
    rfl

/-- A division on words, by a word that is not zero. -/
theorem mulDiv_eq (r : Rounding) (hd : d ≠ 0) : mulDiv r a b d =
    if r.div (a.toNat * b.toNat) d.toNat < 2 ^ 256 then
      .ok (BitVec.ofNat 256 (r.div (a.toNat * b.toNat) d.toNat))
    else .error (.arithmetic .overflow) := by
  cases r with
  | floor => exact mulDivDown_eq hd
  | ceil => exact mulDivUp_eq hd

theorem mulDiv_zero (r : Rounding) : mulDiv r a b 0 = .error (.arithmetic .divisionByZero) := by
  cases r <;> rfl

/-- **Division on words is exact.** A zero divisor is refused. Any other divisor gives the rational
quotient of the full product, rounded, if that is a word; if not, the division overflows. -/
theorem mulDiv_exact (r : Rounding) (a b d : Word) : mulDiv r a b d =
    if d = 0 then .error (.arithmetic .divisionByZero)
    else if r.of (a.toNat * b.toNat / d.toNat) < 2 ^ 256 then
      .ok (BitVec.ofNat 256 (r.of (a.toNat * b.toNat / d.toNat)))
    else .error (.arithmetic .overflow) := by
  by_cases hd : d = 0
  · rw [if_pos hd, hd, mulDiv_zero]
  · rw [if_neg hd, mulDiv_eq r hd, ← Rounding.of_div r _ (toNat_pos hd), Nat.cast_mul]

-- The quotient ends in a half: rounded down it is the greatest word, rounded up it is no word.
example :
    mulDiv .floor 535006138814359
        432862656469423142931042426214547535783388063929571229938474969 2 = .ok greatest ∧
      mulDiv .ceil 535006138814359
        432862656469423142931042426214547535783388063929571229938474969 2 =
          .error (.arithmetic .overflow) := by
  decide +kernel

end Word

end Clamm
