import Mathlib
import Clamm.Currency.Price
import Clamm.Proofs.Currency.Fraction
import Clamm.Proofs.Grid.Inverse

/-!
# The closest tick of a price

`Price.closestTick` cuts three times on its way to a tick: a quotient toward zero, a square root and
a logarithm. None of the cuts passes a point of the grid. A square-root price of the grid is a whole
number, so it is at most the square root of a price exactly if it is at most what the first two cuts
leave of it, and `tickAt` is the exact floor of that. Nothing is left for the comparison with the
next tick to correct.

A price of the second token of a pair is turned over: its `pairValue` is the one that the grid
measures.

* `Price.le_pairRoot_iff`: the square-root price of a price, against whole numbers.
* `Price.exists_unreached`: no price reaches the tick after its own, in either order of the tokens.
* `Price.closestTick_eq_ok_iff`: the answers of `closestTick`.
* `Price.closestTick_isFloor`: it is the exact floor on the grid, and the inverse of `Price.ofTick`.
-/

namespace Clamm

/-- An encoded quotient is cut, and so is its root. -/
theorem encode_eq {n d : ℕ} (hd : 0 < d) :
    encode n d = toUnsigned 256 (Nat.sqrt ⌊(n : ℚ) / d * 2 ^ 192⌋₊) := by
  have hfloor : ⌊(n : ℚ) / d * 2 ^ 192⌋₊ = n * pow2 192 / d := by
    rw [← Nat.floor_div_eq_div (K := ℚ), pow2_eq, Nat.cast_mul, Nat.cast_pow, Nat.cast_ofNat,
      div_mul_eq_mul_div]
  unfold encode
  rw [encodeUnbounded_natCast hd, ok_bind, hfloor]

theorem Token.sortsBefore_eq {a b : Token} (hc : a.chain = b.chain) (ha : a.address ≠ b.address) :
    a.sortsBefore b = .ok (decide (a.Before b)) := by
  unfold sortsBefore
  rw [if_neg (not_not.mpr hc), if_neg ha]
  congr 1
  exact decide_eq_decide.mpr ⟨fun h => ⟨hc, h⟩, fun h => h.2⟩

namespace Price

/-- The value of a price in the direction of its pair: units of the second token of the pair per
unit of the first. -/
def pairValue (p : Price) : ℚ :=
  if p.base.Before p.quote then p.ratio.toRat else p.ratio.toRat⁻¹

/-- The square-root price of a price, cut to a whole number. -/
def pairRoot (p : Price) : ℕ := Nat.sqrt ⌊p.pairValue * 2 ^ 192⌋₊

variable {p : Price} {base quote : Token} {k : ℕ} {t : ℤ}

theorem pairValue_pos (h : 0 < p.ratio.toRat) : 0 < p.pairValue := by
  unfold pairValue
  split
  · exact h
  · exact inv_pos.mpr h

/-- **The cuts of a square-root price pass no whole number.** -/
theorem le_pairRoot_iff (h : 0 < p.ratio.toRat) :
    k ≤ p.pairRoot ↔ (k : ℚ) ^ 2 ≤ p.pairValue * 2 ^ 192 := by
  have hnonneg : 0 ≤ p.pairValue * 2 ^ 192 :=
    mul_nonneg (pairValue_pos h).le (pow_nonneg (by norm_num) _)
  unfold pairRoot
  rw [Nat.le_sqrt', Nat.le_floor_iff hnonneg, Nat.cast_pow]

theorem pairRoot_lt_iff (h : 0 < p.ratio.toRat) :
    p.pairRoot < k ↔ p.pairValue * 2 ^ 192 < (k : ℚ) ^ 2 := by
  rw [← not_le, le_pairRoot_iff h, not_le]

/-- Either order of the tokens encodes the value in the direction of the pair. -/
theorem encode_pair (h : 0 < p.ratio.toRat) :
    (if decide (p.base.Before p.quote) = true then encode p.ratio.num p.ratio.den
      else encode p.ratio.den p.ratio.num) = toUnsigned 256 p.pairRoot := by
  obtain ⟨n, hn⟩ := Int.eq_ofNat_of_zero_le (Fraction.toRat_pos_iff.mp h).le
  have hpos : 0 < n := by
    have := Fraction.toRat_pos_iff.mp h
    omega
  have hvalue : p.ratio.toRat = n / p.ratio.den := by
    unfold Fraction.toRat
    rw [hn, Int.cast_natCast]
  unfold pairRoot pairValue
  simp only [decide_eq_true_eq, hn]
  split
  · rw [encode_eq p.ratio.den_pos, hvalue]
  · rw [encode_eq hpos, hvalue, inv_div]

theorem exists_make (base quote : Token) (num : ℤ) {den : ℤ} (h : den ≠ 0) :
    ∃ ratio, make base quote den num = .ok ⟨base, quote, ratio⟩ ∧ ratio.toRat = num / den := by
  obtain ⟨ratio, hratio⟩ : ∃ ratio, Fraction.make num den = .ok ratio := ⟨_, dif_neg h⟩
  refine ⟨ratio, ?_, (Fraction.toRat_make hratio).2⟩
  unfold make
  rw [hratio]
  rfl

/-- A tick has a price in either order of the tokens, and in the direction of the pair that is the
square of its square-root price. -/
theorem exists_ofTick (hc : base.chain = quote.chain) (ha : base.address ≠ quote.address)
    (h1 : minTick ≤ t) (h2 : t ≤ maxTick) :
    ∃ ratio, ofTick base quote t = .ok ⟨base, quote, ratio⟩ ∧ 0 < ratio.toRat ∧
      pairValue ⟨base, quote, ratio⟩ * 2 ^ 192 = (ratioAt t : ℚ) ^ 2 := by
  have hprice : sqrtPriceAt t = .ok (ratioAt t) := sqrtPriceAt_eq_ok_iff.mpr ⟨⟨h1, h2⟩, rfl⟩
  have hpos : (0 : ℚ) < ratioAt t := by exact_mod_cast ratioAt_pos h1 h2
  have hscale : (((pow2 192 : ℕ) : ℤ) : ℚ) = 2 ^ 192 := by
    rw [pow2_eq, Int.cast_natCast, Nat.cast_pow, Nat.cast_ofNat]
  have hsquare : (((ratioAt t : ℤ) * ratioAt t : ℤ) : ℚ) = (ratioAt t : ℚ) ^ 2 := by
    rw [Int.cast_mul, Int.cast_natCast, sq]
  unfold ofTick pairValue
  rw [hprice, ok_bind, Token.sortsBefore_eq hc ha, ok_bind]
  simp only [decide_eq_true_eq]
  generalize ratioAt t = root at hpos hsquare
  split
  · have hne : ((pow2 192 : ℕ) : ℤ) ≠ 0 := by exact_mod_cast (pow2_pos 192).ne'
    obtain ⟨ratio, hratio, hvalue⟩ := exists_make base quote ((root : ℤ) * root) hne
    rw [hscale, hsquare] at hvalue
    refine ⟨ratio, hratio, ?_, ?_⟩
    · rw [hvalue]
      positivity
    · rw [hvalue, div_mul_cancel₀ _ (by positivity)]
  · have hne : (root : ℤ) * root ≠ 0 := by
      have : (root : ℤ) ≠ 0 := by exact_mod_cast hpos.ne'
      exact mul_ne_zero this this
    obtain ⟨ratio, hratio, hvalue⟩ := exists_make base quote (pow2 192 : ℕ) hne
    rw [hscale, hsquare] at hvalue
    refine ⟨ratio, hratio, ?_, ?_⟩
    · rw [hvalue]
      positivity
    · rw [hvalue, inv_div, div_mul_cancel₀ _ (by positivity)]

/-- Whether a price reaches another one of its pair is asked in the direction of the pair. -/
theorem reached_iff {a b : Fraction} (ha : 0 < a.toRat) (hb : 0 < b.toRat) :
    (if decide (base.Before quote) = true then (compare a b).isGE else (compare a b).isLE) = true ↔
      pairValue ⟨base, quote, b⟩ ≤ pairValue ⟨base, quote, a⟩ := by
  unfold pairValue
  simp only [decide_eq_true_eq]
  split
  · rw [Fraction.isGE_compare_iff, Fraction.toRat_le_toRat_iff]
  · rw [Fraction.isLE_compare_iff, inv_le_inv₀ hb ha, Fraction.toRat_le_toRat_iff]

/-- The closest tick is looked for from the square-root price. -/
theorem closestTick_eq (hc : p.base.chain = p.quote.chain) (ha : p.base.address ≠ p.quote.address)
    (h : 0 < p.ratio.toRat) :
    p.closestTick = do
      let tick ← tickAt (← toUnsigned 256 p.pairRoot)
      let above ← ofTick p.base p.quote (tick + 1)
      let reached := if decide (p.base.Before p.quote) = true
        then (compare p.ratio above.ratio).isGE else (compare p.ratio above.ratio).isLE
      return if reached then tick + 1 else tick := by
  unfold closestTick
  rw [Token.sortsBefore_eq hc ha, ok_bind, ← encode_pair h]
  generalize decide (p.base.Before p.quote) = sorted
  cases sorted <;> rfl

/-- **No price reaches the tick after its own**, in either order of the tokens. -/
theorem exists_unreached (hc : p.base.chain = p.quote.chain)
    (ha : p.base.address ≠ p.quote.address) (h : 0 < p.ratio.toRat) (ht : IsTickOf p.pairRoot t) :
    ∃ above, ofTick p.base p.quote (t + 1) = .ok above ∧
      ¬ (if decide (p.base.Before p.quote) = true then (compare p.ratio above.ratio).isGE
        else (compare p.ratio above.ratio).isLE) = true := by
  obtain ⟨above, habove, hpos, hvalue⟩ := exists_ofTick hc ha
    (ht.1.1.trans (Int.le_add_one le_rfl)) (Int.add_one_le_of_lt ht.1.2)
  have hlt := (pairRoot_lt_iff h).mp ht.2.2
  rw [← hvalue] at hlt
  refine ⟨_, habove, mt (reached_iff h hpos).mp (not_le.mpr ?_)⟩
  exact lt_of_mul_lt_mul_right hlt (by positivity)

/-- **The closest tick is the tick of the square-root price.** -/
theorem closestTick_of_isTickOf (hc : p.base.chain = p.quote.chain)
    (ha : p.base.address ≠ p.quote.address) (h : 0 < p.ratio.toRat) (ht : IsTickOf p.pairRoot t) :
    p.closestTick = .ok t := by
  have hroot : toUnsigned 256 p.pairRoot = .ok p.pairRoot :=
    toUnsigned_eq_ok_iff.mpr ⟨ht.range.2.trans (by decide), rfl⟩
  obtain ⟨above, habove, hnot⟩ := exists_unreached hc ha h ht
  rw [closestTick_eq hc ha h, hroot, ok_bind, tickAt_of_isTickOf ht, ok_bind, habove, ok_bind]
  dsimp only
  rw [if_neg hnot]
  rfl

/-- **The answers of `closestTick`.** -/
theorem closestTick_eq_ok_iff (hc : p.base.chain = p.quote.chain)
    (ha : p.base.address ≠ p.quote.address) (h : 0 < p.ratio.toRat) :
    p.closestTick = .ok t ↔ IsTickOf p.pairRoot t := by
  refine ⟨fun hok => ?_, closestTick_of_isTickOf hc ha h⟩
  have hok' := hok
  rw [closestTick_eq hc ha h] at hok
  obtain ⟨root, hroot, hok⟩ := bind_eq_ok_iff.mp hok
  obtain ⟨s, hs, -⟩ := bind_eq_ok_iff.mp hok
  obtain ⟨-, rfl⟩ := toUnsigned_eq_ok_iff.mp hroot
  have hs' := tickAt_eq_ok_iff.mp hs
  cases hok'.symm.trans (closestTick_of_isTickOf hc ha h hs')
  exact hs'

/-- **`closestTick` is the exact floor on the grid, in either order of the tokens.** It answers
exactly the positive prices whose value in the direction of the pair is that of a square-root price
in `[minSqrtPrice, maxSqrtPrice)`, with the tick whose price is at most that value and whose next
tick has a price above it. The price of a tick is given that tick. -/
theorem closestTick_isFloor (hc : base.chain = quote.chain) (ha : base.address ≠ quote.address) :
    (∀ p : Price, p.base = base → p.quote = quote → 0 < p.ratio.toRat →
      ((∃ t, p.closestTick = .ok t) ↔ (minSqrtPrice : ℚ) ^ 2 ≤ p.pairValue * 2 ^ 192 ∧
        p.pairValue * 2 ^ 192 < (maxSqrtPrice : ℚ) ^ 2) ∧
      ∀ t, p.closestTick = .ok t → ∃ lower upper, sqrtPriceAt t = .ok lower ∧
        sqrtPriceAt (t + 1) = .ok upper ∧ (lower : ℚ) ^ 2 ≤ p.pairValue * 2 ^ 192 ∧
        p.pairValue * 2 ^ 192 < (upper : ℚ) ^ 2) ∧
    ∀ t, minTick ≤ t ∧ t < maxTick →
      ∃ p, ofTick base quote t = .ok p ∧ p.closestTick = .ok t := by
  constructor
  · rintro p rfl rfl hpos
    simp only [closestTick_eq_ok_iff hc ha hpos]
    refine ⟨⟨?_, ?_⟩, ?_⟩
    · rintro ⟨t, ht⟩
      exact ⟨(le_pairRoot_iff hpos).mp ht.range.1, (pairRoot_lt_iff hpos).mp ht.range.2⟩
    · rintro ⟨hmin, hmax⟩
      exact exists_tick ((le_pairRoot_iff hpos).mpr hmin) ((pairRoot_lt_iff hpos).mpr hmax)
    · rintro t ⟨⟨h1, h2⟩, hle, hlt⟩
      exact ⟨_, _, sqrtPriceAt_eq_ok_iff.mpr ⟨⟨h1, h2.le⟩, rfl⟩,
        sqrtPriceAt_eq_ok_iff.mpr ⟨⟨by omega, Int.add_one_le_of_lt h2⟩, rfl⟩,
        (le_pairRoot_iff hpos).mp hle, (pairRoot_lt_iff hpos).mp hlt⟩
  · rintro t ⟨h1, h2⟩
    obtain ⟨ratio, hprice, hpos, hvalue⟩ := exists_ofTick hc ha h1 h2.le
    refine ⟨_, hprice, (closestTick_eq_ok_iff hc ha hpos).mpr ⟨⟨h1, h2⟩, ?_, ?_⟩⟩
    · exact (le_pairRoot_iff hpos).mpr hvalue.ge
    · have hlt : (ratioAt t : ℚ) < ratioAt (t + 1) := by
        exact_mod_cast ratioAt_lt_ratioAt h1 (Int.lt_succ t) (Int.add_one_le_of_lt h2)
      rw [pairRoot_lt_iff hpos, hvalue]
      exact pow_lt_pow_left₀ hlt (Nat.cast_nonneg _) two_ne_zero

/-- At 1800 of the first token for one of the second, the tick is that of one 1800th. -/
theorem closestTick_isFloor_turned :
    closestTick ⟨⟨1, 2, 18, none, none⟩, ⟨1, 1, 18, none, none⟩, .ofInt 1800⟩ = .ok (-74960) ∧
    (∃ lower upper, sqrtPriceAt (-74960) = .ok lower ∧ sqrtPriceAt (-74959) = .ok upper ∧
      (lower : ℚ) ^ 2 ≤ 1800⁻¹ * 2 ^ 192 ∧ 1800⁻¹ * 2 ^ 192 < (upper : ℚ) ^ 2) ∧
    ∃ p, ofTick ⟨1, 2, 18, none, none⟩ ⟨1, 1, 18, none, none⟩ (-74960) = .ok p ∧
      p.closestTick = .ok (-74960) := by
  let base : Token := ⟨1, 2, 18, none, none⟩
  let quote : Token := ⟨1, 1, 18, none, none⟩
  have hfloor := @closestTick_isFloor base quote rfl (by decide)
  have htick : closestTick ⟨base, quote, .ofInt 1800⟩ = .ok (-74960) := by decide +kernel
  have hvalue : pairValue ⟨base, quote, .ofInt 1800⟩ = 1800⁻¹ := by
    unfold pairValue
    rw [if_neg (by decide), Fraction.toRat_ofInt]
    rfl
  obtain ⟨lower, upper, hlower, hupper, hle, hlt⟩ :=
    (hfloor.1 ⟨base, quote, .ofInt 1800⟩ rfl rfl (by simp)).2 _ htick
  rw [hvalue] at hle hlt
  exact ⟨htick, ⟨lower, upper, hlower, hupper, hle, hlt⟩, hfloor.2 (-74960) (by decide)⟩

end Price

end Clamm
