import Mathlib
import Clamm.Proofs.Swap.Liquidity

/-!
# What the reserves of a pool are worth

At the square-root price `x` a unit of liquidity holds `x / 2 ^ 96` of token 1 and `2 ^ 96 / x` of
token 0, up to constants. With one token 0 valued at `c / 2 ^ 192` of token 1 that is `worth c x`,
in units of `2 ^ -96`. `reserves c base ticks x` adds this up over a profile of ticks: each tick
contributes its net liquidity from its own price on, and an excess `base` is there at every price.

* `reserves_sub`: between ticks the reserves change by liquidity times worth.
* `worth_le_payment`: a step is paid at least what it adds to the reserves, in any valuation.
* `reserves_le`: valued at its own price, a pool is worth least there, among all the prices that it
  reaches through ticks of non-negative liquidity.
-/

namespace Clamm

/-- What a unit of liquidity holds at a price, with token 0 valued at `c / 2 ^ 192`. -/
def worth (c : ℚ) (x : ℕ) : ℚ := x + c / x

/-- What two signed amounts come to in the same valuation. -/
def payment (c : ℚ) (amount0 amount1 : ℤ) : ℚ := amount1 * 2 ^ 96 + amount0 * (c / 2 ^ 96)

/-- What the liquidity of the ticks, and an excess of it, hold at a price, up to a constant. -/
def reserves (c : ℚ) (base : ℤ) (ticks : List Tick) (x : ℕ) : ℚ :=
  base * worth c x + (ticks.map fun t => t.net * worth c (max x (ratioAt t.index))).sum

/-! ## Worth -/

section Worth

variable {c : ℚ} {p q x y L i w : ℕ} {d : Direction}

theorem worth_sub (hx : 0 < x) (hy : 0 < y) :
    worth c y - worth c x = (y - x) * (1 - c / (x * y)) := by
  have hx' : (x : ℚ) ≠ 0 := by exact_mod_cast hx.ne'
  have hy' : (y : ℚ) ≠ 0 := by exact_mod_cast hy.ne'
  unfold worth
  field_simp
  ring

/-- Valued at the price `p`, liquidity is worth more the further the price is from `p`. -/
theorem worth_le (hx : 0 < x) (hy : 0 < y) (h : x ∈ Set.uIcc p y) :
    worth (p * p) x ≤ worth (p * p) y := by
  rw [← sub_nonneg, worth_sub hx hy]
  have hxy : (0 : ℚ) < x * y := by exact_mod_cast Nat.mul_pos hx hy
  rcases Set.mem_uIcc.mp h with ⟨h1, h2⟩ | ⟨h1, h2⟩
  · have hle : (p * p : ℚ) ≤ x * y := by exact_mod_cast Nat.mul_le_mul h1 (h1.trans h2)
    have hxy' : (x : ℚ) ≤ y := by exact_mod_cast h2
    refine mul_nonneg (by linarith) ?_
    rw [sub_nonneg, div_le_one hxy]
    exact hle
  · have hle : (x * y : ℚ) ≤ p * p := by exact_mod_cast Nat.mul_le_mul h2 (h1.trans h2)
    have hxy' : (y : ℚ) ≤ x := by exact_mod_cast h1
    refine mul_nonneg_of_nonpos_of_nonpos (by linarith) ?_
    rw [sub_nonpos, one_le_div hxy]
    exact hle

/-- The signed amounts of the pool for an input and an output. -/
def Direction.signed : Direction → (paidIn paidOut : ℤ) → ℤ × ℤ
  | down, i, w => (i, -w)
  | up, i, w => (-w, i)

/-- **Amounts that cover a move and that it yields pay for what it adds to the reserves.** -/
theorem worth_le_payment (hc : 0 ≤ c) (hp : 0 < p) (hq : 0 < q) (hlead : d.Leads p q)
    (hcovers : d.Covers p q L i) (hyields : d.Yields p q L w) :
    L * (worth c q - worth c p) ≤ payment c (d.signed i w).1 (d.signed i w).2 := by
  have hp' : (0 : ℚ) < p := by exact_mod_cast hp
  have hq' : (0 : ℚ) < q := by exact_mod_cast hq
  have hpq : (0 : ℚ) < p * q := mul_pos hp' hq'
  have e : ((pow2 96 : ℕ) : ℚ) = 2 ^ 96 := by
    rw [pow2_eq]
    norm_num
  rw [worth_sub hp hq]
  unfold payment
  cases d with
  | down =>
    have hlead' : q ≤ p := hlead
    simp only [Direction.Covers, Direction.Yields] at hcovers hyields
    qify [hlead', e] at hcovers hyields
    have hin : (L : ℚ) * (p - q) / (p * q) ≤ i / 2 ^ 96 := by
      rw [div_le_div_iff₀ hpq (by positivity)]
      linarith
    have hcost := mul_le_mul_of_nonneg_left hin hc
    calc (L : ℚ) * ((q - p) * (1 - c / (p * q)))
        = c * (L * (p - q) / (p * q)) - L * (p - q) := by ring
      _ ≤ c * (i / 2 ^ 96) - w * 2 ^ 96 := sub_le_sub hcost hyields
      _ = ((-(w : ℤ) : ℤ) : ℚ) * 2 ^ 96 + (i : ℤ) * (c / 2 ^ 96) := by
        push_cast
        ring
  | up =>
    have hlead' : p ≤ q := hlead
    simp only [Direction.Covers, Direction.Yields] at hcovers hyields
    qify [hlead', e] at hcovers hyields
    have hout : (w : ℚ) / 2 ^ 96 ≤ L * (q - p) / (p * q) := by
      rw [div_le_div_iff₀ (by positivity) hpq]
      linarith
    have hgain := mul_le_mul_of_nonneg_left hout hc
    calc (L : ℚ) * ((q - p) * (1 - c / (p * q)))
        = L * (q - p) - c * (L * (q - p) / (p * q)) := by ring
      _ ≤ i * 2 ^ 96 - c * (w / 2 ^ 96) := sub_le_sub hcovers hgain
      _ = ((i : ℤ) : ℚ) * 2 ^ 96 + (-(w : ℤ) : ℤ) * (c / 2 ^ 96) := by
        push_cast
        ring

end Worth

/-! ## Reserves -/

section Reserves

variable {c : ℚ} {ticks : List Tick} {base a b t u v : ℤ} {p x y : ℕ}

/-- None of the ticks from `t` to `u`, in either order, has negative liquidity. -/
def Liquid (base : ℤ) (ticks : List Tick) (t u : ℤ) : Prop :=
  ∀ i ∈ Set.uIcc t u, 0 ≤ base + netAtOrBelow ticks i

theorem Liquid.trans (htu : Liquid base ticks t u) (huv : Liquid base ticks u v) :
    Liquid base ticks t v := by
  intro i hi
  rcases Set.uIcc_subset_uIcc_union_uIcc hi with hi | hi
  · exact htu i hi
  · exact huv i hi

/-- Where there is no tick the reserves change by liquidity times worth. -/
theorem reserves_sub (hclear : Clear ticks a b)
    (hrange : ∀ t ∈ ticks, minTick ≤ t.index ∧ t.index ≤ maxTick) (ha : minTick ≤ a ∧ a ≤ maxTick)
    (hb : minTick ≤ b ∧ b ≤ maxTick) (hx : ratioAt a ≤ x ∧ x ≤ ratioAt b)
    (hy : ratioAt a ≤ y ∧ y ≤ ratioAt b) :
    reserves c base ticks y - reserves c base ticks x =
      (base + netAtOrBelow ticks a : ℤ) * (worth c y - worth c x) := by
  induction ticks with
  | nil =>
    simp only [reserves, netAtOrBelow, List.map_nil, List.sum_nil, List.filter_nil, add_zero]
    ring
  | cons t ts ih =>
    have ih := ih (fun u hu => hclear u (List.mem_cons_of_mem _ hu))
      (fun u hu => hrange u (List.mem_cons_of_mem _ hu))
    obtain ⟨ht1, ht2⟩ := hrange t List.mem_cons_self
    have hcons : ∀ z, reserves c base (t :: ts) z =
        t.net * worth c (max z (ratioAt t.index)) + reserves c base ts z := fun z => by
      simp only [reserves, List.map_cons, List.sum_cons]
      ring
    rw [hcons, hcons, netAtOrBelow_cons]
    by_cases hta : t.index ≤ a
    · -- the tick lies below both prices
      have hr := ratioAt_le_ratioAt ht1 hta ha.2
      rw [if_pos hta, max_eq_left (hr.trans hx.1), max_eq_left (hr.trans hy.1)]
      push_cast at ih ⊢
      linarith
    · -- the tick lies above both prices
      have hbt : b ≤ t.index := (hclear t List.mem_cons_self).resolve_left hta
      have hr := ratioAt_le_ratioAt hb.1 hbt ht2
      rw [if_neg hta, max_eq_right (hx.2.trans hr), max_eq_right (hy.2.trans hr)]
      push_cast at ih ⊢
      linarith

theorem clear_succ (ticks : List Tick) (t : ℤ) : Clear ticks t (t + 1) := by
  intro u _
  omega

/-- The square-root price `x` lies within tick `t`. -/
def Within (t : ℤ) (x : ℕ) : Prop :=
  (minTick ≤ t ∧ t < maxTick) ∧ ratioAt t ≤ x ∧ x ≤ ratioAt (t + 1)

theorem Within.pos (h : Within t x) : 0 < x := (ratioAt_pos h.1.1 h.1.2.le).trans_le h.2.1

/-- Within one tick of non-negative liquidity the reserves are worth more further from `p`. -/
theorem reserves_le_within (hrange : ∀ t ∈ ticks, minTick ≤ t.index ∧ t.index ≤ maxTick)
    (hx : Within t x) (hy : Within t y) (hnet : 0 ≤ base + netAtOrBelow ticks t)
    (h : x ∈ Set.uIcc p y) : reserves (p * p) base ticks x ≤ reserves (p * p) base ticks y := by
  obtain ⟨ht1, ht2⟩ := hx.1
  rw [← sub_nonneg, reserves_sub (clear_succ ticks t) hrange ⟨ht1, ht2.le⟩
    ⟨by omega, Int.add_one_le_of_lt ht2⟩ hx.2 hy.2]
  exact mul_nonneg (by exact_mod_cast hnet) (sub_nonneg.mpr (worth_le hx.pos hy.pos h))

/-- A tick's price lies within the tick and within the one below it. -/
theorem within_ratioAt (h1 : minTick ≤ t) (h2 : t < maxTick) : Within t (ratioAt t) :=
  ⟨⟨h1, h2⟩, le_refl _, ratioAt_le_ratioAt h1 (by omega) (Int.add_one_le_of_lt h2)⟩

theorem within_ratioAt_succ (h1 : minTick ≤ t) (h2 : t < maxTick) : Within t (ratioAt (t + 1)) :=
  ⟨⟨h1, h2⟩, ratioAt_le_ratioAt h1 (by omega) (Int.add_one_le_of_lt h2), le_refl _⟩

/-- **Valued at its own price a pool is worth least there**, among the prices that it reaches
through ticks of non-negative liquidity. -/
theorem reserves_le (hrange : ∀ t ∈ ticks, minTick ≤ t.index ∧ t.index ≤ maxTick)
    (hp : Within t p) (hy : Within u y) (hnet : Liquid base ticks t u) :
    reserves (p * p) base ticks p ≤ reserves (p * p) base ticks y := by
  rcases le_total t u with htu | htu
  · -- upward, tick by tick
    induction u, htu using Int.leInduction generalizing y with
    | base => exact reserves_le_within hrange hp hy (hnet t Set.left_mem_uIcc) Set.left_mem_uIcc
    | succ u htu ih =>
      obtain ⟨⟨h1, h2⟩, hl, hu⟩ := hy
      have hmid := within_ratioAt_succ (t := u) (by have := hp.1.1; omega) (by omega)
      have hbelow : p ≤ ratioAt (u + 1) :=
        hp.2.2.trans (ratioAt_le_ratioAt (by have := hp.1.1; omega) (by omega) h2.le)
      refine (ih hmid fun i hi => hnet i ?_).trans ?_
      · exact Set.uIcc_subset_uIcc_left (Set.mem_uIcc_of_le (by omega) (by omega)) hi
      · exact reserves_le_within hrange (within_ratioAt h1 h2) ⟨⟨h1, h2⟩, hl, hu⟩
          (hnet _ Set.right_mem_uIcc) (Set.mem_uIcc_of_le hbelow hl)
  · -- downward, tick by tick
    induction u, htu using Int.leInductionDown generalizing y with
    | base => exact reserves_le_within hrange hp hy (hnet t Set.left_mem_uIcc) Set.left_mem_uIcc
    | pred u htu ih =>
      obtain ⟨⟨h1, h2⟩, hl, hu⟩ := hy
      rw [sub_add_cancel] at hu
      have hmid := within_ratioAt (t := u) (by omega) (by have := hp.1.2; omega)
      have habove : ratioAt u ≤ p :=
        (ratioAt_le_ratioAt (by omega) htu hp.1.2.le).trans hp.2.1
      have hnear := within_ratioAt_succ (t := u - 1) h1 h2
      rw [sub_add_cancel] at hnear
      refine (ih hmid fun i hi => hnet i ?_).trans ?_
      · exact Set.uIcc_subset_uIcc_left (Set.mem_uIcc_of_ge (by omega) (by omega)) hi
      · exact reserves_le_within hrange hnear ⟨⟨h1, h2⟩, hl, (sub_add_cancel u 1).symm ▸ hu⟩
          (hnet _ Set.right_mem_uIcc) (Set.mem_uIcc_of_ge hu habove)

end Reserves

end Clamm
