import Mathlib
import Clamm.SqrtPrice.Grid

/-!
# The usable tick nearest to a tick

A tick is usable at a spacing if the spacing divides it and it lies in the range of ticks. Every
tick has a window of one spacing around it that holds exactly one multiple, the one `nearestUsable`
rounds to. Where that multiple has left the range, no usable tick lies between it and the next one
inward, which is in the range because zero is: the correction is needed once, however wide the
spacing.

* `closest_of_window`: the multiple in the window of a tick is the nearest of all.
* `closest_of_inward`: beyond an end of the range it is the first one inside.
* `nearestUsable_closest`: `nearestUsable` answers the nearest usable tick, the larger of two.
-/

namespace Clamm

/-- The ticks of the range that a spacing divides. -/
def Usable (spacing u : ℤ) : Prop := spacing ∣ u ∧ minTick ≤ u ∧ u ≤ maxTick

/-- `v` is no closer to `t` than `u` is, and not above `u` if as close. -/
def NoCloser (t u v : ℤ) : Prop := |u - t| ≤ |v - t| ∧ (|v - t| = |u - t| → v ≤ u)

section Multiples

variable {s t u v : ℤ}

/-- Two multiples are the same or a spacing apart. -/
theorem add_le_of_multiples (hu : s ∣ u) (hv : s ∣ v) (h : u < v) : u + s ≤ v := by
  have := Int.le_of_dvd (sub_pos.mpr h) (hv.sub hu)
  omega

/-- Rounding picks the multiple in the window of `t`, which is open above. -/
theorem rounded_window (hs : 0 < s) (t : ℤ) :
    2 * ((2 * t + s) / (2 * s) * s) ≤ 2 * t + s ∧
      2 * t + s < 2 * ((2 * t + s) / (2 * s) * s) + 2 * s := by
  have hdiv := Int.mul_ediv_add_emod (2 * t + s) (2 * s)
  have hlo := Int.emod_nonneg (2 * t + s) (show 2 * s ≠ 0 by omega)
  have hhi := Int.emod_lt_of_pos (2 * t + s) (show 0 < 2 * s by omega)
  have hmul : 2 * ((2 * t + s) / (2 * s) * s) = 2 * s * ((2 * t + s) / (2 * s)) := by ring
  omega

/-- **The multiple in the window of a tick is the nearest of all multiples**, and of two as near it
is the larger. -/
theorem closest_of_window (hu : s ∣ u) (hlo : 2 * u ≤ 2 * t + s)
    (hhi : 2 * t + s < 2 * u + 2 * s) (hv : s ∣ v) : NoCloser t u v := by
  unfold NoCloser
  rcases lt_trichotomy v u with h | rfl | h
  · have := add_le_of_multiples hv hu h
    rcases abs_cases (u - t) with hu' | hu' <;> rcases abs_cases (v - t) with hv' | hv' <;> omega
  · exact ⟨le_rfl, fun _ => le_rfl⟩
  · have := add_le_of_multiples hu hv h
    rcases abs_cases (u - t) with hu' | hu' <;> rcases abs_cases (v - t) with hv' | hv' <;> omega

/-- A number on the way from `t` to another is the nearer of the two. -/
theorem closest_of_inward (h : t ≤ u ∧ u ≤ v ∨ v ≤ u ∧ u ≤ t) : NoCloser t u v := by
  unfold NoCloser
  rcases abs_cases (u - t) with hu | hu <;> rcases abs_cases (v - t) with hv | hv <;> omega

end Multiples

/-- **`nearestUsable` answers the nearest usable tick**, at every spacing: of all multiples of the
spacing in the range of ticks none is closer, and of two equally close it is the larger. -/
theorem nearestUsable_closest {t s : ℤ} (hs : 0 < s) (ht : minTick ≤ t ∧ t ≤ maxTick) :
    ∃ u, nearestUsable t s = .ok u ∧ Usable s u ∧ ∀ v, Usable s v →
      |u - t| ≤ |v - t| ∧ (|v - t| = |u - t| → v ≤ u) := by
  obtain ⟨hlo, hhi⟩ := rounded_window hs t
  have hdvd : s ∣ (2 * t + s) / (2 * s) * s := dvd_mul_left s _
  unfold nearestUsable
  rw [if_neg (not_le.mpr hs), if_neg (by omega)]
  generalize (2 * t + s) / (2 * s) * s = n at hlo hhi hdvd
  dsimp only
  have hrange : minTick ≤ 0 ∧ 0 ≤ maxTick := by decide
  split
  · -- every usable tick is above `n`, and so at least one spacing above it
    rename_i hbelow
    have hin := add_le_of_multiples hdvd (dvd_zero s) (hbelow.trans_le hrange.1)
    refine ⟨_, rfl, ⟨hdvd.add dvd_rfl, by omega, by omega⟩, fun v hv => ?_⟩
    have := add_le_of_multiples hdvd hv.1 (hbelow.trans_le hv.2.1)
    exact closest_of_inward (.inl ⟨by omega, this⟩)
  · split
    · rename_i habove
      have hin := add_le_of_multiples (dvd_zero s) hdvd (hrange.2.trans_lt habove)
      refine ⟨_, rfl, ⟨hdvd.sub dvd_rfl, by omega, by omega⟩, fun v hv => ?_⟩
      have := add_le_of_multiples hv.1 hdvd (hv.2.2.trans_lt habove)
      exact closest_of_inward (.inr ⟨by omega, by omega⟩)
    · exact ⟨_, rfl, ⟨hdvd, by omega, by omega⟩, fun v hv => closest_of_window hdvd hlo hhi hv.1⟩

/-- The highest tick is nearer to 1000000 than to 500000, and 500000 is the last one in range. -/
theorem nearestUsable_closest_inward : nearestUsable 887272 500000 = .ok 500000 ∧
    Usable 500000 500000 ∧ ∀ v, Usable 500000 v → |500000 - 887272| ≤ |v - 887272| := by
  obtain ⟨u, hu, husable, hclosest⟩ :=
    nearestUsable_closest (t := 887272) (s := 500000) (by decide) (by decide)
  have h : nearestUsable 887272 500000 = .ok 500000 := by decide
  cases hu.symm.trans h
  exact ⟨h, husable, fun v hv => (hclosest v hv).1⟩

end Clamm
