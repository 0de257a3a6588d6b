import Mathlib
import Clamm.Proofs.Ticks.Words
import Clamm.SqrtPrice.Grid
import Clamm.Tick.Sorted

/-!
# Sources that tell the truth about their ticks

What a swap relies on is that the search passes no stored tick and that the tick it looks up is the
one stored there. `TickSource.Faithful` says this of a source and the list of ticks it holds; the
list sources meet it as they are. What a swap sees is less: `TickSource.Meets` is about the ticks
that searches stop at, whatever else the source holds.

* `netAtOrBelow ticks i`: the liquidity in range at tick `i`.
* `netAtOrBelow_index`: it changes by the net liquidity of a tick at the tick's index;
  `Clear.netAtOrBelow_eq`: it is constant between stored ticks.
* `TickList.floor?_spec`, `TickList.above?_spec`: the two lookups find the nearest ticks.
* `TickList.faithful`: a list is faithful to its ticks.
-/

namespace Clamm

/-! ## The liquidity that ticks stand for -/

/-- The sum of the net liquidity of all ticks at or below an index. -/
def netAtOrBelow (ticks : List Tick) (i : ℤ) : ℤ :=
  ((ticks.filter fun t => t.index ≤ i).map Tick.net).sum

/-- The ticks of a pool: one for each index at most, on the grid and in its range. -/
structure OnGrid (spacing : ℤ) (ticks : List Tick) : Prop where
  distinct : ticks.Pairwise fun a b => a.index ≠ b.index
  aligned : ∀ t ∈ ticks, spacing ∣ t.index
  mem_range : ∀ t ∈ ticks, minTick ≤ t.index ∧ t.index ≤ maxTick

/-- No tick is stored strictly between `a` and `b`. -/
def Clear (ticks : List Tick) (a b : ℤ) : Prop := ∀ t ∈ ticks, t.index ≤ a ∨ b ≤ t.index

section

variable {ticks : List Tick} {t : Tick} {a b i : ℤ}

theorem netAtOrBelow_cons (t : Tick) (ticks : List Tick) (i : ℤ) :
    netAtOrBelow (t :: ticks) i = (if t.index ≤ i then t.net else 0) + netAtOrBelow ticks i := by
  unfold netAtOrBelow
  by_cases h : t.index ≤ i
  · simp [h]
  · simp [h]

theorem netAtOrBelow_congr (h : ∀ t ∈ ticks, t.index ≤ a ↔ t.index ≤ b) :
    netAtOrBelow ticks a = netAtOrBelow ticks b := by
  unfold netAtOrBelow
  rw [List.filter_congr fun t ht => decide_eq_decide.mpr (h t ht)]

/-- Where no tick is stored the liquidity does not change. -/
theorem Clear.netAtOrBelow_eq (h : Clear ticks a b) (hai : a ≤ i) (hib : i < b) :
    netAtOrBelow ticks i = netAtOrBelow ticks a := by
  refine netAtOrBelow_congr fun t ht => ?_
  rcases h t ht with h' | h' <;> omega

/-- A tick adds its net liquidity at its index. -/
theorem netAtOrBelow_index (hd : ticks.Pairwise fun a b => a.index ≠ b.index) (ht : t ∈ ticks) :
    netAtOrBelow ticks t.index = netAtOrBelow ticks (t.index - 1) + t.net := by
  induction ticks with
  | nil => cases ht
  | cons u us ih =>
    obtain ⟨hne, hd⟩ := List.pairwise_cons.mp hd
    rw [netAtOrBelow_cons, netAtOrBelow_cons]
    rcases List.mem_cons.mp ht with rfl | ht
    · have hsame : netAtOrBelow us t.index = netAtOrBelow us (t.index - 1) :=
        netAtOrBelow_congr fun v hv => by
          have := hne v hv
          omega
      rw [if_pos (le_refl _), if_neg (by omega), hsame]
      ring
    · have hu : u.index ≤ t.index ↔ u.index ≤ t.index - 1 := by
        have := hne t ht
        omega
      rw [ih hd ht, if_congr hu rfl rfl]
      ring

end

/-! ## Faithful sources -/

/-- The lower end of the ticks that lie between `tick` and the stop of a search from it. -/
def Direction.lower : Direction → (tick stop : ℤ) → ℤ
  | down, _, stop => stop
  | up, tick, _ => tick

/-- The upper end. A search downward includes the tick it starts from. -/
def Direction.upper : Direction → (tick stop : ℤ) → ℤ
  | down, tick, _ => tick + 1
  | up, _, stop => stop

/-- A source whose lookups and searches are those of the given ticks: what it finds is stored there,
and a search that starts on the grid passes no stored tick and knows whether one is stored where it
stops. -/
structure TickSource.Faithful (source : TickSource) (spacing : ℤ) (ticks : List Tick) : Prop where
  find : ∀ i t, source.find i = .ok t → t ∈ ticks ∧ t.index = i
  search : ∀ tick d stop flag, minTick ≤ tick ∧ tick < maxTick →
    source.next tick spacing d = .ok (stop, flag) →
    Clear ticks (d.lower tick stop) (d.upper tick stop) ∧
      (flag = true ↔ ∃ t ∈ ticks, t.index = stop)

/-- What the answer of a search says of the ticks at its stop: with a flag the tick found there is
one of them, with none there is none of them. -/
def TickSource.Tells (source : TickSource) (ticks : List Tick) (stop : ℤ) : Bool → Prop
  | true => ∀ t, source.find stop = .ok t → t ∈ ticks ∧ t.index = stop
  | false => ∀ t ∈ ticks, t.index ≠ stop

/-- These are the ticks that searches from the grid meet: they pass none of them, and where they
stop the answer says which of them is there. -/
structure TickSource.Meets (source : TickSource) (spacing : ℤ) (ticks : List Tick) : Prop where
  clear : ∀ tick d stop flag, minTick ≤ tick ∧ tick < maxTick →
    source.next tick spacing d = .ok (stop, flag) →
    Clear ticks (d.lower tick stop) (d.upper tick stop)
  tells : ∀ tick d stop flag, minTick ≤ tick ∧ tick < maxTick →
    source.next tick spacing d = .ok (stop, flag) → source.Tells ticks stop flag

/-- Searches over a faithful source meet all of its ticks. -/
theorem TickSource.Faithful.meets {source : TickSource} {spacing : ℤ} {ticks : List Tick}
    (h : source.Faithful spacing ticks) : source.Meets spacing ticks := by
  refine ⟨fun tick d stop flag ht hnext => (h.search tick d stop flag ht hnext).1, ?_⟩
  intro tick d stop flag ht hnext
  have hflag := (h.search tick d stop flag ht hnext).2
  cases flag with
  | true => exact fun t hfind => h.find stop t hfind
  | false => exact fun t hmem hstop => absurd (hflag.mpr ⟨t, hmem, hstop⟩) (by decide)

/-! ## Lists -/

namespace TickList

variable {l : TickList} {i tick spacing stop : ℤ} {t : Tick} {flag : Bool} {d : Direction}

/-- An accepted snapshot keeps its ticks, all of them on the grid of the spacing. -/
theorem make_eq_ok {ticks : List Tick} (h : make ticks spacing = .ok l) :
    0 < spacing ∧ (∀ t ∈ ticks, spacing ∣ t.index) ∧ l.ticks = ticks := by
  unfold make at h
  split at h
  · cases h
  rename_i hs
  split at h
  · cases h
  rename_i hal
  split at h
  · cases h
  split at h
  · cases h
    exact ⟨not_le.mp hs, by simpa using hal, rfl⟩
  · cases h

/-- In a sorted list the ticks up to an index come first. -/
theorem mem_takeWhile {ticks : List Tick} (hs : ticks.Pairwise fun a b => a.index ≤ b.index)
    (ht : t ∈ ticks) (hi : t.index ≤ i) : t ∈ ticks.takeWhile fun u => u.index ≤ i := by
  induction ticks with
  | nil => cases ht
  | cons u us ih =>
    obtain ⟨hle, hs⟩ := List.pairwise_cons.mp hs
    rcases List.mem_cons.mp ht with rfl | ht
    · simp [hi]
    · have hu : u.index ≤ i := (hle t ht).trans hi
      simp only [List.takeWhile_cons, hu, decide_true, if_true, List.mem_cons]
      exact Or.inr (ih hs ht)

/-- The tick found is the nearest one at or below the index. -/
theorem floor?_spec : match l.floor? i with
    | some t => t ∈ l.ticks ∧ t.index ≤ i ∧ ∀ u ∈ l.ticks, u.index ≤ i → u.index ≤ t.index
    | none => ∀ u ∈ l.ticks, i < u.index := by
  have hmem := fun u hu => mem_takeWhile (t := u) (i := i) l.sorted hu
  have hsub := List.takeWhile_sublist (l := l.ticks) fun u => decide (u.index ≤ i)
  split
  · rename_i t ht
    obtain ⟨init, hinit⟩ := List.getLast?_eq_some_iff.mp ht
    have htake : t ∈ l.ticks.takeWhile fun u => u.index ≤ i := by simp [hinit]
    refine ⟨hsub.subset htake, ?_, fun u hu hi => ?_⟩
    · simpa using List.mem_takeWhile_imp htake
    · have hsorted := l.sorted.sublist hsub
      rw [hinit] at hsorted
      have hu := hmem u hu hi
      rw [hinit] at hu
      rcases List.mem_append.mp hu with hu | hu
      · exact (List.pairwise_append.mp hsorted).2.2 u hu t (List.mem_singleton_self t)
      · rw [List.mem_singleton.mp hu]
  · rename_i hnone
    intro u hu
    by_contra hi
    have := hmem u hu (not_lt.mp hi)
    rw [List.getLast?_eq_none_iff.mp hnone] at this
    cases this

/-- The tick found is the nearest one above the index. -/
theorem above?_spec : match l.above? i with
    | some t => t ∈ l.ticks ∧ i < t.index ∧ ∀ u ∈ l.ticks, i < u.index → t.index ≤ u.index
    | none => ∀ u ∈ l.ticks, u.index ≤ i := by
  split
  · rename_i t ht
    obtain ⟨hi, as, bs, hticks, has⟩ := List.find?_eq_some_iff_append.mp ht
    have hsorted := l.sorted
    rw [hticks] at hsorted ⊢
    refine ⟨by simp, by simpa using hi, fun u hu hu' => ?_⟩
    rcases List.mem_append.mp hu with hu | hu
    · have := has u hu
      simp only [Bool.not_eq_true', decide_eq_false_iff_not] at this
      exact absurd hu' this
    · rcases List.mem_cons.mp hu with rfl | hu
      · exact le_refl _
      · exact (List.pairwise_cons.mp (List.pairwise_append.mp hsorted).2.1).1 u hu
  · rename_i hnone
    intro u hu
    simpa using List.find?_eq_none.mp hnone u hu

theorem spacing_pos_of_next (h : l.next tick spacing d = .ok (stop, flag)) : 0 < spacing := by
  unfold next at h
  split at h
  · cases h
  · rename_i hs
    exact not_le.mp hs

theorem next_down (h : l.next tick spacing .down = .ok (stop, flag)) :
    stop ≤ tick ∧ Clear l.ticks stop (tick + 1) ∧
      (flag = true ↔ ∃ t ∈ l.ticks, t.index = stop) := by
  have hs := spacing_pos_of_next h
  unfold next at h
  rw [if_neg (not_le.mpr hs)] at h
  dsimp only at h
  have hfirst : tick / spacing / 256 * 256 * spacing ≤ tick :=
    (Int.le_ediv_iff_mul_le hs).mp (Int.ediv_mul_le _ (by decide))
  generalize tick / spacing / 256 * 256 * spacing = first at *
  have hspec := floor?_spec (l := l) (i := tick)
  split at h
  · rename_i t ht
    rw [ht] at hspec
    obtain ⟨hmem, hle, hlast⟩ := hspec
    cases h
    refine ⟨max_le hfirst hle, fun u hu => ?_, ?_⟩
    · rcases le_or_gt u.index tick with hu' | hu'
      · exact Or.inl ((hlast u hu hu').trans (le_max_right _ _))
      · exact Or.inr hu'
    · rw [decide_eq_true_iff]
      constructor
      · intro hge
        exact ⟨t, hmem, (max_eq_right hge).symm⟩
      · rintro ⟨u, hu, hstop⟩
        have := hlast u hu (hstop ▸ max_le hfirst hle)
        exact (le_max_left _ _).trans (hstop ▸ this)
  · rename_i hnone
    rw [hnone] at hspec
    cases h
    refine ⟨hfirst, fun u hu => Or.inr (hspec u hu), ?_⟩
    simp only [Bool.false_eq_true, false_iff, not_exists, not_and]
    intro u hu hstop
    have := hspec u hu
    omega

theorem next_up (h : l.next tick spacing .up = .ok (stop, flag)) :
    tick < stop ∧ Clear l.ticks tick stop ∧ (flag = true ↔ ∃ t ∈ l.ticks, t.index = stop) := by
  have hs := spacing_pos_of_next h
  unfold next at h
  rw [if_neg (not_le.mpr hs)] at h
  dsimp only at h
  have hlast : tick < ((tick / spacing + 1) / 256 * 256 + 255) * spacing :=
    (Int.ediv_lt_iff_lt_mul hs).mp (by omega)
  generalize ((tick / spacing + 1) / 256 * 256 + 255) * spacing = last at *
  have hspec := above?_spec (l := l) (i := tick)
  split at h
  · rename_i t ht
    rw [ht] at hspec
    obtain ⟨hmem, hlt, hfirst⟩ := hspec
    cases h
    refine ⟨lt_min hlast hlt, fun u hu => ?_, ?_⟩
    · rcases le_or_gt u.index tick with hu' | hu'
      · exact Or.inl hu'
      · exact Or.inr ((min_le_right _ _).trans (hfirst u hu hu'))
    · rw [decide_eq_true_iff]
      constructor
      · intro hle
        exact ⟨t, hmem, (min_eq_right hle).symm⟩
      · rintro ⟨u, hu, hstop⟩
        have := hfirst u hu (hstop ▸ lt_min hlast hlt)
        exact (hstop ▸ this).trans (min_le_left _ _)
  · rename_i hnone
    rw [hnone] at hspec
    cases h
    refine ⟨hlast, fun u hu => Or.inl (hspec u hu), ?_⟩
    simp only [Bool.false_eq_true, false_iff, not_exists, not_and]
    intro u hu hstop
    have := hspec u hu
    omega

theorem advances (l : TickList) (spacing : ℤ) : l.source.Advances spacing := by
  intro tick d stop flag h
  cases d with
  | down => exact (next_down h).1
  | up => exact (next_up h).1

theorem find_eq_ok (h : l.find i = .ok t) : t ∈ l.ticks ∧ t.index = i := by
  have hspec := floor?_spec (l := l) (i := i)
  unfold find at h
  split at h
  · rename_i u hu
    rw [hu] at hspec
    split at h
    · rename_i hi
      cases h
      exact ⟨hspec.1, hi⟩
    · cases h
  · cases h

/-- **A list is faithful to its ticks.** -/
theorem faithful (l : TickList) (spacing : ℤ) : l.source.Faithful spacing l.ticks := by
  refine ⟨fun i t h => find_eq_ok h, fun tick d stop flag _ h => ?_⟩
  cases d with
  | down => exact (next_down h).2
  | up => exact (next_up h).2

end TickList

end Clamm
