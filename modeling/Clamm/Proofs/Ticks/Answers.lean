import Mathlib
import Clamm.Proofs.Ticks.Flagged

/-!
# Sources that leave no question open

`TickSource.Faithful` says that what a source answers is true; `TickSource.Answers` says that it
does answer. A list answers every search of a positive spacing, a table every search of its own one,
and both find every tick that they hold.

The grid points that a search computes with lie within one word of its start, so on the grid they
fit in 32 bits for every spacing below `2 ^ 22`.

* `TickSource.HoldsAt.answers`: lists and tables answer.
* `isInt32_near`: the grid points of a search fit in 32 bits.
-/

namespace Clamm

/-- The integer fits in 32 bits, signed. -/
def IsInt32 (x : ℤ) : Prop := -2 ^ 31 ≤ x ∧ x < 2 ^ 31

/-- A source that answers every search for this spacing and finds all of the given ticks. -/
structure TickSource.Answers (source : TickSource) (spacing : ℤ) (ticks : List Tick) : Prop where
  find : ∀ t ∈ ticks, ∃ u, source.find t.index = .ok u
  search : ∀ tick d, ∃ stop flag, source.next tick spacing d = .ok (stop, flag)

/-- The source is a list, or a table for this spacing, with the ticks it holds and the numbers of
those that came with words of flags. -/
inductive TickSource.HoldsAt : TickSource → ℤ → List Tick → List ℤ → Prop
  | list (l : TickList) (spacing : ℤ) : HoldsAt l.source spacing l.ticks []
  | bitmap (b : TickBitmap) {numbers : List ℤ} (h : b.Built numbers) :
    HoldsAt b.source b.spacing b.tickList numbers

section

variable {source : TickSource} {ticks : List Tick} {numbers : List ℤ} {tick spacing i k : ℤ}
  {t : Tick} {d : Direction}

/-- A list finds the index of every tick that it holds. -/
theorem TickList.find_total {l : TickList} (ht : t ∈ l.ticks) : ∃ u, l.find t.index = .ok u := by
  have hspec := TickList.floor?_spec (l := l) (i := t.index)
  unfold TickList.find
  split
  · rename_i u hu
    rw [hu] at hspec
    obtain ⟨-, hle, hlast⟩ := hspec
    rw [if_pos (le_antisymm hle (hlast t ht (le_refl _)))]
    exact ⟨u, rfl⟩
  · rename_i hnone
    rw [hnone] at hspec
    exact absurd (hspec t ht) (lt_irrefl _)

theorem TickList.next_total (l : TickList) (hs : 0 < spacing) (tick : ℤ) (d : Direction) :
    ∃ stop flag, l.next tick spacing d = .ok (stop, flag) := by
  unfold TickList.next
  rw [if_neg (not_le.mpr hs)]
  cases d with
  | down =>
    dsimp only
    split
    · exact ⟨_, _, rfl⟩
    · exact ⟨_, _, rfl⟩
  | up =>
    dsimp only
    split
    · exact ⟨_, _, rfl⟩
    · exact ⟨_, _, rfl⟩

theorem WordMap.next_total (m : WordMap) (hs : 0 < spacing) (tick : ℤ) (d : Direction) :
    ∃ stop flag, m.next tick spacing d = .ok (stop, flag) := by
  unfold WordMap.next
  rw [if_neg (not_le.mpr hs)]
  cases d with
  | down =>
    dsimp only
    split
    · exact ⟨_, _, rfl⟩
    · exact ⟨_, _, rfl⟩
  | up =>
    dsimp only
    split
    · exact ⟨_, _, rfl⟩
    · exact ⟨_, _, rfl⟩

/-- A table finds the index of every tick that it holds. -/
theorem TickBitmap.find_total {b : TickBitmap} (hb : b.Indexed) (ht : t ∈ b.tickList) :
    ∃ u, b.find t.index = .ok u := by
  unfold TickBitmap.find
  rw [(TickBitmap.mem_tickList hb).mp ht]
  exact ⟨t, rfl⟩

theorem TickBitmap.next_total (b : TickBitmap) (tick : ℤ) (d : Direction) :
    ∃ stop flag, b.next tick b.spacing d = .ok (stop, flag) := by
  unfold TickBitmap.next
  rw [if_pos rfl]
  exact b.words.next_total b.spacing_pos tick d

theorem TickSource.HoldsAt.holds (h : source.HoldsAt spacing ticks numbers) :
    source.Holds ticks numbers := by
  cases h with
  | list l => exact .list l
  | bitmap b hb => exact .bitmap b hb

/-- **Lists and tables answer what they are asked.** -/
theorem TickSource.HoldsAt.answers (h : source.HoldsAt spacing ticks numbers) (hs : 0 < spacing) :
    source.Answers spacing ticks := by
  cases h with
  | list l => exact ⟨fun t ht => TickList.find_total ht, fun tick d => l.next_total hs tick d⟩
  | bitmap b hb =>
    exact ⟨fun t ht => TickBitmap.find_total hb.indexed ht, fun tick d => b.next_total tick d⟩

/-- **Grid points within one word of a tick of the grid fit in 32 bits.** -/
theorem isInt32_near (hs : 0 < spacing) (hs' : spacing < 2 ^ 22)
    (ht : minTick ≤ tick ∧ tick < maxTick) (h1 : tick / spacing - 256 ≤ k)
    (h2 : k ≤ tick / spacing + 256) : IsInt32 (k * spacing) := by
  have hfloor := Int.ediv_mul_le tick hs.ne'
  have hceil := Int.lt_ediv_add_one_mul_self tick hs
  have hlow := Int.mul_le_mul_of_nonneg_right h1 hs.le
  have hhigh := Int.mul_le_mul_of_nonneg_right h2 hs.le
  simp only [minTick, maxTick] at ht
  rw [sub_mul] at hlow
  rw [add_mul] at hceil hhigh
  unfold IsInt32
  constructor <;> omega

end

end Clamm
