import Mathlib
import Clamm.Proofs.Ticks.Flagged

/-!
# A search that is taken up again gives the same answer

A swap that ends on its way to a grid point leaves a tick between the one that its search started
from and the one that it found. A search from there looks into the same word, where nothing has been
passed, and so it finds the same grid point.

* `Bits.lastUpTo_steady`, `Bits.firstFrom_steady`: a search in a word, started closer to its answer.
* `TickSource.Steady`: the law for sources; `TickList.steady`, `TickBitmap.steady`: lists and tables
  obey it.
-/

namespace Clamm

/-- A search that starts between an earlier one and its answer has the same answer. -/
def TickSource.Steady (source : TickSource) (spacing : ℤ) : Prop :=
  ∀ tick tick' d stop flag, source.next tick spacing d = .ok (stop, flag) →
    d.lower tick stop ≤ tick' → tick' < d.upper tick stop →
    source.next tick' spacing d = .ok (stop, flag)

/-! ## Words -/

namespace Bits

variable {x b b' : ℕ} {k : Option ℕ}

theorem lastUpTo_steady (h : lastUpTo x b = k) (hle : b' ≤ b) (hk : ∀ i ∈ k, i ≤ b') :
    lastUpTo x b' = k := by
  have hspec := lastUpTo_spec (x := x) (b := b)
  have hspec' := lastUpTo_spec (x := x) (b := b')
  rw [h] at hspec
  cases h' : lastUpTo x b' with
  | none =>
    rw [h'] at hspec'
    cases k with
    | none => rfl
    | some i => simp [hspec' i (hk i rfl)] at hspec
  | some i' =>
    rw [h'] at hspec'
    obtain ⟨hi', hset', hclear'⟩ := hspec'
    cases k with
    | none => simp [hspec i' (hi'.trans hle)] at hset'
    | some i =>
      obtain ⟨hi, hset, hclear⟩ := hspec
      rcases lt_trichotomy i i' with hlt | heq | hgt
      · simp [hclear i' hlt (hi'.trans hle)] at hset'
      · rw [heq]
      · simp [hclear' i hgt (hk i rfl)] at hset

theorem firstFrom_steady (h : firstFrom x b = k) (hle : b ≤ b') (hk : ∀ i ∈ k, b' ≤ i) :
    firstFrom x b' = k := by
  have hspec := firstFrom_spec (x := x) (b := b)
  have hspec' := firstFrom_spec (x := x) (b := b')
  rw [h] at hspec
  cases h' : firstFrom x b' with
  | none =>
    rw [h'] at hspec'
    cases k with
    | none => rfl
    | some i => simp [hspec' i (hk i rfl)] at hspec
  | some i' =>
    rw [h'] at hspec'
    obtain ⟨hi', hset', hclear'⟩ := hspec'
    cases k with
    | none => simp [hspec i' (hle.trans hi')] at hset'
    | some i =>
      obtain ⟨hi, hset, hclear⟩ := hspec
      rcases lt_trichotomy i i' with hlt | heq | hgt
      · simp [hclear' i (hk i rfl) hlt] at hset
      · rw [heq]
      · simp [hclear i' (hle.trans hi') hgt] at hset'

end Bits

namespace WordMap

variable {m : WordMap} {tick tick' spacing stop : ℤ} {flag : Bool}

theorem next_down_steady (h : m.next tick spacing .down = .ok (stop, flag)) (h1 : stop ≤ tick')
    (h2 : tick' ≤ tick) : m.next tick' spacing .down = .ok (stop, flag) := by
  have hs := spacing_pos_of_next h
  have hn' := Int.ediv_le_ediv hs h2
  have hreach : ∀ k, stop = k * spacing → k ≤ tick' / spacing := fun k hk =>
    (Int.le_ediv_iff_mul_le hs).mpr (hk ▸ h1)
  unfold next at h ⊢
  rw [if_neg (not_le.mpr hs)] at h ⊢
  generalize tick / spacing = n at *
  generalize tick' / spacing = n' at *
  have hbit := slot_bit_lt n
  dsimp only at h ⊢
  cases hk : Bits.lastUpTo (word m (slot n).word) (slot n).bit with
  | some b =>
    have hspec := Bits.lastUpTo_spec (x := word m (slot n).word) (b := (slot n).bit)
    rw [hk] at h hspec
    cases h
    have hle := hreach _ rfl
    rw [slot_near (n := n) (by omega) (by omega)]
    dsimp only
    rw [Bits.lastUpTo_steady hk (by omega) (by simp; omega)]
    dsimp only
    congr 3
    omega
  | none =>
    rw [hk] at h
    cases h
    have hle := hreach _ rfl
    rw [slot_near (n := n) (by omega) (by omega)]
    dsimp only
    rw [Bits.lastUpTo_steady hk (by omega) (by simp)]
    dsimp only
    congr 3
    omega

theorem next_up_steady (hm : ∀ i, word m i < 2 ^ 256)
    (h : m.next tick spacing .up = .ok (stop, flag)) (h1 : tick ≤ tick') (h2 : tick' < stop) :
    m.next tick' spacing .up = .ok (stop, flag) := by
  have hs := spacing_pos_of_next h
  have hn' := Int.ediv_le_ediv hs h1
  have hreach : ∀ k, stop = k * spacing → tick' / spacing < k := fun k hk =>
    (Int.ediv_lt_iff_lt_mul hs).mpr (hk ▸ h2)
  unfold next at h ⊢
  rw [if_neg (not_le.mpr hs)] at h ⊢
  generalize tick' / spacing = n' at *
  obtain ⟨n, hn⟩ : ∃ n, n = tick / spacing + 1 := ⟨_, rfl⟩
  have hbit := slot_bit_lt n
  dsimp only at h ⊢
  rw [← hn] at h
  cases hk : Bits.firstFrom (word m (slot n).word) (slot n).bit with
  | some b =>
    have hspec := Bits.firstFrom_spec (x := word m (slot n).word) (b := (slot n).bit)
    rw [hk] at h hspec
    have hb : b < 256 := bit_lt_of_isSet (s := ⟨(slot n).word, b⟩) hm hspec.2.1
    cases h
    have hlt := hreach _ rfl
    rw [slot_near (n := n) (by omega) (by omega)]
    dsimp only
    rw [Bits.firstFrom_steady hk (by omega) (by simp; omega)]
    dsimp only
    congr 3
    omega
  | none =>
    rw [hk] at h
    cases h
    have hlt := hreach _ rfl
    rw [slot_near (n := n) (by omega) (by omega)]
    dsimp only
    rw [Bits.firstFrom_steady hk (by omega) (by simp)]
    dsimp only
    congr 3
    omega

end WordMap

/-! ## Lists -/

namespace TickList

variable {l : TickList} {i i' tick tick' spacing stop : ℤ} {flag : Bool}

/-- Between two indices that no tick separates the lookups agree. -/
theorem floor?_congr (h : ∀ t ∈ l.ticks, t.index ≤ i' ↔ t.index ≤ i) :
    l.floor? i' = l.floor? i := by
  unfold floor?
  have htake : ∀ ts : List Tick, (∀ t ∈ ts, t.index ≤ i' ↔ t.index ≤ i) →
      (ts.takeWhile fun t => t.index ≤ i') = ts.takeWhile fun t => t.index ≤ i := by
    intro ts hts
    induction ts with
    | nil => rfl
    | cons t ts ih =>
      obtain ⟨ht, hts⟩ := List.forall_mem_cons.mp hts
      simp only [List.takeWhile_cons, decide_eq_decide.mpr ht, ih hts]
  rw [htake _ h]

theorem above?_congr (h : ∀ t ∈ l.ticks, t.index ≤ i' ↔ t.index ≤ i) :
    l.above? i' = l.above? i := by
  unfold above?
  refine List.find?_congr fun t ht => ?_
  rw [decide_eq_decide, ← not_le, ← not_le, h t ht]

theorem next_down_steady (h : l.next tick spacing .down = .ok (stop, flag)) (h1 : stop ≤ tick')
    (h2 : tick' ≤ tick) : l.next tick' spacing .down = .ok (stop, flag) := by
  have hs := spacing_pos_of_next h
  obtain ⟨-, hclear, -⟩ := next_down h
  have hfloor : l.floor? tick' = l.floor? tick := floor?_congr fun t ht => by
    have := hclear t ht
    omega
  have hfirst : tick / spacing / 256 * 256 * spacing ≤ stop := by
    unfold next at h
    rw [if_neg (not_le.mpr hs)] at h
    dsimp only at h
    split at h
    · cases h
      exact le_max_left _ _
    · cases h
      exact le_rfl
  have hword : tick' / spacing / 256 = tick / spacing / 256 := by
    have := Int.ediv_le_ediv hs h2
    have := (Int.le_ediv_iff_mul_le hs).mpr (hfirst.trans h1)
    omega
  unfold next at h ⊢
  rw [if_neg (not_le.mpr hs)] at h ⊢
  dsimp only at h ⊢
  rw [hfloor, hword]
  exact h

theorem next_up_steady (h : l.next tick spacing .up = .ok (stop, flag)) (h1 : tick ≤ tick')
    (h2 : tick' < stop) : l.next tick' spacing .up = .ok (stop, flag) := by
  have hs := spacing_pos_of_next h
  obtain ⟨-, hclear, -⟩ := next_up h
  have habove : l.above? tick' = l.above? tick := above?_congr fun t ht => by
    have := hclear t ht
    omega
  have hlast : stop ≤ ((tick / spacing + 1) / 256 * 256 + 255) * spacing := by
    unfold next at h
    rw [if_neg (not_le.mpr hs)] at h
    dsimp only at h
    split at h
    · cases h
      exact min_le_left _ _
    · cases h
      exact le_rfl
  have hword : (tick' / spacing + 1) / 256 = (tick / spacing + 1) / 256 := by
    have := Int.ediv_le_ediv hs h1
    have := (Int.ediv_lt_iff_lt_mul hs).mpr (h2.trans_le hlast)
    omega
  unfold next at h ⊢
  rw [if_neg (not_le.mpr hs)] at h ⊢
  dsimp only at h ⊢
  rw [habove, hword]
  exact h

end TickList

/-! ## The two kinds of sources -/

/-- **A search that is taken up again in a list gives the same answer.** -/
theorem TickList.steady (l : TickList) (spacing : ℤ) : l.source.Steady spacing := by
  intro tick tick' d stop flag hnext h1 h2
  cases d with
  | down => exact next_down_steady hnext h1 (Int.lt_add_one_iff.mp h2)
  | up => exact next_up_steady hnext h1 h2

/-- **A search that is taken up again in a table gives the same answer.** -/
theorem TickBitmap.steady {b : TickBitmap} (hm : ∀ i, b.words.word i < 2 ^ 256) (spacing : ℤ) :
    b.source.Steady spacing := by
  intro tick tick' d stop flag hnext h1 h2
  obtain ⟨rfl, hword⟩ := next_eq_ok hnext
  simp only [source, next, if_true]
  cases d with
  | down => exact WordMap.next_down_steady hword h1 (Int.lt_add_one_iff.mp h2)
  | up => exact WordMap.next_up_steady hm hword h1 h2

theorem TickSource.Holds.steady {source : TickSource} {ticks : List Tick}
    {numbers : List ℤ} (h : source.Holds ticks numbers) (spacing : ℤ) : source.Steady spacing := by
  cases h with
  | list l => exact l.steady spacing
  | bitmap b hb => exact b.steady hb.indexed.word_lt spacing

end Clamm
