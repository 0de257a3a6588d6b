import Mathlib
import Clamm.Proofs.Ticks.Answers
import Clamm.Proofs.Ticks.Nearest
import Clamm.Proofs.Word.Flags

/-!
# Flags after any number of flips

What flips leave behind is a parity: the flag of a tick is set if it was flipped an odd number of
times. The order of the flips is lost, and as no zero is stored, the map itself depends on nothing
else. So searches can be described by the flips alone, without words, bits and masks.

* `Word.Flags.isSet_flips_iff`: the flag of a grid point after flips.
* `Word.Flags.toList_flips`: the same flips in any order leave the same map.
* `Word.Flags.next_flips_down`, `next_flips_up`: what a search finds after flips.
-/

namespace Clamm.Word.Flags

/-- The map that flips leave, one made after the other from no flags on. -/
def flips (spacing : ℤ) (ticks : List ℤ) : Except Error Flags :=
  ticks.foldlM (fun m t => m.flip t spacing) ∅

/-- The grid points of the word with index `w`. -/
def wordPoints (spacing w : ℤ) : Set ℤ := (· * spacing) '' {n | n / 256 = w}

/-- The grid points of a word that are flipped an odd number of times. -/
def flippedPoints (spacing w : ℤ) (ticks : List ℤ) : Set ℤ :=
  {t ∈ wordPoints spacing w | Odd (ticks.count t)}

variable {m m' : Flags} {slots : List Slot} {s : Slot} {ticks ticks' : List ℤ}
  {spacing tick t n w : ℤ}

/-! ## Flags and parities -/

theorem flip_eq_ok_iff (hs : 0 < spacing) :
    m.flip t spacing = .ok m' ↔ spacing ∣ t ∧ m' = m.toggle (slot (t / spacing)) := by
  unfold flip
  rw [if_neg (not_le.mpr hs)]
  by_cases ht : spacing ∣ t
  · simp [ht, eq_comm]
  · simp [ht]

/-- Flips succeed if every tick is aligned, and toggle the flags of all. -/
theorem foldlM_flip_eq_ok_iff (hs : 0 < spacing) :
    ticks.foldlM (fun m t => m.flip t spacing) m = .ok m' ↔
      (∀ t ∈ ticks, spacing ∣ t) ∧
        m' = (ticks.map fun t => slot (t / spacing)).foldl toggle m := by
  induction ticks generalizing m with
  | nil => exact ⟨fun h => ⟨nofun, (Except.ok.inj h).symm⟩, fun ⟨_, h⟩ => congrArg Except.ok h.symm⟩
  | cons t ts ih =>
    rw [List.foldlM_cons, bind_eq_ok_iff, List.forall_mem_cons, List.map_cons, List.foldl_cons]
    constructor
    · rintro ⟨c, hc, h⟩
      obtain ⟨ht, rfl⟩ := (flip_eq_ok_iff hs).mp hc
      obtain ⟨hts, rfl⟩ := ih.mp h
      exact ⟨⟨ht, hts⟩, rfl⟩
    · rintro ⟨⟨ht, hts⟩, rfl⟩
      exact ⟨_, (flip_eq_ok_iff hs).mpr ⟨ht, rfl⟩, ih.mpr ⟨hts, rfl⟩⟩

/-- A flag changes once for every time that it is toggled. -/
theorem isSet_foldl_toggle (hb : ∀ s ∈ slots, s.bit < 256) (s : Slot) :
    (slots.foldl toggle m).isSet s = (m.isSet s ^^ decide (Odd (slots.count s))) := by
  induction slots generalizing m with
  | nil => simp
  | cons r rs ih =>
    obtain ⟨hr, hrs⟩ := List.forall_mem_cons.mp hb
    rw [List.foldl_cons, ih hrs, isSet_toggle hr, Bool.xor_assoc]
    congr 1
    by_cases hsr : s = r
    · rw [hsr, List.count_cons_self, decide_eq_true rfl, Bool.true_xor, ← decide_not,
        decide_eq_decide, Nat.odd_add_one]
    · rw [List.count_cons_of_ne (Ne.symm hsr), decide_eq_false hsr, Bool.false_xor]

theorem NoZero.foldl_toggle (h : m.NoZero) (slots : List Slot) :
    (slots.foldl Flags.toggle m).NoZero := by
  induction slots generalizing m with
  | nil => exact h
  | cons r rs ih => exact ih (h.toggle r)

theorem noZero_empty : NoZero ∅ := by
  intro i
  rw [Std.TreeMap.getElem?_emptyc]
  exact nofun

theorem isSet_empty (s : Slot) : isSet ∅ s = false := by
  simp [isSet, word]

theorem bit_lt_of_mem_slots (hs : s ∈ ticks.map fun t => slot (t / spacing)) : s.bit < 256 := by
  obtain ⟨t, -, rfl⟩ := List.mem_map.mp hs
  exact slot_bit_lt _

/-- **Flips in any order succeed together and leave the same map.** -/
theorem toList_flips (hs : 0 < spacing) (h : flips spacing ticks = .ok m)
    (hp : ticks'.Perm ticks) : ∃ m', flips spacing ticks' = .ok m' ∧ m'.toList = m.toList := by
  obtain ⟨haligned, rfl⟩ := (foldlM_flip_eq_ok_iff hs).mp h
  refine ⟨_, (foldlM_flip_eq_ok_iff hs).mpr ⟨fun t ht => haligned t (hp.mem_iff.mp ht), rfl⟩, ?_⟩
  refine (noZero_empty.foldl_toggle _).toList_eq (noZero_empty.foldl_toggle _) fun s => ?_
  rw [isSet_foldl_toggle fun _ => bit_lt_of_mem_slots,
    isSet_foldl_toggle fun _ => bit_lt_of_mem_slots, (hp.map _).count_eq]

theorem noZero_flips (hs : 0 < spacing) (h : flips spacing ticks = .ok m) : m.NoZero := by
  obtain ⟨-, rfl⟩ := (foldlM_flip_eq_ok_iff hs).mp h
  exact noZero_empty.foldl_toggle _

/-! ## Ticks apart -/

/-- Ticks of this range have numbers that the slots tell apart. -/
theorem div_range (hs : 0 < spacing) (ht : |t| < 2 ^ 22 * spacing) :
    -2 ^ 22 ≤ t / spacing ∧ t / spacing < 2 ^ 22 := by
  obtain ⟨h1, h2⟩ := abs_lt.mp ht
  exact ⟨(Int.le_ediv_iff_mul_le hs).mpr (by linarith), (Int.ediv_lt_iff_lt_mul hs).mpr h2⟩

theorem numbered_div (hs : 0 < spacing) (ht : |t| < 2 ^ 22 * spacing) : Numbered (t / spacing) := by
  obtain ⟨h1, h2⟩ := div_range hs ht
  exact ⟨by omega, by omega⟩

/-- **The flag of a grid point is set if it is flipped an odd number of times.** -/
theorem isSet_flips_iff (hs : 0 < spacing) (hticks : ∀ t ∈ ticks, |t| < 2 ^ 22 * spacing)
    (h : flips spacing ticks = .ok m) (hn : Numbered n) :
    m.isSet (slot n) = true ↔ Odd (ticks.count (n * spacing)) := by
  obtain ⟨haligned, rfl⟩ := (foldlM_flip_eq_ok_iff hs).mp h
  have hcount : (ticks.map fun t => slot (t / spacing)).count (slot n) =
      ticks.count (n * spacing) := by
    rw [List.count_eq_countP, List.count_eq_countP, List.countP_map]
    refine List.countP_congr fun t ht => ?_
    simp only [Function.comp_apply, beq_iff_eq]
    constructor
    · intro hslot
      rw [← slot_inj (numbered_div hs (hticks t ht)) hn hslot, Int.ediv_mul_cancel (haligned t ht)]
    · rintro rfl
      rw [Int.mul_ediv_cancel _ hs.ne']
  rw [isSet_foldl_toggle fun _ => bit_lt_of_mem_slots, isSet_empty, Bool.false_xor, hcount,
    decide_eq_true_iff]

/-! ## Searches -/

/-- The numbers of the grid points of a word whose flags are set. -/
def flaggedNumbers (m : Flags) (w : ℤ) : Set ℤ := {n | n / 256 = w ∧ m.isSet (slot n) = true}

/-- A search downward, by numbers of grid points: the last one at or below the start whose flag is
set, or the first one of the word. -/
theorem next_down (m : Flags) (hs : 0 < spacing) (tick : ℤ) :
    ∃ k flag, m.next tick spacing .down = .ok (k * spacing, flag) ∧
      if flag then
        IsGreatest (m.flaggedNumbers (tick / spacing / 256) ∩ Set.Iic (tick / spacing)) k
      else
        m.flaggedNumbers (tick / spacing / 256) ∩ Set.Iic (tick / spacing) = ∅ ∧
          k = tick / spacing / 256 * 256 := by
  obtain ⟨stop, flag, hnext⟩ := m.numbers.next_total hs tick .down
  have hm : ∀ i, m.numbers.word i < 2 ^ 256 := fun i => word_numbers m i ▸ (m.word i).isLt
  obtain ⟨k, ⟨-, hk⟩, rfl, rfl, hclear⟩ := WordMap.next_down hnext
  obtain ⟨hfirst, hend⟩ := WordMap.next_within hm hnext
  have hfirst := le_of_mul_le_mul_right hfirst hs
  simp only [isSet_numbers, Direction.wordEnd] at hclear hend hnext
  refine ⟨k, m.isSet (slot k), next_numbers m tick spacing .down ▸ hnext, ?_⟩
  generalize tick / spacing = n at *
  split
  · rename_i hset
    refine ⟨⟨⟨by omega, hset⟩, hk⟩, fun j ⟨⟨_, hj⟩, hjn⟩ => ?_⟩
    by_contra hlt
    rw [hclear j (not_le.mp hlt) hjn] at hj
    cases hj
  · rename_i hset
    have hset := Bool.eq_false_iff.mpr hset
    have hk : k = n / 256 * 256 := mul_right_cancel₀ hs.ne' (hend hset)
    refine ⟨Set.eq_empty_of_forall_notMem fun j ⟨⟨hw, hj⟩, hjn⟩ => ?_, hk⟩
    rcases eq_or_ne j k with rfl | hne
    · rw [hset] at hj
      cases hj
    · rw [hclear j (by omega) hjn] at hj
      cases hj

/-- A search upward, by numbers of grid points: the first one above the start whose flag is set, or
the last one of the word. -/
theorem next_up (m : Flags) (hs : 0 < spacing) (tick : ℤ) :
    ∃ k flag, m.next tick spacing .up = .ok (k * spacing, flag) ∧
      if flag then
        IsLeast (m.flaggedNumbers ((tick / spacing + 1) / 256) ∩ Set.Ioi (tick / spacing)) k
      else
        m.flaggedNumbers ((tick / spacing + 1) / 256) ∩ Set.Ioi (tick / spacing) = ∅ ∧
          k = (tick / spacing + 1) / 256 * 256 + 255 := by
  obtain ⟨stop, flag, hnext⟩ := m.numbers.next_total hs tick .up
  have hm : ∀ i, m.numbers.word i < 2 ^ 256 := fun i => word_numbers m i ▸ (m.word i).isLt
  obtain ⟨k, ⟨hk, -⟩, rfl, rfl, hclear⟩ := WordMap.next_up hm hnext
  obtain ⟨hlast, hend⟩ := WordMap.next_within hm hnext
  have hlast := le_of_mul_le_mul_right hlast hs
  simp only [isSet_numbers, Direction.wordEnd] at hclear hend hnext
  refine ⟨k, m.isSet (slot k), next_numbers m tick spacing .up ▸ hnext, ?_⟩
  generalize tick / spacing = n at *
  split
  · rename_i hset
    refine ⟨⟨⟨by omega, hset⟩, hk⟩, fun j ⟨⟨_, hj⟩, hjn⟩ => ?_⟩
    by_contra hlt
    rw [hclear j hjn (not_le.mp hlt)] at hj
    cases hj
  · rename_i hset
    have hset := Bool.eq_false_iff.mpr hset
    have hk : k = (n + 1) / 256 * 256 + 255 := mul_right_cancel₀ hs.ne' (hend hset)
    refine ⟨Set.eq_empty_of_forall_notMem fun j ⟨⟨hw, hj⟩, hjn⟩ => ?_, hk⟩
    rcases eq_or_ne j k with rfl | hne
    · rw [hset] at hj
      cases hj
    · rw [hclear j hjn (by omega)] at hj
      cases hj

/-! ## Searches after flips -/

/-- The flipped grid points are those whose flags are set. -/
theorem flippedPoints_eq (hs : 0 < spacing) (hticks : ∀ t ∈ ticks, |t| < 2 ^ 22 * spacing)
    (h : flips spacing ticks = .ok m) (hw : -2 ^ 15 ≤ w ∧ w < 2 ^ 15) :
    flippedPoints spacing w ticks = (· * spacing) '' m.flaggedNumbers w := by
  ext t
  constructor
  · rintro ⟨⟨n, hn, rfl⟩, hodd⟩
    have hn' : n / 256 = w := hn
    exact ⟨n, ⟨hn, (isSet_flips_iff hs hticks h ⟨by omega, by omega⟩).mpr hodd⟩, rfl⟩
  · rintro ⟨n, ⟨hn, hset⟩, rfl⟩
    exact ⟨⟨n, hn, rfl⟩, (isSet_flips_iff hs hticks h ⟨by omega, by omega⟩).mp hset⟩

theorem preimage_mul_Iic (hs : 0 < spacing) (tick : ℤ) :
    Set.preimage (· * spacing) (Set.Iic tick) = Set.Iic (tick / spacing) :=
  Set.ext fun _ => (Int.le_ediv_iff_mul_le hs).symm

theorem preimage_mul_Ioi (hs : 0 < spacing) (tick : ℤ) :
    Set.preimage (· * spacing) (Set.Ioi tick) = Set.Ioi (tick / spacing) :=
  Set.ext fun _ => (Int.ediv_lt_iff_lt_mul hs).symm

theorem isLeast_wordPoints (hs : 0 < spacing) (w : ℤ) :
    IsLeast (wordPoints spacing w) (w * 256 * spacing) := by
  refine (monotone_mul_right_of_nonneg hs.le).map_isLeast ⟨?_, fun n (hn : n / 256 = w) => ?_⟩
  · exact Int.mul_ediv_cancel w (by decide)
  · omega

theorem isGreatest_wordPoints (hs : 0 < spacing) (w : ℤ) :
    IsGreatest (wordPoints spacing w) ((w * 256 + 255) * spacing) := by
  refine (monotone_mul_right_of_nonneg hs.le).map_isGreatest ⟨?_, fun n (hn : n / 256 = w) => ?_⟩
  · show (w * 256 + 255) / 256 = w
    omega
  · omega

/-- **A search downward** finds the greatest flipped grid point of the word of its start, its start
included, or stops at the first grid point of that word. -/
theorem next_flips_down (hs : 0 < spacing) (hticks : ∀ t ∈ ticks, |t| < 2 ^ 22 * spacing)
    (h : flips spacing ticks = .ok m) (htick : |tick| < 2 ^ 22 * spacing) :
    ∃ stop flag, m.next tick spacing .down = .ok (stop, flag) ∧
      if flag then
        IsGreatest (flippedPoints spacing (tick / spacing / 256) ticks ∩ Set.Iic tick) stop
      else
        flippedPoints spacing (tick / spacing / 256) ticks ∩ Set.Iic tick = ∅ ∧
          IsLeast (wordPoints spacing (tick / spacing / 256)) stop := by
  have hw := div_range hs htick
  obtain ⟨k, flag, hnext, hk⟩ := m.next_down hs tick
  refine ⟨_, flag, hnext, ?_⟩
  rw [flippedPoints_eq hs hticks h (by omega), ← Set.image_inter_preimage, preimage_mul_Iic hs]
  cases flag with
  | true => exact (monotone_mul_right_of_nonneg hs.le).map_isGreatest hk
  | false =>
    obtain ⟨hempty, rfl⟩ := hk
    exact ⟨by rw [hempty, Set.image_empty], isLeast_wordPoints hs _⟩

/-- **A search upward** finds the least flipped grid point above its start in the word of the next
grid point, or stops at the last grid point of that word. -/
theorem next_flips_up (hs : 0 < spacing) (hticks : ∀ t ∈ ticks, |t| < 2 ^ 22 * spacing)
    (h : flips spacing ticks = .ok m) (htick : |tick| < 2 ^ 22 * spacing) :
    ∃ stop flag, m.next tick spacing .up = .ok (stop, flag) ∧
      if flag then
        IsLeast (flippedPoints spacing ((tick / spacing + 1) / 256) ticks ∩ Set.Ioi tick) stop
      else
        flippedPoints spacing ((tick / spacing + 1) / 256) ticks ∩ Set.Ioi tick = ∅ ∧
          IsGreatest (wordPoints spacing ((tick / spacing + 1) / 256)) stop := by
  have hw := div_range hs htick
  obtain ⟨k, flag, hnext, hk⟩ := m.next_up hs tick
  refine ⟨_, flag, hnext, ?_⟩
  rw [flippedPoints_eq hs hticks h (by omega), ← Set.image_inter_preimage, preimage_mul_Ioi hs]
  cases flag with
  | true => exact (monotone_mul_right_of_nonneg hs.le).map_isLeast hk
  | false =>
    obtain ⟨hempty, rfl⟩ := hk
    exact ⟨by rw [hempty, Set.image_empty], isGreatest_wordPoints hs _⟩

/-- **What flips leave.** Flips that succeed do so in any order, with the same map; no word that is
stored is zero; and every search stops at the nearest grid point of the word it looks into that was
flipped an odd number of times, or at the end of the word if there is none. -/
theorem flips_are_found (hs : 0 < spacing) (hticks : ∀ t ∈ ticks, |t| < 2 ^ 22 * spacing)
    (h : flips spacing ticks = .ok m) :
    (∀ ticks' : List ℤ, ticks'.Perm ticks →
      ∃ m', flips spacing ticks' = .ok m' ∧ m'.toList = m.toList) ∧
    (∀ i : ℤ, m[i]? ≠ some 0) ∧
    ∀ tick, |tick| < 2 ^ 22 * spacing →
      (∃ stop flag, m.next tick spacing .down = .ok (stop, flag) ∧
        if flag then
          IsGreatest (flippedPoints spacing (tick / spacing / 256) ticks ∩ Set.Iic tick) stop
        else
          flippedPoints spacing (tick / spacing / 256) ticks ∩ Set.Iic tick = ∅ ∧
            IsLeast (wordPoints spacing (tick / spacing / 256)) stop) ∧
      ∃ stop flag, m.next tick spacing .up = .ok (stop, flag) ∧
        if flag then
          IsLeast (flippedPoints spacing ((tick / spacing + 1) / 256) ticks ∩ Set.Ioi tick) stop
        else
          flippedPoints spacing ((tick / spacing + 1) / 256) ticks ∩ Set.Ioi tick = ∅ ∧
            IsGreatest (wordPoints spacing ((tick / spacing + 1) / 256)) stop :=
  ⟨fun _ hp => toList_flips hs h hp, noZero_flips hs h, fun _ htick =>
    ⟨next_flips_down hs hticks h htick, next_flips_up hs hticks h htick⟩⟩

/-- A search from between two grid points below zero passes the lower one, which is flipped twice,
and finds the first grid point of its word, at bit 0. -/
theorem flips_are_found_at_word_start : ∃ m : Flags,
    flips 60 [-60, 15300, -120, -15360, -120] = .ok m ∧
      (∀ t ∈ [-60, 15300, -120, -15360, -120], |t| < 2 ^ 22 * (60 : ℤ)) ∧
      |(-61 : ℤ)| < 2 ^ 22 * 60 ∧ m.next (-61) 60 .down = .ok (-15360, true) := by
  have haligned : ∀ t ∈ [-60, 15300, -120, -15360, -120], (60 : ℤ) ∣ t := by decide
  have hticks : ∀ t ∈ [-60, 15300, -120, -15360, -120], |t| < 2 ^ 22 * (60 : ℤ) := by decide
  have hflips := (foldlM_flip_eq_ok_iff (m := ∅) (by decide)).mpr ⟨haligned, rfl⟩
  refine ⟨_, hflips, hticks, by decide, ?_⟩
  obtain ⟨stop, flag, hnext, hstop⟩ :=
    ((flips_are_found (by decide) hticks hflips).2.2 (-61) (by decide)).1
  have hfirst : (-15360 : ℤ) ∈ flippedPoints 60 (-61 / 60 / 256)
      [-60, 15300, -120, -15360, -120] ∩ Set.Iic (-61) :=
    ⟨⟨⟨-256, (by decide : (-256 : ℤ) / 256 = -61 / 60 / 256), rfl⟩, by decide⟩, by decide⟩
  rw [hnext]
  cases flag with
  | true =>
    obtain ⟨⟨⟨-, hodd⟩, hle : stop ≤ -61⟩, -⟩ := hstop
    have hmem := List.count_pos_iff.mp hodd.pos
    simp only [List.mem_cons, List.not_mem_nil, or_false] at hmem
    rcases hmem with rfl | rfl | rfl | rfl | rfl
    · omega
    · omega
    · exact absurd hodd (by decide)
    · rfl
    · exact absurd hodd (by decide)
  | false =>
    rw [hstop.1] at hfirst
    cases hfirst

end Clamm.Word.Flags
