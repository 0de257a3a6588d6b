import Mathlib
import Clamm.Proofs.Ticks.Source
import Clamm.Proofs.Ticks.Writes
import Clamm.Tick.Flagged

/-!
# Flag maps that agree with their ticks

`TickBitmap.insert` and `TickBitmap.remove` toggle one flag for each index that starts or stops
being stored. Two indices may share a flag, so what they keep is a parity: a flag is set exactly
when an odd number of stored indices have it (`Tracks`). Among indices on the grid no two share a
flag, and the flags are then the stored indices.

Ticks that come with words of flags are stored under the flags as they are. Where two of them share
a flag the parity is lost from the start, and removing one clears the flag of the other.

* `TickBitmap.Built`: the tables that the operations build, and the ticks that came with words.
* `Built.indexed`: what every one of them keeps of its ticks.
* `Built.consistent`: with words that tell the loaded ticks apart, the parity.
* `isSet_slot_iff`: on the grid a flag is then set exactly where a tick is stored.
* `Built.faithful`: such a table is faithful to its ticks; `Built.meets`: searches over any table
  meet its flagged ticks.
* `unflagged`, `orphaned`: tables that lost a flag of a tick, and a tick of a flag.
-/

namespace Clamm

/-! ## Parity -/

/-- A flag is set exactly when it is the flag of an odd number of the indices in `S`. -/
def Tracks (m : WordMap) (f : ℤ → Slot) (S : Finset ℤ) : Prop :=
  ∀ s, m.isSet s = true ↔ Odd (S.filter fun i => f i = s).card

section Parity

variable {m : WordMap} {f : ℤ → Slot} {S : Finset ℤ} {i spacing : ℤ} {s : Slot}

theorem odd_card_filter_insert (hi : i ∉ S) :
    Odd ((insert i S).filter fun j => f j = s).card ↔
      ¬ (Odd (S.filter fun j => f j = s).card ↔ f i = s) := by
  rw [Finset.filter_insert]
  by_cases hs : f i = s
  · have hmem : i ∉ S.filter fun j => f j = s := fun h => hi (Finset.mem_filter.mp h).1
    rw [if_pos hs, Finset.card_insert_of_notMem hmem, Nat.odd_add_one]
    simp [hs]
  · rw [if_neg hs]
    simp [hs]

theorem isSet_toggle_iff : (m.toggle (f i)).isSet s = true ↔ ¬ (m.isSet s = true ↔ f i = s) := by
  rw [WordMap.isSet_toggle]
  by_cases hs : f i = s
  · cases h : m.isSet s <;> simp [hs]
  · have hs' : ¬ s = f i := fun e => hs e.symm
    cases h : m.isSet s <;> simp [hs, hs']

theorem Tracks.insert (h : Tracks m f S) (hi : i ∉ S) :
    Tracks (m.toggle (f i)) f (insert i S) := by
  intro s
  rw [isSet_toggle_iff, odd_card_filter_insert hi, h s]

theorem Tracks.erase (h : Tracks m f S) (hi : i ∈ S) : Tracks (m.toggle (f i)) f (S.erase i) := by
  intro s
  have hodd := odd_card_filter_insert (f := f) (s := s) (Finset.notMem_erase i S)
  rw [Finset.insert_erase hi] at hodd
  rw [isSet_toggle_iff, h s, hodd]
  tauto

theorem Tracks.empty : Tracks ∅ f ∅ := by
  intro s
  simp [WordMap.isSet, WordMap.word]

/-- Among aligned indices whose numbers the slots tell apart, a flag has at most one index. -/
theorem odd_card_iff (hS : ∀ i ∈ S, spacing ∣ i ∧ Numbered (i / spacing)) :
    Odd (S.filter fun i => slot (i / spacing) = s).card ↔ ∃ i ∈ S, slot (i / spacing) = s := by
  have hone : (S.filter fun i => slot (i / spacing) = s).card ≤ 1 := by
    refine Finset.card_le_one.mpr fun i hi j hj => ?_
    obtain ⟨hi, his⟩ := Finset.mem_filter.mp hi
    obtain ⟨hj, hjs⟩ := Finset.mem_filter.mp hj
    have := slot_inj (hS i hi).2 (hS j hj).2 (his.trans hjs.symm)
    rw [← Int.ediv_mul_cancel (hS i hi).1, ← Int.ediv_mul_cancel (hS j hj).1, this]
  have hpos : Odd (S.filter fun i => slot (i / spacing) = s).card ↔
      0 < (S.filter fun i => slot (i / spacing) = s).card := by
    constructor
    · exact fun h => h.pos
    · intro h
      rw [show (S.filter fun i => slot (i / spacing) = s).card = 1 by omega]
      exact odd_one
  rw [hpos, Finset.card_pos]
  simp [Finset.Nonempty]

end Parity

/-! ## Tables -/

namespace TickBitmap

/-- The tables that the operations build from any ticks and from words of 256 bits, and the numbers
on the grid of the ticks that came with words. -/
inductive Built : TickBitmap → List ℤ → Prop
  | empty {spacing : ℤ} {b : TickBitmap} (h : TickBitmap.empty spacing = .ok b) : Built b []
  | ofWords {spacing : ℤ} {words : WordMap} {ticks : List Tick} {b : TickBitmap}
      (hw : ∀ i, words.word i < 2 ^ 256) (h : TickBitmap.ofWords spacing words ticks = .ok b) :
      Built b (ticks.map fun t => t.index / spacing)
  | insert {b b' : TickBitmap} {numbers : List ℤ} {t : Tick} (hb : Built b numbers)
      (h : b.insert t = .ok b') : Built b' numbers
  | remove {b : TickBitmap} {numbers : List ℤ} (hb : Built b numbers) (i : ℤ) :
      Built (b.remove i).2 numbers

/-- The stored indices. -/
def stored (b : TickBitmap) : Finset ℤ := b.ticks.keys.toFinset

/-- The stored ticks. -/
def tickList (b : TickBitmap) : List Tick := b.ticks.toList.map Prod.snd

/-- The stored ticks whose flag is set. -/
def flaggedTicks (b : TickBitmap) : List Tick :=
  b.tickList.filter fun t => b.words.isSet (b.slotOf t.index)

/-- What the operations keep whatever the words are: every tick is stored at its own index, which is
aligned, and no word has more than its bits. -/
structure Indexed (b : TickBitmap) : Prop where
  key : ∀ {i : ℤ} {t : Tick}, b.ticks[i]? = some t → t.index = i
  aligned : ∀ i ∈ b.stored, b.spacing ∣ i
  word_lt : ∀ i, b.words.word i < 2 ^ 256

/-- A table whose flags keep the parity of its ticks. -/
structure Consistent (b : TickBitmap) : Prop extends b.Indexed where
  tracks : Tracks b.words b.slotOf b.stored

variable {b b' : TickBitmap} {i spacing : ℤ} {t : Tick}

theorem mem_stored : i ∈ b.stored ↔ i ∈ b.ticks := by
  simp [stored, Std.TreeMap.mem_keys]

theorem mem_stored_iff_some : i ∈ b.stored ↔ ∃ t, b.ticks[i]? = some t := by
  rw [mem_stored, Std.TreeMap.mem_iff_isSome_getElem?, Option.isSome_iff_exists]

theorem word_toggle_lt {m : WordMap} (hm : ∀ i, m.word i < 2 ^ 256) (n : ℤ) (i : ℤ) :
    (m.toggle (slot n)).word i < 2 ^ 256 := by
  rw [WordMap.word_toggle]
  split
  · refine Nat.xor_lt_two_pow (hm _) ?_
    rw [Nat.one_shiftLeft]
    exact Nat.pow_lt_pow_right one_lt_two (slot_bit_lt n)
  · exact hm i

theorem remove_spacing (b : TickBitmap) (i : ℤ) : (b.remove i).2.spacing = b.spacing := by
  unfold remove
  split <;> rfl

theorem insert_spacing (h : b.insert t = .ok b') : b'.spacing = b.spacing := by
  unfold TickBitmap.insert at h
  split at h
  · cases h
  · split at h
    · cases h
      exact remove_spacing b t.index
    · cases h
      rfl

theorem getElem?_remove (b : TickBitmap) (i j : ℤ) :
    (b.remove i).2.ticks[j]? = if i = j then none else b.ticks[j]? := by
  unfold remove
  split
  · simp [Std.TreeMap.getElem?_erase]
  · rename_i hnone
    split
    · rename_i hij
      rw [← hij, hnone]
    · rfl

theorem stored_remove (b : TickBitmap) (i : ℤ) : (b.remove i).2.stored = b.stored.erase i := by
  ext j
  simp only [Finset.mem_erase, mem_stored_iff_some, getElem?_remove]
  by_cases hij : i = j
  · simp [hij]
  · simp [hij, Ne.symm hij]

theorem stored_insert_tick (b : TickBitmap) (words : WordMap) (t : Tick) :
    stored { b with words, ticks := b.ticks.insert t.index t } =
      Insert.insert t.index b.stored := by
  ext j
  rw [Finset.mem_insert, mem_stored, mem_stored, Std.TreeMap.mem_insert, compare_eq_iff_eq, eq_comm]

theorem words_remove (b : TickBitmap) (i : ℤ) : (b.remove i).2.words =
    if i ∈ b.stored then b.words.toggle (b.slotOf i) else b.words := by
  unfold TickBitmap.remove
  split
  · rename_i t ht
    rw [if_pos (mem_stored_iff_some.mpr ⟨t, ht⟩)]
  · rename_i hnone
    rw [if_neg fun hmem => ?_]
    obtain ⟨t, ht⟩ := mem_stored_iff_some.mp hmem
    rw [hnone] at ht
    cases ht

theorem Indexed.remove (h : b.Indexed) (i : ℤ) : (b.remove i).2.Indexed := by
  refine ⟨fun {j u} hu => ?_, fun j hj => ?_, fun j => ?_⟩
  · rw [getElem?_remove] at hu
    split at hu
    · cases hu
    · exact h.key hu
  · rw [stored_remove] at hj
    rw [remove_spacing]
    exact h.aligned j (Finset.mem_of_mem_erase hj)
  · rw [words_remove]
    split
    · exact word_toggle_lt h.word_lt _ j
    · exact h.word_lt j

theorem Consistent.remove (h : b.Consistent) (i : ℤ) : (b.remove i).2.Consistent := by
  refine ⟨h.toIndexed.remove i, ?_⟩
  unfold slotOf
  rw [remove_spacing, stored_remove, words_remove]
  split
  · exact h.tracks.erase ‹_›
  · rw [Finset.erase_eq_of_notMem ‹_›]
    exact h.tracks

theorem Indexed.insert (h : b.Indexed) (hins : b.insert t = .ok b') : b'.Indexed := by
  unfold TickBitmap.insert at hins
  split at hins
  · cases hins
  rename_i hal
  split at hins
  · cases hins
    exact h.remove t.index
  cases hins
  refine ⟨fun {j u} hu => ?_, fun j hj => ?_, fun j => ?_⟩
  · rw [Std.TreeMap.getElem?_insert] at hu
    split at hu
    · rename_i hj
      cases hu
      simpa using hj
    · exact h.key hu
  · rw [stored_insert_tick] at hj
    rcases Finset.mem_insert.mp hj with rfl | hj
    · exact not_not.mp hal
    · exact h.aligned j hj
  · dsimp only
    split
    · exact h.word_lt j
    · exact word_toggle_lt h.word_lt _ j

theorem Consistent.insert (h : b.Consistent) (hins : b.insert t = .ok b') : b'.Consistent := by
  refine ⟨h.toIndexed.insert hins, ?_⟩
  unfold TickBitmap.insert at hins
  split at hins
  · cases hins
  split at hins
  · cases hins
    exact (h.remove t.index).tracks
  cases hins
  rw [stored_insert_tick]
  by_cases hmem : t.index ∈ b.ticks
  · rw [Finset.insert_eq_of_mem (mem_stored.mpr hmem)]
    simp only [hmem, if_true]
    exact h.tracks
  · simp only [hmem, if_false]
    exact h.tracks.insert fun hs => hmem (mem_stored.mp hs)

theorem Consistent.empty (h : TickBitmap.empty spacing = .ok b) : b.Consistent := by
  unfold TickBitmap.empty at h
  split at h
  · cases h
    refine ⟨⟨fun hi => ?_, fun i hi => ?_, fun i => ?_⟩, ?_⟩
    · simp at hi
    · simp [mem_stored] at hi
    · simp [WordMap.word]
    · exact Tracks.empty
  · cases h

/-! ### Words that come with their ticks -/

theorem load_eq_ok_iff : b.load t = .ok b' ↔
    (b.spacing ∣ t.index ∧ b.words.isSet (b.slotOf t.index) = true) ∧
      b' = { b with ticks := b.ticks.insert t.index t } := by
  unfold load
  split
  · simp [*]
  · split
    · simp [*]
    · rename_i hal hset
      simp [not_not.mp hal, not_not.mp hset, eq_comm]

/-- Loading stores aligned ticks under set flags, and changes nothing else. -/
theorem foldlM_load_eq_ok_iff {ticks : List Tick} : ticks.foldlM load b = .ok b' ↔
    (∀ t ∈ ticks, b.spacing ∣ t.index ∧ b.words.isSet (b.slotOf t.index) = true) ∧
      b' = { b with ticks := ticks.foldl (fun m t => m.insert t.index t) b.ticks } := by
  induction ticks generalizing b with
  | nil =>
    constructor
    · intro h
      cases h
      exact ⟨nofun, rfl⟩
    · rintro ⟨-, rfl⟩
      rfl
  | cons t ts ih =>
    rw [List.foldlM_cons, bind_eq_ok_iff, List.forall_mem_cons, List.foldl_cons]
    constructor
    · rintro ⟨c, hc, h⟩
      obtain ⟨ht, rfl⟩ := load_eq_ok_iff.mp hc
      obtain ⟨hts, rfl⟩ := ih.mp h
      exact ⟨⟨ht, hts⟩, rfl⟩
    · rintro ⟨⟨ht, hts⟩, rfl⟩
      exact ⟨_, load_eq_ok_iff.mpr ⟨ht, rfl⟩, ih.mpr ⟨hts, rfl⟩⟩

/-- Every set flag is listed. -/
theorem mem_flagged {m : WordMap} (hm : ∀ i, m.word i < 2 ^ 256) {s : Slot}
    (hs : m.isSet s = true) : (s.word * 256 + s.bit) * spacing ∈ m.flagged spacing := by
  obtain ⟨w, hw⟩ : ∃ w, m[s.word]? = some w := by
    rw [← Option.isSome_iff_exists, Option.isSome_iff_ne_none]
    intro hnone
    simp [WordMap.isSet, WordMap.word, hnone] at hs
  have hbit : w.testBit s.bit = true := by simpa [WordMap.isSet, WordMap.word, hw] using hs
  unfold WordMap.flagged
  rw [List.mem_flatMap]
  refine ⟨(s.word, w), Std.TreeMap.mem_toList_iff_getElem?_eq_some.mpr hw, ?_⟩
  rw [List.mem_filterMap]
  exact ⟨s.bit, List.mem_range.mpr (WordMap.bit_lt_of_isSet hm hs), if_pos hbit⟩

/-- The table of the given ticks under the given words. -/
def holding (hs : 0 < spacing) (words : WordMap) (ticks : List Tick) : TickBitmap :=
  ⟨spacing, hs, words, ticks.foldl (fun m t => m.insert t.index t) ∅⟩

theorem getElem?_holding {hs : 0 < spacing} {words : WordMap} {ticks : List Tick} (i : ℤ) :
    (holding hs words ticks).ticks[i]? =
      lastWritten i none (ticks.map fun t => (t.index, some t)) := by
  unfold holding
  rw [getElem?_foldl_insert, Std.TreeMap.getElem?_emptyc]

/-- Words and ticks are accepted if every tick is aligned and flagged, and every flag has its
tick. -/
theorem ofWords_eq_ok_iff {words : WordMap} {ticks : List Tick} :
    TickBitmap.ofWords spacing words ticks = .ok b ↔ ∃ hs : 0 < spacing,
      (∀ t ∈ ticks, spacing ∣ t.index ∧ words.isSet (slot (t.index / spacing)) = true) ∧
        (∀ i ∈ words.flagged spacing, i ∈ b.stored) ∧ b = holding hs words ticks := by
  unfold TickBitmap.ofWords TickBitmap.empty
  split
  · rename_i hs
    simp only [ok_bind, bind_eq_ok_iff, foldlM_load_eq_ok_iff]
    constructor
    · rintro ⟨c, ⟨hticks, rfl⟩, h⟩
      split at h
      · cases h
      · rename_i hall
        cases h
        refine ⟨hs, hticks, fun i hi => mem_stored.mpr ?_, rfl⟩
        simpa using List.find?_eq_none.mp hall i hi
    · rintro ⟨hs, hticks, hall, rfl⟩
      refine ⟨_, ⟨hticks, rfl⟩, ?_⟩
      have hnone : ((words.flagged spacing).find? fun i => i ∉ (holding hs words ticks).ticks) =
          none := List.find?_eq_none.mpr fun i hi => by simpa using mem_stored.mp (hall i hi)
      unfold holding at hnone ⊢
      simp only [hnone]
  · rename_i hs
    constructor
    · intro h
      cases h
    · rintro ⟨hs', -⟩
      exact absurd hs' hs

/-- Every listed index has its flag set. -/
theorem of_mem_flagged {m : WordMap} (h : i ∈ m.flagged spacing) :
    ∃ s : Slot, m.isSet s = true ∧ i = (s.word * 256 + s.bit) * spacing := by
  unfold WordMap.flagged at h
  obtain ⟨⟨w, x⟩, hw, h⟩ := List.mem_flatMap.mp h
  obtain ⟨j, -, hj⟩ := List.mem_filterMap.mp h
  rw [Std.TreeMap.mem_toList_iff_getElem?_eq_some] at hw
  split at hj
  · rename_i hbit
    cases hj
    exact ⟨⟨w, j⟩, by simpa [WordMap.isSet, WordMap.word, hw] using hbit, rfl⟩
  · cases hj

theorem ofWords_spacing {words : WordMap} {ticks : List Tick}
    (h : TickBitmap.ofWords spacing words ticks = .ok b) : b.spacing = spacing := by
  obtain ⟨hs, -, -, rfl⟩ := ofWords_eq_ok_iff.mp h
  rfl

/-- What is stored came with the words, aligned and under a flag. -/
theorem mem_of_ofWords {words : WordMap} {ticks : List Tick}
    (h : TickBitmap.ofWords spacing words ticks = .ok b) (ht : b.ticks[i]? = some t) :
    t ∈ ticks ∧ t.index = i := by
  obtain ⟨hs, -, -, rfl⟩ := ofWords_eq_ok_iff.mp h
  rw [getElem?_holding] at ht
  exact mem_of_lastWritten_ticks ht

theorem Indexed.ofWords {words : WordMap} {ticks : List Tick} (hw : ∀ i, words.word i < 2 ^ 256)
    (h : TickBitmap.ofWords spacing words ticks = .ok b) : b.Indexed := by
  refine ⟨fun ht => (mem_of_ofWords h ht).2, fun i hi => ?_, ?_⟩
  · obtain ⟨t, ht⟩ := mem_stored_iff_some.mp hi
    obtain ⟨hmem, rfl⟩ := mem_of_ofWords h ht
    obtain ⟨-, hticks, -⟩ := ofWords_eq_ok_iff.mp h
    exact ofWords_spacing h ▸ (hticks t hmem).1
  · obtain ⟨hs, -, -, rfl⟩ := ofWords_eq_ok_iff.mp h
    exact hw

/-- Words that tell their ticks apart flag an odd number of them, which is one, or none. -/
theorem Consistent.ofWords {words : WordMap} {ticks : List Tick} (hw : ∀ i, words.word i < 2 ^ 256)
    (ht : ∀ t ∈ ticks, Numbered (t.index / spacing))
    (h : TickBitmap.ofWords spacing words ticks = .ok b) : b.Consistent := by
  refine ⟨Indexed.ofWords hw h, fun s => ?_⟩
  obtain ⟨hpos, hticks, hall, hb⟩ := ofWords_eq_ok_iff.mp h
  have hgrid : ∀ i ∈ b.stored, (spacing ∣ i ∧ Numbered (i / spacing)) ∧
      words.isSet (slot (i / spacing)) = true := by
    intro i hi
    obtain ⟨t, hi⟩ := mem_stored_iff_some.mp hi
    obtain ⟨hmem, rfl⟩ := mem_of_ofWords h hi
    exact ⟨⟨(hticks t hmem).1, ht t hmem⟩, (hticks t hmem).2⟩
  have hwords : b.words = words := by rw [hb, holding]
  unfold slotOf
  rw [ofWords_spacing h, hwords, odd_card_iff fun i hi => (hgrid i hi).1]
  constructor
  · intro hset
    have hmem := hall _ (mem_flagged hw hset)
    have hnum := (hgrid _ hmem).1.2
    rw [Int.mul_ediv_cancel _ hpos.ne'] at hnum
    refine ⟨_, hmem, ?_⟩
    rw [Int.mul_ediv_cancel _ hpos.ne', slot_mul_add (WordMap.bit_lt_of_isSet hw hset) hnum]
  · rintro ⟨i, hi, rfl⟩
    exact (hgrid i hi).2

/-! ### Every table -/

theorem Built.indexed {numbers : List ℤ} (h : b.Built numbers) : b.Indexed := by
  induction h with
  | empty h => exact (Consistent.empty h).toIndexed
  | ofWords hw h => exact Indexed.ofWords hw h
  | insert _ h ih => exact ih.insert h
  | remove _ i ih => exact ih.remove i

/-- **A table keeps the parity if the words tell the loaded ticks apart.** -/
theorem Built.consistent {numbers : List ℤ} (h : b.Built numbers)
    (hnum : ∀ n ∈ numbers, Numbered n) : b.Consistent := by
  induction h with
  | empty h => exact Consistent.empty h
  | ofWords hw h =>
    exact Consistent.ofWords hw (fun t ht => hnum _ (List.mem_map_of_mem ht)) h
  | insert _ h ih => exact (ih hnum).insert h
  | remove _ i ih => exact (ih hnum).remove i

theorem Built.foldlM_insert {numbers : List ℤ} : ∀ {ticks : List Tick} {b b' : TickBitmap},
    b.Built numbers → ticks.foldlM TickBitmap.insert b = .ok b' → b'.Built numbers
  | [], b, b', hb, h => by
    cases h
    exact hb
  | t :: ts, b, b', hb, h => by
    rw [List.foldlM_cons] at h
    obtain ⟨c, hc, h⟩ := bind_eq_ok_iff.mp h
    exact foldlM_insert (hb.insert hc) h

theorem Built.ofTicks {ticks : List Tick} (h : TickBitmap.ofTicks ticks spacing = .ok b) :
    b.Built [] := by
  obtain ⟨e, he, h⟩ := bind_eq_ok_iff.mp h
  exact Built.foldlM_insert (Built.empty he) h

theorem mem_tickList (h : b.Indexed) : t ∈ b.tickList ↔ b.ticks[t.index]? = some t := by
  simp only [tickList, List.mem_map, Prod.exists, exists_eq_right]
  constructor
  · rintro ⟨i, hi⟩
    have hi := Std.TreeMap.mem_toList_iff_getElem?_eq_some.mp hi
    rwa [h.key hi]
  · intro ht
    exact ⟨t.index, Std.TreeMap.mem_toList_iff_getElem?_eq_some.mpr ht⟩

theorem exists_tickList_iff (h : b.Indexed) :
    (∃ t ∈ b.tickList, t.index = i) ↔ i ∈ b.stored := by
  rw [mem_stored_iff_some]
  constructor
  · rintro ⟨t, ht, rfl⟩
    exact ⟨t, (mem_tickList h).mp ht⟩
  · rintro ⟨t, ht⟩
    have hi := h.key ht
    exact ⟨t, (mem_tickList h).mpr (hi.symm ▸ ht), hi⟩

/-- The stored ticks have indices of their own. -/
theorem Indexed.distinct (h : b.Indexed) :
    b.tickList.Pairwise fun t u => t.index ≠ u.index := by
  unfold tickList
  rw [List.pairwise_map]
  refine Std.TreeMap.distinct_keys_toList.imp_of_mem ?_
  rintro ⟨i, t⟩ ⟨j, u⟩ ht hu hne heq
  have hi := h.key (Std.TreeMap.mem_toList_iff_getElem?_eq_some.mp ht)
  have hj := h.key (Std.TreeMap.mem_toList_iff_getElem?_eq_some.mp hu)
  exact hne (compare_eq_iff_eq.mpr (hi.symm.trans (heq.trans hj)))

/-- Ticks in the range of the grid are on the grid of their table. -/
theorem Indexed.onGrid (h : b.Indexed)
    (hrange : ∀ t ∈ b.tickList, minTick ≤ t.index ∧ t.index ≤ maxTick) :
    OnGrid b.spacing b.tickList :=
  ⟨h.distinct, fun t ht => h.aligned _ ((exists_tickList_iff h).mp ⟨t, ht, rfl⟩), hrange⟩

/-- Ticks of the grid keep their range when they are numbered. -/
theorem div_mem_range (hs : 0 < spacing) (hi : minTick ≤ i ∧ i ≤ maxTick) :
    minTick ≤ i / spacing ∧ i / spacing ≤ maxTick := by
  simp only [minTick, maxTick] at *
  constructor
  · rw [Int.le_ediv_iff_mul_le hs]
    omega
  · rw [← Int.lt_add_one_iff, Int.ediv_lt_iff_lt_mul hs]
    omega

/-- The slots tell the ticks of the grid apart. -/
theorem numbered_of_mem_range (hs : 0 < spacing) (hi : minTick ≤ i ∧ i ≤ maxTick) :
    Numbered (i / spacing) := by
  have hn := div_mem_range hs hi
  simp only [minTick, maxTick] at hn
  exact ⟨by omega, by omega⟩

/-- A search that starts on the grid meets numbered grid points only. -/
theorem numbered_near {tick k : ℤ} (hs : 0 < spacing) (htick : minTick ≤ tick ∧ tick ≤ maxTick)
    (h1 : tick / spacing - 256 ≤ k) (h2 : k ≤ tick / spacing + 256) : Numbered k := by
  have hn := div_mem_range hs htick
  simp only [minTick, maxTick] at hn
  exact ⟨by omega, by omega⟩

/-- Where the slots tell the stored indices apart, every flag belongs to one of them. -/
theorem Consistent.isSet_iff_exists (h : b.Consistent)
    (hnum : ∀ i ∈ b.stored, Numbered (i / b.spacing)) {s : Slot} :
    b.words.isSet s = true ↔ ∃ i ∈ b.stored, slot (i / b.spacing) = s := by
  rw [h.tracks]
  unfold slotOf
  exact odd_card_iff fun i hi => ⟨h.aligned i hi, hnum i hi⟩

/-- Where the slots tell the stored indices apart, a flag is set exactly where one is stored. -/
theorem Consistent.isSet_iff_mem_stored (h : b.Consistent)
    (hnum : ∀ i ∈ b.stored, Numbered (i / b.spacing)) {n : ℤ} (hn : Numbered n) :
    b.words.isSet (slot n) = true ↔ n * b.spacing ∈ b.stored := by
  rw [h.isSet_iff_exists hnum]
  constructor
  · rintro ⟨i, hi, hslot⟩
    rwa [← slot_inj (hnum i hi) hn hslot, Int.ediv_mul_cancel (h.aligned i hi)]
  · intro hi
    exact ⟨_, hi, by rw [Int.mul_ediv_cancel _ b.spacing_pos.ne']⟩

/-- The ticks of a table on the grid are numbered. -/
theorem Indexed.numbered (h : b.Indexed) (hg : OnGrid b.spacing b.tickList) :
    ∀ i ∈ b.stored, Numbered (i / b.spacing) := by
  intro i hi
  obtain ⟨t, ht, rfl⟩ := (exists_tickList_iff h).mpr hi
  exact numbered_of_mem_range b.spacing_pos (hg.mem_range t ht)

/-- **On the grid a flag is set exactly where a tick is stored.** -/
theorem isSet_slot_iff (h : b.Consistent) (hg : OnGrid b.spacing b.tickList) {n : ℤ}
    (hn : Numbered n) :
    b.words.isSet (slot n) = true ↔ ∃ t ∈ b.tickList, t.index = n * b.spacing := by
  rw [h.isSet_iff_mem_stored (h.numbered hg) hn, exists_tickList_iff h.toIndexed]

/-- Every stored tick has its flag. -/
theorem exists_flag (h : b.Consistent) (hg : OnGrid b.spacing b.tickList) (ht : t ∈ b.tickList) :
    ∃ n, t.index = n * b.spacing ∧ b.words.isSet (slot n) = true := by
  have hn := numbered_of_mem_range b.spacing_pos (hg.mem_range t ht)
  have hmul := (Int.ediv_mul_cancel (hg.aligned t ht)).symm
  exact ⟨_, hmul, (isSet_slot_iff h hg hn).mpr ⟨t, ht, hmul⟩⟩

theorem next_eq_ok {tick stop : ℤ} {flag : Bool} {d : Direction}
    (h : b.next tick spacing d = .ok (stop, flag)) :
    spacing = b.spacing ∧ b.words.next tick b.spacing d = .ok (stop, flag) := by
  unfold next at h
  split at h
  · rename_i hs
    exact ⟨hs, hs ▸ h⟩
  · cases h

theorem advances (b : TickBitmap) (spacing : ℤ) : b.source.Advances spacing := by
  intro tick d stop flag h
  exact WordMap.next_advances (next_eq_ok h).2

/-- A table finds what it holds, and nothing else. -/
theorem Indexed.find_eq_ok_iff (h : b.Indexed) :
    b.find i = .ok t ↔ t ∈ b.tickList ∧ t.index = i := by
  unfold find
  constructor
  · intro hfind
    split at hfind
    · rename_i u hu
      cases hfind
      have hi := h.key hu
      exact ⟨(mem_tickList h).mpr (hi.symm ▸ hu), hi⟩
    · cases hfind
  · rintro ⟨ht, rfl⟩
    rw [(mem_tickList h).mp ht]

/-- A search passes no tick whose flag is set, and answers with the flag of its stop. -/
theorem clear_of_next {m : WordMap} {ticks : List Tick} {tick stop : ℤ} {flag : Bool}
    {d : Direction} (hm : ∀ i, m.word i < 2 ^ 256) (hs : 0 < spacing)
    (hflags : ∀ t ∈ ticks, ∃ n, t.index = n * spacing ∧ m.isSet (slot n) = true)
    (h : m.next tick spacing d = .ok (stop, flag)) :
    Clear ticks (d.lower tick stop) (d.upper tick stop) ∧
      ∃ k, (tick / spacing - 256 ≤ k ∧ k ≤ tick / spacing + 256) ∧ stop = k * spacing ∧
        flag = m.isSet (slot k) := by
  cases d with
  | down =>
    obtain ⟨k, hk, rfl, rfl, hclear⟩ := WordMap.next_down h
    refine ⟨fun t ht => ?_, k, ⟨by omega, by omega⟩, rfl, rfl⟩
    obtain ⟨n, hn, hset⟩ := hflags t ht
    rw [hn]
    by_contra! hbetween
    have h1 := lt_of_mul_lt_mul_right hbetween.1 hs.le
    have h2 := (Int.le_ediv_iff_mul_le hs).mpr (Int.lt_add_one_iff.mp hbetween.2)
    rw [hclear n h1 h2] at hset
    cases hset
  | up =>
    obtain ⟨k, hk, rfl, rfl, hclear⟩ := WordMap.next_up hm h
    refine ⟨fun t ht => ?_, k, ⟨by omega, by omega⟩, rfl, rfl⟩
    obtain ⟨n, hn, hset⟩ := hflags t ht
    rw [hn]
    by_contra! hbetween
    have h1 := (Int.ediv_lt_iff_lt_mul hs).mpr hbetween.1
    have h2 := lt_of_mul_lt_mul_right hbetween.2 hs.le
    rw [hclear n h1 h2] at hset
    cases hset

/-- A search on the grid passes no stored tick and knows whether one is stored where it stops. -/
theorem Consistent.search {tick stop : ℤ} {flag : Bool} {d : Direction} (hc : b.Consistent)
    (hg : OnGrid b.spacing b.tickList) (htick : minTick ≤ tick ∧ tick ≤ maxTick)
    (h : b.words.next tick b.spacing d = .ok (stop, flag)) :
    Clear b.tickList (d.lower tick stop) (d.upper tick stop) ∧
      (flag = true ↔ ∃ t ∈ b.tickList, t.index = stop) := by
  obtain ⟨hclear, k, ⟨h1, h2⟩, rfl, rfl⟩ :=
    clear_of_next hc.word_lt b.spacing_pos (fun t ht => exists_flag hc hg ht) h
  exact ⟨hclear, isSet_slot_iff hc hg (numbered_near b.spacing_pos htick h1 h2)⟩

/-- **A table on the grid is faithful to its ticks** if the words tell the loaded ones apart. -/
theorem Built.faithful {numbers : List ℤ} (hb : b.Built numbers)
    (hnum : ∀ n ∈ numbers, Numbered n) (hg : OnGrid spacing b.tickList) :
    b.source.Faithful spacing b.tickList := by
  constructor
  · exact fun i t h => hb.indexed.find_eq_ok_iff.mp h
  · intro tick d stop flag htick h
    obtain ⟨rfl, hw⟩ := next_eq_ok h
    exact (hb.consistent hnum).search hg ⟨htick.1, htick.2.le⟩ hw

theorem mem_flaggedTicks {n : ℤ} : t ∈ b.flaggedTicks ∧ t.index = n * b.spacing ↔
    t ∈ b.tickList ∧ t.index = n * b.spacing ∧ b.words.isSet (slot n) = true := by
  unfold flaggedTicks slotOf
  rw [List.mem_filter, and_assoc, and_congr_right_iff]
  intro _
  rw [and_comm, and_congr_right_iff]
  intro hn
  rw [hn, Int.mul_ediv_cancel _ b.spacing_pos.ne']

/-- **Searches over a table meet its flagged ticks**, whatever the words are. -/
theorem Built.meets {numbers : List ℤ} (hb : b.Built numbers) (spacing : ℤ) :
    b.source.Meets spacing b.flaggedTicks := by
  have hi := hb.indexed
  have hflags : ∀ t ∈ b.flaggedTicks, ∃ n, t.index = n * b.spacing ∧
      b.words.isSet (slot n) = true := fun t ht => by
    have hmem := (List.mem_filter.mp ht).1
    have hmul :=
      (Int.ediv_mul_cancel (hi.aligned _ ((exists_tickList_iff hi).mp ⟨t, hmem, rfl⟩))).symm
    exact ⟨_, hmul, (mem_flaggedTicks.mp ⟨ht, hmul⟩).2.2⟩
  constructor
  · intro tick d stop flag _ h
    obtain ⟨rfl, hw⟩ := next_eq_ok h
    exact (clear_of_next hi.word_lt b.spacing_pos hflags hw).1
  · intro tick d stop flag _ h
    obtain ⟨rfl, hw⟩ := next_eq_ok h
    obtain ⟨-, k, -, rfl, rfl⟩ := clear_of_next hi.word_lt b.spacing_pos hflags hw
    cases hset : b.words.isSet (slot k) with
    | true =>
      intro t hfind
      obtain ⟨hmem, hindex⟩ := hi.find_eq_ok_iff.mp hfind
      exact mem_flaggedTicks.mpr ⟨hmem, hindex, hset⟩
    | false =>
      intro t hmem hindex
      rw [(mem_flaggedTicks.mp ⟨hmem, hindex⟩).2.2] at hset
      cases hset

/-! ### Words that do not tell their ticks apart -/

/-- The words of the ticks -60 and 60, on a grid of spacing 60. -/
def twoFlags : WordMap := {((0 : ℤ), 1 <<< 1), ((-1 : ℤ), 1 <<< 255)}

theorem twoFlags_word_lt (i : ℤ) : twoFlags.word i < 2 ^ 256 := by
  unfold WordMap.word twoFlags
  rw [Std.TreeMap.insert_eq_insert, Std.TreeMap.singleton_eq_insert]
  simp only [Std.TreeMap.getElem?_insert, Std.TreeMap.getElem?_emptyc]
  split_ifs <;> decide

theorem sixty_pos : (0 : ℤ) < 60 := by decide

/-- The ticks of a position from -60 to 60. -/
def pairTicks : List Tick := [⟨-60, 500000, 500000⟩, ⟨60, 500000, -500000⟩]

theorem pairTicks_numbered : ∀ n ∈ [-1, 1], Numbered n := by
  simp [Numbered]

/-- A third tick, so far above the two that it has the flag of 60. -/
def sharedTicks : List Tick := pairTicks ++ [⟨1006633020, 1, 0⟩]

/-- The position under its flags. -/
def paired : TickBitmap := holding sixty_pos twoFlags pairTicks

/-- The three ticks under the flags of two. -/
def sharing : TickBitmap := holding sixty_pos twoFlags sharedTicks

/-- The third tick is removed, and the flag of 60 with it. -/
def unflagged : TickBitmap := (sharing.remove 1006633020).2

/-- The tick at 60 is removed as well, and its flag is set again. -/
def orphaned : TickBitmap := (unflagged.remove 60).2

theorem paired_built : paired.Built [-1, 1] :=
  .ofWords twoFlags_word_lt (rfl : TickBitmap.ofWords 60 twoFlags pairTicks = .ok paired)

theorem unflagged_built : unflagged.Built [-1, 1, 16777217] :=
  .remove (.ofWords twoFlags_word_lt
    (rfl : TickBitmap.ofWords 60 twoFlags sharedTicks = .ok sharing)) 1006633020

theorem orphaned_built : orphaned.Built [-1, 1, 16777217] := unflagged_built.remove 60

theorem paired_tickList : paired.tickList = pairTicks := rfl

theorem unflagged_tickList : unflagged.tickList = pairTicks := rfl

theorem orphaned_tickList : orphaned.tickList = [⟨-60, 500000, 500000⟩] := rfl

end TickBitmap

/-! ## The two kinds of sources -/

/-- The source is a list or a table, with the ticks it holds and the numbers of those that came with
words of flags. -/
inductive TickSource.Holds : TickSource → List Tick → List ℤ → Prop
  | list (l : TickList) : Holds l.source l.ticks []
  | bitmap (b : TickBitmap) {numbers : List ℤ} (h : b.Built numbers) :
    Holds b.source b.tickList numbers

section

variable {source : TickSource} {ticks : List Tick} {numbers : List ℤ} {spacing : ℤ}

/-- **Lists are faithful to the ticks they hold**, and so are tables with words that tell the loaded
ticks apart. -/
theorem TickSource.Holds.faithful (h : source.Holds ticks numbers)
    (hnum : ∀ n ∈ numbers, Numbered n) (hg : OnGrid spacing ticks) :
    source.Faithful spacing ticks := by
  cases h with
  | list l => exact l.faithful spacing
  | bitmap b hb => exact hb.faithful hnum hg

/-- **Searches over any list and any table meet some of its ticks.** -/
theorem TickSource.Holds.exists_meets (h : source.Holds ticks numbers) (spacing : ℤ) :
    ∃ met : List Tick, met.Sublist ticks ∧ source.Meets spacing met := by
  cases h with
  | list l => exact ⟨_, .refl _, (l.faithful spacing).meets⟩
  | bitmap b hb => exact ⟨_, List.filter_sublist, hb.meets spacing⟩

theorem TickSource.Holds.advances (h : source.Holds ticks numbers) (spacing : ℤ) :
    source.Advances spacing := by
  cases h with
  | list l => exact l.advances spacing
  | bitmap b _ => exact b.advances spacing

end

end Clamm
