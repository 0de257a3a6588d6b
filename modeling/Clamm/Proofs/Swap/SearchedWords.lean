import Mathlib
import Clamm.Proofs.Swap.Sources

/-!
# The words that a swap may look at

A search looks at one word of flags: that of its start, or that of the grid point after it. The
ticks of a swap stay between its start and the end of the grid (`Stride.onward`), so all these words
are listed by `TickBitmap.searchWords`, but for one: a search upward from the last grid point looks
at the word behind it. Whatever that word holds lies beyond the grid, and the swap stops at its end.

* `TickBitmap.AgreeOn`: two tables agree on words; `AgreeOn.alike`: then they answer alike the
  searches of a swap that these words are listed for.
* `TickBitmap.only`: a table restricted to words; `Consistent.agreeOn`: tables on the grid agree on
  words if they hold the same ticks there.
* `search_words_suffice`: the law for swaps.
-/

namespace Clamm

/-! ## One search -/

/-- The number of the first grid point that a search from `tick` looks at. -/
def Direction.firstNumber : Direction → (spacing tick : ℤ) → ℤ
  | down, spacing, tick => tick / spacing
  | up, spacing, tick => tick / spacing + 1

namespace WordMap

variable {m m' : WordMap} {tick spacing stop : ℤ} {d : Direction} {flag : Bool}

/-- A search looks at one word. -/
theorem next_congr (h : word m' (slot (d.firstNumber spacing tick)).word =
    word m (slot (d.firstNumber spacing tick)).word) :
    m'.next tick spacing d = m.next tick spacing d := by
  unfold next
  cases d with
  | down =>
    simp only [Direction.firstNumber] at h
    simp only [h]
  | up =>
    simp only [Direction.firstNumber] at h
    simp only [h]

/-- A search stops in the word that it looks at. -/
theorem slot_next (hm : ∀ i, word m i < 2 ^ 256) (h : m.next tick spacing d = .ok (stop, flag)) :
    (slot (stop / spacing)).word = (slot (d.firstNumber spacing tick)).word := by
  have hs := spacing_pos_of_next h
  have hend := (next_within hm h).1
  cases d with
  | down =>
    obtain ⟨k, hk, rfl, -⟩ := next_down h
    rw [Int.mul_ediv_cancel _ hs.ne']
    have := le_of_mul_le_mul_right hend hs
    simp only [Direction.firstNumber]
    exact slot_word_near (by omega) (by omega)
  | up =>
    obtain ⟨k, hk, rfl, -⟩ := next_up hm h
    rw [Int.mul_ediv_cancel _ hs.ne']
    have := le_of_mul_le_mul_right hend hs
    simp only [Direction.firstNumber]
    exact slot_word_near (by omega) (by omega)

end WordMap

theorem word_le_word {m n : ℤ} (hm : Numbered m) (hn : Numbered n) (h : m ≤ n) :
    (slot m).word ≤ (slot n).word := by
  rw [slot_word hm, slot_word hn]
  exact Int.ediv_le_ediv (by decide) h

/-! ## Tables that agree on words -/

namespace TickBitmap

/-- Two tables have the same flags in the given words, and hold the same ticks there. -/
structure AgreeOn (b b' : TickBitmap) (words : List ℤ) : Prop where
  spacing_eq : b'.spacing = b.spacing
  word_eq : ∀ w ∈ words, b'.words.word w = b.words.word w
  ticks_eq : ∀ i, (b.slotOf i).word ∈ words → b'.ticks[i]? = b.ticks[i]?

variable {b b' : TickBitmap} {words : List ℤ} {w i tick start spacing : ℤ} {d : Direction}

theorem mem_searchWords : w ∈ b.searchWords tick d ↔
    match d with
    | .down => (b.slotOf minTick).word ≤ w ∧ w ≤ (b.slotOf tick).word
    | .up => (b.slotOf tick).word ≤ w ∧ w ≤ (b.slotOf maxTick).word := by
  have hbetween : ∀ first last : ℤ,
      w ∈ ((List.range (last + 1 - first).toNat).map fun i => first + (i : ℕ)) ↔
        first ≤ w ∧ w ≤ last := fun first last => by
    rw [List.mem_map]
    constructor
    · rintro ⟨k, hk, rfl⟩
      rw [List.mem_range] at hk
      omega
    · rintro ⟨h1, h2⟩
      exact ⟨(w - first).toNat, List.mem_range.mpr (by omega), by omega⟩
  unfold searchWords
  cases d with
  | down => exact hbetween _ _
  | up => exact hbetween _ _

/-- The listed words hold grid points that the slots tell apart. -/
theorem numbered_of_mem_searchWords (htick : minTick ≤ tick ∧ tick ≤ maxTick)
    (hw : w ∈ b.searchWords tick d) {j : ℕ} (hj : j < 256) : Numbered (w * 256 + j) := by
  have hrange : ∀ i, minTick ≤ i ∧ i ≤ maxTick →
      (b.slotOf i).word = i / b.spacing / 256 ∧ minTick ≤ i / b.spacing ∧ i / b.spacing ≤ maxTick :=
    fun i hi => ⟨slot_word (numbered_of_mem_range b.spacing_pos hi), div_mem_range b.spacing_pos hi⟩
  obtain ⟨hmin, hmin'⟩ := hrange minTick (by decide)
  obtain ⟨hmax, hmax'⟩ := hrange maxTick (by decide)
  obtain ⟨htick, htick'⟩ := hrange tick htick
  rw [mem_searchWords, hmin, hmax, htick] at hw
  simp only [minTick, maxTick] at *
  unfold Numbered
  cases d with
  | down =>
    dsimp only at hw
    omega
  | up =>
    dsimp only at hw
    omega

/-- Only one word that a swap may look at is not listed: the one behind the last grid point. -/
theorem beyond_of_not_mem (hstart : minTick ≤ start ∧ start ≤ maxTick)
    (htick : minTick ≤ tick ∧ tick ≤ maxTick) (honward : d.Onward start tick)
    (hw : (slot (d.firstNumber b.spacing tick)).word ∉ b.searchWords start d) :
    d = .up ∧ maxTick / b.spacing < tick / b.spacing + 1 := by
  have hnum : ∀ i, minTick ≤ i ∧ i ≤ maxTick → Numbered (i / b.spacing) := fun i hi =>
    numbered_of_mem_range b.spacing_pos hi
  rw [mem_searchWords] at hw
  cases d with
  | down =>
    have hmin := Int.ediv_le_ediv b.spacing_pos htick.1
    refine absurd ⟨?_, ?_⟩ hw
    · exact word_le_word (hnum _ (by decide)) (hnum _ htick) hmin
    · exact word_le_word (hnum _ htick) (hnum _ hstart) (Int.ediv_le_ediv b.spacing_pos honward)
  | up =>
    refine ⟨rfl, ?_⟩
    by_contra! hle
    have hnext : Numbered (tick / b.spacing + 1) :=
      numbered_near b.spacing_pos htick (by omega) (by omega)
    have hstep : start / b.spacing ≤ tick / b.spacing + 1 :=
      (Int.ediv_le_ediv b.spacing_pos honward).trans (by omega)
    exact hw ⟨word_le_word (hnum _ hstart) hnext hstep, word_le_word hnext (hnum _ (by decide)) hle⟩

/-- **Tables that agree on the listed words answer alike the searches of a swap.** -/
theorem AgreeOn.alike (hm : ∀ i, b.words.word i < 2 ^ 256)
    (h : b.AgreeOn b' (b.searchWords start d)) (hstart : minTick ≤ start ∧ start ≤ maxTick)
    (htick : minTick ≤ tick ∧ tick ≤ maxTick) (honward : d.Onward start tick) :
    b.source.Alike b'.source spacing tick d := by
  by_cases hs : spacing = b.spacing
  · subst hs
    obtain ⟨next, flag, hnext⟩ := b.next_total tick d
    obtain ⟨next', flag', hnext'⟩ := b'.next_total tick d
    rw [h.spacing_eq] at hnext'
    obtain ⟨-, hword⟩ := next_eq_ok hnext
    obtain ⟨-, hword'⟩ := next_eq_ok hnext'
    rw [h.spacing_eq] at hword'
    by_cases hw : (slot (d.firstNumber b.spacing tick)).word ∈ b.searchWords start d
    · rw [WordMap.next_congr (h.word_eq _ hw), hword] at hword'
      obtain ⟨rfl, rfl⟩ := Prod.mk.inj (Except.ok.inj hword')
      refine .found hnext hnext' rfl fun h1 h2 => ⟨rfl, fun _ => ?_⟩
      rw [eq_of_stopTick h1 h2]
      have hticks := h.ticks_eq next ((WordMap.slot_next hm hword).symm ▸ hw)
      show b'.find next = b.find next
      unfold find
      rw [hticks]
    · -- both searches stop beyond the grid
      obtain ⟨rfl, hbeyond⟩ := beyond_of_not_mem hstart htick honward hw
      have hend : ∀ {m : WordMap} {stop : ℤ} {flag : Bool},
          m.next tick b.spacing .up = .ok (stop, flag) → stopTick stop = maxTick := by
        intro m stop flag hm
        obtain ⟨k, hk, rfl⟩ := WordMap.next_up_ahead hm
        have := (Int.ediv_lt_iff_lt_mul b.spacing_pos).mp (show maxTick / b.spacing < k by omega)
        unfold stopTick
        rw [min_eq_right this.le]
        rfl
      exact .found hnext hnext' ((hend hword').trans (hend hword).symm) fun _ h2 =>
        absurd h2 (hend hword).not_lt
  · refine .failed (e := .tick .misaligned) (if_neg hs) ?_
    exact if_neg (h.spacing_eq.symm ▸ hs)

/-- **Swaps over tables that agree on the listed words are the same.** -/
theorem AgreeOn.swap_eq {pool : Pool} {amount : ℤ} {limit : Option ℕ}
    (hm : ∀ i, b.words.word i < 2 ^ 256) (hticks : pool.ticks = b.source)
    (h : b.AgreeOn b' (b.searchWords pool.state.tick d)) :
    (pool.withTicks b'.source).swap d amount limit = pool.swap d amount limit := by
  refine Pool.swap_congr (hticks ▸ b.advances _) fun tick htick honward => ?_
  rw [hticks]
  exact h.alike hm ⟨pool.tick_mem.1, pool.tick_mem.2.le⟩ ⟨htick.1, htick.2.le⟩ honward

/-! ## Restricted tables -/

/-- The table that keeps the given words of flags only, and the ticks whose flags are there. -/
def only (b : TickBitmap) (words : List ℤ) : TickBitmap :=
  { b with
    words := b.words.filter fun w _ => w ∈ words
    ticks := b.ticks.filter fun i _ => (b.slotOf i).word ∈ words }

theorem getElem?_filter_key {β : Type} (m : Std.TreeMap ℤ β) (p : ℤ → Bool) (i : ℤ) :
    (m.filter fun i _ => p i)[i]? = if p i then m[i]? else none := by
  rw [Std.TreeMap.getElem?_filter']
  cases m[i]? with
  | none => simp
  | some x => simp [Option.filter]

theorem word_only (b : TickBitmap) (words : List ℤ) (w : ℤ) :
    (b.only words).words.word w = if w ∈ words then b.words.word w else 0 := by
  unfold only WordMap.word
  rw [getElem?_filter_key]
  simp only [decide_eq_true_iff]
  split <;> rfl

theorem getElem?_only (b : TickBitmap) (words : List ℤ) (i : ℤ) :
    (b.only words).ticks[i]? = if (b.slotOf i).word ∈ words then b.ticks[i]? else none := by
  unfold only
  rw [getElem?_filter_key]
  simp only [decide_eq_true_iff]

theorem agreeOn_only (b : TickBitmap) (words : List ℤ) : b.AgreeOn (b.only words) words where
  spacing_eq := rfl
  word_eq w hw := by rw [word_only, if_pos hw]
  ticks_eq i hi := by rw [getElem?_only, if_pos hi]

theorem stored_only (b : TickBitmap) (words : List ℤ) :
    (b.only words).stored = b.stored.filter fun i => (b.slotOf i).word ∈ words := by
  ext i
  rw [Finset.mem_filter, mem_stored_iff_some, mem_stored_iff_some, getElem?_only]
  split <;> simp [*]

theorem Indexed.only (h : b.Indexed) (words : List ℤ) : (b.only words).Indexed := by
  refine ⟨fun {i t} hi => ?_, fun i hi => ?_, fun w => ?_⟩
  · rw [getElem?_only] at hi
    split at hi
    · exact h.key hi
    · cases hi
  · rw [stored_only] at hi
    exact h.aligned i (Finset.mem_filter.mp hi).1
  · rw [word_only]
    split
    · exact h.word_lt w
    · positivity

/-- A restricted table keeps its flags in step. -/
theorem Consistent.only (h : b.Consistent) (words : List ℤ) : (b.only words).Consistent := by
  refine ⟨h.toIndexed.only words, fun s => ?_⟩
  have hslot : (b.only words).slotOf = b.slotOf := rfl
  rw [stored_only, hslot, Finset.filter_filter, WordMap.isSet, word_only]
  by_cases hs : s.word ∈ words
  · rw [if_pos hs]
    refine (h.tracks s).trans ?_
    rw [Finset.filter_congr fun i _ => (and_iff_right_of_imp fun heq => heq ▸ hs).symm]
  · have hnone : b.stored.filter (fun i => (b.slotOf i).word ∈ words ∧ b.slotOf i = s) = ∅ :=
      Finset.filter_false_of_mem fun i _ hi => hs (hi.2 ▸ hi.1)
    rw [if_neg hs, hnone]
    simp

theorem mem_tickList_only (h : b.Indexed) {t : Tick} : t ∈ (b.only words).tickList ↔
    t ∈ b.tickList ∧ (b.slotOf t.index).word ∈ words := by
  rw [mem_tickList (h.only words), mem_tickList h, getElem?_only]
  split <;> simp [*]

/-- **Tables on the grid agree on words if they hold the same ticks there.** -/
theorem Consistent.agreeOn (h : b.Consistent) (h' : b'.Consistent)
    (hg : OnGrid b.spacing b.tickList) (hspacing : b'.spacing = b.spacing)
    (hnum : ∀ w ∈ words, ∀ j : ℕ, j < 256 → Numbered (w * 256 + j))
    (hsame : ∀ t, t ∈ b'.tickList ↔ t ∈ b.tickList ∧ (b.slotOf t.index).word ∈ words) :
    b.AgreeOn b' words := by
  have hg' : OnGrid b'.spacing b'.tickList :=
    h'.onGrid fun t ht => hg.mem_range t ((hsame t).mp ht).1
  have hkey : ∀ {i t}, b'.ticks[i]? = some t ↔ t ∈ b'.tickList ∧ t.index = i := fun {i t} =>
    ⟨fun hi => ⟨(mem_tickList h'.toIndexed).mpr ((h'.key hi).symm ▸ hi), h'.key hi⟩,
      fun ⟨ht, hi⟩ => hi ▸ (mem_tickList h'.toIndexed).mp ht⟩
  refine ⟨hspacing, fun w hw => Nat.eq_of_testBit_eq fun j => ?_,
    fun i hi => Option.ext fun t => ?_⟩
  · by_cases hj : j < 256
    · have hn := hnum w hw j hj
      have hslot := slot_mul_add hj hn
      have hflag : b'.words.isSet (slot (w * 256 + j)) = b.words.isSet (slot (w * 256 + j)) := by
        rw [Bool.eq_iff_iff, isSet_slot_iff h' hg' hn, isSet_slot_iff h hg hn, hspacing]
        refine exists_congr fun t => ?_
        rw [hsame, and_assoc]
        refine and_congr_right fun ht => and_iff_right_of_imp fun heq => ?_
        unfold slotOf
        rw [heq, Int.mul_ediv_cancel _ b.spacing_pos.ne', hslot]
        exact hw
      rwa [hslot] at hflag
    · have hbig := Nat.pow_le_pow_right two_pos (not_lt.mp hj)
      rw [Nat.testBit_lt_two_pow ((h'.word_lt w).trans_le hbig),
        Nat.testBit_lt_two_pow ((h.word_lt w).trans_le hbig)]
  · rw [hkey, hsame]
    constructor
    · rintro ⟨⟨ht, -⟩, rfl⟩
      exact (mem_tickList h.toIndexed).mp ht
    · intro ht
      obtain rfl := h.key ht
      exact ⟨⟨(mem_tickList h.toIndexed).mpr ht, hi⟩, rfl⟩

end TickBitmap

/-! ## Swaps -/

open TickBitmap in
/-- **The listed words suffice for a swap.** Over any table of flags and ticks, in either direction,
for every amount and limit: restricted to the words that are listed for the direction, the table
gives the same swap, value or error. Of a table on the grid that the operations built from words that
tell its loaded ticks apart, the ticks whose flags are in the listed words can be loaded with these
words, and every such table of just these ticks gives the same swap. -/
theorem search_words_suffice {pool : Pool} {b : TickBitmap} {d : Direction} {words : List ℤ}
    (hticks : pool.ticks = b.source) (hm : ∀ i, b.words.word i < 2 ^ 256)
    (hwords : words = b.searchWords pool.state.tick d) (amount : ℤ) (limit : Option ℕ) :
    (pool.withTicks (b.only words).source).swap d amount limit = pool.swap d amount limit ∧
      ∀ numbers, b.Built numbers → (∀ n ∈ numbers, Numbered n) →
        (∀ t ∈ b.tickList, minTick ≤ t.index ∧ t.index ≤ maxTick) →
        (∃ b', TickBitmap.ofWords b.spacing (b.only words).words (b.only words).tickList = .ok b' ∧
          (∃ numbers', b'.Built numbers' ∧ ∀ n ∈ numbers', Numbered n) ∧
          b'.spacing = b.spacing ∧
          ∀ t, t ∈ b'.tickList ↔ t ∈ b.tickList ∧ (b.slotOf t.index).word ∈ words) ∧
        ∀ (b' : TickBitmap) numbers', b'.Built numbers' → (∀ n ∈ numbers', Numbered n) →
          b'.spacing = b.spacing →
          (∀ t, t ∈ b'.tickList ↔ t ∈ b.tickList ∧ (b.slotOf t.index).word ∈ words) →
          (pool.withTicks b'.source).swap d amount limit = pool.swap d amount limit := by
  subst hwords
  refine ⟨(agreeOn_only b _).swap_eq hm hticks, fun numbers hb hnum hrange => ?_⟩
  have hc := hb.consistent hnum
  have hg := hc.onGrid hrange
  constructor
  · have hc' := hc.only (b.searchWords pool.state.tick d)
    have hrange' : ∀ t ∈ (b.only (b.searchWords pool.state.tick d)).tickList,
        minTick ≤ t.index ∧ t.index ≤ maxTick := fun t ht =>
      hrange t ((mem_tickList_only hc.toIndexed).mp ht).1
    obtain ⟨b', hload, hb', hspacing, hsame⟩ := hc'.reload (hc'.numbered (hc'.onGrid hrange'))
    exact ⟨b', hload, hb', hspacing, fun t => (hsame t).trans (mem_tickList_only hc.toIndexed)⟩
  · intro b' numbers' hb' hnum' hspacing hsame
    refine (hc.agreeOn (hb'.consistent hnum') hg hspacing (fun w hw j hj => ?_)
      hsame).swap_eq hm hticks
    exact numbered_of_mem_searchWords ⟨pool.tick_mem.1, pool.tick_mem.2.le⟩ hw hj

open TickBitmap in
/-- A purchase from a table of two nested positions does without the ticks below the price. -/
theorem search_words_suffice_nested : ∃ b b' words,
    ofTicks nestedTicks.ticks 60 = .ok b ∧ words = b.searchWords 0 .up ∧
      ofWords 60 (b.only words).words (b.only words).tickList = .ok b' ∧
      (⟨-60, 500000, 500000⟩ : Tick) ∈ b.tickList ∧
      (⟨-60, 500000, 500000⟩ : Tick) ∉ b'.tickList ∧
      ((nestedPool.withTicks b.source).withTicks b'.source).swap .up 5000 none =
        (nestedPool.withTicks b.source).swap .up 5000 none := by
  have hnum : ∀ t ∈ nestedTicks.ticks, Numbered (t.index / 60) := by
    simp [nestedTicks, Numbered]
  obtain ⟨b, hb⟩ : ∃ b, ofTicks nestedTicks.ticks 60 = .ok b :=
    ofTicks_total (by decide) (by decide)
  have hspacing := (Written.ofTicks hnum hb).spacing_eq
  have hheld : ∀ t, t ∈ b.tickList ↔ t ∈ nestedTicks.ticks := fun t =>
    mem_tickList_of_ofTicks (by decide) (by decide) (by decide) hnum hb
  have hrange : ∀ t ∈ b.tickList, minTick ≤ t.index ∧ t.index ≤ maxTick := fun t ht =>
    (show ∀ t ∈ nestedTicks.ticks, minTick ≤ t.index ∧ t.index ≤ maxTick by decide) t
      ((hheld t).mp ht)
  have hbuilt := Built.ofTicks hb
  have hticks : (nestedPool.withTicks b.source).ticks = b.source := rfl
  obtain ⟨-, htable⟩ := search_words_suffice hticks hbuilt.indexed.word_lt
    (rfl : _ = b.searchWords 0 .up) 5000 none
  obtain ⟨⟨b', hload, ⟨numbers', hb', hnum'⟩, hspacing', hsame⟩, hswap⟩ :=
    htable _ hbuilt (List.forall_mem_nil _) hrange
  refine ⟨b, b', _, hb, rfl, hspacing ▸ hload, (hheld _).mpr (by decide), fun hmem => ?_,
    hswap b' _ hb' hnum' hspacing' hsame⟩
  have hword := mem_searchWords.mp ((hsame _).mp hmem).2
  unfold slotOf at hword
  rw [hspacing] at hword
  exact absurd hword.1 (show ¬ (slot (0 / 60)).word ≤ (slot (-60 / 60)).word by decide)

end Clamm
