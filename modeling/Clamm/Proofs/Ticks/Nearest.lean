import Mathlib
import Clamm.Proofs.Ticks.Answers

/-!
# The one answer of a search

A search looks for the nearest tick within one word, and stops at the end of the word if there is
none. For given ticks only one answer does this (`IsNext.unique`), and it depends on no tick outside
the part of the word that is searched. Lists and tables both give it, so they answer alike wherever
they hold the same ticks.

* `IsNext`: what a search has to answer.
* `TickList.isNext`, `TickBitmap.Consistent.isNext`: lists give this answer at every tick, tables at
  every tick of the grid.
* `TickSource.HoldsAt.next_eq`: two sources of the same ticks have equal answers.
* `TickList.find_eq_find`: and so have a list and a table that are asked for a tick.
-/

namespace Clamm

/-- Index `j` is not behind `i` for a price that moves in direction `d`. -/
def Direction.Onward (d : Direction) (i j : ℤ) : Prop :=
  match d with
  | down => j ≤ i
  | up => i ≤ j

/-- The last grid point of the word that a search from `tick` looks into. -/
def Direction.wordEnd : Direction → (spacing tick : ℤ) → ℤ
  | down, spacing, tick => tick / spacing / 256 * 256 * spacing
  | up, spacing, tick => ((tick / spacing + 1) / 256 * 256 + 255) * spacing

/-- An index lies in the part of the word that a search from `tick` looks into. -/
def Direction.Looks (d : Direction) (spacing tick i : ℤ) : Prop :=
  match d with
  | down => d.wordEnd spacing tick ≤ i ∧ i ≤ tick
  | up => tick < i ∧ i ≤ d.wordEnd spacing tick

/-- What a search from `tick` has to answer: the nearest tick of the word, or the end of the
word. -/
structure IsNext (ticks : List Tick) (spacing tick : ℤ) (d : Direction) (stop : ℤ) (flag : Bool) :
    Prop where
  looks : d.Looks spacing tick stop
  clear : Clear ticks (d.lower tick stop) (d.upper tick stop)
  flag_iff : flag = true ↔ ∃ t ∈ ticks, t.index = stop
  ends : flag = false → stop = d.wordEnd spacing tick

section

variable {ticks ticks' : List Tick} {spacing tick i stop stop' : ℤ} {d : Direction}
  {flag flag' : Bool} {t : Tick}

/-- Neither of two stops lies before the other: nothing is stored on the way to a stop, and the end
of the word comes last. -/
theorem IsNext.reaches (h : IsNext ticks spacing tick d stop flag)
    (h' : IsNext ticks' spacing tick d stop' flag')
    (hsub : ∀ i, d.Looks spacing tick i → (∃ t ∈ ticks', t.index = i) → ∃ t ∈ ticks, t.index = i) :
    d.Onward stop stop' := by
  have hlooks := h.looks
  have hlooks' := h'.looks
  cases hflag : flag' with
  | true =>
    obtain ⟨t, ht, rfl⟩ := hsub _ hlooks' (h'.flag_iff.mp hflag)
    have hclear := h.clear t ht
    cases d with
    | down =>
      simp only [Direction.lower, Direction.upper, Direction.Looks, Direction.Onward] at *
      omega
    | up =>
      simp only [Direction.lower, Direction.upper, Direction.Looks, Direction.Onward] at *
      omega
  | false =>
    rw [h'.ends hflag]
    cases d with
    | down => exact hlooks.1
    | up => exact hlooks.2

/-- **Two answers to one search are equal**, if the same indices are stored where it looks. -/
theorem IsNext.unique (h : IsNext ticks spacing tick d stop flag)
    (h' : IsNext ticks' spacing tick d stop' flag')
    (hsame : ∀ i, d.Looks spacing tick i →
      ((∃ t ∈ ticks', t.index = i) ↔ ∃ t ∈ ticks, t.index = i)) :
    stop' = stop ∧ flag' = flag := by
  have hto := h.reaches h' fun i hi => (hsame i hi).mp
  have hfro := h'.reaches h fun i hi => (hsame i hi).mpr
  have hstop : stop' = stop := by
    cases d with
    | down => exact le_antisymm hto hfro
    | up => exact le_antisymm hfro hto
  subst hstop
  refine ⟨rfl, Bool.eq_iff_iff.mpr ?_⟩
  rw [h'.flag_iff, h.flag_iff, hsame _ h.looks]

end

/-! ## Lists -/

section

variable {l : TickList} {b : TickBitmap} {source source' : TickSource}
  {ticks ticks' : List Tick} {numbers numbers' : List ℤ}
  {m : WordMap} {spacing tick i stop : ℤ} {d : Direction} {flag : Bool} {t : Tick}

/-- A list stops within the word, and at its end if no tick is found. -/
theorem TickList.next_within (h : l.next tick spacing d = .ok (stop, flag)) :
    d.Onward stop (d.wordEnd spacing tick) ∧ (flag = false → stop = d.wordEnd spacing tick) := by
  have hs := spacing_pos_of_next h
  unfold next at h
  rw [if_neg (not_le.mpr hs)] at h
  cases d with
  | down =>
    dsimp only [Direction.wordEnd, Direction.Onward] at h ⊢
    split at h
    · cases h
      refine ⟨le_max_left _ _, fun hflag => max_eq_left ?_⟩
      exact (not_le.mp (decide_eq_false_iff_not.mp hflag)).le
    · cases h
      exact ⟨le_rfl, fun _ => rfl⟩
  | up =>
    dsimp only [Direction.wordEnd, Direction.Onward] at h ⊢
    split at h
    · cases h
      refine ⟨min_le_left _ _, fun hflag => min_eq_left ?_⟩
      exact (not_le.mp (decide_eq_false_iff_not.mp hflag)).le
    · cases h
      exact ⟨le_rfl, fun _ => rfl⟩

/-- **A list answers a search as it has to be answered.** -/
theorem TickList.isNext (h : l.next tick spacing d = .ok (stop, flag)) :
    IsNext l.ticks spacing tick d stop flag := by
  obtain ⟨hend, hends⟩ := next_within h
  cases d with
  | down =>
    obtain ⟨hle, hclear, hflag⟩ := next_down h
    exact ⟨⟨hend, hle⟩, hclear, hflag, hends⟩
  | up =>
    obtain ⟨hlt, hclear, hflag⟩ := next_up h
    exact ⟨⟨hlt, hend⟩, hclear, hflag, hends⟩

/-! ## Tables -/

/-- A word map stops within the word, and at its end if no flag is found. -/
theorem WordMap.next_within (hm : ∀ i, word m i < 2 ^ 256)
    (h : m.next tick spacing d = .ok (stop, flag)) :
    d.Onward stop (d.wordEnd spacing tick) ∧ (flag = false → stop = d.wordEnd spacing tick) := by
  have hs := spacing_pos_of_next h
  unfold next at h
  rw [if_neg (not_le.mpr hs)] at h
  cases d with
  | down =>
    dsimp only [Direction.wordEnd, Direction.Onward] at h ⊢
    generalize tick / spacing = n at *
    rw [← sub_slot_bit]
    split at h
    · cases h
      exact ⟨Int.mul_le_mul_of_nonneg_right (by omega) hs.le, fun hflag => by cases hflag⟩
    · cases h
      exact ⟨le_rfl, fun _ => rfl⟩
  | up =>
    dsimp only [Direction.wordEnd, Direction.Onward] at h ⊢
    obtain ⟨n, hn⟩ : ∃ n, n = tick / spacing + 1 := ⟨_, rfl⟩
    rw [← hn] at h ⊢
    have hbit := slot_bit_lt n
    have hlast : n / 256 * 256 + 255 = n + (255 - (slot n).bit : ℕ) := by
      have := sub_slot_bit n
      omega
    rw [hlast]
    split at h
    · rename_i b hb
      have hspec := Bits.firstFrom_spec (x := word m (slot n).word) (b := (slot n).bit)
      rw [hb] at hspec
      have hb256 : b < 256 := bit_lt_of_isSet (s := ⟨(slot n).word, b⟩) hm hspec.2.1
      cases h
      exact ⟨Int.mul_le_mul_of_nonneg_right (by omega) hs.le, fun hflag => by cases hflag⟩
    · cases h
      refine ⟨Int.mul_le_mul_of_nonneg_right (by omega) hs.le, fun _ => ?_⟩
      congr 1
      omega

/-- **A table answers a search on the grid as it has to be answered.** -/
theorem TickBitmap.Consistent.isNext (hc : b.Consistent) (hg : OnGrid b.spacing b.tickList)
    (htick : minTick ≤ tick ∧ tick ≤ maxTick)
    (h : b.words.next tick b.spacing d = .ok (stop, flag)) :
    IsNext b.tickList b.spacing tick d stop flag := by
  obtain ⟨hend, hends⟩ := WordMap.next_within hc.word_lt h
  obtain ⟨hclear, hflag⟩ := hc.search hg htick h
  have hadv := WordMap.next_advances h
  cases d with
  | down => exact ⟨⟨hend, hadv⟩, hclear, hflag, hends⟩
  | up => exact ⟨⟨hadv, hend⟩, hclear, hflag, hends⟩

/-! ## The two kinds of sources -/

/-- Lists and tables answer a search on the grid as it has to be answered. -/
theorem TickSource.HoldsAt.isNext (h : source.HoldsAt spacing ticks numbers)
    (hnum : ∀ n ∈ numbers, Numbered n) (hg : OnGrid spacing ticks)
    (htick : minTick ≤ tick ∧ tick ≤ maxTick)
    (hnext : source.next tick spacing d = .ok (stop, flag)) :
    IsNext ticks spacing tick d stop flag := by
  cases h with
  | list l => exact TickList.isNext hnext
  | bitmap b hb => exact (hb.consistent hnum).isNext hg htick (TickBitmap.next_eq_ok hnext).2

/-- **Two sources of the same ticks have equal answers to every search on the grid.** -/
theorem TickSource.HoldsAt.next_eq (h : source.HoldsAt spacing ticks numbers)
    (h' : source'.HoldsAt spacing ticks' numbers')
    (hnum : ∀ n ∈ numbers, Numbered n) (hnum' : ∀ n ∈ numbers', Numbered n) (hs : 0 < spacing)
    (hg : OnGrid spacing ticks) (hg' : OnGrid spacing ticks') (hsame : ∀ t, t ∈ ticks' ↔ t ∈ ticks)
    (htick : minTick ≤ tick ∧ tick ≤ maxTick) :
    source'.next tick spacing d = source.next tick spacing d := by
  obtain ⟨stop, flag, hnext⟩ := (h.answers hs).search tick d
  obtain ⟨stop', flag', hnext'⟩ := (h'.answers hs).search tick d
  have hunique := (h.isNext hnum hg htick hnext).unique (h'.isNext hnum' hg' htick hnext')
    fun i _ => by simp only [hsame]
  rw [hnext, hnext', hunique.1, hunique.2]

/-! ## Lookups -/

theorem TickList.find_eq_error {e : Error} (h : l.find i = .error e) : e = .tick (.missing i) := by
  unfold find at h
  split at h
  · split at h
    · cases h
    · cases h
      rfl
  · cases h
    rfl

theorem TickBitmap.find_eq_error {e : Error} (h : b.find i = .error e) :
    e = .tick (.missing i) := by
  unfold find at h
  split at h
  · cases h
  · cases h
    rfl

/-- Of ticks with indices of their own there is one at most at an index. -/
theorem eq_of_index_eq {u : Tick} (hd : ticks.Pairwise fun t u => t.index ≠ u.index)
    (ht : t ∈ ticks) (hu : u ∈ ticks) (h : t.index = u.index) : t = u := by
  have hsymm : Std.Symm fun t u : Tick => t.index ≠ u.index := ⟨fun _ _ => Ne.symm⟩
  by_contra hne
  exact hd.forall ht hu hne h

/-- A list of ticks with indices of their own finds what it holds, and nothing else. -/
theorem TickList.find_eq_ok_iff (hd : l.ticks.Pairwise fun t u => t.index ≠ u.index) :
    l.find i = .ok t ↔ t ∈ l.ticks ∧ t.index = i := by
  constructor
  · exact find_eq_ok
  · rintro ⟨ht, rfl⟩
    obtain ⟨u, hu⟩ := find_total ht
    obtain ⟨hmem, hindex⟩ := find_eq_ok hu
    rw [hu, eq_of_index_eq hd hmem ht hindex]

/-- **A list and a table of the same ticks have equal answers to every lookup.** -/
theorem TickList.find_eq_find (hd : l.ticks.Pairwise fun t u => t.index ≠ u.index)
    (hc : b.Indexed) (hsame : ∀ t, t ∈ b.tickList ↔ t ∈ l.ticks) (i : ℤ) :
    b.find i = l.find i := by
  cases hlist : l.find i with
  | ok t =>
    rw [hc.find_eq_ok_iff, hsame]
    exact (find_eq_ok_iff hd).mp hlist
  | error e =>
    cases htable : b.find i with
    | ok t =>
      rw [hc.find_eq_ok_iff, hsame, ← find_eq_ok_iff hd, hlist] at htable
      cases htable
    | error e' => rw [find_eq_error hlist, TickBitmap.find_eq_error htable]

end

end Clamm
