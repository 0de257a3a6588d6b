import Mathlib
import Clamm.Proofs.Ticks.Flagged
import Clamm.Tick.InPlace

/-!
# What a table holds after a run of calls

Every call comes to one write. A table holds at each index what was written there last
(`lastWritten`), and flags the indices that hold a tick. `Written` says so of a table and the writes
that made it; a request adds its own write, or fails and changes nothing.

* `Indexed.run_insert`, `Indexed.run_remove`: the calls in place do what `TickBitmap.insert` and
  `TickBitmap.remove` do, and a call that fails leaves the table as it was.
* `Written.run`: a request keeps a table and its writes in step; `Written.after`: so does a run.
* `Opened.written`: the tables that a run starts from.
* `calls_keep_flags`: the law for whole runs.
-/

namespace Clamm

namespace TickBitmap

/-- The write that a request asks for. A tick without gross liquidity is not stored. -/
def Request.write : Request → Write
  | insert t => (t.index, if t.gross = 0 then none else some t)
  | remove index => (index, none)

variable {b b' : TickBitmap} {i j spacing : ℤ} {t : Tick} {r : Request} {requests : List Request}
  {writes : List Write}

/-! ## One call -/

theorem insert_of_not_dvd (h : ¬ b.spacing ∣ t.index) :
    b.insert t = .error (.tick .misaligned) := by
  unfold TickBitmap.insert
  rw [if_pos h]

/-- Every aligned tick can be inserted, and this changes what its index holds. -/
theorem insert_of_dvd (h : b.spacing ∣ t.index) : ∃ b', b.insert t = .ok b' ∧
    b'.spacing = b.spacing ∧ ∀ j, b'.ticks[j]? =
      if t.index = j then (Request.insert t).write.2 else b.ticks[j]? := by
  unfold TickBitmap.insert Request.write
  rw [if_neg (not_not.mpr h)]
  by_cases hg : t.gross = 0
  · simp only [if_pos hg]
    exact ⟨_, rfl, remove_spacing b _, getElem?_remove b _⟩
  · simp only [if_neg hg]
    refine ⟨_, rfl, rfl, fun j => ?_⟩
    simp [Std.TreeMap.getElem?_insert]

theorem run_flip (h : b.spacing ∣ i) : Call.flip i b =
    ((.ok (), { b with words := b.words.toggle (b.slotOf i) }) :
      Except Error Unit × TickBitmap) := by
  have hflip : b.words.flip i b.spacing = .ok (b.words.toggle (b.slotOf i)) := by
    unfold WordMap.flip
    rw [if_neg (not_le.mpr b.spacing_pos), if_neg (not_not.mpr h)]
    rfl
  simp [Call.flip, hflip]

/-- **A removal in place is a removal**, and does not fail. -/
theorem Indexed.run_remove (h : b.Indexed) (i : ℤ) : Call.remove i b =
    ((.ok (b.remove i).1, (b.remove i).2) : Except Error (Option Tick) × TickBitmap) := by
  unfold Call.remove TickBitmap.remove
  simp only [InPlace.bind_run, InPlace.get_run]
  cases ht : b.ticks[i]? with
  | none => simp only [InPlace.pure_run]
  | some t =>
    have hal := h.aligned i (mem_stored_iff_some.mpr ⟨t, ht⟩)
    simp only [InPlace.bind_run, InPlace.set_run]
    rw [run_flip (b := { b with ticks := b.ticks.erase i }) hal]
    rfl

/-- **An insertion in place is an insertion**, and leaves the table as it was if it fails. -/
theorem Indexed.run_insert (h : b.Indexed) (t : Tick) : Call.insert t b =
    ((match b.insert t with
      | .ok b' => (.ok (), b')
      | .error e => (.error e, b)) : Except Error Unit × TickBitmap) := by
  unfold Call.insert TickBitmap.insert
  simp only [InPlace.bind_run, InPlace.get_run]
  by_cases hal : b.spacing ∣ t.index
  · simp only [hal, not_true_eq_false, if_false]
    by_cases hg : t.gross = 0
    · simp only [hg, if_true, InPlace.bind_run, h.run_remove]
      rfl
    · by_cases hmem : t.index ∈ b.ticks
      · simp only [hg, hmem, if_true, if_false, not_true_eq_false, InPlace.bind_run, InPlace.set_run]
        rfl
      · simp only [hg, hmem, if_true, if_false, not_false_eq_true, InPlace.bind_run, InPlace.set_run]
        rw [run_flip (b := { b with ticks := b.ticks.insert t.index t }) hal]
        rfl
  · simp only [hal, not_false_eq_true, if_true, InPlace.throw_run]

/-- What a request does: it writes at its index, or it is refused and changes nothing. -/
theorem Consistent.run_cases (h : b.Consistent) (r : Request) :
    (¬ b.spacing ∣ r.write.1 ∧ r.run b = (.error (.tick .misaligned), b)) ∨
      ∃ b', r.run b = (.ok (), b') ∧ b'.Consistent ∧ b'.spacing = b.spacing ∧
        ∀ j, b'.ticks[j]? = if r.write.1 = j then r.write.2 else b.ticks[j]? := by
  cases r with
  | insert t =>
    show (_ ∧ Call.insert t b = _) ∨ ∃ b', Call.insert t b = _ ∧ _
    rw [h.run_insert]
    by_cases hal : b.spacing ∣ t.index
    · obtain ⟨b', hins, hspacing, hticks⟩ := insert_of_dvd hal
      rw [hins]
      exact Or.inr ⟨b', rfl, h.insert hins, hspacing, hticks⟩
    · rw [insert_of_not_dvd hal]
      exact Or.inl ⟨hal, rfl⟩
  | remove i =>
    right
    refine ⟨(b.remove i).2, ?_, h.remove i, remove_spacing b i, getElem?_remove b i⟩
    show (Call.remove i >>= fun _ => pure ()) b = _
    rw [InPlace.bind_run, h.run_remove]
    rfl

/-! ## Tables and the writes that made them -/

/-- The table keeps its flags and holds at every aligned index what was written there last. -/
structure Written (spacing : ℤ) (writes : List Write) (b : TickBitmap) : Prop where
  consistent : b.Consistent
  spacing_eq : b.spacing = spacing
  numbered : ∀ i ∈ b.stored, Numbered (i / spacing)
  lookup : ∀ i, spacing ∣ i → b.ticks[i]? = lastWritten i none writes

/-- The indices of a request are numbered wherever they are aligned. -/
def Request.Numbered (spacing : ℤ) (r : Request) : Prop :=
  spacing ∣ r.write.1 → Clamm.Numbered (r.write.1 / spacing)

/-- **A request keeps a table and its writes in step.** -/
theorem Written.run (h : Written spacing writes b) (hr : r.Numbered spacing) :
    Written spacing (writes ++ [r.write]) (r.run b).2 := by
  obtain ⟨hc, rfl, hnum, hlookup⟩ := h
  have hlast : ∀ i, b.spacing ∣ i → lastWritten i none (writes ++ [r.write]) =
      if r.write.1 = i then r.write.2 else b.ticks[i]? := fun i hi => by
    rw [lastWritten_append, ← hlookup i hi]
    rfl
  rcases hc.run_cases r with ⟨hal, hrun⟩ | ⟨b', hrun, hc', hspacing, hticks⟩
  · rw [hrun]
    refine ⟨hc, rfl, hnum, fun i hi => ?_⟩
    rw [hlast i hi, if_neg fun heq : r.write.1 = i => hal (heq ▸ hi)]
  · rw [hrun]
    refine ⟨hc', hspacing, fun i hi => ?_, fun i hi => (hticks i).trans (hlast i hi).symm⟩
    have hal := hc'.aligned i hi
    rw [hspacing] at hal
    obtain ⟨t, ht⟩ := mem_stored_iff_some.mp hi
    rw [hticks] at ht
    split at ht
    · rename_i heq
      exact heq ▸ hr (heq ▸ hal)
    · exact hnum i (mem_stored_iff_some.mpr ⟨t, ht⟩)

/-- **A run of requests keeps a table and its writes in step.** -/
theorem Written.after (h : Written spacing writes b)
    (hrequests : ∀ r ∈ requests, r.Numbered spacing) :
    Written spacing (writes ++ requests.map Request.write) (b.after requests) := by
  induction requests generalizing b writes with
  | nil => simpa [TickBitmap.after] using h
  | cons r rs ih =>
    obtain ⟨hr, hrs⟩ := List.forall_mem_cons.mp hrequests
    have hnext := ih (h.run hr) hrs
    rwa [List.append_assoc] at hnext

/-- Finding a tick reads the last write. -/
theorem Written.find_eq_ok_iff (h : Written spacing writes b) (hi : spacing ∣ i) :
    b.find i = .ok t ↔ lastWritten i none writes = some t := by
  unfold find
  rw [h.lookup i hi]
  cases lastWritten i none writes <;> simp

/-- The flag of an index is set exactly where a tick is found. -/
theorem Written.isSet_iff (h : Written spacing writes b) (hi : spacing ∣ i)
    (hnum : Numbered (i / spacing)) :
    b.words.isSet (b.slotOf i) = true ↔ ∃ t, b.find i = .ok t := by
  obtain ⟨hc, rfl, hstored, hlookup⟩ := h
  unfold slotOf
  rw [hc.isSet_iff_mem_stored hstored hnum, Int.ediv_mul_cancel hi, mem_stored_iff_some]
  unfold find
  cases b.ticks[i]? <;> simp

/-! ## Where a run starts -/

/-- The tables that are opened for a spacing, and the writes that make them: nothing, ticks that are
stored one after the other, or words that come with their ticks. -/
inductive Opened (spacing : ℤ) : List Write → TickBitmap → Prop
  | empty {b : TickBitmap} (h : TickBitmap.empty spacing = .ok b) : Opened spacing [] b
  | ofTicks {ticks : List Tick} {b : TickBitmap}
      (ht : ∀ t ∈ ticks, Clamm.Numbered (t.index / spacing))
      (h : TickBitmap.ofTicks ticks spacing = .ok b) :
      Opened spacing (ticks.map fun t => (Request.insert t).write) b
  | ofWords {words : WordMap} {ticks : List Tick} {b : TickBitmap}
      (hw : ∀ i, words.word i < 2 ^ 256) (ht : ∀ t ∈ ticks, Clamm.Numbered (t.index / spacing))
      (h : TickBitmap.ofWords spacing words ticks = .ok b) :
      Opened spacing (ticks.map fun t => (t.index, some t)) b

theorem Written.empty (h : TickBitmap.empty spacing = .ok b) : Written spacing [] b := by
  have hc := Consistent.empty h
  unfold TickBitmap.empty at h
  split at h
  · cases h
    exact ⟨hc, rfl, fun i hi => absurd hi (by simp [mem_stored]), fun i _ => by simp [lastWritten]⟩
  · cases h

/-- Ticks are stored as by requests. -/
theorem foldlM_insert_eq_ok (hi : b.Indexed) {ticks : List Tick}
    (h : ticks.foldlM TickBitmap.insert b = .ok b') : b' = b.after (ticks.map Request.insert) := by
  induction ticks generalizing b with
  | nil =>
    cases h
    rfl
  | cons t ts ih =>
    rw [List.foldlM_cons] at h
    obtain ⟨c, hins, h⟩ := bind_eq_ok_iff.mp h
    have hrun : (Request.insert t).run b = (.ok (), c) := by
      show Call.insert t b = _
      rw [hi.run_insert, hins]
    rw [ih (hi.insert hins) h, List.map_cons, TickBitmap.after, TickBitmap.after, List.foldl_cons,
      hrun]

/-- Aligned ticks can be stored one after the other. -/
theorem ofTicks_total {ticks : List Tick} (hs : 0 < spacing)
    (hal : ∀ t ∈ ticks, spacing ∣ t.index) :
    ∃ b, TickBitmap.ofTicks ticks spacing = .ok b := by
  have hfold : ∀ {ticks : List Tick} {b : TickBitmap}, (∀ t ∈ ticks, b.spacing ∣ t.index) →
      ∃ b', ticks.foldlM TickBitmap.insert b = .ok b' := by
    intro ticks
    induction ticks with
    | nil => exact fun {b} _ => ⟨b, rfl⟩
    | cons t ts ih =>
      intro b hal
      obtain ⟨ht, hts⟩ := List.forall_mem_cons.mp hal
      obtain ⟨c, hins, hspacing, -⟩ := insert_of_dvd ht
      rw [← hspacing] at hts
      rw [List.foldlM_cons, hins, ok_bind]
      exact ih hts
  unfold TickBitmap.ofTicks TickBitmap.empty
  rw [dif_pos hs, ok_bind]
  exact hfold hal

theorem Written.ofTicks {ticks : List Tick} (ht : ∀ t ∈ ticks, Clamm.Numbered (t.index / spacing))
    (h : TickBitmap.ofTicks ticks spacing = .ok b) :
    Written spacing (ticks.map fun t => (Request.insert t).write) b := by
  obtain ⟨e, he, h⟩ := bind_eq_ok_iff.mp h
  rw [foldlM_insert_eq_ok (Consistent.empty he).toIndexed h]
  have hrequests : ∀ r ∈ ticks.map Request.insert, r.Numbered spacing := fun r hr => by
    obtain ⟨t, hmem, rfl⟩ := List.mem_map.mp hr
    exact fun _ => ht t hmem
  simpa [Function.comp_def] using (Written.empty he).after hrequests

/-- **Ticks with liquidity and indices of their own are what their table holds.** -/
theorem mem_tickList_of_ofTicks {ticks : List Tick}
    (hd : ticks.Pairwise fun t u => t.index ≠ u.index) (hgross : ∀ t ∈ ticks, 0 < t.gross)
    (hal : ∀ t ∈ ticks, spacing ∣ t.index) (hnum : ∀ t ∈ ticks, Clamm.Numbered (t.index / spacing))
    (h : TickBitmap.ofTicks ticks spacing = .ok b) : t ∈ b.tickList ↔ t ∈ ticks := by
  obtain ⟨hc, rfl, -, hlookup⟩ := Written.ofTicks hnum h
  have hwrites : (ticks.map fun t => (Request.insert t).write) =
      ticks.map fun t => (t.index, some t) :=
    List.map_congr_left fun t ht => by
      show (t.index, if t.gross = 0 then none else some t) = _
      rw [if_neg (hgross t ht).ne']
  rw [hwrites] at hlookup
  rw [mem_tickList hc.toIndexed]
  constructor
  · intro hmem
    rw [hlookup _ (hc.aligned _ (mem_stored_iff_some.mpr ⟨t, hmem⟩)),
      lastWritten_eq_some_iff hd] at hmem
    exact hmem.1
  · intro hmem
    rw [hlookup _ (hal t hmem), lastWritten_eq_some_iff hd]
    exact ⟨hmem, rfl⟩

theorem Written.ofWords {words : WordMap} {ticks : List Tick} (hw : ∀ i, words.word i < 2 ^ 256)
    (ht : ∀ t ∈ ticks, Clamm.Numbered (t.index / spacing))
    (h : TickBitmap.ofWords spacing words ticks = .ok b) :
    Written spacing (ticks.map fun t => (t.index, some t)) b := by
  have hc := Consistent.ofWords hw ht h
  refine ⟨hc, ofWords_spacing h, fun i hi => ?_, fun i _ => ?_⟩
  · obtain ⟨t, hi⟩ := mem_stored_iff_some.mp hi
    obtain ⟨hmem, rfl⟩ := mem_of_ofWords h hi
    exact ht t hmem
  · obtain ⟨hs, -, -, rfl⟩ := ofWords_eq_ok_iff.mp h
    exact getElem?_holding i

/-- **What a table is opened with is what it holds.** -/
theorem Opened.written (h : Opened spacing writes b) : Written spacing writes b := by
  cases h with
  | empty h => exact Written.empty h
  | ofTicks ht h => exact Written.ofTicks ht h
  | ofWords hw ht h => exact Written.ofWords hw ht h

/-- Words are accepted only with the ticks that they flag. -/
theorem flags_of_ofWords {words : WordMap} {ticks : List Tick} (hw : ∀ i, words.word i < 2 ^ 256)
    (ht : ∀ t ∈ ticks, Clamm.Numbered (t.index / spacing))
    (h : TickBitmap.ofWords spacing words ticks = .ok b) (s : Slot) :
    words.isSet s = true ↔ ∃ t ∈ ticks, slot (t.index / spacing) = s := by
  obtain ⟨hc, -, hnum, hlookup⟩ := Written.ofWords hw ht h
  obtain ⟨hs, hticks, -, rfl⟩ := ofWords_eq_ok_iff.mp h
  constructor
  · intro hset
    obtain ⟨i, hi, rfl⟩ := (hc.isSet_iff_exists hnum).mp hset
    have hal := hc.aligned i hi
    obtain ⟨t, hi⟩ := mem_stored_iff_some.mp hi
    rw [hlookup i hal] at hi
    obtain ⟨hmem, rfl⟩ := mem_of_lastWritten_ticks hi
    exact ⟨t, hmem, rfl⟩
  · rintro ⟨t, hmem, rfl⟩
    exact (hticks t hmem).2

/-- **A table can be read out and loaded again.** -/
theorem Consistent.reload (h : b.Consistent)
    (hnum : ∀ i ∈ b.stored, Clamm.Numbered (i / b.spacing)) :
    ∃ b', TickBitmap.ofWords b.spacing b.words b.tickList = .ok b' ∧
      (∃ numbers, b'.Built numbers ∧ ∀ n ∈ numbers, Clamm.Numbered n) ∧
      b'.spacing = b.spacing ∧ ∀ t, t ∈ b'.tickList ↔ t ∈ b.tickList := by
  have hstored : ∀ t ∈ b.tickList, t.index ∈ b.stored := fun t ht =>
    (exists_tickList_iff h.toIndexed).mp ⟨t, ht, rfl⟩
  have hlookup : ∀ i t, (holding b.spacing_pos b.words b.tickList).ticks[i]? = some t ↔
      t ∈ b.tickList ∧ t.index = i := fun i t => by
    rw [getElem?_holding, lastWritten_eq_some_iff h.distinct]
  have hall : ∀ i ∈ b.words.flagged b.spacing,
      i ∈ (holding b.spacing_pos b.words b.tickList).stored := fun i hi => by
    obtain ⟨s, hset, rfl⟩ := of_mem_flagged hi
    obtain ⟨j, hj, rfl⟩ := (h.isSet_iff_exists hnum).mp hset
    obtain ⟨t, ht, rfl⟩ := (exists_tickList_iff h.toIndexed).mpr hj
    rw [slot_number (hnum _ hj), Int.ediv_mul_cancel (h.aligned _ hj)]
    exact mem_stored_iff_some.mpr ⟨t, (hlookup _ _).mpr ⟨ht, rfl⟩⟩
  have hok : TickBitmap.ofWords b.spacing b.words b.tickList =
      .ok (holding b.spacing_pos b.words b.tickList) :=
    ofWords_eq_ok_iff.mpr ⟨b.spacing_pos, fun t ht => ⟨h.aligned _ (hstored t ht),
      (h.isSet_iff_exists hnum).mpr ⟨_, hstored t ht, rfl⟩⟩, hall, rfl⟩
  have hbuilt := Built.ofWords h.word_lt hok
  refine ⟨_, hok, ⟨_, hbuilt, fun n hn => ?_⟩, rfl, fun t => ?_⟩
  · obtain ⟨t, ht, rfl⟩ := List.mem_map.mp hn
    exact hnum _ (hstored t ht)
  · rw [mem_tickList hbuilt.indexed, hlookup]
    exact and_iff_left rfl

end TickBitmap

open TickBitmap in
/-- **Flags and ticks stay in step.** On every table that was opened empty, from ticks or from words
with their ticks, after every run of insertions and removals: the flag of a grid point is set where
a tick is found and nowhere else, and the tick found there is the one stored last. A call that fails
changes nothing. Words are accepted with ticks only if the flags and the indices of the ticks
correspond one to one. -/
theorem calls_keep_flags {spacing : ℤ} {writes : List Write} {b : TickBitmap}
    {requests : List Request} (hopened : Opened spacing writes b)
    (hrequests : ∀ r ∈ requests, r.Numbered spacing) :
    (∀ i, spacing ∣ i → Numbered (i / spacing) →
      ((b.after requests).words.isSet (slot (i / spacing)) = true ↔
          ∃ t, (b.after requests).find i = .ok t) ∧
        ∀ t, (b.after requests).find i = .ok t ↔
          t.index = i ∧ lastWritten i none (writes ++ requests.map Request.write) = some t) ∧
      (∀ (r : Request) e b', r.run (b.after requests) = (.error e, b') → b' = b.after requests) ∧
      ∀ words ticks c, (∀ i, words.word i < 2 ^ 256) →
        (∀ t ∈ ticks, Numbered (t.index / spacing)) → ofWords spacing words ticks = .ok c →
        (∀ t ∈ ticks, spacing ∣ t.index ∧ words.isSet (slot (t.index / spacing)) = true) ∧
          ∀ s, words.isSet s = true →
            ∃! i, (∃ t ∈ ticks, t.index = i) ∧ slot (i / spacing) = s := by
  have hafter := hopened.written.after hrequests
  refine ⟨fun i hi hnum => ⟨?_, fun t => ?_⟩, fun r e b' hrun => ?_,
    fun words ticks c hw ht h => ?_⟩
  · have hflag := hafter.isSet_iff hi hnum
    rwa [slotOf, hafter.spacing_eq] at hflag
  · rw [hafter.find_eq_ok_iff hi, iff_and_self]
    intro hlast
    exact hafter.consistent.key ((hafter.lookup i hi).trans hlast)
  · rcases hafter.consistent.run_cases r with ⟨-, hfailed⟩ | ⟨c, hdone, -⟩
    · rw [hfailed] at hrun
      exact (Prod.mk.inj hrun).2.symm
    · rw [hdone] at hrun
      cases hrun
  · have hflags := flags_of_ofWords hw ht h
    have hal : ∀ t ∈ ticks, spacing ∣ t.index := by
      obtain ⟨-, hticks, -⟩ := ofWords_eq_ok_iff.mp h
      exact fun t hmem => (hticks t hmem).1
    refine ⟨fun t hmem => ⟨hal t hmem, (hflags _).mpr ⟨t, hmem, rfl⟩⟩, fun s hset => ?_⟩
    obtain ⟨t, hmem, hslot⟩ := (hflags s).mp hset
    refine ⟨t.index, ⟨⟨t, hmem, rfl⟩, hslot⟩, ?_⟩
    rintro _ ⟨⟨u, hu, rfl⟩, hslot'⟩
    have hnum := slot_inj (ht u hu) (ht t hmem) (hslot'.trans hslot.symm)
    rw [← Int.ediv_mul_cancel (hal u hu), hnum, Int.ediv_mul_cancel (hal t hmem)]

open TickBitmap in
/-- Of three ticks one is replaced and one removed; a tick on no grid point is refused. Words that
flag one tick come with it. -/
theorem calls_keep_flags_replaced : ∃ b c d,
    ofTicks [⟨-120, 10, 10⟩, ⟨60, 4, 4⟩, ⟨600, 14, -14⟩] 60 = .ok b ∧
      c = b.after [.insert ⟨60, 8, 8⟩, .insert ⟨61, 1, 1⟩, .remove 600] ∧
      (c.find 60 = .ok ⟨60, 8, 8⟩ ∧ c.words.isSet (slot (60 / 60)) = true) ∧
      ((∀ t, c.find 600 ≠ .ok t) ∧ c.words.isSet (slot (600 / 60)) ≠ true) ∧
      (∀ e b', (Request.insert ⟨61, 1, 1⟩).run c = (.error e, b') → b' = c) ∧
      ofWords 60 {((0 : ℤ), 1 <<< 10)} [⟨600, 1, 1⟩] = .ok d ∧
      ∃! i, (∃ t ∈ ([⟨600, 1, 1⟩] : List Tick), t.index = i) ∧ slot (i / 60) = ⟨0, 10⟩ := by
  have hnum : ∀ t ∈ ([⟨-120, 10, 10⟩, ⟨60, 4, 4⟩, ⟨600, 14, -14⟩] : List Tick),
      Numbered (t.index / 60) := by
    simp [Numbered]
  have hrequests : ∀ r ∈ ([.insert ⟨60, 8, 8⟩, .insert ⟨61, 1, 1⟩, .remove 600] : List Request),
      r.Numbered 60 := by
    simp [Request.Numbered, Request.write, Numbered]
  obtain ⟨b, hb⟩ : ∃ b, ofTicks [⟨-120, 10, 10⟩, ⟨60, 4, 4⟩, ⟨600, 14, -14⟩] 60 = .ok b :=
    ofTicks_total (by decide) (by decide)
  obtain ⟨hsync, hfailed, hwords⟩ := calls_keep_flags (.ofTicks hnum hb) hrequests
  obtain ⟨hflag, hfind⟩ := hsync 60 (by decide) (by simp [Numbered])
  obtain ⟨hflag', hfind'⟩ := hsync 600 (by decide) (by simp [Numbered])
  have hreplaced := (hfind ⟨60, 8, 8⟩).mpr ⟨rfl, by decide⟩
  have hremoved : ∀ t, _ ≠ Except.ok t := fun t ht => by
    have hlast := ((hfind' t).mp ht).2
    simp [lastWritten, Request.write] at hlast
  have hone : ∀ i, WordMap.word {((0 : ℤ), 1 <<< 10)} i < 2 ^ 256 := fun i => by
    unfold WordMap.word
    rw [Std.TreeMap.singleton_eq_insert, Std.TreeMap.getElem?_insert]
    split <;> simp
  obtain ⟨-, honly⟩ := hwords {((0 : ℤ), 1 <<< 10)} [⟨600, 1, 1⟩] _ hone (by simp [Numbered]) rfl
  exact ⟨b, _, _, hb, rfl, ⟨hreplaced, hflag.mpr ⟨_, hreplaced⟩⟩,
    ⟨hremoved, fun hset => (hflag'.mp hset).elim hremoved⟩, hfailed _, rfl,
    honly ⟨0, 10⟩ (by decide)⟩

end Clamm
