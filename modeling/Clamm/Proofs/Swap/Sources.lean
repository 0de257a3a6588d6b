import Mathlib
import Clamm.Proofs.Swap.Session
import Clamm.Proofs.Ticks.Contents
import Clamm.Proofs.Ticks.Nearest

/-!
# A swap depends on the answers of its source only

Of a search an advance uses where it is taken to stop, and beside that only what is stored there, if
the stop lies inside the grid: no swap reaches the ends of the grid. Two sources whose answers agree
on this (`TickSource.Alike`) at every tick that a swap can come to give equal swaps, and errors.

* `Pool.advance_congr`, `Pool.run_congr`, `Pool.swap_congr`: one advance, a run, and a swap.
* `Stride.onward`: the ticks of a swap move in its direction only.
* `list_and_table_agree`: a list and a table of the same ticks answer alike.
-/

namespace Clamm

/-- Two sources answer a search alike: both fail with the same error, or both are taken to stop at
the same place and, inside the grid, agree on what is stored there. -/
inductive TickSource.Alike (source source' : TickSource) (spacing tick : ℤ) (d : Direction) : Prop
  | failed {e : Error} (h : source.next tick spacing d = .error e)
      (h' : source'.next tick spacing d = .error e)
  | found {next next' : ℤ} {flag flag' : Bool} (h : source.next tick spacing d = .ok (next, flag))
      (h' : source'.next tick spacing d = .ok (next', flag'))
      (stop : stopTick next' = stopTick next)
      (stored : minTick < stopTick next → stopTick next < maxTick →
        flag' = flag ∧ (flag = true → source'.find (stopTick next) = source.find (stopTick next)))

theorem TickSource.Alike.of_eq {source source' : TickSource} {spacing tick : ℤ} {d : Direction}
    (hnext : source'.next tick spacing d = source.next tick spacing d)
    (hfind : ∀ i, source'.find i = source.find i) : source.Alike source' spacing tick d := by
  cases h : source.next tick spacing d with
  | error e => exact .failed h (hnext.trans h)
  | ok found =>
    obtain ⟨next, flag⟩ := found
    exact .found h (hnext.trans h) rfl fun _ _ => ⟨rfl, fun _ => hfind _⟩

namespace Pool

/-- The same pool over another source of ticks. -/
def withTicks (pool : Pool) (source : TickSource) : Pool := { pool with ticks := source }

variable {pool : Pool} {source : TickSource} {o : Order} {s s' : Progress} {d : Direction}
  {stop : ℤ} {flag flag' : Bool} {edge price : ℕ}

/-- Landing short of the grid point asks for no tick, and landing on it only for the one there. -/
theorem land_withTicks {s : PoolState} (h : price = edge → flag' = flag ∧
      (flag = true → source.find stop = pool.ticks.find stop)) :
    (pool.withTicks source).land d s stop edge flag' price =
      pool.land d s stop edge flag price := by
  unfold land
  by_cases hedge : price = edge
  · obtain ⟨rfl, hfind⟩ := h hedge
    rw [if_pos hedge, if_pos hedge]
    cases flag' with
    | true => simp only [withTicks, hfind rfl]
    | false => rfl
  · rw [if_neg hedge, if_neg hedge]

/-- **An advance is the same over a source that answers its search alike.** -/
theorem advance_congr (hadv : pool.ticks.Advances pool.spacing) (ho : o.Inside)
    (hu : Underway o s.state)
    (halike : pool.ticks.Alike source pool.spacing s.state.tick o.direction) :
    (pool.withTicks source).advance o s = pool.advance o s := by
  cases halike with
  | failed h h' =>
    unfold advance
    rw [h]
    exact congrArg (· >>= _) h'
  | @found next next' flag flag' h h' hstop hstored =>
    have hspan := spans_stopTick hadv hu.accepted.tick_mem h
    unfold stopTick at hstop
    unfold advance
    rw [h, show (pool.withTicks source).ticks.next s.state.tick (pool.withTicks source).spacing
      o.direction = .ok (next', flag') from h', ok_bind, ok_bind]
    dsimp only
    rw [hstop]
    refine bind_congr_ok fun edge hedge => bind_congr_ok fun taken htaken =>
      bind_congr_ok fun paidIn _ => bind_congr_ok fun paidOut _ => ?_
    rw [(sqrtPriceAt_eq_ok_iff.mp hedge).2] at htaken ⊢
    -- a step that ends on the grid point ends inside the grid, where both know what is stored
    have hland : (pool.withTicks source).land o.direction s.state (stopTick next)
          (ratioAt (stopTick next)) flag' taken.next =
        pool.land o.direction s.state (stopTick next)
          (ratioAt (stopTick next)) flag taken.next := by
      refine land_withTicks fun heq => ?_
      have hsound := step_sound (leads_target hu (hu.accepted.encloses hspan)) htaken
      have hlimit := (leads_of_target hsound.stops).2
      rw [heq] at hlimit
      obtain ⟨h1, h2⟩ := stop_inside ho (stopTick_mem next) hspan hlimit
      exact hstored h1 h2
    unfold stopTick at hland
    rw [hland]

/-- **Runs are the same when their advances are**, from every state that an invariant holds of. -/
theorem run_congr {P : Progress → Prop}
    (hstep : ∀ s s', P s → finished o s = false → pool.advance o s = .ok s' → P s')
    (hsame : ∀ s, P s → finished o s = false →
      (pool.withTicks source).advance o s = pool.advance o s) :
    ∀ {steps : ℕ} {s : Progress}, P s →
      (pool.withTicks source).run o steps s = pool.run o steps s
  | 0, s, _ => rfl
  | steps + 1, s, hs => by
    unfold run
    cases hgo : finished o s with
    | true => rfl
    | false =>
      rw [if_neg Bool.false_ne_true, if_neg Bool.false_ne_true, hsame s hs hgo]
      exact bind_congr_ok fun s' hs' => run_congr hstep hsame (hstep s s' hs hgo hs')

end Pool

theorem Direction.Onward.refl (d : Direction) (i : ℤ) : d.Onward i i := by
  cases d <;> exact le_rfl

theorem Direction.Onward.trans {d : Direction} {i j k : ℤ} (hij : d.Onward i j)
    (hjk : d.Onward j k) : d.Onward i k := by
  cases d with
  | down => exact le_trans hjk hij
  | up => exact le_trans hij hjk

/-- **The tick of a swap moves in its direction only.** -/
theorem Stride.onward {pool : Pool} {d : Direction} {s s' : PoolState} {stop : ℤ} {flag : Bool}
    (h : Stride pool d s s' stop flag) : d.Onward s.tick s'.tick := by
  obtain ⟨⟨-, hlower⟩, hupper, -⟩ := h.spans
  rcases h.landing with ⟨-, -, hcross⟩ | hsame | ⟨-, -, h1, h2⟩
  · rw [hcross.tick]
    cases d with
    | down =>
      simp only [Direction.lower] at hlower
      simp only [Direction.Onward, tickBeyond]
      omega
    | up => exact hupper.le
  · rw [hsame]
    exact .refl d _
  · cases d with
    | down => exact Int.lt_add_one_iff.mp h2
    | up => exact h1

/-- **A swap is the same over a source that answers its searches alike**, at every tick of the grid
that lies in its direction. -/
theorem Pool.swap_congr {pool : Pool} {source : TickSource} {d : Direction} {amount : ℤ}
    {limit : Option ℕ} (hadv : pool.ticks.Advances pool.spacing)
    (halike : ∀ tick, minTick ≤ tick ∧ tick < maxTick → d.Onward pool.state.tick tick →
      pool.ticks.Alike source pool.spacing tick d) :
    (pool.withTicks source).swap d amount limit = pool.swap d amount limit := by
  obtain ⟨o, ho⟩ : ∃ o : Order, o = ⟨d, amount, limit.getD (Order.defaultLimit d)⟩ := ⟨_, rfl⟩
  have hd : o.direction = d := by rw [ho]
  unfold swap
  rw [← ho]
  refine bind_congr_ok fun _ hlimit => ?_
  obtain ⟨hin, hbefore⟩ := checkLimit_eq_ok pool.accepted hlimit
  refine congrArg (· >>= _) (run_congr (P := fun s => Underway o s.state ∧
    d.Onward pool.state.tick s.state.tick) ?_ ?_ ⟨⟨pool.accepted, hbefore⟩, .refl d _⟩)
  · rintro s s' ⟨hu, honward⟩ - hs
    obtain ⟨next, flag, taken, hparts⟩ := advance_eq_ok hs
    have hstride := (hu.stride hadv hin hparts).2.2
    exact ⟨(hu.advance hadv hin hs).1, honward.trans (hd ▸ hstride.onward)⟩
  · rintro s ⟨hu, honward⟩ -
    exact advance_congr hadv hin hu (hd ▸ halike _ hu.accepted.tick_mem honward)

/-! ## Lists and tables -/

/-- **A list and a table of the same ticks are interchangeable.** For ticks in ascending order, in
the range of the grid and with liquidity, that make a list: they make a table, which answers every
lookup and every search on the grid as the list does, and every swap of a pool of that spacing has
the same outcome, or fails with the same error, over both. -/
theorem list_and_table_agree {ticks : List Tick} {spacing : ℤ} {l : TickList}
    (hlist : TickList.make ticks spacing = .ok l)
    (hascending : ticks.Pairwise fun t u => t.index < u.index)
    (hrange : ∀ t ∈ ticks, minTick ≤ t.index ∧ t.index ≤ maxTick)
    (hgross : ∀ t ∈ ticks, 0 < t.gross) :
    ∃ b, TickBitmap.ofTicks ticks spacing = .ok b ∧
      (∀ i, b.source.find i = l.source.find i) ∧
      (∀ tick d, minTick ≤ tick ∧ tick ≤ maxTick →
        b.source.next tick spacing d = l.source.next tick spacing d) ∧
      ∀ (pool : Pool) d amount limit, pool.spacing = spacing →
        (pool.withTicks b.source).swap d amount limit =
          (pool.withTicks l.source).swap d amount limit := by
  obtain ⟨hs, hal, rfl⟩ := TickList.make_eq_ok hlist
  have hd : l.ticks.Pairwise fun t u => t.index ≠ u.index := hascending.imp ne_of_lt
  have hgrid : OnGrid spacing l.ticks := ⟨hd, hal, hrange⟩
  have hnum : ∀ t ∈ l.ticks, Numbered (t.index / spacing) := fun t ht =>
    TickBitmap.numbered_of_mem_range hs (hrange t ht)
  obtain ⟨b, hb⟩ := TickBitmap.ofTicks_total hs hal
  have hbuilt := TickBitmap.Built.ofTicks hb
  have hsame : ∀ t, t ∈ b.tickList ↔ t ∈ l.ticks := fun t =>
    TickBitmap.mem_tickList_of_ofTicks hd hgross hal hnum hb
  obtain rfl : b.spacing = spacing := (TickBitmap.Written.ofTicks hnum hb).spacing_eq
  have hgrid' := hbuilt.indexed.onGrid fun t ht => hrange t ((hsame t).mp ht)
  have hfind : ∀ i, b.source.find i = l.source.find i :=
    TickList.find_eq_find hd hbuilt.indexed hsame
  have hnext : ∀ tick d, minTick ≤ tick ∧ tick ≤ maxTick →
      b.source.next tick b.spacing d = l.source.next tick b.spacing d := fun tick d htick =>
    TickSource.HoldsAt.next_eq (.list l b.spacing) (.bitmap b hbuilt) (List.forall_mem_nil _)
      (List.forall_mem_nil _) hs hgrid hgrid' hsame htick
  refine ⟨b, hb, hfind, hnext, fun pool d amount limit hspacing => ?_⟩
  show ((pool.withTicks l.source).withTicks b.source).swap d amount limit = _
  refine Pool.swap_congr (l.advances _) fun tick htick _ => ?_
  refine .of_eq ?_ hfind
  show b.source.next tick pool.spacing d = l.source.next tick pool.spacing d
  rw [hspacing]
  exact hnext tick d ⟨htick.1, htick.2.le⟩

/-- The ticks of two nested positions as a table in place of a list. -/
theorem list_and_table_agree_nested :
    ∃ l, TickList.make nestedTicks.ticks 60 = .ok l ∧
      ∃ b, TickBitmap.ofTicks nestedTicks.ticks 60 = .ok b ∧
        b.source.find (-60) = l.source.find (-60) ∧
        b.source.next (-1) 60 .down = l.source.next (-1) 60 .down ∧
        (nestedPool.withTicks b.source).swap .down 5000 none =
          (nestedPool.withTicks l.source).swap .down 5000 none :=
  have h : TickList.make nestedTicks.ticks 60 = .ok nestedTicks := by rfl
  have ⟨b, hb, hfind, hnext, hswap⟩ :=
    list_and_table_agree h (by decide) (by decide) (by decide)
  ⟨nestedTicks, h, b, hb, hfind _, hnext _ _ (by decide), hswap _ _ _ _ rfl⟩

end Clamm
