import Mathlib
import Clamm.Proofs.Trade.Addresses
import Clamm.Proofs.Trade.Routes

/-!
# Legs that make a trade

A trade is put together from its legs in three steps: the tokens of every leg are compared with those
of the first, the addresses of all pools are searched for a repeat, and the amounts are added up. The
tokens put all pools on one chain, where distinct addresses are distinct pools. A sum is refused
exactly if its integer part needs more than 256 bits, and what is added up is the rational, whichever
way two fractions are added.

* `Trade.Consistent`: the legs that make a trade.
* `Trade.exists_totals_iff`: sums succeed exactly if every running sum fits.
* `Trade.assemble_eq_make`: looking for repeats among sorted addresses refuses the same trades.
* `Trade.assemble_accepts`: which legs are accepted, and what they come to.
-/

namespace Clamm

variable {x y : Amount} {leg : Leg} {legs : List Leg} {totals totals' : Amount × Amount}
  {input output : Token} {kind : TradeKind} {t : Trade}

/-! ## Sums -/

/-- The integer part of a sum fits in 256 bits. -/
def Fits (x : ℚ) : Prop := Fraction.integerPart x ≤ maxUInt256

theorem Amount.fits (x : Amount) : Fits x.value.toRat := by
  unfold Fits
  rw [← Fraction.quotient_eq_integerPart]
  exact x.quotient_le

/-- A sum succeeds exactly if it fits. -/
theorem Amount.exists_add_iff (htoken : (x.token == y.token) = true) :
    (∃ z, x.add y = .ok z) ↔ Fits (x.value.toRat + y.value.toRat) := by
  unfold Fits
  rw [← Fraction.toRat_add, ← Fraction.quotient_eq_integerPart]
  unfold add sameToken make
  rw [if_pos htoken, ok_bind]
  split_ifs with h <;> simp [h]

namespace Trade

/-- What goes into legs. -/
def inputs (legs : List Leg) : ℚ := (legs.map fun leg => leg.input.value.toRat).sum

/-- What comes out of legs. -/
def outputs (legs : List Leg) : ℚ := (legs.map fun leg => leg.output.value.toRat).sum

theorem inputs_cons (leg : Leg) (legs : List Leg) :
    inputs (leg :: legs) = leg.input.value.toRat + inputs legs := List.sum_cons

theorem outputs_cons (leg : Leg) (legs : List Leg) :
    outputs (leg :: legs) = leg.output.value.toRat + outputs legs := List.sum_cons

theorem exists_addLeg_iff (hin : (totals.1.token == leg.input.token) = true)
    (hout : (totals.2.token == leg.output.token) = true) :
    (∃ totals', addLeg totals leg = .ok totals') ↔
      Fits (totals.1.value.toRat + leg.input.value.toRat) ∧
        Fits (totals.2.value.toRat + leg.output.value.toRat) := by
  rw [← Amount.exists_add_iff hin, ← Amount.exists_add_iff hout]
  constructor
  · rintro ⟨totals', h⟩
    obtain ⟨x, hx, h⟩ := bind_eq_ok_iff.mp h
    obtain ⟨y, hy, -⟩ := bind_eq_ok_iff.mp h
    exact ⟨⟨x, hx⟩, y, hy⟩
  · rintro ⟨⟨x, hx⟩, y, hy⟩
    exact ⟨(x, y), bind_eq_ok_iff.mpr ⟨x, hx, bind_eq_ok_iff.mpr ⟨y, hy, rfl⟩⟩⟩

/-- Legs add the sums of their amounts to totals. -/
theorem totals_eq_ok (h : legs.foldlM addLeg totals = .ok totals') :
    totals'.1.token = totals.1.token ∧ totals'.2.token = totals.2.token ∧
      totals'.1.value.toRat = totals.1.value.toRat + inputs legs ∧
      totals'.2.value.toRat = totals.2.value.toRat + outputs legs := by
  induction legs generalizing totals with
  | nil =>
    cases h
    simp [inputs, outputs]
  | cons leg legs ih =>
    rw [List.foldlM_cons] at h
    obtain ⟨next, hnext, h⟩ := bind_eq_ok_iff.mp h
    obtain ⟨hin, hout, hinput, houtput⟩ := addLeg_eq_ok hnext
    rw [inputs_cons, outputs_cons, ← add_assoc, ← add_assoc, ← hin, ← hout, ← hinput, ← houtput]
    exact ih h

/-- **Legs can be added up exactly if every running sum fits.** -/
theorem exists_totals_iff (hin : ∀ leg ∈ legs, (totals.1.token == leg.input.token) = true)
    (hout : ∀ leg ∈ legs, (totals.2.token == leg.output.token) = true) :
    (∃ totals', legs.foldlM addLeg totals = .ok totals') ↔ ∀ run, run <+: legs →
      Fits (totals.1.value.toRat + inputs run) ∧ Fits (totals.2.value.toRat + outputs run) := by
  have hnil : Fits (totals.1.value.toRat + inputs []) ∧ Fits (totals.2.value.toRat + outputs []) :=
    ⟨(add_zero totals.1.value.toRat).symm ▸ totals.1.fits,
      (add_zero totals.2.value.toRat).symm ▸ totals.2.fits⟩
  induction legs generalizing totals with
  | nil =>
    refine ⟨fun _ run hrun => ?_, fun _ => ⟨totals, rfl⟩⟩
    rw [List.prefix_nil.mp hrun]
    exact hnil
  | cons leg legs ih =>
    obtain ⟨hleg, hlegs⟩ := List.forall_mem_cons.mp hin
    obtain ⟨hleg', hlegs'⟩ := List.forall_mem_cons.mp hout
    -- the runs of the rest, from the totals after the first leg, are those that start with it
    have hrest : ∀ next, addLeg totals leg = .ok next →
        ((∃ totals', legs.foldlM addLeg next = .ok totals') ↔ ∀ run, run <+: legs →
          Fits (totals.1.value.toRat + inputs (leg :: run)) ∧
            Fits (totals.2.value.toRat + outputs (leg :: run))) := by
      intro next hnext
      obtain ⟨htoken, htoken', hinput, houtput⟩ := addLeg_eq_ok hnext
      simp only [inputs_cons, outputs_cons, ← add_assoc, ← hinput, ← houtput]
      refine ih (htoken ▸ hlegs) (htoken' ▸ hlegs') ?_
      exact ⟨(add_zero next.1.value.toRat).symm ▸ next.1.fits,
        (add_zero next.2.value.toRat).symm ▸ next.2.fits⟩
    simp only [List.foldlM_cons, List.prefix_cons_iff]
    constructor
    · rintro ⟨totals', h⟩ run hrun
      obtain ⟨next, hnext, h⟩ := bind_eq_ok_iff.mp h
      rcases hrun with rfl | ⟨run, rfl, hrun⟩
      · exact hnil
      · exact (hrest next hnext).mp ⟨totals', h⟩ run hrun
    · intro h
      have hruns : ∀ run, run <+: legs →
          Fits (totals.1.value.toRat + inputs (leg :: run)) ∧
            Fits (totals.2.value.toRat + outputs (leg :: run)) :=
        fun run hrun => h (leg :: run) (Or.inr ⟨run, rfl, hrun⟩)
      have hone := hruns [] List.nil_prefix
      rw [inputs_cons, outputs_cons, inputs, outputs, List.map_nil, List.map_nil, List.sum_nil,
        add_zero, add_zero] at hone
      obtain ⟨next, hnext⟩ := (exists_addLeg_iff hleg hleg').mpr hone
      obtain ⟨totals', h⟩ := (hrest next hnext).mpr hruns
      exact ⟨totals', bind_eq_ok_iff.mpr ⟨next, hnext, h⟩⟩

end Trade

/-! ## Consistent legs -/

/-- A leg runs between two tokens, and so do its amounts. -/
def Leg.Between (leg : Leg) (input output : Token) : Prop :=
  ((leg.route.input == input) = true ∧ (leg.input.token == input) = true) ∧
    (leg.route.output == output) = true ∧ (leg.output.token == output) = true

instance (leg : Leg) (input output : Token) : Decidable (leg.Between input output) :=
  inferInstanceAs (Decidable (_ ∧ _))

theorem Leg.checkTokens_eq_ok_iff :
    checkTokens input output leg = .ok () ↔ leg.Between input output := by
  unfold checkTokens Between
  simp only [bne]
  grind

/-- What is done to every member of a list succeeds exactly if it succeeds for each. -/
theorem forM_eq_ok_iff {α : Type} {f : α → Except Error Unit} {as : List α} :
    as.forM f = .ok () ↔ ∀ a ∈ as, f a = .ok () := by
  induction as with
  | nil => simp [pure, Except.pure]
  | cons a as ih =>
    change (f a >>= fun _ => as.forM f) = .ok () ↔ _
    rw [bind_eq_ok_iff, List.forall_mem_cons, ← ih]
    exact ⟨fun ⟨(), h⟩ => h, fun h => ⟨(), h⟩⟩

/-- What always succeeds gives its values. -/
theorem mapM_eq_ok_map {α β : Type} {f : α → Except Error β} {g : α → β}
    (h : ∀ a, f a = .ok (g a)) (as : List α) : as.mapM f = .ok (as.map g) := by
  induction as with
  | nil => rfl
  | cons a as ih =>
    rw [List.mapM_cons, h, ok_bind, ih]
    rfl

namespace Trade

/-- All pools used, leg by leg. -/
def usedPools (legs : List Leg) : List Pool := legs.flatMap fun leg => leg.route.pools

/-- **The legs that make a trade.** -/
structure Consistent (legs : List Leg) : Prop where
  /-- There are legs, and all run between the tokens of the first. -/
  between : ∃ first ∈ legs.head?, ∀ leg ∈ legs, leg.Between first.input.token first.output.token
  /-- No two pools have the same tokens and the same fee, in one leg or in two. -/
  distinct : (usedPools legs).Pairwise fun p q => ¬p.Same q
  /-- No running sum has an integer part of more than 256 bits. -/
  fits : ∀ run, run <+: legs → Fits (inputs run) ∧ Fits (outputs run)

/-- The pools of legs between the same two tokens are on one chain. -/
theorem chain_eq_of_between (h : ∀ leg ∈ legs, leg.Between input output) :
    ∀ p ∈ usedPools legs, p.chain = input.chain := by
  intro p hp
  obtain ⟨leg, hleg, hp⟩ := List.mem_flatMap.mp hp
  have hroute := Route.chain_eq_of_hops leg.route.hops_eq p hp
  exact hroute.trans (Token.beq_iff.mp (h leg hleg).1.1).1

/-- **Repeats among sorted addresses are pools used twice.** -/
theorem assemble_eq_make (kind : TradeKind) (legs : List Leg) :
    assemble kind legs = make kind legs := by
  have haddresses : ((legs.flatMap fun leg => leg.route.pools).mapM fun pool =>
      deployedAddress defaultFactory pool.token0 pool.token1 pool.fee defaultInitCodeHash) =
        .ok (poolAddresses legs) :=
    mapM_eq_ok_map Pool.deployedAddress_eq _
  unfold assemble make
  cases legs with
  | nil => rfl
  | cons first rest =>
    dsimp only
    simp only [haddresses, ok_bind, allDistinct_eq, decide_eq_true_iff]

/-- A total before anything is added to it. -/
def zero (token : Token) : Amount := ⟨token, .ofInt 0, by decide⟩

theorem ofInt_zero (token : Token) : Amount.ofInt token 0 = .ok (zero token) := rfl

/-- Distinct addresses are distinct pools, as long as no hash collides. -/
theorem nodup_addresses_iff (h : ∀ leg ∈ legs, leg.Between input output)
    (hsalt : Set.InjOn Keccak.hash (Pool.key '' {pool | pool ∈ usedPools legs}))
    (hdeploy : Set.InjOn Pool.deployment (Pool.salt '' {pool | pool ∈ usedPools legs})) :
    (poolAddresses legs).Nodup ↔ (usedPools legs).Pairwise fun p q => ¬p.Same q :=
  Pool.nodup_addresses_iff (fun p hp q hq =>
    (chain_eq_of_between h p hp).trans (chain_eq_of_between h q hq).symm) hsalt hdeploy

/-- From nothing, legs can be added up exactly if every running sum of theirs fits. -/
theorem exists_totals_of_between (h : ∀ leg ∈ legs, leg.Between input output) :
    (∃ totals, legs.foldlM addLeg (zero input, zero output) = .ok totals) ↔
      ∀ run, run <+: legs → Fits (inputs run) ∧ Fits (outputs run) := by
  have hin : ∀ leg ∈ legs, (input == leg.input.token) = true :=
    fun leg hleg => (Token.beq_comm _ _).trans (h leg hleg).1.2
  have hout : ∀ leg ∈ legs, (output == leg.output.token) = true :=
    fun leg hleg => (Token.beq_comm _ _).trans (h leg hleg).2.2
  have hsums := @exists_totals_iff legs (zero input, zero output) hin hout
  simpa [zero] using hsums

/-- The three steps of putting a trade together. -/
theorem make_cons_eq_ok_iff {first : Leg} {rest : List Leg} :
    make kind (first :: rest) = .ok t ↔
      (∀ leg ∈ first :: rest, leg.Between first.input.token first.output.token) ∧
      (poolAddresses (first :: rest)).Nodup ∧
      ∃ totals, (first :: rest).foldlM addLeg (zero first.input.token, zero first.output.token) =
        .ok totals ∧ t = ⟨kind, first :: rest, totals.1, totals.2⟩ := by
  unfold make
  dsimp only
  simp only [ofInt_zero, ok_bind, bind_eq_ok_iff, ite_error_eq_ok_iff]
  constructor
  · rintro ⟨⟨⟩, hcheck, hnodup, totals, htotals, h⟩
    cases h
    exact ⟨fun leg hleg => Leg.checkTokens_eq_ok_iff.mp (forM_eq_ok_iff.mp hcheck leg hleg), hnodup,
      totals, htotals, rfl⟩
  · rintro ⟨hbetween, hnodup, totals, htotals, rfl⟩
    exact ⟨(), forM_eq_ok_iff.mpr fun leg hleg => Leg.checkTokens_eq_ok_iff.mpr (hbetween leg hleg),
      hnodup, totals, htotals, rfl⟩

/-- **Exactly the consistent legs make a trade.** As long as no hash collides on what the pools of
the legs are deployed with, legs are accepted exactly if there are any, they all run between the
tokens of the first, no two of their pools have the same tokens and the same fee, and no running sum
of inputs or of outputs has an integer part of more than 256 bits. The totals are the exact sums. -/
theorem assemble_accepts (kind : TradeKind) (legs : List Leg)
    (hsalt : Set.InjOn Keccak.hash (Pool.key '' {pool | pool ∈ usedPools legs}))
    (hdeploy : Set.InjOn Pool.deployment (Pool.salt '' {pool | pool ∈ usedPools legs})) :
    assemble kind legs = make kind legs ∧
    ((∃ t, assemble kind legs = .ok t) ↔ Consistent legs) ∧
    ∀ t, assemble kind legs = .ok t → t.kind = kind ∧ t.legs = legs ∧
      (∃ first ∈ legs.head?, t.input.token = first.input.token ∧
        t.output.token = first.output.token) ∧
      t.input.value.toRat = inputs legs ∧ t.output.value.toRat = outputs legs := by
  rw [assemble_eq_make]
  refine ⟨rfl, ?_, ?_⟩
  · cases legs with
    | nil =>
      constructor
      · rintro ⟨t, h⟩
        cases h
      · rintro ⟨⟨first, hfirst, -⟩, -, -⟩
        cases hfirst
    | cons first rest =>
      constructor
      · rintro ⟨t, h⟩
        obtain ⟨hbetween, hnodup, totals, hfold, -⟩ := make_cons_eq_ok_iff.mp h
        exact ⟨⟨first, rfl, hbetween⟩, (nodup_addresses_iff hbetween hsalt hdeploy).mp hnodup,
          (exists_totals_of_between hbetween).mp ⟨totals, hfold⟩⟩
      · rintro ⟨⟨_, ⟨⟩, hbetween⟩, hpairwise, hfits⟩
        have hnodup := (nodup_addresses_iff hbetween hsalt hdeploy).mpr hpairwise
        obtain ⟨totals, hfold⟩ := (exists_totals_of_between hbetween).mpr hfits
        exact ⟨_, make_cons_eq_ok_iff.mpr ⟨hbetween, hnodup, totals, hfold, rfl⟩⟩
  · intro t h
    cases legs with
    | nil => cases h
    | cons first rest =>
      obtain ⟨-, -, totals, hfold, rfl⟩ := make_cons_eq_ok_iff.mp h
      obtain ⟨hin, hout, hinput, houtput⟩ := totals_eq_ok hfold
      refine ⟨rfl, rfl, ⟨first, rfl, hin, hout⟩, ?_, ?_⟩
      · simpa [zero] using hinput
      · simpa [zero] using houtput

/-- A third of a unit through the nested pool, and a sixth through its like at another fee. -/
def splitLegs : List Leg :=
  [⟨nestedRoute, ⟨nestedPool.token0, ⟨1, 3, by decide⟩, by decide⟩,
      ⟨nestedPool.token1, ⟨3, 7, by decide⟩, by decide⟩⟩,
    ⟨{ nestedRoute with
        pools := [{ nestedPool with fee := 100, fee_lt := by decide }]
        pools_ne_nil := List.cons_ne_nil _ _
        hops_eq := rfl },
      ⟨nestedPool.token0, ⟨1, 6, by decide⟩, by decide⟩,
      ⟨nestedPool.token1, ⟨2, 7, by decide⟩, by decide⟩⟩]

/-- The legs are accepted once and come to a half for five sevenths, but not twice. -/
theorem assemble_accepts_split :
    Set.InjOn Keccak.hash (Pool.key '' {pool | pool ∈ usedPools splitLegs}) ∧
    Set.InjOn Pool.deployment (Pool.salt '' {pool | pool ∈ usedPools splitLegs}) ∧
    (∃ t, assemble .exactInput splitLegs = .ok t ∧ t.input.value.toRat = 1 / 2 ∧
      t.output.value.toRat = 5 / 7) ∧
    ¬∃ t, assemble .exactInput (splitLegs ++ splitLegs) = .ok t := by
  have haddresses :
      ((usedPools splitLegs).map fun pool => pool.address defaultInitCodeHash).Nodup := by
    decide +kernel
  obtain ⟨hsalt, hdeploy⟩ := Pool.injOn_of_nodup_addresses haddresses
  have htwice : ∀ pool, pool ∈ usedPools (splitLegs ++ splitLegs) ↔ pool ∈ usedPools splitLegs :=
    fun pool => by simp [usedPools]
  have hconsistent : Consistent splitLegs := by
    refine ⟨⟨_, rfl, by decide⟩, by decide, fun run hrun => ?_⟩
    simp only [splitLegs, List.prefix_cons_iff, List.prefix_nil] at hrun
    rcases hrun with rfl | ⟨_, rfl, rfl | ⟨_, rfl, rfl⟩⟩ <;>
      norm_num [inputs, outputs, Fits, Fraction.integerPart, Fraction.toRat]
  obtain ⟨-, haccept, htotals⟩ := assemble_accepts .exactInput splitLegs hsalt hdeploy
  obtain ⟨t, ht⟩ := haccept.mpr hconsistent
  obtain ⟨-, -, -, hin, hout⟩ := htotals t ht
  refine ⟨hsalt, hdeploy, ⟨t, ht, ?_, ?_⟩, fun hrepeated => ?_⟩
  · rw [hin]
    norm_num [splitLegs, inputs, Fraction.toRat]
  · rw [hout]
    norm_num [splitLegs, outputs, Fraction.toRat]
  · have hboth := (assemble_accepts .exactInput (splitLegs ++ splitLegs)
      (by simpa only [htwice] using hsalt) (by simpa only [htwice] using hdeploy)).2.1.mp hrepeated
    exact absurd hboth.distinct (by decide)

end Trade

end Clamm
