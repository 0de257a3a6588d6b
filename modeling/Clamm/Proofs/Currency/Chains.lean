import Mathlib
import Clamm.Fraction.Parts
import Clamm.Proofs.Currency.Fraction

/-!
# Chains of operations on fractions

Amounts and prices are what long chains of operations leave. A `Chain` is such a chain as a tree, and
`Chain.eval` reads it in an `Arithmetic`: fractions, fractions as two plain integers, or rationals.
One arithmetic may read off another (`Arithmetic.Reads`), operation by operation; then every chain
comes to the same in both (`Chain.eval_reads`). That is the only induction.

Fractions are read off as rationals, with the same failures, and as parts. So no chain ever leaves
parts whose denominator is not positive, and what cross-multiplication makes of equality and order
there is what they are of rationals.

* `Fraction.Chain.eval_reads`: chains in two arithmetics.
* `Fraction.arithmetic_reads_rationals`, `arithmetic_reads_parts`: what fractions compute.
* `Fraction.Parts.chains_faithful`: chains of operations on two integers compute in rationals.
-/

namespace Clamm.Fraction

variable {F G : Type}

/-! ## Chains and their readings -/

/-- What a chain of operations comes to: an integer or a fraction. -/
inductive Outcome where
  | integer
  | fraction

namespace Outcome

/-- Outcomes where fractions are values of `F`. -/
abbrev Value (F : Type) : Outcome → Type
  | integer => ℤ
  | fraction => F

/-- An outcome with its fraction, if it is one, read by `f`. -/
def map (f : F → G) : (o : Outcome) → o.Value F → o.Value G
  | integer => id
  | fraction => f

end Outcome

/-- A chain of operations. -/
inductive Chain : Outcome → Type where
  | literal (n : ℤ) : Chain .integer
  | quotient (a : Chain .fraction) : Chain .integer
  | make (num den : Chain .integer) : Chain .fraction
  | ofInt (n : Chain .integer) : Chain .fraction
  | remainder (a : Chain .fraction) : Chain .fraction
  | invert (a : Chain .fraction) : Chain .fraction
  | add (a b : Chain .fraction) : Chain .fraction
  | sub (a b : Chain .fraction) : Chain .fraction
  | mul (a b : Chain .fraction) : Chain .fraction
  | divide (a b : Chain .fraction) : Chain .fraction

/-- The operations where fractions are values of `F`. -/
structure Arithmetic (F : Type) where
  quotient : F → Except Error ℤ
  make : ℤ → ℤ → Except Error F
  ofInt : ℤ → F
  remainder : F → Except Error F
  invert : F → Except Error F
  add : F → F → F
  sub : F → F → F
  mul : F → F → F
  divide : F → F → Except Error F

/-- What a chain comes to. -/
def Chain.eval (A : Arithmetic F) {o : Outcome} : Chain o → Except Error (o.Value F)
  | .literal n => .ok n
  | .quotient a => do A.quotient (← a.eval A)
  | .make num den => do A.make (← num.eval A) (← den.eval A)
  | .ofInt n => do return A.ofInt (← n.eval A)
  | .remainder a => do A.remainder (← a.eval A)
  | .invert a => do A.invert (← a.eval A)
  | .add a b => do return A.add (← a.eval A) (← b.eval A)
  | .sub a b => do return A.sub (← a.eval A) (← b.eval A)
  | .mul a b => do return A.mul (← a.eval A) (← b.eval A)
  | .divide a b => do A.divide (← a.eval A) (← b.eval A)

/-- The operations of `B` do to what `f` reads off as those of `A` do to what it is read off. -/
structure Arithmetic.Reads (A : Arithmetic F) (B : Arithmetic G) (f : F → G) : Prop where
  quotient (a : F) : B.quotient (f a) = (A.quotient a).map id
  make (num den : ℤ) : B.make num den = (A.make num den).map f
  ofInt (n : ℤ) : B.ofInt n = f (A.ofInt n)
  remainder (a : F) : B.remainder (f a) = (A.remainder a).map f
  invert (a : F) : B.invert (f a) = (A.invert a).map f
  add (a b : F) : B.add (f a) (f b) = f (A.add a b)
  sub (a b : F) : B.sub (f a) (f b) = f (A.sub a b)
  mul (a b : F) : B.mul (f a) (f b) = f (A.mul a b)
  divide (a b : F) : B.divide (f a) (f b) = (A.divide a b).map f

/-- **A chain comes to the same in two arithmetics**, if one reads off the other. -/
theorem Chain.eval_reads {A : Arithmetic F} {B : Arithmetic G} {f : F → G} (h : A.Reads B f)
    {o : Outcome} (e : Chain o) : e.eval B = (e.eval A).map (o.map f) := by
  induction e with
  | literal n => rfl
  | quotient a ih =>
    rw [eval, ih]
    exact map_bind_eq_bind_map h.quotient
  | make num den ihn ihd =>
    rw [eval, ihn, ihd]
    exact map_bind_eq_bind_map fun x => map_bind_eq_bind_map fun y => h.make x y
  | ofInt n ih =>
    rw [eval, ih]
    exact map_bind_eq_bind_map fun x => congrArg Except.ok (h.ofInt x)
  | remainder a ih =>
    rw [eval, ih]
    exact map_bind_eq_bind_map h.remainder
  | invert a ih =>
    rw [eval, ih]
    exact map_bind_eq_bind_map h.invert
  | add a b iha ihb =>
    rw [eval, iha, ihb]
    exact map_bind_eq_bind_map fun x => map_bind_eq_bind_map fun y =>
      congrArg Except.ok (h.add x y)
  | sub a b iha ihb =>
    rw [eval, iha, ihb]
    exact map_bind_eq_bind_map fun x => map_bind_eq_bind_map fun y =>
      congrArg Except.ok (h.sub x y)
  | mul a b iha ihb =>
    rw [eval, iha, ihb]
    exact map_bind_eq_bind_map fun x => map_bind_eq_bind_map fun y =>
      congrArg Except.ok (h.mul x y)
  | divide a b iha ihb =>
    rw [eval, iha, ihb]
    exact map_bind_eq_bind_map fun x => map_bind_eq_bind_map fun y => h.divide x y

/-! ## Fractions as rationals -/

/-- The operations of fractions. -/
def arithmetic : Arithmetic Fraction where
  quotient a := .ok a.quotient
  make := make
  ofInt := ofInt
  remainder a := .ok a.remainder
  invert := invert
  add := (· + ·)
  sub := (· - ·)
  mul := (· * ·)
  divide := divide

/-- A quotient of rationals: there is none by zero. -/
def unlessZero (divisor x : ℚ) : Except Error ℚ :=
  if divisor = 0 then .error (.arithmetic .divisionByZero) else .ok x

/-- The operations of rationals, which fail only for a divisor of zero. -/
def rationals : Arithmetic ℚ where
  quotient x := .ok (integerPart x)
  make num den := unlessZero den (num / den)
  ofInt n := n
  remainder x := .ok (x - integerPart x)
  invert x := unlessZero x x⁻¹
  add := (· + ·)
  sub := (· - ·)
  mul := (· * ·)
  divide x y := unlessZero y (x / y)

theorem map_toRat_make (num den : ℤ) : (make num den).map toRat = unlessZero den (num / den) := by
  cases h : make num den with
  | error e =>
    obtain ⟨rfl, rfl⟩ := make_eq_error_iff.mp h
    rfl
  | ok a =>
    obtain ⟨hne, ha⟩ := toRat_make h
    rw [unlessZero, if_neg (Int.cast_ne_zero.mpr hne), ← ha]
    rfl

theorem invert_eq_error_iff {a : Fraction} :
    a.invert = .error (.arithmetic .divisionByZero) ↔ a.toRat = 0 := by
  rw [invert, make_eq_error_iff, and_iff_left rfl, toRat_eq_zero_iff]

theorem divide_eq_error_iff {a b : Fraction} :
    a.divide b = .error (.arithmetic .divisionByZero) ↔ b.toRat = 0 := by
  have ha : (a.den : ℤ) ≠ 0 := Int.natCast_ne_zero.mpr a.den_pos.ne'
  rw [divide, make_eq_error_iff, and_iff_left rfl, toRat_eq_zero_iff, mul_eq_zero, or_iff_right ha]

/-- **Fractions compute as rationals do.** -/
theorem arithmetic_reads_rationals : arithmetic.Reads rationals toRat where
  quotient a := congrArg Except.ok (quotient_eq_integerPart a).symm
  make num den := (map_toRat_make num den).symm
  ofInt n := (toRat_ofInt n).symm
  remainder a := by
    refine congrArg Except.ok ?_
    rw [← quotient_eq_integerPart, ← quotient_add_remainder a]
    exact add_sub_cancel_left _ _
  invert a := by
    refine Eq.trans ?_ (map_toRat_make _ _).symm
    simp only [rationals, unlessZero, toRat_eq_zero_iff, Int.cast_eq_zero, Int.cast_natCast]
    rw [toRat, inv_div]
  add a b := (toRat_add a b).symm
  sub a b := (toRat_sub a b).symm
  mul a b := (toRat_mul a b).symm
  divide a b := by
    have ha := a.den_pos.ne'
    refine Eq.trans ?_ (map_toRat_make _ _).symm
    simp only [rationals, unlessZero, toRat_eq_zero_iff, Int.cast_eq_zero, mul_eq_zero,
      Int.natCast_eq_zero, ha, false_or]
    push_cast
    rw [toRat, toRat, div_div_div_eq]

/-- What is not zero has a reciprocal. -/
theorem exists_invert {a : Fraction} (h : a.toRat ≠ 0) :
    ∃ b, a.invert = .ok b ∧ b.toRat = a.toRat⁻¹ :=
  map_eq_ok_iff.mp ((arithmetic_reads_rationals.invert a).symm.trans (if_neg h))

/-! ## Fractions as two integers -/

/-- The operations of parts. -/
def Parts.arithmetic : Arithmetic Parts where
  quotient := quotient
  make := make
  ofInt := ofInt
  remainder := remainder
  invert := invert
  add := add
  sub := sub
  mul := mul
  divide := divide

theorem map_toParts_make (num den : ℤ) : (make num den).map toParts = Parts.make num den := by
  unfold make Parts.make Parts.normalize
  split
  · rfl
  · split <;> simp [Except.map, toParts] <;> omega

theorem den_toParts_pos (a : Fraction) : 0 < a.toParts.den := Int.natCast_pos.mpr a.den_pos

/-- **Parts compute as fractions do.** -/
theorem arithmetic_reads_parts : arithmetic.Reads Parts.arithmetic toParts where
  quotient a := if_neg a.den_toParts_pos.ne'
  make num den := (map_toParts_make num den).symm
  ofInt n := rfl
  remainder a := if_neg a.den_toParts_pos.ne'
  invert a := (map_toParts_make _ _).symm
  add a b := by
    change Parts.add _ _ = toParts (add a b)
    unfold Parts.add add toParts
    simp only [Int.natCast_inj]
    split <;> simp
  sub a b := by
    change Parts.sub _ _ = toParts (sub a b)
    unfold Parts.sub sub toParts
    simp only [Int.natCast_inj]
    split <;> simp
  mul a b := by
    change Parts.mul _ _ = toParts (mul a b)
    simp [Parts.mul, mul, toParts]
  divide a b := (map_toParts_make _ _).symm

namespace Parts

variable {a b : Parts}

/-- The rational that the parts stand for. -/
def toRat (a : Parts) : ℚ := a.num / a.den

/-- Some chain of operations comes to these parts. -/
def Formed (a : Parts) : Prop := ∃ e : Chain .fraction, e.eval Parts.arithmetic = .ok a

theorem toRat_toParts (a : Fraction) : a.toParts.toRat = a.toRat := by
  rw [toRat, Fraction.toRat, toParts, Int.cast_natCast]

/-- **What a chain comes to are the parts of a fraction.** -/
theorem Formed.exists_toParts (h : a.Formed) : ∃ x : Fraction, x.toParts = a := by
  obtain ⟨e, he⟩ := h
  rw [e.eval_reads arithmetic_reads_parts] at he
  cases hx : e.eval Fraction.arithmetic with
  | error err =>
    rw [hx] at he
    cases he
  | ok x =>
    rw [hx] at he
    exact ⟨x, Except.ok.inj he⟩

theorem Formed.beq_iff (ha : a.Formed) (hb : b.Formed) : (a == b) = true ↔ a.toRat = b.toRat := by
  obtain ⟨x, rfl⟩ := ha.exists_toParts
  obtain ⟨y, rfl⟩ := hb.exists_toParts
  rw [toRat_toParts, toRat_toParts]
  exact Fraction.beq_iff

theorem Formed.compare_eq (ha : a.Formed) (hb : b.Formed) :
    compare a b = compare a.toRat b.toRat := by
  obtain ⟨x, rfl⟩ := ha.exists_toParts
  obtain ⟨y, rfl⟩ := hb.exists_toParts
  rw [toRat_toParts, toRat_toParts]
  exact Fraction.compare_eq x y

/-- A chain on two integers, read as a rational, is the chain on rationals. -/
theorem map_toRat_eval {o : Outcome} (e : Chain o) :
    (e.eval Parts.arithmetic).map (o.map toRat) = e.eval rationals := by
  rw [e.eval_reads arithmetic_reads_parts, e.eval_reads arithmetic_reads_rationals]
  cases e.eval Fraction.arithmetic with
  | error err => rfl
  | ok x =>
    refine congrArg Except.ok ?_
    cases o with
    | integer => rfl
    | fraction => exact toRat_toParts x

/-- **Chains of operations on two integers compute in rationals.** A chain of any operations on any
integers fails exactly if the same chain of rationals divides by zero, and otherwise comes to parts
that stand for what it comes to; they are the parts of the fraction that the chain makes of
fractions. Parts that a chain comes to have a positive denominator. Only one that stands for zero has
no reciprocal and divides nothing, the integer part is cut toward zero and leaves the remainder, and
equality and order are those of the rationals, here as among fractions: an equivalence and a total
order, which agree. -/
theorem chains_faithful :
    (∀ {o : Outcome} (e : Chain o),
      (e.eval Parts.arithmetic).map (o.map toRat) = e.eval rationals ∧
      (e.eval Fraction.arithmetic).map (o.map toParts) = e.eval Parts.arithmetic) ∧
    (∀ a : Parts, a.Formed → 0 < a.den ∧
      (a.invert = .error (.arithmetic .divisionByZero) ↔ a.toRat = 0) ∧
      ∃ n r, a.quotient = .ok n ∧ a.remainder = .ok r ∧ n = integerPart a.toRat ∧
        n + r.toRat = a.toRat) ∧
    (∀ a b : Parts, a.Formed → b.Formed →
      (a.divide b = .error (.arithmetic .divisionByZero) ↔ b.toRat = 0) ∧
      ((a == b) = true ↔ a.toRat = b.toRat) ∧ compare a b = compare a.toRat b.toRat ∧
      (compare a b = .eq ↔ (a == b) = true)) ∧
    (∀ x y : Fraction,
      ((x == y) = true ↔ x.toRat = y.toRat) ∧ compare x y = compare x.toRat y.toRat) ∧
    Equivalence (fun a b : { a : Parts // a.Formed } => (a.1 == b.1) = true) ∧
    Std.TransCmp (fun a b : { a : Parts // a.Formed } => compare a.1 b.1) := by
  refine ⟨fun e => ⟨map_toRat_eval e, (e.eval_reads arithmetic_reads_parts).symm⟩, ?_, ?_,
    fun x y => ⟨Fraction.beq_iff, Fraction.compare_eq x y⟩, ?_, ?_⟩
  · intro a ha
    obtain ⟨x, rfl⟩ := ha.exists_toParts
    simp only [toRat_toParts]
    refine ⟨x.den_toParts_pos, ?_, x.quotient, x.remainder.toParts,
      arithmetic_reads_parts.quotient x, arithmetic_reads_parts.remainder x,
      quotient_eq_integerPart x, ?_⟩
    · rw [← invert_eq_error_iff, ← map_eq_error_iff (x := x.invert) (f := toParts)]
      exact (arithmetic_reads_parts.invert x).symm ▸ Iff.rfl
    · rw [toRat_toParts]
      exact quotient_add_remainder x
  · intro a b ha hb
    refine ⟨?_, ha.beq_iff hb, ha.compare_eq hb, ?_⟩
    · obtain ⟨x, rfl⟩ := ha.exists_toParts
      obtain ⟨y, rfl⟩ := hb.exists_toParts
      rw [toRat_toParts, ← divide_eq_error_iff (a := x),
        ← map_eq_error_iff (x := x.divide y) (f := toParts)]
      exact (arithmetic_reads_parts.divide x y).symm ▸ Iff.rfl
    · rw [ha.compare_eq hb, ha.beq_iff hb, compare_eq_iff_eq]
  · exact ⟨fun a => (a.2.beq_iff a.2).mpr rfl,
      fun {a b} h => (b.2.beq_iff a.2).mpr ((a.2.beq_iff b.2).mp h).symm,
      fun {a b c} h h' => (a.2.beq_iff c.2).mpr
        (((a.2.beq_iff b.2).mp h).trans ((b.2.beq_iff c.2).mp h'))⟩
  · have hcmp : (fun a b : { a : Parts // a.Formed } => compare a.1 b.1) =
        compareOn fun a => a.1.toRat :=
      funext fun a => funext fun b => a.2.compare_eq b.2
    rw [hcmp]
    infer_instance

/-- A quarter less than nothing divided by a third less than nothing: over unlike denominators, and
by a fraction whose sign moves twice. -/
def signedQuotient : Chain .fraction :=
  .divide (.sub (.make (.literal 1) (.literal 2)) (.make (.literal 3) (.literal 4)))
    (.make (.literal 1) (.literal (-3)))

/-- Six eighths are three quarters, and nothing of either is whole. -/
theorem chains_faithful_signs :
    signedQuotient.eval Parts.arithmetic = .ok ⟨6, 8⟩ ∧ signedQuotient.eval rationals = .ok (3 / 4) ∧
      ((⟨6, 8⟩ : Parts) == ⟨3, 4⟩) = true ∧ compare (⟨6, 8⟩ : Parts) ⟨3, 4⟩ = .eq ∧
      ∃ n r, quotient ⟨6, 8⟩ = .ok n ∧ remainder ⟨6, 8⟩ = .ok r ∧ n = 0 ∧ n + r.toRat = 6 / 8 := by
  have h : signedQuotient.eval Parts.arithmetic = .ok ⟨6, 8⟩ := rfl
  have h' : (Chain.make (.literal 3) (.literal 4)).eval Parts.arithmetic = .ok ⟨3, 4⟩ := rfl
  obtain ⟨hchain, hformed, hpair, -⟩ := chains_faithful
  obtain ⟨-, -, n, r, hn, hr, hint, hsum⟩ := hformed ⟨6, 8⟩ ⟨_, h⟩
  obtain ⟨-, heq, -, hcmp⟩ := hpair ⟨6, 8⟩ ⟨3, 4⟩ ⟨_, h⟩ ⟨_, h'⟩
  have hsame : ((⟨6, 8⟩ : Parts) == ⟨3, 4⟩) = true := heq.mpr (by norm_num [toRat])
  have hvalue : toRat ⟨6, 8⟩ = 3 / 4 := by norm_num [toRat]
  refine ⟨h, ?_, hsame, hcmp.mpr hsame, n, r, hn, hr, ?_, ?_⟩
  · rw [← (hchain signedQuotient).1, h, ← hvalue]
    rfl
  · rw [hint, hvalue]
    norm_num [integerPart]
  · rw [hsum]
    norm_num [toRat]

end Parts

end Clamm.Fraction
