import Clamm.Error

/-!
# Operations in place

An operation in place works on one value and leaves it changed. What it has changed stays changed
when it fails later on: an error takes nothing back.
-/

namespace Clamm.InPlace

variable {σ α β : Type}

/-- An operation that fails is the end of its sequence. -/
@[simp] theorem bind_run (x : ExceptT Error (StateM σ) α) (f : α → ExceptT Error (StateM σ) β)
    (s : σ) :
    (x >>= f) s = match x s with
      | (.ok a, s') => f a s'
      | (.error e, s') => (.error e, s') := by
  have h : (x >>= f) s = (ExceptT.bindCont f (x s).1 : StateM σ _) (x s).2 := rfl
  rw [h]
  rcases x s with ⟨_ | _, _⟩ <;> rfl

@[simp] theorem pure_run (a : α) (s : σ) :
    (pure a : ExceptT Error (StateM σ) α) s = (.ok a, s) := rfl

@[simp] theorem throw_run (e : Error) (s : σ) :
    (throw e : ExceptT Error (StateM σ) α) s = (.error e, s) := rfl

@[simp] theorem get_run (s : σ) : (get : ExceptT Error (StateM σ) σ) s = (.ok s, s) := rfl

@[simp] theorem set_run (s s' : σ) :
    (set s' : ExceptT Error (StateM σ) PUnit) s = (.ok ⟨⟩, s') := rfl

@[simp] theorem lift_run (x : Except Error α) (s : σ) :
    (liftM x : ExceptT Error (StateM σ) α) s = (x, s) := by
  cases x <;> rfl

end Clamm.InPlace
