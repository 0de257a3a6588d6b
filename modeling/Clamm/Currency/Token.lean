import Clamm.Error

/-!
# Tokens

A token is identified by its chain and its address; decimals and labels are metadata that equality
ignores. The two tokens of a pair are ordered by address: `sortsBefore` says which comes first and
refuses two tokens of different chains or of one address, and `pair` puts them in that order.
-/

namespace Clamm

/-- The address of a contract. -/
abbrev Address := BitVec 160

/-- A fungible token on a chain. -/
structure Token where
  chain : Nat
  address : Address
  decimals : Nat
  symbol : Option String
  name : Option String
  deriving Repr

namespace Token

/-- Equality of chain and address. -/
instance : BEq Token := ⟨fun a b => a.chain == b.chain && a.address == b.address⟩

/-- Token `a` comes first in the pair of `a` and `b`. -/
def Before (a b : Token) : Prop := a.chain = b.chain ∧ a.address < b.address

instance (a b : Token) : Decidable (Before a b) := inferInstanceAs (Decidable (_ ∧ _))

/-- Whether `a` comes first in the pair of `a` and `b`. -/
def sortsBefore (a b : Token) : Except Error Bool :=
  if a.chain ≠ b.chain then .error (.currency .differentChains)
  else if a.address = b.address then .error (.currency .identicalAddresses)
  else .ok (a.address < b.address)

theorem beq_iff {a b : Token} : (a == b) = true ↔ a.chain = b.chain ∧ a.address = b.address := by
  change (a.chain == b.chain && a.address == b.address) = true ↔ _
  simp

/-- The pair of two tokens in order. -/
def pair (a b : Token) : Except Error { p : Token × Token // p.1.Before p.2 } :=
  if hc : a.chain = b.chain then
    if ha : a.address < b.address then .ok ⟨(a, b), hc, ha⟩
    else if hb : b.address < a.address then .ok ⟨(b, a), hc.symm, hb⟩
    else .error (.currency .identicalAddresses)
  else .error (.currency .differentChains)

/-- The pair fails as `sortsBefore` does, and else is in the order that it says. -/
theorem pair_eq (a b : Token) :
    (pair a b).map Subtype.val =
      (sortsBefore a b).map fun first => if first then (a, b) else (b, a) := by
  unfold pair sortsBefore
  by_cases hc : a.chain = b.chain
  · by_cases ha : a.address < b.address
    · have hne : a.address ≠ b.address := fun e => BitVec.lt_irrefl _ (e ▸ ha)
      simp [hc, ha, hne, Except.map]
    · by_cases hb : b.address < a.address
      · have hne : a.address ≠ b.address := fun e => BitVec.lt_irrefl _ (e ▸ hb)
        simp [hc, ha, hb, hne, Except.map]
      · have he : a.address = b.address :=
          BitVec.le_antisymm (BitVec.not_lt.1 hb) (BitVec.not_lt.1 ha)
        simp [hc, he, Except.map]
  · simp [hc, Except.map]

end Token

end Clamm
