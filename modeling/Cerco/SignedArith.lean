import Mathlib.Algebra.Order.Group.Int

set_option autoImplicit false

/-!
# Signed arithmetic

An operation whose exact result does not fit into the type has no result.
-/
namespace Cerco.SignedArith

/-- `z` fits into a signed type with `w` bits besides the sign. -/
def Fits (w : ℕ) (z : ℤ) : Prop := -2 ^ w ≤ z ∧ z < 2 ^ w

instance (w : ℕ) (z : ℤ) : Decidable (Fits w z) := inferInstanceAs (Decidable (_ ∧ _))

def signed (w : ℕ) (z : ℤ) : Option ℤ := if Fits w z then some z else none

theorem signed_some {w : ℕ} {z : ℤ} (h : Fits w z) : signed w z = some z := if_pos h

theorem signed_bind {α : Type} {w : ℕ} {z : ℤ} (h : Fits w z) (f : ℤ → Option α) : (signed w z).bind f = f z := by
  rw [signed_some h, Option.bind_some]

end Cerco.SignedArith
