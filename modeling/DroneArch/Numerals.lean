import Mathlib.Data.Nat.Init

/-! # Numerals

The constants of the models are numerals of a field, which rest on a proof that the number is at
least two.  Here the test computes, so the proof is the same for every number and in every module. -/

namespace Numerals

/-- A test that evaluates to `true`. -/
class Holds (b : Bool) : Prop where
  eq_true : b = true

-- the test is compared by evaluating it, not by its form
instance holds : Holds (no_index true) := ⟨rfl⟩

instance (priority := high) atLeastTwo {n : ℕ} [h : Holds (Nat.ble 2 n)] : Nat.AtLeastTwo n :=
  ⟨Nat.le_of_ble_eq_true h.eq_true⟩

end Numerals
