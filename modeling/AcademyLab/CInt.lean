import Mathlib.Algebra.Order.Ring.Int

/-!
# Arithmetic on `int`

A value of type `int` is an integer in its range. An operation whose result is not
in the range is no result but a fault, which the program that uses it names.
-/
namespace AcademyLab.CInt

def intMin : ℤ := -2 ^ 31

def intMax : ℤ := 2 ^ 31 - 1

def IsInt (z : ℤ) : Prop := intMin ≤ z ∧ z ≤ intMax

instance (z : ℤ) : Decidable (IsInt z) := inferInstanceAs (Decidable (_ ∧ _))

/-- The result of an operation, if it is in the range. -/
def checked {ε : Type*} (overflow : ε) (z : ℤ) : Except ε ℤ :=
  if IsInt z then .ok z else .error overflow

variable {ε : Type*} {overflow : ε} {z : ℤ}

theorem isInt_iff : IsInt z ↔ -2 ^ 31 ≤ z ∧ z ≤ 2 ^ 31 - 1 := Iff.rfl

theorem checked_of_isInt (h : IsInt z) : checked overflow z = .ok z := if_pos h

theorem checked_of_not_isInt (h : ¬ IsInt z) : checked overflow z = .error overflow := if_neg h

/-! ## `long` -/

def IsLong (z : ℤ) : Prop := -2 ^ 63 ≤ z ∧ z ≤ 2 ^ 63 - 1

instance (z : ℤ) : Decidable (IsLong z) := inferInstanceAs (Decidable (_ ∧ _))

/-- The result of an operation on `long`, if it is in the range. -/
def long (z : ℤ) : Option ℤ := if IsLong z then some z else none

theorem long_eq_some {v : ℤ} : long z = some v ↔ IsLong z ∧ z = v := by
  simp [long]

end AcademyLab.CInt
