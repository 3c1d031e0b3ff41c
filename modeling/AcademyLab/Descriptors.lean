import Mathlib.Data.Fintype.Basic

/-!
# Descriptors that processes share

What a descriptor stands for, the end of a pipe or a connection, is in use as long as
any process holds a descriptor for it: `fork` gives the child all that its parent
holds, and `close` gives up what one process holds and no more.
-/
namespace AcademyLab.Descriptors

variable {P R : Type*}

/-- Which process holds a descriptor for what. -/
abbrev Table (P R : Type*) := P → R → Bool

def InUse (t : Table P R) (r : R) : Prop := ∃ p, t p r = true

instance [Fintype P] (t : Table P R) (r : R) : Decidable (InUse t r) :=
  inferInstanceAs (Decidable (∃ _, _))

variable [DecidableEq P]

def acquire [DecidableEq R] (t : Table P R) (p : P) (r : R) : Table P R :=
  fun p' r' => t p' r' || (p' = p && r' = r)

def close [DecidableEq R] (t : Table P R) (p : P) (r : R) : Table P R :=
  fun p' r' => t p' r' && !(p' = p && r' = r)

def fork (t : Table P R) (parent child : P) : Table P R :=
  fun p => if p = child then t parent else t p

/-- The end of a process closes all that it holds. -/
def exit (t : Table P R) (p : P) : Table P R := fun p' r => t p' r && !(p' = p)

variable {t : Table P R} {p p' parent child : P} {r r' : R}

section Apply
variable [DecidableEq R]

@[simp] theorem acquire_apply :
    acquire t p r p' r' = true ↔ t p' r' = true ∨ p' = p ∧ r' = r := by
  simp [acquire]

@[simp] theorem close_apply :
    close t p r p' r' = true ↔ t p' r' = true ∧ ¬ (p' = p ∧ r' = r) := by
  simp [close]
  tauto

end Apply

@[simp] theorem exit_apply : exit t p p' r = true ↔ t p' r = true ∧ p' ≠ p := by
  simp [exit]

@[simp] theorem fork_child : fork t parent child child = t parent := if_pos rfl

/-! ## Nothing open -/

theorem close_empty [DecidableEq R] (h : t = fun _ _ => false) (p : P) (r : R) :
    close t p r = fun _ _ => false := by
  funext p' r'
  simp [close, h]

theorem exit_empty (h : t = fun _ _ => false) (p : P) : exit t p = fun _ _ => false := by
  funext p' r
  simp [exit, h]

theorem fork_empty (h : t = fun _ _ => false) (parent child : P) :
    fork t parent child = fun _ _ => false := by
  funext p r
  simp [fork, h]

end AcademyLab.Descriptors
