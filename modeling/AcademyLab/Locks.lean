import Mathlib.Data.Fintype.Lattice
import Mathlib.Logic.Function.Basic

/-!
# Locks and their owners

Locks that any number of threads take and give back. `owner` is what the locks
know; `holds` is what each thread knows from where it stands in its code. The two
agree at every moment of a run in which a lock is taken only when it is free and
given back only by a thread that holds it.
-/
namespace AcademyLab.Locks

variable {ι κ : Type*}

/-- The locks and the threads agree on who holds what. -/
def Owned (holds : ι → κ → Prop) (owner : κ → Option ι) : Prop :=
  ∀ t m, holds t m ↔ owner m = some t

/-- Taking a lock; `none` if it blocks. -/
def lock [DecidableEq κ] (owner : κ → Option ι) (t : ι) (m : κ) : Option (κ → Option ι) :=
  match owner m with
  | none => some (Function.update owner m (some t))
  | some _ => none

/-- Giving a lock back. -/
def unlock [DecidableEq κ] (owner : κ → Option ι) (m : κ) : κ → Option ι :=
  Function.update owner m none

variable {holds holds' : ι → κ → Prop} {owner : κ → Option ι} {t t' : ι} {m : κ}

/-- One lock has one holder. -/
theorem Owned.exclusive (h : Owned holds owner) (ht : holds t m) (ht' : holds t' m) : t = t' :=
  Option.some_injective _ (((h t m).1 ht).symm.trans ((h t' m).1 ht'))

theorem Owned.not_held (h : Owned holds owner) (hfree : owner m = none) : ¬ holds t m := by
  intro hheld
  rw [(h t m).1 hheld] at hfree
  exact Option.some_ne_none t hfree

theorem Owned.congr (h : Owned holds owner) (hsame : ∀ t m, holds' t m ↔ holds t m) :
    Owned holds' owner := fun t m => (hsame t m).trans (h t m)

section Steps
variable [DecidableEq κ]

theorem lock_free (h : owner m = none) :
    lock owner t m = some (Function.update owner m (some t)) := by
  rw [lock, h]

theorem lock_taken (h : owner m = some t') : lock owner t m = none := by
  rw [lock, h]

/-- Taking a free lock. -/
theorem Owned.lock (h : Owned holds owner) (hfree : owner m = none)
    (hheld : ∀ t' m', holds' t' m' ↔ holds t' m' ∨ t' = t ∧ m' = m) :
    Owned holds' (Function.update owner m (some t)) := by
  intro t' m'
  rw [hheld, h t' m']
  by_cases hm : m' = m
  · rw [hm, Function.update_self, hfree]
    simp [eq_comm]
  · rw [Function.update_of_ne hm]
    simp [hm]

/-- Giving back a lock that is held. -/
theorem Owned.unlock (h : Owned holds owner) (hholds : holds t m)
    (hheld : ∀ t' m', holds' t' m' ↔ holds t' m' ∧ ¬ (t' = t ∧ m' = m)) :
    Owned holds' (Locks.unlock owner m) := by
  intro t' m'
  rw [hheld, h t' m', Locks.unlock]
  by_cases hm : m' = m
  · rw [hm, Function.update_self, (h t m).1 hholds]
    simp [eq_comm]
  · rw [Function.update_of_ne hm]
    simp [hm]

end Steps

/-! ## Locks that are held by position -/

section Positions
variable {Pos : Type*} {H : ι → Pos → κ → Prop} {pos : ι → Pos} {q : Pos}

/-- Who holds what, if a thread holds what it does because of where it stands. -/
def Held (H : ι → Pos → κ → Prop) (pos : ι → Pos) (t : ι) (m : κ) : Prop := H t (pos t) m

variable [DecidableEq ι]

theorem held_update_self : Held H (Function.update pos t q) t m ↔ H t q m := by
  rw [Held, Function.update_self]

theorem held_update_of_ne (h : t' ≠ t) :
    Held H (Function.update pos t q) t' m ↔ Held H pos t' m := by
  rw [Held, Function.update_of_ne h, Held]

/-- A thread moves on and holds what it did. -/
theorem Owned.move (h : Owned (Held H pos) owner) (hq : ∀ m, H t q m ↔ H t (pos t) m) :
    Owned (Held H (Function.update pos t q)) owner := by
  refine h.congr fun t' m => ?_
  by_cases ht : t' = t
  · rw [ht, held_update_self, hq, Held]
  · rw [held_update_of_ne ht]

variable [DecidableEq κ]

/-- A thread moves on with a lock that was free. -/
theorem Owned.move_lock (h : Owned (Held H pos) owner) (hfree : owner m = none)
    (hq : ∀ m', H t q m' ↔ H t (pos t) m' ∨ m' = m) :
    Owned (Held H (Function.update pos t q)) (Function.update owner m (some t)) := by
  refine h.lock hfree fun t' m' => ?_
  by_cases ht : t' = t
  · rw [ht, held_update_self, hq, Held]
    simp
  · rw [held_update_of_ne ht]
    simp [ht]

/-- A thread moves on without a lock that it held. -/
theorem Owned.move_unlock (h : Owned (Held H pos) owner) (hholds : H t (pos t) m)
    (hq : ∀ m', H t q m' ↔ H t (pos t) m' ∧ m' ≠ m) :
    Owned (Held H (Function.update pos t q)) (Locks.unlock owner m) := by
  refine h.unlock (t := t) hholds fun t' m' => ?_
  by_cases ht : t' = t
  · rw [ht, held_update_self, hq, Held]
    simp
  · rw [held_update_of_ne ht]
    simp [ht]

end Positions

/-- Threads that take their locks in one order do not all wait: of the locks that
are waited for, the last in the order is free. -/
theorem Owned.exists_unblocked [Finite ι] [Nonempty ι] {holds : ι → κ → Prop}
    {owner : κ → Option ι} (h : Owned holds owner) (awaits : ι → Option κ) (rank : κ → ℕ)
    (ordered : ∀ t m m', awaits t = some m → holds t m' → rank m' < rank m) :
    ∃ t, ∀ m, awaits t = some m → owner m = none := by
  by_contra hall
  push Not at hall
  choose awaited hawaits htaken using hall
  obtain ⟨t, hlast⟩ := Finite.exists_max fun t => rank (awaited t)
  obtain ⟨t', howner⟩ := Option.ne_none_iff_exists'.1 (htaken t)
  have hholds : holds t' (awaited t) := (h t' (awaited t)).2 howner
  have hless : rank (awaited t) < rank (awaited t') := ordered t' _ _ (hawaits t') hholds
  have hmost : rank (awaited t') ≤ rank (awaited t) := hlast t'
  omega

end AcademyLab.Locks
