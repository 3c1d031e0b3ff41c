import Mathlib.Algebra.BigOperators.Group.Finset.Piecewise
import Mathlib.Algebra.Order.Group.Multiset

/-!
# Rosters

Who is in a room is a multiset of names, kept in finitely many seats. A reader
who starts from a known room and gets a notice of each change can follow it; a
notice about somebody who is not there cannot be followed.
-/
namespace AcademyLab.Roster

variable {α ι : Type*} [Fintype ι] [DecidableEq ι] {t : ι → Option α} {i : ι} {a b : α}

/-- What a seat adds to the room. -/
def seat (o : Option α) : Multiset α := o.elim 0 fun a => {a}

/-- The room of a table of seats. -/
def room (t : ι → Option α) : Multiset α := ∑ i, seat (t i)

theorem room_update (t : ι → Option α) (i : ι) (o : Option α) :
    room (Function.update t i o) + seat (t i) = seat o + room t := by
  have hcomp : (fun j => seat (Function.update t i o j)) =
      Function.update (fun j => seat (t j)) i (seat o) := by
    ext j
    by_cases hj : j = i
    · subst hj
      simp
    · simp [hj]
  unfold room
  rw [hcomp, Finset.sum_update_of_mem (Finset.mem_univ i), add_assoc,
    Finset.sdiff_singleton_eq_erase, Finset.sum_erase_add _ _ (Finset.mem_univ i)]

theorem room_eq_cons (h : t i = some a) :
    room t = a ::ₘ room (Function.update t i none) := by
  have hroom := room_update t i none
  rw [h] at hroom
  simp only [seat, Option.elim, zero_add] at hroom
  rw [← hroom, add_comm, Multiset.singleton_add]

inductive Notice (α : Type*)
  | joined (a : α)
  | left (a : α)
  | renamed (a b : α)
  deriving DecidableEq

variable [DecidableEq α]

/-- The room after a notice. -/
def Notice.apply (r : Multiset α) : Notice α → Option (Multiset α)
  | .joined a => some (a ::ₘ r)
  | .left a => if a ∈ r then some (r.erase a) else none
  | .renamed a b => if a ∈ r then some (b ::ₘ r.erase a) else none

/-- The room after a list of notices. -/
def follow (r : Multiset α) (ns : List (Notice α)) : Option (Multiset α) :=
  ns.foldlM Notice.apply r

@[simp] theorem follow_nil (r : Multiset α) : follow r [] = some r := rfl

theorem follow_singleton (r : Multiset α) (n : Notice α) : follow r [n] = n.apply r := by
  simp [follow]

theorem follow_append {r r' : Multiset α} {ns : List (Notice α)}
    (h : follow r ns = some r') (ms : List (Notice α)) :
    follow r (ns ++ ms) = follow r' ms := by
  simp only [follow, List.foldlM_append] at h ⊢
  rw [h]
  rfl

/-- Somebody takes a free seat. -/
theorem apply_joined (h : t i = none) :
    (Notice.joined a).apply (room t) = some (room (Function.update t i (some a))) := by
  have hroom := room_update t i (some a)
  rw [h] at hroom
  simpa [Notice.apply, seat] using hroom.symm

/-- Somebody gives up a seat. -/
theorem apply_left (h : t i = some a) :
    (Notice.left a).apply (room t) = some (room (Function.update t i none)) := by
  rw [room_eq_cons h]
  simp [Notice.apply]

/-- Somebody stays in a seat under another name. -/
theorem apply_renamed (h : t i = some a) :
    (Notice.renamed a b).apply (room t) = some (room (Function.update t i (some b))) := by
  have hnew : Function.update t i (some b) i = some b := Function.update_self _ _ _
  rw [room_eq_cons h, room_eq_cons hnew]
  simp [Notice.apply]

end AcademyLab.Roster
