import Mathlib.Data.Finset.Basic
import Mathlib.Data.List.Basic
import Mathlib.Algebra.Order.Ring.Int

/-!
# Ledgers of held resources

A ledger says which resources are held, and counts the releases of resources
that were not. A request can be refused, by its answer or because the resource
is held already. A sequence of requests, each of which undoes the ones before it
when it fails, takes everything or nothing.
-/
namespace AcademyLab

@[ext] structure Ledger (ρ : Type*) where
  held : Finset ρ
  faults : ℕ

namespace Ledger
variable {ρ : Type*} [DecidableEq ρ] {l : Ledger ρ} {r : ρ} {rs as : List ρ}

def acquire (l : Ledger ρ) (r : ρ) : Ledger ρ := { l with held := insert r l.held }

def release (l : Ledger ρ) (r : ρ) : Ledger ρ :=
  if r ∈ l.held then { l with held := l.held.erase r } else { l with faults := l.faults + 1 }

def acquireAll (l : Ledger ρ) (rs : List ρ) : Ledger ρ := rs.foldl acquire l

def releaseAll (l : Ledger ρ) (rs : List ρ) : Ledger ρ := rs.foldl release l

@[simp] theorem releaseAll_nil : l.releaseAll [] = l := rfl

@[simp] theorem releaseAll_cons : l.releaseAll (r :: rs) = (l.release r).releaseAll rs := rfl

theorem notMem_acquire {x : ρ} : x ∉ (l.acquire r).held ↔ x ≠ r ∧ x ∉ l.held := by
  rw [acquire, Finset.mem_insert, not_or]

@[simp] theorem mem_acquireAll {x : ρ} : x ∈ (l.acquireAll rs).held ↔ x ∈ rs ∨ x ∈ l.held := by
  induction rs generalizing l with
  | nil => simp [acquireAll]
  | cons r rs ih =>
    rw [acquireAll, List.foldl_cons, ← acquireAll, ih, acquire, Finset.mem_insert, List.mem_cons]
    tauto

@[simp] theorem faults_acquireAll : (l.acquireAll rs).faults = l.faults := by
  induction rs generalizing l with
  | nil => rfl
  | cons r rs ih => exact ih

/-- Releases of held resources, each once, are no faults. -/
theorem releaseAll_of_held (hnodup : rs.Nodup) (h : ∀ r ∈ rs, r ∈ l.held) :
    (l.releaseAll rs).faults = l.faults ∧
      ∀ x, x ∈ (l.releaseAll rs).held ↔ x ∈ l.held ∧ x ∉ rs := by
  induction rs generalizing l with
  | nil => simp
  | cons r rs ih =>
    obtain ⟨hr, hnodup⟩ := List.nodup_cons.1 hnodup
    have hrel : l.release r = { l with held := l.held.erase r } := if_pos (h r (by simp))
    have hrest : ∀ x ∈ rs, x ∈ (l.release r).held := by
      intro x hx
      rw [hrel, Finset.mem_erase]
      exact ⟨fun heq => hr (heq ▸ hx), h x (List.mem_cons_of_mem r hx)⟩
    obtain ⟨hfaults, hheld⟩ := ih hnodup hrest
    rw [releaseAll_cons]
    refine ⟨by rw [hfaults, hrel], fun x => ?_⟩
    rw [hheld, hrel, Finset.mem_erase, List.mem_cons]
    tauto

/-- What has been acquired can be released in any order. -/
theorem releaseAll_acquireAll (hperm : rs.Perm as) (hnodup : as.Nodup)
    (hfree : ∀ r ∈ as, r ∉ l.held) : (l.acquireAll as).releaseAll rs = l := by
  have hheld : ∀ r ∈ rs, r ∈ (l.acquireAll as).held := fun r hr =>
    mem_acquireAll.2 (.inl (hperm.mem_iff.1 hr))
  obtain ⟨hfaults, hmem⟩ := releaseAll_of_held (hperm.nodup_iff.2 hnodup) hheld
  ext x
  · rw [hmem, mem_acquireAll, hperm.mem_iff]
    have := hfree x
    tauto
  · rw [hfaults, faults_acquireAll]

/-! ## Requests -/

/-- A request that is granted by the answer 0, unless the resource is held. -/
def request (busy : ℤ) (answers : ρ → ℤ) (r : ρ) (l : Ledger ρ) : ℤ × Ledger ρ :=
  if r ∈ l.held then (busy, l)
  else if answers r = 0 then (0, l.acquire r)
  else (answers r, l)

/-- A request, what is done if it fails, and what follows if it does not. -/
def attempt (busy : ℤ) (answers : ρ → ℤ) (r : ρ) (undo : Ledger ρ → Ledger ρ)
    (next : Ledger ρ → ℤ × Ledger ρ) (l : Ledger ρ) : ℤ × Ledger ρ :=
  let (ret, l) := request busy answers r l
  if ret ≠ 0 then (ret, undo l) else next l

variable {busy : ℤ} {answers : ρ → ℤ} {undo : Ledger ρ → Ledger ρ}
  {next : Ledger ρ → ℤ × Ledger ρ} {rest : List ρ} {res : ℤ × Ledger ρ}

theorem attempt_granted (hfree : r ∉ l.held) (h : answers r = 0) :
    attempt busy answers r undo next l = next (l.acquire r) := by
  simp [attempt, request, hfree, h]

theorem attempt_refused (hfree : r ∉ l.held) (h : answers r ≠ 0) :
    attempt busy answers r undo next l = (answers r, undo l) := by
  simp [attempt, request, hfree, h]

/-- With `as` acquired since `l`, the requests for `rest` take all or nothing. -/
def AllOrNothing (answers : ρ → ℤ) (l : Ledger ρ) (as rest : List ρ) (res : ℤ × Ledger ρ) : Prop :=
  if ∀ r ∈ rest, answers r = 0 then res = (0, l.acquireAll (as ++ rest))
  else res.1 ≠ 0 ∧ res.2 = l

theorem allOrNothing_nil : AllOrNothing answers l as [] (0, l.acquireAll as) := by
  simp [AllOrNothing]

/-- One more request in front, whose failure undoes what has been acquired. -/
theorem AllOrNothing.attempt (hfree : r ∉ (l.acquireAll as).held)
    (hundo : undo (l.acquireAll as) = l)
    (h : AllOrNothing answers l (as ++ [r]) rest (next (l.acquireAll (as ++ [r])))) :
    AllOrNothing answers l as (r :: rest)
      (attempt busy answers r undo next (l.acquireAll as)) := by
  have hacq : (l.acquireAll as).acquire r = l.acquireAll (as ++ [r]) := by
    simp [acquireAll]
  by_cases hr : answers r = 0
  · rw [attempt_granted hfree hr, hacq]
    simpa [AllOrNothing, hr] using h
  · rw [attempt_refused hfree hr, hundo]
    simp [AllOrNothing, hr]

end Ledger

end AcademyLab
