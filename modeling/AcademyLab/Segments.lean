import Mathlib.Data.Fintype.Basic
import Mathlib.Data.Nat.Notation
import Mathlib.Logic.Function.Basic

/-!
# Segments that live as long as they can be reached

Shared segments, found by a key or held by users. The key leads to one segment at most;
to remove a segment is to take the key away from it. A segment that neither the key
leads to nor a user holds is gone, and its number is not used again.
-/
namespace AcademyLab.Segments

/-- `mem` is what the segments hold, `user` which one a user holds. -/
structure Table (π μ : Type*) where
  key : Option ℕ
  mem : ℕ → Option μ
  next : ℕ
  user : π → Option ℕ

namespace Table
variable {π μ : Type*} {t : Table π μ} {p : π} {id : ℕ}

def Used (t : Table π μ) (id : ℕ) : Prop := ∃ p, t.user p = some id

instance [Fintype π] (t : Table π μ) (id : ℕ) : Decidable (t.Used id) :=
  inferInstanceAs (Decidable (∃ _, _))

/-- There are just the segments that can be reached. -/
structure Kept (t : Table π μ) : Prop where
  reached : ∀ id, t.mem id ≠ none ↔ t.key = some id ∨ t.Used id
  below : ∀ id, t.mem id ≠ none → id < t.next

/-- No segments. -/
def empty : Table π μ := ⟨none, fun _ => none, 0, fun _ => none⟩

/-- A new segment, to which the key leads. -/
def create (t : Table π μ) (content : μ) : Table π μ :=
  { t with
    key := some t.next, mem := Function.update t.mem t.next (some content), next := t.next + 1 }

def store (t : Table π μ) (id : ℕ) (f : μ → μ) : Table π μ :=
  { t with mem := Function.update t.mem id ((t.mem id).map f) }

/-- A segment goes if it cannot be reached. -/
def collect [Fintype π] (t : Table π μ) (id : ℕ) : Table π μ :=
  if t.key = some id ∨ t.Used id then t else { t with mem := Function.update t.mem id none }

def remove [Fintype π] (t : Table π μ) (id : ℕ) : Table π μ :=
  if t.key = some id then { t with key := none }.collect id else t

section Users
variable [DecidableEq π]

def attach (t : Table π μ) (p : π) (id : ℕ) : Table π μ :=
  { t with user := Function.update t.user p (some id) }

def detach [Fintype π] (t : Table π μ) (p : π) : Table π μ :=
  match t.user p with
  | none => t
  | some id => { t with user := Function.update t.user p none }.collect id

end Users

/-! ## What the operations change -/

theorem mem_store {f : μ → μ} {id' : ℕ} {content : μ} :
    (t.store id f).mem id' = some content ↔
      ∃ before, t.mem id' = some before ∧ content = if id' = id then f before else before := by
  by_cases h : id' = id
  · subst h
    simp [store, eq_comm]
  · simp [store, h, eq_comm]

theorem user_attach [DecidableEq π] (t : Table π μ) (p : π) (id : ℕ) :
    (t.attach p id).user = Function.update t.user p (some id) := rfl

section Collect
variable [Fintype π]

theorem mem_of_collect {id' : ℕ} {content : μ} (h : (t.collect id).mem id' = some content) :
    t.mem id' = some content := by
  unfold collect at h
  split_ifs at h
  · exact h
  · by_cases heq : id' = id
    · simp [heq] at h
    · simpa [heq] using h

@[simp] theorem key_collect (t : Table π μ) (id : ℕ) : (t.collect id).key = t.key := by
  unfold collect
  split_ifs <;> rfl

@[simp] theorem user_collect (t : Table π μ) (id : ℕ) : (t.collect id).user = t.user := by
  unfold collect
  split_ifs <;> rfl

@[simp] theorem next_collect (t : Table π μ) (id : ℕ) : (t.collect id).next = t.next := by
  unfold collect
  split_ifs <;> rfl

theorem mem_of_remove {id' : ℕ} {content : μ} (h : (t.remove id).mem id' = some content) :
    t.mem id' = some content := by
  unfold remove at h
  split_ifs at h
  · exact mem_of_collect (t := { t with key := none }) h
  · exact h

theorem key_remove (t : Table π μ) (id : ℕ) :
    (t.remove id).key = if t.key = some id then none else t.key := by
  unfold remove
  split_ifs <;> simp

@[simp] theorem user_remove (t : Table π μ) (id : ℕ) : (t.remove id).user = t.user := by
  unfold remove
  split_ifs <;> simp

@[simp] theorem next_remove (t : Table π μ) (id : ℕ) : (t.remove id).next = t.next := by
  unfold remove
  split_ifs <;> simp

variable [DecidableEq π]

theorem mem_of_detach {id' : ℕ} {content : μ} (h : (t.detach p).mem id' = some content) :
    t.mem id' = some content := by
  unfold detach at h
  cases hp : t.user p with
  | none => simpa [hp] using h
  | some id =>
    simp only [hp] at h
    exact mem_of_collect (t := { t with user := Function.update t.user p none }) h

@[simp] theorem key_detach (t : Table π μ) (p : π) : (t.detach p).key = t.key := by
  unfold detach
  cases t.user p <;> simp

@[simp] theorem next_detach (t : Table π μ) (p : π) : (t.detach p).next = t.next := by
  unfold detach
  cases t.user p <;> simp

theorem user_detach (t : Table π μ) (p : π) :
    (t.detach p).user = Function.update t.user p none := by
  unfold detach
  cases hp : t.user p with
  | none => exact (Function.update_eq_self_iff.2 hp.symm).symm
  | some id => simp

end Collect

/-! ## The invariant -/

theorem kept_empty : (empty : Table π μ).Kept :=
  ⟨fun id => by simp [empty, Used], fun id h => by simp [empty] at h⟩

theorem Kept.create (h : t.Kept) (hkey : t.key = none) (content : μ) : (t.create content).Kept := by
  refine ⟨fun id => ?_, fun id hid => ?_⟩
  · have hreached := h.reached id
    by_cases hid : id = t.next
    · subst hid
      simp [Table.create]
    · have hne : t.next ≠ id := Ne.symm hid
      simpa [Table.create, hid, hne, hkey, Used] using hreached
  · by_cases heq : id = t.next
    · exact heq ▸ Nat.lt_succ_self _
    · exact (h.below id (by simpa [Table.create, heq] using hid)).trans (Nat.lt_succ_self _)

theorem Kept.store (h : t.Kept) (id : ℕ) (f : μ → μ) : (t.store id f).Kept := by
  have hmem : ∀ id', (t.store id f).mem id' ≠ none ↔ t.mem id' ≠ none := by
    intro id'
    by_cases hid : id' = id <;> simp [Table.store, hid]
  exact ⟨fun id' => (hmem id').trans (h.reached id'), fun id' hid => h.below id' ((hmem id').1 hid)⟩

/-- All but one of the segments are known to be reached. -/
theorem kept_collect [Fintype π] (id : ℕ)
    (hreached : ∀ id', t.key = some id' ∨ t.Used id' → t.mem id' ≠ none)
    (hother : ∀ id', id' ≠ id → t.mem id' ≠ none → t.key = some id' ∨ t.Used id')
    (hbelow : ∀ id', t.mem id' ≠ none → id' < t.next) : (t.collect id).Kept := by
  unfold collect
  split_ifs with hid
  · refine ⟨fun id' => ⟨fun hmem => ?_, hreached id'⟩, hbelow⟩
    by_cases heq : id' = id
    · exact heq ▸ hid
    · exact hother id' heq hmem
  · refine ⟨fun id' => ?_, fun id' hmem => ?_⟩
    · by_cases heq : id' = id
      · subst heq
        simpa [Used] using hid
      · simpa [heq, Used] using ⟨hother id' heq, hreached id'⟩
    · by_cases heq : id' = id
      · simp [heq] at hmem
      · exact hbelow id' (by simpa [heq] using hmem)

theorem Kept.remove [Fintype π] (h : t.Kept) (id : ℕ) : (t.remove id).Kept := by
  unfold Table.remove
  split_ifs with hkey
  · refine kept_collect id (fun id' hid => ?_) (fun id' hne hmem => ?_) h.below
    · exact (h.reached id').2 (.inr (hid.resolve_left (by simp)))
    · refine .inr (((h.reached id').1 hmem).resolve_left fun hk => hne ?_)
      exact Option.some.inj (hk.symm.trans hkey)
  · exact h

section Users
variable [DecidableEq π]

theorem Kept.attach (h : t.Kept) (hp : t.user p = none) (hid : t.mem id ≠ none) :
    (t.attach p id).Kept := by
  refine ⟨fun id' => ⟨fun hmem => ?_, ?_⟩, h.below⟩
  · refine ((h.reached id').1 hmem).imp_right fun hused => ?_
    obtain ⟨q, hq⟩ := hused
    have hne : q ≠ p := by
      rintro rfl
      rw [hp] at hq
      cases hq
    exact ⟨q, by simpa [Table.attach, hne] using hq⟩
  · rintro (hkey | ⟨q, hq⟩)
    · exact (h.reached id').2 (.inl hkey)
    · by_cases hne : q = p
      · subst hne
        obtain rfl : id = id' := by simpa [Table.attach] using hq
        exact hid
      · exact (h.reached id').2 (.inr ⟨q, by simpa [Table.attach, hne] using hq⟩)

theorem Kept.detach [Fintype π] (h : t.Kept) (p : π) : (t.detach p).Kept := by
  unfold Table.detach
  cases hp : t.user p with
  | none => exact h
  | some id =>
    refine kept_collect id (fun id' hid => ?_) (fun id' hne hmem => ?_) h.below
    · refine (h.reached id').2 (hid.imp_right ?_)
      rintro ⟨q, hq⟩
      by_cases hqp : q = p
      · simp [hqp] at hq
      · exact ⟨q, by simpa [hqp] using hq⟩
    · refine ((h.reached id').1 hmem).imp_right ?_
      rintro ⟨q, hq⟩
      have hqp : q ≠ p := by
        rintro rfl
        exact hne (Option.some.inj (hq.symm.trans hp))
      exact ⟨q, by simpa [hqp] using hq⟩

end Users

end Table

end AcademyLab.Segments
