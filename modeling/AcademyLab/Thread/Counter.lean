import AcademyLab.Locks
import AcademyLab.Machine

/-!
# Threads that count with a mutex

`increment` of `lab_2.c`. A step is the test of the loop, a lock, the load, the
addition or the store of `counter++`, or an unlock; a lock that has to wait leaves
everything as it is. The number of turns of the loop is `n`, and any number of
threads may run it.
-/
namespace AcademyLab.Counter
open Locks Machine

inductive Mutex
  | mutex
  deriving DecidableEq

/-- Where a thread stands, with its `i` and what it has in its register. -/
inductive Pc
  | test (i : ℕ)
  | lock (i : ℕ)
  | load (i : ℕ)
  | add (i : ℕ) (loaded : ℤ)
  | store (i : ℕ) (sum : ℤ)
  | unlock (i : ℕ)
  | done
  deriving DecidableEq

structure State (ι : Type*) where
  owner : Mutex → Option ι
  pc : ι → Pc
  counter : ℤ

section Step
variable {ι : Type*} [DecidableEq ι] (n : ℕ)

def start : State ι := ⟨fun _ => none, fun _ => .test 0, 0⟩

def State.goto (s : State ι) (t : ι) (pc : Pc) : State ι :=
  { s with pc := Function.update s.pc t pc }

/-- One step of the thread `t`. The event of a store is the thread that has stored:
its increment is completed. -/
def step (s : State ι) (t : ι) : State ι × List ι :=
  match s.pc t with
  | .test i => (s.goto t (if i < n then .lock i else .done), [])
  | .lock i =>
    match lock s.owner t .mutex with
    | some owner => ({ s with owner := owner }.goto t (.load i), [])
    | none => (s, [])
  | .load i => (s.goto t (.add i s.counter), [])
  | .add i loaded => (s.goto t (.store i (loaded + 1)), [])
  | .store i sum => ({ s with counter := sum }.goto t (.unlock i), [t])
  | .unlock i => ({ s with owner := unlock s.owner .mutex }.goto t (.test (i + 1)), [])
  | .done => (s, [])

end Step

/-! ## What a position says -/

/-- The thread holds the mutex where it stands. -/
def Pc.Holds (_ : Mutex) : Pc → Prop
  | .load _ | .add _ _ | .store _ _ | .unlock _ => True
  | .test _ | .lock _ | .done => False

/-- Between the load and the store, the register belongs to what `counter` is. -/
def Pc.Fresh (counter : ℤ) : Pc → Prop
  | .add _ loaded => loaded = counter
  | .store _ sum => sum = counter + 1
  | _ => True

/-- The increments that the thread has completed when it stands there. -/
def Pc.completed (n : ℕ) : Pc → ℕ
  | .test i | .lock i | .load i | .add i _ | .store i _ => i
  | .unlock i => i + 1
  | .done => n

/-- The loop has not gone too far. -/
def Pc.InLoop (n : ℕ) : Pc → Prop
  | .test i => i ≤ n
  | .lock i | .load i | .add i _ | .store i _ | .unlock i => i < n
  | .done => True

theorem Pc.Fresh.of_not_holds {pc : Pc} {counter : ℤ} (h : ¬ pc.Holds .mutex) :
    pc.Fresh counter := by
  cases pc with
  | add | store => exact absurd trivial h
  | _ => trivial

theorem Pc.InLoop.completed_le {pc : Pc} {n : ℕ} (h : pc.InLoop n) : pc.completed n ≤ n := by
  cases pc with
  | done => exact le_refl n
  | _ =>
    simp only [Pc.InLoop, Pc.completed] at h ⊢
    omega

/-- The mutex has the owner that the positions say, the registers of those who hold
it are fresh, and each thread has completed as many increments as its position says. -/
structure Inv {ι : Type*} [DecidableEq ι] (n : ℕ) (s : State ι) (log : List ι) : Prop where
  owned : Owned (Held (fun _ pc m => pc.Holds m) s.pc) s.owner
  fresh : ∀ t, (s.pc t).Fresh s.counter
  inLoop : ∀ t, (s.pc t).InLoop n
  completed : ∀ t, log.count t = (s.pc t).completed n
  count : s.counter = log.length

section Invariant
variable {ι : Type*} [DecidableEq ι] {n : ℕ} {s : State ι} {t : ι} {q : Pc} {log : List ι}

@[simp] theorem goto_counter : (s.goto t q).counter = s.counter := rfl

theorem inv_start : Inv n (start : State ι) [] where
  owned := fun t m => by simp [Held, start, Pc.Holds]
  fresh := fun t => trivial
  inLoop := fun t => Nat.zero_le n
  completed := fun t => rfl
  count := rfl

/-- While one thread holds the mutex, the others have nothing in their registers. -/
theorem fresh_of_ne (h : Inv n s log) (ht : (s.pc t).Holds .mutex) {t' : ι} (hne : t' ≠ t)
    (counter : ℤ) : (s.pc t').Fresh counter := by
  refine .of_not_holds fun ht' => hne ?_
  exact h.owned.exclusive (m := .mutex) ht' ht

/-- A move of `t` that leaves `counter`. -/
theorem inv_goto {owner : Mutex → Option ι} (h : Inv n s log)
    (howned : Owned (Held (fun _ pc m => pc.Holds m) (Function.update s.pc t q)) owner)
    (hfresh : q.Fresh s.counter) (hloop : q.InLoop n)
    (hcompleted : q.completed n = (s.pc t).completed n) :
    Inv n ({ s with owner := owner }.goto t q) log where
  owned := howned
  fresh := (Function.forall_update_iff s.pc fun _ pc => pc.Fresh s.counter).2
    ⟨hfresh, fun t' _ => h.fresh t'⟩
  inLoop := (Function.forall_update_iff s.pc fun _ pc => pc.InLoop n).2
    ⟨hloop, fun t' _ => h.inLoop t'⟩
  completed := (Function.forall_update_iff s.pc fun t' pc => log.count t' = pc.completed n).2
    ⟨(h.completed t).trans hcompleted.symm, fun t' _ => h.completed t'⟩
  count := h.count

theorem inv_store {i : ℕ} {sum : ℤ} (h : Inv n s log) (hpc : s.pc t = .store i sum) :
    Inv n ({ s with counter := sum }.goto t (.unlock i)) (log ++ [t]) where
  owned := h.owned.move fun m => by simp [hpc, Pc.Holds]
  fresh := by
    have hholds : (s.pc t).Holds .mutex := by
      rw [hpc]
      trivial
    exact (Function.forall_update_iff s.pc fun _ pc => pc.Fresh sum).2
      ⟨trivial, fun t' hne => fresh_of_ne h hholds hne sum⟩
  inLoop := by
    have hloop := h.inLoop t
    rw [hpc] at hloop
    exact (Function.forall_update_iff s.pc fun _ pc => pc.InLoop n).2
      ⟨hloop, fun t' _ => h.inLoop t'⟩
  completed := by
    have hcompleted := h.completed t
    rw [hpc] at hcompleted
    refine (Function.forall_update_iff s.pc
      fun t' pc => (log ++ [t]).count t' = pc.completed n).2 ⟨?_, fun t' hne => ?_⟩
    · simpa [Pc.completed] using hcompleted
    · simpa [hne.symm] using h.completed t'
  count := by
    have hfresh : sum = s.counter + 1 := by
      have := h.fresh t
      rwa [hpc] at this
    have hcount := h.count
    simp only [goto_counter, List.length_append, List.length_singleton]
    omega

theorem inv_step (h : Inv n s log) (t : ι) :
    Inv n (step n s t).1 (log ++ (step n s t).2) := by
  have hloop := h.inLoop t
  have hfresh := h.fresh t
  cases hpc : s.pc t with
  | test i =>
    rw [hpc] at hloop
    simp only [step, hpc, List.append_nil]
    by_cases hi : i < n
    · rw [if_pos hi]
      exact inv_goto h (h.owned.move fun m => by simp [hpc, Pc.Holds]) trivial hi
        (by rw [hpc]; rfl)
    · rw [if_neg hi]
      refine inv_goto h (h.owned.move fun m => by simp [hpc, Pc.Holds]) trivial trivial ?_
      rw [hpc]
      exact (le_antisymm hloop (not_lt.1 hi)).symm
  | lock i =>
    rw [hpc] at hloop
    cases howner : s.owner .mutex with
    | none =>
      simp only [step, hpc, lock_free howner, List.append_nil]
      exact inv_goto h (h.owned.move_lock howner fun m => by simp [hpc, Pc.Holds]) trivial hloop
        (by rw [hpc]; rfl)
    | some t' => simpa only [step, hpc, lock_taken howner, List.append_nil] using h
  | load i =>
    rw [hpc] at hloop
    simp only [step, hpc, List.append_nil]
    exact inv_goto h (h.owned.move fun m => by simp [hpc, Pc.Holds]) rfl hloop (by rw [hpc]; rfl)
  | add i loaded =>
    rw [hpc] at hloop hfresh
    simp only [step, hpc, List.append_nil]
    exact inv_goto h (h.owned.move fun m => by simp [hpc, Pc.Holds])
      (congrArg (· + 1) hfresh) hloop (by rw [hpc]; rfl)
  | store i sum =>
    simp only [step, hpc]
    exact inv_store h hpc
  | unlock i =>
    rw [hpc] at hloop
    simp only [step, hpc, List.append_nil]
    have hholds : (s.pc t).Holds .mutex := by
      rw [hpc]
      trivial
    exact inv_goto h (h.owned.move_unlock hholds fun m => by cases m; simp [Pc.Holds]) trivial
      hloop (by rw [hpc]; rfl)
  | done => simpa only [step, hpc, List.append_nil] using h

theorem inv_run (schedule : List ι) :
    Inv n (exec (step n) start schedule) (trace (step n) start schedule) := by
  have hrun := invariant_trace (fun s log => Inv n s log) (fun s t log h => inv_step h t)
    inv_start schedule
  simpa using hrun

end Invariant

/-! ## The two threads -/

inductive Thread
  | t1
  | t2
  deriving DecidableEq

/-- The increments that a thread has completed. -/
def completed (log : List Thread) (t : Thread) : ℕ := log.count t

theorem length_eq_completed (log : List Thread) :
    log.length = completed log .t1 + completed log .t2 := by
  induction log with
  | nil => rfl
  | cons t log ih =>
    simp only [completed] at ih ⊢
    cases t <;> simp <;> omega

/-- `counter` is exact at every moment of every schedule, nothing overflows on the
way, and it ends at what both threads have added. -/
theorem increment_exact (n : ℕ) (schedule : List Thread) :
    let s := exec (step n) start schedule
    let log := trace (step n) start schedule
    s.counter = completed log .t1 + completed log .t2 ∧
      0 ≤ s.counter ∧ s.counter ≤ 2 * n ∧ (∀ t, (s.pc t).InLoop n) ∧
      ((∀ t, s.pc t = .done) → s.counter = 2 * n) := by
  intro s log
  have hinv : Inv n s log := inv_run schedule
  have hcount : s.counter = completed log .t1 + completed log .t2 := by
    rw [hinv.count, length_eq_completed]
    exact Int.natCast_add _ _
  have hle : ∀ t, completed log t ≤ n := fun t => by
    rw [completed, hinv.completed t]
    exact (hinv.inLoop t).completed_le
  refine ⟨hcount, ?_, ?_, hinv.inLoop, fun hdone => ?_⟩
  · omega
  · have h1 := hle .t1
    have h2 := hle .t2
    omega
  · have hall : ∀ t, completed log t = n := fun t => by
      rw [completed, hinv.completed t, hdone t]
      rfl
    rw [hcount, hall, hall]
    omega

/-- One turn of each loop, one after the other. -/
example : let s := exec (step 1) start (List.replicate 8 .t1 ++ List.replicate 8 Thread.t2)
    s.pc .t1 = .done ∧ s.pc .t2 = .done ∧ s.counter = 2 := by decide

end AcademyLab.Counter
