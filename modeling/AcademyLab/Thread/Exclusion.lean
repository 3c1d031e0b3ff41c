import AcademyLab.Thread.Counter
import AcademyLab.Thread.Race

/-!
# What the mutex takes away

The loop of `lab_2.c` is the loop of `lab_1.c` with a lock and an unlock around
`counter++`. Without those two steps a run of `lab_2.c` is a run of `lab_1.c`, one in
which no two increments overlap.
-/
namespace AcademyLab.Exclusion
open Machine

/-- Where a thread of `lab_2.c` stands in `lab_1.c`: it has not yet loaded when it takes
the lock, and it has stored when it gives it back. -/
def position : Counter.Pc → Race.Pc
  | .test i => .test i
  | .lock i | .load i => .load i
  | .add i loaded => .add i loaded
  | .store i sum => .store i sum
  | .unlock i => .test (i + 1)
  | .done => .done

variable {ι : Type*} [DecidableEq ι] {n : ℕ}

def unlocked (s : Counter.State ι) : Race.State ι := ⟨fun t => position (s.pc t), s.counter⟩

/-- Who has stored. -/
def stored : Race.Event ι → Option ι
  | .stored t => some t
  | .loaded _ => none

theorem unlocked_goto (s : Counter.State ι) (t : ι) (pc : Counter.Pc) :
    unlocked (s.goto t pc) = (unlocked s).goto t (position pc) := by
  simp only [unlocked, Counter.State.goto, Race.State.goto, Race.State.mk.injEq, and_true]
  funext t'
  by_cases ht : t' = t
  · subst ht
    simp
  · simp [ht]

theorem goto_self {s : Race.State ι} {t : ι} {q : Race.Pc} (h : s.pc t = q) : s.goto t q = s := by
  simp [Race.State.goto, ← h]

theorem step_unlocked (s : Counter.State ι) (t : ι) :
    unlocked (Counter.step n s t).1 = unlocked s ∧ (Counter.step n s t).2.filterMap some = [] ∨
      ∃ t', unlocked (Counter.step n s t).1 = (Race.step n (unlocked s) t').1 ∧
        (Counter.step n s t).2.filterMap some =
          (Race.step n (unlocked s) t').2.filterMap stored := by
  have hpos : (unlocked s).pc t = position (s.pc t) := rfl
  cases hpc : s.pc t with
  | test i =>
    rw [hpc] at hpos
    refine .inr ⟨t, ?_⟩
    simp only [Counter.step, hpc, Race.step, hpos, position, unlocked_goto]
    refine ⟨?_, rfl⟩
    split_ifs <;> rfl
  | lock i =>
    rw [hpc] at hpos
    left
    cases howner : s.owner .mutex with
    | none =>
      simp only [Counter.step, hpc, Locks.lock_free howner, unlocked_goto]
      exact ⟨goto_self hpos, rfl⟩
    | some t' => simp [Counter.step, hpc, Locks.lock_taken howner]
  | load i =>
    rw [hpc] at hpos
    refine .inr ⟨t, ?_⟩
    simp only [Counter.step, hpc, Race.step, hpos, position, unlocked_goto]
    exact ⟨rfl, rfl⟩
  | add i loaded =>
    rw [hpc] at hpos
    refine .inr ⟨t, ?_⟩
    simp only [Counter.step, hpc, Race.step, hpos, position, unlocked_goto]
    exact ⟨trivial, rfl⟩
  | store i sum =>
    rw [hpc] at hpos
    refine .inr ⟨t, ?_⟩
    simp only [Counter.step, hpc, Race.step, hpos, position, unlocked_goto]
    exact ⟨rfl, rfl⟩
  | unlock i =>
    rw [hpc] at hpos
    left
    simp only [Counter.step, hpc, unlocked_goto]
    exact ⟨goto_self hpos, rfl⟩
  | done => simp [Counter.step, hpc]

omit [DecidableEq ι] in
theorem length_filterMap_stored (log : List (Race.Event ι)) :
    (log.filterMap stored).length = Race.stores log := by
  induction log with
  | nil => rfl
  | cons e log ih =>
    simp only [Race.stores] at ih ⊢
    cases e <;> simp [stored, List.filterMap_cons, ih]

/-- In any number of threads, every run of `lab_2.c` is one of `lab_1.c` with the same
`counter` and the same increments in the same order, none of which overlap. -/
theorem mutex_refines_race (n : ℕ) (schedule : List ι) :
    ∃ schedule' : List ι,
      exec (Race.step n) Race.start schedule' =
        unlocked (exec (Counter.step n) Counter.start schedule) ∧
      (trace (Race.step n) Race.start schedule').filterMap stored =
        trace (Counter.step n) Counter.start schedule ∧
      Race.Apart (trace (Race.step n) Race.start schedule') := by
  have himage := exists_image some stored (step_unlocked (n := n)) Counter.start schedule
  rw [List.filterMap_some] at himage
  obtain ⟨schedule', hexec, htrace⟩ : ∃ schedule',
      unlocked (exec (Counter.step n) Counter.start schedule) =
        exec (Race.step n) Race.start schedule' ∧
      trace (Counter.step n) Counter.start schedule =
        (trace (Race.step n) Race.start schedule').filterMap stored := himage
  refine ⟨schedule', hexec.symm, htrace.symm, ?_⟩
  by_contra hapart
  have hlt := ((Race.inv_run schedule').behind hapart).1
  have hcount := (Counter.inv_run (n := n) schedule).count
  have hcounter : (exec (Race.step n) Race.start schedule').counter =
      (exec (Counter.step n) Counter.start schedule).counter :=
    congrArg Race.State.counter hexec.symm
  rw [hcounter, hcount, ← length_filterMap_stored, ← htrace] at hlt
  exact lt_irrefl _ hlt

end AcademyLab.Exclusion
