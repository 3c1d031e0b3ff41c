import AcademyLab.Machine
import Mathlib.Algebra.Order.Ring.Int
import Mathlib.Tactic.Ring

/-!
# The shared-memory producer and consumer

The loops of `producer` and `consumer` in `lab_2.c`, from their first
`sem_wait` on. A step is one call on a semaphore, or one load or store of
`addr->value`; a `sem_wait` that has to block leaves everything as it is. Two
semaphores hand one token back and forth, and the value follows it.
-/
namespace AcademyLab.Shm
open Machine

/-- `struct shared_data` -/
structure SharedData where
  semFull : ℕ
  semEmpty : ℕ
  value : ℤ
  deriving DecidableEq

inductive Sem
  | full
  | empty
  deriving DecidableEq

def SharedData.sem (d : SharedData) : Sem → ℕ
  | .full => d.semFull
  | .empty => d.semEmpty

def SharedData.setSem (d : SharedData) (k : ℕ) : Sem → SharedData
  | .full => { d with semFull := k }
  | .empty => { d with semEmpty := k }

/-- `sem_post` -/
def SharedData.semPost (d : SharedData) (sem : Sem) : SharedData := d.setSem (d.sem sem + 1) sem

/-- `sem_wait`; `none` if it blocks. -/
def SharedData.semWait (d : SharedData) (sem : Sem) : Option SharedData :=
  if d.sem sem = 0 then none else some (d.setSem (d.sem sem - 1) sem)

/-- Where a loop stands: before `sem_wait`, before the load and before the store
of `value++` or `value--` in the item `i`, before the load of `print_value`, and
before `sem_post`. -/
inductive Pc
  | wait
  | load (i : ℕ)
  | store (i : ℕ) (loaded : ℤ)
  | print (i : ℕ)
  | post
  deriving DecidableEq

/-- The test `i < MAX_SIZE` of the item loop. -/
def items (maxSize i : ℕ) : Pc := if i < maxSize then .load i else .post

/-- What the two loops differ in. -/
structure Role where
  waits : Sem
  posts : Sem
  delta : ℤ

def producer : Role := ⟨.empty, .full, 1⟩

def consumer : Role := ⟨.full, .empty, -1⟩

/-- One step of a loop, with the value that it prints. -/
def Role.step (r : Role) (maxSize : ℕ) (pc : Pc) (d : SharedData) :
    (Pc × SharedData) × List ℤ :=
  match pc with
  | .wait =>
    match d.semWait r.waits with
    | some d' => ((items maxSize 0, d'), [])
    | none => ((.wait, d), [])
  | .load i => ((.store i d.value, d), [])
  | .store i loaded => ((.print i, { d with value := loaded + r.delta }), [])
  | .print i => ((items maxSize (i + 1), d), [d.value])
  | .post => ((.wait, d.semPost r.posts), [])

inductive Process
  | producer
  | consumer
  deriving DecidableEq

structure State where
  producer : Pc
  consumer : Pc
  data : SharedData
  deriving DecidableEq

/-- One step of one of the processes, with what it prints. -/
def step (maxSize : ℕ) (s : State) : Process → State × List (Process × ℤ)
  | .producer =>
    let r := Shm.producer.step maxSize s.producer s.data
    (⟨r.1.1, s.consumer, r.1.2⟩, r.2.map fun v => (.producer, v))
  | .consumer =>
    let r := Shm.consumer.step maxSize s.consumer s.data
    (⟨s.producer, r.1.1, r.1.2⟩, r.2.map fun v => (.consumer, v))

/-- After the initialisation by the producer. -/
def start : State := ⟨.wait, .wait, ⟨0, 1, 0⟩⟩

/-- The section between `sem_wait` and `sem_post`. -/
def Pc.InSection (pc : Pc) : Prop := pc ≠ .wait

instance (pc : Pc) : Decidable pc.InSection := inferInstanceAs (Decidable (_ ≠ _))

/-! ## One section -/

section Section
variable {n i : ℕ} {first value : ℤ} {pc : Pc} {d : SharedData} {r : Role}

/-- What a section that was entered at `first` has made of the value. -/
def Progress (n : ℕ) (first delta value : ℤ) : Pc → Prop
  | .wait => False
  | .load i => i < n ∧ value = first + delta * i
  | .store i loaded => i < n ∧ loaded = value ∧ value = first + delta * i
  | .print i => i < n ∧ value = first + delta * (i + 1)
  | .post => value = first + delta * n

theorem progress_items {delta : ℤ} (hi : i ≤ n) (hv : value = first + delta * i) :
    Progress n first delta value (items n i) := by
  unfold items
  split_ifs with h
  · exact ⟨h, hv⟩
  · obtain rfl : i = n := by omega
    exact hv

/-- Inside a section only the value changes, by one item after the other. -/
theorem Progress.step (h : Progress n first r.delta d.value pc) (hpc : pc ≠ .post) :
    ∃ value, (r.step n pc d).1.2 = { d with value } ∧
      Progress n first r.delta value (r.step n pc d).1.1 := by
  cases pc with
  | wait => exact h.elim
  | load i => exact ⟨d.value, rfl, h.1, rfl, h.2⟩
  | store i loaded =>
    obtain ⟨hi, rfl, hv⟩ := h
    refine ⟨d.value + r.delta, rfl, hi, ?_⟩
    rw [hv]
    ring
  | print i =>
    refine ⟨d.value, rfl, progress_items h.1 ?_⟩
    rw [h.2]
    push_cast
    rfl
  | post => exact absurd rfl hpc

end Section

/-! ## The four phases -/

/-- The buffer is empty, being filled, full, or being emptied. -/
inductive Inv (n : ℕ) : State → Prop
  | empty : Inv n ⟨.wait, .wait, ⟨0, 1, 0⟩⟩
  | filling {pc : Pc} {value : ℤ} (h : Progress n 0 1 value pc) :
      Inv n ⟨pc, .wait, ⟨0, 0, value⟩⟩
  | full : Inv n ⟨.wait, .wait, ⟨1, 0, n⟩⟩
  | emptying {pc : Pc} {value : ℤ} (h : Progress n n (-1) value pc) :
      Inv n ⟨.wait, pc, ⟨0, 0, value⟩⟩

theorem inv_step {n : ℕ} {s : State} (h : Inv n s) (p : Process) : Inv n (step n s p).1 := by
  cases h with
  | empty =>
    cases p with
    | producer => exact .filling (progress_items (Nat.zero_le n) (by simp))
    | consumer => exact .empty
  | @filling pc value hp =>
    cases p with
    | producer =>
      by_cases hpc : pc = .post
      · subst hpc
        obtain rfl : value = n := by simpa [Progress] using hp
        exact .full
      · obtain ⟨value', hd, hp'⟩ :=
          @Progress.step n 0 pc ⟨0, 0, value⟩ producer hp hpc
        simp only [step, hd]
        exact .filling hp'
    | consumer => exact .filling hp
  | full =>
    cases p with
    | producer => exact .full
    | consumer => exact .emptying (progress_items (Nat.zero_le n) (by simp))
  | @emptying pc value hp =>
    cases p with
    | producer => exact .emptying hp
    | consumer =>
      by_cases hpc : pc = .post
      · subst hpc
        obtain rfl : value = 0 := by
          simp only [Progress] at hp
          omega
        exact .empty
      · obtain ⟨value', hd, hp'⟩ :=
          @Progress.step n n pc ⟨0, 0, value⟩ consumer hp hpc
        simp only [step, hd]
        exact .emptying hp'

/-- The process cannot take a step that changes anything. -/
def Blocked (s : State) : Process → Prop
  | .producer => s.producer = .wait ∧ s.data.semEmpty = 0
  | .consumer => s.consumer = .wait ∧ s.data.semFull = 0

/-- What holds at every moment of the two loops. -/
structure Alternates (n : ℕ) (s : State) : Prop where
  exclusive : ¬ (s.producer.InSection ∧ s.consumer.InSection)
  token : s.data.semEmpty + s.data.semFull + (if s.producer.InSection then 1 else 0) +
    (if s.consumer.InSection then 1 else 0) = 1
  range : 0 ≤ s.data.value ∧ s.data.value ≤ n
  producerFirst : s.producer = .load 0 → s.data.value = 0
  producerLast : s.producer = .post → s.data.value = n
  consumerFirst : s.consumer = .load 0 → s.data.value = n
  consumerLast : s.consumer = .post → s.data.value = 0
  live : ¬ (Blocked s .producer ∧ Blocked s .consumer)

theorem Progress.inSection {n : ℕ} {first delta value : ℤ} {pc : Pc}
    (h : Progress n first delta value pc) : pc.InSection := by
  rintro rfl
  exact h

/-- A section is always some number of items behind its start. -/
theorem Progress.exists_items {n : ℕ} {first delta value : ℤ} {pc : Pc}
    (h : Progress n first delta value pc) : ∃ k : ℕ, k ≤ n ∧ value = first + delta * k := by
  cases pc with
  | wait => exact h.elim
  | load i => exact ⟨i, h.1.le, h.2⟩
  | store i loaded => exact ⟨i, h.1.le, h.2.2⟩
  | print i => exact ⟨i + 1, h.1, by simpa using h.2⟩
  | post => exact ⟨n, le_rfl, h⟩

theorem Inv.alternates {n : ℕ} {s : State} (h : Inv n s) : Alternates n s := by
  have hwait : ¬ Pc.wait.InSection := fun h => h rfl
  cases h with
  | empty =>
    refine ⟨fun hboth => hwait hboth.1, rfl, ?_, ?_, ?_, ?_, ?_, ?_⟩
    all_goals simp [Blocked]
  | full =>
    refine ⟨fun hboth => hwait hboth.1, rfl, ?_, ?_, ?_, ?_, ?_, ?_⟩
    all_goals simp [Blocked]
  | @filling pc value hp =>
    obtain ⟨k, hk, hv⟩ := hp.exists_items
    have hpc := hp.inSection
    refine ⟨fun hboth => hwait hboth.2, ?_, by dsimp only; omega, ?_, ?_, by simp, by simp, ?_⟩
    · simp [hpc, hwait]
    · rintro rfl
      simpa [Progress] using hp.2
    · rintro rfl
      simpa [Progress] using hp
    · rintro ⟨hblocked, -⟩
      exact hpc hblocked.1
  | @emptying pc value hp =>
    obtain ⟨k, hk, hv⟩ := hp.exists_items
    have hpc := hp.inSection
    refine ⟨fun hboth => hwait hboth.1, ?_, by dsimp only; omega, by simp, by simp, ?_, ?_, ?_⟩
    · simp [hpc, hwait]
    · rintro rfl
      simpa [Progress] using hp.2
    · rintro rfl
      simpa [Progress] using hp
    · rintro ⟨-, hblocked⟩
      exact hpc hblocked.1

/-- Whatever the order of their steps, the two loops alternate. -/
theorem alternation (maxSize : ℕ) (schedule : List Process) :
    Alternates maxSize (exec (step maxSize) start schedule) := by
  have hinv : Inv maxSize (exec (step maxSize) start schedule) :=
    invariant_exec (Inv maxSize) (fun _ p h => inv_step h p) .empty schedule
  exact hinv.alternates

end AcademyLab.Shm
