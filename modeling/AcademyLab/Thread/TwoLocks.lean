import AcademyLab.Locks
import AcademyLab.Machine
import Mathlib.Algebra.BigOperators.Group.Finset.Piecewise
import Mathlib.Data.Fintype.EquivFin

/-!
# Two threads and two mutexes

`thread_a` and `thread_b` of `lab_5.c`. A step is one lock, load, store, print or
unlock; a lock that has to wait leaves everything as it is. `thread_c` only reads
the counter. The loop is written for any number of threads, each with its own
order of the mutexes, so that what the order is needed for can be seen.
-/
namespace AcademyLab.TwoLocks
open Locks Machine
open scoped BigOperators

inductive Mutex
  | mutex1
  | mutex2
  deriving DecidableEq

/-- The order in which a thread locks the mutexes. It unlocks the inner one
first. -/
structure Order where
  outer : Mutex
  inner : Mutex

/-- Where a thread stands: before each of its locks, the load and the store of
`counter++`, the load of `printf`, and each of its unlocks. -/
inductive Pc
  | lockOuter
  | lockInner
  | load
  | store (loaded : ℤ)
  | print
  | unlockInner
  | unlockOuter
  deriving DecidableEq

structure State (ι : Type*) where
  owner : Mutex → Option ι
  pc : ι → Pc
  counter : ℤ

inductive Event (ι : Type*)
  | print (t : ι) (counter : ℤ)
  | unlock (t : ι) (m : Mutex)

section Step
variable {ι : Type*} [DecidableEq ι] (order : ι → Order)

def start : State ι := ⟨fun _ => none, fun _ => .lockOuter, 0⟩

def State.goto (s : State ι) (t : ι) (pc : Pc) : State ι :=
  { s with pc := Function.update s.pc t pc }

/-- One step of the thread `t`. -/
def step (s : State ι) (t : ι) : State ι × List (Event ι) :=
  match s.pc t with
  | .lockOuter =>
    match lock s.owner t (order t).outer with
    | some owner => ({ s with owner := owner }.goto t .lockInner, [])
    | none => (s, [])
  | .lockInner =>
    match lock s.owner t (order t).inner with
    | some owner => ({ s with owner := owner }.goto t .load, [])
    | none => (s, [])
  | .load => (s.goto t (.store s.counter), [])
  | .store loaded => ({ s with counter := loaded + 1 }.goto t .print, [])
  | .print => (s.goto t .unlockInner, [.print t s.counter])
  | .unlockInner =>
    ({ s with owner := unlock s.owner (order t).inner }.goto t .unlockOuter,
      [.unlock t (order t).inner])
  | .unlockOuter =>
    ({ s with owner := unlock s.owner (order t).outer }.goto t .lockOuter,
      [.unlock t (order t).outer])

end Step

inductive Thread
  | a
  | b
  deriving DecidableEq

instance : Fintype Thread := ⟨{.a, .b}, fun t => by cases t <;> simp⟩

/-- `thread_a` -/
def threadA : Order := ⟨.mutex1, .mutex2⟩

/-- `thread_b` -/
def threadB : Order := ⟨.mutex1, .mutex2⟩

def order : Thread → Order
  | .a => threadA
  | .b => threadB

/-! ## What a position says -/

/-- The mutexes that a thread holds where it stands. -/
def Pc.Holds (o : Order) (m : Mutex) : Pc → Prop
  | .lockOuter => False
  | .lockInner | .unlockOuter => m = o.outer
  | .load | .store _ | .print | .unlockInner => m = o.outer ∨ m = o.inner

/-- The mutex that the next step locks. -/
def Pc.awaits (o : Order) : Pc → Option Mutex
  | .lockOuter => some o.outer
  | .lockInner => some o.inner
  | _ => none

/-- Between the second lock and the first unlock. -/
def Pc.InSection : Pc → Prop
  | .load | .store _ | .print | .unlockInner => True
  | .lockOuter | .lockInner | .unlockOuter => False

/-- A section that has stored and has not unlocked the inner mutex. -/
def Pc.unfinished : Pc → ℕ
  | .print | .unlockInner => 1
  | _ => 0

theorem Pc.InSection.holds {o : Order} {pc : Pc} (h : pc.InSection) : pc.Holds o o.inner := by
  cases pc <;> first | exact h.elim | exact Or.inr rfl

/-- The sections that are over: a section ends with the unlock of the thread's
inner mutex. -/
def completed {ι : Type*} (order : ι → Order) (log : List (Event ι)) : ℕ :=
  log.countP fun e => match e with
    | .unlock t m => m = (order t).inner
    | .print _ _ => false

section Goto
variable {ι : Type*} [DecidableEq ι] {order : ι → Order} {s : State ι} {t : ι} {q : Pc}

@[simp] theorem goto_pc : (s.goto t q).pc = Function.update s.pc t q := rfl
@[simp] theorem goto_owner : (s.goto t q).owner = s.owner := rfl
@[simp] theorem goto_counter : (s.goto t q).counter = s.counter := rfl

/-- Who holds what, as the positions say. -/
def State.holds (order : ι → Order) (s : State ι) (t : ι) (m : Mutex) : Prop :=
  (s.pc t).Holds (order t) m

theorem sum_unfinished_goto [Fintype ι] :
    ∑ t', ((s.goto t q).pc t').unfinished + (s.pc t).unfinished =
      ∑ t', (s.pc t').unfinished + q.unfinished := by
  have hsum := Finset.sum_update_of_mem (Finset.mem_univ t)
    (fun t' => (s.pc t').unfinished) q.unfinished
  have hone := Finset.add_sum_erase Finset.univ (fun t' => (s.pc t').unfinished)
    (Finset.mem_univ t)
  have hcomp : (fun t' => ((s.goto t q).pc t').unfinished) =
      Function.update (fun t' => (s.pc t').unfinished) t q.unfinished :=
    Function.comp_update Pc.unfinished s.pc t q
  rw [hcomp, hsum, ← Finset.erase_eq]
  omega

end Goto

/-! ## The invariant -/

/-- The mutexes and the positions agree, nobody is about to store a stale value,
and the counter counts the sections. -/
structure Inv {ι : Type*} [Fintype ι] (order : ι → Order) (s : State ι) (log : List (Event ι)) :
    Prop where
  owned : Owned (s.holds order) s.owner
  fresh : ∀ t loaded, s.pc t = .store loaded → loaded = s.counter
  count : s.counter = completed order log + ∑ t, (s.pc t).unfinished

section Invariant
variable {ι : Type*} {order : ι → Order} {s : State ι} {t : ι} {q : Pc} {m : Mutex}
  {log : List (Event ι)}

theorem holds_eq : s.holds order = Held (fun t pc m => pc.Holds (order t) m) s.pc := rfl

theorem inv_start [Fintype ι] : Inv order (start : State ι) [] where
  owned := fun t m => by simp [State.holds, start, Pc.Holds]
  fresh := fun t loaded h => nomatch h
  count := by simp [completed, start, Pc.unfinished]

/-- Of two threads that lock the same inner mutex one at most is in its section. -/
theorem section_exclusive (h : Owned (s.holds order) s.owner)
    (hinner : ∀ t t', (order t).inner = (order t').inner) {t' : ι} (ht : (s.pc t).InSection)
    (ht' : (s.pc t').InSection) : t = t' :=
  h.exclusive (m := (order t).inner) ht.holds (hinner t' t ▸ ht'.holds)

@[simp] theorem completed_print {v : ℤ} :
    completed order (log ++ [.print t v]) = completed order log := by
  simp [completed]

theorem completed_unlock : completed order (log ++ [.unlock t m]) =
    completed order log + if m = (order t).inner then 1 else 0 := by
  simp [completed, List.countP_cons]

variable [DecidableEq ι]

theorem owned_goto (h : Owned (s.holds order) s.owner)
    (hq : ∀ m, q.Holds (order t) m ↔ (s.pc t).Holds (order t) m) :
    Owned ((s.goto t q).holds order) s.owner := by
  rw [holds_eq] at h ⊢
  exact h.move hq

theorem owned_lock (h : Owned (s.holds order) s.owner) (hfree : s.owner m = none)
    (hq : ∀ m', q.Holds (order t) m' ↔ (s.pc t).Holds (order t) m' ∨ m' = m) :
    Owned ((s.goto t q).holds order) (Function.update s.owner m (some t)) := by
  rw [holds_eq] at h ⊢
  exact h.move_lock hfree hq

theorem owned_unlock (h : Owned (s.holds order) s.owner) (hholds : (s.pc t).Holds (order t) m)
    (hq : ∀ m', q.Holds (order t) m' ↔ (s.pc t).Holds (order t) m' ∧ m' ≠ m) :
    Owned ((s.goto t q).holds order) (unlock s.owner m) := by
  rw [holds_eq] at h ⊢
  exact h.move_unlock hholds hq

theorem fresh_goto (h : ∀ t loaded, s.pc t = .store loaded → loaded = s.counter)
    (hq : ∀ loaded, q = .store loaded → loaded = s.counter) :
    ∀ t' loaded, (s.goto t q).pc t' = .store loaded → loaded = s.counter :=
  (Function.forall_update_iff s.pc fun _ pc => ∀ loaded, pc = .store loaded → loaded = s.counter).2
    ⟨hq, fun t' _ => h t'⟩

/-- What awaits a free mutex, or none, moves. -/
theorem step_ne (h : ∀ m, (s.pc t).awaits (order t) = some m → s.owner m = none) :
    (step order s t).1 ≠ s := by
  intro hsame
  have hpc := congrFun (congrArg State.pc hsame) t
  cases hs : s.pc t with
  | lockOuter =>
    have hfree : s.owner (order t).outer = none := h _ (by rw [hs, Pc.awaits])
    simp [step, hs, lock_free hfree] at hpc
  | lockInner =>
    have hfree : s.owner (order t).inner = none := h _ (by rw [hs, Pc.awaits])
    simp [step, hs, lock_free hfree] at hpc
  | _ => simp [step, hs] at hpc

variable [Fintype ι]

/-- A step that only moves `t`, on a counter that stays. -/
theorem count_goto (h : Inv order s log) {log' : List (Event ι)}
    (hq : completed order log' + q.unfinished = completed order log + (s.pc t).unfinished) :
    s.counter = completed order log' + ∑ t', ((s.goto t q).pc t').unfinished := by
  have hsum := sum_unfinished_goto (s := s) (t := t) (q := q)
  have hcount := h.count
  omega

/-- A move of `t` on a counter that stays. -/
theorem inv_goto {owner : Mutex → Option ι} {log' : List (Event ι)} (h : Inv order s log)
    (howned : Owned ((s.goto t q).holds order) owner)
    (hfresh : ∀ loaded, q = .store loaded → loaded = s.counter)
    (hq : completed order log' + q.unfinished = completed order log + (s.pc t).unfinished) :
    Inv order ({ s with owner := owner }.goto t q) log' where
  owned := howned
  fresh := fresh_goto h.fresh hfresh
  count := count_goto h hq

/-- A store: nobody else is between a load and a store. -/
theorem inv_store {loaded : ℤ} (hinner : ∀ t t', (order t).inner = (order t').inner)
    (h : Inv order s log) (hpc : s.pc t = .store loaded) :
    Inv order ({ s with counter := loaded + 1 }.goto t .print) log where
  owned := owned_goto h.owned (by simp [hpc, Pc.Holds])
  fresh := by
    refine (Function.forall_update_iff s.pc fun _ pc =>
      ∀ loaded', pc = .store loaded' → loaded' = loaded + 1).2 ⟨?_, ?_⟩
    · intro loaded' hprint
      cases hprint
    · intro t' hne loaded' ht'
      exact absurd (section_exclusive h.owned hinner (by rw [ht']; trivial)
        (by rw [hpc]; trivial)) hne
  count := by
    have hloaded : loaded = s.counter := h.fresh t loaded hpc
    have hsum := sum_unfinished_goto (s := s) (t := t) (q := .print)
    have hcount := h.count
    have hbefore : (s.pc t).unfinished = 0 := by
      rw [hpc]
      rfl
    have hafter : Pc.print.unfinished = 1 := rfl
    show loaded + 1 = completed order log + ((∑ t', ((s.goto t .print).pc t').unfinished : ℕ) : ℤ)
    omega

theorem inv_step (hne : ∀ t, (order t).outer ≠ (order t).inner)
    (hinner : ∀ t t', (order t).inner = (order t').inner) (h : Inv order s log) :
    Inv order (step order s t).1 (log ++ (step order s t).2) := by
  cases hpc : s.pc t with
  | lockOuter =>
    cases howner : s.owner (order t).outer with
    | none =>
      simp only [step, hpc, lock_free howner, List.append_nil]
      exact inv_goto h (owned_lock h.owned howner (by simp [hpc, Pc.Holds])) (by simp)
        (by simp [hpc, Pc.unfinished])
    | some t' => simpa only [step, hpc, lock_taken howner, List.append_nil] using h
  | lockInner =>
    cases howner : s.owner (order t).inner with
    | none =>
      simp only [step, hpc, lock_free howner, List.append_nil]
      exact inv_goto h (owned_lock h.owned howner (by simp [hpc, Pc.Holds])) (by simp)
        (by simp [hpc, Pc.unfinished])
    | some t' => simpa only [step, hpc, lock_taken howner, List.append_nil] using h
  | load =>
    simp only [step, hpc, List.append_nil]
    exact inv_goto h (owned_goto h.owned (by simp [hpc, Pc.Holds])) (by simp)
      (by simp [hpc, Pc.unfinished])
  | store loaded =>
    simp only [step, hpc, List.append_nil]
    exact inv_store hinner h hpc
  | print =>
    simp only [step, hpc]
    exact inv_goto h (owned_goto h.owned (by simp [hpc, Pc.Holds])) (by simp)
      (by simp [hpc, Pc.unfinished])
  | unlockInner =>
    simp only [step, hpc]
    refine inv_goto h (owned_unlock h.owned (by simp [hpc, Pc.Holds]) ?_) (by simp)
      (by simp [hpc, Pc.unfinished, completed_unlock])
    intro m'
    simp only [hpc, Pc.Holds]
    have := hne t
    constructor
    · rintro rfl
      exact ⟨Or.inl rfl, this⟩
    · rintro ⟨rfl | rfl, hm'⟩
      · rfl
      · exact absurd rfl hm'
  | unlockOuter =>
    simp only [step, hpc]
    exact inv_goto h (owned_unlock h.owned (by simp [hpc, Pc.Holds]) (by simp [hpc, Pc.Holds]))
      (by simp) (by simp [hpc, Pc.unfinished, completed_unlock, hne])

end Invariant

/-! ## Runs -/

def Mutex.rank : Mutex → ℕ
  | .mutex1 => 1
  | .mutex2 => 2

section Run
variable {ι : Type*} [DecidableEq ι] {order : ι → Order}

/-- Threads that all lock the mutexes in one order never stand still together. -/
theorem exists_moves [Finite ι] [Nonempty ι] {s : State ι} (h : Owned (s.holds order) s.owner)
    (rank : Mutex → ℕ) (hrank : ∀ t, rank (order t).outer < rank (order t).inner) :
    ∃ t, (step order s t).1 ≠ s := by
  obtain ⟨t, ht⟩ := h.exists_unblocked (fun t => (s.pc t).awaits (order t)) rank
    (by
      intro t m m' hawaits hholds
      cases hpc : s.pc t <;> simp only [hpc, Pc.awaits, State.holds, Pc.Holds, reduceCtorEq,
        Option.some.injEq] at hawaits hholds
      rw [← hawaits, hholds]
      exact hrank t)
  exact ⟨t, step_ne ht⟩

theorem inv_run [Fintype ι] (hne : ∀ t, (order t).outer ≠ (order t).inner)
    (hinner : ∀ t t', (order t).inner = (order t').inner) (schedule : List ι) :
    Inv order (exec (step order) start schedule) (trace (step order) start schedule) :=
  invariant_trace (Inv order) (fun _ _ _ h => inv_step hne hinner h) inv_start schedule

end Run

/-- `thread_a` and `thread_b`: one of them can always move, one at most is in its
section, and no increment is lost. -/
theorem two_locks (schedule : List Thread) :
    let s := exec (step order) start schedule
    (∃ t, (step order s t).1 ≠ s) ∧
      (∀ t t', (s.pc t).InSection → (s.pc t').InSection → t = t') ∧
      s.counter = completed order (trace (step order) start schedule) +
        ∑ t, (s.pc t).unfinished := by
  intro s
  have hinner : ∀ t t', (order t).inner = (order t').inner := by
    intro t t'
    cases t <;> cases t' <;> rfl
  have hrank : ∀ t, (order t).outer.rank < (order t).inner.rank := by
    intro t
    cases t <;> decide
  have hinv := inv_run (fun t => by cases t <;> decide) hinner schedule
  have : Nonempty Thread := ⟨.a⟩
  exact ⟨exists_moves hinv.owned Mutex.rank hrank,
    fun t t' ht ht' => section_exclusive hinv.owned hinner ht ht', by exact_mod_cast hinv.count⟩

/-- With the two locks of `thread_a` the other way round, both may wait for ever. -/
example (order' : Thread → Order) (ha : order' .a = ⟨.mutex2, .mutex1⟩)
    (hb : order' .b = threadB) :
    ∀ t, (step order' (exec (step order') start [.a, .b]) t).1 =
      exec (step order') start [.a, .b] := by
  intro t
  cases t <;> simp [step, start, ha, hb, threadB, lock, State.goto]

end AcademyLab.TwoLocks
