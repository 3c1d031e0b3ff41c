import AcademyLab.Thread.TwoLocks

/-!
# The deadlock check

`thread_c` of `lab_5.c` next to the threads that lock: it loads the counter, sleeps,
loads it again, and takes an unchanged counter for a deadlock. A step is one load of
`thread_c`, the end of its sleep, or a step of one of the others; how many of these come
during a sleep is open. The threads may lock in any orders, so also in the one that the
comment in `thread_a` has.
-/
namespace AcademyLab.Watchdog
open Locks Machine
open TwoLocks (Order Mutex)

/-- Where `thread_c` stands, with its `old_counter`. -/
inductive Watch
  | load
  | sleep (old : ℤ)
  | check (old : ℤ)
  | exited
  deriving DecidableEq

structure State (ι : Type*) where
  threads : TwoLocks.State ι
  watch : Watch

inductive Input (ι : Type*)
  | thread (t : ι)
  | c
  deriving DecidableEq

inductive Event (ι : Type*)
  | stored (t : ι)
  | loaded
  | detected
  deriving DecidableEq

section Step
variable {ι : Type*} [DecidableEq ι] (order : ι → Order)

def start : State ι := ⟨TwoLocks.start, .load⟩

/-- The next step of a thread that stands there stores the counter. -/
def stored (t : ι) : TwoLocks.Pc → List (Event ι)
  | .store _ => [.stored t]
  | _ => []

/-- `exit(-1)` of `thread_c` ends all threads. -/
def step (s : State ι) : Input ι → State ι × List (Event ι)
  | .thread t =>
    match s.watch with
    | .exited => (s, [])
    | .load | .sleep _ | .check _ =>
      ({ s with threads := (TwoLocks.step order s.threads t).1 }, stored t (s.threads.pc t))
  | .c =>
    match s.watch with
    | .load => ({ s with watch := .sleep s.threads.counter }, [.loaded])
    | .sleep old => ({ s with watch := .check old }, [])
    | .check old =>
      if old = s.threads.counter then ({ s with watch := .exited }, [.detected])
      else ({ s with watch := .load }, [])
    | .exited => (s, [])

/-- No thread that locks can do anything. -/
def Deadlocked (s : TwoLocks.State ι) : Prop := ∀ t, (TwoLocks.step order s t).1 = s

/-- The stores since the last load of `thread_c`. -/
def count (n : ℕ) : Event ι → ℕ
  | .stored _ => n + 1
  | .loaded => 0
  | .detected => n

def since (log : List (Event ι)) : ℕ := log.foldl count 0

end Step

/-! ## The mutexes, locked in any orders -/

section Guarded
variable {ι : Type*} {order : ι → Order} {s : TwoLocks.State ι} {t t' : ι}

/-- The mutexes and the positions agree, and nobody is about to store a stale value. -/
structure Guarded (order : ι → Order) (s : TwoLocks.State ι) : Prop where
  owned : Owned (s.holds order) s.owner
  fresh : ∀ t loaded, s.pc t = .store loaded → loaded = s.counter

/-- Of two mutexes, who locks both holds the first. -/
theorem holds_mutex1 {o : Order} {pc : TwoLocks.Pc} (hne : o.outer ≠ o.inner)
    (h : pc.InSection) : pc.Holds o .mutex1 := by
  have hboth : Mutex.mutex1 = o.outer ∨ Mutex.mutex1 = o.inner := by
    cases houter : o.outer <;> cases hinner : o.inner <;> simp_all
  cases pc <;> first | exact h.elim | exact hboth

theorem section_alone (hne : ∀ t, (order t).outer ≠ (order t).inner) (h : Guarded order s)
    (ht : (s.pc t).InSection) (ht' : (s.pc t').InSection) : t = t' :=
  h.owned.exclusive (holds_mutex1 (hne t) ht) (holds_mutex1 (hne t') ht')

variable [DecidableEq ι]

/-- A move that stores nothing. -/
theorem guarded_goto {owner : Mutex → Option ι} {q : TwoLocks.Pc} (h : Guarded order s)
    (howned : Owned ((s.goto t q).holds order) owner)
    (hq : ∀ loaded, q = .store loaded → loaded = s.counter) :
    Guarded order ({ s with owner := owner }.goto t q) :=
  ⟨howned, TwoLocks.fresh_goto h.fresh hq⟩

theorem guarded_step (hne : ∀ t, (order t).outer ≠ (order t).inner) (h : Guarded order s)
    (t : ι) : Guarded order (TwoLocks.step order s t).1 := by
  cases hpc : s.pc t with
  | lockOuter =>
    cases howner : s.owner (order t).outer with
    | none =>
      simp only [TwoLocks.step, hpc, lock_free howner]
      exact guarded_goto h
        (TwoLocks.owned_lock h.owned howner (by simp [hpc, TwoLocks.Pc.Holds])) (by simp)
    | some t' => simpa only [TwoLocks.step, hpc, lock_taken howner] using h
  | lockInner =>
    cases howner : s.owner (order t).inner with
    | none =>
      simp only [TwoLocks.step, hpc, lock_free howner]
      exact guarded_goto h
        (TwoLocks.owned_lock h.owned howner (by simp [hpc, TwoLocks.Pc.Holds])) (by simp)
    | some t' => simpa only [TwoLocks.step, hpc, lock_taken howner] using h
  | load =>
    simp only [TwoLocks.step, hpc]
    exact guarded_goto h (TwoLocks.owned_goto h.owned (by simp [hpc, TwoLocks.Pc.Holds]))
      (by simp)
  | store loaded =>
    simp only [TwoLocks.step, hpc]
    refine ⟨TwoLocks.owned_goto h.owned (by simp [hpc, TwoLocks.Pc.Holds]), ?_⟩
    refine (Function.forall_update_iff s.pc fun _ pc =>
      ∀ loaded', pc = .store loaded' → loaded' = loaded + 1).2 ⟨by simp, ?_⟩
    intro t' hne' loaded' ht'
    exact absurd (section_alone hne h (by rw [ht']; trivial) (by rw [hpc]; trivial)) hne'
  | print =>
    simp only [TwoLocks.step, hpc]
    exact guarded_goto h (TwoLocks.owned_goto h.owned (by simp [hpc, TwoLocks.Pc.Holds]))
      (by simp)
  | unlockInner =>
    simp only [TwoLocks.step, hpc]
    refine guarded_goto h (TwoLocks.owned_unlock h.owned (by simp [hpc, TwoLocks.Pc.Holds]) ?_)
      (by simp)
    intro m
    simp only [hpc, TwoLocks.Pc.Holds]
    have hne' := hne t
    constructor
    · rintro rfl
      exact ⟨Or.inl rfl, hne'⟩
    · rintro ⟨rfl | rfl, hm⟩
      · rfl
      · exact absurd rfl hm
  | unlockOuter =>
    simp only [TwoLocks.step, hpc]
    exact guarded_goto h (TwoLocks.owned_unlock h.owned (by simp [hpc, TwoLocks.Pc.Holds])
      (by simp [hpc, TwoLocks.Pc.Holds])) (by simp)

/-- Only a store changes the counter, and it adds one. -/
theorem counter_step (h : Guarded order s) (t : ι) :
    stored t (s.pc t) = [.stored t] ∧ (TwoLocks.step order s t).1.counter = s.counter + 1 ∨
      stored t (s.pc t) = [] ∧ (TwoLocks.step order s t).1.counter = s.counter := by
  cases hpc : s.pc t with
  | store loaded =>
    refine .inl ⟨rfl, ?_⟩
    simp [TwoLocks.step, hpc, h.fresh t loaded hpc]
  | lockOuter =>
    refine .inr ⟨rfl, ?_⟩
    cases howner : s.owner (order t).outer with
    | none => simp [TwoLocks.step, hpc, lock_free howner]
    | some t' => simp [TwoLocks.step, hpc, lock_taken howner]
  | lockInner =>
    refine .inr ⟨rfl, ?_⟩
    cases howner : s.owner (order t).inner with
    | none => simp [TwoLocks.step, hpc, lock_free howner]
    | some t' => simp [TwoLocks.step, hpc, lock_taken howner]
  | _ => exact .inr ⟨rfl, by simp [TwoLocks.step, hpc]⟩

end Guarded

/-! ## What the check tells -/

section Check
variable {ι : Type*} [DecidableEq ι] {order : ι → Order} {s : State ι} {log : List (Event ι)}

/-- The value that `thread_c` has kept. -/
def Watch.old : Watch → Option ℤ
  | .sleep old | .check old => some old
  | .load | .exited => none

structure Inv (order : ι → Order) (s : State ι) (log : List (Event ι)) : Prop where
  guarded : Guarded order s.threads
  old : ∀ old, s.watch.old = some old → s.threads.counter = old + since log

omit [DecidableEq ι] in
theorem since_append (e : Event ι) : since (log ++ [e]) = count (since log) e := by
  simp [since]

omit [DecidableEq ι] in
theorem inv_start : Inv order (start : State ι) [] where
  guarded := ⟨fun t m => by simp [TwoLocks.State.holds, start, TwoLocks.start, TwoLocks.Pc.Holds],
    fun t loaded h => by cases h⟩
  old := fun old h => by cases h

theorem step_thread (h : s.watch ≠ .exited) (t : ι) : step order s (.thread t) =
    ({ s with threads := (TwoLocks.step order s.threads t).1 }, stored t (s.threads.pc t)) := by
  cases hw : s.watch with
  | exited => exact absurd hw h
  | _ => simp only [step, hw]

theorem step_exited (h : s.watch = .exited) (input : Input ι) : step order s input = (s, []) := by
  cases input <;> simp only [step, h]

theorem inv_step (hne : ∀ t, (order t).outer ≠ (order t).inner) (h : Inv order s log)
    (input : Input ι) : Inv order (step order s input).1 (log ++ (step order s input).2) := by
  by_cases hexited : s.watch = .exited
  · simpa only [step_exited hexited, List.append_nil] using h
  cases input with
  | thread t =>
    rw [step_thread hexited]
    refine ⟨guarded_step hne h.guarded t, fun old hold => ?_⟩
    have hcount := h.old old hold
    rcases counter_step h.guarded t with ⟨hstored, hcounter⟩ | ⟨hstored, hcounter⟩
    · simp only [hstored, hcounter, since_append, count]
      omega
    · simpa only [hstored, hcounter, List.append_nil] using hcount
  | c =>
    cases hw : s.watch with
    | load =>
      simp only [step, hw]
      refine ⟨h.guarded, fun old hold => ?_⟩
      obtain rfl : s.threads.counter = old := Option.some.inj hold
      simp [since_append, count]
    | sleep old =>
      simp only [step, hw, List.append_nil]
      exact ⟨h.guarded, fun old' hold => h.old old' (by rw [hw]; exact hold)⟩
    | check old =>
      simp only [step, hw]
      split_ifs
      · exact ⟨h.guarded, fun old' hold => by cases hold⟩
      · exact ⟨h.guarded, fun old' hold => by cases hold⟩
    | exited => exact absurd hw hexited

theorem inv_run (hne : ∀ t, (order t).outer ≠ (order t).inner) (inputs : List (Input ι)) :
    Inv order (exec (step order) start inputs) (trace (step order) start inputs) :=
  invariant_trace (Inv order) (fun _ input _ h => inv_step hne h input) inv_start inputs

/-! ## A deadlock is found -/

/-- How many steps of `thread_c` are left if nobody stores any more. -/
def left (s : State ι) : ℕ :=
  match s.watch with
  | .load => 3
  | .sleep old => if old = s.threads.counter then 2 else 5
  | .check old => if old = s.threads.counter then 1 else 4
  | .exited => 0

omit [DecidableEq ι] in
theorem left_le (s : State ι) : left s ≤ 5 := by
  cases hw : s.watch with
  | sleep old | check old =>
    simp only [left, hw]
    split_ifs <;> omega
  | load | exited => simp [left, hw]

omit [DecidableEq ι] in
theorem exited_of_left (h : left s = 0) : s.watch = .exited := by
  cases hw : s.watch with
  | sleep old | check old =>
    simp only [left, hw] at h
    split_ifs at h
  | load => simp [left, hw] at h
  | exited => rfl

theorem left_thread (h : Deadlocked order s.threads) (t : ι) :
    (step order s (.thread t)).1 = s := by
  by_cases hexited : s.watch = .exited
  · rw [step_exited hexited]
  · rw [step_thread hexited, h t]

variable (order) in
theorem left_c (s : State ι) :
    (step order s .c).1.threads = s.threads ∧ left (step order s .c).1 ≤ left s - 1 := by
  cases hw : s.watch with
  | load => simp [step, left, hw]
  | sleep old =>
    simp only [step, left, hw]
    split_ifs <;> simp
  | check old =>
    simp only [step, left, hw]
    split_ifs <;> simp
  | exited => simp [step, left, hw]

/-- Once nobody can lock, each step of `thread_c` brings the alarm nearer. -/
theorem left_run (h : Deadlocked order s.threads) (inputs : List (Input ι)) :
    left (exec (step order) s inputs) ≤ left s - inputs.count .c := by
  induction inputs generalizing s with
  | nil => exact le_rfl
  | cons input inputs ih =>
    cases input with
    | thread t =>
      rw [exec_cons, left_thread h t, List.count_cons_of_ne (by simp)]
      exact ih h
    | c =>
      obtain ⟨hthreads, hleft⟩ := left_c order s
      have hrest := ih (s := (step order s .c).1) (by rwa [hthreads])
      rw [exec_cons, List.count_cons_self]
      omega

end Check

/-- For any number of threads, whatever their orders of the two mutexes: the check reports
a deadlock exactly if nobody has stored the counter since it was loaded; and where nobody
can lock any more, five steps of `thread_c` are enough for the report. If all lock the
mutexes in one order, as the threads of the program do, there never is a deadlock, so that
whatever is reported is only that the threads were slow. -/
theorem deadlock_check {ι : Type*} [DecidableEq ι] [Finite ι] [Nonempty ι] (order : ι → Order)
    (hne : ∀ t, (order t).outer ≠ (order t).inner) (inputs : List (Input ι)) :
    let s := exec (step order) start inputs
    let log := trace (step order) start inputs
    (∀ old, s.watch = .check old → ((step order s .c).2 = [.detected] ↔ since log = 0)) ∧
      (Deadlocked order s.threads → ∀ later : List (Input ι), 5 ≤ later.count .c →
        (exec (step order) s later).watch = .exited) ∧
      ∀ rank : Mutex → ℕ, (∀ t, rank (order t).outer < rank (order t).inner) →
        ¬ Deadlocked order s.threads := by
  intro s log
  have hinv : Inv order s log := inv_run hne inputs
  refine ⟨fun old hw => ?_, fun hdead later hlater => ?_, fun rank hrank hdead => ?_⟩
  · have hcounter := hinv.old old (by rw [hw]; rfl)
    simp only [step, hw]
    split_ifs with heq
    · exact iff_of_true rfl (by omega)
    · exact iff_of_false (by simp) (by omega)
  · have hrun := left_run hdead later
    have hle := left_le s
    exact exited_of_left (by omega)
  · obtain ⟨t, ht⟩ := TwoLocks.exists_moves hinv.guarded.owned rank hrank
    exact ht (hdead t)

/-- With the two locks of `thread_a` the other way round, both threads wait, and that is
reported. -/
theorem deadlock_check_opposite :
    let order : TwoLocks.Thread → Order
      | .a => ⟨.mutex2, .mutex1⟩
      | .b => TwoLocks.threadB
    (exec (step order) (exec (step order) start [.thread .a, .thread .b])
      (List.replicate 5 .c)).watch = .exited := by
  intro order
  have hnonempty : Nonempty TwoLocks.Thread := ⟨.a⟩
  have hne : ∀ t, (order t).outer ≠ (order t).inner := fun t => by cases t <;> decide
  refine (deadlock_check order hne [.thread .a, .thread .b]).2.1 ?_ _ (by decide)
  intro t
  cases t <;> rfl

end AcademyLab.Watchdog
