import AcademyLab.Machine
import Mathlib.Algebra.Order.Ring.Int
import Mathlib.Logic.Function.Basic

/-!
# Threads that count without a mutex

`increment` of `lab_1.c`. A step is the test of the loop, or the load, the addition
or the store of `counter++`; another thread may come between any two of them. The
number of turns of the loop is `n`; the program has a million.
-/
namespace AcademyLab.Race
open Machine

/-- Where a thread stands, with its `i` and what it has in its register. -/
inductive Pc
  | test (i : ℕ)
  | load (i : ℕ)
  | add (i : ℕ) (loaded : ℤ)
  | store (i : ℕ) (sum : ℤ)
  | done
  deriving DecidableEq

structure State (ι : Type*) where
  pc : ι → Pc
  counter : ℤ

inductive Event (ι : Type*)
  | loaded (t : ι)
  | stored (t : ι)
  deriving DecidableEq

section Step
variable {ι : Type*} [DecidableEq ι] (n : ℕ)

def start : State ι := ⟨fun _ => .test 0, 0⟩

def State.goto (s : State ι) (t : ι) (pc : Pc) : State ι :=
  { s with pc := Function.update s.pc t pc }

/-- One step of the thread `t`. -/
def step (s : State ι) (t : ι) : State ι × List (Event ι) :=
  match s.pc t with
  | .test i => (s.goto t (if i < n then .load i else .done), [])
  | .load i => (s.goto t (.add i s.counter), [.loaded t])
  | .add i loaded => (s.goto t (.store i (loaded + 1)), [])
  | .store i sum => ({ s with counter := sum }.goto t (.test (i + 1)), [.stored t])
  | .done => (s, [])

/-- What a thread has loaded and not yet stored. -/
def Pc.pending : Pc → Option ℤ
  | .add _ loaded => some loaded
  | .store _ sum => some (sum - 1)
  | .test _ | .load _ | .done => none

/-- The increments that a thread has stored when it stands there. -/
def Pc.completed (n : ℕ) : Pc → ℕ
  | .test i | .load i | .add i _ | .store i _ => i
  | .done => n

def Pc.InLoop (n : ℕ) : Pc → Prop
  | .test i => i ≤ n
  | .load i | .add i _ | .store i _ => i < n
  | .done => True

end Step

/-! ## Increments that do not overlap -/

section Overlap
variable {ι : Type*} [DecidableEq ι]

def stores (log : List (Event ι)) : ℕ :=
  log.countP fun
    | .stored _ => true
    | .loaded _ => false

/-- The threads that have loaded since the last store, and whether each store so far
was by one of those. -/
def watch (w : List ι × Bool) : Event ι → List ι × Bool
  | .loaded t => (t :: w.1, w.2)
  | .stored t => ([], w.2 && w.1.contains t)

def watched (log : List (Event ι)) : List ι × Bool := log.foldl watch ([], true)

/-- No thread stores between the load and the store of another. -/
def Apart (log : List (Event ι)) : Prop := (watched log).2 = true

instance (log : List (Event ι)) : Decidable (Apart log) := inferInstanceAs (Decidable (_ = _))

end Overlap

/-- While the increments stay apart, `counter` is the number of stores, and a value
that was loaded is current if nothing has been stored since; once they have not, both
stay behind. -/
structure Inv {ι : Type*} [DecidableEq ι] (s : State ι) (log : List (Event ι)) : Prop where
  apart : Apart log → s.counter = stores log ∧ ∀ t v, (s.pc t).pending = some v →
    v ≤ stores log ∧ (v = stores log ↔ t ∈ (watched log).1)
  behind : ¬ Apart log → s.counter < stores log ∧ ∀ t v, (s.pc t).pending = some v →
    v < stores log

section Lost
variable {ι : Type*} [DecidableEq ι] {n : ℕ} {s : State ι} {t : ι} {q : Pc}
  {log : List (Event ι)}

@[simp] theorem goto_counter : (s.goto t q).counter = s.counter := rfl

omit [DecidableEq ι] in
theorem stores_loaded : stores (log ++ [.loaded t]) = stores log := by
  simp [stores]

omit [DecidableEq ι] in
theorem stores_stored : stores (log ++ [.stored t]) = stores log + 1 := by
  simp [stores]

theorem watched_append (e : Event ι) : watched (log ++ [e]) = watch (watched log) e := by
  simp [watched]

theorem apart_loaded : Apart (log ++ [.loaded t]) ↔ Apart log := by
  rw [Apart, watched_append]
  rfl

theorem apart_stored : Apart (log ++ [.stored t]) ↔ Apart log ∧ t ∈ (watched log).1 := by
  simp [Apart, watched_append, watch]

theorem inv_start : Inv (start : State ι) [] where
  apart := fun _ => ⟨rfl, fun _ _ hv => nomatch hv⟩
  behind := fun h => absurd rfl h

/-- The register of a thread after a move of `t` is as before, or it is `t`'s. -/
theorem pending_goto {t' : ι} {v : ℤ} (h : ((s.goto t q).pc t').pending = some v) :
    t' = t ∧ q.pending = some v ∨ t' ≠ t ∧ (s.pc t').pending = some v := by
  by_cases ht : t' = t
  · subst ht
    exact .inl ⟨rfl, by simpa [State.goto] using h⟩
  · exact .inr ⟨ht, by simpa [State.goto, ht] using h⟩

/-- A move of `t` that loads and stores nothing. -/
theorem inv_goto (h : Inv s log) (hq : ∀ v, q.pending = some v → (s.pc t).pending = some v) :
    Inv (s.goto t q) log := by
  have hpending : ∀ t' v, ((s.goto t q).pc t').pending = some v →
      (s.pc t').pending = some v := fun t' v hv => by
    rcases pending_goto hv with ⟨rfl, hnew⟩ | ⟨-, hold⟩
    · exact hq v hnew
    · exact hold
  constructor
  · intro hapart
    obtain ⟨hcount, hregs⟩ := h.apart hapart
    exact ⟨hcount, fun t' v hv => hregs t' v (hpending t' v hv)⟩
  · intro hapart
    obtain ⟨hcount, hregs⟩ := h.behind hapart
    exact ⟨hcount, fun t' v hv => hregs t' v (hpending t' v hv)⟩

theorem inv_loaded (h : Inv s log) (i : ℕ) :
    Inv (s.goto t (.add i s.counter)) (log ++ [.loaded t]) := by
  constructor
  · intro hapart
    obtain ⟨hcount, hregs⟩ := h.apart (apart_loaded.1 hapart)
    rw [stores_loaded, watched_append]
    refine ⟨hcount, fun t' v hv => ?_⟩
    rcases pending_goto hv with ⟨rfl, hnew⟩ | ⟨hne, hold⟩
    · obtain rfl : s.counter = v := Option.some.inj hnew
      simp [watch, hcount]
    · simpa [watch, hne] using hregs t' v hold
  · intro hapart
    obtain ⟨hcount, hregs⟩ := h.behind fun h' => hapart (apart_loaded.2 h')
    rw [stores_loaded]
    refine ⟨hcount, fun t' v hv => ?_⟩
    rcases pending_goto hv with ⟨-, hnew⟩ | ⟨-, hold⟩
    · obtain rfl : s.counter = v := Option.some.inj hnew
      exact hcount
    · exact hregs t' v hold

theorem inv_stored {i : ℕ} {sum : ℤ} (h : Inv s log) (hpc : s.pc t = .store i sum) :
    Inv ({ s with counter := sum }.goto t (.test (i + 1))) (log ++ [.stored t]) := by
  have hpending : (s.pc t).pending = some (sum - 1) := by
    rw [hpc]
    rfl
  constructor
  · intro hapart
    obtain ⟨hapart, hmem⟩ := apart_stored.1 hapart
    obtain ⟨-, hregs⟩ := h.apart hapart
    have hfresh : sum - 1 = stores log := (hregs t _ hpending).2.2 hmem
    rw [stores_stored, watched_append]
    refine ⟨by simp; omega, fun t' v hv => ?_⟩
    rcases pending_goto hv with ⟨-, hnew⟩ | ⟨-, hold⟩
    · cases hnew
    · have hle := (hregs t' v hold).1
      simp only [watch, List.not_mem_nil, iff_false, Nat.cast_add, Nat.cast_one]
      omega
  · intro hapart
    rw [stores_stored]
    have hlt : sum - 1 < stores log ∧ ∀ t' v, (s.pc t').pending = some v →
        v ≤ stores log := by
      by_cases hlog : Apart log
      · obtain ⟨-, hregs⟩ := h.apart hlog
        have hmem : t ∉ (watched log).1 := fun hmem => hapart (apart_stored.2 ⟨hlog, hmem⟩)
        have hv := hregs t _ hpending
        exact ⟨lt_of_le_of_ne hv.1 fun he => hmem (hv.2.1 he), fun t' v hv => (hregs t' v hv).1⟩
      · obtain ⟨-, hregs⟩ := h.behind hlog
        exact ⟨hregs t _ hpending, fun t' v hv => (hregs t' v hv).le⟩
    refine ⟨by simp; omega, fun t' v hv => ?_⟩
    rcases pending_goto hv with ⟨-, hnew⟩ | ⟨-, hold⟩
    · cases hnew
    · have hle := hlt.2 t' v hold
      simp only [Nat.cast_add, Nat.cast_one]
      omega

theorem inv_step (h : Inv s log) (t : ι) :
    Inv (step n s t).1 (log ++ (step n s t).2) := by
  cases hpc : s.pc t with
  | test i =>
    simp only [step, hpc, List.append_nil]
    refine inv_goto h fun v hv => ?_
    split_ifs at hv <;> cases hv
  | load i =>
    simp only [step, hpc]
    exact inv_loaded h i
  | add i loaded =>
    simp only [step, hpc, List.append_nil]
    exact inv_goto h fun v hv => by simpa [hpc, Pc.pending] using hv
  | store i sum =>
    simp only [step, hpc]
    exact inv_stored h hpc
  | done => simpa only [step, hpc, List.append_nil] using h

theorem inv_run (schedule : List ι) :
    Inv (exec (step n) start schedule) (trace (step n) start schedule) := by
  have hrun := invariant_trace (fun s log => Inv s log)
    (fun s t log h => inv_step (n := n) h t) inv_start schedule
  simpa using hrun

theorem counter_le_stores (n : ℕ) (schedule : List ι) :
    (exec (step n) start schedule).counter ≤ stores (trace (step n) start schedule) := by
  have hinv := inv_run (n := n) schedule
  by_cases hapart : Apart (trace (step n) start schedule)
  · exact (hinv.apart hapart).1.le
  · exact (hinv.behind hapart).1.le

/-- In any number of threads and at any moment, `counter` has every increment that was
stored if and only if none of them came between the load and the store of another. -/
theorem counter_eq_stores_iff (n : ℕ) (schedule : List ι) :
    (exec (step n) start schedule).counter ≤ stores (trace (step n) start schedule) ∧
      ((exec (step n) start schedule).counter = stores (trace (step n) start schedule) ↔
        Apart (trace (step n) start schedule)) := by
  refine ⟨counter_le_stores n schedule, ?_⟩
  have hinv := inv_run (n := n) schedule
  by_cases hapart : Apart (trace (step n) start schedule)
  · exact iff_of_true (hinv.apart hapart).1 hapart
  · exact iff_of_false (hinv.behind hapart).1.ne hapart

end Lost

/-! ## How much can be lost -/

/-- Each thread has stored as often as its position says. Once something is stored,
`counter` is at least 1, and so is what a thread loads after a store of its own; so the
last store of all, which is the last one of its thread, leaves at least 2 if the loop
has two turns. -/
structure Kept {ι : Type*} [DecidableEq ι] (n : ℕ) (s : State ι) (log : List (Event ι)) :
    Prop where
  inLoop : ∀ t, (s.pc t).InLoop n
  count : ∀ t, log.count (.stored t) = (s.pc t).completed n
  counter : 0 ≤ s.counter ∧ (0 < stores log → 1 ≤ s.counter)
  pending : ∀ t v, (s.pc t).pending = some v →
    0 ≤ v ∧ (0 < (s.pc t).completed n → 1 ≤ v)
  last : (∀ t, (s.pc t).completed n = n) → ((min n 2 : ℕ) : ℤ) ≤ s.counter

section Kept
variable {ι : Type*} [DecidableEq ι] {n : ℕ} {s : State ι} {t : ι} {q : Pc}
  {log : List (Event ι)}

theorem count_le_stores (log : List (Event ι)) (t : ι) : log.count (.stored t) ≤ stores log := by
  refine List.countP_mono_left fun e _ he => ?_
  obtain rfl : e = .stored t := by simpa using he
  rfl

theorem completed_goto (hq : q.completed n = (s.pc t).completed n) (t' : ι) :
    ((s.goto t q).pc t').completed n = (s.pc t').completed n := by
  by_cases ht : t' = t
  · subst ht
    simpa [State.goto] using hq
  · simp [State.goto, ht]

theorem inLoop_goto (h : ∀ t, (s.pc t).InLoop n) (hq : q.InLoop n) (t' : ι) :
    ((s.goto t q).pc t').InLoop n := by
  by_cases ht : t' = t
  · subst ht
    simpa [State.goto] using hq
  · simpa [State.goto, ht] using h t'

theorem kept_start [Nonempty ι] : Kept n (start : State ι) [] where
  inLoop := fun _ => Nat.zero_le n
  count := fun _ => rfl
  counter := ⟨le_refl 0, fun h => absurd h (lt_irrefl 0)⟩
  pending := fun _ _ hv => nomatch hv
  last := fun hall => by
    obtain rfl : 0 = n := hall (Classical.arbitrary ι)
    exact le_refl 0

/-- A move of `t` that stores nothing. -/
theorem kept_goto {log' : List (Event ι)} (h : Kept n s log) (hstores : stores log' = stores log)
    (hcount : ∀ t, log'.count (.stored t) = log.count (.stored t)) (hloop : q.InLoop n)
    (hcompleted : q.completed n = (s.pc t).completed n)
    (hq : ∀ v, q.pending = some v → 0 ≤ v ∧ (0 < q.completed n → 1 ≤ v)) :
    Kept n (s.goto t q) log' where
  inLoop := inLoop_goto h.inLoop hloop
  count := fun t' => by rw [hcount, h.count, completed_goto hcompleted]
  counter := by
    rw [hstores]
    exact h.counter
  pending := fun t' v hv => by
    rcases pending_goto hv with ⟨rfl, hnew⟩ | ⟨-, hold⟩
    · rw [completed_goto hcompleted, ← hcompleted]
      exact hq v hnew
    · rw [completed_goto hcompleted]
      exact h.pending t' v hold
  last := fun hall => h.last fun t' => by rw [← completed_goto hcompleted, hall t']

theorem kept_stored {i : ℕ} {sum : ℤ} (h : Kept n s log) (hpc : s.pc t = .store i sum) :
    Kept n ({ s with counter := sum }.goto t (.test (i + 1))) (log ++ [.stored t]) := by
  have hloop := h.inLoop t
  have hcount := h.count t
  have hpending := h.pending t (sum - 1) (by rw [hpc]; rfl)
  rw [hpc] at hloop hcount hpending
  simp only [Pc.InLoop, Pc.completed] at hloop hcount hpending
  have hsum : 1 ≤ sum ∧ (0 < i → 2 ≤ sum) := by
    omega
  constructor
  · exact inLoop_goto h.inLoop hloop
  · intro t'
    by_cases ht : t' = t
    · subst ht
      simp [State.goto, Pc.completed, hcount]
    · simpa [State.goto, ht, Ne.symm ht] using h.count t'
  · exact ⟨by simp; omega, fun _ => hsum.1⟩
  · intro t' v hv
    rcases pending_goto hv with ⟨-, hnew⟩ | ⟨hne, hold⟩
    · cases hnew
    · simpa [State.goto, hne] using h.pending t' v hold
  · intro hall
    have hlast : i + 1 = n := by simpa [State.goto, Pc.completed] using hall t
    simp only [goto_counter]
    omega

theorem kept_step (h : Kept n s log) (t : ι) :
    Kept n (step n s t).1 (log ++ (step n s t).2) := by
  have hloop := h.inLoop t
  cases hpc : s.pc t with
  | test i =>
    rw [hpc] at hloop
    simp only [step, hpc, List.append_nil]
    by_cases hi : i < n
    · rw [if_pos hi]
      exact kept_goto h rfl (fun _ => rfl) hi (by rw [hpc]; rfl) fun v hv => nomatch hv
    · have hn : n = i := le_antisymm (not_lt.1 hi) hloop
      rw [if_neg hi]
      exact kept_goto h rfl (fun _ => rfl) trivial (by rw [hpc]; exact hn) fun v hv => nomatch hv
  | load i =>
    rw [hpc] at hloop
    simp only [step, hpc]
    refine kept_goto h stores_loaded (fun t' => by simp) hloop (by rw [hpc]; rfl) fun v hv => ?_
    obtain rfl : s.counter = v := Option.some.inj hv
    refine ⟨h.counter.1, fun hi => h.counter.2 ?_⟩
    have hcount := h.count t
    rw [hpc] at hcount
    have hle := count_le_stores log t
    simp only [Pc.completed] at hcount hi
    omega
  | add i loaded =>
    rw [hpc] at hloop
    simp only [step, hpc, List.append_nil]
    refine kept_goto h rfl (fun _ => rfl) hloop (by rw [hpc]; rfl) fun v hv => ?_
    have hpending := h.pending t v (by simpa [hpc, Pc.pending] using hv)
    simpa [hpc, Pc.completed] using hpending
  | store i sum =>
    simp only [step, hpc]
    exact kept_stored h hpc
  | done => simpa only [step, hpc, List.append_nil] using h

theorem kept_run [Nonempty ι] (schedule : List ι) :
    Kept n (exec (step n) start schedule) (trace (step n) start schedule) := by
  have hrun := invariant_trace (fun s log => Kept n s log)
    (fun s t log h => kept_step (n := n) h t) kept_start schedule
  simpa using hrun

end Kept

/-! ## Runs to a wanted end -/

section Leads
variable {ι : Type*} [DecidableEq ι] {n : ℕ} {s s' s'' : State ι} {t : ι}

/-- Some schedule brings the threads from one state to the other. -/
def Leads (n : ℕ) (s s' : State ι) : Prop := ∃ schedule, exec (step n) s schedule = s'

theorem Leads.trans (h : Leads n s s') (h' : Leads n s' s'') : Leads n s s'' := by
  obtain ⟨schedule, rfl⟩ := h
  obtain ⟨schedule', rfl⟩ := h'
  exact ⟨schedule ++ schedule', exec_append s schedule schedule'⟩

theorem leads_load {i : ℕ} (hpc : s.pc t = .test i) (hi : i < n) :
    Leads n s (s.goto t (.add i s.counter)) := by
  refine ⟨[t, t], ?_⟩
  simp [step, hpc, hi, State.goto]

theorem leads_store {i : ℕ} {loaded : ℤ} (hpc : s.pc t = .add i loaded) :
    Leads n s ({ s with counter := loaded + 1 }.goto t (.test (i + 1))) := by
  refine ⟨[t, t], ?_⟩
  simp [step, hpc, State.goto]

theorem leads_done (hpc : s.pc t = .test n) : Leads n s (s.goto t .done) := by
  refine ⟨[t], ?_⟩
  simp [step, hpc]

/-- A thread that runs alone for `k` turns of its loop. -/
theorem leads_turns {i : ℕ} (k : ℕ) (hpc : s.pc t = .test i) (hi : i + k ≤ n) :
    Leads n s ({ s with counter := s.counter + k }.goto t (.test (i + k))) := by
  induction k generalizing s i with
  | zero =>
    refine ⟨[], ?_⟩
    simp [State.goto, ← hpc]
  | succ k ih =>
    have hload : Leads n s (s.goto t (.add i s.counter)) := leads_load hpc (by omega)
    have hstore := hload.trans (leads_store (t := t) (i := i) (by simp [State.goto]; rfl))
    have hturns := hstore.trans (ih (i := i + 1) (by simp [State.goto]) (by omega))
    have hcounter : s.counter + 1 + k = s.counter + (k + 1 : ℕ) := by
      omega
    simpa [State.goto, hcounter, Nat.add_assoc, Nat.add_comm 1] using hturns

end Leads

/-! ## The two threads -/

inductive Thread
  | t1
  | t2
  deriving DecidableEq

instance : Nonempty Thread := ⟨.t1⟩

def Thread.other : Thread → Thread
  | .t1 => .t2
  | .t2 => .t1

/-- The state in which `t` stands at `p` and the other thread at `q`. -/
def pair (t : Thread) (p q : Pc) (counter : ℤ) : State Thread :=
  ⟨fun t' => if t' = t then p else q, counter⟩

section Outcomes
variable {n i : ℕ} {t : Thread} {p q : Pc} {c : ℤ}

theorem pair_other : pair t.other p q c = pair t q p c := by
  simp only [pair, State.mk.injEq, and_true]
  funext t'
  cases t <;> cases t' <;> rfl

theorem pair_goto (p p' : Pc) : (pair t p q c).goto t p' = pair t p' q c := by
  simp only [pair, State.goto, State.mk.injEq, and_true]
  funext t'
  by_cases ht : t' = t <;> simp [ht]

theorem pair_pc : (pair t p q c).pc t = p := if_pos rfl

theorem pair_load (hi : i < n) : Leads n (pair t (.test i) q c) (pair t (.add i c) q c) := by
  rw [← pair_goto (.test i) (.add i c)]
  exact leads_load pair_pc hi

theorem pair_store {loaded : ℤ} :
    Leads n (pair t (.add i loaded) q c) (pair t (.test (i + 1)) q (loaded + 1)) := by
  rw [← pair_goto (.add i loaded) (.test (i + 1))]
  exact leads_store pair_pc

theorem pair_turns (k : ℕ) (hi : i + k ≤ n) :
    Leads n (pair t (.test i) q c) (pair t (.test (i + k)) q (c + k)) := by
  rw [← pair_goto (.test i) (.test (i + k))]
  exact leads_turns k pair_pc hi

theorem pair_done : Leads n (pair t (.test n) q c) (pair t .done q c) := by
  rw [← pair_goto (.test n) .done]
  exact leads_done pair_pc

/-- Both threads are done, with `v` in `counter`. -/
def Ends (n : ℕ) (v : ℤ) : Prop := Leads n start (pair .t1 .done .done v)

theorem ends_of_leads {v : ℤ} (h : Leads n start (pair t (.test n) (.test n) v)) : Ends n v := by
  have hfirst := h.trans pair_done
  rw [← pair_other] at hfirst
  have hboth := hfirst.trans pair_done
  cases t with
  | t1 => rwa [pair_other] at hboth
  | t2 => exact hboth

theorem start_eq (t : Thread) : start = pair t (.test 0) (.test 0) 0 := by
  simp [start, pair]

/-- One thread holds its first load while the other makes `j` turns, all of which its
store undoes. -/
theorem ends_undone {j : ℕ} (hn : 0 < n) (hj : j ≤ n) : Ends n (2 * n - j) := by
  have hload : Leads n start (pair .t1 (.add 0 0) (.test 0) 0) := by
    rw [start_eq .t1]
    exact pair_load hn
  rw [← pair_other] at hload
  have hother := hload.trans (pair_turns j (by omega))
  rw [pair_other] at hother
  have hown := (hother.trans pair_store).trans (pair_turns (n - 1) (by omega))
  rw [← pair_other] at hown
  have hrest := hown.trans (pair_turns (n - j) (by omega))
  have hfirst : 0 + j + (n - j) = n := by
    omega
  have hsecond : 0 + 1 + (n - 1) = n := by
    omega
  have hcounter : (0 : ℤ) + 1 + (n - 1 : ℕ) + (n - j : ℕ) = 2 * n - j := by
    omega
  rw [hfirst, hsecond, hcounter] at hrest
  exact ends_of_leads hrest

/-- One thread loads before all but the last turn of the other, and the other loads for
its last turn after only `k` more turns of the first. -/
theorem ends_low {k : ℕ} (hk : k < n) : Ends n (2 + k) := by
  have hload : Leads n start (pair .t1 (.add 0 0) (.test 0) 0) := by
    rw [start_eq .t1]
    exact pair_load (by omega)
  rw [← pair_other] at hload
  have hother := hload.trans (pair_turns (n - 1) (by omega))
  rw [pair_other] at hother
  have hown := (hother.trans pair_store).trans (pair_turns k (by omega))
  rw [← pair_other] at hown
  have hlast := hown.trans (pair_load (by omega))
  rw [pair_other] at hlast
  have hturns := hlast.trans (pair_turns (n - 1 - k) (by omega))
  rw [← pair_other] at hturns
  have hstore := hturns.trans pair_store
  have hfirst : 0 + (n - 1) + 1 = n := by
    omega
  have hsecond : 0 + 1 + k + (n - 1 - k) = n := by
    omega
  have hcounter : (0 : ℤ) + 1 + k + 1 = 2 + k := by
    omega
  rw [hfirst, hsecond, hcounter] at hstore
  exact ends_of_leads hstore

theorem exists_ends {v : ℤ} (hlow : ((min n 2 : ℕ) : ℤ) ≤ v) (hhigh : v ≤ 2 * n) : Ends n v := by
  by_cases hn : n = 0
  · subst hn
    obtain rfl : v = 0 := by omega
    refine ends_of_leads (t := .t1) ⟨[], ?_⟩
    exact start_eq .t1
  · by_cases hv : v < n
    · obtain ⟨k, rfl⟩ : ∃ k : ℕ, v = 2 + k := ⟨(v - 2).toNat, by omega⟩
      exact ends_low (by omega)
    · obtain ⟨j, rfl⟩ : ∃ j : ℕ, v = 2 * n - j := ⟨(2 * n - v).toNat, by omega⟩
      exact ends_undone (by omega) (by omega)

theorem stores_eq_count (log : List (Event Thread)) :
    stores log = log.count (.stored .t1) + log.count (.stored .t2) := by
  induction log with
  | nil => rfl
  | cons e log ih =>
    simp only [stores] at ih ⊢
    cases e with
    | loaded t => simp [ih]
    | stored t => cases t <;> simp [ih] <;> omega

/-- When both threads are done, all of their increments have been stored. -/
theorem stores_of_done {schedule : List Thread}
    (h : ∀ t, (exec (step n) start schedule).pc t = .done) :
    stores (trace (step n) start schedule) = 2 * n := by
  have hcount : ∀ t, (trace (step n) start schedule).count (.stored t) = n := fun t => by
    rw [(kept_run schedule).count t, h t]
    rfl
  rw [stores_eq_count, hcount, hcount]
  omega

end Outcomes

/-- With any number `n` of turns in each loop, the results that the program can print are
exactly those from 2 (from `n` if it is less) to twice `n`. -/
theorem race_outcomes (n : ℕ) (v : ℤ) :
    (∃ schedule : List Thread, (∀ t, (exec (step n) start schedule).pc t = .done) ∧
      (exec (step n) start schedule).counter = v) ↔ ((min n 2 : ℕ) : ℤ) ≤ v ∧ v ≤ 2 * n := by
  constructor
  · rintro ⟨schedule, hdone, rfl⟩
    constructor
    · refine (kept_run schedule).last fun t => ?_
      rw [hdone t]
      rfl
    · have hle := counter_le_stores n schedule
      rw [stores_of_done hdone] at hle
      exact_mod_cast hle
  · rintro ⟨hlow, hhigh⟩
    obtain ⟨schedule, hend⟩ := exists_ends hlow hhigh
    refine ⟨schedule, fun t => ?_, ?_⟩
    · rw [hend]
      cases t <;> rfl
    · rw [hend]
      rfl

end AcademyLab.Race
