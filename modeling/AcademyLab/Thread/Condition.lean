import AcademyLab.Locks
import AcademyLab.Machine
import Mathlib.Algebra.Order.Ring.Int

/-!
# The producer and the consumer with a condition variable

`producer` and `consumer` of `lab_4.c`. A step is one call on the mutex or the
condition variable, one load or store of `counter`, or a spurious wake-up.
`pthread_cond_wait` unlocks and blocks at once; after the wake-up it has to lock
the mutex again, which others may hold. A call that has to wait leaves everything
as it is.
-/
namespace AcademyLab.Condition
open Locks Machine

inductive Mutex
  | mutex
  deriving DecidableEq

inductive Thread
  | producer
  | consumer
  deriving DecidableEq

/-- Where `producer` stands: before the lock, the load and the store of
`counter += 1`, the load of `printf`, the signal and the unlock. -/
inductive ProducerPc
  | lock
  | load
  | store (loaded : ℤ)
  | print
  | signal
  | unlock
  deriving DecidableEq

/-- Where `consumer` stands. In `pthread_cond_wait` it blocks first, and is then
`woken` but without the mutex. -/
inductive ConsumerPc
  | lock
  | test
  | condWait
  | waiting
  | woken
  | load
  | store (loaded : ℤ)
  | print
  | unlock
  deriving DecidableEq

structure State where
  owner : Mutex → Option Thread
  producer : ProducerPc
  consumer : ConsumerPc
  counter : ℤ

def start : State := ⟨fun _ => none, .lock, .lock, 0⟩

/-- A step of a thread, or a wake-up that nobody signalled. -/
inductive Input
  | producer
  | consumer
  | spurious

inductive Event
  | produced
  | consumed
  | print (t : Thread) (counter : ℤ)
  deriving DecidableEq

/-- A wake-up, for whoever waits. -/
def ConsumerPc.wake : ConsumerPc → ConsumerPc
  | .waiting => .woken
  | pc => pc

def produce (s : State) : State × List Event :=
  match s.producer with
  | .lock =>
    match lock s.owner .producer .mutex with
    | some owner => ({ s with owner := owner, producer := .load }, [])
    | none => (s, [])
  | .load => ({ s with producer := .store s.counter }, [])
  | .store loaded => ({ s with counter := loaded + 1, producer := .print }, [.produced])
  | .print => ({ s with producer := .signal }, [.print .producer s.counter])
  | .signal => ({ s with consumer := s.consumer.wake, producer := .unlock }, [])
  | .unlock => ({ s with owner := unlock s.owner .mutex, producer := .lock }, [])

def consume (s : State) : State × List Event :=
  match s.consumer with
  | .lock | .woken =>
    match lock s.owner .consumer .mutex with
    | some owner => ({ s with owner := owner, consumer := .test }, [])
    | none => (s, [])
  | .test => ({ s with consumer := if s.counter < 4 then .condWait else .load }, [])
  | .condWait => ({ s with owner := unlock s.owner .mutex, consumer := .waiting }, [])
  | .waiting => (s, [])
  | .load => ({ s with consumer := .store s.counter }, [])
  | .store loaded => ({ s with counter := loaded - 4, consumer := .print }, [.consumed])
  | .print => ({ s with consumer := .unlock }, [.print .consumer s.counter])
  | .unlock => ({ s with owner := unlock s.owner .mutex, consumer := .lock }, [])

def step (s : State) : Input → State × List Event
  | .producer => produce s
  | .consumer => consume s
  | .spurious => ({ s with consumer := s.consumer.wake }, [])

/-- The increments that were stored. -/
def produced (log : List Event) : ℕ := log.count .produced

/-- The subtractions that were stored. -/
def consumed (log : List Event) : ℕ := log.count .consumed

/-! ## What a position says -/

def ProducerPc.Holds : ProducerPc → Prop
  | .lock => False
  | .load | .store _ | .print | .signal | .unlock => True

def ConsumerPc.Holds : ConsumerPc → Prop
  | .lock | .waiting | .woken => False
  | .test | .condWait | .load | .store _ | .print | .unlock => True

def State.holds (s : State) : Thread → Mutex → Prop
  | .producer, _ => s.producer.Holds
  | .consumer, _ => s.consumer.Holds

/-- What `producer` knows of the counter. -/
def ProducerPc.Knows (counter : ℤ) : ProducerPc → Prop
  | .store loaded => loaded = counter
  | _ => True

/-- What `consumer` knows of the counter, from its test on. -/
def ConsumerPc.Knows (counter : ℤ) : ConsumerPc → Prop
  | .condWait => counter < 4
  | .load => 4 ≤ counter
  | .store loaded => loaded = counter ∧ 4 ≤ counter
  | _ => True

/-- The wake-up for an increment is still to come. -/
def ProducerPc.Signals : ProducerPc → Prop
  | .print | .signal => True
  | _ => False

/-- In `counter -= 4`. -/
def ConsumerPc.Subtracts : ConsumerPc → Prop
  | .load | .store _ => True
  | _ => False

section Positions
variable {counter counter' : ℤ} {p : ProducerPc} {c : ConsumerPc}

/-- What a thread knows it knows because of the mutex. -/
theorem ProducerPc.Knows.of_not_holds (h : ¬ p.Holds) : p.Knows counter := by
  cases p <;> first | trivial | exact absurd trivial h

theorem ConsumerPc.Knows.of_not_holds (h : ¬ c.Holds) : c.Knows counter := by
  cases c <;> first | trivial | exact absurd trivial h

theorem ConsumerPc.Knows.enough (h : c.Knows counter) (hc : c.Subtracts) : 4 ≤ counter := by
  cases c <;> first | exact hc.elim | exact h | exact h.2

theorem ConsumerPc.Subtracts.holds (h : c.Subtracts) : c.Holds := by
  cases c <;> first | exact h.elim | trivial

theorem ProducerPc.Signals.holds (h : p.Signals) : p.Holds := by
  cases p <;> first | exact h.elim | trivial

@[simp] theorem wake_holds : c.wake.Holds ↔ c.Holds := by
  cases c <;> rfl

@[simp] theorem wake_knows : c.wake.Knows counter ↔ c.Knows counter := by
  cases c <;> rfl

@[simp] theorem wake_ne_waiting : c.wake ≠ .waiting := by
  cases c <;> simp [ConsumerPc.wake]

end Positions

/-! ## The invariant -/

/-- The mutex and the positions agree, each thread is right about the counter, and
whoever waits with enough items is about to be woken. -/
structure Inv (s : State) (log : List Event) : Prop where
  owned : Owned s.holds s.owner
  producer : s.producer.Knows s.counter
  consumer : s.consumer.Knows s.counter
  waiting : s.consumer = .waiting → s.counter < 4 ∨ s.producer.Signals
  nonneg : 0 ≤ s.counter
  count : s.counter = produced log - 4 * consumed log

section Invariant
variable {s : State} {log : List Event}

theorem inv_start : Inv start [] where
  owned := by rintro (_ | _) m <;> simp [start, State.holds, ProducerPc.Holds, ConsumerPc.Holds]
  producer := trivial
  consumer := trivial
  waiting := fun h => nomatch h
  nonneg := le_rfl
  count := rfl

/-- While `producer` holds the mutex, `consumer` does not. -/
theorem Inv.consumer_out (h : Inv s log) (hp : s.producer.Holds) : ¬ s.consumer.Holds := by
  intro hc
  have hp' : s.holds .producer .mutex := hp
  have hc' : s.holds .consumer .mutex := hc
  cases h.owned.exclusive hp' hc'

theorem Inv.producer_out (h : Inv s log) (hc : s.consumer.Holds) : ¬ s.producer.Holds :=
  fun hp => h.consumer_out hp hc

/-- What is printed is not counted. -/
@[simp] theorem produced_append {es : List Event} :
    produced (log ++ es) = produced log + es.count .produced := List.count_append ..

@[simp] theorem consumed_append {es : List Event} :
    consumed (log ++ es) = consumed log + es.count .consumed := List.count_append ..

/-- A step after which the same threads hold the mutex. -/
theorem owned_same {s' : State} (h : Owned s.holds s.owner) (howner : s'.owner = s.owner)
    (hp : s'.producer.Holds ↔ s.producer.Holds) (hc : s'.consumer.Holds ↔ s.consumer.Holds) :
    Owned s'.holds s'.owner := by
  rw [howner]
  refine h.congr fun t m => ?_
  cases t with
  | producer => exact hp
  | consumer => exact hc

theorem inv_wake (h : Inv s log) : Inv { s with consumer := s.consumer.wake } log where
  owned := owned_same h.owned rfl Iff.rfl wake_holds
  producer := h.producer
  consumer := wake_knows.2 h.consumer
  waiting := fun hw => absurd hw wake_ne_waiting
  nonneg := h.nonneg
  count := h.count

section Moves
variable {owner : Mutex → Option Thread} {p : ProducerPc} {c : ConsumerPc} {log' : List Event}

/-- A move of `producer` that leaves the counter. -/
theorem inv_producer (h : Inv s log) (howned : Owned (State.holds ⟨owner, p, s.consumer, s.counter⟩)
    owner) (hknows : p.Knows s.counter) (hsignals : s.producer.Signals → p.Signals)
    (hcount : s.counter = produced log' - 4 * consumed log') :
    Inv ⟨owner, p, s.consumer, s.counter⟩ log' where
  owned := howned
  producer := hknows
  consumer := h.consumer
  waiting := fun hw => (h.waiting hw).imp_right hsignals
  nonneg := h.nonneg
  count := hcount

/-- A move of `consumer` that leaves the counter. -/
theorem inv_consumer (h : Inv s log) (howned : Owned (State.holds ⟨owner, s.producer, c, s.counter⟩)
    owner) (hknows : c.Knows s.counter) (hwaiting : c = .waiting → s.counter < 4)
    (hcount : s.counter = produced log' - 4 * consumed log') :
    Inv ⟨owner, s.producer, c, s.counter⟩ log' where
  owned := howned
  producer := h.producer
  consumer := hknows
  waiting := fun hw => Or.inl (hwaiting hw)
  nonneg := h.nonneg
  count := hcount

end Moves

theorem inv_produce (h : Inv s log) : Inv (produce s).1 (log ++ (produce s).2) := by
  cases hpc : s.producer with
  | lock =>
    cases howner : s.owner .mutex with
    | none =>
      simp only [produce, hpc, lock_free howner, List.append_nil]
      refine inv_producer h (h.owned.lock howner ?_) trivial ?_ h.count
      · rintro (_ | _) ⟨⟩ <;> simp [State.holds, ProducerPc.Holds]
      · simp [hpc, ProducerPc.Signals]
    | some t => simpa only [produce, hpc, lock_taken howner, List.append_nil] using h
  | load =>
    simp only [produce, hpc, List.append_nil]
    refine inv_producer h (owned_same h.owned rfl ?_ Iff.rfl) rfl ?_ h.count
    · simp [hpc, ProducerPc.Holds]
    · simp [hpc, ProducerPc.Signals]
  | store loaded =>
    have hloaded : loaded = s.counter := by simpa [hpc, ProducerPc.Knows] using h.producer
    have hout : ¬ s.consumer.Holds := h.consumer_out (by rw [hpc]; trivial)
    simp only [produce, hpc, hloaded]
    refine ⟨owned_same h.owned rfl ?_ Iff.rfl, trivial, .of_not_holds hout, fun _ => Or.inr trivial,
      ?_, ?_⟩
    · simp [hpc, ProducerPc.Holds]
    · have := h.nonneg
      show 0 ≤ s.counter + 1
      omega
    · have := h.count
      simp
      omega
  | print =>
    simp only [produce, hpc]
    refine inv_producer h (owned_same h.owned rfl ?_ Iff.rfl) trivial (fun _ => trivial) ?_
    · simp [hpc, ProducerPc.Holds]
    · simpa using h.count
  | signal =>
    simp only [produce, hpc, List.append_nil]
    refine ⟨owned_same h.owned rfl ?_ wake_holds, trivial, wake_knows.2 h.consumer,
      fun hw => absurd hw wake_ne_waiting, h.nonneg, h.count⟩
    simp [hpc, ProducerPc.Holds]
  | unlock =>
    simp only [produce, hpc, List.append_nil]
    have hholds : s.holds .producer .mutex := by
      rw [State.holds, hpc]
      trivial
    refine inv_producer h (h.owned.unlock hholds ?_) trivial ?_ h.count
    · rintro (_ | _) ⟨⟩ <;> simp [State.holds, ProducerPc.Holds]
    · simp [hpc, ProducerPc.Signals]

/-- At the first lock as well as after a wake-up. -/
theorem inv_lock (h : Inv s log) (howner : s.owner .mutex = none) :
    Inv { s with owner := Function.update s.owner .mutex (some .consumer), consumer := .test }
      log := by
  refine inv_consumer h (h.owned.lock howner ?_) trivial (fun hw => nomatch hw) h.count
  rintro (_ | _) ⟨⟩ <;> simp [State.holds, ConsumerPc.Holds]

theorem inv_consume (h : Inv s log) : Inv (consume s).1 (log ++ (consume s).2) := by
  have hknows := h.consumer
  cases hpc : s.consumer with
  | lock =>
    cases howner : s.owner .mutex with
    | none => simpa only [consume, hpc, lock_free howner, List.append_nil]
        using inv_lock h howner
    | some t => simpa only [consume, hpc, lock_taken howner, List.append_nil] using h
  | woken =>
    cases howner : s.owner .mutex with
    | none => simpa only [consume, hpc, lock_free howner, List.append_nil]
        using inv_lock h howner
    | some t => simpa only [consume, hpc, lock_taken howner, List.append_nil] using h
  | test =>
    simp only [consume, hpc, List.append_nil]
    by_cases hfew : s.counter < 4
    · rw [if_pos hfew]
      refine inv_consumer h (owned_same h.owned rfl Iff.rfl ?_) hfew (fun hw => nomatch hw) h.count
      simp [hpc, ConsumerPc.Holds]
    · rw [if_neg hfew]
      refine inv_consumer h (owned_same h.owned rfl Iff.rfl ?_) (not_lt.1 hfew)
        (fun hw => nomatch hw) h.count
      simp [hpc, ConsumerPc.Holds]
  | condWait =>
    -- the test still holds, because the mutex was not given back since
    rw [hpc] at hknows
    have hholds : s.holds .consumer .mutex := by
      rw [State.holds, hpc]
      trivial
    simp only [consume, hpc, List.append_nil]
    refine inv_consumer h (h.owned.unlock hholds ?_) trivial (fun _ => hknows) h.count
    rintro (_ | _) ⟨⟩ <;> simp [State.holds, ConsumerPc.Holds]
  | waiting => simpa only [consume, hpc, List.append_nil] using h
  | load =>
    rw [hpc] at hknows
    simp only [consume, hpc, List.append_nil]
    refine inv_consumer h (owned_same h.owned rfl Iff.rfl ?_) ⟨rfl, hknows⟩
      (fun hw => nomatch hw) h.count
    simp [hpc, ConsumerPc.Holds]
  | store loaded =>
    obtain ⟨hloaded, henough⟩ : loaded = s.counter ∧ 4 ≤ s.counter := by rwa [hpc] at hknows
    have hout : ¬ s.producer.Holds := h.producer_out (by rw [hpc]; trivial)
    simp only [consume, hpc, hloaded]
    refine ⟨owned_same h.owned rfl Iff.rfl ?_, .of_not_holds hout, trivial, (fun hw => nomatch hw),
      ?_, ?_⟩
    · simp [hpc, ConsumerPc.Holds]
    · show 0 ≤ s.counter - 4
      omega
    · have := h.count
      simp
      omega
  | print =>
    simp only [consume, hpc]
    refine inv_consumer h (owned_same h.owned rfl Iff.rfl ?_) trivial (fun hw => nomatch hw) ?_
    · simp [hpc, ConsumerPc.Holds]
    · simpa using h.count
  | unlock =>
    have hholds : s.holds .consumer .mutex := by
      rw [State.holds, hpc]
      trivial
    simp only [consume, hpc, List.append_nil]
    refine inv_consumer h (h.owned.unlock hholds ?_) trivial (fun hw => nomatch hw) h.count
    rintro (_ | _) ⟨⟩ <;> simp [State.holds, ConsumerPc.Holds]

theorem inv_step (i : Input) (h : Inv s log) : Inv (step s i).1 (log ++ (step s i).2) := by
  cases i with
  | producer => exact inv_produce h
  | consumer => exact inv_consume h
  | spurious => simpa only [step, List.append_nil] using inv_wake h

theorem inv_run (inputs : List Input) :
    Inv (exec step start inputs) (trace step start inputs) :=
  invariant_trace Inv (fun _ i _ h => inv_step i h) inv_start inputs

end Invariant

/-- No item is lost, nothing is taken that is not there, and nobody sleeps on
enough items. -/
theorem condition_variable (inputs : List Input) :
    let s := exec step start inputs
    let log := trace step start inputs
    (s.counter = produced log - 4 * consumed log ∧ 0 ≤ s.counter) ∧
      (s.consumer.Subtracts → 4 ≤ s.counter ∧ s.owner .mutex = some .consumer) ∧
      (s.owner .mutex = none → s.consumer = .waiting → s.counter < 4) := by
  intro s log
  have h : Inv s log := inv_run inputs
  refine ⟨⟨h.count, h.nonneg⟩, fun hsub => ⟨h.consumer.enough hsub, ?_⟩, fun hfree hwait => ?_⟩
  · exact (h.owned .consumer .mutex).1 hsub.holds
  · -- whoever is about to signal holds the mutex
    refine (h.waiting hwait).resolve_right fun hsignals => ?_
    have hheld : s.holds .producer .mutex := hsignals.holds
    exact h.owned.not_held hfree hheld

end AcademyLab.Condition
