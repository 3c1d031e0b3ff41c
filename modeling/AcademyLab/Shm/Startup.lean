import AcademyLab.Shm.Alternation
import Mathlib.Data.List.Count
import Mathlib.Data.List.Induction

/-!
# The start of the shared-memory processes

Both processes from `fork()` on. The object `/my_shm` may be left over from an
earlier run with anything in it. The calls on it succeed if it exists: only
`shm_open` without `O_CREAT` can fail, and `consumer` notices that at `mmap`.
`usleep` promises nothing about the other process.
-/
namespace AcademyLab.Shm
open Machine

/-- Where `producer` stands; its loop is the one of `lab_2.c` from `sem_wait` on. -/
inductive ProducerPc
  | shmOpen
  | ftruncate
  | mmap
  | initEmpty
  | initFull
  | storeValue
  | loop (pc : Pc)
  deriving DecidableEq

/-- Where the child stands; `opened` says that `shm_open` did not return -1. -/
inductive ConsumerPc
  | usleep
  | shmOpen
  | ftruncate (opened : Bool)
  | mmap (opened : Bool)
  | loop (pc : Pc)
  | gaveUp
  deriving DecidableEq

structure System where
  producer : ProducerPc
  consumer : ConsumerPc
  object : Option SharedData

/-- The system after `fork()`. -/
def System.start (leftover : Option SharedData) : System := ⟨.shmOpen, .usleep, leftover⟩

/-- A new object holds zeroes. -/
def zeroed : SharedData := ⟨0, 0, 0⟩

def stepProducer (maxSize : ℕ) (s : System) : System × List (Process × ℤ) :=
  match s.producer with
  | .shmOpen => ({ s with producer := .ftruncate, object := some (s.object.getD zeroed) }, [])
  | .ftruncate => ({ s with producer := .mmap }, [])
  | .mmap => ({ s with producer := .initEmpty }, [])
  | .initEmpty =>
    ({ s with producer := .initFull, object := s.object.map ({ · with semEmpty := 1 }) }, [])
  | .initFull =>
    ({ s with producer := .storeValue, object := s.object.map ({ · with semFull := 0 }) }, [])
  | .storeValue =>
    ({ s with producer := .loop .wait, object := s.object.map ({ · with value := 0 }) }, [])
  | .loop pc =>
    match s.object with
    | some d =>
      let r := Shm.producer.step maxSize pc d
      ({ s with producer := .loop r.1.1, object := some r.1.2 }, r.2.map fun v => (.producer, v))
    | none => (s, [])

def stepConsumer (maxSize : ℕ) (s : System) : System × List (Process × ℤ) :=
  match s.consumer with
  | .usleep => ({ s with consumer := .shmOpen }, [])
  | .shmOpen => ({ s with consumer := .ftruncate s.object.isSome }, [])
  | .ftruncate opened => ({ s with consumer := .mmap opened }, [])
  | .mmap true => ({ s with consumer := .loop .wait }, [])
  | .mmap false => ({ s with consumer := .gaveUp }, [])
  | .loop pc =>
    match s.object with
    | some d =>
      let r := Shm.consumer.step maxSize pc d
      ({ s with consumer := .loop r.1.1, object := some r.1.2 }, r.2.map fun v => (.consumer, v))
    | none => (s, [])
  | .gaveUp => (s, [])

def System.step (maxSize : ℕ) (s : System) : Process → System × List (Process × ℤ)
  | .producer => stepProducer maxSize s
  | .consumer => stepConsumer maxSize s

/-- Both semaphores and the value have been set. -/
def System.Initialised (s : System) : Prop := ∃ pc, s.producer = .loop pc

instance (s : System) : Decidable s.Initialised :=
  match h : s.producer with
  | .loop pc => isTrue ⟨pc, h⟩
  | .shmOpen | .ftruncate | .mmap | .initEmpty | .initFull | .storeValue =>
    isFalse fun ⟨_, h'⟩ => by simp [h] at h'

/-- The step is not a `sem_wait` of the consumer before the initialisation, and
the consumer does not give up in it. -/
def Safe (s : System) : Process → Prop
  | .producer => True
  | .consumer => (s.consumer = .loop .wait → s.Initialised) ∧ s.consumer ≠ .mmap false

instance (s : System) (p : Process) : Decidable (Safe s p) :=
  match p with
  | .producer => isTrue trivial
  | .consumer => inferInstanceAs (Decidable ((_ → _) ∧ _))

/-! ## Head starts -/

/-- How many steps the producer makes before step `k` of the consumer, if there
is such a step. -/
def headStart : ℕ → List Process → Option ℕ
  | _, [] => none
  | k, .producer :: ps => (headStart k ps).map (· + 1)
  | 0, .consumer :: _ => some 0
  | k + 1, .consumer :: ps => headStart k ps

theorem headStart_append_producer (k : ℕ) (ps : List Process) :
    headStart k (ps ++ [.producer]) = headStart k ps := by
  induction ps generalizing k with
  | nil => rfl
  | cons p ps ih =>
    cases p with
    | producer => simp [headStart, ih]
    | consumer =>
      cases k with
      | zero => rfl
      | succ k => exact ih k

theorem headStart_append_consumer (k : ℕ) (ps : List Process) :
    headStart k (ps ++ [.consumer]) =
      if ps.count .consumer = k then some (ps.count .producer) else headStart k ps := by
  induction ps generalizing k with
  | nil => cases k <;> rfl
  | cons p ps ih =>
    cases p with
    | producer =>
      simp only [List.cons_append, headStart, ih]
      by_cases h : ps.count .consumer = k
      · simp [h]
      · simp [h]
    | consumer =>
      cases k with
      | zero => simp [headStart]
      | succ k =>
        simp only [List.cons_append, headStart, ih]
        by_cases h : ps.count .consumer = k
        · simp [h]
        · simp [h]

theorem headStart_le {k m : ℕ} {ps : List Process} (h : m ∈ headStart k ps) :
    m ≤ ps.count .producer := by
  induction ps using List.reverseRecOn with
  | nil => simp [headStart] at h
  | append_singleton ps p ih =>
    cases p with
    | producer =>
      rw [headStart_append_producer] at h
      have := ih h
      simp
      omega
    | consumer =>
      rw [headStart_append_consumer] at h
      simp only [List.count_append]
      split_ifs at h
      · obtain rfl := Option.some.inj h
        omega
      · have := ih h
        omega

theorem headStart_isSome {k : ℕ} {ps : List Process} :
    (headStart k ps).isSome = true ↔ k < ps.count .consumer := by
  induction ps using List.reverseRecOn with
  | nil => simp [headStart]
  | append_singleton ps p ih =>
    cases p with
    | producer => simpa [headStart_append_producer] using ih
    | consumer =>
      rw [headStart_append_consumer]
      by_cases h : ps.count .consumer = k
      · simp [h]
      · simp only [if_neg h, ih, List.count_append, List.count_singleton_self]
        omega

/-! ## Where a schedule leads -/

/-- How many steps lead here; those of the loop are not counted. -/
def ProducerPc.rank : ProducerPc → ℕ
  | .shmOpen => 0
  | .ftruncate => 1
  | .mmap => 2
  | .initEmpty => 3
  | .initFull => 4
  | .storeValue => 5
  | .loop _ => 6

/-- How many steps lead here; those of the loop are not counted. -/
def ConsumerPc.rank : ConsumerPc → ℕ
  | .usleep => 0
  | .shmOpen => 1
  | .ftruncate _ => 2
  | .mmap _ => 3
  | .loop _ | .gaveUp => 4

/-- The outcome of `shm_open`, as far as the child has come. -/
def ConsumerPc.Opened (found : Prop) : ConsumerPc → Prop
  | .usleep | .shmOpen => True
  | .ftruncate opened | .mmap opened => opened = true ↔ found
  | .loop _ => found
  | .gaveUp => ¬ found

/-- The child's `shm_open` finds the object, left over or made by the producer. -/
def Found (leftover : Option SharedData) (ps : List Process) : Prop :=
  leftover.isSome ∨ ∃ m ∈ headStart 1 ps, 1 ≤ m

/-- What the schedule so far says about the state. -/
structure Tracks (leftover : Option SharedData) (ps : List Process) (s : System) : Prop where
  producer : s.producer.rank = min (ps.count .producer) 6
  consumer : s.consumer.rank = min (ps.count .consumer) 4
  object : s.object.isSome = true ↔ leftover.isSome = true ∨ 1 ≤ ps.count .producer
  opened : s.consumer.Opened (Found leftover ps)
  first : ps.count .consumer = 4 → s.consumer = .loop .wait ∨ s.consumer = .gaveUp

section Tracking
variable {maxSize : ℕ} {leftover : Option SharedData} {ps : List Process} {s : System}

theorem initialised_iff : s.Initialised ↔ s.producer.rank = 6 := by
  unfold System.Initialised
  cases s.producer <;> simp [ProducerPc.rank]

theorem stepProducer_rank :
    (stepProducer maxSize s).1.producer.rank = min (s.producer.rank + 1) 6 := by
  unfold stepProducer
  cases hp : s.producer with
  | loop pc => cases ho : s.object <;> simp [ProducerPc.rank, hp]
  | _ => rfl

theorem stepProducer_consumer : (stepProducer maxSize s).1.consumer = s.consumer := by
  unfold stepProducer
  cases s.producer with
  | loop pc => cases s.object <;> rfl
  | _ => rfl

theorem stepProducer_object :
    (stepProducer maxSize s).1.object.isSome = true ↔
      s.object.isSome = true ∨ s.producer.rank = 0 := by
  unfold stepProducer
  cases s.producer with
  | loop pc => cases ho : s.object <;> simp [ProducerPc.rank, ho]
  | _ => simp [ProducerPc.rank]

theorem stepConsumer_producer : (stepConsumer maxSize s).1.producer = s.producer := by
  unfold stepConsumer
  split <;> first | rfl | (cases s.object <;> rfl)

theorem stepConsumer_rank :
    (stepConsumer maxSize s).1.consumer.rank = min (s.consumer.rank + 1) 4 := by
  unfold stepConsumer
  cases hc : s.consumer with
  | mmap opened => cases opened <;> rfl
  | loop pc => cases ho : s.object <;> simp [ConsumerPc.rank, hc]
  | gaveUp => simp [ConsumerPc.rank, hc]
  | _ => rfl

theorem stepConsumer_object :
    (stepConsumer maxSize s).1.object.isSome = s.object.isSome := by
  unfold stepConsumer
  cases hc : s.consumer with
  | mmap opened => cases opened <;> rfl
  | loop pc => cases ho : s.object <;> simp [ho]
  | _ => rfl

theorem stepConsumer_opened {found found' : Prop} (h : s.consumer.Opened found)
    (hopen : s.consumer.rank = 1 → (s.object.isSome = true ↔ found'))
    (hlater : s.consumer.rank ≠ 1 → (found' ↔ found)) :
    (stepConsumer maxSize s).1.consumer.Opened found' := by
  unfold stepConsumer
  cases hc : s.consumer with
  | usleep => trivial
  | shmOpen =>
    rw [hc] at hopen
    exact hopen rfl
  | ftruncate opened =>
    rw [hc] at h hlater
    rwa [← hlater (by simp [ConsumerPc.rank])] at h
  | mmap opened =>
    rw [hc] at h hlater
    rw [← hlater (by simp [ConsumerPc.rank])] at h
    cases opened with
    | true => exact h.1 rfl
    | false => exact fun hf => Bool.noConfusion (h.2 hf)
  | loop pc =>
    rw [hc] at h hlater
    rw [← hlater (by simp [ConsumerPc.rank])] at h
    cases ho : s.object <;> simpa [hc, ConsumerPc.Opened] using h
  | gaveUp =>
    rw [hc] at h hlater
    rw [← hlater (by simp [ConsumerPc.rank])] at h
    simpa [hc] using h

theorem stepConsumer_first (h : s.consumer.rank = 3) :
    (stepConsumer maxSize s).1.consumer = .loop .wait ∨
      (stepConsumer maxSize s).1.consumer = .gaveUp := by
  unfold stepConsumer
  cases hc : s.consumer with
  | mmap opened => cases opened <;> simp
  | _ => simp [hc, ConsumerPc.rank] at h

theorem found_append_consumer (leftover : Option SharedData) (h : ps.count .consumer ≠ 1) :
    Found leftover (ps ++ [.consumer]) ↔ Found leftover ps := by
  simp [Found, headStart_append_consumer, h]

theorem tracks_start : Tracks leftover [] (System.start leftover) where
  producer := rfl
  consumer := rfl
  object := by simp [System.start]
  opened := trivial
  first := by simp

theorem Tracks.step (h : Tracks leftover ps s) (p : Process) :
    Tracks leftover (ps ++ [p]) (System.step maxSize s p).1 := by
  have hp := h.producer
  have hc := h.consumer
  cases p with
  | producer =>
    refine ⟨?_, ?_, ?_, ?_, ?_⟩ <;> simp only [System.step, stepProducer_consumer]
    · rw [stepProducer_rank, hp, List.count_append, List.count_singleton_self]
      omega
    · simpa using hc
    · rw [stepProducer_object, h.object, List.count_append, List.count_singleton_self]
      omega
    · simpa [Found, headStart_append_producer] using h.opened
    · simpa using h.first
  | consumer =>
    refine ⟨?_, ?_, ?_, ?_, ?_⟩ <;> simp only [System.step]
    · rw [stepConsumer_producer]
      simpa using hp
    · rw [stepConsumer_rank, hc, List.count_append, List.count_singleton_self]
      omega
    · rw [stepConsumer_object]
      simpa using h.object
    · refine stepConsumer_opened h.opened (fun h1 => ?_) fun h1 => ?_
      · have hcount : ps.count .consumer = 1 := by omega
        simp [Found, headStart_append_consumer, hcount, h.object]
      · exact found_append_consumer leftover (by omega)
    · intro hcount
      rw [List.count_append, List.count_singleton_self] at hcount
      exact stepConsumer_first (by omega)

theorem tracks_exec (maxSize : ℕ) (leftover : Option SharedData) (ps : List Process) :
    Tracks leftover ps (exec (System.step maxSize) (System.start leftover) ps) := by
  induction ps using List.reverseRecOn with
  | nil => exact tracks_start
  | append_singleton ps p ih =>
    rw [exec_append]
    exact ih.step p

/-- What the schedule must grant the producer: something for `shm_open` to find
if the child gets as far as `mmap`, and the whole initialisation before the
first `sem_wait`. -/
def InOrder (leftover : Option SharedData) (ps : List Process) : Prop :=
  ((headStart 3 ps).isSome = true → Found leftover ps) ∧ ∀ m ∈ headStart 4 ps, 6 ≤ m

theorem inOrder_append_producer :
    InOrder leftover (ps ++ [.producer]) ↔ InOrder leftover ps := by
  simp [InOrder, Found, headStart_append_producer]

theorem headStart_eq_none {k : ℕ} (h : ps.count .consumer ≤ k) : headStart k ps = none := by
  rw [← Option.not_isSome_iff_eq_none, headStart_isSome]
  omega

theorem inOrder_of_count_le (h : ps.count .consumer ≤ 3) : InOrder leftover ps := by
  simp [InOrder, headStart_eq_none h, headStart_eq_none (le_trans h (Nat.le_succ 3))]

/-- The child has not come to its `mmap`. -/
theorem safe_of_rank_lt (h : s.consumer.rank < 3) : Safe s .consumer := by
  unfold Safe
  cases hs : s.consumer with
  | mmap opened => simp [hs, ConsumerPc.rank] at h
  | loop pc => simp [hs, ConsumerPc.rank] at h
  | _ => simp

/-- At `mmap` it matters whether `shm_open` has found the object. -/
theorem safe_mmap_iff (h : Tracks leftover ps s) (hrank : s.consumer.rank = 3) :
    Safe s .consumer ↔ Found leftover ps := by
  have hopened := h.opened
  unfold Safe
  cases hs : s.consumer with
  | mmap opened =>
    rw [hs] at hopened
    cases opened <;> simpa [ConsumerPc.Opened] using hopened
  | _ => simp [hs, ConsumerPc.rank] at hrank

/-- Behind `mmap` it matters whether the initialisation is over. -/
theorem safe_of_initialised (hrank : s.consumer.rank = 4) (h : s.Initialised) :
    Safe s .consumer := by
  refine ⟨fun _ => h, fun hs => ?_⟩
  simp [hs, ConsumerPc.rank] at hrank

/-- Only two steps of the child can go wrong, its `mmap` and its first `sem_wait`. -/
theorem inOrder_append_consumer (h : Tracks leftover ps s) :
    InOrder leftover (ps ++ [.consumer]) ↔ InOrder leftover ps ∧ Safe s .consumer := by
  have hc := h.consumer
  have hinit : s.Initialised ↔ 6 ≤ ps.count .producer := by
    rw [initialised_iff, h.producer]
    omega
  rcases Nat.lt_or_ge (ps.count .consumer) 3 with hlt | hge
  · have hnew : (ps ++ [Process.consumer]).count .consumer ≤ 3 := by
      rw [List.count_append, List.count_singleton_self]
      omega
    simp [inOrder_of_count_le hnew, inOrder_of_count_le hlt.le, safe_of_rank_lt (s := s) (by omega)]
  have hfound : Found leftover (ps ++ [.consumer]) ↔ Found leftover ps :=
    found_append_consumer leftover (by omega)
  rcases Nat.eq_or_lt_of_le hge with h3 | hgt
  · have hnone : headStart 4 ps = none := headStart_eq_none (by omega)
    rw [safe_mmap_iff h (by omega), and_iff_right (inOrder_of_count_le h3.ge)]
    simp [InOrder, hfound, headStart_append_consumer, ← h3, hnone]
  have hsome : (headStart 3 ps).isSome = true := headStart_isSome.2 hgt
  have hsame : headStart 3 (ps ++ [.consumer]) = headStart 3 ps := by
    rw [headStart_append_consumer, if_neg (by omega)]
  simp only [InOrder, hfound, hsame, hsome, forall_const, and_assoc]
  refine and_congr_right fun hf => ?_
  rcases Nat.eq_or_lt_of_le hgt with h4 | hgt'
  · have hs : s.consumer = .loop .wait := by
      refine (h.first h4.symm).resolve_right fun hs => ?_
      have hopened := h.opened
      rw [hs] at hopened
      exact hopened hf
    have hnone : headStart 4 ps = none := headStart_eq_none (by omega)
    simp [headStart_append_consumer, ← h4, hnone, Safe, hs, hinit]
  · obtain ⟨m, hm⟩ : ∃ m, headStart 4 ps = some m :=
      Option.isSome_iff_exists.1 (headStart_isSome.2 (by omega))
    have hle := headStart_le hm
    rw [headStart_append_consumer, if_neg (by omega)]
    refine (and_iff_left_of_imp fun hord => ?_).symm
    exact safe_of_initialised (by omega) (hinit.2 (le_trans (hord m hm) hle))

end Tracking

/-- The start is safe exactly if the schedule itself brings the order that the
child's `usleep` is meant to ensure. -/
theorem startup_safe_iff (maxSize : ℕ) (leftover : Option SharedData) (schedule : List Process) :
    Along (System.step maxSize) Safe (System.start leftover) schedule ↔
      InOrder leftover schedule := by
  induction schedule using List.reverseRecOn with
  | nil => simp [InOrder, headStart]
  | append_singleton ps p ih =>
    have htracks := tracks_exec maxSize leftover ps
    rw [along_append, ih, along_cons]
    cases p with
    | producer => simp [Safe, inOrder_append_producer]
    | consumer => simp [inOrder_append_consumer htracks]

/-- Alone, the child gives up without an object, and waits on the semaphores of
an earlier run with one. -/
theorem startup_unsafe :
    ¬ Along (System.step 5) Safe (System.start none) (List.replicate 4 .consumer) ∧
      ¬ Along (System.step 5) Safe (System.start (some ⟨1, 0, 7⟩))
        (List.replicate 5 .consumer) := by
  decide

end AcademyLab.Shm
