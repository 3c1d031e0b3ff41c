import AcademyLab.Shm.Startup
import Mathlib.Logic.Function.Basic

/-!
# Interrupting the shared-memory processes

Both processes from `fork()` on, with `SIGINT` at any moment. The handler is
installed before the `fork()`, and while it runs `SIGINT` is blocked. It destroys
both semaphores, unmaps and unlinks the object and ends the process, wherever the
two processes stand. An unlinked object lives on where it is mapped, so there may
be two of them: one left over from an earlier run, and one made by the producer.
-/
namespace AcademyLab.Shm.Interrupt
open Machine

inductive Object
  | leftover
  | created
  deriving DecidableEq

inductive Handler
  | destroyFull
  | destroyEmpty
  | munmap
  | shmUnlink
  deriving DecidableEq

/-- Where a process stands in the program. -/
inductive Place
  | producer (pc : ProducerPc)
  | consumer (pc : ConsumerPc)
  | handler (pc : Handler)
  | exited
  deriving DecidableEq

/-- `name` is what `/my_shm` refers to; `fd` and `addr` are the variables of each
process, as far as they refer to an object. -/
structure State where
  place : Process → Place
  name : Option Object
  fd : Process → Option Object
  addr : Process → Option Object
  data : Object → SharedData
  destroyed : Object → Sem → Bool

/-- A step of a process, or the signal for it. -/
inductive Move
  | step (p : Process)
  | sigint (p : Process)

/-- After `fork()`; the parent runs `producer` and the child `consumer`. -/
def start (leftover : Option SharedData) : State where
  place
    | .producer => .producer .shmOpen
    | .consumer => .consumer .usleep
  name := leftover.map fun _ => .leftover
  fd _ := none
  addr _ := none
  data _ := leftover.getD zeroed
  destroyed _ _ := false

def State.goto (s : State) (p : Process) (place : Place) : State :=
  { s with place := Function.update s.place p place }

/-- A store into what `addr` points to. -/
def State.store (s : State) (p : Process) (f : SharedData → SharedData) : State :=
  match s.addr p with
  | some o => { s with data := Function.update s.data o (f (s.data o)) }
  | none => s

/-- A semaphore there is destroyed, or initialised again. -/
def State.setDestroyed (s : State) (p : Process) (sem : Sem) (b : Bool) : State :=
  match s.addr p with
  | some o =>
    { s with destroyed := Function.update s.destroyed o (Function.update (s.destroyed o) sem b) }
  | none => s

/-- One step of one of the loops. -/
def runLoop (r : Role) (place : Pc → Place) (maxSize : ℕ) (s : State) (p : Process) (pc : Pc) :
    State × List (Process × ℤ) :=
  match s.addr p with
  | some o =>
    let next := r.step maxSize pc (s.data o)
    ({ s with data := Function.update s.data o next.1.2 }.goto p (place next.1.1),
      next.2.map fun v => (p, v))
  | none => (s, [])

def runProducer (maxSize : ℕ) (s : State) (p : Process) :
    ProducerPc → State × List (Process × ℤ)
  | .shmOpen =>
    match s.name with
    | some o => ({ s with fd := Function.update s.fd p (some o) }.goto p (.producer .ftruncate), [])
    | none =>
      ({ s with
          name := some .created
          data := Function.update s.data .created zeroed
          fd := Function.update s.fd p (some .created) }.goto p (.producer .ftruncate), [])
  | .ftruncate => (s.goto p (.producer .mmap), [])
  | .mmap =>
    ({ s with addr := Function.update s.addr p (s.fd p) }.goto p (.producer .initEmpty), [])
  | .initEmpty =>
    (((s.store p ({ · with semEmpty := 1 })).setDestroyed p .empty false).goto p
      (.producer .initFull), [])
  | .initFull =>
    (((s.store p ({ · with semFull := 0 })).setDestroyed p .full false).goto p
      (.producer .storeValue), [])
  | .storeValue => ((s.store p ({ · with value := 0 })).goto p (.producer (.loop .wait)), [])
  | .loop pc => runLoop Shm.producer (fun pc => .producer (.loop pc)) maxSize s p pc

def runConsumer (maxSize : ℕ) (s : State) (p : Process) :
    ConsumerPc → State × List (Process × ℤ)
  | .usleep => (s.goto p (.consumer .shmOpen), [])
  | .shmOpen =>
    ({ s with fd := Function.update s.fd p s.name }.goto p (.consumer (.ftruncate s.name.isSome)),
      [])
  | .ftruncate opened => (s.goto p (.consumer (.mmap opened)), [])
  | .mmap true =>
    ({ s with addr := Function.update s.addr p (s.fd p) }.goto p (.consumer (.loop .wait)), [])
  | .mmap false => (s.goto p (.consumer .gaveUp), [])
  | .loop pc => runLoop Shm.consumer (fun pc => .consumer (.loop pc)) maxSize s p pc
  | .gaveUp => (s.goto p .exited, [])

/-- `handler` -/
def runHandler (s : State) (p : Process) : Handler → State
  | .destroyFull => (s.setDestroyed p .full true).goto p (.handler .destroyEmpty)
  | .destroyEmpty => (s.setDestroyed p .empty true).goto p (.handler .munmap)
  | .munmap => { s with addr := Function.update s.addr p none }.goto p (.handler .shmUnlink)
  | .shmUnlink => { s with name := none }.goto p .exited

/-- The code of `producer` and `consumer`, where the signal is not blocked. -/
def Place.Main : Place → Prop
  | .producer _ | .consumer _ => True
  | .handler _ | .exited => False

instance (place : Place) : Decidable place.Main :=
  match place with
  | .producer _ | .consumer _ => isTrue trivial
  | .handler _ | .exited => isFalse id

def step (maxSize : ℕ) (s : State) : Move → State × List (Process × ℤ)
  | .step p =>
    match s.place p with
    | .producer pc => runProducer maxSize s p pc
    | .consumer pc => runConsumer maxSize s p pc
    | .handler pc => (runHandler s p pc, [])
    | .exited => (s, [])
  | .sigint p => (if (s.place p).Main then s.goto p (.handler .destroyFull) else s, [])

/-! ## Safe interruptions -/

/-- The semaphore of the `sem_wait` or `sem_post` that comes next. -/
def Place.calls : Place → Option Sem
  | .producer (.loop .wait) => some Shm.producer.waits
  | .producer (.loop .post) => some Shm.producer.posts
  | .consumer (.loop .wait) => some Shm.consumer.waits
  | .consumer (.loop .post) => some Shm.consumer.posts
  | _ => none

/-- The semaphore of the `sem_wait` that comes next. -/
def Place.waits : Place → Option Sem
  | .producer (.loop .wait) => some Shm.producer.waits
  | .consumer (.loop .wait) => some Shm.consumer.waits
  | _ => none

/-- The semaphore of the `sem_destroy` that comes next. -/
def Place.destroys : Place → Option Sem
  | .handler .destroyFull => some .full
  | .handler .destroyEmpty => some .empty
  | _ => none

/-- Blocked in `sem_wait`. -/
def State.Blocked (s : State) (p : Process) (o : Object) (sem : Sem) : Prop :=
  (s.place p).waits = some sem ∧ s.addr p = some o ∧ (s.data o).sem sem = 0

/-- The handler starts with a live mapping; it destroys no semaphore that the other
process is blocked on; no call is on a semaphore that is destroyed. -/
def Proper (s : State) : Move → Prop
  | .sigint p => (s.place p).Main → ∃ o, s.addr p = some o
  | .step p =>
    (∀ o sem, s.addr p = some o → (s.place p).calls = some sem ∨ (s.place p).destroys = some sem →
      s.destroyed o sem = false) ∧
    ∀ o sem q, q ≠ p → s.addr p = some o → (s.place p).destroys = some sem → ¬ s.Blocked q o sem

/-- The child's `shm_open` has failed. -/
def Place.Out : Place → Prop
  | .consumer (.ftruncate false) | .consumer (.mmap false) | .consumer .gaveUp | .exited => True
  | _ => False

/-- A signal comes to the producer only, and to it only when it has mapped the
object and the consumer has not found it. -/
def Timely (s : State) : Move → Prop
  | .sigint p => (s.place p).Main →
    p = .producer ∧ (∃ o, s.addr .producer = some o) ∧ (s.place .consumer).Out
  | .step _ => True

/-! ## What a step changes -/

section Frame
variable (maxSize : ℕ) {s : State} {p q : Process} {o : Object} {sem sem' : Sem} {b : Bool}
  {place : Place} {f : SharedData → SharedData}

@[simp] theorem goto_place : (s.goto p place).place = Function.update s.place p place := rfl
@[simp] theorem goto_name : (s.goto p place).name = s.name := rfl
@[simp] theorem goto_fd : (s.goto p place).fd = s.fd := rfl
@[simp] theorem goto_addr : (s.goto p place).addr = s.addr := rfl
@[simp] theorem goto_data : (s.goto p place).data = s.data := rfl
@[simp] theorem goto_destroyed : (s.goto p place).destroyed = s.destroyed := rfl

theorem store_eq (s : State) (p : Process) (f : SharedData → SharedData) :
    ∃ data, s.store p f = { s with data := data } := by
  unfold State.store
  cases s.addr p with
  | none => exact ⟨s.data, rfl⟩
  | some o => exact ⟨_, rfl⟩

theorem setDestroyed_eq (s : State) (p : Process) (sem : Sem) (b : Bool) :
    ∃ destroyed, s.setDestroyed p sem b = { s with destroyed := destroyed } := by
  unfold State.setDestroyed
  cases s.addr p with
  | none => exact ⟨s.destroyed, rfl⟩
  | some o => exact ⟨_, rfl⟩

/-- A store changes the data only. -/
@[simp] theorem store_frame : (s.store p f).place = s.place ∧ (s.store p f).name = s.name ∧
    (s.store p f).fd = s.fd ∧ (s.store p f).addr = s.addr ∧
    (s.store p f).destroyed = s.destroyed := by
  obtain ⟨data, h⟩ := store_eq s p f
  simp [h]

/-- The mark of a semaphore changes nothing else. -/
@[simp] theorem setDestroyed_frame : (s.setDestroyed p sem b).place = s.place ∧
    (s.setDestroyed p sem b).name = s.name ∧ (s.setDestroyed p sem b).fd = s.fd ∧
    (s.setDestroyed p sem b).addr = s.addr ∧ (s.setDestroyed p sem b).data = s.data := by
  obtain ⟨destroyed, h⟩ := setDestroyed_eq s p sem b
  simp [h]

theorem setDestroyed_apply : (s.setDestroyed p sem b).destroyed o sem' =
    if s.addr p = some o ∧ sem' = sem then b else s.destroyed o sem' := by
  unfold State.setDestroyed
  cases ho : s.addr p with
  | none => simp
  | some o' =>
    by_cases heq : o = o'
    · subst heq
      by_cases hsem : sem' = sem
      · simp [hsem]
      · simp [hsem]
    · simp [heq, Ne.symm heq]

theorem runLoop_place (r : Role) (place : Pc → Place) {pc : Pc} (h : s.place p = place pc) :
    ∃ pc', (runLoop r place maxSize s p pc).1.place = Function.update s.place p (place pc') := by
  unfold runLoop
  cases s.addr p with
  | none => exact ⟨pc, by rw [← h, Function.update_eq_self]⟩
  | some o => exact ⟨_, rfl⟩

theorem runLoop_destroyed {r : Role} {place : Pc → Place} {pc : Pc} :
    (runLoop r place maxSize s p pc).1.destroyed = s.destroyed := by
  unfold runLoop
  cases s.addr p <;> rfl

theorem runProducer_place {pc : ProducerPc} (h : s.place p = .producer pc) :
    ∃ pc', (runProducer maxSize s p pc).1.place = Function.update s.place p (.producer pc') := by
  cases pc with
  | shmOpen => cases hname : s.name <;> exact ⟨.ftruncate, by simp [runProducer, hname]⟩
  | ftruncate => exact ⟨.mmap, rfl⟩
  | mmap => exact ⟨.initEmpty, rfl⟩
  | initEmpty => exact ⟨.initFull, by simp [runProducer]⟩
  | initFull => exact ⟨.storeValue, by simp [runProducer]⟩
  | storeValue => exact ⟨.loop .wait, by simp [runProducer]⟩
  | loop pc =>
    obtain ⟨pc', h'⟩ := runLoop_place maxSize Shm.producer (fun pc => .producer (.loop pc)) h
    exact ⟨.loop pc', h'⟩

/-- The producer destroys nothing. -/
theorem runProducer_destroyed {pc : ProducerPc}
    (h : (runProducer maxSize s p pc).1.destroyed o sem = true) : s.destroyed o sem = true := by
  cases pc with
  | shmOpen => cases hname : s.name <;> simpa [runProducer, hname] using h
  | initEmpty =>
    simp only [runProducer, goto_destroyed, setDestroyed_apply, store_frame] at h
    split at h
    · cases h
    · exact h
  | initFull =>
    simp only [runProducer, goto_destroyed, setDestroyed_apply, store_frame] at h
    split at h
    · cases h
    · exact h
  | storeValue => simpa [runProducer] using h
  | loop pc => rwa [runProducer, runLoop_destroyed maxSize] at h
  | _ => exact h

theorem runConsumer_place {pc : ConsumerPc} (h : s.place p = .consumer pc) :
    ∃ place, (runConsumer maxSize s p pc).1.place = Function.update s.place p place ∧
      (place = .exited ∨ ∃ pc', place = .consumer pc') ∧
      ((Place.consumer pc).Out → place.Out) := by
  cases pc with
  | usleep => exact ⟨_, rfl, Or.inr ⟨_, rfl⟩, id⟩
  | shmOpen => exact ⟨_, rfl, Or.inr ⟨_, rfl⟩, False.elim⟩
  | ftruncate opened => exact ⟨_, rfl, Or.inr ⟨_, rfl⟩, fun hout => by cases opened <;> exact hout⟩
  | mmap opened =>
    cases opened with
    | true => exact ⟨_, rfl, Or.inr ⟨_, rfl⟩, False.elim⟩
    | false => exact ⟨_, rfl, Or.inr ⟨_, rfl⟩, id⟩
  | loop pc =>
    obtain ⟨pc', h'⟩ := runLoop_place maxSize Shm.consumer (fun pc => .consumer (.loop pc)) h
    exact ⟨_, h', Or.inr ⟨_, rfl⟩, False.elim⟩
  | gaveUp => exact ⟨_, rfl, Or.inl rfl, id⟩

theorem runConsumer_destroyed {pc : ConsumerPc} :
    (runConsumer maxSize s p pc).1.destroyed = s.destroyed := by
  cases pc with
  | mmap opened => cases opened <;> rfl
  | loop pc => exact runLoop_destroyed maxSize
  | _ => rfl

end Frame

/-! ## Timely signals -/

/-- The semaphores that have been destroyed when the handler stands there. -/
def Place.past : Place → Sem → Prop
  | .producer _, _ | .consumer _, _ | .handler .destroyFull, _ => False
  | .handler .destroyEmpty, sem => sem = .full
  | .handler .munmap, _ | .handler .shmUnlink, _ | .exited, _ => True

/-- Only the producer may be in the handler, and then the consumer is out. -/
structure Calm (s : State) : Prop where
  parent : ∀ pc, s.place .producer ≠ .consumer pc
  child : s.place .consumer = .exited ∨ ∃ pc, s.place .consumer = .consumer pc
  apart : (s.place .producer).Main ∨ (s.place .consumer).Out
  destroyed : ∀ o sem, s.destroyed o sem = true → (s.place .producer).past sem

section Calm
variable (maxSize : ℕ) {s : State} {m : Move} {leftover : Option SharedData}

theorem Place.Main.not_past {place : Place} {sem : Sem} (h : place.Main) : ¬ place.past sem := by
  cases place <;> first | exact id | exact h.elim

theorem Place.not_past_of_call {place : Place} {sem : Sem}
    (h : place.calls = some sem ∨ place.destroys = some sem) : ¬ place.past sem := by
  unfold Place.calls Place.destroys at h
  cases place with
  | producer pc => exact id
  | consumer pc => exact id
  | handler pc => cases pc <;> cases sem <;> simp_all [Place.past]
  | exited => simp at h

theorem Place.Out.idle {place : Place} (h : place.Out) :
    place.calls = none ∧ place.waits = none := by
  unfold Place.Out at h
  split at h <;> first | exact ⟨rfl, rfl⟩ | exact h.elim

theorem calm_start : Calm (start leftover) where
  parent := fun _ h => nomatch h
  child := Or.inr ⟨_, rfl⟩
  apart := Or.inl trivial
  destroyed := fun _ _ h => nomatch h

theorem runHandler_place (s : State) (p : Process) (pc : Handler) :
    ∃ place, (runHandler s p pc).place = Function.update s.place p place ∧
      (∀ pc, place ≠ .consumer pc) ∧
      ∀ o sem, (s.destroyed o sem = true → (Place.handler pc).past sem) →
        (runHandler s p pc).destroyed o sem = true → place.past sem := by
  cases pc with
  | destroyFull =>
    refine ⟨.handler .destroyEmpty, by simp [runHandler], by simp, fun o sem hold hnew => ?_⟩
    simp only [runHandler, goto_destroyed, setDestroyed_apply] at hnew
    split at hnew
    · rename_i hsem
      exact hsem.2
    · exact (hold hnew).elim
  | destroyEmpty =>
    exact ⟨.handler .munmap, by simp [runHandler], by simp, fun _ _ _ _ => trivial⟩
  | munmap => exact ⟨.handler .shmUnlink, rfl, by simp, fun _ _ _ _ => trivial⟩
  | shmUnlink => exact ⟨.exited, rfl, by simp, fun _ _ _ _ => trivial⟩

theorem calm_sigint {p : Process} (h : Calm s) (hm : Timely s (.sigint p)) :
    Calm (step maxSize s (.sigint p)).1 := by
  by_cases hmain : (s.place p).Main
  · obtain ⟨rfl, -, hout⟩ := hm hmain
    rw [step, if_pos hmain]
    refine ⟨by simp, by simpa using h.child, Or.inr (by simpa using hout), fun o sem hd => ?_⟩
    exact absurd (h.destroyed o sem hd) hmain.not_past
  · rwa [step, if_neg hmain]

theorem calm_producer (h : Calm s) : Calm (step maxSize s (.step .producer)).1 := by
  cases hplace : s.place .producer with
  | producer pc =>
    obtain ⟨pc', hpc'⟩ := runProducer_place maxSize hplace
    simp only [step, hplace]
    refine ⟨by simp [hpc'], by simpa [hpc'] using h.child, ?_, fun o sem hd => ?_⟩
    · exact Or.inl (by simp [hpc', Place.Main])
    · have hpast := h.destroyed o sem (runProducer_destroyed maxSize hd)
      rw [hplace] at hpast
      exact hpast.elim
  | consumer pc => exact absurd hplace (h.parent pc)
  | handler pc =>
    have hout : (s.place .consumer).Out := h.apart.resolve_left (by rw [hplace]; exact id)
    obtain ⟨place, hplace', hparent, hpast⟩ := runHandler_place s .producer pc
    simp only [step, hplace]
    refine ⟨fun pc' => ?_, by simpa [hplace'] using h.child, ?_, fun o sem hd => ?_⟩
    · simpa [hplace'] using hparent pc'
    · exact Or.inr (by simpa [hplace'] using hout)
    · rw [hplace', Function.update_self]
      exact hpast o sem (fun hold => hplace ▸ h.destroyed o sem hold) hd
  | exited => simpa only [step, hplace] using h

theorem calm_consumer (h : Calm s) : Calm (step maxSize s (.step .consumer)).1 := by
  rcases h.child with hplace | ⟨pc, hplace⟩
  · simpa only [step, hplace] using h
  · obtain ⟨place, hplace', hchild, hout⟩ := runConsumer_place maxSize hplace
    simp only [step, hplace]
    refine ⟨fun pc' => ?_, ?_, ?_, fun o sem hd => ?_⟩
    · simpa [hplace'] using h.parent pc'
    · simpa [hplace'] using hchild
    · rw [hplace', Function.update_self, Function.update_of_ne (by decide)]
      exact h.apart.imp_right fun hold => hout (hplace ▸ hold)
    · rw [hplace', Function.update_of_ne (by decide)]
      exact h.destroyed o sem (runConsumer_destroyed maxSize ▸ hd)

theorem calm_step (h : Calm s) (hm : Timely s m) : Calm (step maxSize s m).1 := by
  cases m with
  | sigint p => exact calm_sigint maxSize h hm
  | step p =>
    cases p with
    | producer => exact calm_producer maxSize h
    | consumer => exact calm_consumer maxSize h

/-- In a calm state a step of a process is proper, and so is a timely signal. -/
theorem calm_proper (h : Calm s) (hm : Timely s m) : Proper s m := by
  cases m with
  | sigint p =>
    intro hmain
    obtain ⟨rfl, haddr, -⟩ := hm hmain
    exact haddr
  | step p =>
    have hchild : (s.place .consumer).destroys = none := by
      rcases h.child with hplace | ⟨pc, hplace⟩ <;> rw [hplace] <;> rfl
    constructor
    · intro o sem haddr hcall
      rw [Bool.eq_false_iff]
      intro hd
      have hpast := h.destroyed o sem hd
      cases p with
      | producer => exact Place.not_past_of_call hcall hpast
      | consumer =>
        -- whoever calls is not out, so that the producer is still in its code
        rw [hchild] at hcall
        have hcalls := hcall.resolve_right (by simp)
        have hmain := h.apart.resolve_right fun hout => by simp [hout.idle.1] at hcalls
        exact hmain.not_past hpast
    · rintro o sem q hq haddr hdestroys ⟨hwaits, -⟩
      cases p with
      | producer =>
        obtain rfl : q = .consumer := by cases q <;> simp_all
        have hmain : ¬ (s.place .producer).Main := by
          intro hmain
          cases hplace : s.place .producer <;>
            simp_all [Place.Main, Place.destroys]
        have hout := h.apart.resolve_left hmain
        simp [hout.idle.2] at hwaits
      | consumer => simp [hchild] at hdestroys

end Calm

end AcademyLab.Shm.Interrupt
