import AcademyLab.Shm.Interrupt

/-!
# Interruptions that come too early

As long as no signal has come, both processes are on the way to a loop on the one
object. A handler that destroys its semaphores before the other process is out
leaves that process an order of steps in which it calls one of them.
-/
namespace AcademyLab.Shm.Interrupt
open Machine

/-- Where a process goes through the loop of a role. -/
def Place.loop? : Place → Option (Role × Pc)
  | .producer (.loop pc) => some (Shm.producer, pc)
  | .consumer (.loop pc) => some (Shm.consumer, pc)
  | _ => none

/-- On the way to a loop on the object `name`, or in it. -/
def Place.Heads (name fd addr : Option Object) : Place → Prop
  | .producer .shmOpen | .consumer .usleep | .consumer .shmOpen => True
  | .producer .ftruncate | .producer .mmap => ∃ o, fd = some o ∧ name = some o
  | .consumer (.ftruncate opened) | .consumer (.mmap opened) =>
    opened = true ∧ ∃ o, fd = some o ∧ name = some o
  | .producer _ | .consumer (.loop _) => ∃ o, addr = some o ∧ name = some o
  | .consumer .gaveUp | .handler _ | .exited => False

def State.Heads (s : State) (q : Process) : Prop :=
  (s.place q).Heads s.name (s.fd q) (s.addr q)

/-- How many steps lead to the loop. -/
def Place.ahead : Place → ℕ
  | .producer pc => 6 - pc.rank
  | .consumer pc => 4 - pc.rank
  | _ => 0

/-- How many steps of a loop lead to its next call on a semaphore. -/
def stepsToCall (maxSize : ℕ) : Pc → ℕ
  | .wait | .post => 0
  | .load i => 3 * (maxSize - i) + 3
  | .store i _ => 3 * (maxSize - i) + 2
  | .print i => 3 * (maxSize - i) + 1

section Loop
variable (maxSize : ℕ) {s : State} {q : Process} {o : Object} {r : Role} {pc : Pc}

theorem step_loop (hloop : (s.place q).loop? = some (r, pc)) (haddr : s.addr q = some o) :
    ∃ place, place.loop? = some (r, (r.step maxSize pc (s.data o)).1.1) ∧
      (step maxSize s (.step q)).1 =
        { s with data := Function.update s.data o (r.step maxSize pc (s.data o)).1.2 }.goto q
          place := by
  unfold Place.loop? at hloop
  split at hloop
  · rename_i pc' hplace
    cases hloop
    exact ⟨.producer (.loop _), rfl, by simp [step, hplace, runProducer, runLoop, haddr]⟩
  · rename_i pc' hplace
    cases hloop
    exact ⟨.consumer (.loop _), rfl, by simp [step, hplace, runConsumer, runLoop, haddr]⟩
  · cases hloop

theorem calls_of_loop (hloop : (s.place q).loop? = some (r, pc)) (h : (s.place q).calls = none) :
    pc ≠ .wait ∧ pc ≠ .post := by
  unfold Place.loop? at hloop
  split at hloop
  · rename_i hplace
    cases hloop
    rw [hplace] at h
    constructor <;> rintro rfl <;> simp [Place.calls] at h
  · rename_i hplace
    cases hloop
    rw [hplace] at h
    constructor <;> rintro rfl <;> simp [Place.calls] at h
  · cases hloop

theorem stepsToCall_step {d : SharedData} (h : pc ≠ .wait ∧ pc ≠ .post) :
    stepsToCall maxSize (r.step maxSize pc d).1.1 < stepsToCall maxSize pc := by
  cases pc with
  | wait => exact absurd rfl h.1
  | load i => simp [Role.step, stepsToCall]
  | store i loaded => simp [Role.step, stepsToCall]
  | print i =>
    simp only [Role.step, items]
    split
    · simp only [stepsToCall]
      omega
    · simp [stepsToCall]
  | post => exact absurd rfl h.2

/-- A process whose semaphores have been destroyed comes to one of them. -/
theorem exists_improper (hloop : (s.place q).loop? = some (r, pc)) (haddr : s.addr q = some o)
    (hd : ∀ sem, s.destroyed o sem = true) :
    ∃ n, ¬ Along (step maxSize) Proper s ((List.replicate n q).map .step) := by
  induction hk : stepsToCall maxSize pc using Nat.strong_induction_on generalizing s pc with
  | _ k ih =>
    cases hcalls : (s.place q).calls with
    | some sem =>
      refine ⟨1, fun h => ?_⟩
      have hlive := h.1.1 o sem haddr (Or.inl hcalls)
      rw [hd sem] at hlive
      cases hlive
    | none =>
      obtain ⟨place, hplace, hstep⟩ := step_loop maxSize hloop haddr
      have hless := stepsToCall_step maxSize (r := r) (d := s.data o)
        (calls_of_loop hloop hcalls)
      obtain ⟨n, hn⟩ := ih _ (hk ▸ hless) (s := (step maxSize s (.step q)).1)
        (by simpa [hstep] using hplace) (by simpa [hstep] using haddr)
        (by simpa [hstep] using hd) rfl
      exact ⟨n + 1, fun h => hn h.2⟩

end Loop

section Arrival
variable (maxSize : ℕ) {s : State} {p q : Process} {o : Object}

/-- What one process does in its code does not concern what the other one knows. -/
theorem step_frame (hmain : (s.place q).Main) (hp : p ≠ q) :
    (step maxSize s (.step q)).1.place p = s.place p ∧
      (step maxSize s (.step q)).1.fd p = s.fd p ∧
      (step maxSize s (.step q)).1.addr p = s.addr p := by
  cases hplace : s.place q with
  | producer pc =>
    cases pc with
    | shmOpen => cases hname : s.name <;> simp [step, hplace, runProducer, hname, hp]
    | loop pc => cases haddr : s.addr q <;> simp [step, hplace, runProducer, runLoop, haddr, hp]
    | _ => simp [step, hplace, runProducer, hp]
  | consumer pc =>
    cases pc with
    | mmap opened => cases opened <;> simp [step, hplace, runConsumer, hp]
    | loop pc => cases haddr : s.addr q <;> simp [step, hplace, runConsumer, runLoop, haddr, hp]
    | _ => simp [step, hplace, runConsumer, hp]
  | handler pc => simp [hplace, Place.Main] at hmain
  | exited => simp [hplace, Place.Main] at hmain

theorem step_name (hmain : (s.place q).Main) (hname : s.name = some o) :
    (step maxSize s (.step q)).1.name = some o := by
  cases hplace : s.place q with
  | producer pc =>
    cases pc with
    | loop pc => cases haddr : s.addr q <;> simp [step, hplace, runProducer, runLoop, haddr, hname]
    | _ => simp [step, hplace, runProducer, hname]
  | consumer pc =>
    cases pc with
    | mmap opened => cases opened <;> simp [step, hplace, runConsumer, hname]
    | loop pc => cases haddr : s.addr q <;> simp [step, hplace, runConsumer, runLoop, haddr, hname]
    | _ => simp [step, hplace, runConsumer, hname]
  | handler pc => simp [hplace, Place.Main] at hmain
  | exited => simp [hplace, Place.Main] at hmain

theorem State.Heads.main (h : s.Heads q) : (s.place q).Main := by
  unfold State.Heads at h
  cases hplace : s.place q with
  | producer pc => trivial
  | consumer pc => trivial
  | handler pc => simp [hplace, Place.Heads] at h
  | exited => simp [hplace, Place.Heads] at h

/-- A process goes on to its loop, or fails to find the object. -/
theorem heads_step (h : s.Heads q) :
    (step maxSize s (.step q)).1.Heads q ∨
      s.name = none ∧ (step maxSize s (.step q)).1.place q = .consumer (.ftruncate false) := by
  unfold State.Heads at h ⊢
  cases hplace : s.place q with
  | producer pc =>
    rw [hplace] at h
    left
    cases pc with
    | shmOpen => cases hname : s.name <;> simp [step, hplace, runProducer, hname, Place.Heads]
    | loop pc =>
      obtain ⟨o, haddr, hname⟩ := h
      simp [step, hplace, runProducer, runLoop, haddr, hname, Place.Heads]
    | _ => simpa [step, hplace, runProducer, Place.Heads] using h
  | consumer pc =>
    rw [hplace] at h
    cases pc with
    | usleep =>
      left
      simp [step, hplace, runConsumer, Place.Heads]
    | shmOpen =>
      cases hname : s.name with
      | none =>
        right
        simp [step, hplace, runConsumer, hname]
      | some o =>
        left
        simp [step, hplace, runConsumer, hname, Place.Heads]
    | ftruncate opened =>
      left
      simpa [step, hplace, runConsumer, Place.Heads] using h
    | mmap opened =>
      obtain ⟨rfl, h⟩ := h
      left
      simpa [step, hplace, runConsumer, Place.Heads] using h
    | loop pc =>
      obtain ⟨o, haddr, hname⟩ := h
      left
      simp [step, hplace, runConsumer, runLoop, haddr, hname, Place.Heads]
    | gaveUp => exact h.elim
  | handler pc =>
    rw [hplace] at h
    exact h.elim
  | exited =>
    rw [hplace] at h
    exact h.elim

/-- Outside the loop, each step leads closer to it. -/
theorem ahead_step (h : s.Heads q) (hloop : (s.place q).loop? = none) :
    ((step maxSize s (.step q)).1.place q).ahead < (s.place q).ahead := by
  unfold State.Heads at h
  cases hplace : s.place q with
  | producer pc =>
    rw [hplace] at hloop
    cases pc with
    | shmOpen =>
      cases hname : s.name <;>
        simp [step, hplace, runProducer, hname, Place.ahead, ProducerPc.rank]
    | loop pc => cases hloop
    | _ => simp [step, hplace, runProducer, Place.ahead, ProducerPc.rank]
  | consumer pc =>
    rw [hplace] at h hloop
    cases pc with
    | mmap opened =>
      obtain ⟨rfl, -⟩ := h
      simp [step, hplace, runConsumer, Place.ahead, ConsumerPc.rank]
    | loop pc => cases hloop
    | gaveUp => exact h.elim
    | _ => simp [step, hplace, runConsumer, Place.ahead, ConsumerPc.rank]
  | handler pc =>
    rw [hplace] at h
    exact h.elim
  | exited =>
    rw [hplace] at h
    exact h.elim

theorem addr_of_loop {x : Role × Pc} (h : s.Heads q) (hname : s.name = some o)
    (hloop : (s.place q).loop? = some x) : s.addr q = some o := by
  unfold State.Heads at h
  unfold Place.loop? at hloop
  split at hloop
  · rename_i hplace
    rw [hplace] at h
    obtain ⟨o', haddr, hname'⟩ := h
    rw [haddr, ← hname', hname]
  · rename_i hplace
    rw [hplace] at h
    obtain ⟨o', haddr, hname'⟩ := h
    rw [haddr, ← hname', hname]
  · cases hloop

/-- A process comes to its loop, while the other one stays where it is. -/
theorem exists_arrival (h : s.Heads q) (hname : s.name = some o) (hp : p ≠ q) :
    ∃ n x, let s' := exec (step maxSize) s ((List.replicate n q).map .step)
      (s'.place q).loop? = some x ∧ s'.addr q = some o ∧ s'.place p = s.place p ∧
        s'.addr p = s.addr p := by
  induction hk : (s.place q).ahead using Nat.strong_induction_on generalizing s with
  | _ k ih =>
    cases hloop : (s.place q).loop? with
    | some x => exact ⟨0, x, hloop, addr_of_loop h hname hloop, rfl, rfl⟩
    | none =>
      have hless := ahead_step maxSize h hloop
      have hnext := (heads_step maxSize h).resolve_right (by simp [hname])
      have hframe := step_frame maxSize h.main hp
      obtain ⟨n, x, hx, haddr, hplace, haddr'⟩ := ih _ (hk ▸ hless) hnext
        (step_name maxSize h.main hname) rfl
      exact ⟨n + 1, x, hx, haddr, hplace.trans hframe.1, haddr'.trans hframe.2.2⟩

end Arrival

/-- Before any signal both processes are on the way to a loop on the one object
that has the name, unless the consumer is out. -/
structure Plain (s : State) : Prop where
  parent : ∃ pc, s.place .producer = .producer pc
  child : s.place .consumer = .exited ∨ ∃ pc, s.place .consumer = .consumer pc
  producer : s.Heads .producer
  consumer : s.Heads .consumer ∨ (s.place .consumer).Out
  mapped : ∀ q o, s.addr q = some o → s.name = some o

section Plain
variable (maxSize : ℕ) {s s' : State} {p q : Process} {o : Object} {leftover : Option SharedData}

theorem heads_congr (h : s.Heads q) (hplace : s'.place q = s.place q) (hfd : s'.fd q = s.fd q)
    (haddr : s'.addr q = s.addr q) (hname : ∀ o, s.name = some o → s'.name = some o) :
    s'.Heads q := by
  unfold State.Heads at h ⊢
  rw [hplace, hfd, haddr]
  unfold Place.Heads at h ⊢
  split at h
  · trivial
  · trivial
  · trivial
  · exact h.imp fun o ho => ⟨ho.1, hname o ho.2⟩
  · exact h.imp fun o ho => ⟨ho.1, hname o ho.2⟩
  · exact h.imp_right fun h => h.imp fun o ho => ⟨ho.1, hname o ho.2⟩
  · exact h.imp_right fun h => h.imp fun o ho => ⟨ho.1, hname o ho.2⟩
  · exact h.imp fun o ho => ⟨ho.1, hname o ho.2⟩
  · exact h.imp fun o ho => ⟨ho.1, hname o ho.2⟩
  · exact h.elim
  · exact h.elim
  · exact h.elim

/-- Only `mmap` changes what is mapped. -/
theorem step_addr (hmain : (s.place q).Main) :
    (step maxSize s (.step q)).1.addr q = s.addr q ∨
      (s.place q = .producer .mmap ∨ s.place q = .consumer (.mmap true)) ∧
        (step maxSize s (.step q)).1.addr q = s.fd q := by
  cases hplace : s.place q with
  | producer pc =>
    cases pc with
    | shmOpen => cases hname : s.name <;> simp [step, hplace, runProducer, hname]
    | loop pc => cases haddr : s.addr q <;> simp [step, hplace, runProducer, runLoop, haddr]
    | _ => simp [step, hplace, runProducer]
  | consumer pc =>
    cases pc with
    | mmap opened => cases opened <;> simp [step, hplace, runConsumer]
    | loop pc => cases haddr : s.addr q <;> simp [step, hplace, runConsumer, runLoop, haddr]
    | _ => simp [step, hplace, runConsumer]
  | handler pc => simp [hplace, Place.Main] at hmain
  | exited => simp [hplace, Place.Main] at hmain

theorem out_step (h : (s.place q).Out) : ((step maxSize s (.step q)).1.place q).Out := by
  cases hplace : s.place q with
  | producer pc => simp [hplace, Place.Out] at h
  | consumer pc =>
    obtain ⟨place, hplace', -, hout⟩ := runConsumer_place maxSize hplace
    simp only [step, hplace, hplace', Function.update_self]
    exact hout (hplace ▸ h)
  | handler pc => simp [hplace, Place.Out] at h
  | exited => simpa only [step, hplace] using h

theorem plain_start : Plain (start leftover) where
  parent := ⟨_, rfl⟩
  child := Or.inr ⟨_, rfl⟩
  producer := trivial
  consumer := Or.inl trivial
  mapped := fun _ _ h => nomatch h

theorem mapped_step (h : Plain s) (hq : s.Heads q ∨ (s.place q).Out) (hmain : (s.place q).Main)
    (q' : Process) (o : Object) (ho : (step maxSize s (.step q)).1.addr q' = some o) :
    (step maxSize s (.step q)).1.name = some o := by
  refine step_name maxSize hmain ?_
  by_cases hq' : q' = q
  · subst hq'
    rcases step_addr maxSize hmain with hsame | ⟨hplace, hfd⟩
    · exact h.mapped q' o (hsame ▸ ho)
    · -- what is mapped was opened under the name
      rw [hfd] at ho
      unfold State.Heads at hq
      rcases hplace with hplace | hplace <;> rw [hplace] at hq
      · obtain ⟨o', hfd', hname⟩ := hq.resolve_right id
        rwa [← hfd', ho] at hname
      · obtain ⟨-, o', hfd', hname⟩ := hq.resolve_right id
        rwa [← hfd', ho] at hname
  · rw [(step_frame maxSize hmain hq').2.2] at ho
    exact h.mapped q' o ho

theorem plain_step (h : Plain s) (q : Process) : Plain (step maxSize s (.step q)).1 := by
  cases q with
  | producer =>
    have hmain := h.producer.main
    have hframe := step_frame maxSize (p := .consumer) hmain (by decide)
    obtain ⟨pc, hplace⟩ := h.parent
    obtain ⟨pc', hplace'⟩ : ∃ pc', (step maxSize s (.step .producer)).1.place .producer =
        .producer pc' := by
      obtain ⟨pc', hpc'⟩ := runProducer_place maxSize hplace
      exact ⟨pc', by simp [step, hplace, hpc']⟩
    refine ⟨⟨pc', hplace'⟩, ?_, ?_, ?_, mapped_step maxSize h (Or.inl h.producer) hmain⟩
    · rw [hframe.1]
      exact h.child
    · exact (heads_step maxSize h.producer).resolve_right fun hout => by simp [hplace'] at hout
    · refine h.consumer.imp (fun hheads => ?_) fun hout => hframe.1 ▸ hout
      exact heads_congr hheads hframe.1 hframe.2.1 hframe.2.2 fun o => step_name maxSize hmain
  | consumer =>
    rcases h.child with hplace | ⟨pc, hplace⟩
    · simpa only [step, hplace] using h
    · have hmain : (s.place .consumer).Main := by
        rw [hplace]
        trivial
      have hframe := step_frame maxSize (p := .producer) hmain (by decide)
      obtain ⟨place, hplace', hchild, -⟩ := runConsumer_place maxSize hplace
      refine ⟨?_, ?_, ?_, ?_, mapped_step maxSize h h.consumer hmain⟩
      · simpa [hframe.1] using h.parent
      · simpa [step, hplace, hplace'] using hchild
      · exact heads_congr h.producer hframe.1 hframe.2.1 hframe.2.2 fun o => step_name maxSize hmain
      · rcases h.consumer with hheads | hout
        · refine (heads_step maxSize hheads).imp_right fun hfailed => ?_
          rw [hfailed.2]
          trivial
        · exact Or.inr (out_step maxSize hout)

theorem plain_exec (ps : List Process) :
    Plain (exec (step maxSize) (start leftover) (ps.map .step)) := by
  refine invariant (P := fun _ m => ∃ p, m = .step p) Plain ?_ plain_start ?_
  · rintro s m h ⟨p, rfl⟩
    exact plain_step maxSize h p
  · generalize start leftover = s
    induction ps generalizing s with
    | nil => trivial
    | cons p ps ih => exact ⟨⟨p, rfl⟩, ih _⟩

/-! ## Without signals -/

/-- The state without signals; whoever has ended has given up. -/
def State.system (s : State) : System where
  producer := match s.place .producer with
    | .producer pc => pc
    | _ => .shmOpen
  consumer := match s.place .consumer with
    | .consumer pc => pc
    | _ => .gaveUp
  object := s.name.map s.data

theorem system_step (h : Plain s) (p : Process) :
    ((step maxSize s (.step p)).1.system, (step maxSize s (.step p)).2) =
      s.system.step maxSize p := by
  cases p with
  | producer =>
    obtain ⟨pc, hplace⟩ := h.parent
    have hheads := h.producer
    rw [State.Heads, hplace] at hheads
    cases pc with
    | shmOpen =>
      cases hname : s.name <;>
        simp [State.system, System.step, stepProducer, step, runProducer, hplace, hname]
    | ftruncate => simp [State.system, System.step, stepProducer, step, runProducer, hplace]
    | mmap => simp [State.system, System.step, stepProducer, step, runProducer, hplace]
    | loop pc =>
      obtain ⟨o, haddr, hname⟩ := hheads
      simp [State.system, System.step, stepProducer, step, runProducer, runLoop, hplace, haddr,
        hname]
    | _ =>
      obtain ⟨o, haddr, hname⟩ := hheads
      simp [State.system, System.step, stepProducer, step, runProducer, State.store, hplace, haddr,
        hname]
  | consumer =>
    rcases h.child with hplace | ⟨pc, hplace⟩
    · simp [State.system, System.step, stepConsumer, step, hplace]
    · have hheads := h.consumer
      rw [State.Heads, hplace] at hheads
      cases pc with
      | shmOpen =>
        cases hname : s.name <;>
          simp [State.system, System.step, stepConsumer, step, runConsumer, hplace, hname]
      | mmap opened =>
        cases opened <;>
          simp [State.system, System.step, stepConsumer, step, runConsumer, hplace]
      | loop pc =>
        obtain ⟨o, haddr, hname⟩ := hheads.resolve_right id
        simp [State.system, System.step, stepConsumer, step, runConsumer, runLoop, hplace, haddr,
          hname]
      | _ => simp [State.system, System.step, stepConsumer, step, runConsumer, hplace]

/-- Without signals the runs, and what they print, are those of the start-up. -/
theorem system_run (ps : List Process) :
    (exec (step maxSize) (start leftover) (ps.map .step)).system =
        exec (System.step maxSize) (System.start leftover) ps ∧
      trace (step maxSize) (start leftover) (ps.map .step) =
        trace (System.step maxSize) (System.start leftover) ps := by
  have hstart : (start leftover).system = System.start leftover := by
    cases leftover <;> rfl
  rw [← hstart]
  have hplain : Plain (start leftover) := plain_start
  generalize start leftover = s at hplain ⊢
  induction ps generalizing s with
  | nil => exact ⟨rfl, rfl⟩
  | cons p ps ih =>
    obtain ⟨hstate, hprinted⟩ := Prod.ext_iff.1 (system_step maxSize hplain p)
    obtain ⟨hexec, htrace⟩ := ih _ (plain_step maxSize hplain p)
    rw [List.map_cons, exec_cons, exec_cons, trace_cons, trace_cons, ← hstate, ← hprinted, hexec,
      htrace]
    exact ⟨rfl, rfl⟩

/-- The two calls of `sem_destroy`. -/
theorem exec_destroys (hplace : s.place p = .handler .destroyFull) (haddr : s.addr p = some o)
    (hq : q ≠ p) :
    let s' := exec (step maxSize) s [.step p, .step p]
    (∀ sem, s'.destroyed o sem = true) ∧ s'.place q = s.place q ∧ s'.addr q = s.addr q := by
  simp only [exec_cons, exec_nil, step, hplace, runHandler, goto_place, Function.update_self]
  refine ⟨fun sem => ?_, by simp [hq], by simp⟩
  cases sem <;> simp [setDestroyed_apply, haddr]

/-- Once a mapped process is signalled while the other one needs the semaphores,
some order of steps is not proper. -/
theorem exists_improper_sigint (hmain : (s.place p).Main) (haddr : s.addr p = some o)
    (hname : s.name = some o) (hheads : s.Heads q) (hq : q ≠ p) :
    ∃ qs : List Process, ¬ Along (step maxSize) Proper s (.sigint p :: qs.map .step) := by
  have hsigint : (step maxSize s (.sigint p)).1 = s.goto p (.handler .destroyFull) := by
    rw [step, if_pos hmain]
  have hheads' : (s.goto p (.handler .destroyFull)).Heads q :=
    heads_congr hheads (by simp [hq]) rfl rfl fun _ h => h
  obtain ⟨n, ⟨r, pc⟩, hloop, haddrq, hplacep, haddrp⟩ :=
    exists_arrival maxSize hheads' hname hq.symm
  rw [goto_place, Function.update_self] at hplacep
  obtain ⟨hd, hplaceq, haddrq'⟩ :=
    exec_destroys maxSize hplacep (haddrp.trans haddr) hq
  obtain ⟨m, hm⟩ := exists_improper maxSize (hplaceq.symm ▸ hloop)
    (haddrq'.trans haddrq) hd
  refine ⟨List.replicate n q ++ ([p, p] ++ List.replicate m q), fun h => hm ?_⟩
  have hrest := h.2
  rw [hsigint, List.map_append, List.map_append, along_append, along_append] at hrest
  exact hrest.2.2

end Plain

/-! ## The runs -/

theorem along_steps (maxSize : ℕ) (s : State) (ps : List Process) :
    Along (step maxSize) Timely s (ps.map .step) := by
  induction ps generalizing s with
  | nil => trivial
  | cons p ps ih => exact ⟨trivial, ih _⟩

theorem calm_run {maxSize : ℕ} {leftover : Option SharedData} {moves : List Move}
    (h : Along (step maxSize) Timely (start leftover) moves) :
    Calm (exec (step maxSize) (start leftover) moves) :=
  invariant Calm (fun _ _ hs hm => calm_step maxSize hs hm) calm_start h

/-- If all signals are timely, everything is proper; and the first signal is
timely just when the processes may go on from it in any order. -/
theorem interrupt_proper (maxSize : ℕ) (leftover : Option SharedData) :
    (∀ moves, Along (step maxSize) Timely (start leftover) moves →
      Along (step maxSize) Proper (start leftover) moves) ∧
    ∀ (ps : List Process) (p : Process),
      let s := exec (step maxSize) (start leftover) (ps.map .step)
      (s.place p).Main →
        ((∀ qs : List Process, Along (step maxSize) Proper s (.sigint p :: qs.map .step)) ↔
          Timely s (.sigint p)) := by
  constructor
  · intro moves h
    exact along_of_invariant Calm (fun _ _ hs hm => calm_step maxSize hs hm)
      (fun _ _ hs hm => calm_proper hs hm) calm_start h
  · intro ps p s hmain
    have hplain : Plain s := plain_exec maxSize ps
    constructor
    · intro h _
      obtain ⟨o, haddr⟩ := (h []).1 hmain
      have hname := hplain.mapped p o haddr
      cases p with
      | producer =>
        refine ⟨rfl, ⟨o, haddr⟩, hplain.consumer.resolve_left fun hheads => ?_⟩
        obtain ⟨qs, hqs⟩ := exists_improper_sigint maxSize hmain haddr hname hheads
          (by decide)
        exact hqs (h qs)
      | consumer =>
        obtain ⟨qs, hqs⟩ := exists_improper_sigint maxSize hmain haddr hname
          hplain.producer (by decide)
        exact absurd (h qs) hqs
    · intro htimely qs
      have hcalm : Calm s := calm_run (along_steps maxSize _ ps)
      exact along_of_invariant Calm (fun _ _ hs hm => calm_step maxSize hs hm)
        (fun _ _ hs hm => calm_proper hs hm) hcalm ⟨htimely, along_steps maxSize _ qs⟩

/-- The consumer waits for the first items when the producer is interrupted. -/
theorem interrupt_improper :
    ¬ ∀ (leftover : Option SharedData) (moves : List Move),
      Along (step 5) Proper (start leftover) moves := by
  intro h
  have hrun := h none ([.step .producer, .step .producer, .step .producer, .step .producer,
    .step .producer, .step .producer, .step .consumer, .step .consumer, .step .consumer,
    .step .consumer, .sigint .producer] ++ [.step .producer])
  rw [along_append] at hrun
  exact hrun.2.1.2 .created .full .consumer (by decide) rfl rfl ⟨rfl, rfl, rfl⟩

/-- The consumer comes first and gives up; then the producer is interrupted. -/
theorem interrupt_proper_after_giving_up :
    Along (step 5) Proper (start none) [.step .consumer, .step .consumer, .step .producer,
      .step .producer, .step .producer, .sigint .producer, .step .producer, .step .producer] :=
  (interrupt_proper 5 none).1 _
    ⟨trivial, trivial, trivial, trivial, trivial, fun _ => ⟨rfl, ⟨.created, rfl⟩, trivial⟩, trivial,
      trivial, trivial⟩

end AcademyLab.Shm.Interrupt
