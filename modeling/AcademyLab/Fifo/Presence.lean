import AcademyLab.Fifo.Names
import AcademyLab.Machine
import Mathlib.Data.Fintype.Basic

/-!
# Who is online

The programs of `lab_1.c` as they find each other. A program makes the FIFO that it
receives on, opens the one of its friend for each line, and unlinks its own when it is
interrupted. Any number of programs share a file system that has no file under their
paths at first. A directory entry leads to an inode, and `open` waits until the other side
of that inode is opened. `mkfifo` may fail, which nobody notices. A `printf` belongs to the
call before it; what goes through the FIFOs is left to `Fifo.Chat`.
-/
namespace AcademyLab.Fifo.Presence
open CString Machine
open Names (Fifos)

/-- The directory entries that the two paths of a program lead to. -/
structure Entries (ε : Type*) where
  fifoSend : ε
  fifoRecv : ε

/-- `lookup` is the way of the file system from a path to an entry, the same one for `a`
and `./a`. -/
def entries {ε : Type*} (lookup : Bytes → ε) (f : Fifos) : Entries ε :=
  ⟨lookup f.fifoSend, lookup f.fifoRecv⟩

/-- Where `main` stands. From `unlinked` on it is in `cleanup_fifo`. -/
inductive Main
  | mkfifo
  | signal
  | running
  | unlinked
  | exited
  | killed
  deriving DecidableEq

/-- Where `send_thread_func` stands, with the inode that it has open or waits for. -/
inductive Send
  | fgets
  | openFifo
  | waits (inode : ℕ)
  | write (inode : ℕ)
  | close (inode : ℕ)
  deriving DecidableEq

/-- Where `recv_thread_func` stands. -/
inductive Recv
  | openFifo
  | waits (inode : ℕ)
  | read (inode : ℕ)
  | close (inode : ℕ)
  deriving DecidableEq

/-- The inode that counts the thread as a writer. -/
def Send.inode : Send → Option ℕ
  | .fgets | .openFifo => none
  | .waits i | .write i | .close i => some i

/-- The inode that counts the thread as a reader. -/
def Recv.inode : Recv → Option ℕ
  | .openFifo => none
  | .waits i | .read i | .close i => some i

structure Process where
  main : Main
  send : Send
  recv : Recv
  deriving DecidableEq

namespace Process

/-- The threads run until `_exit`. -/
def Live (p : Process) : Prop := p.main = .running ∨ p.main = .unlinked

/-- The FIFO is there to be opened. -/
def Up (p : Process) : Prop := p.main = .signal ∨ p.main = .running

instance (p : Process) : Decidable p.Live := inferInstanceAs (Decidable (_ ∨ _))

instance (p : Process) : Decidable p.Up := inferInstanceAs (Decidable (_ ∨ _))

/-- A process that has ended has nothing open. -/
def finish (m : Main) : Process := ⟨m, .fgets, .openFifo⟩

/-- A writer has come to the inode. -/
def meetWriter (i : ℕ) (p : Process) : Process :=
  if p.recv = .waits i then { p with recv := .read i } else p

/-- A reader has come to the inode. -/
def meetReader (i : ℕ) (p : Process) : Process :=
  if p.send = .waits i then { p with send := .write i } else p

end Process

structure State (ι ε : Type*) where
  names : ε → Option ℕ
  next : ℕ
  proc : ι → Process

/-- A step of one of the three threads, or a signal; `ok` says whether `mkfifo` succeeds
where there is no FIFO yet. A user who types nothing leaves `send` out, and so does a call
that waits for data. -/
inductive Input (ι : Type*)
  | main (p : ι) (ok : Bool)
  | send (p : ι)
  | recv (p : ι)
  | sigint (p : ι)
  | sigkill (p : ι)
  deriving DecidableEq

/-- The two lines about FIFOs that are not there. -/
inductive Event (ι : Type*)
  | notOnline (p : ι)
  | deleted (p : ι)
  deriving DecidableEq

section Step
variable {ι ε : Type*} [DecidableEq ι] [Fintype ι] [DecidableEq ε] (fifos : ι → Entries ε)

def State.set (s : State ι ε) (p : ι) (process : Process) : State ι ε :=
  { s with proc := Function.update s.proc p process }

def State.map (s : State ι ε) (f : Process → Process) : State ι ε :=
  { s with proc := fun p => f (s.proc p) }

def State.Read (s : State ι ε) (i : ℕ) : Prop := ∃ p, (s.proc p).recv.inode = some i

def State.Written (s : State ι ε) (i : ℕ) : Prop := ∃ p, (s.proc p).send.inode = some i

instance (s : State ι ε) (i : ℕ) : Decidable (s.Read i) := inferInstanceAs (Decidable (∃ _, _))

instance (s : State ι ε) (i : ℕ) : Decidable (s.Written i) := inferInstanceAs (Decidable (∃ _, _))

/-- `mkfifo` does nothing if the entry exists; the handler is only there after `signal`. -/
def stepMain (s : State ι ε) (p : ι) (ok : Bool) : State ι ε :=
  let process := s.proc p
  match process.main with
  | .mkfifo =>
    let name := (fifos p).fifoRecv
    if s.names name = none ∧ ok then
      { s.set p { process with main := .signal } with
        names := Function.update s.names name (some s.next)
        next := s.next + 1 }
    else s.set p { process with main := .signal }
  | .signal => s.set p { process with main := .running }
  | .running => s
  | .unlinked => s.set p (.finish .exited)
  | .exited | .killed => s

/-- A turn of `send_thread_func`; `write` without a reader is `SIGPIPE`. -/
def stepSend (s : State ι ε) (p : ι) : State ι ε × List (Event ι) :=
  let process := s.proc p
  if process.Live then
    match process.send with
    | .fgets => (s.set p { process with send := .openFifo }, [])
    | .openFifo =>
      match s.names (fifos p).fifoSend with
      | none => (s.set p { process with send := .fgets }, [.notOnline p])
      | some i =>
        if s.Read i then ((s.set p { process with send := .write i }).map (.meetWriter i), [])
        else (s.set p { process with send := .waits i }, [])
    | .waits _ => (s, [])
    | .write i =>
      if s.Read i then (s.set p { process with send := .close i }, [])
      else (s.set p (.finish .killed), [])
    | .close _ => (s.set p { process with send := .fgets }, [])
  else (s, [])

/-- A turn of `recv_thread_func`; without its FIFO it ends the program. -/
def stepRecv (s : State ι ε) (p : ι) : State ι ε × List (Event ι) :=
  let process := s.proc p
  if process.Live then
    match process.recv with
    | .openFifo =>
      match s.names (fifos p).fifoRecv with
      | none => (s.set p (.finish .exited), [.deleted p])
      | some i =>
        if s.Written i then ((s.set p { process with recv := .read i }).map (.meetReader i), [])
        else (s.set p { process with recv := .waits i }, [])
    | .waits _ => (s, [])
    | .read i => (s.set p { process with recv := .close i }, [])
    | .close _ => (s.set p { process with recv := .openFifo }, [])
  else (s, [])

/-- `SIGINT`: the end, until there is the handler; then `unlink`, and once more if another
thread takes a second one before the first has come to `_exit`. -/
def interrupt (s : State ι ε) (p : ι) : State ι ε :=
  let process := s.proc p
  match process.main with
  | .mkfifo | .signal => s.set p (.finish .killed)
  | .running =>
    { s.set p { process with main := .unlinked } with
      names := Function.update s.names (fifos p).fifoRecv none }
  | .unlinked => { s with names := Function.update s.names (fifos p).fifoRecv none }
  | .exited | .killed => s

/-- `SIGKILL` has no handler, whatever `signal` is asked for. -/
def kill (s : State ι ε) (p : ι) : State ι ε :=
  match (s.proc p).main with
  | .mkfifo | .signal | .running | .unlinked => s.set p (.finish .killed)
  | .exited | .killed => s

def step (s : State ι ε) : Input ι → State ι ε × List (Event ι)
  | .main p ok => (stepMain fifos s p ok, [])
  | .send p => stepSend fifos s p
  | .recv p => stepRecv fifos s p
  | .sigint p => (interrupt fifos s p, [])
  | .sigkill p => (kill s p, [])

/-- No FIFO yet, and no program started. -/
def start : State ι ε := ⟨fun _ => none, 0, fun _ => ⟨.mkfifo, .fgets, .openFifo⟩⟩

end Step

/-! ## Meeting -/

namespace Process
variable {i j : ℕ} {r : Process}

theorem main_meetWriter (i : ℕ) (r : Process) : (r.meetWriter i).main = r.main := by
  unfold meetWriter
  split_ifs <;> rfl

theorem main_meetReader (i : ℕ) (r : Process) : (r.meetReader i).main = r.main := by
  unfold meetReader
  split_ifs <;> rfl

theorem inode_meetWriter (i : ℕ) (r : Process) :
    (r.meetWriter i).recv.inode = r.recv.inode := by
  unfold meetWriter
  split_ifs with h
  · simp [h, Recv.inode]
  · rfl

theorem send_meetWriter (i : ℕ) (r : Process) : (r.meetWriter i).send = r.send := by
  unfold meetWriter
  split_ifs <;> rfl

theorem recv_meetReader (i : ℕ) (r : Process) : (r.meetReader i).recv = r.recv := by
  unfold meetReader
  split_ifs <;> rfl

theorem waits_meetReader :
    (r.meetReader i).send = .waits j ↔ r.send = .waits j ∧ j ≠ i := by
  unfold meetReader
  split_ifs with h
  · simp [h]
    tauto
  · refine ⟨fun hj => ⟨hj, ?_⟩, And.left⟩
    rintro rfl
    exact h hj

theorem open_meetWriter (i : ℕ) (h : r.recv = .openFifo) :
    (r.meetWriter i).recv = .openFifo := by
  simp [meetWriter, h]

end Process

/-! ## Names and programs -/

section Names
variable {ι ε : Type*} [DecidableEq ι] [Fintype ι] [DecidableEq ε] {fifos : ι → Entries ε}
  {s s' : State ι ε} {p q : ι}

variable (fifos) in
/-- There is a FIFO for those that are up, and for no others. -/
def Exact (s : State ι ε) : Prop :=
  ∀ n, s.names n ≠ none ↔ ∃ p, (s.proc p).Up ∧ (fifos p).fifoRecv = n

variable (fifos) in
/-- No two that are up receive on one FIFO. -/
def Single (s : State ι ε) : Prop :=
  ∀ p q, (s.proc p).Up → (s.proc q).Up → (fifos p).fifoRecv = (fifos q).fifoRecv → p = q

variable (fifos) in
/-- A program does not come up while another one receives on its FIFO. -/
def Alone (s : State ι ε) (input : Input ι) : Prop :=
  ∀ p, ¬ (s.proc p).Up → ((step fifos s input).1.proc p).Up →
    ∀ q, (s.proc q).Up → (fifos q).fifoRecv ≠ (fifos p).fifoRecv

variable (fifos) in
/-- A program that is up is killed. -/
def Kills (s : State ι ε) (input : Input ι) : Prop :=
  ∃ p, (s.proc p).Up ∧ ((step fifos s input).1.proc p).main = .killed

variable (fifos) in
/-- `mkfifo` fails where there is no FIFO. -/
def Fails (s : State ι ε) (input : Input ι) : Prop :=
  ∃ p, input = .main p false ∧ (s.proc p).main = .mkfifo ∧ s.names (fifos p).fifoRecv = none

variable (fifos) in
/-- A second `SIGINT` comes when the program has unlinked its FIFO and another one is up
that receives on one of that name. -/
def Again (s : State ι ε) (input : Input ι) : Prop :=
  ∃ p, input = .sigint p ∧ (s.proc p).main = .unlinked ∧
    ∃ q, (s.proc q).Up ∧ (fifos q).fifoRecv = (fifos p).fifoRecv

variable (fifos) in
/-- What leaves the directory other than the programs mean it to be. -/
def Spoils (s : State ι ε) (input : Input ι) : Prop :=
  Kills fifos s input ∨ Fails fifos s input ∨ Again fifos s input

variable (fifos) in
/-- What a step can be for the directory. -/
inductive Effect (s s' : State ι ε) : Prop
  | keep (hnames : s'.names = s.names) (hup : ∀ q, (s'.proc q).Up ↔ (s.proc q).Up)
  | mkfifo (p : ι) (hp : ¬ (s.proc p).Up)
      (hnames : ∀ n, s'.names n ≠ none ↔ n = (fifos p).fifoRecv ∨ s.names n ≠ none)
      (hup : ∀ q, (s'.proc q).Up ↔ q = p ∨ (s.proc q).Up)
  | leave (p : ι) (hp : (s.proc p).Up) (hmain : (s'.proc p).main ≠ .killed)
      (hnames : ∀ n, s'.names n ≠ none ↔ n ≠ (fifos p).fifoRecv ∧ s.names n ≠ none)
      (hup : ∀ q, (s'.proc q).Up ↔ q ≠ p ∧ (s.proc q).Up)
  | kill (p : ι) (hp : (s.proc p).Up) (hmain : (s'.proc p).main = .killed)
      (hnames : s'.names = s.names) (hup : ∀ q, (s'.proc q).Up ↔ q ≠ p ∧ (s.proc q).Up)

omit [Fintype ι] [DecidableEq ε] in
theorem up_set (s : State ι ε) (p q : ι) (process : Process) :
    ((s.set p process).proc q).Up ↔ if q = p then process.Up else (s.proc q).Up := by
  by_cases hq : q = p
  · subst hq
    simp [State.set]
  · simp [State.set, hq]

omit [Fintype ι] [DecidableEq ε] in
/-- A step of one program that does not change whether it is up. -/
theorem Effect.of_set {process : Process} (h : process.Up ↔ (s.proc p).Up) :
    Effect fifos s (s.set p process) := by
  refine .keep rfl fun q => ?_
  rw [up_set]
  split_ifs with hq
  · rw [h, hq]
  · rfl

omit [Fintype ι] [DecidableEq ε] in
theorem up_set_of_not {process : Process} (h : ¬ process.Up) (q : ι) :
    ((s.set p process).proc q).Up ↔ q ≠ p ∧ (s.proc q).Up := by
  rw [up_set]
  split_ifs with hq
  · simp [hq, h]
  · simp [hq]

theorem Process.not_up_finish {m : Main} (h : m = .exited ∨ m = .killed) :
    ¬ (Process.finish m).Up := by
  rcases h with rfl | rfl <;> simp [Process.Up, Process.finish]

omit [Fintype ι] [DecidableEq ε] in
theorem Effect.of_kill (hp : (s.proc p).Up) : Effect fifos s (s.set p (.finish .killed)) :=
  .kill p hp (by simp [State.set, Process.finish]) rfl
    (up_set_of_not (Process.not_up_finish (.inr rfl)))

omit [Fintype ι] [DecidableEq ε] in
theorem Effect.of_meet {process : Process} {f : Process → Process}
    (h : process.main = (s.proc p).main) (hf : ∀ r, (f r).main = r.main) :
    Effect fifos s ((s.set p process).map f) := by
  have hmain : ∀ q, (((s.set p process).map f).proc q).main = (s.proc q).main := by
    intro q
    by_cases hq : q = p
    · subst hq
      simp [State.map, State.set, hf, h]
    · simp [State.map, State.set, hf, hq]
  exact .keep rfl fun q => by simp [Process.Up, hmain]

omit [Fintype ι] [DecidableEq ε] in
theorem up_signal (s : State ι ε) (p q : ι) :
    ((s.set p { s.proc p with main := .signal }).proc q).Up ↔ q = p ∨ (s.proc q).Up := by
  rw [up_set]
  by_cases hq : q = p
  · simp [hq, Process.Up]
  · simp [hq]

omit [Fintype ι] in
/-- A program comes up with a FIFO, its own or one that was there. -/
theorem effect_main (s : State ι ε) (p : ι) (ok : Bool)
    (hmade : (s.proc p).main = .mkfifo → s.names (fifos p).fifoRecv = none → ok = true) :
    Effect fifos s (stepMain fifos s p ok) := by
  cases hmain : (s.proc p).main with
  | mkfifo =>
    simp only [stepMain, hmain]
    split_ifs with hnew
    · refine .mkfifo p (by simp [Process.Up, hmain]) (fun n => ?_) (up_signal s p)
      by_cases hn : n = (fifos p).fifoRecv <;> simp [hn]
    · refine .mkfifo p (by simp [Process.Up, hmain]) (fun n => ?_) (up_signal s p)
      have hname : s.names (fifos p).fifoRecv ≠ none := fun hnone =>
        hnew ⟨hnone, hmade hmain hnone⟩
      constructor
      · exact .inr
      · rintro (rfl | hn)
        · exact hname
        · exact hn
  | signal =>
    simp only [stepMain, hmain]
    exact .of_set (by simp [Process.Up, hmain])
  | unlinked =>
    simp only [stepMain, hmain]
    exact .of_set (by simp [Process.Up, Process.finish, hmain])
  | running | exited | killed =>
    simp only [stepMain, hmain]
    exact .keep rfl fun _ => Iff.rfl

omit [Fintype ι] [DecidableEq ε] in
theorem effect_end (s : State ι ε) (p : ι) : Effect fifos s (s.set p (.finish .killed)) := by
  by_cases hp : (s.proc p).Up
  · exact .of_kill hp
  · exact .of_set ⟨fun h => absurd h (Process.not_up_finish (.inr rfl)), fun h => absurd h hp⟩

omit [DecidableEq ε] in
theorem effect_send (s : State ι ε) (p : ι) : Effect fifos s (stepSend fifos s p).1 := by
  unfold stepSend
  by_cases hlive : (s.proc p).Live
  · rw [if_pos hlive]
    cases hsend : (s.proc p).send with
    | fgets | close => exact .of_set Iff.rfl
    | openFifo =>
      cases hname : s.names (fifos p).fifoSend with
      | none => exact .of_set Iff.rfl
      | some i =>
        by_cases hread : s.Read i
        · simp only [if_pos hread]
          exact .of_meet rfl (Process.main_meetWriter i)
        · simp only [if_neg hread]
          exact .of_set Iff.rfl
    | waits => exact .keep rfl fun _ => Iff.rfl
    | write i =>
      by_cases hread : s.Read i
      · simp only [if_pos hread]
        exact .of_set Iff.rfl
      · simp only [if_neg hread]
        exact effect_end s p
  · rw [if_neg hlive]
    exact .keep rfl fun _ => Iff.rfl

theorem effect_recv (s : State ι ε) (p : ι) : Effect fifos s (stepRecv fifos s p).1 := by
  unfold stepRecv
  by_cases hlive : (s.proc p).Live
  · rw [if_pos hlive]
    cases hrecv : (s.proc p).recv with
    | openFifo =>
      cases hname : s.names (fifos p).fifoRecv with
      | none =>
        have hdown : ¬ (Process.finish .exited).Up := Process.not_up_finish (.inl rfl)
        by_cases hp : (s.proc p).Up
        · refine .leave p hp (by simp [State.set, Process.finish]) (fun n => ?_)
            (up_set_of_not hdown)
          by_cases hn : n = (fifos p).fifoRecv <;> simp [hn, hname, State.set]
        · exact .of_set ⟨fun h => absurd h hdown, fun h => absurd h hp⟩
      | some i =>
        by_cases hwritten : s.Written i
        · simp only [if_pos hwritten]
          exact .of_meet rfl (Process.main_meetReader i)
        · simp only [if_neg hwritten]
          exact .of_set Iff.rfl
    | waits => exact .keep rfl fun _ => Iff.rfl
    | read | close => exact .of_set Iff.rfl
  · rw [if_neg hlive]
    exact .keep rfl fun _ => Iff.rfl

omit [Fintype ι] in
theorem effect_interrupt (h : Exact fifos s) (p : ι)
    (honce : (s.proc p).main = .unlinked → ∀ q, (s.proc q).Up →
      (fifos q).fifoRecv ≠ (fifos p).fifoRecv) : Effect fifos s (interrupt fifos s p) := by
  cases hmain : (s.proc p).main with
  | mkfifo | signal =>
    simp only [interrupt, hmain]
    exact effect_end s p
  | running =>
    simp only [interrupt, hmain]
    refine .leave p (.inr hmain) (by simp [State.set]) (fun n => ?_) fun q => ?_
    · by_cases hn : n = (fifos p).fifoRecv <;> simp [hn]
    · exact up_set_of_not (by simp [Process.Up]) q
  | unlinked =>
    simp only [interrupt, hmain]
    refine .keep ?_ fun _ => Iff.rfl
    -- the FIFO that is unlinked once more is not there
    have hnone : s.names (fifos p).fifoRecv = none := by
      by_contra hname
      obtain ⟨q, hq, heq⟩ := (h _).1 hname
      exact honce hmain q hq heq
    rw [← hnone, Function.update_eq_self]
  | exited | killed =>
    simp only [interrupt, hmain]
    exact .keep rfl fun _ => Iff.rfl

omit [Fintype ι] [DecidableEq ε] in
theorem effect_kill (s : State ι ε) (p : ι) : Effect fifos s (kill s p) := by
  cases hmain : (s.proc p).main with
  | mkfifo | signal | running | unlinked =>
    simp only [kill, hmain]
    exact effect_end s p
  | exited | killed =>
    simp only [kill, hmain]
    exact .keep rfl fun _ => Iff.rfl

theorem effect_step (h : Exact fifos s) {input : Input ι} (hfails : ¬ Fails fifos s input)
    (hagain : ¬ Again fifos s input) : Effect fifos s (step fifos s input).1 := by
  cases input with
  | main p ok =>
    refine effect_main s p ok fun hmain hnone => ?_
    by_contra hok
    obtain rfl := Bool.eq_false_iff.2 hok
    exact hfails ⟨p, rfl, hmain, hnone⟩
  | send p => exact effect_send s p
  | recv p => exact effect_recv s p
  | sigint p =>
    exact effect_interrupt h p fun hmain q hq heq => hagain ⟨p, rfl, hmain, q, hq, heq⟩
  | sigkill p => exact effect_kill s p

theorem not_killed_of_up {process : Process} (h : process.Up) : process.main ≠ .killed := by
  rintro hmain
  simp [Process.Up, hmain] at h

theorem single_step (hexact : Exact fifos s) (h : Single fifos s) {input : Input ι}
    (halone : Alone fifos s input) (hfails : ¬ Fails fifos s input)
    (hagain : ¬ Again fifos s input) : Single fifos (step fifos s input).1 := by
  intro q q' hq hq' heq
  cases effect_step hexact hfails hagain with
  | keep _ hup => exact h q q' ((hup q).1 hq) ((hup q').1 hq') heq
  | mkfifo p hp _ hup =>
    have hnew := halone p hp ((hup p).2 (.inl rfl))
    rcases (hup q).1 hq with rfl | hq <;> rcases (hup q').1 hq' with rfl | hq'
    · rfl
    · exact absurd heq.symm (hnew q' hq')
    · exact absurd heq (hnew q hq)
    · exact h q q' hq hq' heq
  | leave _ _ _ _ hup => exact h q q' ((hup q).1 hq).2 ((hup q').1 hq').2 heq
  | kill _ _ _ _ hup => exact h q q' ((hup q).1 hq).2 ((hup q').1 hq').2 heq

omit [DecidableEq ι] [Fintype ι] [DecidableEq ε] in
/-- Who comes up without a FIFO, or loses it, is up without one. -/
theorem not_exact {names : ε → Option ℕ} {next : ℕ} {proc : ι → Process} (hup : (proc p).Up)
    (hname : names (fifos p).fifoRecv = none) : ¬ Exact fifos ⟨names, next, proc⟩ := fun h =>
  (h _).2 ⟨p, hup, rfl⟩ hname

/-- The directory stays exact in a step if and only if the step kills nobody that is up,
makes no program come up without its FIFO and unlinks no FIFO of another one. -/
theorem exact_step (h : Exact fifos s) (hsingle : Single fifos s) (input : Input ι) :
    Exact fifos (step fifos s input).1 ↔ ¬ Spoils fifos s input := by
  by_cases hfails : Fails fifos s input
  · refine iff_of_false ?_ fun hnone => hnone (.inr (.inl hfails))
    obtain ⟨p, rfl, hmain, hname⟩ := hfails
    have hup := (up_signal s p p).2 (.inl rfl)
    simp only [step, stepMain, hmain, hname, Bool.false_eq_true, and_false, if_false]
    exact not_exact hup hname
  by_cases hagain : Again fifos s input
  · refine iff_of_false ?_ fun hnone => hnone (.inr (.inr hagain))
    obtain ⟨p, rfl, hmain, q, hq, heq⟩ := hagain
    simp only [step, interrupt, hmain]
    exact not_exact hq (by rw [heq, Function.update_self])
  rw [Spoils, or_iff_left (not_or.2 ⟨hfails, hagain⟩)]
  cases effect_step h hfails hagain with
  | keep hnames hup =>
    refine iff_of_true (fun n => ?_) ?_
    · rw [hnames, h n]
      simp only [hup]
    · rintro ⟨q, hq, hkilled⟩
      exact not_killed_of_up ((hup q).2 hq) hkilled
  | mkfifo p _ hnames hup =>
    refine iff_of_true (fun n => ?_) ?_
    · rw [hnames, h n]
      simp only [hup, or_and_right, exists_or, exists_eq_left]
      rw [eq_comm]
    · rintro ⟨q, hq, hkilled⟩
      exact not_killed_of_up ((hup q).2 (.inr hq)) hkilled
  | leave p hp hmain hnames hup =>
    refine iff_of_true (fun n => ?_) ?_
    · rw [hnames, h n]
      constructor
      · rintro ⟨hne, q, hq, rfl⟩
        exact ⟨q, (hup q).2 ⟨fun heq => hne (by rw [heq]), hq⟩, rfl⟩
      · rintro ⟨q, hq, rfl⟩
        obtain ⟨hne, hq⟩ := (hup q).1 hq
        exact ⟨fun heq => hne (hsingle q p hq hp heq), q, hq, rfl⟩
    · rintro ⟨q, hq, hkilled⟩
      by_cases hne : q = p
      · exact hmain (hne ▸ hkilled)
      · exact not_killed_of_up ((hup q).2 ⟨hne, hq⟩) hkilled
  | kill p hp hmain hnames hup =>
    refine iff_of_false (fun hexact => ?_) fun hnone => hnone ⟨p, hp, hmain⟩
    have hname : (step fifos s input).1.names (fifos p).fifoRecv ≠ none := by
      rw [hnames]
      exact (h _).2 ⟨p, hp, rfl⟩
    obtain ⟨q, hq, heq⟩ := (hexact _).1 hname
    obtain ⟨hne, hq⟩ := (hup q).1 hq
    exact hne (hsingle q p hq hp heq)

end Names

/-! ## The receiving threads of those that are up -/

section Held
variable {ι ε : Type*} {fifos : ι → Entries ε} {s s' : State ι ε} {p q : ι} {process : Process}

variable (fifos) in
/-- Who is up reads its FIFO under the inode that the name leads to. -/
structure Held (s : State ι ε) : Prop where
  fresh : ∀ q, (s.proc q).main = .mkfifo → (s.proc q).recv = .openFifo
  inode : ∀ q, (s.proc q).Up → ∀ i, (s.proc q).recv.inode = some i →
    s.names (fifos q).fifoRecv = some i

theorem held_start : Held fifos (start : State ι ε) :=
  ⟨fun _ _ => rfl, by simp [start, Recv.inode]⟩

theorem Held.map (h : Held fifos s) {f : Process → Process} (hmain : ∀ r, (f r).main = r.main)
    (hinode : ∀ r, (f r).recv.inode = r.recv.inode)
    (hopen : ∀ r, r.recv = .openFifo → (f r).recv = .openFifo) : Held fifos (s.map f) := by
  refine ⟨fun q hq => hopen _ (h.fresh q ?_), fun q hq i hi => h.inode q ?_ i ?_⟩
  · simpa [State.map, hmain] using hq
  · simpa [State.map, Process.Up, hmain] using hq
  · simpa [State.map, hinode] using hi

/-- The names of those that are up stay. -/
theorem Held.rename (h : Held fifos s) (hproc : s'.proc = s.proc)
    (hnames : ∀ q, (s.proc q).Up → ∀ i, s.names (fifos q).fifoRecv = some i →
      s'.names (fifos q).fifoRecv = some i) : Held fifos s' := by
  refine ⟨fun q hq => ?_, fun q hq i hi => ?_⟩
  · rw [hproc] at hq ⊢
    exact h.fresh q hq
  · rw [hproc] at hq hi
    exact hnames q hq i (h.inode q hq i hi)

variable [DecidableEq ι]

theorem Held.set (h : Held fifos s) (hfresh : process.main = .mkfifo → process.recv = .openFifo)
    (hinode : process.Up → ∀ i, process.recv.inode = some i →
      s.names (fifos p).fifoRecv = some i) : Held fifos (s.set p process) := by
  refine ⟨fun q hq => ?_, fun q hq i hi => ?_⟩
  · by_cases hne : q = p
    · subst hne
      simpa [State.set] using hfresh (by simpa [State.set] using hq)
    · simpa [State.set, hne] using h.fresh q (by simpa [State.set, hne] using hq)
  · by_cases hne : q = p
    · subst hne
      exact hinode (by simpa [State.set] using hq) i (by simpa [State.set] using hi)
    · exact h.inode q (by simpa [State.set, hne] using hq) i (by simpa [State.set, hne] using hi)

theorem Held.finish (h : Held fifos s) (p : ι) (m : Main) (hm : m = .exited ∨ m = .killed) :
    Held fifos (s.set p (.finish m)) :=
  h.set (fun _ => rfl) fun hup => absurd hup (Process.not_up_finish hm)

/-- A step of the program that leaves its receiving thread where it is. -/
theorem Held.stay (h : Held fifos s) (hmain : process.main = .mkfifo → (s.proc p).main = .mkfifo)
    (hup : process.Up → (s.proc p).Up) (hrecv : process.recv = (s.proc p).recv) :
    Held fifos (s.set p process) :=
  h.set (fun hm => by rw [hrecv, h.fresh p (hmain hm)]) fun hu i hi =>
    h.inode p (hup hu) i (by rwa [← hrecv])

variable [DecidableEq ε]

theorem held_main (h : Held fifos s) (p : ι) (ok : Bool) :
    Held fifos (stepMain fifos s p ok) := by
  cases hmain : (s.proc p).main with
  | mkfifo =>
    have hrecv := h.fresh p hmain
    have hset : Held fifos (s.set p { s.proc p with main := .signal }) :=
      h.set (by simp) (by simp [hrecv, Recv.inode])
    simp only [stepMain, hmain]
    split_ifs with hnew
    · refine hset.rename rfl fun q _ i hi => ?_
      have hi : s.names (fifos q).fifoRecv = some i := hi
      have hne : (fifos q).fifoRecv ≠ (fifos p).fifoRecv := by
        intro heq
        rw [heq, hnew.1] at hi
        cases hi
      simp [hne, hi]
    · exact hset
  | signal =>
    simp only [stepMain, hmain]
    exact h.stay (by simp) (fun _ => .inl hmain) rfl
  | unlinked =>
    simp only [stepMain, hmain]
    exact h.finish p .exited (.inl rfl)
  | running | exited | killed =>
    simp only [stepMain, hmain]
    exact h

theorem held_interrupt (h : Held fifos s) (hsingle : Single fifos s) (p : ι)
    (honce : (s.proc p).main = .unlinked → ∀ q, (s.proc q).Up →
      (fifos q).fifoRecv ≠ (fifos p).fifoRecv) : Held fifos (interrupt fifos s p) := by
  cases hmain : (s.proc p).main with
  | mkfifo | signal =>
    simp only [interrupt, hmain]
    exact h.finish p .killed (.inr rfl)
  | running =>
    have hset : Held fifos (s.set p { s.proc p with main := .unlinked }) :=
      h.stay (by simp) (by simp [Process.Up]) rfl
    simp only [interrupt, hmain]
    refine hset.rename rfl fun q hq i hi => ?_
    obtain ⟨hne, hq⟩ := (up_set_of_not (by simp [Process.Up]) q).1 hq
    have hname : (fifos q).fifoRecv ≠ (fifos p).fifoRecv := fun heq =>
      hne (hsingle q p hq (.inr hmain) heq)
    simpa [hname, State.set] using hi
  | unlinked =>
    simp only [interrupt, hmain]
    refine h.rename rfl fun q hq i hi => ?_
    simpa [honce hmain q hq] using hi
  | exited | killed =>
    simp only [interrupt, hmain]
    exact h

omit [DecidableEq ε] in
theorem held_kill (h : Held fifos s) (p : ι) : Held fifos (kill s p) := by
  cases hmain : (s.proc p).main with
  | mkfifo | signal | running | unlinked =>
    simp only [kill, hmain]
    exact h.finish p .killed (.inr rfl)
  | exited | killed =>
    simp only [kill, hmain]
    exact h

variable [Fintype ι]

omit [DecidableEq ε] in
theorem held_send (h : Held fifos s) (p : ι) : Held fifos (stepSend fifos s p).1 := by
  have hset : ∀ send, Held fifos (s.set p { s.proc p with send := send }) := fun send =>
    h.stay id id rfl
  unfold stepSend
  by_cases hlive : (s.proc p).Live
  · rw [if_pos hlive]
    cases hsend : (s.proc p).send with
    | fgets | close => exact hset _
    | openFifo =>
      cases hname : s.names (fifos p).fifoSend with
      | none => exact hset _
      | some i =>
        by_cases hread : s.Read i
        · simp only [if_pos hread]
          exact (hset _).map (Process.main_meetWriter i) (Process.inode_meetWriter i)
            fun _ => Process.open_meetWriter i
        · simp only [if_neg hread]
          exact hset _
    | waits => exact h
    | write i =>
      by_cases hread : s.Read i
      · simp only [if_pos hread]
        exact hset _
      · simp only [if_neg hread]
        exact h.finish p .killed (.inr rfl)
  · rwa [if_neg hlive]

omit [DecidableEq ε] in
theorem held_recv (h : Held fifos s) (p : ι) : Held fifos (stepRecv fifos s p).1 := by
  unfold stepRecv
  by_cases hlive : (s.proc p).Live
  · have hmain : (s.proc p).main ≠ .mkfifo := by
      rcases hlive with hlive | hlive <;> simp [hlive]
    have hset : ∀ recv, (∀ i, recv.inode = some i → (s.proc p).Up →
        s.names (fifos p).fifoRecv = some i) →
        Held fifos (s.set p { s.proc p with recv := recv }) := fun recv hrecv =>
      h.set (fun hm => absurd hm hmain) fun hup i hi => hrecv i hi hup
    rw [if_pos hlive]
    cases hrecv : (s.proc p).recv with
    | openFifo =>
      cases hname : s.names (fifos p).fifoRecv with
      | none => exact h.finish p .exited (.inl rfl)
      | some i =>
        have hopen : ∀ recv : Recv, recv.inode = some i →
            Held fifos (s.set p { s.proc p with recv := recv }) := fun recv hi =>
          hset recv fun j hj _ => by rw [hname, ← hi, hj]
        by_cases hwritten : s.Written i
        · simp only [if_pos hwritten]
          refine (hopen (.read i) rfl).map (Process.main_meetReader i) (fun r => ?_) fun r hr => ?_
          · rw [Process.recv_meetReader]
          · rwa [Process.recv_meetReader]
        · simp only [if_neg hwritten]
          exact hopen (.waits i) rfl
    | waits => exact h
    | read i => exact hset _ fun j hj hup => h.inode p hup j (by rw [hrecv, ← hj]; rfl)
    | close i => exact hset _ (by simp [Recv.inode])
  · rwa [if_neg hlive]

theorem held_step (h : Held fifos s) (hsingle : Single fifos s) {input : Input ι}
    (hagain : ¬ Again fifos s input) : Held fifos (step fifos s input).1 := by
  cases input with
  | main p ok => exact held_main h p ok
  | send p => exact held_send h p
  | recv p => exact held_recv h p
  | sigint p =>
    exact held_interrupt h hsingle p fun hmain q hq heq => hagain ⟨p, rfl, hmain, q, hq, heq⟩
  | sigkill p => exact held_kill h p

end Held

/-! ## Runs -/

section Runs
variable {ι ε : Type*} [DecidableEq ι] [Fintype ι] [DecidableEq ε] {fifos : ι → Entries ε}
  {s : State ι ε} {p : ι}

instance (s : State ι ε) (input : Input ι) : Decidable (Alone fifos s input) :=
  inferInstanceAs (Decidable (∀ _, _))

instance (s : State ι ε) (input : Input ι) : Decidable (Kills fifos s input) :=
  inferInstanceAs (Decidable (∃ _, _))

instance (s : State ι ε) (input : Input ι) : Decidable (Fails fifos s input) :=
  inferInstanceAs (Decidable (∃ _, _))

instance (s : State ι ε) (input : Input ι) : Decidable (Again fifos s input) :=
  inferInstanceAs (Decidable (∃ _, _))

instance (s : State ι ε) (input : Input ι) : Decidable (Spoils fifos s input) :=
  inferInstanceAs (Decidable (_ ∨ _ ∨ _))

variable (fifos) in
/-- The directory as the programs mean it to be. -/
structure Tidy (s : State ι ε) : Prop where
  exact : Exact fifos s
  single : Single fifos s
  held : Held fifos s

omit [DecidableEq ι] [Fintype ι] [DecidableEq ε] in
theorem tidy_start : Tidy fifos (start : State ι ε) :=
  ⟨fun n => by simp [start, Process.Up], fun p q hp => by simp [start, Process.Up] at hp,
    held_start⟩

theorem tidy_step (h : Tidy fifos s) {input : Input ι} (halone : Alone fifos s input)
    (hspoils : ¬ Spoils fifos s input) : Tidy fifos (step fifos s input).1 :=
  ⟨(exact_step h.exact h.single input).2 hspoils,
    single_step h.exact h.single halone (fun hfails => hspoils (.inr (.inl hfails)))
      (fun hagain => hspoils (.inr (.inr hagain))),
    held_step h.held h.single fun hagain => hspoils (.inr (.inr hagain))⟩

theorem tidy_run {inputs : List (Input ι)}
    (halone : Along (step fifos) (Alone fifos) start inputs)
    (hspoils : Along (step fifos) (fun s input => ¬ Spoils fifos s input) start inputs) :
    Tidy fifos (exec (step fifos) start inputs) :=
  invariant (Tidy fifos) (fun _ _ h hstep => tidy_step h hstep.1 hstep.2) tidy_start
    ((along_and start inputs).2 ⟨halone, hspoils⟩)

theorem notOnline_iff (h : Tidy fifos s) (hlive : (s.proc p).Live)
    (hsend : (s.proc p).send = .openFifo) :
    (step fifos s (.send p)).2 = [.notOnline p] ↔
      ¬ ∃ q, (s.proc q).Up ∧ (fifos q).fifoRecv = (fifos p).fifoSend := by
  rw [← h.exact, not_not]
  cases hname : s.names (fifos p).fifoSend with
  | none => simp [step, stepSend, hlive, hsend, hname]
  | some i => by_cases hread : s.Read i <;> simp [step, stepSend, hlive, hsend, hname, hread]

theorem unlinked_of_deleted (h : Tidy fifos s)
    (hdeleted : .deleted p ∈ (step fifos s (.recv p)).2) :
    (s.proc p).main = .unlinked := by
  by_cases hlive : (s.proc p).Live
  · refine hlive.resolve_left fun hmain => ?_
    have hname : s.names (fifos p).fifoRecv ≠ none := (h.exact _).2 ⟨p, .inr hmain, rfl⟩
    obtain ⟨i, hi⟩ := Option.ne_none_iff_exists'.1 hname
    cases hrecv : (s.proc p).recv with
    | openFifo =>
      by_cases hwritten : s.Written i <;>
        simp [step, stepRecv, hlive, hrecv, hi, hwritten] at hdeleted
    | waits | read | close => simp [step, stepRecv, hlive, hrecv] at hdeleted
  · simp [step, stepRecv, hlive] at hdeleted

/-- All along a run, the directory is exact as long as no step spoils it. -/
theorem along_exact_iff {inputs : List (Input ι)}
    (halone : Along (step fifos) (Alone fifos) start inputs) :
    Along (step fifos) (fun s input => Exact fifos (step fifos s input).1) start inputs ↔
      Along (step fifos) (fun s input => ¬ Spoils fifos s input) start inputs := by
  have hsame : ∀ s input, Tidy fifos s →
      (Alone fifos s input ∧ Exact fifos (step fifos s input).1 ↔
        Alone fifos s input ∧ ¬ Spoils fifos s input) := fun s input h =>
    and_congr_right fun _ => exact_step h.exact h.single input
  have hboth := along_iff hsame (fun _ _ h hstep => tidy_step h hstep.1 hstep.2) tidy_start inputs
  rw [along_and, along_and] at hboth
  simpa only [halone, true_and] using hboth

/-- The paths of two friends in a directory of their own. -/
def friends : Bool → Entries Bytes := fun b =>
  entries id (if b then ⟨ascii "T_to_J", ascii "J_to_T"⟩ else ⟨ascii "J_to_T", ascii "T_to_J"⟩)

end Runs

end AcademyLab.Fifo.Presence
