import AcademyLab.CString
import AcademyLab.Descriptors
import AcademyLab.Machine

/-!
# A pipe between a parent and its child

`pipe.c`, `pipe_2.c` and `lab_3.c`. The child of `pipe.c` closes the write end it does not
use, the other two leave that out. `lab_3.c` does not test what `pipe` returns either: if
`pipe` fails, it goes on with `filedes` as it was, which is taken to name no open
descriptor. A step is one system call or one `printf` of one process; a `read` that has to
wait leaves everything as it is. What `perror` prints is left out.
-/
namespace AcademyLab.Pipe
open CString Descriptors Machine

inductive Proc
  | parent | child
  deriving DecidableEq

instance : Fintype Proc := ⟨{.parent, .child}, fun p => by cases p <;> decide⟩

inductive End
  | read | write
  deriving DecidableEq

/-- Where the parent stands; `killed` is the end by `SIGPIPE`. -/
inductive Parent
  | pipe | fork | closeRead | write | closeWrite
  | exited (status : ℤ)
  | killed
  deriving DecidableEq

inductive Child
  | unborn | closeWrite | read | print | closeRead | exited
  deriving DecidableEq

/-- What the three programs differ in. -/
inductive Program
  | pipe | pipe2 | lab3
  deriving DecidableEq

/-- The child's `close(filedes[1])` is there. -/
def Program.closes : Program → Bool
  | .pipe => true
  | .pipe2 | .lab3 => false

/-- The result of `pipe` is tested. -/
def Program.checks : Program → Bool
  | .pipe | .pipe2 => true
  | .lab3 => false

/-- `filled` says whether `pipe` has stored its ends in `filedes`. `buffer` is the child's;
what it holds at first is anything. -/
structure State where
  filled : Bool
  table : Table Proc End
  data : Bytes
  buffer : Bytes
  parent : Parent
  child : Child

/-- Who goes on; for the parent, whether `pipe` or `fork` succeeds if it is there. -/
inductive Input
  | parent (ok : Bool)
  | child
  deriving DecidableEq

def message : Bytes := ascii "Hello, child!" ++ [0]

/-- `sizeof(buffer)`. -/
def bufferSize : ℕ := 100

def received (buffer : Bytes) : Bytes :=
  ascii "Received from parent: " ++ ofMemory buffer ++ ascii "\n"

def start (garbage : Bytes) : State :=
  ⟨false, fun _ _ => false, [], garbage, .pipe, .unborn⟩

section Step
variable (program : Program)

/-- The parent's next system call. Its last close and its `return 0` are one step. -/
def stepParent (s : State) (ok : Bool) : State :=
  match s.parent with
  | .pipe =>
    if ok then
      let table := acquire (acquire s.table .parent .read) .parent .write
      { s with filled := true, table := table, parent := .fork }
    else if program.checks then { s with parent := .exited (-1) }
    else { s with parent := .fork }
  | .fork =>
    if ok then
      let child := if program.closes then .closeWrite else .read
      { s with table := fork s.table .parent .child, parent := .closeRead, child := child }
    else { s with table := exit s.table .parent, parent := .exited (-1) }
  | .closeRead => { s with table := close s.table .parent .read, parent := .write }
  | .write =>
    if s.filled = false then { s with parent := .closeWrite }
    else if InUse s.table .read then { s with data := s.data ++ message, parent := .closeWrite }
    else { s with table := exit s.table .parent, parent := .killed }
  | .closeWrite =>
    { s with table := exit (close s.table .parent .write) .parent, parent := .exited 0 }
  | .exited _ | .killed => s

/-- The child's next system call or `printf`; the event is what it prints. -/
def stepChild (s : State) : State × List Bytes :=
  match s.child with
  | .closeWrite => ({ s with table := close s.table .child .write, child := .read }, [])
  | .read =>
    if s.filled = false then ({ s with child := .closeRead }, [])
    else if s.data ≠ [] then
      let buffer := overwrite s.buffer (s.data.take bufferSize)
      ({ s with data := s.data.drop bufferSize, buffer := buffer, child := .print }, [])
    else if InUse s.table .write then (s, [])
    else ({ s with child := .closeRead }, [])
  | .print => ({ s with child := .read }, [received s.buffer])
  | .closeRead =>
    ({ s with table := exit (close s.table .child .read) .child, child := .exited }, [])
  | .unborn | .exited => (s, [])

def step (s : State) : Input → State × List Bytes
  | .parent ok => (stepParent program s ok, [])
  | .child => stepChild s

/-- No step changes anything any more. -/
def Stuck (s : State) : Prop := ∀ i, (step program s i).1 = s

end Step

/-! ## What a position says -/

def Parent.holds : Parent → End → Bool
  | .fork, _ | .closeRead, _ => true
  | .write, .write | .closeWrite, .write => true
  | _, _ => false

def Child.holds (program : Program) : Child → End → Bool
  | .closeWrite, _ => true
  | .read, .read | .print, .read | .closeRead, .read => true
  | .read, .write | .print, .write | .closeRead, .write => !program.closes
  | .unborn, _ | .exited, _ => false

/-- How far the message has come: not written, in the pipe, in the buffer, printed, or
never to be written because the parent has failed. -/
inductive Stage (program : Program) : State → List Bytes → Prop
  | failed {s} (parent : s.parent = .exited (-1)) (child : s.child = .unborn) :
      Stage program s []
  | before {s} (parent : s.parent = .pipe ∧ s.filled = false ∨ s.parent = .fork ∧ s.filled = true)
      (child : s.child = .unborn) (data : s.data = []) : Stage program s []
  | unwritten {s} (filled : s.filled = true) (parent : s.parent = .closeRead ∨ s.parent = .write)
      (child : s.child = .read ∨ s.child = .closeWrite ∧ program.closes = true)
      (data : s.data = []) : Stage program s []
  | written {s} (filled : s.filled = true) (parent : s.parent = .closeWrite ∨ s.parent = .exited 0)
      (child : s.child = .read ∨ s.child = .closeWrite ∧ program.closes = true)
      (data : s.data = message) : Stage program s []
  | copied {s} (filled : s.filled = true) (parent : s.parent = .closeWrite ∨ s.parent = .exited 0)
      (child : s.child = .print) (data : s.data = [])
      (buffer : ofMemory s.buffer = ascii "Hello, child!") : Stage program s []
  | printed {s} (filled : s.filled = true) (parent : s.parent = .closeWrite ∨ s.parent = .exited 0)
      (child : s.child = .read) (data : s.data = []) : Stage program s [received message]
  | ended {s} (filled : s.filled = true) (parent : s.parent = .exited 0)
      (child : s.child = .closeRead ∨ s.child = .exited) (data : s.data = [])
      (hcloses : program.closes = true) : Stage program s [received message]

/-- Of a run whose `pipe` has not failed. -/
structure Inv (program : Program) (s : State) (log : List Bytes) : Prop where
  parent : s.table .parent = s.parent.holds
  child : s.table .child = s.child.holds program
  stage : Stage program s log

/-- Of a run of `lab_3.c` that goes on without a pipe. -/
structure Unmade (program : Program) (s : State) (log : List Bytes) : Prop where
  checks : program.checks = false
  filled : s.filled = false
  table : s.table = fun _ _ => false
  data : s.data = []
  silent : log = []
  position : s.child = .unborn ∧ (s.parent = .fork ∨ s.parent = .exited (-1)) ∨
    (s.child = .closeWrite ∨ s.child = .read ∨ s.child = .closeRead ∨ s.child = .exited) ∧
      (s.parent = .closeRead ∨ s.parent = .write ∨ s.parent = .closeWrite ∨ s.parent = .exited 0)

section Invariant
variable {program : Program} {s : State} {log : List Bytes}

theorem inv_start (garbage : Bytes) : Inv program (start garbage) [] where
  parent := by
    funext e
    cases e <;> rfl
  child := by
    funext e
    cases e <;> rfl
  stage := .before (.inl ⟨rfl, rfl⟩) rfl rfl

theorem inUse_iff {t : Table Proc End} {e : End} :
    InUse t e ↔ t .parent e = true ∨ t .child e = true := by
  constructor
  · rintro ⟨p, hp⟩
    cases p with
    | parent => exact .inl hp
    | child => exact .inr hp
  · rintro (hp | hp)
    · exact ⟨.parent, hp⟩
    · exact ⟨.child, hp⟩

/-- The state after the parent's last close. -/
def closed (s : State) : State :=
  { s with table := exit (close s.table .parent .write) .parent, parent := .exited 0 }

theorem inv_closed (h : Inv program s log) (hstage : Stage program (closed s) log) :
    Inv program (closed s) log where
  parent := by
    funext e
    simp [closed, exit, Parent.holds]
  child := by
    funext e
    simp [closed, exit, close, h.child]
  stage := hstage

theorem stepParent_closeWrite (h : s.parent = .closeWrite) (ok : Bool) :
    stepParent program s ok = closed s := by
  simp [stepParent, h, closed]

theorem stepParent_ended (h : s.parent = .exited 0) (ok : Bool) : stepParent program s ok = s := by
  simp [stepParent, h]

theorem stepChild_reads (h : s.child = .read) (hfilled : s.filled = true) (hdata : s.data ≠ []) :
    stepChild s = ({ s with
      data := s.data.drop bufferSize
      buffer := overwrite s.buffer (s.data.take bufferSize)
      child := .print }, []) := by
  simp [stepChild, h, hfilled, hdata]

theorem stepChild_waits (h : s.child = .read) (hfilled : s.filled = true) (hdata : s.data = [])
    (hwriter : InUse s.table .write) : stepChild s = (s, []) := by
  simp [stepChild, h, hfilled, hdata, hwriter]

theorem stepChild_ends (h : s.child = .read) (hfilled : s.filled = true) (hdata : s.data = [])
    (hwriter : ¬ InUse s.table .write) : stepChild s = ({ s with child := .closeRead }, []) := by
  simp [stepChild, h, hfilled, hdata, hwriter]

/-- A failed `pipe` is tested, or does not happen. -/
theorem inv_parent (h : Inv program s log) (ok : Bool)
    (hmade : s.parent = .pipe → ok = false → program.checks = true) :
    Inv program (stepParent program s ok) log := by
  have hp := h.parent
  have hc := h.child
  cases h.stage with
  | failed parent child =>
    have hs : stepParent program s ok = s := by simp [stepParent, parent]
    rwa [hs]
  | before parent child data =>
    rcases parent with ⟨parent, -⟩ | ⟨parent, filled⟩
    · rw [parent] at hp
      cases ok with
      | false =>
        simp only [stepParent, parent, hmade parent rfl]
        exact ⟨hp, hc, .failed rfl child⟩
      | true =>
        simp only [stepParent, parent]
        refine ⟨?_, ?_, .before (.inr ⟨rfl, rfl⟩) child data⟩
        · funext e
          cases e <;> simp [acquire, Parent.holds]
        · funext e
          simp [acquire, hc]
    · rw [parent] at hp
      cases ok with
      | false =>
        simp only [stepParent, parent]
        refine ⟨?_, ?_, .failed rfl child⟩
        · funext e
          simp [exit, Parent.holds]
        · funext e
          simp [exit, hc]
      | true =>
        simp only [stepParent, parent]
        refine ⟨?_, ?_, .unwritten filled (.inl rfl) ?_ data⟩
        · funext e
          simp [fork, hp, Parent.holds]
        · funext e
          cases hcloses : program.closes <;> cases e <;>
            simp [fork, hp, hcloses, Parent.holds, Child.holds]
        · cases hcloses : program.closes <;> simp
  | unwritten filled parent child data =>
    rcases parent with parent | parent
    · rw [parent] at hp
      simp only [stepParent, parent]
      refine ⟨?_, ?_, .unwritten filled (.inr rfl) child data⟩
      · funext e
        cases e <;> simp [close, hp, Parent.holds]
      · funext e
        simp [close, hc]
    · have hreader : InUse s.table .read := by
        rw [inUse_iff, hc]
        rcases child with child | ⟨child, -⟩ <;> simp [child, Child.holds]
      rw [parent] at hp
      simp only [stepParent, parent, filled, Bool.true_eq_false, if_false, if_pos hreader]
      refine ⟨?_, hc, .written rfl (.inl rfl) child (by simp [data])⟩
      funext e
      cases e <;> simp [hp, Parent.holds]
  | written filled parent child data =>
    rcases parent with parent | parent
    · rw [stepParent_closeWrite parent]
      exact inv_closed h (.written filled (.inr rfl) child data)
    · rwa [stepParent_ended parent]
  | copied filled parent child data buffer =>
    rcases parent with parent | parent
    · rw [stepParent_closeWrite parent]
      exact inv_closed h (.copied filled (.inr rfl) child data buffer)
    · rwa [stepParent_ended parent]
  | printed filled parent child data =>
    rcases parent with parent | parent
    · rw [stepParent_closeWrite parent]
      exact inv_closed h (.printed filled (.inr rfl) child data)
    · rwa [stepParent_ended parent]
  | ended filled parent child data hcloses => rwa [stepParent_ended parent]

theorem ofMemory_message (garbage : Bytes) :
    ofMemory (overwrite garbage (message.take bufferSize)) = ascii "Hello, child!" :=
  ofMemory_of_prefix (by decide) ⟨garbage.drop 14, rfl⟩

theorem inv_child (h : Inv program s log) :
    Inv program (stepChild s).1 (log ++ (stepChild s).2) := by
  have hp := h.parent
  have hc := h.child
  cases h.stage with
  | failed parent child => simpa [stepChild, child] using h
  | before parent child data => simpa [stepChild, child] using h
  | unwritten filled parent child data =>
    rcases child with child | ⟨child, hcloses⟩
    · have hwriter : InUse s.table .write := by
        rw [inUse_iff, hp]
        rcases parent with parent | parent <;> simp [parent, Parent.holds]
      rwa [stepChild_waits child filled data hwriter]
    · rw [child] at hc
      simp only [stepChild, child, List.append_nil]
      refine ⟨?_, ?_, .unwritten filled parent (.inl rfl) data⟩
      · funext e
        simp [close, hp]
      · funext e
        cases e <;> simp [close, hc, hcloses, Child.holds]
  | written filled parent child data =>
    rcases child with child | ⟨child, hcloses⟩
    · rw [child] at hc
      have hdata : s.data ≠ [] := by
        rw [data]
        decide
      rw [stepChild_reads child filled hdata, data]
      refine ⟨hp, ?_, .copied filled parent rfl rfl (ofMemory_message s.buffer)⟩
      funext e
      cases e <;> simp [hc, Child.holds]
    · rw [child] at hc
      simp only [stepChild, child, List.append_nil]
      refine ⟨?_, ?_, .written filled parent (.inl rfl) data⟩
      · funext e
        simp [close, hp]
      · funext e
        cases e <;> simp [close, hc, hcloses, Child.holds]
  | copied filled parent child data buffer =>
    rw [child] at hc
    simp only [stepChild, child, List.nil_append]
    have hprinted : received s.buffer = received message := by
      rw [received, received, buffer]
      rfl
    rw [hprinted]
    refine ⟨hp, ?_, .printed filled parent rfl data⟩
    funext e
    cases e <;> simp [hc, Child.holds]
  | printed filled parent child data =>
    by_cases hwriter : InUse s.table .write
    · rwa [stepChild_waits child filled data hwriter]
    · have hnone := hwriter
      rw [inUse_iff, hp, hc, child] at hnone
      have hend : s.parent = .exited 0 ∧ program.closes = true := by
        rcases parent with parent | parent <;> simp_all [Parent.holds, Child.holds]
      rw [child] at hc
      rw [stepChild_ends child filled data hwriter]
      refine ⟨hp, ?_, .ended filled hend.1 (.inl rfl) data hend.2⟩
      funext e
      cases e <;> simp [hc, Child.holds]
  | ended filled parent child data hcloses =>
    rcases child with child | child
    · simp only [stepChild, child, List.append_nil]
      refine ⟨?_, ?_, .ended filled parent (.inr rfl) data hcloses⟩
      · funext e
        simp [exit, close, hp]
      · funext e
        simp [exit, Child.holds]
    · simpa [stepChild, child] using h

/-! ## Without a pipe -/

theorem unmade_pipe (h : Inv program s log) (hparent : s.parent = .pipe)
    (hchecks : program.checks = false) : Unmade program (stepParent program s false) log := by
  have hp := h.parent
  have hc := h.child
  cases h.stage with
  | before parent child data =>
    rcases parent with ⟨-, filled⟩ | ⟨parent, -⟩
    swap
    · rw [hparent] at parent
      cases parent
    have htable : s.table = fun _ _ => false := by
      funext p e
      cases p
      · rw [hp, hparent]
        rfl
      · rw [hc, child]
        rfl
    have hs : stepParent program s false = { s with parent := .fork } := by
      simp [stepParent, hparent, hchecks]
    rw [hs]
    exact ⟨hchecks, filled, htable, data, rfl, .inl ⟨child, .inl rfl⟩⟩
  | failed parent | ended _ parent =>
    rw [hparent] at parent
    cases parent
  | unwritten _ parent | written _ parent | copied _ parent | printed _ parent =>
    rcases parent with parent | parent <;> rw [hparent] at parent <;> cases parent

theorem unmade_parent (h : Unmade program s log) (ok : Bool) :
    Unmade program (stepParent program s ok) log := by
  obtain ⟨checks, filled, table, data, silent, position⟩ := h
  rcases position with ⟨child, parent | parent⟩ | ⟨child, parent | parent | parent | parent⟩
  · cases ok with
    | false =>
      simp only [stepParent, parent]
      exact ⟨checks, filled, exit_empty table _, data, silent, .inl ⟨child, .inr rfl⟩⟩
    | true =>
      simp only [stepParent, parent]
      refine ⟨checks, filled, fork_empty table _ _, data, silent, .inr ⟨?_, .inl rfl⟩⟩
      cases program.closes <;> simp
  · simp only [stepParent, parent]
    exact ⟨checks, filled, table, data, silent, .inl ⟨child, .inr parent⟩⟩
  · simp only [stepParent, parent]
    exact ⟨checks, filled, close_empty table _ _, data, silent, .inr ⟨child, .inr (.inl rfl)⟩⟩
  · simp only [stepParent, parent, filled, if_true]
    exact ⟨checks, rfl, table, data, silent, .inr ⟨child, .inr (.inr (.inl rfl))⟩⟩
  · simp only [stepParent, parent]
    exact ⟨checks, filled, exit_empty (close_empty table _ _) _, data, silent,
      .inr ⟨child, .inr (.inr (.inr rfl))⟩⟩
  · simp only [stepParent, parent]
    exact ⟨checks, filled, table, data, silent, .inr ⟨child, .inr (.inr (.inr parent))⟩⟩

theorem unmade_child (h : Unmade program s log) :
    Unmade program (stepChild s).1 (log ++ (stepChild s).2) := by
  obtain ⟨checks, filled, table, data, rfl, position⟩ := h
  rcases position with ⟨child, parent⟩ | ⟨child | child | child | child, parent⟩
  · simp only [stepChild, child]
    exact ⟨checks, filled, table, data, rfl, .inl ⟨child, parent⟩⟩
  · simp only [stepChild, child]
    exact ⟨checks, filled, close_empty table _ _, data, rfl, .inr ⟨.inr (.inl rfl), parent⟩⟩
  · simp only [stepChild, child, filled, if_true]
    exact ⟨checks, rfl, table, data, rfl, .inr ⟨.inr (.inr (.inl rfl)), parent⟩⟩
  · simp only [stepChild, child]
    exact ⟨checks, filled, exit_empty (close_empty table _ _) _, data, rfl,
      .inr ⟨.inr (.inr (.inr rfl)), parent⟩⟩
  · simp only [stepChild, child]
    exact ⟨checks, filled, table, data, rfl, .inr ⟨.inr (.inr (.inr child)), parent⟩⟩

/-- A run goes on with a pipe or without. -/
def Sound (program : Program) (s : State) (log : List Bytes) : Prop :=
  Inv program s log ∨ Unmade program s log

theorem sound_step (h : Sound program s log) (i : Input) :
    Sound program (step program s i).1 (log ++ (step program s i).2) := by
  rcases h with h | h
  · cases i with
    | parent ok =>
      simp only [step, List.append_nil]
      by_cases hmade : s.parent = .pipe → ok = false → program.checks = true
      · exact .inl (inv_parent h ok hmade)
      · push Not at hmade
        obtain ⟨hparent, rfl, hchecks⟩ := hmade
        exact .inr (unmade_pipe h hparent (Bool.eq_false_iff.2 hchecks))
    | child => exact .inl (inv_child h)
  · cases i with
    | parent ok =>
      simp only [step, List.append_nil]
      exact .inr (unmade_parent h ok)
    | child => exact .inr (unmade_child h)

theorem sound_run (garbage : Bytes) (inputs : List Input) :
    Sound program (exec (step program) (start garbage) inputs)
      (trace (step program) (start garbage) inputs) := by
  have hrun := invariant_trace (fun s log => Sound program s log)
    (fun s i log (h : Sound program s log) => sound_step h i) (.inl (inv_start garbage)) inputs
  simpa using hrun

/-! ## How long it takes -/

def Parent.rank : Parent → ℕ
  | .pipe => 5
  | .fork => 4
  | .closeRead => 3
  | .write => 2
  | .closeWrite => 1
  | .exited _ | .killed => 0

/-- The steps left to a child, which reads once more if the message is still to come. -/
def childRank (s : State) : ℕ :=
  match s.child with
  | .unborn | .closeWrite => 5
  | .read => if s.data ≠ [] ∨ 2 ≤ s.parent.rank then 4 else 2
  | .print => 3
  | .closeRead => 1
  | .exited => 0

def rank (s : State) : ℕ := s.parent.rank + childRank s

theorem rank_parent (h : Inv program s log) {ok : Bool} (hne : stepParent program s ok ≠ s) :
    rank (stepParent program s ok) < rank s := by
  cases h.stage with
  | failed parent child => exact absurd (by simp [stepParent, parent]) hne
  | before parent child data =>
    rcases parent with ⟨parent, -⟩ | ⟨parent, -⟩
    · cases ok with
      | false =>
        cases hchecks : program.checks <;>
          simp [stepParent, parent, hchecks, rank, childRank, child, Parent.rank]
      | true => simp [stepParent, parent, rank, childRank, child, Parent.rank]
    · cases ok with
      | false => simp [stepParent, parent, rank, childRank, child, Parent.rank]
      | true =>
        cases hcloses : program.closes <;>
          simp [stepParent, parent, hcloses, rank, childRank, child, Parent.rank]
  | unwritten filled parent child data =>
    rcases parent with parent | parent
    · rcases child with child | ⟨child, -⟩ <;>
        simp [stepParent, parent, rank, childRank, child, data, Parent.rank]
    · have hreader : InUse s.table .read := by
        rw [inUse_iff, h.child]
        rcases child with child | ⟨child, -⟩ <;> simp [child, Child.holds]
      rcases child with child | ⟨child, -⟩ <;>
        simp [stepParent, parent, filled, hreader, rank, childRank, child, data, message,
          Parent.rank]
  | written filled parent child data =>
    rcases parent with parent | parent
    · rw [stepParent_closeWrite parent]
      rcases child with child | ⟨child, -⟩ <;>
        simp [closed, rank, childRank, parent, child, data, message, Parent.rank]
    · exact absurd (stepParent_ended parent ok) hne
  | copied filled parent child data buffer =>
    rcases parent with parent | parent
    · rw [stepParent_closeWrite parent]
      simp [closed, rank, childRank, parent, child, Parent.rank]
    · exact absurd (stepParent_ended parent ok) hne
  | printed filled parent child data =>
    rcases parent with parent | parent
    · rw [stepParent_closeWrite parent]
      simp [closed, rank, childRank, parent, child, data, Parent.rank]
    · exact absurd (stepParent_ended parent ok) hne
  | ended filled parent child data hcloses => exact absurd (stepParent_ended parent ok) hne

theorem rank_child (h : Inv program s log) (hne : (stepChild s).1 ≠ s) :
    rank (stepChild s).1 < rank s := by
  cases h.stage with
  | failed parent child => exact absurd (by simp [stepChild, child]) hne
  | before parent child data => exact absurd (by simp [stepChild, child]) hne
  | unwritten filled parent child data =>
    rcases child with child | ⟨child, -⟩
    · have hwriter : InUse s.table .write := by
        rw [inUse_iff, h.parent]
        rcases parent with parent | parent <;> simp [parent, Parent.holds]
      exact absurd (by rw [stepChild_waits child filled data hwriter]) hne
    · rcases parent with parent | parent <;>
        simp [stepChild, rank, childRank, parent, child, Parent.rank]
  | written filled parent child data =>
    rcases child with child | ⟨child, -⟩
    · have hdata : s.data ≠ [] := by
        rw [data]
        decide
      rw [stepChild_reads child filled hdata]
      simp [rank, childRank, child, hdata]
    · simp [stepChild, rank, childRank, child, data, message]
  | copied filled parent child data buffer =>
    rcases parent with parent | parent <;>
      simp [stepChild, rank, childRank, parent, child, data, Parent.rank]
  | printed filled parent child data =>
    by_cases hwriter : InUse s.table .write
    · exact absurd (by rw [stepChild_waits child filled data hwriter]) hne
    · rw [stepChild_ends child filled data hwriter]
      rcases parent with parent | parent <;>
        simp [rank, childRank, parent, child, data, Parent.rank]
  | ended filled parent child data hcloses =>
    rcases child with child | child
    · simp [stepChild, rank, childRank, child]
    · exact absurd (by simp [stepChild, child]) hne

theorem rank_unmade_parent (h : Unmade program s log) {ok : Bool}
    (hne : stepParent program s ok ≠ s) : rank (stepParent program s ok) < rank s := by
  rcases h.position with ⟨child, parent | parent⟩ | ⟨child, parent | parent | parent | parent⟩
  · cases ok with
    | false => simp [stepParent, parent, rank, childRank, child, Parent.rank]
    | true =>
      cases hcloses : program.closes <;>
        simp [stepParent, parent, hcloses, rank, childRank, child, Parent.rank]
  · exact absurd (by simp [stepParent, parent]) hne
  · rcases child with child | child | child | child <;>
      simp [stepParent, parent, rank, childRank, child, Parent.rank]
  · rcases child with child | child | child | child <;>
      simp [stepParent, parent, h.filled, rank, childRank, child, h.data, Parent.rank]
  · rcases child with child | child | child | child <;>
      simp [stepParent, parent, rank, childRank, child, h.data, Parent.rank]
  · exact absurd (by simp [stepParent, parent]) hne

theorem rank_unmade_child (h : Unmade program s log) (hne : (stepChild s).1 ≠ s) :
    rank (stepChild s).1 < rank s := by
  rcases h.position with ⟨child, -⟩ | ⟨child | child | child | child, -⟩
  · exact absurd (by simp [stepChild, child]) hne
  · simp only [stepChild, child, rank, childRank, h.data]
    split_ifs <;> omega
  · simp only [stepChild, child, rank, childRank, h.filled, if_true]
    split_ifs <;> omega
  · simp [stepChild, child, rank, childRank]
  · exact absurd (by simp [stepChild, child]) hne

theorem length_le_of_busy (garbage : Bytes) {inputs : List Input}
    (h : Along (step program) (fun s i => (step program s i).1 ≠ s) (start garbage) inputs) :
    inputs.length ≤ 10 := by
  refine length_le_of_decreasing (fun s => ∃ log, Sound program s log) rank ?_ ?_
    ⟨[], .inl (inv_start garbage)⟩ h
  · rintro s i ⟨log, hsound⟩
    exact ⟨_, sound_step hsound i⟩
  · rintro s i ⟨log, h | h⟩ hne
    · cases i with
      | parent ok => exact rank_parent h hne
      | child => exact rank_child h hne
    · cases i with
      | parent ok => exact rank_unmade_parent h hne
      | child => exact rank_unmade_child h hne

/-- The child has not come to be, and nothing is printed. -/
def Failed (s : State) (log : List Bytes) : Prop :=
  s.parent = .exited (-1) ∧ s.child = .unborn ∧ log = []

/-- The line is printed, the parent has ended, and the child has if it has closed its own
write end; else it waits. -/
def Delivered (program : Program) (s : State) (log : List Bytes) : Prop :=
  s.filled = true ∧ s.parent = .exited 0 ∧ log = [received message] ∧
    s.child = if program.closes then .exited else .read

/-- Both have ended, without a pipe and a line. -/
def Bereft (program : Program) (s : State) (log : List Bytes) : Prop :=
  program.checks = false ∧ s.filled = false ∧ s.parent = .exited 0 ∧ s.child = .exited ∧ log = []

theorem Inv.stuck (h : Inv program s log) (hstuck : Stuck program s) :
    Failed s log ∨ Delivered program s log := by
  have hp : (stepParent program s true).parent = s.parent :=
    congrArg State.parent (hstuck (.parent true))
  have hc : (stepChild s).1.child = s.child := congrArg State.child (hstuck .child)
  cases h.stage with
  | failed parent child => exact .inl ⟨parent, child, rfl⟩
  | before parent child data =>
    rcases parent with ⟨parent, -⟩ | ⟨parent, -⟩ <;> simp [stepParent, parent] at hp
  | unwritten filled parent child data =>
    rcases parent with parent | parent
    · simp [stepParent, parent] at hp
    · simp only [stepParent, parent, filled] at hp
      split_ifs at hp
  | written filled parent child data =>
    rcases child with child | ⟨child, -⟩
    · have hdata : s.data ≠ [] := by
        rw [data]
        decide
      simp [stepChild_reads child filled hdata, child] at hc
    · simp [stepChild, child] at hc
  | copied filled parent child data buffer => simp [stepChild, child] at hc
  | printed filled parent child data =>
    rcases parent with parent | parent
    · simp [stepParent, parent] at hp
    · refine .inr ⟨filled, parent, rfl, ?_⟩
      by_cases hwriter : InUse s.table .write
      · rw [inUse_iff, h.parent, h.child, parent, child] at hwriter
        simp [Parent.holds, Child.holds] at hwriter
        simp [hwriter, child]
      · simp [stepChild_ends child filled data hwriter, child] at hc
  | ended filled parent child data hcloses =>
    rcases child with child | child
    · simp [stepChild, child] at hc
    · exact .inr ⟨filled, parent, rfl, by simp [hcloses, child]⟩

theorem Unmade.stuck (h : Unmade program s log) (hstuck : Stuck program s) :
    Failed s log ∨ Bereft program s log := by
  have hp : (stepParent program s true).parent = s.parent :=
    congrArg State.parent (hstuck (.parent true))
  have hc : (stepChild s).1.child = s.child := congrArg State.child (hstuck .child)
  have hsilent := h.silent
  rcases h.position with ⟨child, parent | parent⟩ | ⟨child, parent | parent | parent | parent⟩
  · simp [stepParent, parent] at hp
  · exact .inl ⟨parent, child, hsilent⟩
  · simp [stepParent, parent] at hp
  · simp [stepParent, parent, h.filled] at hp
  · simp [stepParent, parent] at hp
  · rcases child with child | child | child | child
    · simp [stepChild, child] at hc
    · simp [stepChild, child, h.filled] at hc
    · simp [stepChild, child] at hc
    · exact .inr ⟨h.checks, h.filled, parent, child, hsilent⟩

theorem Sound.not_killed (h : Sound program s log) : s.parent ≠ .killed := by
  rcases h with h | h
  · cases h.stage with
    | failed parent | ended _ parent => simp [parent]
    | before parent => rcases parent with ⟨parent, -⟩ | ⟨parent, -⟩ <;> simp [parent]
    | unwritten _ parent | written _ parent | copied _ parent | printed _ parent =>
      rcases parent with parent | parent <;> simp [parent]
  · rcases h.position with ⟨-, parent | parent⟩ | ⟨-, parent | parent | parent | parent⟩ <;>
      simp [parent]

theorem Sound.prefix_line (h : Sound program s log) : log <+: [received message] := by
  rcases h with h | h
  · cases h.stage with
    | failed | before | unwritten | written | copied => exact List.nil_prefix
    | printed | ended => exact List.prefix_rfl
  · rw [h.silent]
    exact List.nil_prefix

/-- A child that has ended has seen the end of the pipe, or there was none. -/
theorem Sound.closes_of_exited (h : Sound program s log) (hexited : s.child = .exited)
    (hfilled : s.filled = true) : program.closes = true := by
  rcases h with h | h
  · cases h.stage with
    | failed _ child | before _ child | copied _ _ child | printed _ _ child =>
      rw [child] at hexited
      cases hexited
    | unwritten _ _ child | written _ _ child =>
      rcases child with child | ⟨child, -⟩ <;> rw [child] at hexited <;> cases hexited
    | ended _ _ _ _ hcloses => exact hcloses
  · rw [h.filled] at hfilled
    cases hfilled

end Invariant

/-- Whatever the order of the steps and whichever system calls fail: nobody is killed by
`SIGPIPE`, the line is printed at most once, and after at most ten steps that change
something nothing moves any more. If `pipe` and `fork` have succeeded, the line is then
printed and the child has ended, provided it has closed its own write end; the child of
`pipe_2.c` and of `lab_3.c` has not, and in no run with a pipe does it ever end. Without
one, the two processes of `lab_3.c` end and print nothing. -/
theorem pipe_ends (program : Program) (garbage : Bytes) (inputs : List Input) :
    let s := exec (step program) (start garbage) inputs
    let log := trace (step program) (start garbage) inputs
    s.parent ≠ .killed ∧ log <+: [received message] ∧
      (s.child = .exited → s.filled = true → program.closes = true) ∧
      (Along (step program) (fun s i => (step program s i).1 ≠ s) (start garbage) inputs →
        inputs.length ≤ 10) ∧
      (Stuck program s → Failed s log ∨ Delivered program s log ∨ Bereft program s log) := by
  intro s log
  have hsound : Sound program s log := sound_run garbage inputs
  refine ⟨hsound.not_killed, hsound.prefix_line, hsound.closes_of_exited,
    fun h => length_le_of_busy garbage h, fun hstuck => ?_⟩
  rcases hsound with h | h
  · exact (h.stuck hstuck).imp_right .inl
  · exact (h.stuck hstuck).imp_right .inr

/-- The parent first, then the child of `pipe.c`. -/
example : let inputs := List.replicate 5 (Input.parent true) ++ List.replicate 5 .child
    (exec (step .pipe) (start []) inputs).child = .exited ∧
      trace (step .pipe) (start []) inputs = [received message] := by decide

end AcademyLab.Pipe
