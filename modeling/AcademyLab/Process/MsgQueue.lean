import AcademyLab.CString
import AcademyLab.Machine
import AcademyLab.Memory
import Mathlib.Algebra.Order.BigOperators.Group.Finset
import Mathlib.Data.Fintype.Card
import Mathlib.Logic.Function.Basic

/-!
# Runs of a program on one message queue

`msg_queue.c`: a parent sends a `long` in the text of a message, its child receives a
message. The queue belongs to the key `123456`, not to a run of the program, so all
runs share it, with what earlier runs have left in it. A step is one system call or one
`printf` of one process; a call that has to wait leaves everything as it is.
-/
namespace AcademyLab.MsgQueue
open CString Machine
open Memory (Word byteOf wordOf)

/-- `sizeof(mtext)`. -/
def textSize : ℕ := 1024

structure MyMsg where
  mtype : ℤ
  mtext : Bytes
  length_mtext : mtext.length = textSize
  deriving DecidableEq

/-- The `long` at the start of the text: `memcpy(&recv_key, recv_msg.mtext, 8)`. -/
def MyMsg.key (m : MyMsg) : Word := wordOf fun i => m.mtext.getD i 0

/-- `memcpy(send_msg.mtext, &key, 8)`, where the text held anything. -/
def MyMsg.setKey (m : MyMsg) (key : Word) : MyMsg where
  mtype := m.mtype
  mtext := overwrite m.mtext ((List.range 8).map (byteOf key))
  length_mtext := by simp [overwrite, m.length_mtext, textSize]

/-- `%li` -/
def showLong (v : Word) : Bytes :=
  if v.toInt < 0 then ascii "-" ++ decimal v.toInt.natAbs else decimal v.toInt.natAbs

def line (m : MyMsg) : Bytes := ascii "Received msg: " ++ showLong m.key ++ ascii " \n"

inductive Parent
  | msgget | fork | send
  | exited (status : ℤ)
  deriving DecidableEq

inductive Child
  | unborn | receive
  | print (recv_msg : MyMsg)
  | exited
  deriving DecidableEq

structure Run where
  parent : Parent
  child : Child
  deriving DecidableEq

structure State (ι : Type*) where
  queue : List MyMsg
  runs : ι → Run

/-- Which process of a run goes on; for the parent, whether `msgget` or `fork` succeeds
if it is there. -/
inductive Move
  | parent (ok : Bool)
  | child
  deriving DecidableEq

inductive Event (ι : Type*)
  | sent (r : ι)
  | received (r : ι) (m : MyMsg)
  | printed (r : ι) (text : Bytes)
  deriving DecidableEq

section Step
variable {ι : Type*} [DecidableEq ι]

def start (queue : List MyMsg) : State ι := ⟨queue, fun _ => ⟨.msgget, .unborn⟩⟩

def State.set (s : State ι) (r : ι) (run : Run) : State ι :=
  { s with runs := Function.update s.runs r run }

variable (qbytes : ℕ) (key : ι → Word) (garbage : ι → MyMsg)

/-- The message of a run: of type 1, its `key` before whatever the stack held. -/
def send_msg (r : ι) : MyMsg := { garbage r with mtype := 1 }.setKey (key r)

/-- One step of a run; the queue takes `qbytes` bytes of text. -/
def step (s : State ι) (input : ι × Move) : State ι × List (Event ι) :=
  let r := input.1
  let run := s.runs r
  match input.2 with
  | .parent ok =>
    match run.parent with
    | .msgget => (s.set r { run with parent := if ok then .fork else .exited (-1) }, [])
    | .fork => (s.set r (if ok then ⟨.send, .receive⟩ else { run with parent := .exited (-1) }), [])
    | .send =>
      if textSize * (s.queue.length + 1) ≤ qbytes then
        let queue := s.queue ++ [send_msg key garbage r]
        ({ s with queue := queue }.set r { run with parent := .exited 0 }, [.sent r])
      else (s, [])
    | .exited _ => (s, [])
  | .child =>
    match run.child with
    | .receive =>
      match s.queue with
      | [] => (s, [])
      | m :: queue =>
        ({ s with queue := queue }.set r { run with child := .print m }, [.received r m])
    | .print m => (s.set r { run with child := .exited }, [.printed r (line m)])
    | .unborn | .exited => (s, [])

/-- No step changes anything any more. -/
def Stuck (s : State ι) : Prop := ∀ input, (step qbytes key garbage s input).1 = s

end Step

theorem key_setKey (m : MyMsg) (key : Word) : (m.setKey key).key = key := by
  refine Eq.trans (Memory.wordOf_congr fun i hi => ?_) (Memory.wordOf_byteOf key)
  have hlen : i < ((List.range 8).map (byteOf key)).length := by simpa using hi
  simp only [MyMsg.setKey, overwrite, List.getD_eq_getElem?_getD]
  rw [List.getElem?_append_left hlen]
  simp [hi]

/-! ## What a step can do -/

/-- The steps of a parent before it sends. -/
def Starts (run run' : Run) : Prop :=
  run.parent = .msgget ∧
      (run' = { run with parent := .fork } ∨ run' = { run with parent := .exited (-1) }) ∨
    run.parent = .fork ∧
      (run' = ⟨.send, .receive⟩ ∨ run' = { run with parent := .exited (-1) })

section Cases
variable {ι : Type*} [DecidableEq ι] {qbytes : ℕ} {key : ι → Word} {garbage : ι → MyMsg}

/-- A step changes nothing, starts a run, sends, receives or prints. -/
inductive StepCases (qbytes : ℕ) (key : ι → Word) (garbage : ι → MyMsg) (s : State ι) (r : ι) :
    State ι × List (Event ι) → Prop
  | stay : StepCases qbytes key garbage s r (s, [])
  | starts {run'} (h : Starts (s.runs r) run') : StepCases qbytes key garbage s r (s.set r run', [])
  | sends (hparent : (s.runs r).parent = .send)
      (hroom : textSize * (s.queue.length + 1) ≤ qbytes) : StepCases qbytes key garbage s r
        ({ s with queue := s.queue ++ [send_msg key garbage r] }.set r
          ⟨.exited 0, (s.runs r).child⟩, [.sent r])
  | receives {m queue} (hchild : (s.runs r).child = .receive) (hqueue : s.queue = m :: queue) :
      StepCases qbytes key garbage s r
        ({ s with queue := queue }.set r ⟨(s.runs r).parent, .print m⟩, [.received r m])
  | prints {m} (hchild : (s.runs r).child = .print m) : StepCases qbytes key garbage s r
      (s.set r ⟨(s.runs r).parent, .exited⟩, [.printed r (line m)])

theorem step_cases (qbytes : ℕ) (key : ι → Word) (garbage : ι → MyMsg) (s : State ι) (r : ι)
    (move : Move) :
    StepCases qbytes key garbage s r (step qbytes key garbage s (r, move)) := by
  cases move with
  | parent ok =>
    cases hparent : (s.runs r).parent with
    | msgget =>
      simp only [step, hparent]
      refine .starts (.inl ⟨hparent, ?_⟩)
      cases ok <;> simp
    | fork =>
      simp only [step, hparent]
      refine .starts (.inr ⟨hparent, ?_⟩)
      cases ok <;> simp
    | send =>
      simp only [step, hparent]
      split_ifs with hroom
      · exact .sends hparent hroom
      · exact .stay
    | exited status =>
      simp only [step, hparent]
      exact .stay
  | child =>
    cases hchild : (s.runs r).child with
    | receive =>
      cases hqueue : s.queue with
      | nil =>
        simp only [step, hchild, hqueue]
        exact .stay
      | cons m queue =>
        simp only [step, hchild, hqueue]
        exact .receives hchild hqueue
    | print m =>
      simp only [step, hchild]
      exact .prints hchild
    | unborn =>
      simp only [step, hchild]
      exact .stay
    | exited =>
      simp only [step, hchild]
      exact .stay

@[simp] theorem set_runs (s : State ι) (r : ι) (run : Run) : (s.set r run).runs r = run := by
  simp [State.set]

theorem set_runs_of_ne {r r' : ι} (h : r' ≠ r) (s : State ι) (run : Run) :
    (s.set r run).runs r' = s.runs r' := by
  simp [State.set, h]

@[simp] theorem set_queue (s : State ι) (r : ι) (run : Run) : (s.set r run).queue = s.queue := rfl

/-- What holds of the run that moved and held of all before holds of all. -/
theorem forall_runs_set {P : ι → Run → Prop} {s : State ι} {r : ι} {run : Run}
    (h : ∀ r', r' ≠ r → P r' (s.runs r')) (hrun : P r run) (r' : ι) :
    P r' ((s.set r run).runs r') := by
  by_cases hr : r' = r
  · subst hr
    rwa [set_runs]
  · rw [set_runs_of_ne hr]
    exact h r' hr

end Cases

/-! ## First in, first out -/

inductive Proc
  | parent | child
  deriving DecidableEq

section Fifo
variable {ι : Type*}

/-- Which process of which run does it. -/
def Event.source : Event ι → ι × Proc
  | .sent r => (r, .parent)
  | .received r _ | .printed r _ => (r, .child)

def sender : Event ι → Option ι
  | .sent r => some r
  | .received _ _ | .printed _ _ => none

def taken : Event ι → Option MyMsg
  | .received _ m => some m
  | .sent _ | .printed _ _ => none

/-- What a parent has done when it stands there. -/
def Parent.log (r : ι) : Parent → List (Event ι)
  | .exited 0 => [.sent r]
  | _ => []

/-- What a child has done when it stands there. -/
inductive ChildLog (r : ι) : Child → List (Event ι) → Prop
  | unborn : ChildLog r .unborn []
  | receive : ChildLog r .receive []
  | print (m : MyMsg) : ChildLog r (.print m) [.received r m]
  | exited (m : MyMsg) : ChildLog r .exited [.received r m, .printed r (line m)]

/-- A child lives from the moment its parent can send. -/
inductive Run.Legal : Run → Prop
  | before {p : Parent} (hp : p = .msgget ∨ p = .fork ∨ p = .exited (-1)) : Run.Legal ⟨p, .unborn⟩
  | after {p : Parent} {c : Child} (hp : p = .send ∨ p = .exited 0) (hc : c ≠ .unborn) :
      Run.Legal ⟨p, c⟩

variable [DecidableEq ι] {qbytes : ℕ} {key : ι → Word} {garbage : ι → MyMsg}
  {initial : List MyMsg} {s : State ι} {r : ι} {log : List (Event ι)}

def doneBy (log : List (Event ι)) (r : ι) (p : Proc) : List (Event ι) :=
  log.filter fun e => e.source = (r, p)

structure Inv (key : ι → Word) (garbage : ι → MyMsg) (initial : List MyMsg) (s : State ι)
    (log : List (Event ι)) : Prop where
  legal : ∀ r, (s.runs r).Legal
  fifo : initial ++ (log.filterMap sender).map (send_msg key garbage) =
    log.filterMap taken ++ s.queue
  parent : ∀ r, doneBy log r .parent = (s.runs r).parent.log r
  child : ∀ r, ChildLog r (s.runs r).child (doneBy log r .child)

theorem inv_start (initial : List MyMsg) : Inv key garbage initial (start initial) [] where
  legal := fun _ => .before (.inl rfl)
  fifo := by simp [start]
  parent := fun _ => rfl
  child := fun _ => .unborn

theorem Run.Legal.child_ne {run : Run} (h : run.Legal)
    (hp : run.parent = .send ∨ run.parent = .exited 0) : run.child ≠ .unborn := by
  cases h with
  | before hp' => rcases hp' with rfl | rfl | rfl <;> simp at hp
  | after _ hc => exact hc

theorem Run.Legal.parent_of_child {run : Run} (h : run.Legal) (hc : run.child ≠ .unborn) :
    run.parent = .send ∨ run.parent = .exited 0 := by
  cases h with
  | before => exact absurd rfl hc
  | after hp _ => exact hp

omit [DecidableEq ι] in
/-- A parent that has not sent has done nothing yet, and has no child if it has not
forked. -/
theorem Run.Legal.starts {run run' : Run} (h : run.Legal) (hstarts : Starts run run') (r : ι) :
    run'.Legal ∧ run'.parent.log r = run.parent.log r ∧ run.child = .unborn ∧
      (run'.child = .unborn ∨ run'.child = .receive) := by
  obtain ⟨parent, child⟩ := run
  have hchild : child = .unborn := by
    by_contra hc
    rcases hstarts with ⟨hp, -⟩ | ⟨hp, -⟩ <;>
      rcases h.parent_of_child hc with hp' | hp' <;> rw [hp] at hp' <;> cases hp'
  obtain rfl := hchild
  rcases hstarts with ⟨hp, rfl | rfl⟩ | ⟨hp, rfl | rfl⟩ <;> obtain rfl := hp
  · exact ⟨.before (.inr (.inl rfl)), rfl, rfl, .inl rfl⟩
  · exact ⟨.before (.inr (.inr rfl)), rfl, rfl, .inl rfl⟩
  · exact ⟨.after (.inl rfl) (fun hc => nomatch hc), rfl, rfl, .inr rfl⟩
  · exact ⟨.before (.inr (.inr rfl)), rfl, rfl, .inl rfl⟩

theorem doneBy_append (log events : List (Event ι)) (r : ι) (p : Proc) :
    doneBy (log ++ events) r p = doneBy log r p ++ doneBy events r p :=
  List.filter_append ..

/-- The run `r` has moved, and has said `events`. -/
theorem inv_set (h : Inv key garbage initial s log) {queue : List MyMsg} {run : Run}
    {events : List (Event ι)} (hother : ∀ r' p, r' ≠ r → doneBy events r' p = [])
    (hlegal : run.Legal)
    (hfifo : initial ++ ((log ++ events).filterMap sender).map (send_msg key garbage) =
      (log ++ events).filterMap taken ++ queue)
    (hparent : (s.runs r).parent.log r ++ doneBy events r .parent = run.parent.log r)
    (hchild : ChildLog r run.child (doneBy log r .child ++ doneBy events r .child)) :
    Inv key garbage initial ({ s with queue := queue }.set r run) (log ++ events) where
  legal := forall_runs_set (P := fun _ run => run.Legal) (fun r' _ => h.legal r') hlegal
  fifo := hfifo
  parent := by
    refine forall_runs_set
      (P := fun r' run => doneBy (log ++ events) r' .parent = run.parent.log r') ?_ ?_
    · intro r' hr
      rw [doneBy_append, hother r' _ hr, List.append_nil]
      exact h.parent r'
    · rw [doneBy_append, h.parent]
      exact hparent
  child := by
    refine forall_runs_set
      (P := fun r' run => ChildLog r' run.child (doneBy (log ++ events) r' .child)) ?_ ?_
    · intro r' hr
      rw [doneBy_append, hother r' _ hr, List.append_nil]
      exact h.child r'
    · rw [doneBy_append]
      exact hchild

theorem doneBy_singleton {e : Event ι} {r' : ι} {p : Proc} (h : (r', p) ≠ e.source) :
    doneBy [e] r' p = [] := by
  simp [doneBy, Ne.symm h]

theorem inv_step (qbytes : ℕ) (h : Inv key garbage initial s log) (input : ι × Move) :
    Inv key garbage initial (step qbytes key garbage s input).1
      (log ++ (step qbytes key garbage s input).2) := by
  obtain ⟨r, move⟩ := input
  have hcases := step_cases qbytes key garbage s r move
  generalize step qbytes key garbage s (r, move) = result at hcases ⊢
  have hchildLog := h.child r
  cases hcases with
  | stay => simpa using h
  | starts hstarts =>
    obtain ⟨hlegal, hlog, hunborn, hchild⟩ := (h.legal r).starts hstarts r
    refine inv_set h (fun _ _ _ => rfl) hlegal (by simpa using h.fifo) (by simp [doneBy, hlog]) ?_
    rw [hunborn] at hchildLog
    generalize doneBy log r .child = done at hchildLog ⊢
    cases hchildLog
    rcases hchild with hchild | hchild <;> rw [hchild]
    · exact .unborn
    · exact .receive
  | sends hparent hroom =>
    have hchild := (h.legal r).child_ne (.inl hparent)
    refine inv_set h (fun r' p hr => doneBy_singleton fun he => hr (congrArg Prod.fst he))
      (.after (.inr rfl) hchild) ?_ ?_ ?_
    · have hfifo := h.fifo
      simp only [List.filterMap_append, List.map_append, ← List.append_assoc, hfifo]
      simp [sender, taken]
    · rw [hparent]
      simp [Parent.log, doneBy, Event.source]
    · simpa [doneBy, Event.source] using hchildLog
  | receives hreceive hqueue =>
    have hparent := (h.legal r).parent_of_child (by simp [hreceive])
    refine inv_set h (fun r' p hr => doneBy_singleton fun he => hr (congrArg Prod.fst he))
      (.after hparent fun hc => nomatch hc) ?_ ?_ ?_
    · have hfifo := h.fifo
      rw [hqueue] at hfifo
      simpa [List.filterMap_cons, sender, taken] using hfifo
    · simp [doneBy, Event.source]
    · rw [hreceive] at hchildLog
      generalize doneBy log r .child = done at hchildLog ⊢
      cases hchildLog
      simpa [doneBy, Event.source] using ChildLog.print _
  | prints hprint =>
    have hparent := (h.legal r).parent_of_child (by simp [hprint])
    refine inv_set h (fun r' p hr => doneBy_singleton fun he => hr (congrArg Prod.fst he))
      (.after hparent fun hc => nomatch hc) ?_ ?_ ?_
    · simpa [List.filterMap_cons, sender, taken] using h.fifo
    · simp [doneBy, Event.source]
    · rw [hprint] at hchildLog
      generalize doneBy log r .child = done at hchildLog ⊢
      cases hchildLog
      simpa [doneBy, Event.source] using ChildLog.exited _

theorem inv_run (initial : List MyMsg) (inputs : List (ι × Move)) :
    Inv key garbage initial (exec (step qbytes key garbage) (start initial) inputs)
      (trace (step qbytes key garbage) (start initial) inputs) := by
  have hrun := invariant_trace (fun s log => Inv key garbage initial s log)
    (fun s input log h => inv_step qbytes h input) (inv_start initial) inputs
  simpa using hrun

omit [DecidableEq ι] in
theorem ChildLog.begins {c : Child} {events : List (Event ι)} (h : ChildLog r c events) :
    ∃ m, events <+: [.received r m, .printed r (line m)] := by
  cases h with
  | unborn | receive =>
    exact ⟨⟨0, List.replicate textSize 0, List.length_replicate⟩, List.nil_prefix⟩
  | print m => exact ⟨m, [.printed r (line m)], rfl⟩
  | exited m => exact ⟨m, List.prefix_rfl⟩

omit [DecidableEq ι] in
theorem Parent.log_prefix (r : ι) (p : Parent) : p.log r <+: [.sent r] := by
  unfold Parent.log
  split
  · exact List.prefix_rfl
  · exact List.nil_prefix

/-- However many runs share the queue and whatever the order of their steps: the keys
come out in the order in which they went in, behind those that earlier runs have left,
each of them once; no parent sends twice, and no child prints but one line, which shows
the key that it received. -/
theorem msg_queue_fifo (qbytes : ℕ) (key : ι → Word) (garbage : ι → MyMsg)
    (initial : List MyMsg) (inputs : List (ι × Move)) :
    let s := exec (step qbytes key garbage) (start initial) inputs
    let log := trace (step qbytes key garbage) (start initial) inputs
    initial.map MyMsg.key ++ (log.filterMap sender).map key =
        (log.filterMap taken).map MyMsg.key ++ s.queue.map MyMsg.key ∧
      ∀ r, doneBy log r .parent <+: [.sent r] ∧
        ∃ m, doneBy log r .child <+: [.received r m, .printed r (line m)] := by
  intro s log
  have hinv : Inv key garbage initial s log := inv_run initial inputs
  constructor
  · have hsent : (log.filterMap sender).map (fun r => (send_msg key garbage r).key) =
        (log.filterMap sender).map key :=
      List.map_congr_left fun r _ => key_setKey _ _
    have hfifo := congrArg (List.map MyMsg.key) hinv.fifo
    rw [List.map_append, List.map_append, List.map_map] at hfifo
    rw [← hfifo, ← hsent]
    rfl
  · intro r
    rw [hinv.parent r]
    exact ⟨Parent.log_prefix r _, (hinv.child r).begins⟩

end Fifo

/-! ## Nobody waits forever -/

section Ends
variable {ι : Type*} [DecidableEq ι] [Fintype ι] {qbytes : ℕ} {key : ι → Word}
  {garbage : ι → MyMsg} {initial : List MyMsg} {s : State ι} {log : List (Event ι)}

def total (w : Run → ℕ) (s : State ι) : ℕ := ∑ r, w (s.runs r)

theorem total_set (w : Run → ℕ) (s : State ι) (r : ι) (run : Run) :
    total w (s.set r run) + w (s.runs r) = total w s + w run := by
  have hother : ∑ r' ∈ Finset.univ.erase r, w ((s.set r run).runs r') =
      ∑ r' ∈ Finset.univ.erase r, w (s.runs r') :=
    Finset.sum_congr rfl fun r' hr => by rw [set_runs_of_ne (Finset.ne_of_mem_erase hr)]
  have hnew := Finset.sum_erase_add _ (fun r' => w ((s.set r run).runs r')) (Finset.mem_univ r)
  have hold := Finset.sum_erase_add _ (fun r' => w (s.runs r')) (Finset.mem_univ r)
  rw [set_runs] at hnew
  unfold total
  omega

/-- The messages that a run has put into the queue. -/
def Run.sent (run : Run) : ℕ := if run.parent = .exited 0 then 1 else 0

/-- The messages that a run has taken from the queue. -/
def Run.taken (run : Run) : ℕ :=
  match run.child with
  | .print _ | .exited => 1
  | .unborn | .receive => 0

/-- How many steps are left to a run, at most. -/
def Run.left (run : Run) : ℕ :=
  (match run.parent with
    | .msgget => 5
    | .fork => 4
    | .send => 1
    | .exited _ => 0) +
  match run.child with
    | .receive => 2
    | .print _ => 1
    | .unborn | .exited => 0

theorem Run.Legal.starts_weights {run run' : Run} (h : run.Legal) (hstarts : Starts run run') :
    run'.sent = run.sent ∧ run'.taken = run.taken ∧ run'.left < run.left := by
  obtain ⟨parent, child⟩ := run
  rcases hstarts with ⟨hp, rfl | rfl⟩ | ⟨hp, rfl | rfl⟩ <;> obtain rfl := hp
  · simp [Run.sent, Run.taken, Run.left]
  · simp [Run.sent, Run.taken, Run.left]
  · cases h with
    | before => simp [Run.sent, Run.taken, Run.left]
    | after hp => rcases hp with hp | hp <;> cases hp
  · simp [Run.sent, Run.taken, Run.left]

/-- What is in the queue and what has been taken is what was there and what was sent. -/
def Balanced (initial : List MyMsg) (s : State ι) : Prop :=
  s.queue.length + total Run.taken s = initial.length + total Run.sent s

theorem balanced_set (h : Balanced initial s) (queue : List MyMsg) {r : ι} {run : Run}
    (hweights : queue.length + run.taken + (s.runs r).sent =
      s.queue.length + (s.runs r).taken + run.sent) :
    Balanced initial ({ s with queue := queue }.set r run) := by
  have hsent : total Run.sent ({ s with queue := queue }.set r run) + (s.runs r).sent =
      total Run.sent s + run.sent := total_set Run.sent { s with queue := queue } r run
  have htaken : total Run.taken ({ s with queue := queue }.set r run) + (s.runs r).taken =
      total Run.taken s + run.taken := total_set Run.taken { s with queue := queue } r run
  simp only [Balanced, set_queue] at h ⊢
  omega

theorem left_set (queue : List MyMsg) {r : ι} {run : Run} (h : run.left < (s.runs r).left) :
    total Run.left ({ s with queue := queue }.set r run) < total Run.left s := by
  have hleft : total Run.left ({ s with queue := queue }.set r run) + (s.runs r).left =
      total Run.left s + run.left := total_set Run.left { s with queue := queue } r run
  omega

/-- Every step that changes something keeps the balance and leaves less to do. -/
theorem step_weights (h : Inv key garbage initial s log) (hbalanced : Balanced initial s)
    (input : ι × Move) :
    let s' := (step qbytes key garbage s input).1
    Balanced initial s' ∧ (s' ≠ s → total Run.left s' < total Run.left s) := by
  obtain ⟨r, move⟩ := input
  have hcases := step_cases qbytes key garbage s r move
  generalize step qbytes key garbage s (r, move) = result at hcases ⊢
  cases hcases with
  | stay => exact ⟨hbalanced, fun hne => absurd rfl hne⟩
  | starts hstarts =>
    obtain ⟨hsent, htaken, hleft⟩ := (h.legal r).starts_weights hstarts
    refine ⟨balanced_set hbalanced s.queue ?_, fun _ => left_set s.queue hleft⟩
    rw [hsent, htaken]
  | sends hparent hroom =>
    refine ⟨balanced_set hbalanced _ ?_, fun _ => left_set _ ?_⟩
    · simp [Run.sent, Run.taken, hparent]
      omega
    · simp [Run.left, hparent]
  | receives hreceive hqueue =>
    refine ⟨balanced_set hbalanced _ ?_, fun _ => left_set _ ?_⟩
    · simp [Run.sent, Run.taken, hreceive, hqueue]
    · simp [Run.left, hreceive]
  | prints hprint =>
    refine ⟨balanced_set hbalanced s.queue ?_, fun _ => left_set s.queue ?_⟩
    · simp [Run.sent, Run.taken, hprint]
    · simp [Run.left, hprint]

omit [Fintype ι] in
theorem stuck_parent (hstuck : Stuck qbytes key garbage s) (r : ι) :
    (∃ status, (s.runs r).parent = .exited status) ∨
      (s.runs r).parent = .send ∧ qbytes < textSize * (s.queue.length + 1) := by
  have hstay := congrArg (fun s => (s.runs r).parent) (hstuck (r, .parent true))
  cases hparent : (s.runs r).parent with
  | msgget => simp [step, hparent] at hstay
  | fork => simp [step, hparent] at hstay
  | exited status => exact .inl ⟨status, rfl⟩
  | send =>
    refine .inr ⟨rfl, ?_⟩
    by_contra hroom
    simp [step, hparent, not_lt.1 hroom] at hstay

omit [Fintype ι] in
theorem stuck_child (hstuck : Stuck qbytes key garbage s) (r : ι) :
    (s.runs r).child = .unborn ∨ (s.runs r).child = .exited ∨
      (s.runs r).child = .receive ∧ s.queue = [] := by
  have hstay := congrArg (fun s => (s.runs r).child) (hstuck (r, .child))
  cases hchild : (s.runs r).child with
  | unborn => exact .inl rfl
  | exited => exact .inr (.inl rfl)
  | print m => simp [step, hchild] at hstay
  | receive =>
    refine .inr (.inr ⟨rfl, ?_⟩)
    cases hqueue : s.queue with
    | nil => rfl
    | cons m queue => simp [step, hchild, hqueue] at hstay

/-- A run that has come to its end: without a child, or with one that has printed. -/
def Run.Ended (run : Run) : Prop :=
  run = ⟨.exited (-1), .unborn⟩ ∨ run = ⟨.exited 0, .exited⟩

theorem Run.Ended.sent_eq {run : Run} (h : run.Ended) : run.sent = run.taken := by
  rcases h with rfl | rfl <;> rfl

omit [Fintype ι] in
/-- A run that can do no more has ended, or one of its processes waits. -/
theorem run_of_stuck (hlegal : ∀ r, (s.runs r).Legal) (hempty : textSize ≤ qbytes)
    (hstuck : Stuck qbytes key garbage s) (r : ι) :
    (s.runs r).Ended ∨ s.runs r = ⟨.exited 0, .receive⟩ ∧ s.queue = [] ∨
      s.runs r = ⟨.send, .exited⟩ ∧ qbytes < textSize * (s.queue.length + 1) := by
  have hparent := stuck_parent hstuck r
  have hchild := stuck_child hstuck r
  have hl := hlegal r
  generalize s.runs r = run at hparent hchild hl ⊢
  cases hl with
  | before hp =>
    rcases hp with rfl | rfl | rfl
    · simp at hparent
    · simp at hparent
    · exact .inl (.inl rfl)
  | after hp hc =>
    rcases hchild with rfl | rfl | ⟨rfl, hqueue⟩
    · exact absurd rfl hc
    · rcases hp with rfl | rfl
      · exact .inr (.inr ⟨rfl, by simpa using hparent⟩)
      · exact .inl (.inr rfl)
    · rcases hp with rfl | rfl
      · have hfull : qbytes < textSize * (s.queue.length + 1) := by simpa using hparent
        rw [hqueue, List.length_nil] at hfull
        omega
      · exact .inr (.inl ⟨rfl, hqueue⟩)

/-- Where nothing moves any more: were a child waiting, the queue would be empty although
more was sent than taken; were a parent waiting, it would be full although more was taken
than sent. -/
theorem end_of_stuck (h : Inv key garbage initial s log) (hbalanced : Balanced initial s)
    (hempty : textSize ≤ qbytes) (hroom : textSize * initial.length ≤ qbytes)
    (hstuck : Stuck qbytes key garbage s) :
    s.queue.length = initial.length ∧ ∀ r, (s.runs r).Ended := by
  have hruns := run_of_stuck h.legal hempty hstuck
  unfold Balanced at hbalanced
  have hchildren : ∀ r, ¬ (s.runs r = ⟨.exited 0, .receive⟩ ∧ s.queue = []) := by
    rintro r ⟨hr, hqueue⟩
    have hlt : total Run.taken s < total Run.sent s := by
      refine Finset.sum_lt_sum (fun r' _ => ?_) ⟨r, Finset.mem_univ r, by rw [hr]; decide⟩
      rcases hruns r' with hended | ⟨hr', -⟩ | ⟨-, hfull⟩
      · exact hended.sent_eq.ge
      · rw [hr']
        decide
      · rw [hqueue, List.length_nil] at hfull
        omega
    rw [hqueue, List.length_nil] at hbalanced
    omega
  have hparents : ∀ r, ¬ (s.runs r = ⟨.send, .exited⟩ ∧
      qbytes < textSize * (s.queue.length + 1)) := by
    rintro r ⟨hr, hfull⟩
    have hlt : total Run.sent s < total Run.taken s := by
      refine Finset.sum_lt_sum (fun r' _ => ?_) ⟨r, Finset.mem_univ r, by rw [hr]; decide⟩
      rcases hruns r' with hended | hwaits | ⟨hr', -⟩
      · exact hended.sent_eq.le
      · exact absurd hwaits (hchildren r')
      · rw [hr']
        decide
    have hlen : s.queue.length + 1 ≤ initial.length := by
      omega
    have hle := Nat.mul_le_mul_left textSize hlen
    omega
  have hended : ∀ r, (s.runs r).Ended := fun r =>
    (hruns r).resolve_right fun hwaits => hwaits.elim (hchildren r) (hparents r)
  have htotal : total Run.sent s = total Run.taken s :=
    Finset.sum_congr rfl fun r _ => (hended r).sent_eq
  exact ⟨by omega, hended⟩

/-- Of any number of runs, in any order, on a queue that earlier runs have not filled
beyond its limit: no more than five steps of each change anything, and where nothing moves
any more, each run has failed before it had a child, or its message is sent and its child
has printed a line; and as many messages are in the queue as at first. -/
theorem msg_queue_ends (qbytes : ℕ) (key : ι → Word) (garbage : ι → MyMsg)
    (initial : List MyMsg) (inputs : List (ι × Move)) (hempty : textSize ≤ qbytes)
    (hroom : textSize * initial.length ≤ qbytes) :
    let s := exec (step qbytes key garbage) (start initial) inputs
    (Along (step qbytes key garbage) (fun s input => (step qbytes key garbage s input).1 ≠ s)
        (start initial) inputs → inputs.length ≤ 5 * Fintype.card ι) ∧
      (Stuck qbytes key garbage s →
        s.queue.length = initial.length ∧ ∀ r, (s.runs r).Ended) := by
  intro s
  have hstart : Balanced initial (start initial : State ι) := by
    simp [Balanced, total, start, Run.sent, Run.taken]
  have hkeep : ∀ s input, (∃ log, Inv key garbage initial s log ∧ Balanced initial s) →
      ∃ log, Inv key garbage initial (step qbytes key garbage s input).1 log ∧
        Balanced initial (step qbytes key garbage s input).1 := by
    rintro s input ⟨log, hinv, hbalanced⟩
    exact ⟨_, inv_step qbytes hinv input, (step_weights hinv hbalanced input).1⟩
  constructor
  · intro hbusy
    have hle := length_le_of_decreasing _ (total Run.left) hkeep
      (fun s input ⟨_, hinv, hbalanced⟩ => (step_weights hinv hbalanced input).2)
      ⟨[], inv_start initial, hstart⟩ hbusy
    simpa [total, start, Run.left, Nat.mul_comm] using hle
  · intro hstuck
    obtain ⟨log, hinv, hbalanced⟩ := invariant_exec _ hkeep ⟨[], inv_start initial, hstart⟩ inputs
    exact end_of_stuck hinv hbalanced hempty hroom hstuck

/-- Two runs, one after the other, on an empty queue of the usual size. -/
theorem msg_queue_ends_two :
    let key : Bool → Word := fun _ => 1234567890123456789
    let garbage : Bool → MyMsg := fun _ => ⟨0, List.replicate textSize 7, List.length_replicate⟩
    let inputs : List (Bool × Move) :=
      List.replicate 3 (true, .parent true) ++ List.replicate 2 (true, .child) ++
        List.replicate 3 (false, .parent true) ++ List.replicate 2 (false, .child)
    (exec (step 16384 key garbage) (start []) inputs).queue.length = ([] : List MyMsg).length ∧
      ∀ r, ((exec (step 16384 key garbage) (start []) inputs).runs r).Ended := by
  intro key garbage inputs
  have hruns : ∀ r, (exec (step 16384 key garbage) (start []) inputs).runs r =
      ⟨.exited 0, .exited⟩ := by decide +kernel
  have hsize : textSize ≤ 16384 := by decide
  refine (msg_queue_ends 16384 key garbage [] inputs hsize (Nat.zero_le _)).2 ?_
  rintro ⟨r, move⟩
  cases move <;> simp [step, hruns r]

end Ends

end AcademyLab.MsgQueue
