import AcademyLab.Chat.Kernel
import AcademyLab.Chat.Readiness

/-!
# One connection

What the server makes of the chunks of one connection is a machine of its own,
`treat`: it starts from the client that `accept` made and depends on nothing
but the chunks and the times at which they are handled. Whatever else happens in
a run, the log of a connection is a run of that machine.
-/
namespace AcademyLab.Chat
open Machine CString

/-- The client behind the handler. -/
def Client.after (client : Client) (data : Bytes) (now : ℤ) : Client :=
  match client.outcome data now with
  | .renamed newName => { client with name := newName }
  | .chatted _ => { client with lastMsgTime := now }
  | .rejected _ | .dropped => client

/-- A chunk and the time at which it is handled. -/
abbrev Arrival := Bytes × ℤ

/-- An entry in the log of a connection. -/
structure Entry where
  arrival : Arrival
  outcome : Outcome
  deriving DecidableEq

/-- The machine of a connection. -/
def treat (client : Client) (a : Arrival) : Client × List Entry :=
  (client.after a.1 a.2, [⟨a, client.outcome a.1 a.2⟩])

/-- The chunks that were handled on a descriptor. -/
def log (fd : ℤ) (es : List Event) : List Entry := es.filterMap fun
  | .chunk fd' data now outcome => if fd' = fd then some ⟨(data, now), outcome⟩ else none
  | _ => none

def history (fd : ℤ) (es : List Event) : List Arrival := (log fd es).map Entry.arrival

section Log
variable {fd : ℤ} {W : Type} {w : Watcher W}

@[simp] theorem log_append (es fs : List Event) : log fd (es ++ fs) = log fd es ++ log fd fs :=
  List.filterMap_append

theorem log_chunk (fd' : ℤ) (data : Bytes) (now : ℤ) (o : Outcome) :
    log fd [.chunk fd' data now o] = if fd' = fd then [⟨(data, now), o⟩] else [] := by
  by_cases h : fd' = fd
  · simp [log, h]
  · simp [log, h]

@[simp] theorem log_broadcastMsg (clients : Table) (msg : Msg) (exceptfd : ℤ) :
    log fd (broadcastMsg clients msg exceptfd) = [] := by
  rw [log, List.filterMap_eq_nil_iff]
  intro e he
  obtain ⟨i, -, -, rfl⟩ := mem_broadcastMsg.mp he
  rfl

@[simp] theorem log_fdSet (fds : List ℤ) : log fd (fds.map .fdSet) = [] := by
  rw [log, List.filterMap_eq_nil_iff]
  intro e he
  obtain ⟨x, -, rfl⟩ := List.mem_map.mp he
  rfl

theorem log_addClient (s : Server W) (i : Slot) (client : Client) :
    log fd (acceptCall client ++ (addClient w s i client).2) = [] := by
  simp only [addClient, log_append, log_fdSet, log_broadcastMsg]
  rfl

theorem log_leave (s : Server W) (i : Slot) (fd' : ℤ) :
    log fd (.read fd' :: (leave w s i).2) = [] := by
  change log fd (leave w s i).2 = []
  simp only [leave, log_append, log_fdSet, log_broadcastMsg]
  rfl

/-- The handler is the machine of the connection at its slot. -/
theorem receive_treat (clients : Table) (i : Slot) (data : Bytes) (now : ℤ) :
    (receive clients i data now).1 =
        Function.update clients i ((clients i).after data now) ∧
      log fd (receive clients i data now).2 =
        log fd [.chunk (clients i).fd data now ((clients i).outcome data now)] := by
  have hcut : log fd (cutEvents clients i data now) = [] := rfl
  rw [receive_eq]
  unfold Client.after
  cases (clients i).outcome data now with
  | dropped => exact ⟨(Function.update_eq_self i clients).symm, rfl⟩
  | renamed newName =>
    have hrest : log fd (changeName clients i newName).2 = [] := by
      simp only [changeName, log_append, log_broadcastMsg]
      rfl
    simp only [receiveWith, log_append, hcut, hrest]
    exact ⟨rfl, rfl⟩
  | rejected newName =>
    simp only [receiveWith, log_append, hcut, Function.update_eq_self]
    exact ⟨trivial, rfl⟩
  | chatted line =>
    have hrest : log fd (chatLine clients i line now).2 = [] := by
      simp only [chatLine, log_append, log_broadcastMsg]
      rfl
    simp only [receiveWith, log_append, hcut, hrest]
    exact ⟨rfl, rfl⟩

end Log

section Session
variable {W : Type} {w : Watcher W}

/-- The step accepts `conn` into slot `i`. -/
structure Joins (w : Watcher W) (s : System W) (inp : Input) (i : Slot) (conn : Conn) : Prop where
  pc : s.loop.pc = .accept
  ready : w.listenerReady s.loop.server.watch s.loop.server.listenfd = true
  free : firstFree s.loop.server.clients = some i
  conn : inp.accept = some conn

/-- A run in which the connection on `fd` stays open. -/
structure Stays (w : Watcher W) (s : System W) (fd : ℤ) (is : List Input) : Prop where
  legal : Along (sysStep w) (Legal w) s is
  opened : Event.close fd ∉ trace (sysStep w) s is

instance (w : Watcher W) (s : System W) (fd : ℤ) (is : List Input) :
    Decidable (Stays w s fd is) :=
  decidable_of_iff (Along (sysStep w) (Legal w) s is ∧ Event.close fd ∉ trace (sysStep w) s is)
    ⟨fun h => ⟨h.1, h.2⟩, fun h => ⟨h.legal, h.opened⟩⟩

/-- The client moved from `c` to `c'` as its machine does on the chunks in `es`. -/
structure Treated (fd : ℤ) (c c' : Client) (es : List Event) : Prop where
  log : log fd es = trace treat c (history fd es)
  client : c' = exec treat c (history fd es)

namespace Treated
variable {fd : ℤ} {c c' c'' : Client} {es fs : List Event}

theorem of_log_nil (h : Chat.log fd es = []) : Treated fd c c es := by
  constructor
  · simp [history, h]
  · simp [history, h]

theorem append (h : Treated fd c c' es) (h' : Treated fd c' c'' fs) :
    Treated fd c c'' (es ++ fs) := by
  have hh : history fd (es ++ fs) = history fd es ++ history fd fs := by simp [history]
  constructor
  · rw [log_append, hh, trace_append, ← h.client, ← h.log, ← h'.log]
  · rw [hh, exec_append, ← h.client, h'.client]

end Treated

/-- A step of the server leaves a connection alone or is a step of its machine. -/
theorem treated_sysStep {s : System W} (hs : s.Sound) {i : Slot}
    (hi : 0 ≤ (s.loop.server.clients i).fd) (inp : Input)
    (hopen : Event.close (s.loop.server.clients i).fd ∉ (sysStep w s inp).2) :
    ((sysStep w s inp).1.loop.server.clients i).fd = (s.loop.server.clients i).fd ∧
      Treated (s.loop.server.clients i).fd (s.loop.server.clients i)
        ((sysStep w s inp).1.loop.server.clients i) (sysStep w s inp).2 := by
  obtain ⟨c, k⟩ := s
  have ht := transition w c inp
  simp only [sysStep] at hi hopen ⊢
  generalize step w c inp = r at ht hopen ⊢
  cases ht with
  | wait => exact ⟨rfl, .of_log_nil rfl⟩
  | noConnection => exact ⟨rfl, .of_log_nil rfl⟩
  | idle => exact ⟨rfl, .of_log_nil rfl⟩
  | refuse => exact ⟨rfl, .of_log_nil rfl⟩
  | add s inp j _ hj =>
    have hij : i ≠ j := by
      rintro rfl
      exact absurd (firstFree_some hj) (not_lt.mpr hi)
    have hsame : (addClient w s j (newClient inp)).1.clients i = s.clients i :=
      Function.update_of_ne hij _ _
    simp only [hsame]
    exact ⟨trivial, .of_log_nil (log_addClient s j _)⟩
  | leave s _ j =>
    have hij : i ≠ j := by
      rintro rfl
      obtain ⟨es, hes, -⟩ := leave_events w s i
      rw [hes] at hopen
      exact hopen (List.mem_cons_of_mem _ List.mem_cons_self)
    have hsame : (leave w s j).1.clients i = s.clients i := Function.update_of_ne hij _ _
    simp only [hsame]
    exact ⟨trivial, .of_log_nil (log_leave s j _)⟩
  | receive s inp j chunk =>
    refine ⟨receive_fd _ _ _ _ _, ?_⟩
    obtain ⟨hclients, hlog⟩ :=
      @receive_treat (s.clients i).fd s.clients j chunk.data inp.now
    have hread : log (s.clients i).fd (.read (s.clients j).fd ::
        (receive s.clients j chunk.data inp.now).2) =
        log (s.clients i).fd (receive s.clients j chunk.data inp.now).2 := rfl
    by_cases hij : i = j
    · subst hij
      rw [log_chunk, if_pos rfl] at hlog
      constructor
      · simp [history, hread, hlog, treat]
      · simp [history, hread, hlog, hclients, treat]
    · -- another descriptor, so another connection
      have hne : (s.clients j).fd ≠ (s.clients i).fd :=
        fun he => hij (hs.distinct i j hi he.symm)
      rw [log_chunk, if_neg hne] at hlog
      have hsame : (receive s.clients j chunk.data inp.now).1 i = s.clients i := by
        rw [hclients, Function.update_of_ne hij]
      simp only [hsame]
      exact .of_log_nil (hread.trans hlog)

/-- Only what a `read` returned is logged. -/
theorem fits_of_mem_log {fd : ℤ} (s : System W) (inp : Input) {e : Entry}
    (he : e ∈ log fd (sysStep w s inp).2) :
    0 < e.arrival.1.length ∧ e.arrival.1.length ≤ maxBuffer := by
  obtain ⟨c, k⟩ := s
  have ht := transition w c inp
  simp only [sysStep] at he
  generalize step w c inp = r at ht he
  cases ht with
  | wait => simp [log] at he
  | noConnection => simp [log] at he
  | idle => simp [log] at he
  | refuse => simp [log, acceptCall, refuse, sendMsg] at he
  | add s inp j =>
    rw [log_addClient] at he
    simp at he
  | leave s _ j =>
    rw [log_leave] at he
    simp at he
  | receive s inp j chunk =>
    have hlog := (@receive_treat fd s.clients j chunk.data inp.now).2
    have hread : log fd (.read (s.clients j).fd ::
        (receive s.clients j chunk.data inp.now).2) =
        log fd (receive s.clients j chunk.data inp.now).2 := rfl
    rw [hread, hlog, log_chunk] at he
    split_ifs at he
    · obtain rfl := List.mem_singleton.mp he
      exact ⟨chunk.nonempty, chunk.fits⟩
    · simp at he

theorem fits_of_mem_log_trace {fd : ℤ} {s : System W} {is : List Input} {e : Entry}
    (he : e ∈ log fd (trace (sysStep w) s is)) :
    0 < e.arrival.1.length ∧ e.arrival.1.length ≤ maxBuffer := by
  induction is generalizing s with
  | nil => simp [log] at he
  | cons inp is ih =>
    rw [trace_cons, log_append] at he
    rcases List.mem_append.mp he with he | he
    · exact fits_of_mem_log s inp he
    · exact ih he

theorem treated_run {s : System W} (hs : s.Sound) {i : Slot}
    (hi : 0 ≤ (s.loop.server.clients i).fd) {is : List Input}
    (h : Stays w s (s.loop.server.clients i).fd is) :
    ((exec (sysStep w) s is).loop.server.clients i).fd = (s.loop.server.clients i).fd ∧
      Treated (s.loop.server.clients i).fd (s.loop.server.clients i)
        ((exec (sysStep w) s is).loop.server.clients i) (trace (sysStep w) s is) := by
  induction is generalizing s with
  | nil => exact ⟨rfl, .of_log_nil rfl⟩
  | cons inp is ih =>
    have hopen := h.opened
    rw [trace_cons, List.mem_append, not_or] at hopen
    obtain ⟨hfd, hstep⟩ := treated_sysStep hs hi inp hopen.1
    have hs' := sound_sysStep w s inp hs h.legal.1
    obtain ⟨hfd', hrun⟩ := ih hs' (hfd ▸ hi) ⟨h.legal.2, hfd ▸ hopen.2⟩
    rw [hfd] at hrun
    exact ⟨hfd'.trans hfd, hstep.append hrun⟩

/-- Program start reaches the state, whatever memory and watcher it starts with. -/
def InRun (w : Watcher W) (s : System W) : Prop :=
  ∃ listenfd watch mem inherited, Reachable w (System.boot listenfd watch mem inherited) s

theorem InRun.sound {s : System W} (h : InRun w s) : s.Sound := by
  obtain ⟨listenfd, watch, mem, inherited, hs⟩ := h
  exact hs.sound (System.boot_sound listenfd watch mem inherited)

/-- A connection in a run: the step that accepts it, and a continuation of the
run in which it stays open. -/
structure Session (w : Watcher W) where
  state : System W
  inRun : InRun w state
  input : Input
  legal : Legal w state input
  slot : Slot
  conn : Conn
  joins : Joins w state input slot conn
  inputs : List Input
  stays : Stays w (sysStep w state input).1 conn.fd inputs

namespace Session

/-- What `accept` has made of the connection. -/
def client (S : Session w) : Client := newClient S.input

/-- The state just after the connection was accepted. -/
def start (S : Session w) : System W := (sysStep w S.state S.input).1

def final (S : Session w) : System W := exec (sysStep w) S.start S.inputs

def events (S : Session w) : List Event := trace (sysStep w) S.start S.inputs

def log (S : Session w) : List Entry := Chat.log S.conn.fd S.events

def history (S : Session w) : List Arrival := Chat.history S.conn.fd S.events

theorem start_sound (S : Session w) : S.start.Sound :=
  sound_sysStep w S.state S.input S.inRun.sound S.legal

theorem start_client (S : Session w) : S.start.loop.server.clients S.slot = S.client := by
  obtain ⟨⟨⟨pc, s⟩, k⟩, hrun, inp, hl, i, conn, hj, is, h⟩ := S
  obtain rfl : pc = .accept := hj.pc
  simp only [start, client, sysStep, step_add inp hj.ready hj.free]
  exact Function.update_self _ _ _

theorem start_fd (S : Session w) : (S.start.loop.server.clients S.slot).fd = S.conn.fd := by
  rw [S.start_client]
  exact newClient_fd_some S.joins.conn

/-- From its acceptance on, a connection is served as its own machine says, and
its slot holds what that machine has made of the client. -/
theorem treated (S : Session w) :
    Treated S.conn.fd S.client (S.final.loop.server.clients S.slot) S.events := by
  have hi : 0 ≤ (S.start.loop.server.clients S.slot).fd := by
    rw [S.start_fd]
    exact Int.natCast_nonneg _
  have hrun := (treated_run S.start_sound hi (S.start_fd ▸ S.stays)).2
  rw [S.start_fd, S.start_client] at hrun
  exact hrun

theorem fits (S : Session w) {a : Arrival} (ha : a ∈ S.history) :
    0 < a.1.length ∧ a.1.length ≤ maxBuffer := by
  obtain ⟨e, he, rfl⟩ := List.mem_map.mp ha
  exact fits_of_mem_log_trace he

def visits (S : Session w) : List (Client × Arrival) := Machine.visits treat S.client S.history

theorem log_eq (S : Session w) :
    S.log = S.visits.map fun v => ⟨v.2, v.1.outcome v.2.1 v.2.2⟩ := by
  have hemit (c : Client) (a : Arrival) : (treat c a).2 = [⟨a, c.outcome a.1 a.2⟩] := rfl
  exact S.treated.log.trans (trace_eq_map hemit _ _)

end Session

end Session

/-! ## The first connection of the `select()` server

Its listener is 3 and the connection gets the descriptor 4. -/

def firstState : System FdSets :=
  exec (sysStep selectWatch) (System.boot 3 (FdSets.init 3) default {0, 1, 2})
    [{ (default : Input) with ready := {3} }]

/-- The answer to `accept`, with what the stack holds for the time stamp. -/
def firstInput (stamp : ℤ) : Input :=
  { (default : Input) with
    accept := some ⟨4, default⟩, stack := { (default : Client) with lastMsgTime := stamp } }

/-- The chunks that the first client sends, one in each iteration. -/
def firstInputs (chunks : List (Chunk × ℤ)) : List Input :=
  List.replicate maxClients default ++
    chunks.flatMap fun c => iteration {4} none default (fun _ => some c.1) c.2

def firstSession (stamp : ℤ) (inputs : List Input)
    (h : Stays selectWatch (sysStep selectWatch firstState (firstInput stamp)).1 4 inputs) :
    Session selectWatch where
  state := firstState
  inRun := ⟨3, FdSets.init 3, default, {0, 1, 2}, _, by decide, rfl⟩
  input := firstInput stamp
  legal _ _ conn hconn := by
    obtain rfl : ⟨4, default⟩ = conn := Option.some.inj hconn
    decide
  slot := firstSlot
  conn := ⟨4, default⟩
  joins := ⟨rfl, by decide, by decide, rfl⟩
  inputs := inputs
  stays := h

end AcademyLab.Chat
