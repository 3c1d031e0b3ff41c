import AcademyLab.Fifo.Records
import Mathlib.Data.Fintype.Basic

/-!
# The FIFO server and its clients, from open to close

`main` of `fifo/server.c` and of any number of `fifo/client.c`. An `open` waits for the
other side, and a `write` without a reader is `SIGPIPE`. When nobody has the FIFO open
any more, what is in it is gone. A step is one system call; the server's `read` is that of
`Fifo.Server`.
-/
namespace AcademyLab.Fifo.Opening
open CString Machine

/-- Where the server stands. -/
inductive Main
  | mkfifo
  | signal
  | openFifo
  | waits
  | read
  | close
  | ended
  deriving DecidableEq

/-- Where a client stands; `write i` is in the turn `i` of its loop. -/
inductive Client
  | openFifo
  | waits
  | write (i : ℕ)
  | close
  | exited
  | failed
  | killed
  deriving DecidableEq

/-- `NUMBER_OF_MESSAGES` -/
def numberOfMessages : ℕ := 5

def message (i : ℕ) : Bytes := snprintf recordSize (ascii "Message " ++ decimal (i + 1))

/-- What an array of a client holds before `snprintf`. -/
abbrev Stale := { memory : Bytes // memory.length = recordSize }

theorem length_message_lt (i : ℕ) : (message i).length < recordSize := by
  have hle : (message i).length ≤ recordSize - 1 := List.length_take_le _ _
  exact Nat.lt_of_le_of_lt hle (by decide)

theorem length_overwrite_message (i : ℕ) (stale : Stale) :
    (overwrite stale.1 (message i ++ [0])).length = recordSize := by
  have hlt := length_message_lt i
  have hstale := stale.2
  simp only [overwrite, List.length_append, List.length_drop, List.length_singleton]
  omega

theorem zero_mem_overwrite_message (i : ℕ) (stale : Stale) :
    0 ∈ overwrite stale.1 (message i ++ [0]) :=
  List.mem_append_left _ (List.mem_append_right _ List.mem_cons_self)

/-- The array that is written in the turn `i`. -/
def record (i : ℕ) (stale : Stale) : Record where
  bytes := overwrite stale.1 (message i ++ [0])
  length_eq := length_overwrite_message i stale
  terminated := zero_mem_overwrite_message i stale

/-- Is a reader of the FIFO, at least while its `open` waits. -/
def Main.reader : Main → Bool
  | .waits | .read | .close => true
  | _ => false

def Client.writer : Client → Bool
  | .waits | .write _ | .close => true
  | _ => false

/-- The server's `open` waits no longer. -/
def Main.meet : Main → Main
  | .waits => .read
  | m => m

def Client.meet : Client → Client
  | .waits => .write 0
  | c => c

structure State (ι : Type*) where
  main : Main
  client : ι → Client
  name : Bool
  store : Server

inductive Input (ι : Type*)
  | server
  | client (c : ι) (stale : Stale)
  | sigint

inductive Event (ι : Type*)
  | wrote (c : ι) (r : Record)
  | received (line : Bytes)
  | sigpipe (c : ι)

section Step
variable {ι : Type*} [DecidableEq ι] [Fintype ι] (capacity : ℕ)

/-- Nothing stays in a FIFO that nobody has open. -/
def State.settle (s : State ι) : State ι :=
  if s.main.reader ∨ ∃ c, (s.client c).writer then s
  else { s with store := { s.store with fifo := [] } }

def State.set (s : State ι) (c : ι) (client : Client) : State ι :=
  { s with client := Function.update s.client c client }

def stepServer (s : State ι) : State ι × List (Event ι) :=
  match s.main with
  | .mkfifo => ({ s with main := .signal, name := true }, [])
  | .signal => ({ s with main := .openFifo }, [])
  | .openFifo =>
    if s.name then
      if ∃ c, (s.client c).writer then
        ({ s with main := .read, client := fun c => (s.client c).meet }, [])
      else ({ s with main := .waits }, [])
    else ({ s with main := .ended }, [])
  | .waits => (s, [])
  | .read =>
    if s.store.fifo = [] then
      -- `read` returns 0 when there is no writer, and waits otherwise
      if ∃ c, (s.client c).writer then (s, []) else ({ s with main := .close }, [])
    else
      ({ s with store := (s.store.step .read).1 }, (s.store.step .read).2.map .received)
  | .close => ({ s with main := .openFifo }.settle, [])
  | .ended => (s, [])

def stepClient (s : State ι) (c : ι) (stale : Stale) : State ι × List (Event ι) :=
  match s.client c with
  | .openFifo =>
    if s.name then
      if s.main.reader then ({ s with main := s.main.meet }.set c (.write 0), [])
      else (s.set c .waits, [])
    else (s.set c .failed, [])
  | .waits => (s, [])
  | .write i =>
    if s.main.reader then
      -- a `write` to a FIFO that is full waits
      if s.store.fifo.length + recordSize ≤ capacity then
        let r := record i stale
        let next := if i + 1 < numberOfMessages then .write (i + 1) else .close
        ({ s with store := (s.store.step (.write r)).1 }.set c next, [.wrote c r])
      else (s, [])
    else ((s.set c .killed).settle, [.sigpipe c])
  | .close => ((s.set c .exited).settle, [])
  | .exited | .failed | .killed => (s, [])

/-- `SIGINT` for the server: without the handler the FIFO stays. -/
def interrupt (s : State ι) : State ι :=
  match s.main with
  | .mkfifo | .signal => { s with main := .ended }.settle
  | .openFifo | .waits | .read | .close => { s with main := .ended, name := false }.settle
  | .ended => s

def step (s : State ι) : Input ι → State ι × List (Event ι)
  | .server => stepServer s
  | .client c stale => stepClient capacity s c stale
  | .sigint => (interrupt s, [])

def start (buffer : Bytes) : State ι :=
  ⟨.mkfifo, fun _ => .openFifo, false, .start buffer⟩

end Step

section Log
variable {ι : Type*} [DecidableEq ι]

/-- The writes and the reads. -/
def Event.move : Event ι → Option Move
  | .wrote _ r => some (.write r)
  | .received _ => some .read
  | .sigpipe _ => none

def Event.line : Event ι → Option Bytes
  | .received line => some line
  | .wrote _ _ | .sigpipe _ => none

def Event.sent (c : ι) : Event ι → Option Bytes
  | .wrote d r => if d = c then some r.text else none
  | .received _ | .sigpipe _ => none

/-- The messages that a client has written where it stands. -/
def Client.written : Client → ℕ
  | .write i => i
  | .close | .exited => numberOfMessages
  | .openFifo | .waits | .failed | .killed => 0

/-- The server is not interrupted, and no client opens the FIFO between the end of file
that the server has read and its `close`. -/
def Clear (s : State ι) : Input ι → Prop
  | .server => True
  | .client c _ => s.client c = .openFifo → s.main ≠ .close
  | .sigint => False

instance (s : State ι) (i : Input ι) : Decidable (Clear s i) :=
  match i with
  | .server => isTrue trivial
  | .client _ _ => inferInstanceAs (Decidable (_ → _))
  | .sigint => isFalse id

end Log

/-! ## Runs without that -/

theorem record_text (i : ℕ) (stale : Stale) : (record i stale).text = message i := by
  have hmessage : 0 ∉ message i := by
    intro hmem
    rcases List.mem_append.1 (List.mem_of_mem_take hmem) with h | h
    · exact absurd h (by decide)
    · exact absurd (digit_of_mem_decimal h).1 (by decide)
  exact ofMemory_of_prefix hmessage (List.prefix_append _ _)

section Run
variable {ι : Type*} {s s' : State ι} {c d : ι} {log : List (Event ι)} {buffer : Bytes}

/-- Who writes is read from; who waits to write waits for the server's `open`; and only
while the server reads there is something in the FIFO. -/
structure Inv (s : State ι) : Prop where
  unnamed : s.main = .mkfifo → s.name = false
  named : s.main ≠ .mkfifo → s.name = true
  runs : s.main ≠ .ended
  waiting : ∀ c, s.client c = .waits → s.main = .signal ∨ s.main = .openFifo
  writing : ∀ c, (s.client c).writer = true → s.client c ≠ .waits → s.main = .read
  turn : ∀ c i, s.client c = .write i → i < numberOfMessages
  alive : ∀ c, s.client c ≠ .killed
  empty : s.main ≠ .read → s.store.fifo = []

/-- All that has been written went through the server's inner loop or is on its way. -/
structure Told [DecidableEq ι] (buffer : Bytes) (s : State ι) (log : List (Event ι)) : Prop where
  store : s.store = exec Server.step (.start buffer) (log.filterMap Event.move)
  lines : log.filterMap Event.line =
    trace Server.step (.start buffer) (log.filterMap Event.move)
  sent : ∀ c, log.filterMap (Event.sent c) = (List.range (s.client c).written).map message

theorem inv_start (buffer : Bytes) : Inv (start buffer : State ι) where
  unnamed _ := rfl
  named h := absurd rfl h
  runs h := by cases h
  waiting _ h := by cases h
  writing _ h := by cases h
  turn _ _ h := by cases h
  alive _ h := by cases h
  empty _ := rfl

/-- The server goes on to a place where it has not opened the FIFO. -/
theorem Inv.go (h : Inv s) (hread : s.main ≠ .read)
    (hmain : s'.main = .signal ∨ s'.main = .openFifo) (hname : s'.name = true)
    (hclient : s'.client = s.client) (hstore : s'.store = s.store) : Inv s' := by
  have hne {m : Main} (hsignal : m ≠ .signal) (hopen : m ≠ .openFifo) : s'.main ≠ m := by
    rintro rfl
    exact hmain.elim hsignal hopen
  refine ⟨fun hmkfifo => absurd hmkfifo (hne (by decide) (by decide)), fun _ => hname,
    hne (by decide) (by decide), fun _ _ => hmain, fun c hwriter hwaits => ?_, ?_, ?_, fun _ => ?_⟩
  · rw [hclient] at hwriter hwaits
    exact absurd (h.writing c hwriter hwaits) hread
  · rw [hclient]
    exact h.turn
  · rw [hclient]
    exact h.alive
  · rw [hstore]
    exact h.empty hread

variable [DecidableEq ι]

theorem told_start (buffer : Bytes) : Told buffer (start buffer : State ι) [] where
  store := rfl
  lines := rfl
  sent _ := rfl

theorem Told.quiet (h : Told buffer s log) (hstore : s'.store = s.store)
    (hclient : ∀ c, (s'.client c).written = (s.client c).written) :
    Told buffer s' (log ++ []) where
  store := by rw [List.append_nil, hstore, h.store]
  lines := by rw [List.append_nil, h.lines]
  sent c := by rw [List.append_nil, hclient, h.sent]

theorem Told.set (h : Told buffer s log) {client : Client} (hstore : s'.store = s.store)
    (hclient : s'.client = Function.update s.client c client)
    (hwritten : client.written = (s.client c).written) : Told buffer s' (log ++ []) := by
  refine h.quiet hstore fun d => ?_
  rw [hclient]
  by_cases hd : d = c
  · subst hd
    rw [Function.update_self, hwritten]
  · rw [Function.update_of_ne hd]

theorem Told.read (h : Told buffer s log) (hfifo : s.store.fifo ≠ [])
    (hstore : s'.store = (s.store.step .read).1) (hclient : s'.client = s.client) :
    Told buffer s' (log ++ (s.store.step .read).2.map Event.received) := by
  have hevents : (s.store.step .read).2.map Event.received =
      ([.received (ofMemory (s.store.fifo.take (bufferSize - 1)))] : List (Event ι)) := by
    rw [step_read hfifo]
    rfl
  have hmoves : (log ++ (s.store.step .read).2.map Event.received).filterMap Event.move =
      log.filterMap Event.move ++ [.read] := by
    rw [hevents, List.filterMap_append]
    rfl
  refine ⟨?_, ?_, fun c => ?_⟩
  · rw [hmoves, exec_append, ← h.store, hstore]
    rfl
  · rw [hmoves, trace_append, ← h.store, List.filterMap_append, h.lines, hevents,
      trace_cons, trace_nil, step_read hfifo]
    rfl
  · rw [List.filterMap_append, h.sent, hevents, hclient]
    exact List.append_nil _

theorem Told.write (h : Told buffer s log) {i : ℕ} {stale : Stale} {next : Client}
    (hclient : s.client c = .write i) (hnext : next.written = i + 1)
    (hstore : s'.store = (s.store.step (.write (record i stale))).1)
    (hclient' : s'.client = Function.update s.client c next) :
    Told buffer s' (log ++ [.wrote c (record i stale)]) := by
  have hmoves : (log ++ [Event.wrote c (record i stale)]).filterMap Event.move =
      log.filterMap Event.move ++ [.write (record i stale)] := by
    rw [List.filterMap_append]
    rfl
  refine ⟨?_, ?_, fun d => ?_⟩
  · rw [hmoves, exec_append, ← h.store, hstore]
    rfl
  · rw [hmoves, trace_append, ← h.store, List.filterMap_append, h.lines]
    rfl
  · rw [List.filterMap_append, h.sent, hclient']
    by_cases hd : d = c
    · subst hd
      have hsent : [Event.wrote d (record i stale)].filterMap (Event.sent d) = [message i] := by
        simp [Event.sent, record_text]
      have hwritten : (s.client d).written = i := by
        rw [hclient]
        rfl
      rw [Function.update_self, hnext, hsent, hwritten, List.range_succ, List.map_append]
      rfl
    · have hsent : [Event.wrote c (record i stale)].filterMap (Event.sent d) = [] := by
        simp [Event.sent, Ne.symm hd]
      rw [Function.update_of_ne hd, hsent, List.append_nil]

variable [Fintype ι] {capacity : ℕ}

omit [DecidableEq ι] in
theorem settle_of_reader (h : s.main.reader = true) : s.settle = s := if_pos (.inl h)

omit [DecidableEq ι] in
theorem settle_of_empty (h : s.store.fifo = []) : s.settle = s := by
  unfold State.settle
  split_ifs
  · rfl
  · rw [← h]

omit [DecidableEq ι] in
theorem inv_stepServer (h : Inv s) : Inv (stepServer s).1 := by
  unfold stepServer
  cases hmain : s.main with
  | mkfifo => exact h.go (by simp [hmain]) (.inl rfl) rfl rfl rfl
  | signal => exact h.go (by simp [hmain]) (.inr rfl) (h.named (by simp [hmain])) rfl rfl
  | openFifo =>
    have hidle : s.main ≠ .read := by simp [hmain]
    have hname := h.named (by simp [hmain])
    dsimp only
    rw [if_pos hname]
    split_ifs with hwriters
    · refine ⟨by simp, fun _ => hname, by simp, fun c hc => ?_, fun _ _ _ => rfl,
        fun c i hc => ?_, fun c hc => ?_, fun hne => absurd rfl hne⟩
      · cases hclient : s.client c <;> simp [Client.meet, hclient] at hc
      · cases hclient : s.client c with
        | waits =>
          simp only [Client.meet, hclient, Client.write.injEq] at hc
          rw [← hc]
          decide
        | write j =>
          simp only [Client.meet, hclient, Client.write.injEq] at hc
          rw [← hc]
          exact h.turn c j hclient
        | openFifo | close | exited | failed | killed => simp [Client.meet, hclient] at hc
      · cases hclient : s.client c <;> simp [Client.meet, hclient] at hc
        exact h.alive c hclient
    · refine ⟨by simp, fun _ => hname, by simp, fun c hc => ?_, fun c hwriter _ => ?_, h.turn,
        h.alive, fun _ => h.empty hidle⟩
      · exact absurd ⟨c, by rw [hc]; rfl⟩ hwriters
      · exact absurd ⟨c, hwriter⟩ hwriters
  | waits => simpa [hmain] using h
  | read =>
    have hname := h.named (by simp [hmain])
    dsimp only
    split_ifs with hfifo hwriters
    · exact h
    · refine ⟨by simp, fun _ => hname, by simp, fun c hc => ?_, fun c hwriter _ => ?_, h.turn,
        h.alive, fun _ => hfifo⟩
      · exact absurd ⟨c, by rw [hc]; rfl⟩ hwriters
      · exact absurd ⟨c, hwriter⟩ hwriters
    · refine ⟨by simp, fun _ => hname, by simp, fun c hc => ?_, fun _ _ _ => rfl, h.turn,
        h.alive, fun hne => absurd rfl hne⟩
      rcases h.waiting c hc with hother | hother <;> simp [hmain] at hother
  | close =>
    have hidle : s.main ≠ .read := by simp [hmain]
    dsimp only
    rw [settle_of_empty (s := { s with main := .openFifo }) (h.empty hidle)]
    exact h.go hidle (.inr rfl) (h.named (by simp [hmain])) rfl rfl
  | ended => exact absurd hmain h.runs

theorem told_stepServer (h : Inv s) (ht : Told buffer s log) :
    Told buffer (stepServer s).1 (log ++ (stepServer s).2) := by
  unfold stepServer
  cases hmain : s.main with
  | mkfifo | signal => exact ht.quiet rfl fun _ => rfl
  | openFifo =>
    dsimp only
    split_ifs
    · refine ht.quiet rfl fun c => ?_
      cases hclient : s.client c <;> simp [Client.meet, hclient, Client.written]
    · exact ht.quiet rfl fun _ => rfl
    · exact ht.quiet rfl fun _ => rfl
  | waits | ended => exact ht.quiet rfl fun _ => rfl
  | read =>
    dsimp only
    split_ifs with hfifo
    · exact ht.quiet rfl fun _ => rfl
    · exact ht.quiet rfl fun _ => rfl
    · exact ht.read hfifo rfl rfl
  | close =>
    have hfifo := h.empty (by simp [hmain])
    dsimp only
    rw [settle_of_empty (s := { s with main := .openFifo }) hfifo]
    exact ht.quiet rfl fun _ => rfl

omit [Fintype ι] in
/-- The move of one client, as the others see it. -/
theorem Inv.set (h : Inv s) {client : Client} (hmain : s'.main = s.main) (hname : s'.name = s.name)
    (hclient : s'.client = Function.update s.client c client)
    (hempty : s.main ≠ .read → s'.store.fifo = [])
    (hwaits : client = .waits → s.main = .signal ∨ s.main = .openFifo)
    (hwriter : client.writer = true → client ≠ .waits → s.main = .read)
    (hturn : ∀ i, client = .write i → i < numberOfMessages) (halive : client ≠ .killed) :
    Inv s' := by
  have hcases (d : ι) : s'.client d = client ∨ s'.client d = s.client d := by
    rw [hclient]
    by_cases hd : d = c
    · subst hd
      exact .inl (Function.update_self _ _ _)
    · exact .inr (Function.update_of_ne hd _ _)
  refine ⟨?_, ?_, ?_, fun d hd => ?_, fun d hd hne => ?_, fun d i hd => ?_, fun d hd => ?_, ?_⟩
  · rw [hmain, hname]
    exact h.unnamed
  · rw [hmain, hname]
    exact h.named
  · rw [hmain]
    exact h.runs
  · rw [hmain]
    rcases hcases d with heq | heq
    · exact hwaits (heq ▸ hd)
    · exact h.waiting d (heq ▸ hd)
  · rw [hmain]
    rcases hcases d with heq | heq
    · exact hwriter (heq ▸ hd) (heq ▸ hne)
    · exact h.writing d (heq ▸ hd) (heq ▸ hne)
  · rcases hcases d with heq | heq
    · exact hturn i (heq ▸ hd)
    · exact h.turn d i (heq ▸ hd)
  · rcases hcases d with heq | heq
    · exact halive (heq ▸ hd)
    · exact h.alive d (heq ▸ hd)
  · rw [hmain]
    exact hempty

theorem inv_stepClient (h : Inv s) (ht : Told buffer s log) {stale : Stale}
    (hclear : s.client c = .openFifo → s.main ≠ .close) :
    Inv (stepClient capacity s c stale).1 ∧
      Told buffer (stepClient capacity s c stale).1
        (log ++ (stepClient capacity s c stale).2) := by
  unfold stepClient
  cases hclient : s.client c with
  | openFifo =>
    dsimp only
    split_ifs with hname hreader
    · have hread : s.main.meet = .read := by
        cases hmain : s.main with
        | waits | read => rfl
        | close => exact absurd hmain (hclear hclient)
        | mkfifo | signal | openFifo | ended => simp [Main.reader, hmain] at hreader
      have hmet : Inv { s with main := s.main.meet } := by
        refine ⟨by simp [hread], fun _ => hname, by simp [hread], fun d hd => ?_,
          fun _ _ _ => hread, h.turn, h.alive, fun hne => absurd hread hne⟩
        rcases h.waiting d hd with hmain | hmain <;> simp [hmain, Main.reader] at hreader
      refine ⟨hmet.set rfl rfl rfl hmet.empty (by simp) (fun _ _ => hread) ?_ (by simp),
        ht.set rfl rfl (by rw [hclient]; rfl)⟩
      intro i hi
      cases hi
      decide
    · refine ⟨h.set rfl rfl rfl h.empty (fun _ => ?_) (by simp) (by simp) (by simp),
        ht.set rfl rfl (by rw [hclient]; rfl)⟩
      cases hmain : s.main with
      | mkfifo => simp [h.unnamed hmain] at hname
      | signal => exact .inl rfl
      | openFifo => exact .inr rfl
      | ended => exact absurd hmain h.runs
      | waits | read | close => simp [Main.reader, hmain] at hreader
    · exact ⟨h.set rfl rfl rfl h.empty (by simp) (by simp [Client.writer]) (by simp) (by simp),
        ht.set rfl rfl (by rw [hclient]; rfl)⟩
  | waits | exited | failed => exact ⟨h, ht.quiet rfl fun _ => rfl⟩
  | killed => exact absurd hclient (h.alive c)
  | write i =>
    have hread : s.main = .read := h.writing c (by rw [hclient]; rfl) (by simp [hclient])
    have hi := h.turn c i hclient
    dsimp only
    rw [if_pos (by rw [hread]; rfl)]
    by_cases hroom : s.store.fifo.length + recordSize ≤ capacity
    · rw [if_pos hroom]
      by_cases hlast : i + 1 < numberOfMessages
      · rw [if_pos hlast]
        refine ⟨h.set rfl rfl rfl (fun hne => absurd hread hne) (by simp) (fun _ _ => hread) ?_
          (by simp), ht.write hclient rfl rfl rfl⟩
        intro j hj
        cases hj
        exact hlast
      · rw [if_neg hlast]
        refine ⟨h.set rfl rfl rfl (fun hne => absurd hread hne) (by simp) (fun _ _ => hread)
          (by simp) (by simp), ht.write hclient ?_ rfl rfl⟩
        simp only [Client.written]
        omega
    · rw [if_neg hroom]
      exact ⟨h, ht.quiet rfl fun _ => rfl⟩
  | close =>
    have hread : s.main = .read := h.writing c (by rw [hclient]; rfl) (by simp [hclient])
    dsimp only
    rw [settle_of_reader (s := s.set c .exited) (by rw [State.set, hread]; rfl)]
    exact ⟨h.set rfl rfl rfl h.empty (by simp) (by simp [Client.writer]) (by simp) (by simp),
      ht.set rfl rfl (by rw [hclient]; rfl)⟩

theorem inv_step (h : Inv s) (ht : Told buffer s log) {input : Input ι} (hclear : Clear s input) :
    Inv (step capacity s input).1 ∧
      Told buffer (step capacity s input).1 (log ++ (step capacity s input).2) := by
  cases input with
  | server => exact ⟨inv_stepServer h, told_stepServer h ht⟩
  | client c stale => exact inv_stepClient h ht hclear
  | sigint => exact hclear.elim

/-- As long as the server is not interrupted and nobody opens the FIFO between its end of
file and its `close`, no client is killed and nothing gets lost: what the server prints is
what its inner loop makes of the messages as they were written, each client's in their
order, and whenever it is not in that loop it has read them all. -/
theorem fifo_open_close (capacity : ℕ) (buffer : Bytes) (inputs : List (Input ι))
    (h : Along (step capacity) Clear (start buffer) inputs) :
    let s := exec (step capacity) (start buffer) inputs
    let log := trace (step capacity) (start buffer) inputs
    (∀ c, s.client c ≠ .killed ∧
      log.filterMap (Event.sent c) = (List.range (s.client c).written).map message) ∧
    s.store = exec Server.step (.start buffer) (log.filterMap Event.move) ∧
    log.filterMap Event.line =
      trace Server.step (.start buffer) (log.filterMap Event.move) ∧
    (s.main ≠ .read → s.store.fifo = []) := by
  have hrun := invariant_trace_along (fun s log => Inv s ∧ Told buffer s log)
    (fun s input log hs hclear => inv_step hs.1 hs.2 hclear)
    ⟨inv_start buffer, told_start buffer⟩ h
  rw [List.nil_append] at hrun
  obtain ⟨hinv, htold⟩ := hrun
  exact ⟨fun c => ⟨hinv.alive c, htold.sent c⟩, htold.store, htold.lines, hinv.empty⟩

end Run

def zeroes : Stale := ⟨List.replicate recordSize 0, rfl⟩

/-- The server opens the FIFO, and the client `c` writes all its messages to it. -/
def visit (c : Bool) : List (Input Bool) :=
  .server :: .client c zeroes :: (List.replicate numberOfMessages (.client c zeroes) ++
    [.client c zeroes, .server, .server, .server])

def twoVisits : List (Input Bool) := .server :: .server :: (visit true ++ visit false)

theorem fifo_open_close_two :
    (exec (step 4096) (start []) twoVisits).client true = .exited ∧
      (exec (step 4096) (start []) twoVisits).store.fifo = [] ∧
      (trace (step 4096) (start []) twoVisits).filterMap (Event.sent true) =
        (List.range numberOfMessages).map message := by
  obtain ⟨hclients, -, -, hempty⟩ := fifo_open_close 4096 [] twoVisits (by decide +kernel)
  have hexited : (exec (step 4096) (start []) twoVisits).client true = .exited := by
    decide +kernel
  have hmain : (exec (step 4096) (start []) twoVisits).main ≠ .read := by decide +kernel
  refine ⟨hexited, hempty hmain, ?_⟩
  rw [(hclients true).2, hexited]
  rfl

/-- A client that opens the FIFO just before the server's `close` is killed. -/
example : (exec (step 4096) (start [])
    ([.server, .server] ++ (visit true).take 10 ++
      [.client false zeroes, .server, .client false zeroes])).client false = .killed := by
  decide +kernel

end AcademyLab.Fifo.Opening
