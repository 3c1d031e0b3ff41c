import AcademyLab.Machine
import AcademyLab.Chat.Message
import Mathlib.Data.Fintype.Basic
import Mathlib.Data.Fintype.Pi
import Mathlib.Data.List.FinRange

/-!
# The main loop of the chat servers

`main` of `server_select.c` and of `server_poll.c` differ only in where they
keep the watched descriptors. That part is a `Watcher`; everything else is
written once. The loop is cut at the points where it can be looked at: before
`select()`/`poll()`, before the accept block, and before each client slot.

The events of a step are its system calls in order, the stores it makes into
buffers, and the operations that C leaves undefined outside a range. `chunk`
is a record, not an action: it says which exit the handler took.
-/
namespace AcademyLab.Chat
open CString

abbrev Slot := Fin maxClients

/-- `client_t`; the name is the string in `char name[30]`. -/
structure Client where
  fd : ℤ
  addr : SockAddr
  name : Bytes
  lastMsgTime : ℤ
  deriving DecidableEq, Inhabited

/-- The array `clients`. -/
abbrev Table := Slot → Client

inductive Buffer
  | recvBuf
  | sendBuf
  | name
  | oldName
  deriving DecidableEq

def Buffer.size : Buffer → ℕ
  | .recvBuf | .sendBuf => maxBuffer
  | .name | .oldName => nameSize

/-- The exits of the handler of a received chunk, with what it took from it. -/
inductive Outcome
  | dropped
  | renamed (newName : Bytes)
  | rejected (newName : Bytes)
  | chatted (text : Bytes)
  deriving DecidableEq

inductive Event
  | ready (fds : Finset ℤ)
  | accept (fd : ℤ)
  | read (fd : ℤ)
  | write (fd : ℤ) (msg : Msg)
  | close (fd : ℤ)
  | print (msg : Msg)
  | store (buf : Buffer) (first count : ℕ)
  | fdSet (fd : ℤ)
  | elapsed (now last : ℤ)
  | chunk (fd : ℤ) (data : Bytes) (now : ℤ) (outcome : Outcome)
  deriving DecidableEq

/-- `FD_SETSIZE` -/
def fdSetSize : ℤ := 1024

/-- C defines the event: the store stays inside its buffer, the descriptor
inside an `fd_set`, the difference inside a 64-bit `time_t`. -/
def Event.Defined : Event → Prop
  | .store buf first count => first + count ≤ buf.size
  | .fdSet fd => 0 ≤ fd ∧ fd < fdSetSize
  | .elapsed now last => -2 ^ 63 ≤ now - last ∧ now - last < 2 ^ 63
  | _ => True

instance (e : Event) : Decidable e.Defined :=
  match e with
  | .store buf first count => inferInstanceAs (Decidable (first + count ≤ buf.size))
  | .fdSet fd => inferInstanceAs (Decidable (0 ≤ fd ∧ fd < fdSetSize))
  | .elapsed now last =>
      inferInstanceAs (Decidable (-2 ^ 63 ≤ now - last ∧ now - last < 2 ^ 63))
  | .ready _ | .accept _ | .read _ | .write _ _ | .close _ | .print _ | .chunk _ _ _ _ =>
      isTrue trivial

/-- What a successful `accept` returns. -/
structure Conn where
  fd : ℕ
  addr : SockAddr
  deriving DecidableEq

/-- What a `read` of at most `MAX_BUFFER` bytes with a positive result returns. -/
structure Chunk where
  data : Bytes
  nonempty : 0 < data.length
  fits : data.length ≤ maxBuffer
  deriving DecidableEq

/-- The answers of the surroundings that a step may ask for: the readable
descriptors, the result of `accept`, the contents of the uninitialised local
`client`, the result of `read` (`none` for 0 or an error) and of `time`. -/
structure Input where
  ready : Finset ℤ
  accept : Option Conn
  stack : Client
  read : Option Chunk
  now : ℤ
  deriving Inhabited

/-- The structure a server keeps its watched descriptors in. `wait` is the call
of `select()` or `poll()`, `reported` the descriptors it reported; `add` and
`remove` also return the descriptors they give to `FD_SET` or `FD_CLR`. -/
structure Watcher (W : Type) where
  wait : W → Finset ℤ → W
  reported : W → Finset ℤ
  listenerReady : W → ℤ → Bool
  clientReady : W → Slot → ℤ → Bool
  add : W → Slot → ℤ → W × List ℤ
  remove : W → Slot → ℤ → W × List ℤ

structure Server (W : Type) where
  listenfd : ℤ
  clients : Table
  watch : W

/-- Where the main loop stands. -/
inductive Pc
  | wait
  | accept
  | scan (i : Slot)
  deriving DecidableEq

structure Loop (W : Type) where
  pc : Pc
  server : Server W

/-- `sprintf(send_buf, ...)`, with the terminating NUL. -/
def sprintf (msg : Msg) : Event := .store .sendBuf 0 (msg.bytes.length + 1)

/-- `send_msg(client, buf)` -/
def sendMsg (client : Client) (msg : Msg) : List Event := [.write client.fd msg]

/-- `broadcast_msg(clients, buf, exceptfd)` -/
def broadcastMsg (clients : Table) (msg : Msg) (exceptfd : ℤ) : List Event :=
  ((List.finRange maxClients).filter fun i =>
    (clients i).fd ≠ -1 ∧ (clients i).fd ≠ exceptfd).map fun i => .write (clients i).fd msg

/-- The first slot of the accept loop with `clients[i].fd < 0`. -/
def firstFree (clients : Table) : Option Slot :=
  (List.finRange maxClients).find? fun i => (clients i).fd < 0

/-- The temporary `client` after `accept` and `addr_to_str`. A failed `accept`
leaves its address as it was; nothing sets `last_msg_time`. -/
def newClient (inp : Input) : Client :=
  match inp.accept with
  | some conn => { inp.stack with
      fd := conn.fd, addr := conn.addr, name := addrToStr conn.addr nameSize }
  | none => { inp.stack with fd := -1, name := addrToStr inp.stack.addr nameSize }

/-- The head of the accept block: `accept`, then `addr_to_str` into the name. -/
def acceptCall (client : Client) : List Event :=
  [.accept client.fd, .store .name 0 (client.name.length + 1)]

/-- The rest of the accept block once slot `i` is found free. -/
def addClient {W : Type} (w : Watcher W) (s : Server W) (i : Slot) (client : Client) :
    Server W × List Event :=
  let clients := Function.update s.clients i client
  let watch := w.add s.watch i client.fd
  let msg := Msg.connected client.name
  ({ s with clients := clients, watch := watch.1 },
    watch.2.map .fdSet ++ [sprintf msg, .print msg] ++ broadcastMsg clients msg (-1))

/-- The rest of the accept block when no slot is free. -/
def refuse (client : Client) : List Event :=
  [.print (.refused client.name)] ++ sendMsg client .full ++ [.close client.fd]

/-- The handler of slot `i` when `read` returned 0 or an error. -/
def leave {W : Type} (w : Watcher W) (s : Server W) (i : Slot) : Server W × List Event :=
  let client := s.clients i
  let clients := Function.update s.clients i { client with fd := -1 }
  let watch := w.remove s.watch i client.fd
  let msg := Msg.disconnected client.name
  ({ s with clients := clients, watch := watch.1 },
    [.close client.fd] ++ watch.2.map .fdSet ++ [sprintf msg, .print msg] ++
      broadcastMsg clients msg (-1))

/-- The line in `recv_buf` after the terminator and the cut at CR or LF. -/
def lineOf (data : Bytes) : Bytes :=
  let text := ofMemory data
  text.take (strcspn text (ascii "\r\n"))

/-- The handler of a `/name` command with a name of allowed length. -/
def changeName (clients : Table) (i : Slot) (newName : Bytes) : Table × List Event :=
  let client := clients i
  let clients' := Function.update clients i { client with name := newName }
  let msg := Msg.changedName client.name newName
  (clients',
    [.store .oldName 0 (client.name.length + 1), .store .name 0 (newName.length + 1),
      sprintf msg, .print msg] ++ broadcastMsg clients' msg (-1))

/-- The answer to a `/name` command with another name. -/
def rejectName (client : Client) : List Event := [sprintf .nameRule] ++ sendMsg client .nameRule

/-- The handler of every other line. -/
def chatLine (clients : Table) (i : Slot) (line : Bytes) (now : ℤ) : Table × List Event :=
  let client := clients i
  let you := Msg.you line
  let chat := Msg.chat client.name line
  (Function.update clients i { client with lastMsgTime := now },
    [sprintf you] ++ sendMsg client you ++ [sprintf chat] ++
      broadcastMsg clients chat client.fd ++ [.print chat])

/-- The handler of slot `i` when `read` returned `data`. -/
def receive (clients : Table) (i : Slot) (data : Bytes) (now : ℤ) : Table × List Event :=
  let client := clients i
  let tested := Event.elapsed now client.lastMsgTime
  let exit (outcome : Outcome) := [Event.chunk client.fd data now outcome]
  if now - client.lastMsgTime ≥ msgCooldown then
    let line := lineOf data
    let cut := [tested, .store .recvBuf data.length 1, .store .recvBuf line.length 1]
    if strncmpEq line (ascii "/name ") 6 then
      let newName := line.drop 6
      if newName.length > 0 ∧ newName.length < nameSize then
        let r := changeName clients i newName
        (r.1, cut ++ r.2 ++ exit (.renamed newName))
      else (clients, cut ++ rejectName client ++ exit (.rejected newName))
    else
      let r := chatLine clients i line now
      (r.1, cut ++ r.2 ++ exit (.chatted line))
  else (clients, [tested] ++ exit .dropped)

/-- The body of the client loop for slot `i`. -/
def handleSlot {W : Type} (w : Watcher W) (s : Server W) (i : Slot) (inp : Input) :
    Server W × List Event :=
  let fd := (s.clients i).fd
  if fd < 0 then (s, [])
  else if w.clientReady s.watch i fd then
    match inp.read with
    | none => ((leave w s i).1, .read fd :: (leave w s i).2)
    | some chunk =>
      let r := receive s.clients i chunk.data inp.now
      ({ s with clients := r.1 }, .read fd :: r.2)
  else (s, [])

def firstSlot : Slot := ⟨0, by decide⟩

/-- The loop counter after slot `i`. -/
def Pc.next (i : Slot) : Pc :=
  if h : i.val + 1 < maxClients then .scan ⟨i.val + 1, h⟩ else .wait

theorem Pc.next_ne_accept (i : Slot) : Pc.next i ≠ .accept := by
  unfold Pc.next
  split <;> simp

/-- One step of the main loop. -/
def step {W : Type} (w : Watcher W) (c : Loop W) (inp : Input) : Loop W × List Event :=
  let s := c.server
  match c.pc with
  | .wait =>
    let watch := w.wait s.watch inp.ready
    (⟨.accept, { s with watch := watch }⟩, [.ready (w.reported watch)])
  | .accept =>
    if w.listenerReady s.watch s.listenfd then
      let client := newClient inp
      match firstFree s.clients with
      | some i =>
        let r := addClient w s i client
        (⟨.scan firstSlot, r.1⟩, acceptCall client ++ r.2)
      | none => (⟨.wait, s⟩, acceptCall client ++ refuse client)
    else (⟨.scan firstSlot, s⟩, [])
  | .scan i => (⟨.next i, (handleSlot w s i inp).1⟩, (handleSlot w s i inp).2)

/-- The loop at its first `select()` or `poll()`: every slot of the allocated
table is marked free, its other bytes are as `malloc` left them. -/
def boot {W : Type} (listenfd : ℕ) (watch : W) (mem : Table) : Loop W :=
  ⟨.wait, { listenfd := listenfd, clients := fun i => { mem i with fd := -1 }, watch := watch }⟩

/-- The answers of one iteration: what is reported, the connection that is
accepted, and for each slot what its read returns. -/
def iteration (ready : Finset ℤ) (accept : Option Conn) (stack : Client)
    (reads : Slot → Option Chunk) (now : ℤ) : List Input :=
  { (default : Input) with ready } :: { (default : Input) with accept, stack } ::
    (List.finRange maxClients).map fun i => { (default : Input) with read := reads i, now }

/-- A chunk that holds one line. -/
def lineChunk (text : String) (h : 0 < (ascii text).length ∧ (ascii text).length ≤ maxBuffer) :
    Chunk := ⟨ascii text, h.1, h.2⟩

/-- A letter, the same letter with its newline, and a change of name. -/
def letterA : Chunk := lineChunk "a" (by decide)

def lineA : Chunk := lineChunk "a\n" (by decide)

def renameB : Chunk := lineChunk "/name b\n" (by decide)

/-- The descriptors of the slots. -/
def fds (clients : Table) : Slot → ℤ := fun i => (clients i).fd

section Lemmas
variable {W : Type} {w : Watcher W}

/-- What `recv_buf` holds behind the terminator does not show in the line. -/
theorem lineOf_terminated (data stale : Bytes) : lineOf (data ++ 0 :: stale) = lineOf data := by
  simp only [lineOf, ofMemory_terminated]

theorem firstFree_some {clients : Table} {i : Slot} (h : firstFree clients = some i) :
    (clients i).fd < 0 := by
  simpa using List.find?_some h

theorem firstFree_none {clients : Table} :
    firstFree clients = none ↔ ∀ i, 0 ≤ (clients i).fd := by
  simp [firstFree]

theorem mem_broadcastMsg {clients : Table} {msg : Msg} {exceptfd : ℤ} {e : Event} :
    e ∈ broadcastMsg clients msg exceptfd ↔
      ∃ i, (clients i).fd ≠ -1 ∧ (clients i).fd ≠ exceptfd ∧ e = .write (clients i).fd msg := by
  simp only [broadcastMsg, List.mem_map, List.mem_filter, List.mem_finRange, true_and,
    decide_eq_true_eq]
  constructor
  · rintro ⟨i, ⟨h1, hx⟩, rfl⟩
    exact ⟨i, h1, hx, rfl⟩
  · rintro ⟨i, h1, hx, rfl⟩
    exact ⟨i, ⟨h1, hx⟩, rfl⟩

/-- What a line asks for: a name, if it is allowed, or a chat line. -/
def request (line : Bytes) : Outcome :=
  if strncmpEq line (ascii "/name ") 6 then
    let newName := line.drop 6
    if newName.length > 0 ∧ newName.length < nameSize then .renamed newName
    else .rejected newName
  else .chatted line

/-- The test of the cooldown. -/
def Client.Allows (client : Client) (now : ℤ) : Prop := now - client.lastMsgTime ≥ msgCooldown

instance (client : Client) (now : ℤ) : Decidable (client.Allows now) :=
  inferInstanceAs (Decidable (_ ≤ _))

/-- The exit that the handler takes with a chunk of the client. -/
def Client.outcome (client : Client) (data : Bytes) (now : ℤ) : Outcome :=
  if client.Allows now then request (lineOf data) else .dropped

/-- When each exit is taken. -/
inductive Exit (client : Client) (data : Bytes) (now : ℤ) : Outcome → Prop
  | dropped (hc : ¬ client.Allows now) : Exit client data now .dropped
  | renamed (newName : Bytes) (hc : client.Allows now)
      (hline : lineOf data = ascii "/name " ++ newName)
      (hlen : 0 < newName.length ∧ newName.length < nameSize) :
      Exit client data now (.renamed newName)
  | rejected (newName : Bytes) (hc : client.Allows now)
      (hline : lineOf data = ascii "/name " ++ newName)
      (hlen : ¬ (0 < newName.length ∧ newName.length < nameSize)) :
      Exit client data now (.rejected newName)
  | chatted (hc : client.Allows now) (hline : ¬ ascii "/name " <+: lineOf data) :
      Exit client data now (.chatted (lineOf data))

theorem exit (client : Client) (data : Bytes) (now : ℤ) :
    Exit client data now (client.outcome data now) := by
  have hcmd : strncmpEq (lineOf data) (ascii "/name ") 6 = true ↔ ascii "/name " <+: lineOf data :=
    strncmpEq_iff _ (ascii "/name ")
  unfold Client.outcome
  by_cases hc : client.Allows now
  · rw [if_pos hc]
    unfold request
    by_cases hline : strncmpEq (lineOf data) (ascii "/name ") 6 = true
    · obtain ⟨newName, hnew⟩ := hcmd.mp hline
      have hdrop : (lineOf data).drop 6 = newName := by
        rw [← hnew]
        rfl
      simp only [if_pos hline, hdrop]
      by_cases hlen : 0 < newName.length ∧ newName.length < nameSize
      · rw [if_pos hlen]
        exact .renamed newName hc hnew.symm hlen
      · rw [if_neg hlen]
        exact .rejected newName hc hnew.symm hlen
    · rw [if_neg hline]
      exact .chatted hc fun h => hline (hcmd.mpr h)
  · rw [if_neg hc]
    exact .dropped hc

/-- What the handler does before it looks at the line. -/
def cutEvents (clients : Table) (i : Slot) (data : Bytes) (now : ℤ) : List Event :=
  [.elapsed now (clients i).lastMsgTime, .store .recvBuf data.length 1,
    .store .recvBuf (lineOf data).length 1]

/-- The handler of slot `i` once its exit is known. -/
def receiveWith (clients : Table) (i : Slot) (data : Bytes) (now : ℤ) :
    Outcome → Table × List Event
  | .dropped => (clients,
      [.elapsed now (clients i).lastMsgTime, .chunk (clients i).fd data now .dropped])
  | .renamed newName => ((changeName clients i newName).1,
      cutEvents clients i data now ++ (changeName clients i newName).2 ++
        [.chunk (clients i).fd data now (.renamed newName)])
  | .rejected newName => (clients,
      cutEvents clients i data now ++ rejectName (clients i) ++
        [.chunk (clients i).fd data now (.rejected newName)])
  | .chatted line => ((chatLine clients i line now).1,
      cutEvents clients i data now ++ (chatLine clients i line now).2 ++
        [.chunk (clients i).fd data now (.chatted line)])

theorem receive_eq (clients : Table) (i : Slot) (data : Bytes) (now : ℤ) :
    receive clients i data now =
      receiveWith clients i data now ((clients i).outcome data now) := by
  by_cases hc : now - (clients i).lastMsgTime ≥ msgCooldown
  · have ho : (clients i).outcome data now = request (lineOf data) := if_pos hc
    rw [ho]
    unfold receive request
    simp only [if_pos hc]
    split_ifs <;> rfl
  · have ho : (clients i).outcome data now = .dropped := if_neg hc
    rw [ho]
    unfold receive
    simp only [if_neg hc]
    rfl

/-- Only the names and the time stamps of the table can change in `receive`. -/
@[simp] theorem receive_fd (clients : Table) (i : Slot) (data : Bytes) (now : ℤ) (j : Slot) :
    ((receive clients i data now).1 j).fd = (clients j).fd := by
  have hupdate (client : Client) (hfd : client.fd = (clients i).fd) :
      (Function.update clients i client j).fd = (clients j).fd := by
    by_cases hj : j = i
    · subst hj
      rw [Function.update_self, hfd]
    · rw [Function.update_of_ne hj]
  rw [receive_eq]
  cases (clients i).outcome data now with
  | dropped => rfl
  | renamed => exact hupdate _ rfl
  | rejected => rfl
  | chatted => exact hupdate _ rfl

section Blocks
variable {P : Event → Prop} {clients : Table} {s : Server W} {i : Slot} {client : Client}

/-- What holds of every write holds of a broadcast. -/
theorem forall_broadcastMsg (hwrite : ∀ fd msg, P (.write fd msg)) {msg : Msg} {exceptfd : ℤ} :
    ∀ e ∈ broadcastMsg clients msg exceptfd, P e := by
  intro e he
  obtain ⟨j, -, -, rfl⟩ := mem_broadcastMsg.mp he
  exact hwrite _ _

theorem forall_addClient (hset : ∀ fd, P (.fdSet fd)) (hwrite : ∀ fd msg, P (.write fd msg)) :
    (∀ e ∈ (addClient w s i client).2, P e) ↔
      P (sprintf (.connected client.name)) ∧ P (.print (.connected client.name)) := by
  simp only [addClient, List.forall_mem_append, List.forall_mem_cons, List.forall_mem_map,
    List.not_mem_nil, IsEmpty.forall_iff, iff_true_intro (forall_broadcastMsg hwrite), hset,
    implies_true, true_and, and_true]

theorem forall_refuse (hwrite : ∀ fd msg, P (.write fd msg)) :
    (∀ e ∈ refuse client, P e) ↔ P (.print (.refused client.name)) ∧ P (.close client.fd) := by
  simp only [refuse, sendMsg, List.forall_mem_append, List.forall_mem_singleton, hwrite, and_true]

theorem forall_leave (hset : ∀ fd, P (.fdSet fd)) (hwrite : ∀ fd msg, P (.write fd msg)) :
    (∀ e ∈ (leave w s i).2, P e) ↔ P (.close (s.clients i).fd) ∧
      P (sprintf (.disconnected (s.clients i).name)) ∧
        P (.print (.disconnected (s.clients i).name)) := by
  simp only [leave, List.forall_mem_append, List.forall_mem_cons, List.forall_mem_map,
    List.not_mem_nil, IsEmpty.forall_iff, iff_true_intro (forall_broadcastMsg hwrite), hset,
    implies_true, and_true]

theorem forall_cutEvents {data : Bytes} {now : ℤ} :
    (∀ e ∈ cutEvents clients i data now, P e) ↔ P (.elapsed now (clients i).lastMsgTime) ∧
      P (.store .recvBuf data.length 1) ∧ P (.store .recvBuf (lineOf data).length 1) := by
  simp only [cutEvents, List.forall_mem_cons, List.not_mem_nil, IsEmpty.forall_iff, implies_true,
    and_true]

theorem forall_changeName (hwrite : ∀ fd msg, P (.write fd msg)) {newName : Bytes} :
    (∀ e ∈ (changeName clients i newName).2, P e) ↔
      P (.store .oldName 0 ((clients i).name.length + 1)) ∧
        P (.store .name 0 (newName.length + 1)) ∧
          P (sprintf (.changedName (clients i).name newName)) ∧
            P (.print (.changedName (clients i).name newName)) := by
  simp only [changeName, List.forall_mem_append, List.forall_mem_cons, List.not_mem_nil,
    IsEmpty.forall_iff, iff_true_intro (forall_broadcastMsg hwrite), implies_true, and_true]

theorem forall_rejectName (hwrite : ∀ fd msg, P (.write fd msg)) :
    (∀ e ∈ rejectName client, P e) ↔ P (sprintf .nameRule) := by
  simp only [rejectName, sendMsg, List.forall_mem_append, List.forall_mem_singleton, hwrite,
    and_true]

theorem forall_chatLine (hwrite : ∀ fd msg, P (.write fd msg)) {line : Bytes} {now : ℤ} :
    (∀ e ∈ (chatLine clients i line now).2, P e) ↔
      (P (sprintf (.you line)) ∧ P (sprintf (.chat (clients i).name line))) ∧
        P (.print (.chat (clients i).name line)) := by
  simp only [chatLine, sendMsg, List.forall_mem_append, List.forall_mem_singleton, hwrite,
    iff_true_intro (forall_broadcastMsg hwrite), and_true]

end Blocks

/-- The events that neither ask the kernel anything nor close a descriptor. -/
def Event.IsOutput : Event → Prop
  | .ready _ | .accept _ | .read _ | .close _ => False
  | _ => True

theorem isOutput_addClient {s : Server W} {i : Slot} {client : Client} :
    ∀ e ∈ (addClient w s i client).2, e.IsOutput :=
  (forall_addClient (fun _ => trivial) (fun _ _ => trivial)).2 ⟨trivial, trivial⟩

/-- A client that leaves is closed first. -/
theorem leave_events (w : Watcher W) (s : Server W) (i : Slot) :
    ∃ es, (leave w s i).2 = .close (s.clients i).fd :: es ∧ ∀ e ∈ es, e.IsOutput := by
  refine ⟨_, rfl, fun e he => ?_⟩
  simp only [List.nil_append, List.append_eq, List.mem_append, List.mem_cons, List.not_mem_nil,
    List.mem_map, or_false] at he
  rcases he with (⟨fd, -, rfl⟩ | rfl | rfl) | he
  · trivial
  · trivial
  · trivial
  · exact forall_broadcastMsg (fun _ _ => trivial) e he

theorem isOutput_receive {clients : Table} {i : Slot} {data : Bytes} {now : ℤ} :
    ∀ e ∈ (receive clients i data now).2, e.IsOutput := by
  have hwrite (fd : ℤ) (msg : Msg) : (Event.write fd msg).IsOutput := trivial
  have hcut : ∀ e ∈ cutEvents clients i data now, e.IsOutput :=
    forall_cutEvents.2 ⟨trivial, trivial, trivial⟩
  rw [receive_eq]
  cases (clients i).outcome data now with
  | dropped =>
    simp only [receiveWith, List.forall_mem_cons, List.not_mem_nil, IsEmpty.forall_iff,
      implies_true]
    exact ⟨trivial, trivial, trivial⟩
  | renamed newName =>
    have hchange : ∀ e ∈ (changeName clients i newName).2, e.IsOutput :=
      (forall_changeName hwrite).2 ⟨trivial, trivial, trivial, trivial⟩
    simp only [receiveWith, List.forall_mem_append, List.forall_mem_singleton]
    exact ⟨⟨hcut, hchange⟩, trivial⟩
  | rejected newName =>
    have hreject : ∀ e ∈ rejectName (clients i), e.IsOutput := (forall_rejectName hwrite).2 trivial
    simp only [receiveWith, List.forall_mem_append, List.forall_mem_singleton]
    exact ⟨⟨hcut, hreject⟩, trivial⟩
  | chatted line =>
    have hchat : ∀ e ∈ (chatLine clients i line now).2, e.IsOutput :=
      (forall_chatLine hwrite).2 ⟨⟨trivial, trivial⟩, trivial⟩
    simp only [receiveWith, List.forall_mem_append, List.forall_mem_singleton]
    exact ⟨⟨hcut, hchat⟩, trivial⟩

@[simp] theorem fds_apply (clients : Table) (i : Slot) : fds clients i = (clients i).fd := rfl

@[simp] theorem fds_update (clients : Table) (i : Slot) (client : Client) :
    fds (Function.update clients i client) = Function.update (fds clients) i client.fd := by
  ext j
  by_cases hj : j = i
  · subst hj
    simp
  · simp [hj]

@[simp] theorem fds_receive (clients : Table) (i : Slot) (data : Bytes) (now : ℤ) :
    fds (receive clients i data now).1 = fds clients := by
  ext j
  simp

section Descriptors
variable {t : Slot → ℤ} {i : Slot} {fd : ℤ}

/-- No two slots hold the same descriptor. -/
def Distinct (t : Slot → ℤ) : Prop := ∀ i j, 0 ≤ t i → t i = t j → i = j

/-- A slot takes a descriptor that no slot holds. -/
theorem Distinct.add (h : Distinct t) (hne : ∀ j, t j ≠ fd) :
    Distinct (Function.update t i fd) := by
  intro j l hj he
  by_cases hji : j = i <;> by_cases hli : l = i
  · rw [hji, hli]
  · subst hji
    simp only [Function.update_self, Function.update_of_ne hli] at he
    exact absurd he.symm (hne l)
  · subst hli
    simp only [Function.update_self, Function.update_of_ne hji] at he
    exact absurd he (hne j)
  · rw [Function.update_of_ne hji] at hj he
    rw [Function.update_of_ne hli] at he
    exact h j l hj he

theorem ne_of_update_nonneg {j : Slot} (hj : 0 ≤ Function.update t i (-1) j) : j ≠ i := by
  rintro rfl
  rw [Function.update_self] at hj
  omega

/-- A slot gives up its descriptor. -/
theorem Distinct.remove (h : Distinct t) : Distinct (Function.update t i (-1)) := by
  intro j l hj he
  have hji := ne_of_update_nonneg hj
  have hli := ne_of_update_nonneg (he ▸ hj)
  rw [Function.update_of_ne hji] at hj he
  rw [Function.update_of_ne hli] at he
  exact h j l hj he

/-- A slot that is not free holds a descriptor. -/
theorem free_update (h : ∀ j, t j = -1 ∨ 0 ≤ t j) (hfd : fd = -1 ∨ 0 ≤ fd) (j : Slot) :
    Function.update t i fd j = -1 ∨ 0 ≤ Function.update t i fd j :=
  (Function.forall_update_iff t fun _ fd => fd = -1 ∨ 0 ≤ fd).2 ⟨hfd, fun j _ => h j⟩ j

end Descriptors

/-- Everything a step of the loop can do, with what it has tested before. -/
inductive Transition (w : Watcher W) : Loop W → Input → Loop W × List Event → Prop
  | wait (s inp) : Transition w ⟨.wait, s⟩ inp
      (⟨.accept, { s with watch := w.wait s.watch inp.ready }⟩,
        [.ready (w.reported (w.wait s.watch inp.ready))])
  | noConnection (s inp) (hl : w.listenerReady s.watch s.listenfd = false) :
      Transition w ⟨.accept, s⟩ inp (⟨.scan firstSlot, s⟩, [])
  | add (s inp i) (hl : w.listenerReady s.watch s.listenfd = true)
      (hi : firstFree s.clients = some i) :
      Transition w ⟨.accept, s⟩ inp
        (⟨.scan firstSlot, (addClient w s i (newClient inp)).1⟩,
          acceptCall (newClient inp) ++ (addClient w s i (newClient inp)).2)
  | refuse (s inp) (hl : w.listenerReady s.watch s.listenfd = true)
      (hn : firstFree s.clients = none) :
      Transition w ⟨.accept, s⟩ inp
        (⟨.wait, s⟩, acceptCall (newClient inp) ++ refuse (newClient inp))
  | idle (s inp i)
      (h : (s.clients i).fd < 0 ∨ w.clientReady s.watch i (s.clients i).fd = false) :
      Transition w ⟨.scan i, s⟩ inp (⟨.next i, s⟩, [])
  | leave (s inp i) (hfd : 0 ≤ (s.clients i).fd)
      (hr : w.clientReady s.watch i (s.clients i).fd = true) (hn : inp.read = none) :
      Transition w ⟨.scan i, s⟩ inp
        (⟨.next i, (leave w s i).1⟩, .read (s.clients i).fd :: (leave w s i).2)
  | receive (s inp i) (chunk : Chunk) (hfd : 0 ≤ (s.clients i).fd)
      (hr : w.clientReady s.watch i (s.clients i).fd = true) (hc : inp.read = some chunk) :
      Transition w ⟨.scan i, s⟩ inp
        (⟨.next i, { s with clients := (receive s.clients i chunk.data inp.now).1 }⟩,
          .read (s.clients i).fd :: (receive s.clients i chunk.data inp.now).2)

section Equations
variable {s : Server W} {i : Slot} (inp : Input)

theorem step_noConnection (hl : w.listenerReady s.watch s.listenfd = false) :
    step w ⟨.accept, s⟩ inp = (⟨.scan firstSlot, s⟩, []) := by simp [step, hl]

theorem step_add (hl : w.listenerReady s.watch s.listenfd = true)
    (hi : firstFree s.clients = some i) : step w ⟨.accept, s⟩ inp =
      (⟨.scan firstSlot, (addClient w s i (newClient inp)).1⟩,
        acceptCall (newClient inp) ++ (addClient w s i (newClient inp)).2) := by
  simp [step, hl, hi]

theorem step_refuse (hl : w.listenerReady s.watch s.listenfd = true)
    (hn : firstFree s.clients = none) : step w ⟨.accept, s⟩ inp =
      (⟨.wait, s⟩, acceptCall (newClient inp) ++ refuse (newClient inp)) := by
  simp [step, hl, hn]

theorem step_idle
    (h : (s.clients i).fd < 0 ∨ w.clientReady s.watch i (s.clients i).fd = false) :
    step w ⟨.scan i, s⟩ inp = (⟨.next i, s⟩, []) := by
  by_cases hfd : (s.clients i).fd < 0
  · simp [step, handleSlot, hfd]
  · simp [step, handleSlot, hfd, h.resolve_left hfd]

theorem step_leave (hfd : 0 ≤ (s.clients i).fd)
    (hr : w.clientReady s.watch i (s.clients i).fd = true) (hn : inp.read = none) :
    step w ⟨.scan i, s⟩ inp =
      (⟨.next i, (leave w s i).1⟩, .read (s.clients i).fd :: (leave w s i).2) := by
  simp [step, handleSlot, not_lt.mpr hfd, hr, hn]

theorem step_receive {chunk : Chunk} (hfd : 0 ≤ (s.clients i).fd)
    (hr : w.clientReady s.watch i (s.clients i).fd = true) (hc : inp.read = some chunk) :
    step w ⟨.scan i, s⟩ inp =
      (⟨.next i, { s with clients := (receive s.clients i chunk.data inp.now).1 }⟩,
        .read (s.clients i).fd :: (receive s.clients i chunk.data inp.now).2) := by
  simp [step, handleSlot, not_lt.mpr hfd, hr, hc]

end Equations

theorem transition (w : Watcher W) (c : Loop W) (inp : Input) :
    Transition w c inp (step w c inp) := by
  obtain ⟨pc, s⟩ := c
  cases pc with
  | wait => exact .wait s inp
  | accept =>
    cases hl : w.listenerReady s.watch s.listenfd with
    | false => exact step_noConnection inp hl ▸ .noConnection s inp hl
    | true =>
      cases hf : firstFree s.clients with
      | some i => exact step_add inp hl hf ▸ .add s inp i hl hf
      | none => exact step_refuse inp hl hf ▸ .refuse s inp hl hf
  | scan i =>
    by_cases hfd : (s.clients i).fd < 0
    · exact step_idle inp (.inl hfd) ▸ .idle s inp i (.inl hfd)
    cases hr : w.clientReady s.watch i (s.clients i).fd with
    | false => exact step_idle inp (.inr hr) ▸ .idle s inp i (.inr hr)
    | true =>
      have h0 := not_lt.mp hfd
      cases hc : inp.read with
      | none => exact step_leave inp h0 hr hc ▸ .leave s inp i h0 hr hc
      | some chunk => exact step_receive inp h0 hr hc ▸ .receive s inp i chunk h0 hr hc

end Lemmas

end AcademyLab.Chat
