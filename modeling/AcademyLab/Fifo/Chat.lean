import AcademyLab.CString
import AcademyLab.Machine

/-!
# The FIFO chat

`send_thread_func` of one user and `recv_thread_func` of the friend, over the FIFO
between them. An `open` of one end waits until the other end is open or being
opened; what is in the FIFO is gone when neither end is open any more.
-/
namespace AcademyLab.Fifo.Chat
open CString Machine

/-- `sizeof(send_buffer)`, `sizeof(recv_buffer)` -/
def bufferSize : ℕ := 254

/-- What one `read` takes at most. -/
def readSize : ℕ := bufferSize - 1

/-- What `fgets` reads of a text without a NUL into `send_buffer`. -/
structure Message where
  bytes : Bytes
  nonempty : bytes ≠ []
  notMem_zero : 0 ∉ bytes
  length_le : bytes.length ≤ readSize

/-- What `fgets` returns is a message, as long as no NUL is typed. -/
theorem message_of_fgets {input piece rest : Bytes} (hin : 0 ∉ input)
    (h : fgets bufferSize input = some (piece, rest)) : ∃ m : Message, m.bytes = piece := by
  have happend : piece ++ rest = input := fgets_append h
  have hlt : rest.length < input.length := fgets_rest_length (by decide) h
  refine ⟨⟨piece, ?_, ?_, fgets_length h⟩, rfl⟩
  · rintro rfl
    rw [← happend, List.nil_append] at hlt
    omega
  · intro hzero
    rw [← happend] at hin
    exact hin (List.mem_append_left _ hzero)

/-- Where `send_thread_func` is. -/
inductive Sender
  | idle
  | opening (m : Message)
  | opened (m : Message)
  | written
  | killed

/-- Where `recv_thread_func` is; before `mkfifo` the friend is not online. -/
inductive Reader
  | absent
  | closed
  | opening
  | opened
  | done

def Sender.holds : Sender → Bool
  | .idle | .killed => false
  | .opening _ | .opened _ | .written => true

def Reader.holds : Reader → Bool
  | .absent | .closed => false
  | .opening | .opened | .done => true

/-- The message that is to be written next. -/
def Sender.unwritten : Sender → List Bytes
  | .opened m => [m.bytes]
  | _ => []

inductive Move
  | mkfifo
  | sendOpen (m : Message)
  | write
  | sendClose
  | recvOpen
  | read
  | recvClose

inductive Event
  | sent (m : Message)
  | printed (text : Bytes)

def Event.sentText : Event → Option Bytes
  | .sent m => some m.bytes
  | .printed _ => none

def Event.printedText : Event → Option Bytes
  | .sent _ => none
  | .printed text => some text

structure State where
  sender : Sender
  reader : Reader
  fifo : Bytes
  recvBuffer : Bytes

/-- One move; one that has to wait, or is not the next of its thread, does nothing.
The event `sent` is an `open` for writing that succeeds. -/
def State.step (s : State) : Move → State × List Event
  | .mkfifo =>
    match s.reader with
    | .absent => ({ s with reader := .closed }, [])
    | _ => (s, [])
  | .sendOpen m =>
    match s.sender, s.reader with
    -- the friend is not online
    | .idle, .absent => (s, [])
    | .idle, .closed => ({ s with sender := .opening m }, [])
    | .idle, .opening => ({ s with sender := .opened m, reader := .opened }, [.sent m])
    | .idle, .opened | .idle, .done => ({ s with sender := .opened m }, [.sent m])
    | _, _ => (s, [])
  | .write =>
    match s.sender with
    | .opened m =>
      if s.reader.holds then ({ s with sender := .written, fifo := s.fifo ++ m.bytes }, [])
      -- SIGPIPE
      else ({ s with sender := .killed, fifo := [] }, [])
    | _ => (s, [])
  | .sendClose =>
    match s.sender with
    | .written =>
      ({ s with sender := .idle, fifo := if s.reader.holds then s.fifo else [] }, [])
    | _ => (s, [])
  | .recvOpen =>
    match s.reader, s.sender with
    | .closed, .idle | .closed, .killed => ({ s with reader := .opening }, [])
    | .closed, .opening m => ({ s with sender := .opened m, reader := .opened }, [.sent m])
    | .closed, .opened _ | .closed, .written => ({ s with reader := .opened }, [])
    | _, _ => (s, [])
  | .read =>
    match s.reader with
    | .opened =>
      if s.fifo = [] then
        if s.sender.holds then (s, []) else ({ s with reader := .done }, [])
      else
        let recvBuffer := overwrite s.recvBuffer (s.fifo.take readSize)
        ({ s with reader := .done, fifo := s.fifo.drop readSize, recvBuffer },
          [.printed (ofMemory recvBuffer)])
    | _ => (s, [])
  | .recvClose =>
    match s.reader with
    | .done => ({ s with reader := .closed, fifo := if s.sender.holds then s.fifo else [] }, [])
    | _ => (s, [])

/-- `recv_buffer` is zeroed at first. -/
def State.start : State := ⟨.idle, .absent, [], List.replicate bufferSize 0⟩

/-- What is on its way: what the next reads would take, and the message that is to
be written. -/
def State.pending (s : State) : List Bytes := chunks readSize s.fifo ++ s.sender.unwritten

/-- The sender lives, and every message sent has been printed, once and in order, or
is on its way as a message of its own. -/
def Delivered (moves : List Move) : Prop :=
  let s := exec State.step .start moves
  let log := trace State.step .start moves
  s.sender ≠ .killed ∧
    log.filterMap Event.sentText = log.filterMap Event.printedText ++ s.pending

/-- A message is written to a reader, and behind messages that fill whole reads only;
nobody who closes the FIFO as the last leaves something unread in it; and a message is
read in front of a NUL of `recv_buffer`. -/
def Safe (s : State) : Move → Prop
  | .write => s.sender.unwritten ≠ [] → s.reader.holds ∧ s.fifo.length % readSize = 0
  | .sendClose => s.sender = .written → s.reader.holds ∨ s.fifo = []
  | .recvClose => s.reader = .done → s.sender.holds ∨ s.fifo = []
  | .read => s.reader = .opened → s.fifo ≠ [] →
    s.recvBuffer[(s.fifo.take readSize).length]? = some 0
  | _ => True

/-- What is the same in all states while no move is unsafe. -/
structure Inv (s : State) : Prop where
  alive : s.sender ≠ .killed
  notMem_zero : 0 ∉ s.fifo
  length_eq : s.recvBuffer.length = bufferSize

/-- The move takes messages in and prints them in turn, and the sender survives it. -/
def Keeps (s : State) (m : Move) : Prop :=
  (s.step m).1.sender ≠ .killed ∧
    s.pending ++ (s.step m).2.filterMap Event.sentText =
      (s.step m).2.filterMap Event.printedText ++ (s.step m).1.pending

section Moves
variable {s : State}

theorem inv_start : Inv .start := by
  refine ⟨by simp [State.start], by simp [State.start], ?_⟩
  simp [State.start]

theorem readSize_pos : 0 < readSize := by decide

theorem keeps_mkfifo (h : Inv s) : Keeps s .mkfifo := by
  obtain ⟨sender, reader, fifo, recvBuffer⟩ := s
  have halive : sender ≠ .killed := h.alive
  cases reader <;> simp [Keeps, State.step, State.pending, halive]

theorem keeps_sendOpen (h : Inv s) (m : Message) : Keeps s (.sendOpen m) := by
  obtain ⟨sender, reader, fifo, recvBuffer⟩ := s
  cases sender with
  | idle =>
    cases reader <;> simp [Keeps, State.step, State.pending, Sender.unwritten, Event.sentText,
      Event.printedText]
  | killed => exact absurd rfl h.alive
  | _ => simp [Keeps, State.step]

theorem keeps_recvOpen (h : Inv s) : Keeps s .recvOpen := by
  obtain ⟨sender, reader, fifo, recvBuffer⟩ := s
  cases reader with
  | closed =>
    cases sender with
    | killed => exact absurd rfl h.alive
    | _ => simp [Keeps, State.step, State.pending, Sender.unwritten, Event.sentText,
      Event.printedText]
  | _ => simpa [Keeps, State.step] using h.alive

theorem keeps_write_iff (h : Inv s) : Keeps s .write ↔ Safe s .write := by
  obtain ⟨sender, reader, fifo, recvBuffer⟩ := s
  cases sender with
  | opened m =>
    have hchunks := chunks_append_iff m.nonempty m.length_le fifo
    by_cases hreader : reader.holds
    · simpa [Keeps, State.step, State.pending, Safe, Sender.unwritten, hreader, eq_comm]
        using hchunks
    · simp [Keeps, State.step, Safe, Sender.unwritten, hreader]
  | killed => exact absurd rfl h.alive
  | _ => simp [Keeps, State.step, Safe, Sender.unwritten]

theorem keeps_sendClose_iff (h : Inv s) : Keeps s .sendClose ↔ Safe s .sendClose := by
  obtain ⟨sender, reader, fifo, recvBuffer⟩ := s
  cases sender with
  | written =>
    by_cases hreader : reader.holds
    · simp [Keeps, State.step, State.pending, Safe, Sender.unwritten, hreader]
    · simp [Keeps, State.step, State.pending, Safe, Sender.unwritten, hreader,
        chunks_eq_nil readSize_pos]
  | killed => exact absurd rfl h.alive
  | _ => simp [Keeps, State.step, Safe]

theorem keeps_recvClose_iff (h : Inv s) : Keeps s .recvClose ↔ Safe s .recvClose := by
  obtain ⟨sender, reader, fifo, recvBuffer⟩ := s
  have halive : sender ≠ .killed := h.alive
  cases reader with
  | done =>
    by_cases hsender : sender.holds
    · simp [Keeps, State.step, State.pending, Safe, hsender, halive]
    · simp [Keeps, State.step, State.pending, Safe, hsender, halive,
        chunks_eq_nil readSize_pos]
  | _ => simp [Keeps, State.step, Safe, halive]

/-- A message received is printed as it is if `recv_buffer` has a NUL behind it. -/
theorem printed_received_iff {data recvBuffer : Bytes} (hdata : 0 ∉ data)
    (hle : data.length ≤ readSize) (hlen : recvBuffer.length = bufferSize) :
    ofMemory (overwrite recvBuffer data) = data ↔ recvBuffer[data.length]? = some 0 := by
  have hlt : data.length < recvBuffer.length := by
    simp only [readSize, bufferSize] at hle hlen
    omega
  have hprinted := @ofMemory_overwrite_iff data recvBuffer [] hdata hlt
  rwa [List.append_nil] at hprinted

theorem keeps_read_iff (h : Inv s) : Keeps s .read ↔ Safe s .read := by
  have hdata : 0 ∉ s.fifo.take readSize := fun hb => h.notMem_zero (List.mem_of_mem_take hb)
  have hprinted := printed_received_iff hdata (List.length_take_le _ _) h.length_eq
  obtain ⟨sender, reader, fifo, recvBuffer⟩ := s
  have halive : sender ≠ .killed := h.alive
  cases reader with
  | opened =>
    by_cases hfifo : fifo = []
    · by_cases hsender : sender.holds
      · simp [Keeps, State.step, State.pending, Safe, hfifo, hsender, halive]
      · simp [Keeps, State.step, State.pending, Safe, hfifo, hsender, halive]
    · have hchunks := chunks_of_ne_nil readSize_pos hfifo
      rw [eq_comm] at hprinted
      simpa [Keeps, State.step, State.pending, Safe, hfifo, halive, hchunks, Event.sentText,
        Event.printedText] using hprinted
  | _ => simp [Keeps, State.step, Safe, halive]

theorem keeps_iff (h : Inv s) (m : Move) : Keeps s m ↔ Safe s m := by
  cases m with
  | mkfifo => exact iff_of_true (keeps_mkfifo h) trivial
  | sendOpen m => exact iff_of_true (keeps_sendOpen h m) trivial
  | write => exact keeps_write_iff h
  | sendClose => exact keeps_sendClose_iff h
  | recvOpen => exact iff_of_true (keeps_recvOpen h) trivial
  | read => exact keeps_read_iff h
  | recvClose => exact keeps_recvClose_iff h

/-- What a move does to the FIFO and to `recv_buffer`. -/
theorem step_memory (s : State) (m : Move) :
    (s.step m).1.recvBuffer = s.recvBuffer ∧ ((s.step m).1.fifo = s.fifo ∨
        (s.step m).1.fifo = [] ∨ ∃ msg : Message, (s.step m).1.fifo = s.fifo ++ msg.bytes) ∨
      (s.step m).1.recvBuffer = overwrite s.recvBuffer (s.fifo.take readSize) ∧
        (s.step m).1.fifo = s.fifo.drop readSize := by
  cases m with
  | mkfifo | sendOpen msg | recvOpen =>
    simp only [State.step]
    split <;> exact .inl ⟨rfl, .inl rfl⟩
  | write =>
    simp only [State.step]
    split
    · split
      · exact .inl ⟨rfl, .inr (.inr ⟨_, rfl⟩)⟩
      · exact .inl ⟨rfl, .inr (.inl rfl)⟩
    · exact .inl ⟨rfl, .inl rfl⟩
  | sendClose | recvClose =>
    simp only [State.step]
    split
    · dsimp only
      split
      · exact .inl ⟨rfl, .inl rfl⟩
      · exact .inl ⟨rfl, .inr (.inl rfl)⟩
    · exact .inl ⟨rfl, .inl rfl⟩
  | read =>
    simp only [State.step]
    split
    · split
      · split <;> exact .inl ⟨rfl, .inl rfl⟩
      · exact .inr ⟨rfl, rfl⟩
    · exact .inl ⟨rfl, .inl rfl⟩

theorem inv_step (h : Inv s) (m : Move) (hsafe : Safe s m) : Inv (s.step m).1 := by
  have halive : (s.step m).1.sender ≠ .killed := ((keeps_iff h m).2 hsafe).1
  have hzero := h.notMem_zero
  have hlen := h.length_eq
  obtain ⟨hbuf, hfifo | hfifo | ⟨msg, hfifo⟩⟩ | ⟨hbuf, hfifo⟩ := step_memory s m
  · exact ⟨halive, by rwa [hfifo], by rwa [hbuf]⟩
  · exact ⟨halive, by simp [hfifo], by rwa [hbuf]⟩
  · exact ⟨halive, by simp [hfifo, hzero, msg.notMem_zero], by rwa [hbuf]⟩
  · refine ⟨halive, ?_, ?_⟩
    · rw [hfifo]
      exact fun hb => hzero (List.mem_of_mem_drop hb)
    · have hle : (s.fifo.take readSize).length ≤ s.recvBuffer.length := by
        rw [List.length_take, hlen, readSize]
        omega
      rw [hbuf, length_overwrite hle, hlen]

end Moves

/-- In a run and all that led to it, every message is delivered exactly if no move is
unsafe. -/
theorem delivered_iff (moves : List Move) :
    (∀ run, run <+: moves → Delivered run) ↔ Along State.step Safe .start moves := by
  have hsafe : Along State.step Keeps .start moves ↔ Along State.step Safe .start moves :=
    along_iff (fun s m (h : Inv s) => keeps_iff h m) (fun s m h hm => inv_step h m hm)
      inv_start moves
  have halive : (∀ run, run <+: moves → (exec State.step .start run).sender ≠ .killed) ↔
      Along State.step (fun s m => (s.step m).1.sender ≠ .killed) .start moves :=
    forall_prefix_exec (P := fun s : State => s.sender ≠ .killed) inv_start.alive moves
  have hconserved := forall_prefix_conserved State.step Event.sentText Event.printedText
    State.pending .start moves
  have hpending : State.start.pending = [] := by
    simp [State.pending, State.start, Sender.unwritten]
  simp only [hpending, List.nil_append] at hconserved
  rw [← hsafe]
  unfold Keeps
  rw [along_and, ← halive, ← hconserved, ← forall₂_and]
  rfl

def hey : Message := ⟨ascii "Hey Jerry\n", by decide, by decide, by decide⟩

def trap : Message := ⟨ascii "Can you go to my trap?\n", by decide, by decide, by decide⟩

/-- The first is written to a friend who is waiting for it. -/
def first : List Move := [.mkfifo, .recvOpen, .sendOpen hey, .write]

/-- The friend has read the first and closes when the second is written. -/
def lost : List Move :=
  first ++ [.read, .sendClose, .sendOpen trap, .write, .sendClose, .recvClose]

/-- The friend has not read the first when the second is written. -/
def merged : List Move :=
  first ++ [.sendClose, .sendOpen trap, .write, .sendClose, .read, .recvClose]

/-- The friend closes between the `open` and the `write` of the second. -/
def broken : List Move := first ++ [.read, .sendClose, .sendOpen trap, .recvClose, .write]

/-- The second message is not printed, or printed as a part of the first, or kills
its sender. -/
theorem quick_messages :
    ¬ Delivered lost ∧ ¬ Delivered merged ∧ ¬ Delivered broken := by
  have hlost : (exec State.step .start lost).pending = [] := by
    have hfifo : (exec State.step .start lost).fifo = [] := by decide
    rw [State.pending, hfifo, chunks_nil]
    rfl
  have hmerged : (exec State.step .start merged).pending = [] := by
    have hfifo : (exec State.step .start merged).fifo = [] := by decide
    rw [State.pending, hfifo, chunks_nil]
    rfl
  refine ⟨fun h => ?_, fun h => ?_, fun h => ?_⟩
  · have hlog := h.2
    simp only [hlost] at hlog
    revert hlog
    decide
  · have hlog := h.2
    simp only [hmerged] at hlog
    revert hlog
    decide
  · exact h.1 rfl

end AcademyLab.Fifo.Chat
