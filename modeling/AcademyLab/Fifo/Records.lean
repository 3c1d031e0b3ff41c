import AcademyLab.CString
import AcademyLab.Machine
import Mathlib.Data.List.Induction
import Mathlib.Tactic.Ring

/-!
# The FIFO server and its clients

The inner loop of `main` in `fifo/server.c`, and the writes of any number of
`fifo/client.c`, while some client has the FIFO open. A move is one `write` of a
message, all of its array at once, or one `read` of what is in the FIFO then; a
`read` of an empty FIFO waits.
-/
namespace AcademyLab.Fifo
open CString Machine

/-- `sizeof(message)` -/
def recordSize : ℕ := 50

/-- `sizeof(buffer)` -/
def bufferSize : ℕ := 254

/-- The array that a client writes: a string with its NUL, and whatever the array
holds behind it. -/
structure Record where
  bytes : Bytes
  length_eq : bytes.length = recordSize
  terminated : 0 ∈ bytes

/-- The message. -/
def Record.text (r : Record) : Bytes := ofMemory r.bytes

inductive Move
  | write (r : Record)
  | read

/-- What is in the FIFO, and the server's buffer. -/
structure Server where
  fifo : Bytes
  buffer : Bytes

/-- One move, with the text that the server prints. -/
def Server.step (s : Server) : Move → Server × List Bytes
  | .write r => ({ s with fifo := s.fifo ++ r.bytes }, [])
  | .read =>
    let data := s.fifo.take (bufferSize - 1)
    if 0 < data.length then
      let buffer := overwrite s.buffer (data ++ [0])
      (⟨s.fifo.drop (bufferSize - 1), buffer⟩, [ofMemory buffer])
    else (s, [])

/-- The server's buffer holds anything at first. -/
def Server.start (buffer : Bytes) : Server := ⟨[], buffer⟩

/-- The messages written, in order. -/
def written (moves : List Move) : List Record :=
  moves.filterMap fun
    | .write r => some r
    | .read => none

/-- A `read` of something finds one record and no more. -/
def OneRecord (s : Server) : Move → Prop
  | .write _ => True
  | .read => s.fifo ≠ [] → s.fifo.length = recordSize

instance (s : Server) (m : Move) : Decidable (OneRecord s m) :=
  match m with
  | .write _ => isTrue trivial
  | .read => inferInstanceAs (Decidable (_ → _))

section Lemmas
variable {s : Server} {moves : List Move}

theorem step_read (h : s.fifo ≠ []) : s.step .read =
    (⟨s.fifo.drop (bufferSize - 1), overwrite s.buffer (s.fifo.take (bufferSize - 1) ++ [0])⟩,
      [ofMemory (s.fifo.take (bufferSize - 1))]) := by
  have hpos : 0 < (s.fifo.take (bufferSize - 1)).length := by
    have := List.length_pos_iff.2 h
    simp only [List.length_take, bufferSize]
    omega
  have hstring : ofMemory (overwrite s.buffer (s.fifo.take (bufferSize - 1) ++ [0])) =
      ofMemory (s.fifo.take (bufferSize - 1)) := by
    rw [overwrite, List.append_assoc, List.singleton_append, ofMemory_terminated]
  rw [← hstring]
  simp only [Server.step, if_pos hpos]

theorem step_read_empty (h : s.fifo = []) : s.step .read = (s, []) := by
  simp [Server.step, h]

theorem written_append (moves moves' : List Move) :
    written (moves ++ moves') = written moves ++ written moves' := List.filterMap_append

theorem length_records (records : List Record) :
    (records.map Record.bytes).flatten.length = recordSize * records.length := by
  induction records with
  | nil => rfl
  | cons r records ih =>
    simp only [List.map_cons, List.flatten_cons, List.length_append, r.length_eq, ih,
      List.length_cons]
    ring

/-- While every `read` finds one record, the FIFO holds the records that are not
printed yet. -/
theorem pending_records (buffer : Bytes)
    (h : Along Server.step OneRecord (.start buffer) moves) :
    ∃ printed pending, written moves = printed ++ pending ∧
      trace Server.step (.start buffer) moves = printed.map Record.text ∧
      (exec Server.step (.start buffer) moves).fifo = (pending.map Record.bytes).flatten := by
  induction moves using List.reverseRecOn with
  | nil => exact ⟨[], [], rfl, rfl, rfl⟩
  | append_singleton moves m ih =>
    obtain ⟨hmoves, hm⟩ := (along_append _ _ _).1 h
    obtain ⟨printed, pending, hwritten, htrace, hfifo⟩ := ih hmoves
    rw [written_append, trace_append, exec_append, hwritten, htrace]
    cases m with
    | write r =>
      refine ⟨printed, pending ++ [r], by simp [written], by simp [Server.step], ?_⟩
      simp [Server.step, hfifo]
    | read =>
      by_cases hempty : (exec Server.step (.start buffer) moves).fifo = []
      · refine ⟨printed, pending, by simp [written], ?_, ?_⟩
        · simp [step_read_empty hempty]
        · simpa [step_read_empty hempty] using hfifo
      · have hlen := hm.1 hempty
        rw [hfifo, length_records] at hlen
        have hone : pending.length = 1 := by
          simp only [recordSize] at hlen
          omega
        obtain ⟨r, rfl⟩ := List.length_eq_one_iff.1 hone
        have hr : (exec Server.step (.start buffer) moves).fifo = r.bytes := by simpa using hfifo
        have hle : r.bytes.length ≤ bufferSize - 1 := by simp [r.length_eq, recordSize, bufferSize]
        refine ⟨printed ++ [r], [], by simp [written], ?_, ?_⟩
        · simp [step_read hempty, hr, List.take_of_length_le hle, Record.text]
        · simp [step_read hempty, hr, List.drop_eq_nil_of_le hle]

/-- The bytes taken out are those printed as records, or more: a `read` prints
one text, and only one of less than a record takes less, which is behind one of
much more. -/
theorem surplus (buffer : Bytes) (moves : List Move) :
    let taken := recordSize * (written moves).length
    let fifo := (exec Server.step (.start buffer) moves).fifo.length
    let printed := recordSize * (trace Server.step (.start buffer) moves).length
    (Along Server.step OneRecord (.start buffer) moves ∧ taken = fifo + printed) ∨
      (fifo % recordSize = 0 ∧ fifo + printed + recordSize ≤ taken) ∨
      fifo + printed + 2 * recordSize ≤ taken := by
  induction moves using List.reverseRecOn with
  | nil => exact .inl ⟨trivial, rfl⟩
  | append_singleton moves m ih =>
    simp only [written_append, trace_append, exec_append, along_append, List.length_append] at ih ⊢
    cases m with
    | write r =>
      have hlen : (written [Move.write r]).length = 1 := rfl
      simp only [exec_cons, exec_nil, trace_cons, trace_nil, along_cons, along_nil, Server.step,
        List.length_append, r.length_eq, hlen, OneRecord, and_true, List.append_nil,
        List.length_nil, recordSize] at ih ⊢
      rcases ih with ⟨halong, heq⟩ | hahead | hahead
      · exact .inl ⟨halong, by omega⟩
      · exact .inr (.inl (by omega))
      · exact .inr (.inr (by omega))
    | read =>
      have hlen : (written [Move.read]).length = 0 := rfl
      by_cases hempty : (exec Server.step (.start buffer) moves).fifo = []
      · simp only [exec_cons, exec_nil, trace_cons, trace_nil, along_cons, along_nil,
          step_read_empty hempty, hlen, OneRecord, and_true, List.append_nil, List.length_nil,
          hempty, ne_eq, not_true_eq_false, false_imp_iff, recordSize] at ih ⊢
        exact ih
      · have hpos := List.length_pos_iff.2 hempty
        simp only [exec_cons, exec_nil, trace_cons, trace_nil, along_cons, along_nil,
          step_read hempty, hlen, OneRecord, and_true, List.append_nil, List.length_cons,
          List.length_nil, List.length_drop, hempty, ne_eq, not_false_eq_true, true_imp_iff,
          recordSize, bufferSize] at ih ⊢
        rcases ih with ⟨halong, heq⟩ | hahead | hahead
        · by_cases hone : (exec Server.step (.start buffer) moves).fifo.length = 50
          · exact .inl ⟨⟨halong, hone⟩, by omega⟩
          · exact .inr (by omega)
        · exact .inr (by omega)
        · exact .inr (by omega)

end Lemmas

/-- If every `read` finds one record, the messages are printed in turn, up to those
whose records are in the FIFO. When all is read, the server has printed the messages
exactly if every `read` found one record. -/
theorem printed_iff (buffer : Bytes) (moves : List Move) :
    (Along Server.step OneRecord (.start buffer) moves → ∃ pending : List Record,
      (written moves).map Record.text =
          trace Server.step (.start buffer) moves ++ pending.map Record.text ∧
        (exec Server.step (.start buffer) moves).fifo = (pending.map Record.bytes).flatten) ∧
    ((exec Server.step (.start buffer) moves).fifo = [] →
      (trace Server.step (.start buffer) moves = (written moves).map Record.text ↔
        Along Server.step OneRecord (.start buffer) moves)) := by
  have hturn : Along Server.step OneRecord (.start buffer) moves → ∃ pending : List Record,
      (written moves).map Record.text =
          trace Server.step (.start buffer) moves ++ pending.map Record.text ∧
        (exec Server.step (.start buffer) moves).fifo = (pending.map Record.bytes).flatten := by
    intro halong
    obtain ⟨printed, pending, hwritten, htrace, hfifo⟩ := pending_records buffer halong
    exact ⟨pending, by rw [hwritten, htrace, List.map_append], hfifo⟩
  refine ⟨hturn, fun h => ⟨fun hprinted => ?_, fun halong => ?_⟩⟩
  · have hsurplus := surplus buffer moves
    simp only [h, hprinted, List.length_map, List.length_nil, recordSize] at hsurplus
    rcases hsurplus with ⟨halong, -⟩ | ⟨-, hle⟩ | hle
    · exact halong
    · omega
    · omega
  · obtain ⟨pending, hwritten, hfifo⟩ := hturn halong
    have hpending : pending = [] := by
      rw [h] at hfifo
      have hlen := length_records pending
      rw [← hfifo, List.length_nil, recordSize] at hlen
      exact List.eq_nil_of_length_eq_zero (by omega)
    rw [hwritten, hpending, List.map_nil, List.append_nil]

/-- `snprintf(message, sizeof(message), …)` into an array of zeroes. -/
def Record.ofText (text : Bytes) : Record where
  bytes := snprintf recordSize text ++
    List.replicate (recordSize - (snprintf recordSize text).length) 0
  length_eq := by
    simp only [snprintf, List.length_append, List.length_take, List.length_replicate, recordSize]
    omega
  terminated := by
    refine List.mem_append_right _ (List.mem_replicate.2 ⟨?_, rfl⟩)
    simp only [snprintf, List.length_take, recordSize]
    omega

/-- The client's first two messages. -/
def messages : List Record := [.ofText (ascii "Message 1"), .ofText (ascii "Message 2")]

/-- Each is read before the next is written. -/
theorem printed_iff_inTurn :
    trace Server.step (.start []) (messages.flatMap fun r => [.write r, .read]) =
      (written (messages.flatMap fun r => [.write r, .read])).map Record.text :=
  ((printed_iff [] _).2 (by decide)).2 (by decide)

/-- Both are written before the first is read: the second is not printed. -/
theorem record_lost :
    (exec Server.step (.start []) (messages.map .write ++ [.read])).fifo = [] ∧
      trace Server.step (.start []) (messages.map .write ++ [.read]) ≠
        (written (messages.map .write ++ [.read])).map Record.text := by
  decide

end AcademyLab.Fifo
