import AcademyLab.Fifo.Chat

/-!
# What the FIFO chat prints

`recv_thread_func` reads one message after the other to the start of the same
`recv_buffer` and prints the string that starts there. A message that is read whole
is not terminated: what ends it is a NUL that no message before it has reached.
-/
namespace AcademyLab.Fifo.Printing
open CString Machine AcademyLab.Fifo.Chat

/-- The line that is printed for a received text. -/
def recvLine (friendName text : Bytes) : Bytes := friendName ++ ascii " -> You: " ++ text ++ [10]

/-- One `read` that gets a whole message, and the `printf` behind it. -/
def receive (friendName recvBuffer : Bytes) (m : Message) : Bytes × List Bytes :=
  let recvBuffer := overwrite recvBuffer m.bytes
  (recvBuffer, [recvLine friendName (ofMemory recvBuffer)])

/-- What is printed for the messages. -/
def printed (friendName : Bytes) (messages : List Message) : List Bytes :=
  trace (receive friendName) (List.replicate bufferSize 0) messages

section Receive
variable {friendName recvBuffer text text' : Bytes} {past : List Message} {m : Message}

/-- It is the `read` of the chat on a FIFO that holds the message. -/
theorem step_read_whole {s : State} (hreader : s.reader = .opened) (hfifo : s.fifo = m.bytes) :
    (s.step .read).1.recvBuffer = (receive friendName s.recvBuffer m).1 ∧
      ((s.step .read).2.filterMap Event.printedText).map (recvLine friendName) =
        (receive friendName s.recvBuffer m).2 := by
  have htake : m.bytes.take readSize = m.bytes := List.take_of_length_le m.length_le
  simp [State.step, hreader, hfifo, m.nonempty, htake, receive, Event.printedText]

theorem recvLine_inj : recvLine friendName text = recvLine friendName text' ↔ text = text' := by
  simp [recvLine]

/-- After the messages of `past`, the NULs of `recv_buffer` are where none of them
has reached. -/
structure Reached (past : List Message) (recvBuffer : Bytes) : Prop where
  length_eq : recvBuffer.length = bufferSize
  zero_iff : ∀ j < bufferSize, recvBuffer[j]? = some 0 ↔ ∀ m ∈ past, m.bytes.length ≤ j

theorem length_lt_bufferSize (m : Message) : m.bytes.length < bufferSize := by
  have hle := m.length_le
  simp only [readSize, bufferSize] at hle ⊢
  omega

theorem reached_start : Reached [] (List.replicate bufferSize 0) := by
  refine ⟨by simp, fun j hj => ?_⟩
  simp [hj]

theorem reached_receive (h : Reached past recvBuffer) (m : Message) :
    Reached (past ++ [m]) (receive friendName recvBuffer m).1 := by
  have hlen := h.length_eq
  have hm := length_lt_bufferSize m
  refine ⟨?_, fun j hj => ?_⟩
  · rw [receive, length_overwrite (by omega), hlen]
  · rw [receive, overwrite]
    by_cases hj' : j < m.bytes.length
    · -- a byte of the message, which has no NUL
      rw [List.getElem?_append_left hj']
      refine iff_of_false (fun hzero => ?_) (fun hall => ?_)
      · exact m.notMem_zero (List.mem_of_getElem? hzero)
      · have := hall m (by simp)
        omega
    · rw [List.getElem?_append_right (by omega), List.getElem?_drop,
        Nat.add_sub_cancel' (by omega), h.zero_iff j hj]
      simp only [List.forall_mem_append, List.forall_mem_singleton]
      exact (and_iff_left (by omega)).symm

theorem reached_run (friendName : Bytes) (past : List Message) :
    Reached past (exec (receive friendName) (List.replicate bufferSize 0) past) := by
  induction past using List.reverseRecOn with
  | nil => exact reached_start
  | append_singleton past m ih =>
    rw [exec_append]
    exact reached_receive ih m

/-- A message is printed as it is just when no message before it was longer. -/
theorem receive_iff (friendName : Bytes) (h : Reached past recvBuffer) (m : Message) :
    (receive friendName recvBuffer m).2 = [recvLine friendName m.bytes] ↔
      ∀ m' ∈ past, m'.bytes.length ≤ m.bytes.length := by
  have hprinted := printed_received_iff m.notMem_zero m.length_le h.length_eq
  rw [← h.zero_iff _ (length_lt_bufferSize m), ← hprinted, receive, ← recvLine_inj]
  exact List.singleton_inj

end Receive

section Printed
variable {friendName : Bytes} {messages : List Message} {k : ℕ}

/-- The `k`-th line is right just when no message before it was longer. -/
theorem printed_right_iff (friendName : Bytes) (hk : k < messages.length) :
    (printed friendName messages)[k]? = some (recvLine friendName messages[k].bytes) ↔
      ∀ i (_ : i < k), messages[i].bytes.length ≤ messages[k].bytes.length := by
  have hemit : ∀ recvBuffer m, (receive friendName recvBuffer m).2 =
      [recvLine friendName (ofMemory (receive friendName recvBuffer m).1)] := fun _ _ => rfl
  have hreceive := receive_iff friendName (reached_run friendName (messages.take k)) messages[k]
  rw [hemit, List.singleton_inj] at hreceive
  rw [printed, getElem?_trace hemit _ _ hk, Option.some_inj, hreceive]
  simp only [List.mem_take_iff_getElem]
  constructor
  · intro h i hi
    exact h _ ⟨i, by omega, rfl⟩
  · rintro h m ⟨i, hi, rfl⟩
    exact h i (by omega)

theorem length_printed : (printed friendName messages).length = messages.length := by
  rw [printed, length_trace fun _ _ => rfl]

/-- Every message is printed as it is just when none is shorter than one before it. -/
theorem recv_prints_messages (friendName : Bytes) (messages : List Message) :
    (∀ k (hk : k < messages.length),
      ((printed friendName messages)[k]? = some (recvLine friendName messages[k].bytes) ↔
        ∀ i (_ : i < k), messages[i].bytes.length ≤ messages[k].bytes.length)) ∧
    (printed friendName messages = messages.map (fun m => recvLine friendName m.bytes) ↔
      messages.Pairwise fun m m' => m.bytes.length ≤ m'.bytes.length) := by
  refine ⟨fun k hk => printed_right_iff friendName hk, ?_⟩
  rw [List.pairwise_iff_getElem]
  constructor
  · intro h i k hi hk hik
    refine (printed_right_iff friendName hk).1 ?_ i hik
    rw [h, List.getElem?_map, List.getElem?_eq_getElem hk]
    rfl
  · intro h
    refine List.ext_getElem? fun k => ?_
    by_cases hk : k < messages.length
    · rw [(printed_right_iff friendName hk).2 fun i hi => h i k (by omega) hk hi,
        List.getElem?_map, List.getElem?_eq_getElem hk]
      rfl
    · rw [List.getElem?_eq_none (by rw [length_printed]; omega),
        List.getElem?_eq_none (by rw [List.length_map]; omega)]

end Printed

/-- `Hey Jerry` behind `Can you go to my trap?`: it is printed with the end of that. -/
theorem shorter_message_misprinted :
    ¬ ∀ (friendName : Bytes) (messages : List Message) (k : ℕ) (hk : k < messages.length),
      (printed friendName messages)[k]? = some (recvLine friendName messages[k].bytes) := by
  intro h
  have hwhole : (printed (ascii "Tom") [trap, hey])[1]? =
      some (recvLine (ascii "Tom") (ascii "Hey Jerry\n to my trap?\n")) := by decide
  have hmessage := h (ascii "Tom") [trap, hey] 1 (by decide)
  rw [hwhole] at hmessage
  exact absurd hmessage (by decide)

end AcademyLab.Fifo.Printing
