import AcademyLab.Chat.Delivery
import AcademyLab.Chat.Stores
import AcademyLab.Chat.Survival

/-!
# Chat lines

The sender is left out of the broadcast by its descriptor, so each client gets a
line once because no two slots in use hold the same descriptor.
-/
namespace AcademyLab.Chat
open Machine CString

section Chatting
variable {clients : Table} {i : Slot} {data line : Bytes} {now : ℤ}

theorem outcome_of_chat (hc : (clients i).Allows now) (hline : ¬ ascii "/name " <+: lineOf data) :
    (clients i).outcome data now = .chatted (lineOf data) := by
  have hexit := exit (clients i) data now
  generalize (clients i).outcome data now = outcome at hexit
  cases hexit with
  | dropped hno => exact absurd hc hno
  | renamed newName _ hname => exact absurd (hname ▸ List.prefix_append _ _) hline
  | rejected newName _ hname => exact absurd (hname ▸ List.prefix_append _ _) hline
  | chatted => rfl

/-- The slots that are not free hold descriptors, so nothing is written to a
negative one. -/
theorem sentTo_chatted_neg (hfree : ∀ j, fds clients j = -1 ∨ 0 ≤ fds clients j)
    (hi : 0 ≤ (clients i).fd) {fd : ℤ} (hneg : fd < 0) :
    sentTo fd (receiveWith clients i data now (.chatted line)).2 = [] := by
  rw [List.eq_nil_iff_forall_not_mem]
  intro msg hmsg
  rw [mem_sentTo] at hmsg
  simp only [receiveWith, cutEvents, chatLine, sendMsg, sprintf, List.mem_append, List.mem_cons,
    List.not_mem_nil, or_false, reduceCtorEq, false_or, Event.write.injEq, mem_broadcastMsg] at hmsg
  rcases hmsg with ⟨rfl, -⟩ | ⟨j, hj, -, rfl, -⟩
  · omega
  · have := (hfree j).resolve_left hj
    rw [fds_apply] at this
    omega

/-- What is written when a chat line is handled. -/
theorem sentTo_chatted (hfree : ∀ j, fds clients j = -1 ∨ 0 ≤ fds clients j)
    (hdistinct : Distinct (fds clients)) (hi : 0 ≤ (clients i).fd)
    (houtcome : (clients i).outcome data now = .chatted line) (fd : ℤ) :
    sentTo fd (receive clients i data now).2 =
      if fd = (clients i).fd then [.you line]
      else if ∃ j, 0 ≤ (clients j).fd ∧ (clients j).fd = fd then [.chat (clients i).name line]
      else [] := by
  by_cases h0 : 0 ≤ fd
  · have hocc : Occupied clients fd ↔ ∃ j, 0 ≤ (clients j).fd ∧ (clients j).fd = fd :=
      exists_congr fun j => ⟨fun hj => ⟨hj ▸ h0, hj⟩, And.right⟩
    rw [sentTo_receive hdistinct h0, houtcome]
    simp only [replyTo, hocc]
    split_ifs <;> rfl
  · have hno : ¬ ∃ j, 0 ≤ (clients j).fd ∧ (clients j).fd = fd := by
      rintro ⟨j, hj, rfl⟩
      exact h0 hj
    rw [receive_eq, houtcome, sentTo_chatted_neg hfree hi (not_le.1 h0), if_neg hno, if_neg]
    rintro rfl
    exact h0 hi

end Chatting

/-- A line that is no command goes back to its sender and to each other client
once, and only the time stamp of the sender changes. -/
theorem chat_line {W : Type} {w : Watcher W} {s : System W} {inp : Input} {i : Slot} {chunk : Chunk}
    (hrun : InRun w s) (hpc : s.loop.pc = .scan i) (hfd : 0 ≤ (s.loop.server.clients i).fd)
    (hready : w.clientReady s.loop.server.watch i (s.loop.server.clients i).fd = true)
    (hread : inp.read = some chunk) (hallows : (s.loop.server.clients i).Allows inp.now)
    (hline : ¬ ascii "/name " <+: chunk.data.takeWhile isText)
    (hyou : (chunk.data.takeWhile isText).length + 8 ≤ maxBuffer)
    (hchat : (s.loop.server.clients i).name.length + (chunk.data.takeWhile isText).length + 5 ≤
      maxBuffer) :
    let clients := s.loop.server.clients
    let text := chunk.data.takeWhile isText
    (∀ fd, (sentTo fd (sysStep w s inp).2).map Msg.bytes =
      if fd = (clients i).fd then [ascii "[You] " ++ text ++ ascii "\n"]
      else if ∃ j, 0 ≤ (clients j).fd ∧ (clients j).fd = fd then
        [ascii "[" ++ (clients i).name ++ ascii "] " ++ text ++ ascii "\n"]
      else []) ∧
    (sysStep w s inp).1.loop.server.clients =
      Function.update clients i { clients i with lastMsgTime := inp.now } ∧
    ∀ n, .store .sendBuf 0 n ∈ (sysStep w s inp).2 → n ≤ maxBuffer := by
  have hsound := hrun.sound
  obtain ⟨⟨pc, s⟩, k⟩ := s
  obtain rfl : pc = .scan i := hpc
  rw [← lineOf_eq] at hline hyou hchat ⊢
  have houtcome : (s.clients i).outcome chunk.data inp.now = .chatted (lineOf chunk.data) :=
    outcome_of_chat hallows hline
  simp only [sysStep, step_receive inp hfd hready hread]
  refine ⟨fun fd => ?_, ?_, fun n hn => ?_⟩
  · have hsent := sentTo_chatted hsound.free hsound.distinct hfd houtcome fd
    change (sentTo fd (receive s.clients i chunk.data inp.now).2).map Msg.bytes = _
    rw [hsent]
    split_ifs <;> rfl
  · rw [(@receive_treat 0 s.clients i chunk.data inp.now).1, Client.after, houtcome]
  · rw [receive_eq, houtcome] at hn
    have hmem : .store .sendBuf 0 n ∈ (chatLine s.clients i (lineOf chunk.data) inp.now).2 := by
      simpa [receiveWith, cutEvents] using hn
    have hbound : 0 + n ≤ maxBuffer := chatLine_inBounds.2 ⟨hyou, hchat⟩ _ hmem
    omega

theorem chat_line_three :
    let clients := threeState.loop.server.clients
    let text := letterA.data.takeWhile isText
    (∀ fd, (sentTo fd (sysStep selectWatch threeState threeInput).2).map Msg.bytes =
      if fd = (clients firstSlot).fd then [ascii "[You] " ++ text ++ ascii "\n"]
      else if ∃ j, 0 ≤ (clients j).fd ∧ (clients j).fd = fd then
        [ascii "[" ++ (clients firstSlot).name ++ ascii "] " ++ text ++ ascii "\n"]
      else []) ∧
    (sysStep selectWatch threeState threeInput).1.loop.server.clients =
      Function.update clients firstSlot { clients firstSlot with lastMsgTime := 1 } ∧
    ∀ n, .store .sendBuf 0 n ∈ (sysStep selectWatch threeState threeInput).2 → n ≤ maxBuffer :=
  chat_line ⟨3, FdSets.init 3, default, {0, 1, 2}, _, by decide, rfl⟩ (by decide) (by decide)
    (by decide) rfl (by decide) (by decide) (by decide) (by decide)

end AcademyLab.Chat
