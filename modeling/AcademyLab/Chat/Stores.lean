import AcademyLab.Chat.Framing

/-!
# The buffers of the chat servers

Every name in use was written by `addr_to_str` or by a `/name` command, so it fits
its field and the notices fit `send_buf`. The terminator behind a full read and
the lines that repeat a long text do not.
-/
namespace AcademyLab.Chat
open Machine CString

/-! ## Names -/

/-- A name in use: it has 1 to 29 bytes, and none of them ends a line or a string. -/
structure IsName (name : Bytes) : Prop where
  length : 1 ≤ name.length ∧ name.length < nameSize
  text : ∀ b ∈ name, isText b

/-- The names of the occupied slots. -/
def Named (clients : Table) : Prop := ∀ i, 0 ≤ (clients i).fd → IsName (clients i).name

section Names
variable {clients : Table} {i : Slot} {client : Client}

theorem isText_iff {b : UInt8} : isText b = true ↔ b ≠ 13 ∧ b ≠ 10 ∧ b ≠ 0 := by
  simp [isText, ascii, and_assoc]

theorem isName_addrToStr (addr : SockAddr) : IsName (addrToStr addr nameSize) where
  length := by
    obtain ⟨heq, hle⟩ := addrToStr_nameSize addr
    refine ⟨?_, hle.trans_lt (by decide)⟩
    rw [heq]
    simp [ascii]
    omega
  text := fun b hb => by
    obtain ⟨hlo, hhi⟩ := mem_addrToStr hb
    rw [isText_iff]
    refine ⟨?_, ?_, ?_⟩ <;> rintro rfl <;> exact absurd hlo (by decide)

theorem isName_newClient (inp : Input) : IsName (newClient inp).name := by
  unfold newClient
  cases inp.accept with
  | none => exact isName_addrToStr _
  | some conn => exact isName_addrToStr _

theorem isText_of_mem_lineOf {data : Bytes} {b : UInt8} (h : b ∈ lineOf data) : isText b := by
  rw [lineOf_eq] at h
  exact List.mem_takeWhile_imp h

theorem isName_after (h : IsName client.name) (data : Bytes) (now : ℤ) :
    IsName (client.after data now).name := by
  have hexit := exit client data now
  unfold Client.after
  generalize client.outcome data now = outcome at hexit
  cases hexit with
  | dropped => exact h
  | renamed newName _ hline hlen =>
    refine ⟨⟨hlen.1, hlen.2⟩, fun b hb => ?_⟩
    have hmem : b ∈ lineOf data := hline ▸ List.mem_append_right _ hb
    exact isText_of_mem_lineOf hmem
  | rejected => exact h
  | chatted => exact h

theorem Named.update (h : Named clients) (hclient : 0 ≤ client.fd → IsName client.name) :
    Named (Function.update clients i client) := by
  intro j
  by_cases hj : j = i
  · subst hj
    simpa using hclient
  · simpa [hj] using h j

end Names

section Runs
variable {W : Type} {w : Watcher W}

/-- The names stay names whatever the surroundings answer. -/
theorem named_sysStep {s : System W} (h : Named s.loop.server.clients) (inp : Input) :
    Named (sysStep w s inp).1.loop.server.clients := by
  obtain ⟨c, k⟩ := s
  have ht := transition w c inp
  simp only [sysStep] at h ⊢
  generalize step w c inp = r at ht ⊢
  cases ht with
  | wait => exact h
  | noConnection => exact h
  | idle => exact h
  | refuse => exact h
  | add s _ i => exact h.update fun _ => isName_newClient inp
  | leave s _ i => exact h.update fun hfd => absurd hfd (show ¬ (0 : ℤ) ≤ -1 by decide)
  | receive s _ i chunk hfd =>
    have htable := (@receive_treat 0 s.clients i chunk.data inp.now).1
    rw [htable]
    exact h.update fun _ => isName_after (h i hfd) chunk.data inp.now

theorem named_boot (listenfd : ℕ) (watch : W) (mem : Table) (inherited : Finset ℤ) :
    Named (System.boot listenfd watch mem inherited).loop.server.clients :=
  fun _ h => absurd h (show ¬ (0 : ℤ) ≤ -1 by decide)

theorem named_run (listenfd : ℕ) (watch : W) (mem : Table) (inherited : Finset ℤ)
    (is : List Input) :
    Named (exec (sysStep w) (System.boot listenfd watch mem inherited) is).loop.server.clients :=
  invariant_exec (fun s : System W => Named s.loop.server.clients)
    (fun _ inp h => named_sysStep h inp) (named_boot listenfd watch mem inherited) is

end Runs

/-! ## Stores -/

/-- A store stays inside its buffer. -/
def Event.InBounds : Event → Prop
  | .store buf first count => first + count ≤ buf.size
  | _ => True

instance (e : Event) : Decidable e.InBounds :=
  match e with
  | .store buf first count => inferInstanceAs (Decidable (first + count ≤ buf.size))
  | .ready _ | .accept _ | .read _ | .write _ _ | .close _ | .print _ | .fdSet _ | .elapsed _ _
  | .chunk _ _ _ _ => isTrue trivial

/-- The chunk leaves room for the terminator, and a chat line also for what the
two formats add to it. -/
def Client.Fits (client : Client) (data : Bytes) (now : ℤ) : Prop :=
  client.Allows now → data.length < maxBuffer ∧
    (¬ ascii "/name " <+: lineOf data → (lineOf data).length + 8 ≤ maxBuffer ∧
      client.name.length + (lineOf data).length + 5 ≤ maxBuffer)

/-- If the step handles a chunk, the chunk fits. -/
def HandlesFitting {W : Type} (w : Watcher W) (s : System W) (inp : Input) : Prop :=
  ∀ i, s.loop.pc = .scan i → 0 ≤ (s.loop.server.clients i).fd →
    w.clientReady s.loop.server.watch i (s.loop.server.clients i).fd = true →
      ∀ chunk ∈ inp.read, (s.loop.server.clients i).Fits chunk.data inp.now

section Formats
variable {clients : Table} {i : Slot} {client : Client} {msg : Msg} {name newName text : Bytes}

theorem sprintf_inBounds : (sprintf msg).InBounds ↔ msg.bytes.length < maxBuffer := by
  unfold sprintf Event.InBounds
  simp only [Buffer.size]
  omega

/-- The notices leave most of `send_buf` free. -/
theorem length_connected (h : name.length < nameSize) :
    (Msg.connected name).bytes.length < maxBuffer := by
  simp [Msg.bytes, serverTag, serverName, ascii, nameSize, maxBuffer] at h ⊢
  omega

theorem length_disconnected (h : name.length < nameSize) :
    (Msg.disconnected name).bytes.length < maxBuffer := by
  simp [Msg.bytes, serverTag, serverName, ascii, nameSize, maxBuffer] at h ⊢
  omega

theorem length_changedName (h : name.length < nameSize) (h' : newName.length < nameSize) :
    (Msg.changedName name newName).bytes.length < maxBuffer := by
  simp [Msg.bytes, serverTag, serverName, ascii, nameSize, maxBuffer] at h h' ⊢
  omega

theorem length_nameRule : Msg.nameRule.bytes.length < maxBuffer := by decide

theorem length_you : (Msg.you text).bytes.length = text.length + 7 := by
  simp [Msg.bytes, ascii]

theorem length_chat : (Msg.chat name text).bytes.length = name.length + text.length + 4 := by
  simp [Msg.bytes, ascii]
  omega

theorem length_lineOf_le (data : Bytes) : (lineOf data).length ≤ data.length := by
  rw [lineOf_eq]
  exact (List.takeWhile_prefix _).length_le

end Formats

section Handler
variable {clients : Table} {i : Slot} {data : Bytes} {now : ℤ}

/-- The stores in front of the test for the command. -/
theorem cutEvents_inBounds :
    (∀ e ∈ cutEvents clients i data now, e.InBounds) ↔ data.length < maxBuffer := by
  have hle := length_lineOf_le data
  simp [cutEvents, Event.InBounds, Buffer.size]
  omega

theorem changeName_inBounds {newName : Bytes} (h : (clients i).name.length < nameSize)
    (h' : newName.length < nameSize) : ∀ e ∈ (changeName clients i newName).2, e.InBounds := by
  refine (forall_changeName fun _ _ => trivial).2
    ⟨?_, ?_, sprintf_inBounds.2 (length_changedName h h'), trivial⟩
  · simp only [Event.InBounds, Buffer.size]
    omega
  · simp only [Event.InBounds, Buffer.size]
    omega

theorem rejectName_inBounds {client : Client} : ∀ e ∈ rejectName client, e.InBounds :=
  (forall_rejectName fun _ _ => trivial).2 (sprintf_inBounds.2 length_nameRule)

theorem chatLine_inBounds {line : Bytes} :
    (∀ e ∈ (chatLine clients i line now).2, e.InBounds) ↔
      line.length + 8 ≤ maxBuffer ∧ (clients i).name.length + line.length + 5 ≤ maxBuffer := by
  rw [forall_chatLine fun _ _ => trivial, sprintf_inBounds, sprintf_inBounds, length_you,
    length_chat]
  constructor
  · rintro ⟨⟨hyou, hchat⟩, -⟩
    omega
  · rintro ⟨hyou, hchat⟩
    refine ⟨⟨?_, ?_⟩, trivial⟩ <;> omega

/-- The handler keeps to its buffers just when the chunk fits. -/
theorem receive_inBounds (h : IsName (clients i).name) :
    (∀ e ∈ (receive clients i data now).2, e.InBounds) ↔ (clients i).Fits data now := by
  have hexit := exit (clients i) data now
  rw [receive_eq]
  generalize (clients i).outcome data now = outcome at hexit
  unfold Client.Fits
  cases hexit with
  | dropped hc =>
    refine iff_of_true (fun e he => ?_) fun hallows => absurd hallows hc
    simp only [receiveWith, List.mem_cons, List.not_mem_nil, or_false] at he
    rcases he with rfl | rfl <;> trivial
  | renamed newName hc hline hlen =>
    have hcommand : ascii "/name " <+: lineOf data := hline ▸ List.prefix_append _ _
    have hrest := changeName_inBounds h.length.2 hlen.2
    simp only [receiveWith, List.forall_mem_append, cutEvents_inBounds, List.forall_mem_singleton]
    exact ⟨fun h _ => ⟨h.1.1, fun hno => absurd hcommand hno⟩,
      fun h => ⟨⟨(h hc).1, hrest⟩, trivial⟩⟩
  | rejected newName hc hline hlen =>
    have hcommand : ascii "/name " <+: lineOf data := hline ▸ List.prefix_append _ _
    simp only [receiveWith, List.forall_mem_append, cutEvents_inBounds, List.forall_mem_singleton]
    exact ⟨fun h _ => ⟨h.1.1, fun hno => absurd hcommand hno⟩,
      fun h => ⟨⟨(h hc).1, rejectName_inBounds⟩, trivial⟩⟩
  | chatted hc hline =>
    simp only [receiveWith, List.forall_mem_append, cutEvents_inBounds, List.forall_mem_singleton,
      chatLine_inBounds]
    exact ⟨fun h _ => ⟨h.1.1, fun _ => h.1.2⟩,
      fun h => ⟨⟨(h hc).1, (h hc).2 hline⟩, trivial⟩⟩

end Handler

section System
variable {W : Type} {w : Watcher W}

theorem acceptCall_inBounds (inp : Input) : ∀ e ∈ acceptCall (newClient inp), e.InBounds := by
  have hlen := (isName_newClient inp).length.2
  intro e he
  simp only [acceptCall, List.mem_cons, List.not_mem_nil, or_false] at he
  rcases he with rfl | rfl
  · trivial
  · simp only [Event.InBounds, Buffer.size]
    omega

theorem addClient_inBounds {s : Server W} {i : Slot} {client : Client}
    (h : client.name.length < nameSize) : ∀ e ∈ (addClient w s i client).2, e.InBounds :=
  (forall_addClient (fun _ => trivial) fun _ _ => trivial).2
    ⟨sprintf_inBounds.2 (length_connected h), trivial⟩

theorem refuse_inBounds {client : Client} : ∀ e ∈ refuse client, e.InBounds :=
  (forall_refuse fun _ _ => trivial).2 ⟨trivial, trivial⟩

theorem leave_inBounds {s : Server W} {i : Slot} (h : (s.clients i).name.length < nameSize) :
    ∀ e ∈ (leave w s i).2, e.InBounds :=
  (forall_leave (fun _ => trivial) fun _ _ => trivial).2
    ⟨trivial, sprintf_inBounds.2 (length_disconnected h), trivial⟩

/-- Only the handler of a chunk can leave its buffers. -/
theorem sysStep_inBounds {s : System W} (h : Named s.loop.server.clients) (inp : Input) :
    (∀ e ∈ (sysStep w s inp).2, e.InBounds) ↔ HandlesFitting w s inp := by
  obtain ⟨c, k⟩ := s
  have ht := transition w c inp
  simp only [sysStep, HandlesFitting] at h ⊢
  generalize step w c inp = r at ht ⊢
  cases ht with
  | wait => simp [Event.InBounds]
  | noConnection => simp
  | idle s _ i hidle =>
    refine iff_of_true (by simp) fun j hj hfd hr => ?_
    obtain rfl := Pc.scan.inj hj
    rcases hidle with hneg | hnot
    · exact absurd hfd (not_le.mpr hneg)
    · rw [hnot] at hr
      cases hr
  | add s _ i =>
    refine iff_of_true ?_ (by simp)
    rw [List.forall_mem_append]
    exact ⟨acceptCall_inBounds inp, addClient_inBounds (isName_newClient inp).length.2⟩
  | refuse =>
    refine iff_of_true ?_ (by simp)
    rw [List.forall_mem_append]
    exact ⟨acceptCall_inBounds inp, refuse_inBounds⟩
  | leave s _ i hfd hr hn =>
    refine iff_of_true ?_ (by simp [hn])
    rw [List.forall_mem_cons]
    exact ⟨trivial, leave_inBounds (h i hfd).length.2⟩
  | receive s _ i chunk hfd hr hc =>
    rw [List.forall_mem_cons, receive_inBounds (h i hfd)]
    constructor
    · rintro ⟨-, hfits⟩ j hj - - chunk' hchunk'
      obtain rfl := Pc.scan.inj hj
      rw [hc] at hchunk'
      obtain rfl := Option.some.inj hchunk'
      exact hfits
    · intro hall
      exact ⟨trivial, hall i rfl hfd hr chunk hc⟩

/-- A run keeps to its buffers just when every chunk that it handles fits, and in
every state that it reaches this is decided for every slot in use and every chunk
by the chunk, the time and the name. -/
theorem stores_in_bounds (w : Watcher W) (listenfd : ℕ) (watch : W) (mem : Table)
    (inherited : Finset ℤ) (is : List Input) :
    (Along (sysStep w) (fun s inp => ∀ e ∈ (sysStep w s inp).2, e.InBounds)
        (System.boot listenfd watch mem inherited) is ↔
      Along (sysStep w) (HandlesFitting w) (System.boot listenfd watch mem inherited) is) ∧
    ∀ (i : Slot) (chunk : Chunk) (now : ℤ),
      let clients :=
        (exec (sysStep w) (System.boot listenfd watch mem inherited) is).loop.server.clients
      0 ≤ (clients i).fd →
        ((∀ e ∈ (receive clients i chunk.data now).2, e.InBounds) ↔
          (clients i).Fits chunk.data now) := by
  constructor
  · have hequiv (s : System W) (inp : Input) (hs : Named s.loop.server.clients) :
        (∀ e ∈ (sysStep w s inp).2, e.InBounds) ↔ HandlesFitting w s inp := sysStep_inBounds hs inp
    exact along_iff hequiv (fun _ inp hs _ => named_sysStep hs inp)
      (named_boot listenfd watch mem inherited) is
  · intro i chunk now clients hfd
    exact receive_inBounds (named_run listenfd watch mem inherited is i hfd)

end System

/-- A `read` that fills `recv_buf`. -/
def fullChunk : Chunk where
  data := List.replicate maxBuffer 120
  nonempty := by
    rw [List.length_replicate]
    decide
  fits := by rw [List.length_replicate]

/-- One connection fills the buffer a second after its time stamp. -/
theorem stores_out_of_bounds :
    ¬ ∀ (is : List Input) (i : Slot) (chunk : Chunk) (now : ℤ),
      let clients := (exec (sysStep selectWatch)
        (System.boot 3 (FdSets.init 3) default {0, 1, 2}) is).loop.server.clients
      0 ≤ (clients i).fd → ∀ e ∈ (receive clients i chunk.data now).2, e.InBounds := by
  intro h
  have hstores := h (iteration {3} (some ⟨4, default⟩) default (fun _ => none) 0) firstSlot
    fullChunk 1 (by decide)
  rw [receive_inBounds (named_run 3 _ _ _ _ firstSlot (by decide))] at hstores
  have hfits := (hstores (by decide)).1
  rw [fullChunk, List.length_replicate] at hfits
  exact lt_irrefl _ hfits

end AcademyLab.Chat
