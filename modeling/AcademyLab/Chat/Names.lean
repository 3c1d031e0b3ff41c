import AcademyLab.Chat.Notices
import AcademyLab.Chat.Stores

/-!
# The `/name` command

A command that comes within the cooldown is dropped like any other chunk. Any
other command writes the name of its own slot, or nothing if the name is too short
or too long.
-/
namespace AcademyLab.Chat
open Machine CString

/-- The step handles a chunk of slot `i` whose line is `/name` with `newName`. -/
structure Commands {W : Type} (w : Watcher W) (s : System W) (inp : Input) (i : Slot)
    (newName : Bytes) : Prop where
  pc : s.loop.pc = .scan i
  occupied : 0 ≤ (s.loop.server.clients i).fd
  ready : w.clientReady s.loop.server.watch i (s.loop.server.clients i).fd = true
  line : ∃ chunk, inp.read = some chunk ∧
    chunk.data.takeWhile isText = ascii "/name " ++ newName

/-- The copies of names stay in their fields, and a notice that is printed was
formatted inside `send_buf`. -/
def Event.NamesFit : Event → Prop
  | .store .oldName first count | .store .name first count => first + count ≤ nameSize
  | .print msg => msg.notice ≠ none → msg.bytes.length < maxBuffer
  | _ => True

section Commands
variable {client : Client} {data newName : Bytes} {now : ℤ}

theorem outcome_of_command (hc : client.Allows now)
    (hline : lineOf data = ascii "/name " ++ newName) :
    client.outcome data now =
      if 1 ≤ newName.length ∧ newName.length < nameSize then .renamed newName
      else .rejected newName := by
  have hexit := exit client data now
  generalize client.outcome data now = outcome at hexit
  cases hexit with
  | dropped hno => exact absurd hc hno
  | renamed name _ hname hlen =>
    obtain rfl := List.append_cancel_left (hline.symm.trans hname)
    rw [if_pos ⟨hlen.1, hlen.2⟩]
  | rejected name _ hname hlen =>
    obtain rfl := List.append_cancel_left (hline.symm.trans hname)
    rw [if_neg fun h => hlen ⟨h.1, h.2⟩]
  | chatted _ hno => exact absurd (hline ▸ List.prefix_append _ _) hno

/-- What a command makes of its client. -/
theorem after_command (hline : lineOf data = ascii "/name " ++ newName) :
    client.after data now =
      if client.Allows now ∧ 1 ≤ newName.length ∧ newName.length < nameSize then
        { client with name := newName }
      else client := by
  unfold Client.after
  by_cases hc : client.Allows now
  · rw [outcome_of_command hc hline]
    by_cases hlen : 1 ≤ newName.length ∧ newName.length < nameSize
    · rw [if_pos hlen, if_pos ⟨hc, hlen⟩]
    · rw [if_neg hlen, if_neg fun h => hlen h.2]
  · have hdropped : client.outcome data now = .dropped := if_neg hc
    rw [hdropped, if_neg fun h => hc h.1]

variable {W : Type} {w : Watcher W} {s : System W} {inp : Input} {i : Slot}

theorem clients_of_command (h : Commands w s inp i newName) :
    (sysStep w s inp).1.loop.server.clients =
      if (s.loop.server.clients i).Allows inp.now ∧ 1 ≤ newName.length ∧
          newName.length < nameSize then
        Function.update s.loop.server.clients i { s.loop.server.clients i with name := newName }
      else s.loop.server.clients := by
  obtain ⟨hpc, hfd, hready, chunk, hread, hline⟩ := h
  obtain ⟨⟨pc, s⟩, k⟩ := s
  obtain rfl : pc = .scan i := hpc
  rw [← lineOf_eq] at hline
  simp only [sysStep, step_receive inp hfd hready hread]
  rw [(@receive_treat 0 s.clients i chunk.data inp.now).1, after_command hline]
  split
  · rfl
  · exact Function.update_eq_self i s.clients

end Commands

section Notices
variable {W : Type} {w : Watcher W} {clients : Table} {i : Slot} {client : Client}

theorem acceptCall_namesFit (h : client.name.length < nameSize) :
    ∀ e ∈ acceptCall client, e.NamesFit := by
  intro e he
  simp only [acceptCall, List.mem_cons, List.not_mem_nil, or_false] at he
  rcases he with rfl | rfl
  · trivial
  · show 0 + (client.name.length + 1) ≤ nameSize
    omega

theorem addClient_namesFit {s : Server W} (h : client.name.length < nameSize) :
    ∀ e ∈ (addClient w s i client).2, e.NamesFit :=
  (forall_addClient (fun _ => trivial) fun _ _ => trivial).2 ⟨trivial, fun _ => length_connected h⟩

theorem refuse_namesFit : ∀ e ∈ refuse client, e.NamesFit :=
  (forall_refuse fun _ _ => trivial).2 ⟨fun hnotice => absurd rfl hnotice, trivial⟩

theorem leave_namesFit {s : Server W} (h : (s.clients i).name.length < nameSize) :
    ∀ e ∈ (leave w s i).2, e.NamesFit :=
  (forall_leave (fun _ => trivial) fun _ _ => trivial).2
    ⟨trivial, trivial, fun _ => length_disconnected h⟩

theorem changeName_namesFit {newName : Bytes} (h : (clients i).name.length < nameSize)
    (h' : newName.length < nameSize) : ∀ e ∈ (changeName clients i newName).2, e.NamesFit := by
  refine (forall_changeName fun _ _ => trivial).2
    ⟨?_, ?_, trivial, fun _ => length_changedName h h'⟩
  · show 0 + ((clients i).name.length + 1) ≤ nameSize
    omega
  · show 0 + (newName.length + 1) ≤ nameSize
    omega

theorem chatLine_namesFit {line : Bytes} {now : ℤ} :
    ∀ e ∈ (chatLine clients i line now).2, e.NamesFit :=
  (forall_chatLine fun _ _ => trivial).2
    ⟨⟨trivial, trivial⟩, fun hnotice => absurd rfl hnotice⟩

theorem receive_namesFit (h : (clients i).name.length < nameSize) (data : Bytes) (now : ℤ) :
    ∀ e ∈ (receive clients i data now).2, e.NamesFit := by
  have hcut : ∀ e ∈ cutEvents clients i data now, e.NamesFit :=
    forall_cutEvents.2 ⟨trivial, trivial, trivial⟩
  have hreject : ∀ e ∈ rejectName (clients i), e.NamesFit :=
    (forall_rejectName fun _ _ => trivial).2 trivial
  have hexit := exit (clients i) data now
  rw [receive_eq]
  generalize (clients i).outcome data now = outcome at hexit
  cases hexit with
  | dropped =>
    simp only [receiveWith, List.forall_mem_cons, List.not_mem_nil, IsEmpty.forall_iff,
      implies_true]
    exact ⟨trivial, trivial, trivial⟩
  | renamed newName _ _ hlen =>
    simp only [receiveWith, List.forall_mem_append, List.forall_mem_singleton]
    exact ⟨⟨hcut, changeName_namesFit h hlen.2⟩, trivial⟩
  | rejected =>
    simp only [receiveWith, List.forall_mem_append, List.forall_mem_singleton]
    exact ⟨⟨hcut, hreject⟩, trivial⟩
  | chatted =>
    simp only [receiveWith, List.forall_mem_append, List.forall_mem_singleton]
    exact ⟨⟨hcut, chatLine_namesFit⟩, trivial⟩

theorem sysStep_namesFit {s : System W} (h : Named s.loop.server.clients) (inp : Input) :
    ∀ e ∈ (sysStep w s inp).2, e.NamesFit := by
  have hnew := (isName_newClient inp).length.2
  obtain ⟨c, k⟩ := s
  have ht := transition w c inp
  simp only [sysStep] at h ⊢
  generalize step w c inp = r at ht ⊢
  cases ht with
  | wait => simp [Event.NamesFit]
  | noConnection => simp
  | idle => simp
  | add s _ i =>
    rw [List.forall_mem_append]
    exact ⟨acceptCall_namesFit hnew, addClient_namesFit hnew⟩
  | refuse =>
    rw [List.forall_mem_append]
    exact ⟨acceptCall_namesFit hnew, refuse_namesFit⟩
  | leave s _ i hfd =>
    rw [List.forall_mem_cons]
    exact ⟨trivial, leave_namesFit (h i hfd).length.2⟩
  | receive s _ i chunk hfd =>
    rw [List.forall_mem_cons]
    exact ⟨trivial, receive_namesFit (h i hfd).length.2 chunk.data inp.now⟩

end Notices

/-- In every run: the names in use, what a command does with the table, and the
copies and notices that are made of the names. -/
theorem names_and_commands {W : Type} (w : Watcher W) (listenfd : ℕ) (watch : W) (mem : Table)
    (inherited : Finset ℤ) (is : List Input) :
    let s := exec (sysStep w) (System.boot listenfd watch mem inherited) is
    let clients := s.loop.server.clients
    (∀ i, 0 ≤ (clients i).fd → 1 ≤ (clients i).name.length ∧ (clients i).name.length < nameSize ∧
      ∀ b ∈ (clients i).name, b ≠ 13 ∧ b ≠ 10 ∧ b ≠ 0) ∧
    (∀ inp i newName, Commands w s inp i newName →
      (sysStep w s inp).1.loop.server.clients =
        if (clients i).Allows inp.now ∧ 1 ≤ newName.length ∧ newName.length < nameSize then
          Function.update clients i { clients i with name := newName }
        else clients) ∧
    ∀ inp, ∀ e ∈ (sysStep w s inp).2, e.NamesFit := by
  intro s clients
  have hnamed : Named clients := named_run listenfd watch mem inherited is
  refine ⟨fun i hfd => ?_, fun inp i newName h => clients_of_command h,
    fun inp => sysStep_namesFit hnamed inp⟩
  have hname := hnamed i hfd
  exact ⟨hname.length.1, hname.length.2, fun b hb => isText_iff.1 (hname.text b hb)⟩

/-- A line at time 1, and a command in the same second. -/
def hastyInputs : List Input :=
  iteration {3} (some ⟨4, default⟩) default (fun _ => none) 0 ++
    iteration {4} none default (fun _ => some lineA) 1 ++
    [{ (default : Input) with ready := {4} }, default]

/-- The conditions on a run: `accept` succeeds with a descriptor that is not open,
and no `read` fills the buffer. -/
def Ordinary (s : System FdSets) (inp : Input) : Prop :=
  Legal selectWatch s inp ∧ AcceptSucceeds selectWatch s inp ∧
    ∀ chunk ∈ inp.read, chunk.data.length < maxBuffer

instance (s : System FdSets) (inp : Input) : Decidable (Ordinary s inp) :=
  inferInstanceAs (Decidable (_ ∧ _ ∧ _))

theorem command_dropped :
    ¬ ∀ is : List Input,
      Along (sysStep selectWatch) Ordinary (System.boot 3 (FdSets.init 3) default {0, 1, 2}) is →
        let s := exec (sysStep selectWatch) (System.boot 3 (FdSets.init 3) default {0, 1, 2}) is
        ∀ inp i newName, Ordinary s inp → Commands selectWatch s inp i newName →
          1 ≤ newName.length → newName.length < nameSize →
            (sysStep selectWatch s inp).1.loop.server.clients =
              Function.update s.loop.server.clients i
                { s.loop.server.clients i with name := newName } := by
  intro h
  have htable := h hastyInputs (by decide)
    { (default : Input) with read := some renameB, now := 1 } firstSlot (ascii "b") (by decide)
    ⟨by decide, by decide, by decide, renameB, rfl, by decide⟩ (by decide) (by decide)
  have hname := congrArg Client.name (congrFun htable firstSlot)
  exact absurd hname (by decide)

end AcademyLab.Chat
