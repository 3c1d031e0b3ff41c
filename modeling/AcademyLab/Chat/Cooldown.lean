import AcademyLab.Chat.Session
import AcademyLab.Chat.Readiness

/-!
# The cooldown of a connection

The handler tests `last_msg_time` of the client before it looks at a chunk, and
sets it at one of its four exits. `accept` does not set it, so until the first
chat line it holds what the stack of `main` held.
-/
namespace AcademyLab.Chat
open Machine CString

/-- The handler called `broadcast_msg`. -/
def Outcome.Broadcasts : Outcome → Prop
  | .renamed _ | .chatted _ => True
  | .rejected _ | .dropped => False

instance (o : Outcome) : Decidable o.Broadcasts :=
  match o with
  | .renamed _ | .chatted _ => isTrue trivial
  | .rejected _ | .dropped => isFalse id

/-- What the handler has for the other clients at its exit. -/
def Outcome.notice (name : Bytes) : Outcome → Option Msg
  | .renamed newName => some (.changedName name newName)
  | .chatted line => some (.chat name line)
  | .rejected _ | .dropped => none

theorem broadcasts_iff_notice (name : Bytes) (o : Outcome) :
    o.Broadcasts ↔ ∃ msg, o.notice name = some msg := by
  cases o <;> simp [Outcome.Broadcasts, Outcome.notice]

/-- Another client gets that from the handler, and nothing else. -/
theorem write_mem_receive {clients : Table} {i j : Slot} (hj : (clients j).fd ≠ -1)
    (hne : (clients j).fd ≠ (clients i).fd) (data : Bytes) (now : ℤ) (msg : Msg) :
    .write (clients j).fd msg ∈ (receive clients i data now).2 ↔
      ((clients i).outcome data now).notice (clients i).name = some msg := by
  have hcut : Event.write (clients j).fd msg ∉ cutEvents clients i data now := by
    simp [cutEvents]
  rw [receive_eq]
  cases (clients i).outcome data now with
  | dropped => simp [receiveWith, Outcome.notice]
  | renamed newName =>
    have hji : j ≠ i := fun he => hne (he ▸ rfl)
    have hfd : ((changeName clients i newName).1 j).fd = (clients j).fd :=
      congrArg Client.fd (Function.update_of_ne hji _ _)
    have hmem : Event.write (clients j).fd msg ∈
          (receiveWith clients i data now (.renamed newName)).2 ↔
        Event.write (clients j).fd msg ∈ broadcastMsg (changeName clients i newName).1
          (.changedName (clients i).name newName) (-1) := by
      simp [receiveWith, changeName, hcut, sprintf]
    rw [hmem, mem_broadcastMsg]
    constructor
    · rintro ⟨k, -, -, he⟩
      rw [(Event.write.inj he).2, Outcome.notice]
    · intro h
      exact ⟨j, hfd.trans_ne hj, hfd.trans_ne hj, by rw [hfd, Option.some.inj h]⟩
  | rejected newName =>
    simp [receiveWith, hcut, rejectName, sendMsg, sprintf, Outcome.notice, hne]
  | chatted line =>
    have hmem : Event.write (clients j).fd msg ∈
          (receiveWith clients i data now (.chatted line)).2 ↔
        Event.write (clients j).fd msg ∈
          broadcastMsg clients (.chat (clients i).name line) (clients i).fd := by
      simp [receiveWith, chatLine, hcut, sprintf, sendMsg, hne]
    rw [hmem, mem_broadcastMsg]
    constructor
    · rintro ⟨k, -, -, he⟩
      rw [(Event.write.inj he).2, Outcome.notice]
    · intro h
      exact ⟨j, hj, hne, by rw [Option.some.inj h]⟩

section Told
variable {W : Type} {w : Watcher W}

/-- Where a chunk of the connection `fd` is handled, each other client gets what the exit
has for it, and nothing else. -/
def Told (w : Watcher W) (fd : ℤ) (s : System W) (inp : Input) : Prop :=
  ∀ data now o, .chunk fd data now o ∈ (sysStep w s inp).2 →
    ∃ i, (s.loop.server.clients i).fd = fd ∧
      ∀ j, (s.loop.server.clients j).fd ≠ -1 → (s.loop.server.clients j).fd ≠ fd → ∀ msg,
        .write (s.loop.server.clients j).fd msg ∈ (sysStep w s inp).2 ↔
          o.notice (s.loop.server.clients i).name = some msg

theorem mem_log {fd : ℤ} {es : List Event} {data : Bytes} {now : ℤ} {o : Outcome}
    (h : .chunk fd data now o ∈ es) : ⟨(data, now), o⟩ ∈ log fd es :=
  List.mem_filterMap.2 ⟨_, h, if_pos rfl⟩

theorem told_sysStep (fd : ℤ) (s : System W) (inp : Input) : Told w fd s inp := by
  intro data now o hchunk
  have hlog := mem_log hchunk
  obtain ⟨c, k⟩ := s
  have ht := transition w c inp
  simp only [sysStep] at hlog ⊢
  generalize step w c inp = r at ht hlog
  cases ht with
  | wait | noConnection | idle | refuse => simp [log, acceptCall, refuse, sendMsg] at hlog
  | add s inp i =>
    rw [log_addClient] at hlog
    simp at hlog
  | leave s _ i =>
    rw [log_leave] at hlog
    simp at hlog
  | receive s inp i chunk =>
    have hread : log fd (.read (s.clients i).fd :: (receive s.clients i chunk.data inp.now).2) =
        log fd (receive s.clients i chunk.data inp.now).2 := rfl
    rw [hread, (receive_treat s.clients i chunk.data inp.now).2, log_chunk] at hlog
    split_ifs at hlog with hfd
    · have hentry := List.mem_singleton.1 hlog
      rw [Entry.mk.injEq] at hentry
      obtain rfl := hentry.2
      refine ⟨i, hfd, fun j hj hne msg => ?_⟩
      rw [List.mem_cons, or_iff_right (by simp)]
      exact write_mem_receive hj (hfd ▸ hne) chunk.data inp.now msg
    · simp at hlog

end Told

/-! ## The time stamp of a connection -/

/-- The chunk passes the test and is a `/name` command with an allowed name. -/
def Renames (v : Client × Arrival) : Prop :=
  v.1.Allows v.2.2 ∧ ∃ newName, lineOf v.2.1 = ascii "/name " ++ newName ∧
    0 < newName.length ∧ newName.length < nameSize

/-- The chunk passes the test and is a chat line. -/
def Speaks (v : Client × Arrival) : Prop :=
  v.1.Allows v.2.2 ∧ ¬ ascii "/name " <+: lineOf v.2.1

/-- The handler broadcasts for these two kinds of chunks and for no others. -/
theorem broadcasts_iff (v : Client × Arrival) :
    (v.1.outcome v.2.1 v.2.2).Broadcasts ↔ Renames v ∨ Speaks v := by
  have he := exit v.1 v.2.1 v.2.2
  generalize v.1.outcome v.2.1 v.2.2 = o at he
  cases he with
  | dropped hc => exact iff_of_false id fun h => hc (h.elim And.left And.left)
  | renamed newName hc hline hlen => exact iff_of_true trivial (.inl ⟨hc, newName, hline, hlen⟩)
  | rejected newName hc hline hlen =>
    refine iff_of_false id ?_
    rintro (⟨-, name, hname, hlen'⟩ | h)
    · rw [hline, List.append_cancel_left_eq] at hname
      exact hlen (hname ▸ hlen')
    · exact h.2 ⟨newName, hline.symm⟩
  | chatted hc hline => exact iff_of_true trivial (.inr ⟨hc, hline⟩)

/-- Only a chat line sets the time stamp. -/
theorem lastMsgTime_after (c : Client) (data : Bytes) (now : ℤ) :
    Speaks (c, data, now) ∧ (c.after data now).lastMsgTime = now ∨
      ¬ Speaks (c, data, now) ∧ (c.after data now).lastMsgTime = c.lastMsgTime := by
  unfold Client.after
  have he := exit c data now
  generalize c.outcome data now = o at he ⊢
  cases he with
  | dropped hc => exact .inr ⟨fun h => hc h.1, rfl⟩
  | renamed newName hc hline => exact .inr ⟨fun h => h.2 ⟨newName, hline.symm⟩, rfl⟩
  | rejected newName hc hline => exact .inr ⟨fun h => h.2 ⟨newName, hline.symm⟩, rfl⟩
  | chatted hc hline => exact .inl ⟨⟨hc, hline⟩, rfl⟩

/-- A time stamp is only replaced by a later one. -/
theorem lastMsgTime_le_of_mem_visits {c : Client} {as : List Arrival} {v : Client × Arrival}
    (h : v ∈ visits treat c as) : c.lastMsgTime ≤ v.1.lastMsgTime := by
  induction as generalizing c with
  | nil => simp at h
  | cons a as ih =>
    rcases List.mem_cons.mp h with rfl | h
    · exact le_rfl
    · have hle := ih h
      change (c.after a.1 a.2).lastMsgTime ≤ v.1.lastMsgTime at hle
      rcases lastMsgTime_after c a.1 a.2 with ⟨hs, hafter⟩ | ⟨-, hafter⟩
      · have hallow : a.2 - c.lastMsgTime ≥ msgCooldown := hs.1
        have hpos : (0 : ℤ) < msgCooldown := by decide
        omega
      · omega

/-- After a chat line nothing passes before the cooldown is over. -/
theorem visits_pairwise (c : Client) (as : List Arrival) :
    (visits treat c as).Pairwise fun u v => Speaks u → v.1.Allows v.2.2 →
      msgCooldown ≤ v.2.2 - u.2.2 := by
  induction as generalizing c with
  | nil => exact .nil
  | cons a as ih =>
    refine .cons (fun v hv hs hallow => ?_) (ih _)
    have hle := lastMsgTime_le_of_mem_visits hv
    change (c.after a.1 a.2).lastMsgTime ≤ v.1.lastMsgTime at hle
    have hafter : (c.after a.1 a.2).lastMsgTime = a.2 := by
      rcases lastMsgTime_after c a.1 a.2 with ⟨-, h⟩ | ⟨h, -⟩
      · exact h
      · exact absurd hs h
    have hv' : v.2.2 - v.1.lastMsgTime ≥ msgCooldown := hallow
    change msgCooldown ≤ v.2.2 - a.2
    omega

/-! ## How often a connection is heard -/

/-- The broadcasts that one connection causes are `MSG_COOLDOWN` apart if and only
if none of them comes within that time of a change of name before it. They are the chunks
at which each other client is written to. -/
theorem cooldown_iff {W : Type} {w : Watcher W} (S : Session w) :
    ((S.log.Pairwise fun a b => a.outcome.Broadcasts → b.outcome.Broadcasts →
        msgCooldown ≤ b.arrival.2 - a.arrival.2) ↔
      S.visits.Pairwise fun u v => Renames u → Renames v ∨ Speaks v →
        msgCooldown ≤ v.2.2 - u.2.2) ∧
    Along (sysStep w) (fun s inp => ∀ data now o,
      .chunk S.conn.fd data now o ∈ (sysStep w s inp).2 → ∀ j,
        (s.loop.server.clients j).fd ≠ -1 → (s.loop.server.clients j).fd ≠ S.conn.fd →
          ((∃ msg, .write (s.loop.server.clients j).fd msg ∈ (sysStep w s inp).2) ↔
            o.Broadcasts)) S.start S.inputs := by
  refine ⟨?_, along_of_forall (fun s inp data now o hchunk j hj hne => ?_) _ _⟩
  · have hchat := visits_pairwise S.client S.history
    rw [S.log_eq, List.pairwise_map]
    simp only [broadcasts_iff]
    constructor
    · intro h
      exact h.imp fun huv hu => huv (.inl hu)
    · intro h
      refine (h.and hchat).imp ?_
      rintro u v ⟨hname, hline⟩ (hu | hu) hv
      · exact hname hu hv
      · exact hline hu (hv.elim And.left And.left)
  · obtain ⟨i, -, htold⟩ := told_sysStep S.conn.fd s inp data now o hchunk
    rw [broadcasts_iff_notice (s.loop.server.clients i).name]
    exact exists_congr (htold j hj hne)

/-- While another client is in the room, the first one takes two names in the same
second. -/
def renamingSession : Session selectWatch :=
  firstSession 0
    (firstInputs [] ++ iteration {3} (some ⟨5, default⟩) default (fun _ => none) 0 ++
      iteration {4} none default (fun _ => some (lineChunk "/name a\n" (by decide))) 1 ++
      iteration {4} none default (fun _ => some renameB) 1) (by decide)

/-- The other client is told of both. -/
theorem cooldown_two_renames :
    (¬ renamingSession.log.Pairwise fun a b => a.outcome.Broadcasts → b.outcome.Broadcasts →
        msgCooldown ≤ b.arrival.2 - a.arrival.2) ∧
      .write 5 (.changedName (ascii "0.0.0.0:0") (ascii "a")) ∈ renamingSession.events ∧
      .write 5 (.changedName (ascii "a") (ascii "b")) ∈ renamingSession.events := by
  decide

/-! ## What a connection finds in memory

`last_msg_time` of a new client is whatever the stack held. -/

/-- A time that a 64-bit `time()` returns after the Epoch. -/
def ClockTime (now : ℤ) : Prop := 0 ≤ now ∧ now < 2 ^ 63

instance (now : ℤ) : Decidable (ClockTime now) := inferInstanceAs (Decidable (_ ∧ _))

/-- The stamp lies at least `MSG_COOLDOWN` and less than `2 ^ 63` seconds before
each chunk, up to the first chat line. -/
def Settled (stamp : ℤ) : List Arrival → Prop
  | [] => True
  | a :: as => msgCooldown ≤ a.2 - stamp ∧ a.2 - stamp < 2 ^ 63 ∧
      (¬ ascii "/name " <+: lineOf a.1 ∨ Settled stamp as)

instance decidableSettled (stamp : ℤ) (as : List Arrival) : Decidable (Settled stamp as) :=
  match as with
  | [] => isTrue trivial
  | a :: as =>
    have := decidableSettled stamp as
    inferInstanceAs (Decidable (msgCooldown ≤ a.2 - stamp ∧ a.2 - stamp < 2 ^ 63 ∧
      (¬ ascii "/name " <+: lineOf a.1 ∨ Settled stamp as)))

/-- The difference that is tested fits into a `time_t`. -/
def InRange (v : Client × Arrival) : Prop := (Event.elapsed v.2.2 v.1.lastMsgTime).Defined

instance (v : Client × Arrival) : Decidable (InRange v) :=
  inferInstanceAs (Decidable (Event.Defined _))

section Treatment
variable {c c' : Client} {as : List Arrival}

theorem outcome_congr {now : ℤ} (h : c.Allows now ↔ c'.Allows now) (data : Bytes) :
    c.outcome data now = c'.outcome data now := by
  by_cases ha : c.Allows now
  · exact (if_pos ha).trans (if_pos (h.mp ha)).symm
  · exact (if_neg ha).trans (if_neg fun h' => ha (h.mpr h')).symm

/-- Clients with the same time stamp are treated alike. -/
theorem outcomes_congr (h : c.lastMsgTime = c'.lastMsgTime) :
    (trace treat c as).map Entry.outcome = (trace treat c' as).map Entry.outcome := by
  induction as generalizing c c' with
  | nil => rfl
  | cons a as ih =>
    have ha : c.Allows a.2 ↔ c'.Allows a.2 := by
      unfold Client.Allows
      rw [h]
    have hafter : (c.after a.1 a.2).lastMsgTime = (c'.after a.1 a.2).lastMsgTime := by
      rcases lastMsgTime_after c a.1 a.2 with ⟨hs, hc⟩ | ⟨hs, hc⟩ <;>
        rcases lastMsgTime_after c' a.1 a.2 with ⟨hs', hc'⟩ | ⟨hs', hc'⟩
      · rw [hc, hc']
      · exact absurd ⟨ha.mp hs.1, hs.2⟩ hs'
      · exact absurd ⟨ha.mpr hs'.1, hs'.2⟩ hs
      · rw [hc, hc', h]
    simp only [trace_cons, treat, List.map_append, List.map_cons, List.map_nil,
      outcome_congr ha, ih hafter]

/-- So are clients whose stamps let every chunk pass that meets them. -/
theorem outcomes_settled (h : Settled c.lastMsgTime as) (h' : Settled c'.lastMsgTime as) :
    (trace treat c as).map Entry.outcome = (trace treat c' as).map Entry.outcome := by
  induction as generalizing c c' with
  | nil => rfl
  | cons a as ih =>
    have ha : c.Allows a.2 := h.1
    have ha' : c'.Allows a.2 := h'.1
    have hrest : (trace treat (c.after a.1 a.2) as).map Entry.outcome =
        (trace treat (c'.after a.1 a.2) as).map Entry.outcome := by
      rcases lastMsgTime_after c a.1 a.2 with ⟨hs, hc⟩ | ⟨hs, hc⟩ <;>
        rcases lastMsgTime_after c' a.1 a.2 with ⟨hs', hc'⟩ | ⟨hs', hc'⟩
      · exact outcomes_congr (hc.trans hc'.symm)
      · exact absurd ⟨ha', hs.2⟩ hs'
      · exact absurd ⟨ha, hs'.2⟩ hs
      · have hline : ¬ ¬ ascii "/name " <+: lineOf a.1 := fun hl => hs ⟨ha, hl⟩
        exact ih (hc ▸ h.2.2.resolve_left hline) (hc' ▸ h'.2.2.resolve_left hline)
    simp only [trace_cons, treat, List.map_append, List.map_cons, List.map_nil,
      outcome_congr (iff_of_true ha ha'), hrest]

theorem inRange_of_clockTime (hc : ClockTime c.lastMsgTime) (h : ∀ a ∈ as, ClockTime a.2) :
    ∀ v ∈ visits treat c as, InRange v := by
  induction as generalizing c with
  | nil => simp
  | cons a as ih =>
    have hnow := h a List.mem_cons_self
    intro v hv
    rcases List.mem_cons.mp hv with rfl | hv
    · unfold ClockTime at hc hnow
      change -2 ^ 63 ≤ a.2 - c.lastMsgTime ∧ a.2 - c.lastMsgTime < 2 ^ 63
      omega
    · refine ih ?_ (fun b hb => h b (List.mem_cons_of_mem _ hb)) v hv
      rcases lastMsgTime_after c a.1 a.2 with ⟨-, hafter⟩ | ⟨-, hafter⟩
      · exact hafter ▸ hnow
      · exact hafter ▸ hc

theorem inRange_of_settled (hc : Settled c.lastMsgTime as) (h : ∀ a ∈ as, ClockTime a.2) :
    ∀ v ∈ visits treat c as, InRange v := by
  induction as generalizing c with
  | nil => simp
  | cons a as ih =>
    obtain ⟨hlow, hhigh, hnext⟩ := hc
    intro v hv
    rcases List.mem_cons.mp hv with rfl | hv
    · have hpos : (0 : ℤ) < msgCooldown := by decide
      change -2 ^ 63 ≤ a.2 - c.lastMsgTime ∧ a.2 - c.lastMsgTime < 2 ^ 63
      omega
    · have has : ∀ b ∈ as, ClockTime b.2 := fun b hb => h b (List.mem_cons_of_mem _ hb)
      rcases lastMsgTime_after c a.1 a.2 with ⟨-, hafter⟩ | ⟨hs, hafter⟩
      · exact inRange_of_clockTime (hafter ▸ h a List.mem_cons_self) has v hv
      · have hline : ¬ ¬ ascii "/name " <+: lineOf a.1 := fun hl => hs ⟨hlow, hl⟩
        exact ih (hafter ▸ hnext.resolve_left hline) has v hv

/-- With a clock that does not go back, the first chunk decides for the next ones. -/
theorem settled_of_inRange (hfirst : ∀ a ∈ as, c.Allows a.2)
    (h : ∀ v ∈ visits treat c as, InRange v) : Settled c.lastMsgTime as := by
  induction as generalizing c with
  | nil => trivial
  | cons a as ih =>
    have hallow : c.Allows a.2 := hfirst a List.mem_cons_self
    have hrange : InRange (c, a) := h _ List.mem_cons_self
    refine ⟨hallow, hrange.2, ?_⟩
    by_cases hline : ascii "/name " <+: lineOf a.1
    · have hafter : (c.after a.1 a.2).lastMsgTime = c.lastMsgTime := by
        rcases lastMsgTime_after c a.1 a.2 with ⟨hs, -⟩ | ⟨-, hafter⟩
        · exact absurd hline hs.2
        · exact hafter
      right
      rw [← hafter]
      refine ih (fun b hb => ?_) fun v hv => h v (List.mem_cons_of_mem _ hv)
      unfold Client.Allows
      rw [hafter]
      exact hfirst b (List.mem_cons_of_mem _ hb)
    · exact .inl hline

end Treatment

section First
variable {W : Type} {w : Watcher W}

theorem newClient_lastMsgTime (inp : Input) :
    (newClient inp).lastMsgTime = inp.stack.lastMsgTime := by
  unfold newClient
  cases inp.accept <;> rfl

theorem outcome_ne_dropped (c : Client) (data : Bytes) (now : ℤ) :
    c.outcome data now ≠ .dropped ↔ c.Allows now := by
  have he := exit c data now
  generalize c.outcome data now = o at he
  cases he with
  | dropped hc => simpa using hc
  | renamed _ hc => simpa using hc
  | rejected _ hc => simpa using hc
  | chatted hc => simpa using hc

theorem Session.first_iff (S : Session w) : (∀ e ∈ S.log.head?, e.outcome ≠ .dropped) ↔
    ∀ a ∈ S.history.head?, S.client.Allows a.2 := by
  rw [S.log_eq, Session.visits]
  cases S.history with
  | nil => simp
  | cons a as => simp [outcome_ne_dropped]

end First

/-- Two connections are treated alike, neither loses its first chunk, and no
difference of times overflows. -/
structure Alike {W W' : Type} {w : Watcher W} {w' : Watcher W'} (S : Session w)
    (S' : Session w') : Prop where
  outcomes : S.log.map Entry.outcome = S'.log.map Entry.outcome
  first : (∀ e ∈ S.log.head?, e.outcome ≠ .dropped) ∧ ∀ e ∈ S'.log.head?, e.outcome ≠ .dropped
  inRange : (∀ v ∈ S.visits, InRange v) ∧ ∀ v ∈ S'.visits, InRange v

/-- Two connections that send the same chunks at the same times are treated alike
if the stacks from which their time stamps come lie far enough in the past, and,
with a clock that does not go back, only then. -/
theorem treatment_iff {W W' : Type} {w : Watcher W} {w' : Watcher W'} (S : Session w)
    (S' : Session w') (hist : S.history = S'.history) (clock : ∀ a ∈ S.history, ClockTime a.2) :
    (Settled S.input.stack.lastMsgTime S.history ∧ Settled S'.input.stack.lastMsgTime S.history →
      Alike S S') ∧
    (S.history.Pairwise (fun a b => a.2 ≤ b.2) → Alike S S' →
      Settled S.input.stack.lastMsgTime S.history ∧
        Settled S'.input.stack.lastMsgTime S.history) := by
  rw [← newClient_lastMsgTime S.input, ← newClient_lastMsgTime S'.input]
  constructor
  · rintro ⟨hs, hs'⟩
    constructor
    · have hout := outcomes_settled hs hs'
      have hlog : S.log = trace treat S.client S.history := S.treated.log
      have hlog' : S'.log = trace treat S'.client S.history := hist ▸ S'.treated.log
      rw [hlog, hlog']
      exact hout
    · have hhead {stamp : ℤ} (h : Settled stamp S.history) :
          ∀ a ∈ S.history.head?, msgCooldown ≤ a.2 - stamp := by
        cases hh : S.history with
        | nil => simp
        | cons a as => simpa using (hh ▸ h : Settled stamp (a :: as)).1
      exact ⟨S.first_iff.mpr (hhead hs), S'.first_iff.mpr (hist ▸ hhead hs')⟩
    · exact ⟨inRange_of_settled hs clock, fun v hv =>
        inRange_of_settled hs' clock v (hist ▸ hv : v ∈ visits treat S'.client S.history)⟩
  · rintro hmono ⟨-, ⟨hfirst, hfirst'⟩, hrange, hrange'⟩
    have hall {c : Client} (h : ∀ a ∈ S.history.head?, c.Allows a.2) :
        ∀ a ∈ S.history, c.Allows a.2 := by
      intro b hb
      cases hh : S.history with
      | nil => simp [hh] at hb
      | cons a as =>
        have ha : c.Allows a.2 := h a (by simp [hh])
        rw [hh] at hb hmono
        rcases List.mem_cons.mp hb with rfl | hb
        · exact ha
        · have hle : a.2 ≤ b.2 := (List.pairwise_cons.mp hmono).1 b hb
          have ha' : a.2 - c.lastMsgTime ≥ msgCooldown := ha
          change b.2 - c.lastMsgTime ≥ msgCooldown
          omega
    refine ⟨settled_of_inRange (hall (S.first_iff.mp hfirst)) hrange, ?_⟩
    have hall' := hall (c := S'.client) (hist ▸ S'.first_iff.mp hfirst')
    exact settled_of_inRange hall' fun v hv =>
      hrange' v (hist ▸ hv : v ∈ visits treat S'.client S'.history)

/-- A first connection that sends one line at time 5. -/
def greetingSession (stamp : ℤ)
    (h : Stays selectWatch (sysStep selectWatch firstState (firstInput stamp)).1 4
      (firstInputs [(lineA, 5)])) : Session selectWatch :=
  firstSession stamp (firstInputs [(lineA, 5)]) h

theorem treatment_zeroes :
    Alike (greetingSession 0 (by decide)) (greetingSession 1 (by decide)) :=
  (treatment_iff (greetingSession 0 (by decide)) (greetingSession 1 (by decide)) (by decide)
    (by decide)).1 (by decide)

/-- A stack that held a later time costs the client its first line, and one that
held the least `time_t` makes the subtraction overflow. -/
theorem treatment_stale :
    (greetingSession 0 (by decide)).history = (greetingSession 10 (by decide)).history ∧
      (greetingSession 0 (by decide)).log.map Entry.outcome ≠
        (greetingSession 10 (by decide)).log.map Entry.outcome ∧
      (∃ e ∈ (greetingSession 10 (by decide)).log.head?, e.outcome = .dropped) ∧
      ¬ ∀ v ∈ (greetingSession (-2 ^ 63) (by decide)).visits, InRange v := by
  decide

end AcademyLab.Chat
