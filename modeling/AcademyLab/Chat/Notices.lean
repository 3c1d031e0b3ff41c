import AcademyLab.Chat.Delivery
import AcademyLab.Chat.Session
import AcademyLab.Roster

/-!
# The notices a client gets

A client that knows the names in the room when it is accepted and reads the
notices of the server always knows them.
-/
namespace AcademyLab.Chat
open Machine CString Roster

/-- What a message says about who is there. -/
def Msg.notice : Msg → Option (Notice Bytes)
  | .connected name => some (.joined name)
  | .disconnected name => some (.left name)
  | .changedName oldName newName => some (.renamed oldName newName)
  | .nameRule | .you _ | .chat _ _ | .full | .refused _ => none

def noticesTo (fd : ℤ) (es : List Event) : List (Notice Bytes) :=
  (sentTo fd es).filterMap Msg.notice

/-- The names of the occupied slots. -/
def names (t : Table) : Slot → Option Bytes :=
  fun i => if 0 ≤ (t i).fd then some (t i).name else none

section Names
variable {t : Table} {i : Slot} {c : Client}

theorem names_of_nonneg (h : 0 ≤ (t i).fd) : names t i = some (t i).name := if_pos h

theorem names_of_neg (h : (t i).fd < 0) : names t i = none := if_neg (not_le.mpr h)

theorem names_update (t : Table) (i : Slot) (c : Client) : names (Function.update t i c) =
    Function.update (names t) i (if 0 ≤ c.fd then some c.name else none) := by
  ext1 j
  by_cases hj : j = i
  · subst hj
    simp [names]
  · simp [names, hj]

/-- Writing back the same name changes nobody's name. -/
theorem names_update_same (hfd : c.fd = (t i).fd) (hname : c.name = (t i).name) :
    names (Function.update t i c) = names t := by
  rw [names_update, hfd, hname]
  exact Function.update_eq_self _ _

end Names

section Steps
variable {W : Type} {w : Watcher W} {fd : ℤ}

theorem noticesTo_append (es fs : List Event) :
    noticesTo fd (es ++ fs) = noticesTo fd es ++ noticesTo fd fs := by
  simp [noticesTo]

/-- The handler of a chunk tells everyone of a new name and of nothing else. -/
theorem follow_receive {t : Table} {i : Slot} (hi : 0 ≤ (t i).fd) (hocc : Occupied t fd)
    (data : Bytes) (now : ℤ) :
    follow (room (names t))
        ((replyTo t i fd ((t i).outcome data now)).toList.filterMap Msg.notice) =
      some (room (names (receive t i data now).1)) := by
  rw [receive_eq]
  cases (t i).outcome data now with
  | dropped => rfl
  | renamed newName =>
    simp only [replyTo, if_pos hocc]
    change follow _ [.renamed (t i).name newName] =
      some (room (names (Function.update t i { t i with name := newName })))
    rw [follow_singleton, names_update, if_pos hi]
    exact apply_renamed (names_of_nonneg hi)
  | rejected newName =>
    simp only [replyTo]
    split_ifs <;> rfl
  | chatted line =>
    have hnames : names (chatLine t i line now).1 = names t := names_update_same rfl rfl
    simp only [replyTo, receiveWith, hnames, if_pos hocc]
    split_ifs <;> rfl

/-- Whoever holds a slot after a step can follow the step by its notices. -/
theorem follow_sysStep {s : System W} (hs : s.Sound) {inp : Input} (hl : Legal w s inp)
    (ha : AcceptSucceeds w s inp) (h0 : 0 ≤ fd)
    (hocc : Occupied (sysStep w s inp).1.loop.server.clients fd) :
    follow (room (names s.loop.server.clients)) (noticesTo fd (sysStep w s inp).2) =
      some (room (names (sysStep w s inp).1.loop.server.clients)) := by
  rw [noticesTo, sentTo_sysStep hs hl h0]
  obtain ⟨c, k⟩ := s
  have ht := transition w c inp
  simp only [sysStep] at hocc ⊢
  generalize step w c inp = r at ht hocc ⊢
  cases ht with
  | wait => rfl
  | noConnection s inp hr => simp [copyFor, hr]
  | idle s inp i h =>
    have hnot : ¬ (0 ≤ (s.clients i).fd ∧ w.clientReady s.watch i (s.clients i).fd = true) := by
      rintro ⟨hi, hr⟩
      rcases h with h | h
      · omega
      · simp [hr] at h
    simp only [copyFor, if_neg hnot]
    rfl
  | refuse s inp hr hn =>
    simp only [copyFor, hr, hn, if_true]
    split_ifs <;> rfl
  | add s inp i hr hi =>
    obtain ⟨conn, hconn⟩ := Option.ne_none_iff_exists'.mp (ha rfl hr)
    have hfd : 0 ≤ (newClient inp).fd := by
      rw [newClient_fd_some hconn]
      exact Int.natCast_nonneg _
    have hold := (occupied_add (firstFree_some hi) h0).mp hocc
    simp only [copyFor, hr, hi, if_true, if_pos hold]
    change follow _ [.joined (newClient inp).name] =
      some (room (names (Function.update s.clients i (newClient inp))))
    rw [follow_singleton, names_update, if_pos hfd]
    exact apply_joined (names_of_neg (firstFree_some hi))
  | leave s inp i hi hr hn =>
    have hold := (occupied_leave hs.distinct hi h0).mp hocc
    simp only [copyFor, hr, hn, hi, and_self, if_true, if_pos hold]
    change follow _ [.left (s.clients i).name] =
      some (room (names (Function.update s.clients i { s.clients i with fd := -1 })))
    rw [follow_singleton, names_update, if_neg (show ¬ (0 : ℤ) ≤ -1 by decide)]
    exact apply_left (names_of_nonneg hi)
  | receive s inp i chunk hi hr hc =>
    have hold : Occupied s.clients fd := (occupied_congr (fds_receive _ _ _ _)).mp hocc
    simp only [copyFor, hr, hc, hi, and_self, if_true]
    exact follow_receive hi hold chunk.data inp.now

theorem follow_run {s : System W} (hs : s.Sound) {i : Slot}
    (hi : 0 ≤ (s.loop.server.clients i).fd) {is : List Input}
    (h : Stays w s (s.loop.server.clients i).fd is)
    (ha : Along (sysStep w) (AcceptSucceeds w) s is) :
    follow (room (names s.loop.server.clients))
        (noticesTo (s.loop.server.clients i).fd (trace (sysStep w) s is)) =
      some (room (names (exec (sysStep w) s is).loop.server.clients)) := by
  induction is generalizing s with
  | nil => rfl
  | cons inp is ih =>
    have hopen := h.opened
    rw [trace_cons, List.mem_append, not_or] at hopen
    have hfd := (treated_sysStep hs hi inp hopen.1).1
    have hs' := sound_sysStep w s inp hs h.legal.1
    have hstep := follow_sysStep hs h.legal.1 ha.1 hi ⟨i, hfd⟩
    have hrun := ih hs' (hfd ▸ hi) ⟨h.legal.2, hfd ▸ hopen.2⟩ ha.2
    rw [hfd] at hrun
    rw [trace_cons, noticesTo_append, follow_append hstep]
    exact hrun

end Steps

/-- A connection that knows the names in the room before its acceptance first gets
its own notice, and by its notices it knows the names in the room ever after. -/
theorem notices_follow_room {W : Type} {w : Watcher W} (S : Session w)
    (ha : Along (sysStep w) (AcceptSucceeds w) S.start S.inputs) :
    (sentTo S.conn.fd (sysStep w S.state S.input).2).head? = some (.connected S.client.name) ∧
      follow (room (names S.state.loop.server.clients))
          (noticesTo S.conn.fd ((sysStep w S.state S.input).2 ++ S.events)) =
        some (room (names S.final.loop.server.clients)) := by
  have h0 : (0 : ℤ) ≤ S.conn.fd := Int.natCast_nonneg _
  have hi : 0 ≤ (S.start.loop.server.clients S.slot).fd := S.start_fd ▸ h0
  have hocc : Occupied S.start.loop.server.clients S.conn.fd := ⟨S.slot, S.start_fd⟩
  constructor
  · have hcopy : copyFor w S.state.loop S.input S.conn.fd = some (.connected S.client.name) := by
      have hfd : (newClient S.input).fd = S.conn.fd := newClient_fd_some S.joins.conn
      simp [copyFor, S.joins.pc, S.joins.ready, S.joins.free, hfd, Session.client]
    rw [sentTo_sysStep S.inRun.sound S.legal h0, hcopy]
    rfl
  · have hstep := follow_sysStep S.inRun.sound S.legal (fun _ _ => by simp [S.joins.conn]) h0 hocc
    have hrun := follow_run S.start_sound hi (S.start_fd ▸ S.stays) ha
    rw [S.start_fd] at hrun
    rw [noticesTo_append, follow_append hstep]
    exact hrun

/-- While the first client stays, another one connects, takes a name and leaves. -/
def visitorSession : Session selectWatch :=
  firstSession 0
    (firstInputs [] ++ iteration {3} (some ⟨5, default⟩) default (fun _ => none) 0 ++
      iteration {5} none default (fun _ => some renameB) 1 ++
      iteration {5} none default (fun _ => none) 2) (by decide)

theorem notices_follow_room_visitor :
    (sentTo 4 (sysStep selectWatch visitorSession.state visitorSession.input).2).head? =
        some (.connected visitorSession.client.name) ∧
      follow (room (names visitorSession.state.loop.server.clients))
          (noticesTo 4 ((sysStep selectWatch visitorSession.state visitorSession.input).2 ++
            visitorSession.events)) =
        some (room (names visitorSession.final.loop.server.clients)) :=
  notices_follow_room visitorSession (by decide)

example : noticesTo 4 visitorSession.events =
    [.joined (ascii "0.0.0.0:0"), .renamed (ascii "0.0.0.0:0") (ascii "b"), .left (ascii "b")] := by
  decide

end AcademyLab.Chat
