import AcademyLab.Chat.Kernel

/-!
# Who is sent what

In a step of the loop each descriptor is written to at most once. `copyFor` says
from the state before the step and its input which message that is.
-/
namespace AcademyLab.Chat
open Machine CString

/-- The messages written to a descriptor. -/
def sentTo (fd : ℤ) (es : List Event) : List Msg := es.filterMap fun
  | .write fd' msg => if fd' = fd then some msg else none
  | _ => none

/-- A slot holds the descriptor. -/
def Occupied (t : Table) (fd : ℤ) : Prop := ∃ i, (t i).fd = fd

instance (t : Table) (fd : ℤ) : Decidable (Occupied t fd) :=
  inferInstanceAs (Decidable (∃ _ : Slot, _))

/-- What the handler of slot `i` sends to a descriptor at each of its exits. -/
def replyTo (t : Table) (i : Slot) (fd : ℤ) : Outcome → Option Msg
  | .dropped => none
  | .renamed newName => if Occupied t fd then some (.changedName (t i).name newName) else none
  | .rejected _ => if fd = (t i).fd then some .nameRule else none
  | .chatted line =>
    if fd = (t i).fd then some (.you line)
    else if Occupied t fd then some (.chat (t i).name line)
    else none

/-- What a step sends to a descriptor. -/
def copyFor {W : Type} (w : Watcher W) (c : Loop W) (inp : Input) (fd : ℤ) : Option Msg :=
  let t := c.server.clients
  match c.pc with
  | .wait => none
  | .accept =>
    let client := newClient inp
    if w.listenerReady c.server.watch c.server.listenfd then
      match firstFree t with
      | some _ => if Occupied t fd ∨ fd = client.fd then some (.connected client.name) else none
      | none => if fd = client.fd then some .full else none
    else none
  | .scan i =>
    if 0 ≤ (t i).fd ∧ w.clientReady c.server.watch i (t i).fd then
      match inp.read with
      | none => if Occupied t fd ∧ fd ≠ (t i).fd then some (.disconnected (t i).name) else none
      | some chunk => replyTo t i fd ((t i).outcome chunk.data inp.now)
    else none

section Sent
variable {fd : ℤ}

@[simp] theorem sentTo_append (es fs : List Event) :
    sentTo fd (es ++ fs) = sentTo fd es ++ sentTo fd fs := List.filterMap_append

@[simp] theorem sentTo_write (fd' : ℤ) (msg : Msg) :
    sentTo fd [.write fd' msg] = if fd = fd' then [msg] else [] := by
  by_cases h : fd = fd'
  · simp [sentTo, h]
  · simp [sentTo, h, Ne.symm h]

@[simp] theorem sentTo_fdSet (fds : List ℤ) : sentTo fd (fds.map .fdSet) = [] := by
  rw [sentTo, List.filterMap_eq_nil_iff]
  intro e he
  obtain ⟨x, -, rfl⟩ := List.mem_map.mp he
  rfl

theorem mem_sentTo {es : List Event} {msg : Msg} :
    msg ∈ sentTo fd es ↔ .write fd msg ∈ es := by
  induction es with
  | nil => simp [sentTo]
  | cons e es ih =>
    have hcons : sentTo fd (e :: es) = sentTo fd [e] ++ sentTo fd es := sentTo_append [e] es
    have he : msg ∈ sentTo fd [e] ↔ .write fd msg = e := by
      cases e with
      | write fd' msg' =>
        rw [sentTo_write]
        by_cases h : fd = fd'
        · simp [h]
        · simp [h]
      | _ => simp [sentTo]
    rw [hcons, List.mem_append, List.mem_cons, he, ih]

theorem sentTo_writes (t : Table) (msg : Msg) (l : List Slot) :
    sentTo fd (l.map fun j => .write (t j).fd msg) =
      (l.filter fun j => (t j).fd = fd).map fun _ => msg := by
  induction l with
  | nil => rfl
  | cons j l ih =>
    by_cases hj : (t j).fd = fd
    · simpa [sentTo, hj] using ih
    · simpa [sentTo, hj] using ih

/-- A broadcast reaches a client once, unless it is left out. -/
theorem sentTo_broadcastMsg {t : Table} (hd : Distinct (fds t)) (h0 : 0 ≤ fd) (msg : Msg)
    (exceptfd : ℤ) : sentTo fd (broadcastMsg t msg exceptfd) =
      if Occupied t fd ∧ fd ≠ exceptfd then [msg] else [] := by
  unfold broadcastMsg
  rw [sentTo_writes, List.filter_filter]
  by_cases h : Occupied t fd ∧ fd ≠ exceptfd
  · obtain ⟨⟨i, rfl⟩, hx⟩ := h
    have hm : (t i).fd ≠ -1 := by omega
    have hfilter (j : Slot) : (decide ((t j).fd = (t i).fd) &&
        decide ((t j).fd ≠ -1 ∧ (t j).fd ≠ exceptfd)) = decide (j = i) := by
      by_cases hj : j = i
      · subst hj
        simp [hm, hx]
      · have hne : (t j).fd ≠ (t i).fd := fun he => hj (hd i j h0 he.symm).symm
        simp [hj, hne]
    have hone : (List.finRange maxClients).count i = 1 :=
      List.count_eq_one_of_mem (List.nodup_finRange _) (List.mem_finRange i)
    simp only [hfilter]
    rw [List.filter_eq, hone, if_pos ⟨⟨i, rfl⟩, hx⟩]
    rfl
  · have hnone : (List.finRange maxClients).filter (fun j => decide ((t j).fd = fd) &&
        decide ((t j).fd ≠ -1 ∧ (t j).fd ≠ exceptfd)) = [] := by
      rw [List.filter_eq_nil_iff]
      intro j _
      simp only [Bool.and_eq_true, decide_eq_true_eq, not_and]
      intro he _ hx
      exact h ⟨⟨j, he⟩, he ▸ hx⟩
    rw [hnone, if_neg h]
    rfl

theorem sentTo_everyone {t : Table} (hd : Distinct (fds t)) (h0 : 0 ≤ fd) (msg : Msg) :
    sentTo fd (broadcastMsg t msg (-1)) = if Occupied t fd then [msg] else [] := by
  have hm : fd ≠ -1 := by omega
  rw [sentTo_broadcastMsg hd h0]
  simp [hm]

end Sent

section Tables
variable {t : Table} {i : Slot} {fd : ℤ} {client : Client}

theorem occupied_congr {t' : Table} (h : fds t' = fds t) : Occupied t' fd ↔ Occupied t fd := by
  have hi (i : Slot) : (t' i).fd = (t i).fd := congrFun h i
  simp only [Occupied, hi]

/-- A free slot is taken. -/
theorem occupied_add (hi : (t i).fd < 0) (h0 : 0 ≤ fd) :
    Occupied (Function.update t i client) fd ↔ Occupied t fd ∨ fd = client.fd := by
  constructor
  · rintro ⟨j, hj⟩
    by_cases hji : j = i
    · subst hji
      rw [Function.update_self] at hj
      exact .inr hj.symm
    · rw [Function.update_of_ne hji] at hj
      exact .inl ⟨j, hj⟩
  · rintro (⟨j, hj⟩ | rfl)
    · have hji : j ≠ i := by
        rintro rfl
        omega
      exact ⟨j, by rw [Function.update_of_ne hji, hj]⟩
    · exact ⟨i, by rw [Function.update_self]⟩

/-- A slot becomes free. -/
theorem occupied_leave (hd : Distinct (fds t)) (hi : 0 ≤ (t i).fd) (h0 : 0 ≤ fd) :
    Occupied (Function.update t i { t i with fd := -1 }) fd ↔
      Occupied t fd ∧ fd ≠ (t i).fd := by
  constructor
  · rintro ⟨j, hj⟩
    have hji : j ≠ i := by
      rintro rfl
      rw [Function.update_self] at hj
      change -1 = fd at hj
      omega
    rw [Function.update_of_ne hji] at hj
    exact ⟨⟨j, hj⟩, fun he => hji (hd i j hi (he.symm.trans hj.symm)).symm⟩
  · rintro ⟨⟨j, hj⟩, hne⟩
    have hji : j ≠ i := by
      rintro rfl
      exact hne hj.symm
    exact ⟨j, by rw [Function.update_of_ne hji, hj]⟩

end Tables

/-! ## The blocks -/

section Blocks
variable {W : Type} {w : Watcher W} {fd : ℤ} {s : Server W} {t : Table} {i : Slot}

theorem sentTo_addClient {client : Client}
    (hd : Distinct (fds (Function.update s.clients i client))) (h0 : 0 ≤ fd) :
    sentTo fd (acceptCall client ++ (addClient w s i client).2) =
      if Occupied (Function.update s.clients i client) fd then [.connected client.name]
      else [] := by
  simp only [addClient, sentTo_append, sentTo_fdSet]
  exact sentTo_everyone hd h0 _

theorem sentTo_refuse (client : Client) :
    sentTo fd (acceptCall client ++ refuse client) = if fd = client.fd then [.full] else [] := by
  simp only [refuse, sendMsg, sentTo_append, sentTo_write]
  split_ifs <;> rfl

theorem sentTo_leave
    (hd : Distinct (fds (Function.update s.clients i { s.clients i with fd := -1 })))
    (h0 : 0 ≤ fd) :
    sentTo fd (.read (s.clients i).fd :: (leave w s i).2) =
      if Occupied (Function.update s.clients i { s.clients i with fd := -1 }) fd
      then [.disconnected (s.clients i).name] else [] := by
  change sentTo fd (leave w s i).2 = _
  simp only [leave, sentTo_append, sentTo_fdSet]
  exact sentTo_everyone hd h0 _

theorem sentTo_receive (hd : Distinct (fds t)) (h0 : 0 ≤ fd) (data : Bytes) (now : ℤ) :
    sentTo fd (receive t i data now).2 =
      (replyTo t i fd ((t i).outcome data now)).toList := by
  have hcut : sentTo fd (cutEvents t i data now) = [] := rfl
  have hexit (o : Outcome) : sentTo fd [.chunk (t i).fd data now o] = [] := rfl
  rw [receive_eq]
  cases (t i).outcome data now with
  | dropped => rfl
  | renamed newName =>
    have hfds : fds (changeName t i newName).1 = fds t :=
      (fds_update t i _).trans (Function.update_eq_self i (fds t))
    have hrest : sentTo fd (changeName t i newName).2 =
        if Occupied t fd then [.changedName (t i).name newName] else [] := by
      have hsent := sentTo_everyone (hfds.symm ▸ hd) h0 (.changedName (t i).name newName)
      simp only [occupied_congr hfds] at hsent
      simp only [changeName, sentTo_append]
      exact hsent
    simp only [receiveWith, replyTo, sentTo_append, hcut, hexit, hrest]
    split_ifs <;> rfl
  | rejected newName =>
    have hstore : sentTo fd [sprintf .nameRule] = [] := rfl
    simp only [receiveWith, replyTo, rejectName, sendMsg, sentTo_append, sentTo_write, hcut, hexit,
      hstore]
    split_ifs <;> rfl
  | chatted line =>
    have hstore (msg : Msg) : sentTo fd [sprintf msg] = [] := rfl
    have hprint (msg : Msg) : sentTo fd [.print msg] = [] := rfl
    simp only [receiveWith, replyTo, chatLine, sendMsg, sentTo_append, sentTo_write, hcut, hexit,
      hstore, hprint, sentTo_broadcastMsg hd h0]
    by_cases hown : fd = (t i).fd
    · simp [hown]
    · by_cases hocc : Occupied t fd
      · simp [hown, hocc]
      · simp [hown, hocc]

end Blocks

/-- A step sends each descriptor its copy and nothing else. -/
theorem sentTo_sysStep {W : Type} {w : Watcher W} {s : System W} (hs : s.Sound) {inp : Input}
    (hl : Legal w s inp) {fd : ℤ} (h0 : 0 ≤ fd) :
    sentTo fd (sysStep w s inp).2 = (copyFor w s.loop inp fd).toList := by
  have hd' := (sound_sysStep w s inp hs hl).distinct
  obtain ⟨⟨pc, s⟩, k⟩ := s
  have hd : Distinct (fds s.clients) := hs.distinct
  cases pc with
  | wait => rfl
  | accept =>
    cases hr : w.listenerReady s.watch s.listenfd with
    | false => simp [sysStep, step_noConnection inp hr, copyFor, hr, sentTo]
    | true =>
      cases hf : firstFree s.clients with
      | none =>
        simp only [sysStep, step_refuse inp hr hf, copyFor, hr, hf, sentTo_refuse, if_true]
        split_ifs <;> rfl
      | some i =>
        simp only [sysStep, step_add inp hr hf] at hd' ⊢
        rw [sentTo_addClient hd' h0]
        simp only [occupied_add (firstFree_some hf) h0, copyFor, hr, hf, if_true]
        split_ifs <;> rfl
  | scan i =>
    by_cases hfd : (s.clients i).fd < 0
    · simp [sysStep, step_idle inp (.inl hfd), copyFor, not_le.mpr hfd, sentTo]
    cases hr : w.clientReady s.watch i (s.clients i).fd with
    | false => simp [sysStep, step_idle inp (.inr hr), copyFor, hr, sentTo]
    | true =>
      have hi := not_lt.mp hfd
      cases hc : inp.read with
      | none =>
        simp only [sysStep, step_leave inp hi hr hc] at hd' ⊢
        rw [sentTo_leave hd' h0]
        simp only [occupied_leave hd hi h0, copyFor, hr, hc, hi, and_self, if_true]
        split_ifs <;> rfl
      | some chunk =>
        simp only [sysStep, step_receive inp hi hr hc, copyFor, hr, hc, hi, and_self, if_true]
        exact sentTo_receive hd h0 chunk.data inp.now

end AcademyLab.Chat
