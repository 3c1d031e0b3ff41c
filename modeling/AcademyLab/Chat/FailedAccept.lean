import AcademyLab.Chat.Delivery
import AcademyLab.Chat.Readiness

/-!
# A failed `accept`

The -1 of a failed `accept` is also the mark of a free slot. While a slot is free,
the failed connection is stored, watched and announced like a client; only a full
table keeps it out.
-/
namespace AcademyLab.Chat
open Machine

/-- The descriptor is open. -/
def Kernel.Open (k : Kernel) (fd : ℤ) : Prop := 0 ≤ fd ∧ (k.owner fd ≠ none ∨ fd ∈ k.others)

/-- The mark of a free slot is -1. -/
def Marked (clients : Table) : Prop := ∀ i, fds clients i = -1 ∨ 0 ≤ fds clients i

section Failing
variable {W : Type} {w : Watcher W}

/-- The step calls `accept`, and that fails. -/
def AcceptFails (w : Watcher W) (s : System W) (inp : Input) : Prop :=
  s.loop.pc = .accept ∧ w.listenerReady s.loop.server.watch s.loop.server.listenfd = true ∧
    inp.accept = none

instance (w : Watcher W) (s : System W) (inp : Input) : Decidable (AcceptFails w s inp) :=
  inferInstanceAs (Decidable (_ ∧ _ ∧ _))

/-- The step changes neither the table nor the watched descriptors nor which
descriptors are open, marks no negative descriptor and writes to nobody. -/
structure LeftAsItWas (w : Watcher W) (s : System W) (inp : Input) : Prop where
  table : (sysStep w s inp).1.loop.server.clients = s.loop.server.clients
  watch : (sysStep w s inp).1.loop.server.watch = s.loop.server.watch
  opened : ∀ fd, (sysStep w s inp).1.kernel.Open fd ↔ s.kernel.Open fd
  marks : ∀ fd, .fdSet fd ∈ (sysStep w s inp).2 → 0 ≤ fd
  writes : ∀ fd, 0 ≤ fd → sentTo fd (sysStep w s inp).2 = []

/-- Nobody is connected, and what the failed connection leaves behind is there
already. -/
structure Repeats (w : Watcher W) (s : Server W) (inp : Input) : Prop where
  free : ∀ i, (s.clients i).fd < 0
  client : s.clients firstSlot = newClient inp
  watch : (w.add s.watch firstSlot (-1)).1 = s.watch
  marks : ∀ fd ∈ (w.add s.watch firstSlot (-1)).2, 0 ≤ fd

theorem newClient_fd (inp : Input) : (newClient inp).fd = -1 ∨ 0 ≤ (newClient inp).fd := by
  cases ha : inp.accept with
  | none => exact .inl (newClient_fd_none ha)
  | some conn =>
    rw [newClient_fd_some ha]
    exact .inr (Int.natCast_nonneg _)

theorem marked_sysStep {s : System W} (h : Marked s.loop.server.clients) (inp : Input) :
    Marked (sysStep w s inp).1.loop.server.clients := by
  obtain ⟨c, k⟩ := s
  have ht := transition w c inp
  simp only [sysStep, Marked] at h ⊢
  generalize step w c inp = r at ht ⊢
  cases ht with
  | wait => exact h
  | noConnection => exact h
  | idle => exact h
  | refuse => exact h
  | add s _ i =>
    change ∀ j, fds (Function.update s.clients i (newClient inp)) j = -1 ∨
      0 ≤ fds (Function.update s.clients i (newClient inp)) j
    rw [fds_update]
    exact free_update h (newClient_fd inp)
  | leave s _ i =>
    change ∀ j, fds (Function.update s.clients i { s.clients i with fd := -1 }) j = -1 ∨
      0 ≤ fds (Function.update s.clients i { s.clients i with fd := -1 }) j
    rw [fds_update]
    exact free_update h (.inl rfl)
  | receive s _ i chunk =>
    rw [fds_receive]
    exact h

theorem marked_boot (listenfd : ℕ) (watch : W) (mem : Table) (inherited : Finset ℤ) :
    Marked (System.boot listenfd watch mem inherited).loop.server.clients := fun _ => .inl rfl

/-- In an empty table the first slot is taken. -/
theorem firstFree_empty {clients : Table} (h : ∀ i, (clients i).fd < 0) :
    firstFree clients = some firstSlot :=
  List.find?_cons_of_pos (decide_eq_true (h firstSlot))

/-- Closing the descriptor -1 closes nothing. -/
theorem Kernel.open_close_invalid (k : Kernel) (fd : ℤ) :
    (k.apply (.close (-1))).Open fd ↔ k.Open fd := by
  refine and_congr_right fun h0 => ?_
  have hne : fd ≠ -1 := by
    rintro rfl
    exact absurd h0 (by decide)
  cases hc : k.owner (-1) with
  | none =>
    rw [Kernel.apply_close_none hc]
    simp [hne]
  | some c =>
    rw [Kernel.apply_close hc]
    simp [hne]

/-- Each slot that is not free after a connection was stored is told of it. -/
theorem write_mem_added (w : Watcher W) (s : Server W) (i : Slot) (client : Client) {fd : ℤ}
    {msg : Msg} :
    .write fd msg ∈ acceptCall client ++ (addClient w s i client).2 ↔
      msg = .connected client.name ∧
        ∃ j, (Function.update s.clients i client j).fd ≠ -1 ∧
          (Function.update s.clients i client j).fd = fd := by
  simp only [acceptCall, addClient, sprintf, List.mem_append, List.mem_cons, List.not_mem_nil,
    List.mem_map, reduceCtorEq, and_false, exists_false, or_false, false_or, mem_broadcastMsg,
    Event.write.injEq]
  constructor
  · rintro ⟨j, hj, -, rfl, rfl⟩
    exact ⟨rfl, j, hj, rfl⟩
  · rintro ⟨rfl, j, hj, rfl⟩
    exact ⟨j, hj, hj, rfl, rfl⟩

theorem mark_mem_added (w : Watcher W) (s : Server W) (i : Slot) (client : Client) {fd : ℤ} :
    .fdSet fd ∈ acceptCall client ++ (addClient w s i client).2 ↔
      fd ∈ (w.add s.watch i client.fd).2 := by
  simp [acceptCall, addClient, sprintf, mem_broadcastMsg]

section Call
variable {s : Server W} {k : Kernel} {inp : Input}

/-- With a full table the descriptor -1 is written to and closed, to no effect. -/
theorem leftAsItWas_full (hready : w.listenerReady s.watch s.listenfd = true)
    (hnone : inp.accept = none) (hfull : firstFree s.clients = none) :
    LeftAsItWas w ⟨⟨.accept, s⟩, k⟩ inp := by
  have hfd := newClient_fd_none hnone
  constructor <;> simp only [sysStep, step_refuse inp hready hfull]
  · intro fd
    rw [Kernel.replay_accepted, replay_refuse, hfd]
    exact k.open_close_invalid fd
  · intro fd hmem
    simp [acceptCall, refuse, sendMsg] at hmem
  · intro fd h0
    rw [sentTo_refuse, hfd, if_neg]
    rintro rfl
    exact absurd h0 (by decide)

theorem Repeats.leftAsItWas (h : Repeats w s inp)
    (hready : w.listenerReady s.watch s.listenfd = true) (hnone : inp.accept = none) :
    LeftAsItWas w ⟨⟨.accept, s⟩, k⟩ inp := by
  have hfd := newClient_fd_none hnone
  have hsame : Function.update s.clients firstSlot (newClient inp) = s.clients := by
    rw [← h.client, Function.update_eq_self]
  constructor <;> simp only [sysStep, step_add inp hready (firstFree_empty h.free)]
  · exact hsame
  · rw [addClient, hfd]
    exact h.watch
  · intro fd
    rw [Kernel.replay_accepted, replay_addClient, hfd]
    rfl
  · intro fd hmem
    rw [mark_mem_added, hfd] at hmem
    exact h.marks fd hmem
  · intro fd h0
    rw [List.eq_nil_iff_forall_not_mem]
    intro msg hmsg
    rw [mem_sentTo, write_mem_added, hsame] at hmsg
    obtain ⟨-, j, -, rfl⟩ := hmsg
    exact absurd (h.free j) (not_lt.2 h0)

/-- A client that is connected would be told of the failed connection. -/
theorem LeftAsItWas.empty (h : LeftAsItWas w ⟨⟨.accept, s⟩, k⟩ inp)
    (hready : w.listenerReady s.watch s.listenfd = true) {i : Slot}
    (hfree : firstFree s.clients = some i) (j : Slot) : (s.clients j).fd < 0 := by
  by_contra hj
  have hji : j ≠ i := by
    rintro rfl
    exact hj (firstFree_some hfree)
  have hother : Function.update s.clients i (newClient inp) j = s.clients j :=
    Function.update_of_ne hji _ _
  have hne : (s.clients j).fd ≠ -1 := by omega
  have htold := (write_mem_added w s i (newClient inp)).2 ⟨rfl, j, by rwa [hother], rfl⟩
  have hsilent := h.writes _ (not_lt.1 hj)
  simp only [sysStep, step_add inp hready hfree] at hsilent
  rw [hother, ← mem_sentTo, hsilent] at htold
  exact List.not_mem_nil htold

theorem LeftAsItWas.repeats (h : LeftAsItWas w ⟨⟨.accept, s⟩, k⟩ inp)
    (hready : w.listenerReady s.watch s.listenfd = true) (hnone : inp.accept = none) {i : Slot}
    (hfree : firstFree s.clients = some i) : Repeats w s inp := by
  have hfd := newClient_fd_none hnone
  have hempty := h.empty hready hfree
  obtain rfl : i = firstSlot := Option.some.inj (hfree.symm.trans (firstFree_empty hempty))
  obtain ⟨htable, hwatch, -, hmarks, -⟩ := h
  simp only [sysStep, step_add inp hready hfree] at htable hwatch hmarks
  refine ⟨hempty, ?_, ?_, ?_⟩
  · have hstored : Function.update s.clients firstSlot (newClient inp) firstSlot =
        s.clients firstSlot := congrFun htable firstSlot
    rw [Function.update_self] at hstored
    exact hstored.symm
  · rw [← hfd]
    exact hwatch
  · intro fd hmem
    rw [← hfd] at hmem
    exact hmarks fd ((mark_mem_added w s firstSlot (newClient inp)).2 hmem)

end Call

/-- A failed `accept` does nothing just when the table is full or it repeats what
is there. -/
theorem leftAsItWas_iff {s : System W} {inp : Input} (h : AcceptFails w s inp) :
    LeftAsItWas w s inp ↔
      (∀ i, 0 ≤ (s.loop.server.clients i).fd) ∨ Repeats w s.loop.server inp := by
  obtain ⟨⟨pc, s⟩, k⟩ := s
  obtain ⟨hpc, hready, hnone⟩ := h
  obtain rfl : pc = .accept := hpc
  cases hf : firstFree s.clients with
  | none =>
    exact iff_of_true (leftAsItWas_full hready hnone hf) (.inl (firstFree_none.1 hf))
  | some i =>
    constructor
    · exact fun hleft => .inr (hleft.repeats hready hnone hf)
    · rintro (hfull | hrepeats)
      · exact absurd (firstFree_some hf) (not_lt.2 (hfull i))
      · exact hrepeats.leftAsItWas hready hnone

/-- In a run the failed calls do nothing just when each of them meets the condition
that decides it for one call. -/
theorem leftAsItWas_run {Cond : System W → Input → Prop}
    (hcond : ∀ s inp, Marked s.loop.server.clients → AcceptFails w s inp →
      ((∀ i, 0 ≤ (s.loop.server.clients i).fd) ∨ Repeats w s.loop.server inp ↔ Cond s inp))
    (listenfd : ℕ) (watch : W) (mem : Table) (inherited : Finset ℤ) (is : List Input) :
    Along (sysStep w) (fun s inp => AcceptFails w s inp → LeftAsItWas w s inp)
        (System.boot listenfd watch mem inherited) is ↔
      Along (sysStep w) (fun s inp => AcceptFails w s inp → Cond s inp)
        (System.boot listenfd watch mem inherited) is := by
  have hequiv (s : System W) (inp : Input) (hs : Marked s.loop.server.clients) :
      (AcceptFails w s inp → LeftAsItWas w s inp) ↔ (AcceptFails w s inp → Cond s inp) :=
    forall_congr' fun h => (leftAsItWas_iff h).trans (hcond s inp hs h)
  exact along_iff hequiv (fun _ inp hs _ => marked_sysStep hs inp)
    (marked_boot listenfd watch mem inherited) is

end Failing

/-- Nobody is connected, and the first slot and its entry hold what the failed
`accept` leaves in them. -/
structure Restores (s : Server Pollfds) (inp : Input) : Prop where
  free : ∀ i, (s.clients i).fd = -1
  addr : (s.clients firstSlot).addr = inp.stack.addr
  name : (s.clients firstSlot).name = addrToStr inp.stack.addr nameSize
  lastMsgTime : (s.clients firstSlot).lastMsgTime = inp.stack.lastMsgTime
  entry : (s.watch firstSlot.castSucc).fd = -1 ∧ (s.watch firstSlot.castSucc).events = true

theorem not_repeats_select (s : Server FdSets) (inp : Input) : ¬ Repeats selectWatch s inp := by
  intro h
  have hmark := h.marks (-1) (List.mem_singleton_self _)
  exact absurd hmark (by decide)

theorem repeats_poll_iff {s : Server Pollfds} (hmarked : Marked s.clients) {inp : Input}
    (hnone : inp.accept = none) : Repeats pollWatch s inp ↔ Restores s inp := by
  have hnew : newClient inp =
      ⟨-1, inp.stack.addr, addrToStr inp.stack.addr nameSize, inp.stack.lastMsgTime⟩ := by
    rw [newClient, hnone]
  constructor
  · rintro ⟨hfree, hclient, hwatch, -⟩
    have hentry : { s.watch firstSlot.castSucc with fd := -1, events := true } =
        s.watch firstSlot.castSucc := by
      have hstored : Function.update s.watch firstSlot.castSucc
          { s.watch firstSlot.castSucc with fd := -1, events := true } firstSlot.castSucc =
            s.watch firstSlot.castSucc := congrFun hwatch firstSlot.castSucc
      rwa [Function.update_self] at hstored
    rw [hnew] at hclient
    refine ⟨fun i => (hmarked i).resolve_right (not_le.2 (hfree i)), ?_, ?_, ?_, ?_⟩
    · rw [hclient]
    · rw [hclient]
    · rw [hclient]
    · rw [← hentry]
      exact ⟨rfl, rfl⟩
  · rintro ⟨hfree, haddr, hname, htime, hfd, hevents⟩
    refine ⟨fun i => ?_, ?_, ?_, ?_⟩
    · rw [hfree i]
      decide
    · rw [hnew, ← hname, ← haddr, ← htime, ← hfree firstSlot]
    · have hentry : { s.watch firstSlot.castSucc with fd := -1, events := true } =
          s.watch firstSlot.castSucc := by rw [← hfd, ← hevents]
      exact (congrArg _ hentry).trans (Function.update_eq_self _ _)
    · intro fd hmem
      exact absurd hmem List.not_mem_nil

/-- A failed `accept` leaves a server as it was in a whole run just when each failed
call meets a full table; with `poll()` also when it only stores again what an
earlier one left in an empty table. -/
theorem failed_accept (listenfd : ℕ) (pmem : Pollfds) (mem : Table) (inherited : Finset ℤ)
    (is : List Input) :
    (Along (sysStep selectWatch)
        (fun s inp => AcceptFails selectWatch s inp → LeftAsItWas selectWatch s inp)
        (System.boot listenfd (FdSets.init listenfd) mem inherited) is ↔
      Along (sysStep selectWatch)
        (fun s inp => AcceptFails selectWatch s inp → ∀ i, 0 ≤ (s.loop.server.clients i).fd)
        (System.boot listenfd (FdSets.init listenfd) mem inherited) is) ∧
    (Along (sysStep pollWatch)
        (fun s inp => AcceptFails pollWatch s inp → LeftAsItWas pollWatch s inp)
        (System.boot listenfd (pollInit listenfd pmem) mem inherited) is ↔
      Along (sysStep pollWatch)
        (fun s inp => AcceptFails pollWatch s inp →
          (∀ i, 0 ≤ (s.loop.server.clients i).fd) ∨ Restores s.loop.server inp)
        (System.boot listenfd (pollInit listenfd pmem) mem inherited) is) := by
  constructor
  · exact leftAsItWas_run (fun s inp _ _ => or_iff_left (not_repeats_select _ inp))
      listenfd _ mem inherited is
  · exact leftAsItWas_run (fun s inp hs h => or_congr_right (repeats_poll_iff hs h.2.2))
      listenfd _ mem inherited is

/-- One client, and a call that fails. -/
def failing : List Input :=
  iteration {3} (some ⟨4, default⟩) default (fun _ => none) 0 ++
    [{ (default : Input) with ready := {3} }, default]

/-- The client is told that 0.0.0.0:0 has connected. -/
theorem failed_accept_announced :
    (¬ ∀ is, Along (sysStep selectWatch) (Legal selectWatch)
        (System.boot 3 (FdSets.init 3) default {0, 1, 2}) is →
      Along (sysStep selectWatch)
        (fun s inp => AcceptFails selectWatch s inp → LeftAsItWas selectWatch s inp)
        (System.boot 3 (FdSets.init 3) default {0, 1, 2}) is) ∧
    ¬ ∀ is, Along (sysStep pollWatch) (Legal pollWatch)
        (System.boot 3 (pollInit 3 fun _ => ⟨-1, false, false⟩) default {0, 1, 2}) is →
      Along (sysStep pollWatch)
        (fun s inp => AcceptFails pollWatch s inp → LeftAsItWas pollWatch s inp)
        (System.boot 3 (pollInit 3 fun _ => ⟨-1, false, false⟩) default {0, 1, 2}) is := by
  constructor
  · intro h
    have hlast := ((along_append _ _ _).1 (h failing (by decide))).2.2.1
    have hsilent := (hlast (by decide)).writes 4 (by decide)
    exact absurd hsilent (by decide)
  · intro h
    have hlast := ((along_append _ _ _).1 (h failing (by decide))).2.2.1
    have hsilent := (hlast (by decide)).writes 4 (by decide)
    exact absurd hsilent (by decide)

end AcademyLab.Chat
