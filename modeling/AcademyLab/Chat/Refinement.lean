import AcademyLab.Chat.Watch

/-!
# The two servers against each other

A lockstep simulation between the `select()` server and the `poll()` server.
Their tables agree, `allset` and `pfds` stand for the same descriptors, and
within an iteration so do `rset` and `revents`. A new client takes a slot whose
`revents` is clear and a descriptor that `rset` does not have.
-/
namespace AcademyLab.Chat
open Machine CString

/-- The system calls of a run, as the surroundings see them. -/
inductive Call
  | wait
  | accept (fd : ℤ)
  | read (fd : ℤ)
  | write (fd : ℤ) (bytes : Bytes)
  | close (fd : ℤ)
  deriving DecidableEq

def Event.call : Event → Option Call
  | .ready _ => some .wait
  | .accept fd => some (.accept fd)
  | .read fd => some (.read fd)
  | .write fd msg => some (.write fd msg.bytes)
  | .close fd => some (.close fd)
  | _ => none

/-- No descriptor that `accept` returned is read before the next wait; `fresh`
are those that it returned since the last one. -/
def FreshUnread : Finset ℤ → List Call → Prop
  | _, [] => True
  | _, .wait :: cs => FreshUnread ∅ cs
  | fresh, .accept fd :: cs => FreshUnread (insert fd fresh) cs
  | fresh, .read fd :: cs => fd ∉ fresh ∧ FreshUnread fresh cs
  | fresh, _ :: cs => FreshUnread fresh cs

/-! ## Tables up to the peer address

The address of a client is only used while it is accepted. -/

/-- Two tables agree on descriptor, name and time stamp of each slot. -/
def SameClients (t t' : Table) : Prop :=
  ∀ i, (t i).fd = (t' i).fd ∧ (t i).name = (t' i).name ∧
    (t i).lastMsgTime = (t' i).lastMsgTime

instance (t t' : Table) : Decidable (SameClients t t') :=
  inferInstanceAs (Decidable (∀ _ : Slot, _ ∧ _ ∧ _))

def Client.bare (c : Client) : Client := { c with addr := default }

/-- The table with its addresses erased. -/
def bare (t : Table) : Table := fun i => (t i).bare

theorem sameClients_iff {t t' : Table} : SameClients t t' ↔ bare t = bare t' := by
  constructor
  · intro h
    funext i
    obtain ⟨hfd, hname, htime⟩ := h i
    simp [bare, Client.bare, hfd, hname, htime]
  · intro h i
    have hi : (t i).bare = (t' i).bare := congrFun h i
    simpa [Client.bare] using hi

theorem bare_update (t : Table) (i : Slot) (c : Client) :
    bare (Function.update t i c) = Function.update (bare t) i c.bare := by
  funext j
  by_cases hj : j = i
  · subst hj
    simp [bare]
  · simp [bare, hj]

theorem receive_bare (t : Table) (i : Slot) (data : Bytes) (now : ℤ) :
    receive (bare t) i data now = (bare (receive t i data now).1, (receive t i data now).2) := by
  have hu (c : Client) : Function.update (bare t) i c.bare = bare (Function.update t i c) :=
    (bare_update t i c).symm
  have hname := hu { t i with name := (lineOf data).drop 6 }
  have htime := hu { t i with lastMsgTime := now }
  unfold receive changeName chatLine
  dsimp only [bare, Client.bare] at hname htime ⊢
  split_ifs
  · rw [hname]
    rfl
  · rfl
  · rw [htime]
    rfl
  · rfl

theorem fds_congr {t t' : Table} (h : bare t = bare t') : fds t = fds t' := by
  change fds (bare t) = fds (bare t')
  rw [h]

theorem firstFree_congr {t t' : Table} (h : bare t = bare t') : firstFree t = firstFree t' := by
  change firstFree (bare t) = firstFree (bare t')
  rw [h]

theorem broadcastMsg_congr {t t' : Table} (h : bare t = bare t') (msg : Msg) (exceptfd : ℤ) :
    broadcastMsg t msg exceptfd = broadcastMsg t' msg exceptfd := by
  change broadcastMsg (bare t) msg exceptfd = broadcastMsg (bare t') msg exceptfd
  rw [h]

/-! ## The system calls of each block -/

section Calls
variable {W : Type} (w : Watcher W) (s : Server W) (i : Slot)

theorem call_fdSet (fds : List ℤ) : (fds.map Event.fdSet).filterMap Event.call = [] := by
  induction fds with
  | nil => rfl
  | cons fd fds ih => exact ih

/-- Which structure the watcher keeps is not seen in the calls of the blocks. -/
theorem call_addClient (client : Client) :
    (acceptCall client ++ (addClient w s i client).2).filterMap Event.call =
      .accept client.fd :: (broadcastMsg (Function.update s.clients i client)
        (.connected client.name) (-1)).filterMap Event.call := by
  simp only [addClient, List.filterMap_append, call_fdSet]
  rfl

theorem call_leave :
    (.read (s.clients i).fd :: (leave w s i).2).filterMap Event.call =
      .read (s.clients i).fd :: .close (s.clients i).fd ::
        (broadcastMsg (Function.update s.clients i { s.clients i with fd := -1 })
          (.disconnected (s.clients i).name) (-1)).filterMap Event.call := by
  simp only [leave, List.filterMap_cons, List.filterMap_append, call_fdSet]
  rfl

end Calls

/-! ## The relation -/

/-- The relation of the two servers at their calls of `select()` and `poll()`. -/
structure Related (s : Loop FdSets) (p : Loop Pollfds) : Prop where
  atWait : s.pc = .wait ∧ p.pc = .wait
  listenfd : s.server.listenfd = p.server.listenfd
  clients : SameClients s.server.clients p.server.clients
  slots : ∀ i, (s.server.clients i).fd = -1 ∨ 0 ≤ (s.server.clients i).fd
  pfds : Follows p.server.watch (fds p.server.clients)
  allset : Covers s.server.watch.allset s.server.listenfd (fds s.server.clients)

/-- The descriptors of the occupied slots and the listener's are different. -/
structure Apart (listenfd : ℤ) (t : Slot → ℤ) : Prop where
  distinct : ∀ i j, 0 ≤ t i → t i = t j → i = j
  ne_listenfd : ∀ i, 0 ≤ t i → t i ≠ listenfd

/-- The same answers to a step of either server: the results of `accept`, `read`
and `time`, and at a wait the same reports on the listener and on each occupied
slot. A connection that is accepted has a descriptor that is not in use. -/
structure SameEnvironment (s : Loop FdSets) (p : Loop Pollfds) (inp inp' : Input) : Prop where
  accept : inp.accept = inp'.accept
  read : inp.read = inp'.read
  now : inp.now = inp'.now
  listener : s.pc = .wait →
    selectWatch.listenerReady (selectWatch.wait s.server.watch inp.ready) s.server.listenfd =
      pollWatch.listenerReady (pollWatch.wait p.server.watch inp'.ready) p.server.listenfd
  slots : s.pc = .wait → ∀ i, 0 ≤ (s.server.clients i).fd →
    selectWatch.clientReady (selectWatch.wait s.server.watch inp.ready) i (s.server.clients i).fd =
      pollWatch.clientReady (pollWatch.wait p.server.watch inp'.ready) i (s.server.clients i).fd
  fresh : s.pc = .accept → selectWatch.listenerReady s.server.watch s.server.listenfd = true →
    ∃ conn ∈ inp.accept, (conn.fd : ℤ) ≠ s.server.listenfd ∧
      ∀ i, (s.server.clients i).fd ≠ conn.fd

instance (s : Loop FdSets) (p : Loop Pollfds) (inp inp' : Input) :
    Decidable (SameEnvironment s p inp inp') :=
  decidable_of_iff
    (inp.accept = inp'.accept ∧ inp.read = inp'.read ∧ inp.now = inp'.now ∧
      (s.pc = .wait → _ = _) ∧ (s.pc = .wait → ∀ _ : Slot, _ → _ = _) ∧
      (s.pc = .accept → _ → ∃ conn ∈ inp.accept, _ ∧ ∀ _ : Slot, _ ≠ (conn.fd : ℤ)))
    ⟨fun ⟨h₁, h₂, h₃, h₄, h₅, h₆⟩ => ⟨h₁, h₂, h₃, h₄, h₅, h₆⟩,
      fun h => ⟨h.accept, h.read, h.now, h.listener, h.slots, h.fresh⟩⟩

/-- The same answers, with what both programs leave to chance taken out: the
descriptor fits into an `fd_set`, and the time stamp that the new client finds
on the stack is the same. -/
structure Matched (s : Loop FdSets) (p : Loop Pollfds) (inp inp' : Input) : Prop
    extends SameEnvironment s p inp inp' where
  below : ∀ conn ∈ inp.accept, (conn.fd : ℤ) < fdSetSize
  stamp : inp.stack.lastMsgTime = inp'.stack.lastMsgTime

instance (s : Loop FdSets) (p : Loop Pollfds) (inp inp' : Input) :
    Decidable (Matched s p inp inp') :=
  decidable_of_iff
    (SameEnvironment s p inp inp' ∧ (∀ conn ∈ inp.accept, (conn.fd : ℤ) < fdSetSize) ∧
      inp.stack.lastMsgTime = inp'.stack.lastMsgTime)
    ⟨fun ⟨h₁, h₂, h₃⟩ => ⟨h₁, h₂, h₃⟩, fun h => ⟨h.toSameEnvironment, h.below, h.stamp⟩⟩

/-- The relation at every point of the loop. -/
structure Linked (s : Loop FdSets) (p : Loop Pollfds) : Prop where
  pc : s.pc = p.pc
  listenfd : s.server.listenfd = p.server.listenfd
  clients : bare s.server.clients = bare p.server.clients
  slots : ∀ i, fds s.server.clients i = -1 ∨ 0 ≤ fds s.server.clients i
  pfds : Follows p.server.watch (fds s.server.clients)
  allset : Covers s.server.watch.allset s.server.listenfd (fds s.server.clients)
  apart : Apart s.server.listenfd (fds s.server.clients)
  reported : s.pc = .accept → ∀ fd ∈ s.server.watch.rset, fd ∈ s.server.watch.allset
  quiet : s.pc = .accept → ∀ i : Slot, fds s.server.clients i < 0 →
    (p.server.watch i.castSucc).revents = false
  listener : s.pc = .accept →
    decide (s.server.listenfd ∈ s.server.watch.rset) = (p.server.watch listenEntry).revents
  ready : s.pc ≠ .wait → ∀ i : Slot, 0 ≤ fds s.server.clients i →
    decide (fds s.server.clients i ∈ s.server.watch.rset) =
      (p.server.watch i.castSucc).revents

section Simulation
variable {s : Server FdSets} {p : Server Pollfds} {inp inp' : Input}

theorem Matched.newClient {c : Loop FdSets} {d : Loop Pollfds} (h : Matched c d inp inp')
    {conn : Conn} (ha : inp.accept = some conn) : newClient inp = newClient inp' := by
  have ha' : inp'.accept = some conn := h.accept ▸ ha
  simp [Chat.newClient, ha, ha', h.stamp]

/-- Within an iteration the loop may move on with nothing changed. -/
theorem Linked.goto {pc pc' : Pc} (h : Linked ⟨pc, s⟩ ⟨pc, p⟩) (hpc : pc ≠ .wait)
    (hpc' : pc' ≠ .accept) : Linked ⟨pc', s⟩ ⟨pc', p⟩ where
  pc := rfl
  listenfd := h.listenfd
  clients := h.clients
  slots := h.slots
  pfds := h.pfds
  allset := h.allset
  apart := h.apart
  reported he := absurd he hpc'
  quiet he := absurd he hpc'
  listener he := absurd he hpc'
  ready _ := h.ready hpc

theorem linked_wait (h : Linked ⟨.wait, s⟩ ⟨.wait, p⟩)
    (hm : Matched ⟨.wait, s⟩ ⟨.wait, p⟩ inp inp') :
    Linked (step selectWatch ⟨.wait, s⟩ inp).1 (step pollWatch ⟨.wait, p⟩ inp').1 where
  pc := rfl
  listenfd := h.listenfd
  clients := h.clients
  slots := h.slots
  pfds := h.pfds
  allset := h.allset
  apart := h.apart
  reported _ _ := FdSets.mem_of_mem_select
  quiet _ i hi := by
    have hfd : ¬ 0 ≤ (p.watch i.castSucc).fd := by
      rw [h.pfds i]
      exact not_le.mpr hi
    simp [step, pollWatch, poll, hfd]
  listener _ := hm.listener rfl
  ready _ i hi := hm.slots rfl i hi

/-- A descriptor that was not in use was not reported. -/
theorem Linked.notMem_rset (h : Linked ⟨.accept, s⟩ ⟨.accept, p⟩) {fd : ℤ}
    (hl : fd ≠ s.listenfd) (hne : ∀ j, (s.clients j).fd ≠ fd) : fd ∉ s.watch.rset := by
  intro hmem
  rcases (h.allset fd).mp (h.reported rfl _ hmem) with he | ⟨j, -, he⟩
  · exact hl he
  · exact hne j he

/-- The new client is reported by neither server: its descriptor was not in the
set that `select()` was given, and its slot was free when `poll()` was called. -/
theorem linked_add (h : Linked ⟨.accept, s⟩ ⟨.accept, p⟩) {i : Slot} {client : Client} {fd : ℕ}
    (hi : (s.clients i).fd < 0) (hfd : client.fd = fd) (hb : (fd : ℤ) < fdSetSize)
    (hl : (fd : ℤ) ≠ s.listenfd) (hne : ∀ j, (s.clients j).fd ≠ fd) :
    Linked ⟨.scan firstSlot, (addClient selectWatch s i client).1⟩
      ⟨.scan firstSlot, (addClient pollWatch p i client).1⟩ := by
  have hrange : 0 ≤ (fd : ℤ) ∧ (fd : ℤ) < fdSetSize := ⟨Int.natCast_nonneg _, hb⟩
  have hnew := h.notMem_rset hl hne
  have hfds : fds (addClient selectWatch s i client).1.clients =
      Function.update (fds s.clients) i (fd : ℤ) := by
    rw [← hfd]
    exact fds_update _ _ _
  constructor
  · rfl
  · exact h.listenfd
  · change bare (Function.update s.clients i client) = bare (Function.update p.clients i client)
    rw [bare_update, bare_update, show bare s.clients = bare p.clients from h.clients]
  · rw [hfds]
    exact free_update h.slots (.inr hrange.1)
  · rw [hfds, ← hfd]
    exact h.pfds.update i _
  · rw [hfds, ← hfd]
    exact h.allset.add hi (hfd ▸ hrange)
  · rw [hfds]
    constructor
    · exact Distinct.add h.apart.distinct hne
    · intro j h0
      by_cases hj : j = i
      · subst hj
        rw [Function.update_self]
        exact hl
      · rw [Function.update_of_ne hj] at h0 ⊢
        exact h.apart.ne_listenfd j h0
  · exact fun hpc => Pc.noConfusion hpc
  · exact fun hpc => Pc.noConfusion hpc
  · exact fun hpc => Pc.noConfusion hpc
  · intro _ j hj
    rw [hfds] at hj ⊢
    change _ = (Function.update p.watch i.castSucc _ j.castSucc).revents
    rw [revents_update]
    by_cases hji : j = i
    · subst hji
      rw [Function.update_self, h.quiet rfl j hi]
      exact decide_eq_false hnew
    · rw [Function.update_of_ne hji] at hj ⊢
      exact h.ready (by simp) j hj

/-- Closing slot `i` changes what is watched, not what was reported. -/
theorem linked_leave {i : Slot} (h : Linked ⟨.scan i, s⟩ ⟨.scan i, p⟩)
    (hi : 0 ≤ (s.clients i).fd) :
    Linked ⟨.next i, (leave selectWatch s i).1⟩ ⟨.next i, (leave pollWatch p i).1⟩ := by
  have hfds : fds (leave selectWatch s i).1.clients = Function.update (fds s.clients) i (-1) :=
    fds_update _ _ _
  have hbare (t : Table) : bare (Function.update t i { t i with fd := -1 }) =
      Function.update (bare t) i { bare t i with fd := -1 } := bare_update _ _ _
  constructor
  · rfl
  · exact h.listenfd
  · exact (hbare s.clients).trans
      ((show bare s.clients = bare p.clients from h.clients) ▸ (hbare p.clients).symm)
  · rw [hfds]
    exact free_update h.slots (.inl rfl)
  · rw [hfds]
    exact h.pfds.update i _
  · rw [hfds]
    exact h.allset.remove (h.apart.ne_listenfd i hi) fun j hj he => h.apart.distinct j i hj he
  · rw [hfds]
    constructor
    · exact Distinct.remove h.apart.distinct
    · intro j hj
      have hji := ne_of_update_nonneg hj
      rw [Function.update_of_ne hji] at hj ⊢
      exact h.apart.ne_listenfd j hj
  · exact fun hpc => absurd hpc (Pc.next_ne_accept i)
  · exact fun hpc => absurd hpc (Pc.next_ne_accept i)
  · exact fun hpc => absurd hpc (Pc.next_ne_accept i)
  · intro _ j hj
    rw [hfds] at hj ⊢
    change _ = (Function.update p.watch i.castSucc _ j.castSucc).revents
    rw [revents_update]
    have hji := ne_of_update_nonneg hj
    rw [Function.update_of_ne hji] at hj ⊢
    exact h.ready (by simp) j hj

theorem linked_receive {i : Slot} (h : Linked ⟨.scan i, s⟩ ⟨.scan i, p⟩) (data : Bytes) (now : ℤ) :
    Linked ⟨.next i, { s with clients := (receive s.clients i data now).1 }⟩
      ⟨.next i, { p with clients := (receive p.clients i data now).1 }⟩ := by
  have hb := receive_bare s.clients i data now
  rw [show bare s.clients = bare p.clients from h.clients, receive_bare] at hb
  have hfds : fds (receive s.clients i data now).1 = fds s.clients := fds_receive _ _ _ _
  constructor
  · rfl
  · exact h.listenfd
  · exact (congrArg Prod.fst hb).symm
  · rw [hfds]
    exact h.slots
  · rw [hfds]
    exact h.pfds
  · rw [hfds]
    exact h.allset
  · rw [hfds]
    exact h.apart
  · exact fun hpc => absurd hpc (Pc.next_ne_accept i)
  · exact fun hpc => absurd hpc (Pc.next_ne_accept i)
  · exact fun hpc => absurd hpc (Pc.next_ne_accept i)
  · intro _
    rw [hfds]
    exact h.ready (by simp)

/-- The `accept` of both. -/
theorem linked_accept {s : Server FdSets} {p : Server Pollfds} {inp inp' : Input}
    (h : Linked ⟨.accept, s⟩ ⟨.accept, p⟩) (hm : Matched ⟨.accept, s⟩ ⟨.accept, p⟩ inp inp') :
    Linked (step selectWatch ⟨.accept, s⟩ inp).1 (step pollWatch ⟨.accept, p⟩ inp').1 ∧
      (step selectWatch ⟨.accept, s⟩ inp).2.filterMap Event.call =
        (step pollWatch ⟨.accept, p⟩ inp').2.filterMap Event.call := by
  have hclients : bare s.clients = bare p.clients := h.clients
  have hpoll : pollWatch.listenerReady p.watch p.listenfd =
    selectWatch.listenerReady s.watch s.listenfd := (h.listener rfl).symm
  cases hl : selectWatch.listenerReady s.watch s.listenfd with
  | false =>
    rw [step_noConnection inp hl, step_noConnection inp' (hpoll.trans hl)]
    exact ⟨h.goto (by simp) (by simp), rfl⟩
  | true =>
    obtain ⟨conn, ha, hconn, hfree⟩ := hm.fresh rfl hl
    have hclient : newClient inp = newClient inp' := hm.newClient ha
    cases hf : firstFree s.clients with
    | some i =>
      rw [step_add inp hl hf,
        step_add inp' (hpoll.trans hl) ((firstFree_congr hclients).symm.trans hf), ← hclient]
      refine ⟨linked_add h (firstFree_some hf) (newClient_fd_some ha) (hm.below conn ha)
        hconn hfree, ?_⟩
      have hb : bare (Function.update s.clients i (newClient inp)) =
          bare (Function.update p.clients i (newClient inp)) := by
        rw [bare_update, bare_update, hclients]
      rw [call_addClient, call_addClient, broadcastMsg_congr hb]
    | none =>
      rw [step_refuse inp hl hf,
        step_refuse inp' (hpoll.trans hl) ((firstFree_congr hclients).symm.trans hf), ← hclient]
      exact ⟨h.goto (by simp) (by simp), rfl⟩

/-- The turn of both scans for slot `i`. -/
theorem linked_scan {i : Slot} {s : Server FdSets} {p : Server Pollfds} {inp inp' : Input}
    (h : Linked ⟨.scan i, s⟩ ⟨.scan i, p⟩) (hm : Matched ⟨.scan i, s⟩ ⟨.scan i, p⟩ inp inp') :
    Linked (step selectWatch ⟨.scan i, s⟩ inp).1 (step pollWatch ⟨.scan i, p⟩ inp').1 ∧
      (step selectWatch ⟨.scan i, s⟩ inp).2.filterMap Event.call =
        (step pollWatch ⟨.scan i, p⟩ inp').2.filterMap Event.call := by
  have hclients : bare s.clients = bare p.clients := h.clients
  have hfds : fds s.clients = fds p.clients := fds_congr hclients
  have hfd : (p.clients i).fd = (s.clients i).fd := (congrFun hfds i).symm
  by_cases h0 : (s.clients i).fd < 0
  · rw [step_idle inp (.inl h0), step_idle inp' (.inl (hfd ▸ h0))]
    exact ⟨h.goto (by simp) (Pc.next_ne_accept i), rfl⟩
  have hi : 0 ≤ (s.clients i).fd := not_lt.mp h0
  have hpoll : pollWatch.clientReady p.watch i (p.clients i).fd =
    selectWatch.clientReady s.watch i (s.clients i).fd := (h.ready (by simp) i hi).symm
  cases hr : selectWatch.clientReady s.watch i (s.clients i).fd with
  | false =>
    rw [step_idle inp (.inr hr), step_idle inp' (.inr (hpoll.trans hr))]
    exact ⟨h.goto (by simp) (Pc.next_ne_accept i), rfl⟩
  | true =>
    cases hc : inp.read with
    | none =>
      rw [step_leave inp hi hr hc, step_leave inp' (hfd ▸ hi) (hpoll.trans hr) (hm.read ▸ hc)]
      refine ⟨linked_leave h hi, ?_⟩
      have hname : (s.clients i).name = (p.clients i).name :=
        congrArg (fun t => (t i).name) hclients
      have hb : bare (Function.update s.clients i { s.clients i with fd := -1 }) =
          bare (Function.update p.clients i { p.clients i with fd := -1 }) :=
        (linked_leave h hi).clients
      rw [call_leave, call_leave, hfd, hname, broadcastMsg_congr hb]
    | some chunk =>
      rw [step_receive inp hi hr hc,
        step_receive inp' (hfd ▸ hi) (hpoll.trans hr) (hm.read ▸ hc), ← hm.now]
      refine ⟨linked_receive h _ _, ?_⟩
      have hb := receive_bare s.clients i chunk.data inp.now
      rw [hclients, receive_bare] at hb
      have hevs : (receive p.clients i chunk.data inp.now).2 =
          (receive s.clients i chunk.data inp.now).2 := (Prod.mk.inj hb).2
      dsimp only
      rw [hfd, hevs]

/-- One step of the lockstep simulation. -/
theorem linked_step (c : Loop FdSets) (d : Loop Pollfds) (inp inp' : Input) (h : Linked c d)
    (hm : Matched c d inp inp') :
    Linked (step selectWatch c inp).1 (step pollWatch d inp').1 ∧
      (step selectWatch c inp).2.filterMap Event.call =
        (step pollWatch d inp').2.filterMap Event.call := by
  obtain ⟨pc, s⟩ := c
  obtain ⟨pc', p⟩ := d
  obtain rfl : pc = pc' := h.pc
  cases pc with
  | wait => exact ⟨linked_wait h hm, rfl⟩
  | accept => exact linked_accept h hm
  | scan i => exact linked_scan h hm

end Simulation

/-! ## Whole runs -/

theorem freshUnread_output (fresh : Finset ℤ) {es : List Event} (h : ∀ e ∈ es, e.IsOutput)
    (cs : List Call) :
    FreshUnread fresh (es.filterMap Event.call ++ cs) ↔ FreshUnread fresh cs := by
  induction es with
  | nil => rfl
  | cons e es ih =>
    have hes := ih fun e he => h e (List.mem_cons_of_mem _ he)
    have he := h e List.mem_cons_self
    cases e with
    | ready => exact he.elim
    | accept => exact he.elim
    | read => exact he.elim
    | close => exact he.elim
    | _ => exact hes

/-- Within an iteration `rset` does not change, and what it holds is not fresh. -/
theorem freshUnread_run {c : Loop FdSets} {d : Loop Pollfds} {ps : List (Input × Input)}
    (h : Linked c d) (hp : Paired (step selectWatch) (step pollWatch) Matched c d ps)
    {fresh : Finset ℤ} (ha : c.pc = .accept → fresh = ∅)
    (hs : c.pc ≠ .wait → ∀ fd ∈ fresh, fd ∉ c.server.watch.rset) :
    FreshUnread fresh
      ((trace (step selectWatch) c (ps.map Prod.fst)).filterMap Event.call) := by
  induction ps generalizing c d fresh with
  | nil => trivial
  | cons q ps ih =>
    obtain ⟨inp, inp'⟩ := q
    have hnext := (linked_step c d inp inp' h hp.1).1
    replace ih := @ih _ _ hnext hp.2
    have hm := hp.1
    rw [List.map_cons, trace_cons, List.filterMap_append]
    have ht := transition selectWatch c inp
    simp only at ih ht hm ⊢
    generalize step selectWatch c inp = r at ht ih ⊢
    cases ht with
    | wait => exact ih (fun _ => rfl) (by simp)
    | noConnection =>
      exact ih (fun hpc => Pc.noConfusion hpc) fun _ => hs (by simp)
    | add s _ i hr =>
      obtain ⟨conn, hconn, hl, hne⟩ := hm.fresh rfl hr
      obtain ⟨pc', p⟩ := d
      obtain rfl : .accept = pc' := h.pc
      have hnew := h.notMem_rset hl hne
      obtain rfl := ha rfl
      have hout : ∀ e ∈ (addClient selectWatch s i (newClient inp)).2, e.IsOutput :=
        isOutput_addClient
      refine (freshUnread_output (insert (newClient inp).fd ∅) hout _).mpr ?_
      refine ih (fun hpc => Pc.noConfusion hpc) fun _ fd hfd => ?_
      rw [newClient_fd_some hconn] at hfd
      simp only [insert_empty_eq, Finset.mem_singleton] at hfd
      exact hfd ▸ hnew
    | refuse =>
      exact ih (fun hpc => Pc.noConfusion hpc) fun hpc => absurd rfl hpc
    | idle s _ i => exact ih (fun hpc => absurd hpc (Pc.next_ne_accept i)) fun _ => hs (by simp)
    | leave s _ i hfd hr =>
      obtain ⟨es, hes, hout⟩ := leave_events selectWatch s i
      have hmem : (s.clients i).fd ∈ s.watch.rset := of_decide_eq_true hr
      rw [hes]
      refine ⟨fun hf => hs (by simp) _ hf hmem, (freshUnread_output _ hout _).mpr ?_⟩
      exact ih (fun hpc => absurd hpc (Pc.next_ne_accept i)) fun _ => hs (by simp)
    | receive s _ i chunk hfd hr =>
      have hmem : (s.clients i).fd ∈ s.watch.rset := of_decide_eq_true hr
      have hout : ∀ e ∈ (receive s.clients i chunk.data inp.now).2, e.IsOutput :=
        isOutput_receive
      refine ⟨fun hf => hs (by simp) _ hf hmem, (freshUnread_output _ hout _).mpr ?_⟩
      exact ih (fun hpc => absurd hpc (Pc.next_ne_accept i)) fun _ => hs (by simp)

/-- At a wait the two relations are the same. -/
theorem Related.linked {s : Loop FdSets} {p : Loop Pollfds} (h : Related s p)
    (ha : Apart s.server.listenfd (fds s.server.clients)) : Linked s p where
  pc := h.atWait.1.trans h.atWait.2.symm
  listenfd := h.listenfd
  clients := sameClients_iff.mp h.clients
  slots := h.slots
  pfds := (fds_congr (sameClients_iff.mp h.clients)) ▸ h.pfds
  allset := h.allset
  apart := ha
  reported hpc := absurd (h.atWait.1.symm.trans hpc) (by simp)
  quiet hpc := absurd (h.atWait.1.symm.trans hpc) (by simp)
  listener hpc := absurd (h.atWait.1.symm.trans hpc) (by simp)
  ready hpc := absurd h.atWait.1 hpc

theorem Linked.related {s : Loop FdSets} {p : Loop Pollfds} (h : Linked s p)
    (hpc : s.pc = .wait) : Related s p where
  atWait := ⟨hpc, h.pc ▸ hpc⟩
  listenfd := h.listenfd
  clients := sameClients_iff.mpr h.clients
  slots := h.slots
  pfds := (fds_congr h.clients) ▸ h.pfds
  allset := h.allset

/-- From related states and under the same answers of the surroundings the two
servers make the same system calls, stand at the same point of the loop, are
related again at each wait, and read no client in the iteration that accepted it. -/
theorem poll_refines_select {s : Loop FdSets} {p : Loop Pollfds} (h : Related s p)
    (ha : Apart s.server.listenfd (fds s.server.clients)) {ps : List (Input × Input)}
    (hp : Paired (step selectWatch) (step pollWatch) Matched s p ps) :
    (trace (step pollWatch) p (ps.map Prod.snd)).filterMap Event.call =
        (trace (step selectWatch) s (ps.map Prod.fst)).filterMap Event.call ∧
      FreshUnread ∅ ((trace (step selectWatch) s (ps.map Prod.fst)).filterMap Event.call) ∧
      (exec (step pollWatch) p (ps.map Prod.snd)).pc =
        (exec (step selectWatch) s (ps.map Prod.fst)).pc ∧
      ((exec (step selectWatch) s (ps.map Prod.fst)).pc = .wait →
        Related (exec (step selectWatch) s (ps.map Prod.fst))
            (exec (step pollWatch) p (ps.map Prod.snd)) ∧
          Apart (exec (step selectWatch) s (ps.map Prod.fst)).server.listenfd
            (fds (exec (step selectWatch) s (ps.map Prod.fst)).server.clients)) := by
  have hl := h.linked ha
  obtain ⟨hend, hcalls⟩ := simulation Event.call linked_step hl hp
  refine ⟨hcalls.symm, freshUnread_run hl hp (fun _ => rfl) (by simp), hend.pc.symm, ?_⟩
  exact fun hpc => ⟨hend.related hpc, hend.apart⟩

/-- From program start on the same memory the two servers are related, if the
stack held -1 where `pfds` is not set. -/
theorem related_boot {listenfd : ℕ} (hl : (listenfd : ℤ) < fdSetSize) (mem : Table)
    {pmem : Pollfds} (hp : ∀ i : Slot, (pmem i.castSucc).fd = -1) :
    Related (boot listenfd (FdSets.init listenfd) mem)
      (boot listenfd (pollInit listenfd pmem) mem) where
  atWait := ⟨rfl, rfl⟩
  listenfd := rfl
  clients _ := ⟨rfl, rfl, rfl⟩
  slots _ := .inl rfl
  pfds i := (congrArg Pollfd.fd (pollInit_castSucc listenfd pmem i)).trans (hp i)
  allset := Covers.init hl fun _ => show (-1 : ℤ) < 0 by decide

theorem apart_boot (listenfd : ℤ) : Apart listenfd (fun _ => -1) where
  distinct _ _ h := absurd h (by decide)
  ne_listenfd _ h := absurd h (by decide)

/-- Both servers on zeroed memory, with the listener 3. -/
def selectStart : Loop FdSets := boot 3 (FdSets.init 3) default

def pollStart : Loop Pollfds := boot 3 (pollInit 3 fun _ => ⟨-1, false, false⟩) default

theorem related_start : Related selectStart pollStart :=
  related_boot (by decide) default fun _ => rfl

/-- A client connects on `fd`, and in the next iteration it sends a line. -/
def connectAndSend (fd : ℕ) (stamp : ℤ) : List Input :=
  iteration {3} (some ⟨fd, default⟩) { (default : Client) with lastMsgTime := stamp }
      (fun _ => none) 0 ++
    iteration {(fd : ℤ)} none default (fun _ => some letterA) 1

theorem poll_refines_select_start :
    (trace (step pollWatch) pollStart (connectAndSend 4 0)).filterMap Event.call =
        (trace (step selectWatch) selectStart (connectAndSend 4 0)).filterMap Event.call ∧
      Related (exec (step selectWatch) selectStart (connectAndSend 4 0))
        (exec (step pollWatch) pollStart (connectAndSend 4 0)) := by
  obtain ⟨hcalls, -, -, hend⟩ := @poll_refines_select _ _ related_start (apart_boot 3)
    ((connectAndSend 4 0).zip (connectAndSend 4 0)) (by decide)
  exact ⟨hcalls, (hend (by decide)).1⟩

/-- The first `n` slots hold the descriptor `fd`, in both servers. -/
def holding (fd : ℤ) (n : ℕ) : Table := fun i =>
  { (default : Client) with fd := if i.val < n then fd else -1 }

def selectHolding (fd : ℤ) (n : ℕ) : Loop FdSets :=
  ⟨.wait, ⟨3, holding fd n, (FdSets.init 3).add fd⟩⟩

def pollHolding (fd : ℤ) (n : ℕ) : Loop Pollfds :=
  ⟨.wait, ⟨3, holding fd n, fun k =>
    ⟨if k = listenEntry then 3 else if k.val < n then fd else -1, true, false⟩⟩⟩

theorem fd_holding (fd : ℤ) (n : ℕ) (i : Slot) :
    (holding fd n i).fd = if i.val < n then fd else -1 := rfl

theorem related_holding {fd : ℕ} (hfd : (fd : ℤ) < fdSetSize) {n : ℕ} (hn : 0 < n) :
    Related (selectHolding fd n) (pollHolding fd n) where
  atWait := ⟨rfl, rfl⟩
  listenfd := rfl
  clients _ := ⟨rfl, rfl, rfl⟩
  slots i := by
    change (holding fd n i).fd = -1 ∨ 0 ≤ (holding fd n i).fd
    rw [fd_holding]
    split_ifs <;> omega
  pfds i := by
    change (if i.castSucc = listenEntry then (3 : ℤ) else if i.val < n then (fd : ℤ) else -1) = _
    rw [if_neg (castSucc_ne_listenEntry i)]
    rfl
  allset x := by
    have hrange : 0 ≤ (fd : ℤ) ∧ (fd : ℤ) < fdSetSize := ⟨Int.natCast_nonneg fd, hfd⟩
    have hinit := @Covers.init (fun _ => -1) 3 (by decide) (fun _ => by decide) x
    simp only [selectHolding, FdSets.add]
    rw [FdSet.mem_set hrange, hinit]
    constructor
    · rintro (rfl | rfl | ⟨_, h, -⟩)
      · have hfirst : fds (holding fd n) firstSlot = fd := if_pos hn
        exact .inr ⟨firstSlot, hrange.1.trans_eq hfirst.symm, hfirst⟩
      · exact .inl rfl
      · exact absurd h (show ¬ (0 : ℤ) ≤ -1 by decide)
    · rintro (rfl | ⟨i, h0, hi⟩)
      · exact .inr (.inl rfl)
      · left
        change 0 ≤ (holding fd n i).fd at h0
        change (holding fd n i).fd = x at hi
        rw [fd_holding] at h0 hi
        split_ifs at h0 hi
        · exact hi.symm
        · omega

/-- One of two clients on the same descriptor sends a line, the other one leaves. -/
def twinsRun : List Input :=
  iteration {4} none default (fun i => if i = firstSlot then some letterA else none) 1

/-- A client on the listener's descriptor leaves while another one connects. -/
def listenerRun : List Input := iteration {3} (some ⟨4, default⟩) default (fun _ => none) 1

/-- A client connects on a descriptor that is too large for an `fd_set`. -/
def largeRun : List Input := iteration {3} (some ⟨1024, default⟩) default (fun _ => none) 0

/-- Without the conditions on the table, on the size of a new descriptor and on
the stack, the servers come apart: when two slots hold one descriptor, when a
slot holds the listener's, when a descriptor is too large for an `fd_set`, and
when a new client finds different time stamps on the stack. -/
theorem poll_select_differ :
    (Related (selectHolding 4 2) (pollHolding 4 2) ∧
      Paired (step selectWatch) (step pollWatch) SameEnvironment (selectHolding 4 2)
        (pollHolding 4 2) (twinsRun.zip twinsRun) ∧
      ¬ Related (exec (step selectWatch) (selectHolding 4 2) twinsRun)
        (exec (step pollWatch) (pollHolding 4 2) twinsRun)) ∧
    (Related (selectHolding 3 1) (pollHolding 3 1) ∧
      Paired (step selectWatch) (step pollWatch) SameEnvironment (selectHolding 3 1)
        (pollHolding 3 1) (listenerRun.zip listenerRun) ∧
      ¬ Related (exec (step selectWatch) (selectHolding 3 1) listenerRun)
        (exec (step pollWatch) (pollHolding 3 1) listenerRun)) ∧
    (Related selectStart pollStart ∧
      Paired (step selectWatch) (step pollWatch) SameEnvironment selectStart pollStart
        (largeRun.zip largeRun) ∧
      ¬ Related (exec (step selectWatch) selectStart largeRun)
        (exec (step pollWatch) pollStart largeRun)) ∧
    (Related selectStart pollStart ∧
      Paired (step selectWatch) (step pollWatch) SameEnvironment selectStart pollStart
        ((connectAndSend 4 0).zip (connectAndSend 4 1)) ∧
      (trace (step selectWatch) selectStart (connectAndSend 4 0)).filterMap Event.call ≠
        (trace (step pollWatch) pollStart (connectAndSend 4 1)).filterMap Event.call) := by
  refine ⟨⟨related_holding (by decide) (by decide), by decide, fun h => ?_⟩,
    ⟨related_holding (by decide) (by decide), by decide, fun h => ?_⟩,
    ⟨related_start, by decide, fun h => ?_⟩, related_start, by decide, by decide⟩
  · have hmem := (h.allset 4).mpr (.inr ⟨firstSlot, by decide, by decide⟩)
    exact absurd hmem (by decide)
  · have hmem := (h.allset 3).mpr (.inl rfl)
    exact absurd hmem (by decide)
  · have hmem := (h.allset 1024).mpr (.inr ⟨firstSlot, by decide, by decide⟩)
    exact absurd hmem (by decide)

end AcademyLab.Chat
