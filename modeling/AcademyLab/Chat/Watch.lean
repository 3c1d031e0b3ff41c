import AcademyLab.Chat.Kernel
import AcademyLab.Chat.Readiness

/-!
# The watched descriptors follow the client table

Both servers must ask the kernel about exactly the descriptors in the table,
and must read only from connections that the last answer was about. Readiness
is kept per descriptor by `select()` and per slot by `poll()`; descriptors and
slots are both reused, so the answer is compared with the connection and not
with its number.
-/
namespace AcademyLab.Chat
open Machine

/-- A `read` is on a descriptor that the last `select()` or `poll()` reported,
for the connection that it then was. -/
def Kernel.ReadOk (k : Kernel) : Event → Prop
  | .read fd => (k.reported fd).isSome = true ∧ k.reported fd = k.owner fd
  | _ => True

instance (k : Kernel) (e : Event) : Decidable (k.ReadOk e) :=
  match e with
  | .read fd => inferInstanceAs (Decidable ((k.reported fd).isSome = true ∧ _))
  | .ready _ | .accept _ | .write _ _ | .close _ | .print _ | .store _ _ _ | .fdSet _
  | .elapsed _ _ | .chunk _ _ _ _ => isTrue trivial

/-- Every `read` of a trace is of that kind, in the kernel state it meets. -/
def Kernel.ReadsOk : Kernel → List Event → Prop
  | _, [] => True
  | k, e :: es => k.ReadOk e ∧ ReadsOk (k.apply e) es

instance decidableReadsOk (k : Kernel) (es : List Event) : Decidable (k.ReadsOk es) :=
  match es with
  | [] => isTrue trivial
  | e :: es =>
    have := decidableReadsOk (k.apply e) es
    inferInstanceAs (Decidable (k.ReadOk e ∧ (k.apply e).ReadsOk es))

theorem Kernel.readsOk_append (k : Kernel) (es fs : List Event) :
    k.ReadsOk (es ++ fs) ↔ k.ReadsOk es ∧ (k.replay es).ReadsOk fs := by
  induction es generalizing k with
  | nil => simp [ReadsOk]
  | cons e es ih => simp [ReadsOk, ih, and_assoc]

theorem Kernel.readsOk_of_isOutput (k : Kernel) {es : List Event} (h : ∀ e ∈ es, e.IsOutput) :
    k.ReadsOk es := by
  induction es generalizing k with
  | nil => trivial
  | cons e es ih =>
    refine ⟨?_, ih _ fun e he => h e (List.mem_cons_of_mem _ he)⟩
    have he := h e List.mem_cons_self
    cases e with
    | read => exact he.elim
    | _ => trivial

section Current
variable {W : Type} {w : Watcher W}

/-- What the server still takes for ready was reported for the connection that
the slot now holds. -/
def Current (w : Watcher W) (s : System W) : Prop :=
  ∀ i, 0 ≤ (s.loop.server.clients i).fd →
    w.clientReady s.loop.server.watch i (s.loop.server.clients i).fd = true →
      s.kernel.reported (s.loop.server.clients i).fd = s.kernel.owner (s.loop.server.clients i).fd

/-- A new client was not asked about, so it is not taken for ready. -/
theorem current_add {s : Server W} {k : Kernel} {pc pc' : Pc} (hs : System.Sound ⟨⟨pc, s⟩, k⟩)
    (hc : Current w ⟨⟨pc, s⟩, k⟩) {i : Slot} {client : Client}
    (hkeep : ∀ j x, w.clientReady (w.add s.watch i client.fd).1 j x = w.clientReady s.watch j x)
    (hnew : 0 ≤ client.fd → k.Fresh client.fd ∧ w.clientReady s.watch i client.fd = false) :
    Current w ⟨⟨pc', (addClient w s i client).1⟩, k.apply (.accept client.fd)⟩ := by
  intro j hj hr
  change 0 ≤ fds (Function.update s.clients i client) j at hj
  change w.clientReady (w.add s.watch i client.fd).1 j
    (fds (Function.update s.clients i client) j) = true at hr
  change (k.apply (.accept client.fd)).reported (fds (Function.update s.clients i client) j) =
    (k.apply (.accept client.fd)).owner (fds (Function.update s.clients i client) j)
  rw [fds_update] at hj hr ⊢
  rw [hkeep] at hr
  by_cases hji : j = i
  · subst hji
    rw [Function.update_self] at hj hr
    rw [(hnew hj).2] at hr
    cases hr
  · rw [Function.update_of_ne hji] at hj hr ⊢
    have hold := hc j hj hr
    by_cases hfd : client.fd < 0
    · simp only [Kernel.apply, if_pos hfd]
      exact hold
    · obtain ⟨fd, hfd'⟩ := Int.eq_ofNat_of_zero_le (not_lt.mp hfd)
      have hne : fds s.clients j ≠ (fd : ℤ) :=
        hs.fresh_ne (hfd' ▸ (hnew (not_lt.mp hfd)).1) j
      rw [hfd', Kernel.apply_accept]
      change k.reported (fds s.clients j) = Function.update k.owner (fd : ℤ) _ (fds s.clients j)
      rw [Function.update_of_ne hne]
      exact hold

/-- The other slots hold other descriptors than the one that is closed. -/
theorem current_leave {s : Server W} {k : Kernel} {pc pc' : Pc} (hs : System.Sound ⟨⟨pc, s⟩, k⟩)
    (hc : Current w ⟨⟨pc, s⟩, k⟩) {i : Slot} (hi : 0 ≤ (s.clients i).fd)
    (hkeep : ∀ j x, w.clientReady (w.remove s.watch i (s.clients i).fd).1 j x =
      w.clientReady s.watch j x) :
    Current w ⟨⟨pc', (leave w s i).1⟩, k.apply (.close (s.clients i).fd)⟩ := by
  obtain ⟨c, hown⟩ : ∃ c, k.owner (s.clients i).fd = some c := hs.owned i hi
  rw [Kernel.apply_close hown]
  intro j hj hr
  change 0 ≤ fds (Function.update s.clients i { s.clients i with fd := -1 }) j at hj
  change w.clientReady (w.remove s.watch i (s.clients i).fd).1 j
    (fds (Function.update s.clients i { s.clients i with fd := -1 }) j) = true at hr
  change k.reported (fds (Function.update s.clients i { s.clients i with fd := -1 }) j) =
    Function.update k.owner (s.clients i).fd none
      (fds (Function.update s.clients i { s.clients i with fd := -1 }) j)
  rw [fds_update] at hj hr ⊢
  rw [hkeep] at hr
  have hji := ne_of_update_nonneg hj
  rw [Function.update_of_ne hji] at hj hr ⊢
  have hne : fds s.clients j ≠ (s.clients i).fd := fun he => hji (hs.distinct j i hj he)
  rw [Function.update_of_ne hne]
  exact hc j hj hr

theorem current_receive {s : Server W} {k : Kernel} {pc pc' : Pc}
    (hc : Current w ⟨⟨pc, s⟩, k⟩) (i : Slot) (data : CString.Bytes) (now : ℤ) :
    Current w ⟨⟨pc', { s with clients := (receive s.clients i data now).1 }⟩, k⟩ := by
  intro j hj hr
  simp only [receive_fd] at hj hr ⊢
  exact hc j hj hr

theorem readsOk_sysStep {s : System W} (inp : Input) (h : s.Sound)
    (hc : s.loop.pc ≠ .wait → Current w s) : s.kernel.ReadsOk (sysStep w s inp).2 := by
  obtain ⟨c, k⟩ := s
  have ht := transition w c inp
  -- the slot that is read holds an open connection, and it is the reported one
  have hread {s : Server W} {i : Slot} (hfd : 0 ≤ (s.clients i).fd)
      (hr : w.clientReady s.watch i (s.clients i).fd = true)
      (h : System.Sound ⟨⟨.scan i, s⟩, k⟩) (hc : Current w ⟨⟨.scan i, s⟩, k⟩) :
      k.ReadOk (.read (s.clients i).fd) := by
    have he := hc i hfd hr
    obtain ⟨d, hd⟩ := h.owned i hfd
    change k.owner (s.clients i).fd = some d at hd
    exact ⟨by rw [he, hd]; rfl, he⟩
  simp only [sysStep] at h hc ⊢
  generalize step w c inp = r at ht ⊢
  cases ht with
  | wait => exact ⟨trivial, trivial⟩
  | noConnection => trivial
  | idle => trivial
  | add =>
    exact ⟨trivial, trivial, Kernel.readsOk_of_isOutput _ isOutput_addClient⟩
  | refuse => exact ⟨trivial, trivial, trivial, trivial, trivial, trivial⟩
  | leave s _ i hfd hr =>
    obtain ⟨es, hes, hout⟩ := leave_events w s i
    rw [hes]
    exact ⟨hread hfd hr h (hc (by simp)), trivial, Kernel.readsOk_of_isOutput _ hout⟩
  | receive s _ i chunk hfd hr =>
    exact ⟨hread hfd hr h (hc (by simp)),
      Kernel.readsOk_of_isOutput _ isOutput_receive⟩

/-- Whole runs read only what was reported, once every state of them keeps an
invariant that makes the remembered readiness current. -/
theorem readsOk_trace {P : System W → Input → Prop} {Inv : System W → Prop}
    (hP : ∀ s inp, P s inp → Legal w s inp)
    (keep : ∀ s inp, Inv s ∧ s.Sound → P s inp → Inv (sysStep w s inp).1)
    (current : ∀ s, Inv s → s.loop.pc ≠ .wait → Current w s)
    {s : System W} (hi : Inv s) (hs : s.Sound) {is : List Input}
    (h : Along (sysStep w) P s is) : s.kernel.ReadsOk (trace (sysStep w) s is) := by
  induction is generalizing s with
  | nil => trivial
  | cons inp is ih =>
    rw [trace_cons, Kernel.readsOk_append]
    exact ⟨readsOk_sysStep inp hs (current s hi),
      ih (keep s inp ⟨hi, hs⟩ h.1) (sound_sysStep w s inp hs (hP _ _ h.1)) h.2⟩

end Current

/-! ## The server that runs `select()` -/

/-- `allset` is the listener and the occupied slots, `maxfd` bounds it, and what
`rset` still holds is current. -/
structure SelectInv (s : System FdSets) : Prop where
  allset : Covers s.loop.server.watch.allset s.loop.server.listenfd (fds s.loop.server.clients)
  maxfd : ∀ fd ∈ s.loop.server.watch.allset, fd ≤ s.loop.server.watch.maxfd
  reported : s.loop.pc = .accept →
    ∀ fd ∈ s.loop.server.watch.rset, fd ∈ s.loop.server.watch.allset
  current : s.loop.pc ≠ .wait → Current selectWatch s

/-- The kernel hands out only descriptors that fit into an `fd_set`. -/
def AcceptBelow (s : System FdSets) (inp : Input) : Prop :=
  s.loop.pc = .accept →
    selectWatch.listenerReady s.loop.server.watch s.loop.server.listenfd = true →
      ∀ conn ∈ inp.accept, (conn.fd : ℤ) < fdSetSize

instance (s : System FdSets) (inp : Input) : Decidable (AcceptBelow s inp) :=
  inferInstanceAs (Decidable (_ → _))

/-- The conditions on a step: each `accept` succeeds and returns a descriptor
that is not open and below `FD_SETSIZE`. -/
def SelectLegal (s : System FdSets) (inp : Input) : Prop :=
  Legal selectWatch s inp ∧ AcceptSucceeds selectWatch s inp ∧ AcceptBelow s inp

instance (s : System FdSets) (inp : Input) : Decidable (SelectLegal s inp) :=
  inferInstanceAs (Decidable (_ ∧ _))

theorem selectInv_boot (listenfd : ℕ) (hl : (listenfd : ℤ) < fdSetSize) (mem : Table)
    (inherited : Finset ℤ) :
    SelectInv (System.boot listenfd (FdSets.init listenfd) mem inherited) := by
  have hcovers : Covers (FdSets.init listenfd).allset listenfd (fun _ => -1) :=
    Covers.init hl fun _ => by decide
  have hmax : (FdSets.init listenfd).maxfd = listenfd := rfl
  generalize FdSets.init listenfd = f at hcovers hmax ⊢
  constructor
  · exact hcovers
  · intro fd hfd
    rcases (hcovers fd).mp hfd with rfl | ⟨i, hi, -⟩
    · exact hmax.ge
    · exact absurd hi (show ¬ (0 : ℤ) ≤ -1 by decide)
  · exact fun h => Pc.noConfusion h
  · exact fun h => absurd rfl h

theorem selectInv_add {s : Server FdSets} {k : Kernel} (h : SelectInv ⟨⟨.accept, s⟩, k⟩)
    (hs : System.Sound ⟨⟨.accept, s⟩, k⟩) {i : Slot} (hi : (s.clients i).fd < 0)
    {client : Client} {fd : ℕ} (hfd : client.fd = fd) (hf : k.Fresh fd)
    (hb : 0 ≤ (fd : ℤ) ∧ (fd : ℤ) < fdSetSize) :
    SelectInv ⟨⟨.scan firstSlot, (addClient selectWatch s i client).1⟩,
      k.replay (acceptCall client ++ (addClient selectWatch s i client).2)⟩ := by
  have hne (j : Slot) : (s.clients j).fd ≠ fd := hs.fresh_ne hf j
  have hnew : (fd : ℤ) ∉ s.watch.allset := by
    intro hmem
    rcases (h.allset fd).mp hmem with he | ⟨j, -, he⟩
    · have hlist : (s.listenfd : ℤ) ∈ k.others := hs.listener.1
      exact hf.2 (he ▸ hlist)
    · exact hne j he
  have hk : k.replay (acceptCall client ++ (addClient selectWatch s i client).2) =
      k.apply (.accept fd) := by
    simp only [Kernel.replay_accepted, replay_addClient, hfd]
  rw [hk]
  constructor
  · change Covers _ _ (fds (Function.update s.clients i client))
    rw [fds_update]
    exact h.allset.add hi (hfd ▸ hb)
  · intro x hx
    change x ≤ if client.fd > s.watch.maxfd then client.fd else s.watch.maxfd
    rcases (FdSet.mem_set (hfd ▸ hb)).mp hx with rfl | hx
    · split_ifs <;> omega
    · have hmax : x ≤ s.watch.maxfd := h.maxfd x hx
      split_ifs <;> omega
  · exact fun hpc => Pc.noConfusion hpc
  · intro _
    rw [← hfd]
    refine current_add hs (h.current fun hpc => Pc.noConfusion hpc) (fun _ _ => rfl) fun _ => ?_
    rw [hfd]
    exact ⟨hf, decide_eq_false fun hmem => hnew (h.reported rfl _ hmem)⟩

theorem selectInv_leave {s : Server FdSets} {k : Kernel} {i : Slot}
    (h : SelectInv ⟨⟨.scan i, s⟩, k⟩) (hs : System.Sound ⟨⟨.scan i, s⟩, k⟩)
    (hi : 0 ≤ (s.clients i).fd) :
    SelectInv ⟨⟨.next i, (leave selectWatch s i).1⟩,
      k.replay (.read (s.clients i).fd :: (leave selectWatch s i).2)⟩ := by
  have hk : k.replay (.read (s.clients i).fd :: (leave selectWatch s i).2) =
      k.apply (.close (s.clients i).fd) := by
    simp only [Kernel.replay_read, replay_leave]
  rw [hk]
  constructor
  · change Covers _ _ (fds (Function.update s.clients i { s.clients i with fd := -1 }))
    rw [fds_update]
    exact h.allset.remove (hs.ne_listenfd i) fun j hj he => hs.distinct j i hj he
  · exact fun x hx => h.maxfd x (FdSet.mem_clr.mp hx).2
  · exact fun hpc => absurd hpc (Pc.next_ne_accept i)
  · exact fun _ =>
      current_leave hs (h.current fun hpc => Pc.noConfusion hpc) hi fun _ _ => rfl

theorem selectInv_sysStep (s : System FdSets) (inp : Input) (h : SelectInv s ∧ s.Sound)
    (hl : SelectLegal s inp) : SelectInv (sysStep selectWatch s inp).1 := by
  obtain ⟨c, k⟩ := s
  obtain ⟨h, hsound⟩ := h
  have ht := transition selectWatch c inp
  simp only [sysStep] at h ⊢
  generalize step selectWatch c inp = r at ht ⊢
  cases ht with
  | wait s =>
    refine ⟨h.allset, h.maxfd, fun _ _ => FdSets.mem_of_mem_select, fun _ => ?_⟩
    intro i hi hr
    have hmem : (s.clients i).fd ∈ (s.watch.select inp.ready).rset := of_decide_eq_true hr
    exact if_pos hmem
  | noConnection s =>
    exact ⟨h.allset, h.maxfd, fun hpc => Pc.noConfusion hpc,
      fun _ => h.current fun hpc => Pc.noConfusion hpc⟩
  | idle s _ i =>
    exact ⟨h.allset, h.maxfd, fun hpc => absurd hpc (Pc.next_ne_accept i),
      fun _ => h.current fun hpc => Pc.noConfusion hpc⟩
  | add s inp i hr hi =>
    obtain ⟨conn, ha⟩ := Option.ne_none_iff_exists'.mp (hl.2.1 rfl hr)
    have hfresh : k.Fresh conn.fd := hl.1 rfl hr conn ha
    have hbelow : 0 ≤ (conn.fd : ℤ) ∧ (conn.fd : ℤ) < fdSetSize :=
      ⟨Int.natCast_nonneg _, hl.2.2 rfl hr conn ha⟩
    exact selectInv_add h hsound (firstFree_some hi) (newClient_fd_some ha) hfresh hbelow
  | refuse s _ hr hn =>
    exact ⟨h.allset, h.maxfd, fun hpc => Pc.noConfusion hpc, fun hpc => absurd rfl hpc⟩
  | leave s _ i hfd => exact selectInv_leave h hsound hfd
  | receive s inp i chunk =>
    have hk : k.replay (.read (s.clients i).fd ::
        (receive s.clients i chunk.data inp.now).2) = k := by
      simp only [Kernel.replay_read, Kernel.replay_receive]
    rw [hk]
    refine ⟨?_, h.maxfd, fun hpc => absurd hpc (Pc.next_ne_accept i),
      fun _ => current_receive (h.current fun hpc => Pc.noConfusion hpc) i _ _⟩
    rw [fds_receive]
    exact h.allset

/-- What holds of the `select()` server whenever it calls `select()`. -/
structure AtSelect (s : System FdSets) : Prop where
  distinct : ∀ i j, 0 ≤ (s.loop.server.clients i).fd →
    (s.loop.server.clients i).fd = (s.loop.server.clients j).fd → i = j
  ne_listenfd : ∀ i, (s.loop.server.clients i).fd ≠ s.loop.server.listenfd
  allset : Covers s.loop.server.watch.allset s.loop.server.listenfd (fds s.loop.server.clients)
  maxfd : ∀ fd ∈ s.loop.server.watch.allset, fd ≤ s.loop.server.watch.maxfd
  connections : ∀ c < s.kernel.accepted,
    ((∃! i, 0 ≤ (s.loop.server.clients i).fd ∧
        s.kernel.owner (s.loop.server.clients i).fd = some c) ∧ s.kernel.closes c = 0) ∨
      ((∀ fd, s.kernel.owner fd ≠ some c) ∧ s.kernel.closes c = 1)

/-- Each connection ever accepted is open and held by one slot, or closed once. -/
theorem Sound.connection {listenfd : ℤ} {t : Slot → ℤ} {k : Kernel} (h : Sound listenfd t k)
    {c : ℕ} (hc : c < k.accepted) :
    ((∃! i, 0 ≤ t i ∧ k.owner (t i) = some c) ∧ k.closes c = 0) ∨
      ((∀ fd, k.owner fd ≠ some c) ∧ k.closes c = 1) := by
  by_cases hopen : ∃ fd, k.owner fd = some c
  · obtain ⟨fd, hfd⟩ := hopen
    obtain ⟨h0, i, rfl⟩ := h.held fd c hfd
    refine .inl ⟨⟨i, ⟨h0, hfd⟩, ?_⟩, h.closesOpen _ c hfd⟩
    rintro j ⟨hj, hcj⟩
    exact h.distinct j i hj (h.ownerInj _ _ c hcj hfd)
  · push Not at hopen
    exact .inr ⟨hopen, h.closesGone c hc hopen⟩

/-- In every run the table, `allset`, `maxfd` and the open connections agree at
each call of `select()`, and each `read` is on a connection it reported. -/
theorem select_run (listenfd : ℕ) (hl : (listenfd : ℤ) < fdSetSize) (mem : Table)
    (inherited : Finset ℤ) (is : List Input)
    (h : Along (sysStep selectWatch) SelectLegal
      (System.boot listenfd (FdSets.init listenfd) mem inherited) is) :
    AtSelect (exec (sysStep selectWatch)
        (System.boot listenfd (FdSets.init listenfd) mem inherited) is) ∧
      (Kernel.boot listenfd inherited).ReadsOk (trace (sysStep selectWatch)
        (System.boot listenfd (FdSets.init listenfd) mem inherited) is) := by
  have hstart := selectInv_boot listenfd hl mem inherited
  have hsound := System.boot_sound listenfd (FdSets.init listenfd) mem inherited
  have hinv := invariant (fun s => SelectInv s ∧ s.Sound)
    (fun s inp hs hp => ⟨selectInv_sysStep s inp hs hp, sound_sysStep _ s inp hs.2 hp.1⟩)
    ⟨hstart, hsound⟩ h
  refine ⟨?_, readsOk_trace (fun _ _ hp => hp.1) selectInv_sysStep
    (fun _ hs => hs.current) hstart hsound h⟩
  generalize exec (sysStep selectWatch) _ is = s at hinv ⊢
  obtain ⟨hs, hsd⟩ := hinv
  exact ⟨hsd.distinct, hsd.ne_listenfd, hs.allset, hs.maxfd, fun c hc => hsd.connection hc⟩

/-- A listener with one client, from its connection to its end of file. -/
def oneClient : List Input :=
  [{ (default : Input) with ready := {3} },
    { (default : Input) with accept := some ⟨4, default⟩ }, default, default, default,
    { (default : Input) with ready := {4} }, default, default]

theorem select_run_oneClient :
    AtSelect (exec (sysStep selectWatch) (System.boot 3 (FdSets.init 3) default {0, 1, 2})
        oneClient) ∧
      (Kernel.boot 3 {0, 1, 2}).ReadsOk (trace (sysStep selectWatch)
        (System.boot 3 (FdSets.init 3) default {0, 1, 2}) oneClient) :=
  select_run 3 (by decide) default {0, 1, 2} oneClient (by decide)

/-- A process that inherits 1024 open descriptors gets a listener that no `fd_set`
can hold, so already the first `select()` does not watch it. -/
theorem select_run_largeListener :
    Along (sysStep selectWatch) SelectLegal
        (System.boot 1024 (FdSets.init 1024) default ((Finset.range 1024).image Nat.cast)) [] ∧
      ¬ AtSelect (System.boot 1024 (FdSets.init 1024) default
        ((Finset.range 1024).image Nat.cast)) := by
  refine ⟨trivial, fun h => ?_⟩
  have hmem : (1024 : ℤ) ∈ (FdSets.init 1024).allset := (h.allset 1024).mpr (.inl rfl)
  have hrange := ((FdSets.init 1024).allset.range 1024 hmem).2
  exact absurd hrange (by decide)

/-! ## The server that runs `poll()` -/

/-- `pfds` holds the descriptors of the table, and what `revents` still says of
the slots is current; a free slot is never taken for ready by a new client. -/
structure PollInv (s : System Pollfds) : Prop where
  sync : Follows s.loop.server.watch (fds s.loop.server.clients)
  free : s.loop.pc = .accept → ∀ i : Slot, (s.loop.server.clients i).fd < 0 →
    (s.loop.server.watch i.castSucc).revents = false
  current : s.loop.pc ≠ .wait → Current pollWatch s

theorem pollInv_sysStep (s : System Pollfds) (inp : Input) (h : PollInv s ∧ s.Sound)
    (hl : Legal pollWatch s inp) : PollInv (sysStep pollWatch s inp).1 := by
  obtain ⟨c, k⟩ := s
  obtain ⟨h, hsound⟩ := h
  have ht := transition pollWatch c inp
  simp only [sysStep] at h ⊢
  generalize step pollWatch c inp = r at ht ⊢
  cases ht with
  | wait s =>
    refine ⟨h.sync, fun _ i hi => ?_, fun _ i hi hr => ?_⟩
    · have hfd : ¬ 0 ≤ (s.watch i.castSucc).fd := by
        rw [h.sync i]
        exact not_le.mpr hi
      simp [pollWatch, poll, hfd]
    · -- the entry of the slot is one of the reported ones
      have hmem : (s.clients i).fd ∈ pollWatch.reported (poll s.watch inp.ready) := by
        refine Finset.mem_image.mpr ⟨i.castSucc, Finset.mem_filter.mpr ⟨Finset.mem_univ _, hr⟩, ?_⟩
        exact h.sync i
      exact if_pos hmem
  | noConnection s =>
    exact ⟨h.sync, fun hpc => Pc.noConfusion hpc, fun _ => h.current fun hpc => Pc.noConfusion hpc⟩
  | idle s _ i =>
    exact ⟨h.sync, fun hpc => absurd hpc (Pc.next_ne_accept i),
      fun _ => h.current fun hpc => Pc.noConfusion hpc⟩
  | add s inp i hr hi =>
    have hfree := firstFree_some hi
    refine ⟨?_, fun hpc => Pc.noConfusion hpc, fun _ => ?_⟩
    · change Follows _ (fds (Function.update s.clients i (newClient inp)))
      rw [fds_update]
      exact h.sync.update i _
    · have hk : k.replay (acceptCall (newClient inp) ++ (addClient pollWatch s i
          (newClient inp)).2) = k.apply (.accept (newClient inp).fd) := by
        simp only [Kernel.replay_accepted, replay_addClient]
      rw [hk]
      refine current_add hsound (h.current fun hpc => Pc.noConfusion hpc)
        (fun j _ => revents_update s.watch i j _ _) fun h0 => ⟨?_, h.free rfl i hfree⟩
      cases ha : inp.accept with
      | none =>
        rw [newClient_fd_none ha] at h0
        exact absurd h0 (by decide)
      | some conn =>
        rw [newClient_fd_some ha]
        exact hl rfl hr conn ha
  | refuse s _ hr hn =>
    exact ⟨h.sync, fun hpc => Pc.noConfusion hpc, fun hpc => absurd rfl hpc⟩
  | leave s _ i hfd =>
    refine ⟨?_, fun hpc => absurd hpc (Pc.next_ne_accept i), fun _ => ?_⟩
    · change Follows _ (fds (Function.update s.clients i { s.clients i with fd := -1 }))
      rw [fds_update]
      exact h.sync.update i _
    · simp only [Kernel.replay_read, replay_leave]
      exact current_leave hsound (h.current fun hpc => Pc.noConfusion hpc) hfd
        fun j _ => revents_update s.watch i j _ _
  | receive s inp i chunk =>
    refine ⟨?_, fun hpc => absurd hpc (Pc.next_ne_accept i), fun _ => ?_⟩
    · rw [fds_receive]
      exact h.sync
    · simp only [Kernel.replay_read, Kernel.replay_receive]
      exact current_receive (h.current fun hpc => Pc.noConfusion hpc) i _ _

/-- At a call of `poll()`, the entries of the slots are the descriptors of the
table, -1 for a free one. -/
def InStep (s : System Pollfds) : Prop :=
  s.loop.pc = .wait → ∀ i : Slot,
    (s.loop.server.watch i.castSucc).fd = (s.loop.server.clients i).fd ∧
      ((s.loop.server.clients i).fd < 0 → (s.loop.server.watch i.castSucc).fd = -1)

instance (s : System Pollfds) : Decidable (InStep s) :=
  inferInstanceAs (Decidable (_ → ∀ _ : Slot, _ ∧ _))

/-- From program start `poll()` is always asked about exactly the table, and no
client is read that it did not report, in every run if and only if the stack
held -1 in the descriptors of the entries that the program leaves unset. -/
theorem poll_run_iff (listenfd : ℕ) (pmem : Pollfds) (mem : Table) (inherited : Finset ℤ) :
    (∀ is, Along (sysStep pollWatch) (Legal pollWatch)
        (System.boot listenfd (pollInit listenfd pmem) mem inherited) is →
      InStep (exec (sysStep pollWatch)
        (System.boot listenfd (pollInit listenfd pmem) mem inherited) is) ∧
      (Kernel.boot listenfd inherited).ReadsOk (trace (sysStep pollWatch)
        (System.boot listenfd (pollInit listenfd pmem) mem inherited) is)) ↔
      ∀ i : Slot, (pmem i.castSucc).fd = -1 := by
  constructor
  · intro h i
    have hfirst := ((h [] trivial).1 rfl i).1
    rw [exec_nil, System.boot_watch, pollInit_castSucc] at hfirst
    exact hfirst
  · intro h is his
    have hstart : PollInv (System.boot listenfd (pollInit listenfd pmem) mem inherited) := by
      refine ⟨fun i => ?_, fun hpc => Pc.noConfusion hpc, fun hpc => absurd rfl hpc⟩
      rw [System.boot_watch, pollInit_castSucc]
      exact h i
    have hsound := System.boot_sound listenfd (pollInit listenfd pmem) mem inherited
    have hinv := invariant (fun s => PollInv s ∧ s.Sound)
      (fun s inp hs hp => ⟨pollInv_sysStep s inp hs hp, sound_sysStep _ s inp hs.2 hp⟩)
      ⟨hstart, hsound⟩ his
    refine ⟨fun _ i => ⟨hinv.1.sync i, fun hi => ?_⟩,
      readsOk_trace (fun _ _ hp => hp) pollInv_sysStep (fun _ hs => hs.current) hstart hsound his⟩
    rw [hinv.1.sync i]
    exact (hinv.2.free i).resolve_right (not_le.mpr hi)

/-- A stack that holds the descriptor 0 and `POLLIN` where `pfds` lies: the first
`poll()` watches the standard input for every slot, and a client that connects
while that is readable is read at once, though nothing was reported of it. -/
theorem poll_run_staleStack :
    ¬ InStep (System.boot 3 (pollInit 3 fun _ => ⟨0, true, false⟩) default {0, 1, 2}) ∧
      Along (sysStep pollWatch) (Legal pollWatch)
        (System.boot 3 (pollInit 3 fun _ => ⟨0, true, false⟩) default {0, 1, 2})
        [{ (default : Input) with ready := {0, 3} },
          { (default : Input) with accept := some ⟨4, default⟩ }, default] ∧
      ¬ (Kernel.boot 3 {0, 1, 2}).ReadsOk (trace (sysStep pollWatch)
        (System.boot 3 (pollInit 3 fun _ => ⟨0, true, false⟩) default {0, 1, 2})
        [{ (default : Input) with ready := {0, 3} },
          { (default : Input) with accept := some ⟨4, default⟩ }, default]) := by
  decide

end AcademyLab.Chat
