import AcademyLab.Chat.Session
import AcademyLab.Chat.Survival

/-!
# Refused connections

When the table is full, the accept block ends the iteration: the client loop
does not run, and what the last `select()` or `poll()` reported of the clients is
not looked at.
-/
namespace AcademyLab.Chat
open Machine

section Iteration
variable {W : Type} {w : Watcher W} {s : Server W}

/-- The inputs of the rest of an iteration, from the accept block on: the loop
asks for one answer for each slot unless it is already back at its wait. -/
def restOfIteration (w : Watcher W) (c : Loop W) (inp : Input) (reads : Slot → Input) :
    List Input :=
  if (step w c inp).1.pc = .wait then [inp] else inp :: (List.finRange maxClients).map reads

/-- No slot that is not free was reported. -/
def NoneReady (w : Watcher W) (s : Server W) : Prop :=
  ∀ i, 0 ≤ (s.clients i).fd → w.clientReady s.watch i (s.clients i).fd = false

/-- The client loop with nothing to do. -/
theorem scan_idle (h : NoneReady w s) (is : List Input) (i : Slot)
    (hlen : i.val + is.length = maxClients) :
    exec (step w) ⟨.scan i, s⟩ is = ⟨.wait, s⟩ ∧ trace (step w) ⟨.scan i, s⟩ is = [] := by
  have hidle (i : Slot) :
      (s.clients i).fd < 0 ∨ w.clientReady s.watch i (s.clients i).fd = false := by
    rcases lt_or_ge (s.clients i).fd 0 with hfd | hfd
    · exact .inl hfd
    · exact .inr (h i hfd)
  induction is generalizing i with
  | nil =>
    have hi := i.isLt
    simp only [List.length_nil] at hlen
    omega
  | cons inp is ih =>
    simp only [exec_cons, trace_cons, step_idle inp (hidle i)]
    simp only [List.length_cons] at hlen
    by_cases hi : i.val + 1 < maxClients
    · have hnext : Pc.next i = .scan ⟨i.val + 1, hi⟩ := dif_pos hi
      rw [hnext]
      have hrest : i.val + 1 + is.length = maxClients := by omega
      exact ih ⟨i.val + 1, hi⟩ hrest
    · have hnext : Pc.next i = .wait := dif_neg hi
      obtain rfl : is = [] := List.length_eq_zero_iff.mp (by omega)
      rw [hnext]
      exact ⟨rfl, rfl⟩

/-- The rest of the iteration reads every client that was reported, and sends the
clients the same and leaves the same table as the rest of another iteration. -/
structure Undisturbed (w : Watcher W) (c c' : Loop W) (inp : Input) (reads : Slot → Input) :
    Prop where
  read : ∀ i, 0 ≤ (c.server.clients i).fd →
    w.clientReady c.server.watch i (c.server.clients i).fd = true →
      .read (c.server.clients i).fd ∈ trace (step w) c (restOfIteration w c inp reads)
  writes : ∀ i, 0 ≤ (c.server.clients i).fd →
    sentTo (c.server.clients i).fd (trace (step w) c (restOfIteration w c inp reads)) =
      sentTo (c.server.clients i).fd (trace (step w) c' (restOfIteration w c' inp reads))
  table : (exec (step w) c (restOfIteration w c inp reads)).server.clients =
    (exec (step w) c' (restOfIteration w c' inp reads)).server.clients

/-- With a full table and a connection to accept, the clients are served as in the
iteration that differs in the listener only, if and only if none was reported. -/
theorem refusal_iff {s : System W} (hrun : InRun w s) (hpc : s.loop.pc = .accept)
    (hfull : ∀ i, 0 ≤ (s.loop.server.clients i).fd)
    (hready : w.listenerReady s.loop.server.watch s.loop.server.listenfd = true)
    {inp : Input} (hl : Legal w s inp) (reads : Slot → Input) {watch : W}
    (hquiet : w.listenerReady watch s.loop.server.listenfd = false)
    (hsame : ∀ i, w.clientReady watch i (s.loop.server.clients i).fd =
      w.clientReady s.loop.server.watch i (s.loop.server.clients i).fd) :
    Undisturbed w s.loop ⟨.accept, { s.loop.server with watch := watch }⟩ inp reads ↔
      NoneReady w s.loop.server := by
  have hsound := hrun.sound
  obtain ⟨⟨pc, s⟩, k⟩ := s
  obtain rfl : pc = .accept := hpc
  have hfree : firstFree s.clients = none := firstFree_none.mpr hfull
  have hstep := step_refuse inp hready hfree
  have hrest : restOfIteration w ⟨.accept, s⟩ inp reads = [inp] := by
    simp [restOfIteration, hstep]
  have hnew (i : Slot) : (s.clients i).fd ≠ (newClient inp).fd := by
    cases ha : inp.accept with
    | none =>
      have hi := hfull i
      rw [newClient_fd_none ha]
      change 0 ≤ (s.clients i).fd at hi
      omega
    | some conn =>
      rw [newClient_fd_some ha]
      exact hsound.fresh_ne (hl rfl hready conn ha) i
  constructor
  · intro h i hi
    by_contra hr
    have hmem := h.read i hi (Bool.eq_true_of_not_eq_false hr)
    simp [hrest, hstep, acceptCall, refuse, sendMsg] at hmem
  · intro h
    have hquiet' := @step_noConnection W w { s with watch := watch } inp hquiet
    have hrest' : restOfIteration w ⟨.accept, { s with watch := watch }⟩ inp reads =
        inp :: (List.finRange maxClients).map reads := by
      simp [restOfIteration, hquiet']
    have hnone : NoneReady w { s with watch := watch } := fun i hi => (hsame i).trans (h i hi)
    obtain ⟨hexec, htrace⟩ := scan_idle hnone ((List.finRange maxClients).map reads) firstSlot
      (by simp [firstSlot])
    constructor
    · intro i hi hr
      rw [h i hi] at hr
      cases hr
    · intro i _
      have hrefused : trace (step w) ⟨.accept, s⟩ [inp] =
          acceptCall (newClient inp) ++ refuse (newClient inp) := by
        rw [trace_cons, hstep]
        exact List.append_nil _
      have hserved : trace (step w) ⟨.accept, { s with watch := watch }⟩
          (inp :: (List.finRange maxClients).map reads) = [] := by
        rw [trace_cons, hquiet']
        exact htrace
      simp only [hrest, hrest', hrefused, hserved]
      rw [sentTo_refuse, if_neg (hnew i)]
      rfl
    · simp [hrest, hstep, hrest', hquiet', hexec]

end Iteration

/-- Three clients, and a report on the listener and on some of the clients. -/
def fullState (ready : Finset ℤ) : System FdSets :=
  exec (sysStep selectWatch) (System.boot 3 (FdSets.init 3) default {0, 1, 2})
    (threeClients.take 15 ++ [{ (default : Input) with ready := ready }])

/-- The same report without the listener. -/
def quietWatch (ready : Finset ℤ) : FdSets :=
  let watch := (fullState ready).loop.server.watch
  { watch with rset := watch.rset.clr 3 }

def fourthInput : Input := { (default : Input) with accept := some ⟨7, default⟩ }

theorem refusal_iff_noneReady :
    Undisturbed selectWatch (fullState {3}).loop
        ⟨.accept, { (fullState {3}).loop.server with watch := quietWatch {3} }⟩ fourthInput
        (fun _ => threeInput) ↔
      NoneReady selectWatch (fullState {3}).loop.server :=
  refusal_iff ⟨3, FdSets.init 3, default, {0, 1, 2}, _, by decide, rfl⟩ (by decide) (by decide)
    (by decide) (by decide) _ (by decide) (by decide)

/-- The first client is reported together with the listener: it is not read, and
what it has sent is missing in the room and in the table. -/
theorem refusal_starves :
    Along (sysStep selectWatch) (Legal selectWatch)
        (System.boot 3 (FdSets.init 3) default {0, 1, 2})
        (threeClients.take 15 ++ [{ (default : Input) with ready := {3, 4} }, fourthInput]) ∧
      selectWatch.clientReady (fullState {3, 4}).loop.server.watch firstSlot 4 = true ∧
      .read 4 ∉ trace (step selectWatch) (fullState {3, 4}).loop
        (restOfIteration selectWatch (fullState {3, 4}).loop fourthInput fun _ => threeInput) ∧
      .read 4 ∈ trace (step selectWatch)
        ⟨.accept, { (fullState {3, 4}).loop.server with watch := quietWatch {3, 4} }⟩
        (restOfIteration selectWatch
          ⟨.accept, { (fullState {3, 4}).loop.server with watch := quietWatch {3, 4} }⟩ fourthInput
          fun _ => threeInput) := by
  decide

end AcademyLab.Chat
