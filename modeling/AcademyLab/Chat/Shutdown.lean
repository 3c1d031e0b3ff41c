import AcademyLab.Chat.Survival

/-!
# The notice at the end of the server

`sig_int` calls `exit`, and `exit_handler` then runs on what the interrupted step has
left: a signal may come between any two events of a step, so a connection that was just
accepted may not be in the table yet, and a descriptor that was just closed may still be
in it. A write to a client that has reset its connection ends the handler as well.
-/
namespace AcademyLab.Chat
open Machine CString

/-- How many events of a step are done when `clients[i].fd` has got its new value: it is
set behind `accept` and `addr_to_str`, or behind `read`, `close` and `FD_CLR`. -/
def settles {W : Type} (w : Watcher W) (c : Loop W) : ℕ :=
  match c.pc with
  | .wait => 0
  | .accept => 2
  | .scan i => 2 + (w.remove c.server.watch i (c.server.clients i).fd).2.length

/-- A signal comes behind the events `done` of the next step, where the descriptors of the
slots are `t`. -/
inductive Interrupt {W : Type} (w : Watcher W) (c : Loop W) (inp : Input) :
    (Slot → ℤ) → List Event → Prop
  | before (n : ℕ) (hn : n ≤ settles w c) :
      Interrupt w c inp (fds c.server.clients) ((step w c inp).2.take n)
  | after (n : ℕ) (hn : settles w c ≤ n) :
      Interrupt w c inp (fds (step w c inp).1.server.clients) ((step w c inp).2.take n)

/-- What `exit_handler` does. -/
inductive ExitCall
  | print (text : Bytes)
  | write (fd : ℤ) (text : Bytes)
  | close (fd : ℤ)
  deriving DecidableEq

def shuttingDown : Bytes := ascii "Server shutting down.\n"

/-- `broadcast_msg(clients, buf, exceptfd)`, with the text as it stands in `buf`. -/
def broadcastText (t : Slot → ℤ) (text : Bytes) (exceptfd : ℤ) : List ExitCall :=
  ((List.finRange maxClients).filter fun i => t i ≠ -1 ∧ t i ≠ exceptfd).map fun i =>
    .write (t i) text

def exitHandler (t : Slot → ℤ) (listenfd : ℤ) : List ExitCall :=
  [.print (ascii "\nServer shutting down...\n")] ++ broadcastText t shuttingDown (-1) ++
    [.close listenfd]

/-- The descriptor belongs to a connection that its peer has reset. -/
def Reset (k : Kernel) (peers : Peers) (fd : ℤ) : Prop := k.owner fd ≠ none ∧ peers fd = .reset

instance (k : Kernel) (peers : Peers) (fd : ℤ) : Decidable (Reset k peers fd) :=
  inferInstanceAs (Decidable (_ ∧ _))

/-- SIGPIPE ends the server at this call. -/
def ExitCall.Sigpipe (k : Kernel) (peers : Peers) : ExitCall → Prop
  | .write fd _ => Reset k peers fd
  | .print _ | .close _ => False

instance (k : Kernel) (peers : Peers) (n : ExitCall) : Decidable (n.Sigpipe k peers) :=
  match n with
  | .write fd _ => inferInstanceAs (Decidable (Reset k peers fd))
  | .print _ | .close _ => isFalse id

def ExitCall.survived (k : Kernel) (peers : Peers) (n : ExitCall) : Bool := ¬ n.Sigpipe k peers

/-- What of the handler is done before a signal ends it. -/
def given (k : Kernel) (peers : Peers) (t : Slot → ℤ) (listenfd : ℤ) : List ExitCall :=
  (exitHandler t listenfd).takeWhile (ExitCall.survived k peers)

/-! ## The handler on any table -/

section Handler
variable {α : Type*} {p : α → Bool} {l : List α} {x : α}

/-- In a sorted list, `takeWhile` stops at the least element that fails. -/
theorem mem_takeWhile_of_pairwise [LinearOrder α] (h : l.Pairwise (· < ·)) :
    x ∈ l.takeWhile p ↔ x ∈ l ∧ ∀ y ∈ l, y ≤ x → p y = true := by
  induction l with
  | nil => simp
  | cons a l ih =>
    obtain ⟨hlt, hl⟩ := List.pairwise_cons.1 h
    by_cases ha : p a = true
    · rw [List.takeWhile_cons_of_pos ha, List.mem_cons, List.mem_cons, ih hl, List.forall_mem_cons]
      constructor
      · rintro (rfl | ⟨hx, hall⟩)
        · exact ⟨.inl rfl, fun _ => ha, fun y hy hle => absurd (hlt y hy) (not_lt.2 hle)⟩
        · exact ⟨.inr hx, fun _ => ha, hall⟩
      · rintro ⟨rfl | hx, -, hall⟩
        · exact .inl rfl
        · exact .inr ⟨hx, hall⟩
    · rw [List.takeWhile_cons_of_neg ha]
      constructor
      · intro hx
        cases hx
      · rintro ⟨hx, hall⟩
        refine absurd (hall a List.mem_cons_self ?_) ha
        rcases List.mem_cons.1 hx with rfl | hx
        · exact le_rfl
        · exact (hlt x hx).le

/-- What stands last is reached if everything before it passes. -/
theorem mem_takeWhile_concat {b : α} : x ∈ (l ++ [b]).takeWhile p ↔
    x ∈ l.takeWhile p ∨ x = b ∧ p b = true ∧ ∀ a ∈ l, p a = true := by
  induction l with
  | nil => by_cases hb : p b = true <;> simp [hb]
  | cons a l ih =>
    by_cases ha : p a = true
    · simp [ha, ih, or_assoc]
    · simp [ha]

end Handler

section Given
variable {k : Kernel} {peers : Peers} {t : Slot → ℤ} {listenfd : ℤ}

/-- The slots that `exit_handler` writes to. -/
def written (t : Slot → ℤ) : List Slot := (List.finRange maxClients).filter fun i => t i ≠ -1

theorem broadcastText_eq (t : Slot → ℤ) (text : Bytes) :
    broadcastText t text (-1) = (written t).map fun i => .write (t i) text := by
  simp [broadcastText, written]

theorem mem_written {i : Slot} : i ∈ written t ↔ t i ≠ -1 := by
  simp [written]

theorem pairwise_written (t : Slot → ℤ) : (written t).Pairwise (· < ·) :=
  (List.pairwise_lt_finRange maxClients).filter _

/-- The notice goes to the slots in order, up to a client that has reset its connection;
behind that one, nothing is done. -/
theorem mem_given {n : ExitCall} : n ∈ given k peers t listenfd ↔
    n = .print (ascii "\nServer shutting down...\n") ∨
      (∃ i, n = .write (t i) shuttingDown ∧ t i ≠ -1 ∧
        ∀ j ≤ i, t j ≠ -1 → ¬ Reset k peers (t j)) ∨
      n = .close listenfd ∧ ∀ j, t j ≠ -1 → ¬ Reset k peers (t j) := by
  have hprint (text : Bytes) : (ExitCall.print text).survived k peers = true := decide_eq_true id
  have hclose (fd : ℤ) : (ExitCall.close fd).survived k peers = true := decide_eq_true id
  have hwrite (j : Slot) (text : Bytes) :
      (ExitCall.write (t j) text).survived k peers = true ↔ ¬ Reset k peers (t j) :=
    decide_eq_true_iff
  rw [given, exitHandler, broadcastText_eq, mem_takeWhile_concat, List.singleton_append,
    List.takeWhile_cons_of_pos (hprint _), List.mem_cons, List.takeWhile_map, List.mem_map,
    List.forall_mem_cons, List.forall_mem_map]
  simp only [mem_takeWhile_of_pairwise (pairwise_written t), mem_written, Function.comp_apply,
    hwrite, hprint, hclose, true_and]
  constructor
  · rintro ((rfl | ⟨i, ⟨hi, hall⟩, rfl⟩) | ⟨rfl, hall⟩)
    · exact .inl rfl
    · exact .inr (.inl ⟨i, rfl, hi, fun j hj h => hall j h hj⟩)
    · exact .inr (.inr ⟨rfl, hall⟩)
  · rintro (rfl | ⟨i, rfl, hi, hall⟩ | ⟨rfl, hall⟩)
    · exact .inl (.inl rfl)
    · exact .inl (.inr ⟨i, ⟨hi, fun j h hj => hall j hj h⟩, rfl⟩)
    · exact .inr ⟨rfl, hall⟩

/-- No descriptor gets the notice twice. -/
theorem nodup_given (hd : ∀ i j, 0 ≤ t i → t i = t j → i = j)
    (hfree : ∀ i, t i = -1 ∨ 0 ≤ t i) : (given k peers t listenfd).Nodup := by
  refine List.Nodup.sublist (List.takeWhile_sublist _) ?_
  rw [exitHandler, broadcastText_eq]
  refine List.Nodup.append (List.Nodup.append ?_ ?_ ?_) ?_ ?_
  · exact List.nodup_singleton _
  · refine List.Nodup.map_on ?_ (pairwise_written t).nodup
    intro i hi j _ he
    have he' : t i = t j := by simpa using he
    exact hd i j ((hfree i).resolve_left (mem_written.1 hi)) he'
  · simp
  · exact List.nodup_singleton _
  · simp

end Given

/-! ## Where the signal comes -/

/-- What a signal finds: the slots hold different descriptors, each of an open connection
or one that the step has just closed; and a connection of before the step is in a slot as
long as it is open. -/
structure Found (k₀ k : Kernel) (t : Slot → ℤ) (done : List Event) : Prop where
  free : ∀ i, t i = -1 ∨ 0 ≤ t i
  distinct : ∀ i j, 0 ≤ t i → t i = t j → i = j
  owned : ∀ i, 0 ≤ t i → (∃ c, k.owner (t i) = some c) ∨ .close (t i) ∈ done
  held : ∀ fd c, k.owner fd = some c → c < k₀.accepted → 0 ≤ fd ∧ ∃ i, t i = fd

section Found
variable {W : Type} {w : Watcher W} {s : System W} {inp : Input} {t : Slot → ℤ}
  {done : List Event} {k₀ k : Kernel} {listenfd : ℤ}

theorem Sound.found (h : Sound listenfd t k) (k₀ : Kernel) (done : List Event) :
    Found k₀ k t done where
  free := h.free
  distinct := h.distinct
  owned := fun i hi => .inl (h.owned i hi)
  held := fun fd c hc _ => h.held fd c hc

/-- Behind the last event that the kernel minds, a step may be cut anywhere. -/
theorem replay_take {es : List Event} {n : ℕ} (h : ∀ e ∈ es.drop n, e.IsOutput) (k : Kernel) :
    k.replay (es.take n) = k.replay es := by
  have hrest : (k.replay (es.take n)).replay (es.drop n) = k.replay (es.take n) :=
    Kernel.replay_of_isOutput _ h
  rw [← hrest, Kernel.replay, Kernel.replay, Kernel.replay, ← List.foldl_append,
    List.take_append_drop]

/-- A connection that was accepted and is in no slot yet. -/
theorem Sound.found_accept (h : Sound listenfd t k) (hl : ∀ conn ∈ inp.accept, k.Fresh conn.fd)
    (done : List Event) : Found k (k.apply (.accept (newClient inp).fd)) t done := by
  cases ha : inp.accept with
  | none =>
    rw [newClient_fd_none ha]
    exact h.found k done
  | some conn =>
    have hfresh := hl conn ha
    rw [newClient_fd_some ha, Kernel.apply_accept]
    refine ⟨h.free, h.distinct, fun i hi => .inl ?_, fun fd c hc hlt => ?_⟩
    · obtain ⟨c, hc⟩ := h.owned i hi
      exact ⟨c, (Function.update_of_ne (h.fresh_ne hfresh i) _ _).trans hc⟩
    · by_cases he : fd = conn.fd
      · subst he
        simp only [Function.update_self, Option.some.injEq] at hc
        omega
      · exact h.held fd c ((Function.update_of_ne he _ _).symm.trans hc)

/-- A connection that was closed and is still in its slot. -/
theorem Sound.found_close (h : Sound listenfd t k) {i : Slot} (hi : 0 ≤ t i)
    (hdone : .close (t i) ∈ done) : Found k (k.apply (.close (t i))) t done := by
  obtain ⟨c, hc⟩ := h.owned i hi
  rw [Kernel.apply_close hc]
  refine ⟨h.free, h.distinct, fun j hj => ?_, fun fd d hd _ => ?_⟩
  · by_cases he : t j = t i
    · exact .inr (he ▸ hdone)
    · obtain ⟨d, hd⟩ := h.owned j hj
      exact .inl ⟨d, (Function.update_of_ne he _ _).trans hd⟩
  · by_cases he : fd = t i
    · subst he
      simp at hd
    · exact h.held fd d ((Function.update_of_ne he _ _).symm.trans hd)

theorem replay_take_isOutput {es : List Event} (h : ∀ e ∈ es, e.IsOutput) (k : Kernel) (n : ℕ) :
    k.replay (es.take n) = k :=
  k.replay_of_isOutput fun e he => h e (List.mem_of_mem_take he)

theorem found_before (hs : s.Sound) (hl : Legal w s inp) {n : ℕ} (hn : n ≤ settles w s.loop) :
    Found s.kernel (s.kernel.replay ((step w s.loop inp).2.take n))
      (fds s.loop.server.clients) ((step w s.loop inp).2.take n) := by
  obtain ⟨c, k⟩ := s
  have ht := transition w c inp
  simp only [System.Sound] at hs hn ⊢
  generalize step w c inp = r at ht ⊢
  cases ht with
  | wait =>
    obtain rfl : n = 0 := Nat.le_zero.1 hn
    exact hs.found k _
  | noConnection =>
    rw [List.take_nil]
    exact hs.found k _
  | idle =>
    rw [List.take_nil]
    exact hs.found k _
  | add s _ i hr hi =>
    have hn' : n ≤ 2 := hn
    interval_cases n
    · exact hs.found k _
    · exact hs.found_accept (hl rfl hr) _
    · exact hs.found_accept (hl rfl hr) _
  | refuse s _ hr hf =>
    have hn' : n ≤ 2 := hn
    interval_cases n
    · exact hs.found k _
    · exact hs.found_accept (hl rfl hr) _
    · exact hs.found_accept (hl rfl hr) _
  | leave s _ i hfd =>
    obtain ⟨es, hes, hout⟩ := leave_events w s i
    rw [hes]
    rcases n with _ | _ | n
    · exact hs.found k _
    · exact hs.found k _
    · rw [List.take_succ_cons, List.take_succ_cons, Kernel.replay_read, Kernel.replay_cons,
        replay_take_isOutput hout]
      exact hs.found_close hfd (by simp)
  | receive s _ i chunk =>
    rcases n with _ | n
    · exact hs.found k _
    · rw [List.take_succ_cons, Kernel.replay_read, replay_take_isOutput isOutput_receive]
      exact hs.found k _

theorem found_after (hs : s.Sound) (hl : Legal w s inp) {n : ℕ} (hn : settles w s.loop ≤ n) :
    Found s.kernel (s.kernel.replay ((step w s.loop inp).2.take n))
      (fds (step w s.loop inp).1.server.clients) ((step w s.loop inp).2.take n) := by
  obtain ⟨c, k⟩ := s
  have hafter : Chat.Sound (step w c inp).1.server.listenfd
      (fds (step w c inp).1.server.clients) (k.replay (step w c inp).2) :=
    sound_sysStep w ⟨c, k⟩ inp hs hl
  have ht := transition w c inp
  simp only [System.Sound] at hs hn ⊢
  generalize step w c inp = r at ht hafter ⊢
  cases ht with
  | wait =>
    rcases n with _ | n
    · exact hs.found k _
    · rw [replay_take (by simp)]
      exact hafter.found k _
  | noConnection =>
    rw [List.take_nil]
    exact hs.found k _
  | idle =>
    rw [List.take_nil]
    exact hs.found k _
  | add s _ i hr hi =>
    obtain ⟨n, rfl⟩ : ∃ m, n = m + 2 := Nat.exists_eq_add_of_le' hn
    rw [replay_take]
    · exact hafter.found k _
    · intro e he
      exact isOutput_addClient e (List.mem_of_mem_drop he)
  | refuse s _ hr hf =>
    -- the refused connection is open until the last event
    obtain ⟨n, rfl⟩ : ∃ m, n = m + 2 := Nat.exists_eq_add_of_le' hn
    rcases n with _ | _ | _ | n
    · exact hs.found_accept (hl rfl hr) _
    · exact hs.found_accept (hl rfl hr) _
    · exact hs.found_accept (hl rfl hr) _
    · rw [replay_take (by simp [acceptCall, refuse, sendMsg])]
      exact hafter.found k _
  | leave s _ i hfd =>
    obtain ⟨es, hes, hout⟩ := leave_events w s i
    obtain ⟨n, rfl⟩ : ∃ m, n = m + 2 := Nat.exists_eq_add_of_le' (Nat.le_of_add_right_le hn)
    rw [replay_take]
    · exact hafter.found k _
    · rw [hes]
      intro e he
      exact hout e (List.mem_of_mem_drop he)
  | receive s _ i chunk =>
    obtain ⟨n, rfl⟩ : ∃ m, n = m + 2 := Nat.exists_eq_add_of_le' (Nat.le_of_add_right_le hn)
    rw [replay_take]
    · exact hafter.found k _
    · intro e he
      exact isOutput_receive e (List.mem_of_mem_drop he)

theorem found_interrupt (hs : s.Sound) (hl : Legal w s inp) (hi : Interrupt w s.loop inp t done) :
    Found s.kernel (s.kernel.replay done) t done := by
  cases hi with
  | before n hn => exact found_before hs hl hn
  | after n hn => exact found_after hs hl hn

end Found

/-- Wherever in a run the signal comes: no call of `exit_handler` is made twice; a
connection of before the interrupted step that is still open gets the notice if and only
if neither it nor one in a slot before it has been reset by its client; every notice goes
to an open connection, or to a descriptor that the step has just closed; and the
listening socket is closed unless some client in the table has reset its connection. -/
theorem exit_notice {W : Type} {w : Watcher W} (listenfd : ℕ) (watch : W) (mem : Table)
    (inherited : Finset ℤ) (s : System W) (inp : Input) (peers : Peers) (t : Slot → ℤ)
    (done : List Event) (hs : Reachable w (System.boot listenfd watch mem inherited) s)
    (hl : Legal w s inp) (hi : Interrupt w s.loop inp t done) :
    let k := s.kernel.replay done
    let notices := given k peers t listenfd
    notices.Nodup ∧
      (∀ fd c, k.owner fd = some c → c < s.kernel.accepted →
        ∃ i, t i = fd ∧ (.write fd shuttingDown ∈ notices ↔
          ∀ j ≤ i, t j ≠ -1 → ¬ Reset k peers (t j))) ∧
      (∀ fd text, .write fd text ∈ notices →
        text = shuttingDown ∧ ((∃ c, k.owner fd = some c) ∨ .close fd ∈ done)) ∧
      (.close (listenfd : ℤ) ∈ notices ↔ ∀ j, t j ≠ -1 → ¬ Reset k peers (t j)) := by
  intro k notices
  have hsound := hs.sound (System.boot_sound listenfd watch mem inherited)
  have hfound := found_interrupt hsound hl hi
  refine ⟨nodup_given hfound.distinct hfound.free, fun fd c hc hlt => ?_, fun fd text h => ?_, ?_⟩
  · obtain ⟨h0, i, rfl⟩ := hfound.held fd c hc hlt
    refine ⟨i, rfl, ?_⟩
    rw [mem_given]
    constructor
    · rintro (h | ⟨i', h, -, hall⟩ | ⟨h, -⟩)
      · cases h
      · have he : t i = t i' := by simpa using h
        rwa [hfound.distinct i i' h0 he]
      · cases h
    · intro hall
      exact .inr (.inl ⟨i, rfl, by omega, hall⟩)
  · rcases mem_given.1 h with h | ⟨i, h, hne, -⟩ | ⟨h, -⟩
    · cases h
    · obtain ⟨rfl, rfl⟩ : fd = t i ∧ text = shuttingDown := by simpa using h
      exact ⟨rfl, hfound.owned i ((hfound.free i).resolve_left hne)⟩
    · cases h
  · rw [mem_given]
    simp

/-- Three clients are connected and none has reset its connection; the signal comes before
the first of them is read from. -/
theorem exit_notice_three :
    let notices := given threeState.kernel (fun _ => .alive) (fds threeState.loop.server.clients) 3
    .write 4 shuttingDown ∈ notices ∧ .write 5 shuttingDown ∈ notices ∧
      .write 6 shuttingDown ∈ notices := by
  intro notices
  have hreach : Reachable selectWatch (System.boot 3 (FdSets.init 3) default {0, 1, 2})
      threeState := ⟨threeClients, by decide, rfl⟩
  have hnotice := (exit_notice 3 (FdSets.init 3) default {0, 1, 2} threeState threeInput
    (fun _ => .alive) _ _ hreach (by decide) (.before 0 (Nat.zero_le _))).2.1
  have hgiven : ∀ fd c, threeState.kernel.owner fd = some c → c < threeState.kernel.accepted →
      .write fd shuttingDown ∈ notices := by
    intro fd c hc hlt
    obtain ⟨i, -, hi⟩ := hnotice fd c hc hlt
    exact hi.2 fun j _ _ hreset => by cases hreset.2
  exact ⟨hgiven 4 0 (by decide) (by decide), hgiven 5 1 (by decide) (by decide),
    hgiven 6 2 (by decide) (by decide)⟩

end AcademyLab.Chat
