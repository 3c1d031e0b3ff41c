import AcademyLab.Fifo.Presence

/-!
# Who waits for a friend

`open(fifo_send, O_WRONLY)` of `lab_1.c` waits until the friend opens the FIFO. Once it
has resolved the name, it waits at an inode, and the friend may unlink the name.
-/
namespace AcademyLab.Fifo.Presence
open CString Machine

/-! ## Inodes and waiting threads -/

section Waiting
variable {ι ε : Type*} {fifos : ι → Entries ε} {s s' : State ι ε} {p q : ι} {i j : ℕ}
  {process : Process}

variable (fifos) in
/-- Different names lead to different inodes, and where a thread waits to write, nobody
reads, and no name leads but the one that the thread has opened. -/
structure Sound (s : State ι ε) : Prop where
  below : ∀ n i, s.names n = some i → i < s.next
  inj : ∀ n m i, s.names n = some i → s.names m = some i → n = m
  made : ∀ p i, (s.proc p).send = .waits i → i < s.next
  unread : ∀ p i, (s.proc p).send = .waits i → ¬ s.Read i
  found : ∀ p i, (s.proc p).send = .waits i → ∀ n, s.names n = some i → n = (fifos p).fifoSend

theorem sound_start : Sound fifos (start : State ι ε) :=
  ⟨by simp [start], by simp [start], by simp [start], by simp [start], by simp [start]⟩

/-- Who waits was waiting before, and nobody has come to read there. -/
theorem Sound.of (h : Sound fifos s) (hnames : s'.names = s.names) (hnext : s'.next = s.next)
    (hwaits : ∀ q j, (s'.proc q).send = .waits j →
      (s.proc q).send = .waits j ∧ (s'.Read j → s.Read j)) : Sound fifos s' := by
  refine ⟨?_, ?_, fun q j hq => ?_, fun q j hq => ?_, fun q j hq => ?_⟩
  · rw [hnames, hnext]
    exact h.below
  · rw [hnames]
    exact h.inj
  · rw [hnext]
    exact h.made q j (hwaits q j hq).1
  · exact fun hread => h.unread q j (hwaits q j hq).1 ((hwaits q j hq).2 hread)
  · rw [hnames]
    exact h.found q j (hwaits q j hq).1

/-- A reader comes to an inode, and nobody is left waiting there. -/
theorem Sound.of_reader (h : Sound fifos s) (i : ℕ) (hnames : s'.names = s.names)
    (hnext : s'.next = s.next)
    (hwaits : ∀ q j, (s'.proc q).send = .waits j → (s.proc q).send = .waits j ∧ j ≠ i)
    (hread : ∀ j, s'.Read j → s.Read j ∨ j = i) : Sound fifos s' :=
  h.of hnames hnext fun q j hq =>
    ⟨(hwaits q j hq).1, fun hr => (hread j hr).resolve_right (hwaits q j hq).2⟩

/-- No name leads to an inode that it did not lead to before, but one to a new inode. -/
theorem Sound.of_names (h : Sound fifos s) (name : ε)
    (hproc : ∀ q, (s'.proc q).send = (s.proc q).send ∧ (s'.proc q).recv = (s.proc q).recv)
    (hnext : s.next ≤ s'.next)
    (hnames : ∀ n i, s'.names n = some i →
      s.names n = some i ∨ n = name ∧ i = s.next ∧ i < s'.next) : Sound fifos s' := by
  have hwaits : ∀ q j, (s'.proc q).send = .waits j → (s.proc q).send = .waits j := fun q j hq => by
    rwa [(hproc q).1] at hq
  have hread : ∀ j, s'.Read j → s.Read j := fun j ⟨q, hq⟩ => ⟨q, by rwa [(hproc q).2] at hq⟩
  refine ⟨fun n i hn => ?_, fun n m i hn hm => ?_, fun q j hq => ?_, fun q j hq hr => ?_,
    fun q j hq n hn => ?_⟩
  · rcases hnames n i hn with hn | ⟨-, -, hi⟩
    · exact (h.below n i hn).trans_le hnext
    · exact hi
  · rcases hnames n i hn with hn | ⟨rfl, hi, -⟩ <;> rcases hnames m i hm with hm | ⟨rfl, hi', -⟩
    · exact h.inj n m i hn hm
    · exact absurd hi' (h.below n i hn).ne
    · exact absurd hi (h.below m i hm).ne
    · rfl
  · exact (h.made q j (hwaits q j hq)).trans_le hnext
  · exact h.unread q j (hwaits q j hq) (hread j hr)
  · rcases hnames n j hn with hn | ⟨-, hj, -⟩
    · exact h.found q j (hwaits q j hq) n hn
    · exact absurd hj (h.made q j (hwaits q j hq)).ne

theorem Sound.meetWriter (h : Sound fifos s) (i : ℕ) : Sound fifos (s.map (.meetWriter i)) := by
  refine h.of rfl rfl fun q j hq => ⟨?_, ?_⟩
  · simpa [State.map, Process.send_meetWriter] using hq
  · rintro ⟨r, hr⟩
    exact ⟨r, by simpa [State.map, Process.inode_meetWriter] using hr⟩

variable [DecidableEq ι]

theorem read_set (h : (s.set p process).Read j) : s.Read j ∨ process.recv.inode = some j := by
  obtain ⟨q, hq⟩ := h
  by_cases hne : q = p
  · subst hne
    exact .inr (by simpa [State.set] using hq)
  · exact .inl ⟨q, by simpa [State.set, hne] using hq⟩

theorem waits_set (h : ((s.set p process).proc q).send = .waits j) :
    q = p ∧ process.send = .waits j ∨ (s.proc q).send = .waits j := by
  by_cases hne : q = p
  · subst hne
    exact .inl ⟨rfl, by simpa [State.set] using h⟩
  · exact .inr (by simpa [State.set, hne] using h)

/-- A program that stops waiting or reading, or moves on within one inode. -/
theorem Sound.set (h : Sound fifos s)
    (hsend : ∀ j, process.send = .waits j → (s.proc p).send = .waits j)
    (hrecv : ∀ j, process.recv.inode = some j → (s.proc p).recv.inode = some j) :
    Sound fifos (s.set p process) := by
  refine h.of rfl rfl fun q j hq => ⟨?_, fun hread => ?_⟩
  · rcases waits_set hq with ⟨rfl, hp⟩ | hq'
    · exact hsend j hp
    · exact hq'
  · exact (read_set hread).elim id fun hp => ⟨p, hrecv j hp⟩

theorem Sound.finish (h : Sound fifos s) (p : ι) (m : Main) : Sound fifos (s.set p (.finish m)) :=
  h.set (by simp [Process.finish]) (by simp [Process.finish, Recv.inode])

theorem sound_waits (h : Sound fifos s) (hname : s.names (fifos p).fifoSend = some i)
    (hread : ¬ s.Read i) : Sound fifos (s.set p { s.proc p with send := .waits i }) := by
  have hwaits : ∀ q j, ((s.set p { s.proc p with send := .waits i }).proc q).send = .waits j →
      q = p ∧ i = j ∨ (s.proc q).send = .waits j := fun q j hq =>
    (waits_set hq).imp_left fun ⟨hp, hi⟩ => ⟨hp, Send.waits.inj hi⟩
  refine ⟨h.below, h.inj, fun q j hq => ?_, fun q j hq hr => ?_, fun q j hq n hn => ?_⟩
  · rcases hwaits q j hq with ⟨-, rfl⟩ | hq
    · exact h.below _ _ hname
    · exact h.made q j hq
  · have hr : s.Read j := (read_set hr).elim id fun hp => ⟨p, hp⟩
    rcases hwaits q j hq with ⟨-, rfl⟩ | hq
    · exact hread hr
    · exact h.unread q j hq hr
  · rcases hwaits q j hq with ⟨rfl, rfl⟩ | hq
    · exact h.inj _ _ _ hn hname
    · exact h.found q j hq n hn

variable [Fintype ι] [DecidableEq ε]

omit [Fintype ι] in
theorem sound_main (h : Sound fifos s) (p : ι) (ok : Bool) :
    Sound fifos (stepMain fifos s p ok) := by
  cases hmain : (s.proc p).main with
  | mkfifo =>
    simp only [stepMain, hmain]
    split_ifs
    · refine h.of_names (fifos p).fifoRecv (fun q => ?_) (Nat.le_succ _) fun n i hn => ?_
      · by_cases hq : q = p <;> simp [State.set, hq]
      · by_cases hne : n = (fifos p).fifoRecv
        · subst hne
          obtain rfl : s.next = i := by simpa using hn
          exact .inr ⟨rfl, rfl, Nat.lt_succ_self _⟩
        · exact .inl (by simpa [hne, State.set] using hn)
    · exact h.set (fun _ => id) fun _ => id
  | signal =>
    simp only [stepMain, hmain]
    exact h.set (fun _ => id) fun _ => id
  | unlinked =>
    simp only [stepMain, hmain]
    exact h.finish p .exited
  | running | exited | killed =>
    simp only [stepMain, hmain]
    exact h

omit [DecidableEq ε] in
theorem sound_send (h : Sound fifos s) (p : ι) : Sound fifos (stepSend fifos s p).1 := by
  unfold stepSend
  by_cases hlive : (s.proc p).Live
  · rw [if_pos hlive]
    cases hsend : (s.proc p).send with
    | fgets | close => exact h.set (by simp) fun _ => id
    | openFifo =>
      cases hname : s.names (fifos p).fifoSend with
      | none => exact h.set (by simp) fun _ => id
      | some i =>
        by_cases hread : s.Read i
        · simp only [if_pos hread]
          have hset : Sound fifos (s.set p { s.proc p with send := .write i }) :=
            h.set (by simp) fun _ => id
          exact hset.meetWriter i
        · simp only [if_neg hread]
          exact sound_waits h hname hread
    | waits => exact h
    | write i =>
      by_cases hread : s.Read i
      · simp only [if_pos hread]
        exact h.set (by simp) fun _ => id
      · simp only [if_neg hread]
        exact h.finish p .killed
  · rwa [if_neg hlive]

omit [DecidableEq ε] in
theorem sound_recv (h : Sound fifos s) (p : ι) : Sound fifos (stepRecv fifos s p).1 := by
  unfold stepRecv
  by_cases hlive : (s.proc p).Live
  · rw [if_pos hlive]
    cases hrecv : (s.proc p).recv with
    | openFifo =>
      cases hname : s.names (fifos p).fifoRecv with
      | none => exact h.finish p .exited
      | some i =>
        by_cases hwritten : s.Written i
        · simp only [if_pos hwritten]
          refine h.of_reader i rfl rfl (fun q j hq => ?_) fun j hread => ?_
          · obtain ⟨hq, hne⟩ := Process.waits_meetReader.1 hq
            rcases waits_set hq with ⟨rfl, hp⟩ | hq
            · exact ⟨hp, hne⟩
            · exact ⟨hq, hne⟩
          · obtain ⟨q, hq⟩ := hread
            have hread : (s.set p { s.proc p with recv := .read i }).Read j :=
              ⟨q, by simpa [State.map, Process.recv_meetReader] using hq⟩
            exact (read_set hread).imp_right fun hi => (Option.some.inj hi).symm
        · simp only [if_neg hwritten]
          refine h.of_reader i rfl rfl (fun q j hq => ?_) fun j hread => ?_
          · have hq' : (s.proc q).send = .waits j := by
              rcases waits_set hq with ⟨rfl, hp⟩ | hq
              · exact hp
              · exact hq
            refine ⟨hq', ?_⟩
            rintro rfl
            exact hwritten ⟨q, by rw [hq']; rfl⟩
          · exact (read_set hread).imp_right fun hi => (Option.some.inj hi).symm
    | waits => exact h
    | read i => exact h.set (fun _ => id) (by simp [hrecv, Recv.inode])
    | close i => exact h.set (fun _ => id) (by simp [Recv.inode])
  · rwa [if_neg hlive]

omit [Fintype ι] in
theorem sound_interrupt (h : Sound fifos s) (p : ι) : Sound fifos (interrupt fifos s p) := by
  cases hmain : (s.proc p).main with
  | mkfifo | signal =>
    simp only [interrupt, hmain]
    exact h.finish p .killed
  | running =>
    simp only [interrupt, hmain]
    refine h.of_names (fifos p).fifoRecv (fun q => ?_) le_rfl fun n i hn => ?_
    · by_cases hq : q = p <;> simp [State.set, hq]
    · by_cases hne : n = (fifos p).fifoRecv
      · simp [hne] at hn
      · exact .inl (by simpa [hne, State.set] using hn)
  | unlinked =>
    simp only [interrupt, hmain]
    refine h.of_names (fifos p).fifoRecv (fun q => ⟨rfl, rfl⟩) le_rfl fun n i hn => ?_
    by_cases hne : n = (fifos p).fifoRecv
    · simp [hne] at hn
    · exact .inl (by simpa [hne] using hn)
  | exited | killed =>
    simp only [interrupt, hmain]
    exact h

omit [Fintype ι] [DecidableEq ε] in
theorem sound_kill (h : Sound fifos s) (p : ι) : Sound fifos (kill s p) := by
  cases hmain : (s.proc p).main with
  | mkfifo | signal | running | unlinked =>
    simp only [kill, hmain]
    exact h.finish p .killed
  | exited | killed =>
    simp only [kill, hmain]
    exact h

theorem sound_step (h : Sound fifos s) (input : Input ι) : Sound fifos (step fifos s input).1 := by
  cases input with
  | main p ok => exact sound_main h p ok
  | send p => exact sound_send h p
  | recv p => exact sound_recv h p
  | sigint p => exact sound_interrupt h p
  | sigkill p => exact sound_kill h p

end Waiting

/-! ## What becomes of who waits -/

section Lost
variable {ι ε : Type*} {fifos : ι → Entries ε} {s s' : State ι ε} {p q : ι} {i j : ℕ}
  {process : Process}

def Process.Ended (r : Process) : Prop := r.main = .exited ∨ r.main = .killed

/-- A thread waits at an inode that no name leads to, or the program has ended. -/
structure Lost (s : State ι ε) (p : ι) (i : ℕ) : Prop where
  made : i < s.next
  nameless : ∀ n, s.names n ≠ some i
  stuck : (s.proc p).send = .waits i ∨ (s.proc p).Ended

theorem Lost.of (h : Lost s p i) (hnext : s.next ≤ s'.next)
    (hnames : ∀ n, s'.names n = some i → s.names n = some i ∨ i = s.next)
    (hstuck : (s'.proc p).send = .waits i ∨ (s'.proc p).Ended) : Lost s' p i := by
  refine ⟨h.made.trans_le hnext, fun n hn => ?_, hstuck⟩
  rcases hnames n hn with hn | hi
  · exact h.nameless n hn
  · exact h.made.ne hi

theorem Lost.map (h : Lost s p i) {f : Process → Process}
    (hsend : (s.proc p).send = .waits i → (f (s.proc p)).send = .waits i)
    (hmain : (f (s.proc p)).main = (s.proc p).main) : Lost (s.map f) p i := by
  refine h.of le_rfl (fun n hn => .inl hn) (h.stuck.imp hsend fun hended => ?_)
  simpa [State.map, Process.Ended, hmain] using hended

variable [DecidableEq ι]

theorem Lost.set (h : Lost s p i)
    (hq : q = p → process.Ended ∨
      process.send = (s.proc q).send ∧ ((s.proc q).Ended → process.Ended)) :
    Lost (s.set q process) p i := by
  refine h.of le_rfl (fun n hn => .inl hn) ?_
  by_cases hne : q = p
  · subst hne
    rcases hq rfl with hended | ⟨hsend, hended⟩
    · exact .inr (by simpa [State.set] using hended)
    · exact h.stuck.imp (by simp [State.set, hsend]) fun h => by simpa [State.set] using hended h
  · simpa [State.set, Ne.symm hne] using h.stuck

theorem Lost.finish (h : Lost s p i) (q : ι) {m : Main} (hm : m = .exited ∨ m = .killed) :
    Lost (s.set q (.finish m)) p i :=
  h.set fun _ => .inl hm

theorem Process.not_live_of_ended {r : Process} (h : r.Ended) : ¬ r.Live := by
  rcases h with h | h <;> simp [Process.Live, h]

variable [DecidableEq ε]

theorem lost_main (h : Lost s p i) (q : ι) (ok : Bool) :
    Lost (stepMain fifos s q ok) p i := by
  cases hmain : (s.proc q).main with
  | mkfifo =>
    have hset : Lost (s.set q { s.proc q with main := .signal }) p i :=
      h.set fun _ => .inr ⟨rfl, by simp [Process.Ended, hmain]⟩
    simp only [stepMain, hmain]
    split_ifs
    · refine hset.of (Nat.le_succ _) (fun n hn => ?_) hset.stuck
      by_cases hne : n = (fifos q).fifoRecv
      · subst hne
        obtain rfl : s.next = i := by simpa using hn
        exact .inr rfl
      · exact .inl (by simpa [hne, State.set] using hn)
    · exact hset
  | signal =>
    simp only [stepMain, hmain]
    exact h.set fun _ => .inr ⟨rfl, by simp [Process.Ended, hmain]⟩
  | unlinked =>
    simp only [stepMain, hmain]
    exact h.finish q (.inl rfl)
  | running | exited | killed =>
    simp only [stepMain, hmain]
    exact h

theorem lost_interrupt (h : Lost s p i) (q : ι) : Lost (interrupt fifos s q) p i := by
  cases hmain : (s.proc q).main with
  | mkfifo | signal =>
    simp only [interrupt, hmain]
    exact h.finish q (.inr rfl)
  | running =>
    have hset : Lost (s.set q { s.proc q with main := .unlinked }) p i :=
      h.set fun _ => .inr ⟨rfl, by simp [Process.Ended, hmain]⟩
    simp only [interrupt, hmain]
    refine hset.of le_rfl (fun n hn => ?_) hset.stuck
    by_cases hne : n = (fifos q).fifoRecv
    · simp [hne] at hn
    · exact .inl (by simpa [hne, State.set] using hn)
  | unlinked =>
    simp only [interrupt, hmain]
    refine h.of le_rfl (fun n hn => ?_) h.stuck
    by_cases hne : n = (fifos q).fifoRecv
    · simp [hne] at hn
    · exact .inl (by simpa [hne] using hn)
  | exited | killed =>
    simp only [interrupt, hmain]
    exact h

omit [DecidableEq ε] in
theorem lost_kill (h : Lost s p i) (q : ι) : Lost (kill s q) p i := by
  cases hmain : (s.proc q).main with
  | mkfifo | signal | running | unlinked =>
    simp only [kill, hmain]
    exact h.finish q (.inr rfl)
  | exited | killed =>
    simp only [kill, hmain]
    exact h

variable [Fintype ι]

omit [DecidableEq ε] in
/-- The program itself does not send, as it waits or has ended. -/
theorem stepSend_lost (h : Lost s p i) : stepSend fifos s p = (s, []) := by
  by_cases hlive : (s.proc p).Live
  · have hsend : (s.proc p).send = .waits i :=
      h.stuck.resolve_right fun hended => Process.not_live_of_ended hended hlive
    simp [stepSend, hsend]
  · simp [stepSend, hlive]

omit [DecidableEq ε] in
theorem lost_send (h : Lost s p i) (q : ι) : Lost (stepSend fifos s q).1 p i := by
  by_cases hq : q = p
  · rw [hq, stepSend_lost h]
    exact h
  have hset : ∀ process, Lost (s.set q process) p i := fun process => h.set fun heq => absurd heq hq
  unfold stepSend
  by_cases hlive : (s.proc q).Live
  · rw [if_pos hlive]
    cases hsend : (s.proc q).send with
    | fgets | close => exact hset _
    | openFifo =>
      cases hname : s.names (fifos q).fifoSend with
      | none => exact hset _
      | some j =>
        by_cases hread : s.Read j
        · simp only [if_pos hread]
          refine (hset _).map (fun hwaits => ?_) (Process.main_meetWriter j _)
          rwa [Process.send_meetWriter]
        · simp only [if_neg hread]
          exact hset _
    | waits => exact h
    | write j =>
      by_cases hread : s.Read j
      · simp only [if_pos hread]
        exact hset _
      · simp only [if_neg hread]
        exact hset _
  · rwa [if_neg hlive]

omit [DecidableEq ε] in
theorem lost_recv (h : Lost s p i) (q : ι) : Lost (stepRecv fifos s q).1 p i := by
  unfold stepRecv
  by_cases hlive : (s.proc q).Live
  · rw [if_pos hlive]
    cases hrecv : (s.proc q).recv with
    | openFifo =>
      cases hname : s.names (fifos q).fifoRecv with
      | none => exact h.finish q (.inl rfl)
      | some j =>
        by_cases hwritten : s.Written j
        · have hset : Lost (s.set q { s.proc q with recv := .read j }) p i :=
            h.set fun _ => .inr ⟨rfl, id⟩
          have hne : i ≠ j := by
            rintro rfl
            exact h.nameless _ hname
          simp only [if_pos hwritten]
          exact hset.map (fun hwaits => Process.waits_meetReader.2 ⟨hwaits, hne⟩)
            (Process.main_meetReader j _)
        · simp only [if_neg hwritten]
          exact h.set fun _ => .inr ⟨rfl, id⟩
    | waits => exact h
    | read | close => exact h.set fun _ => .inr ⟨rfl, id⟩
  · rwa [if_neg hlive]

theorem lost_step (h : Lost s p i) (input : Input ι) : Lost (step fifos s input).1 p i := by
  cases input with
  | main q ok => exact lost_main h q ok
  | send q => exact lost_send h q
  | recv q => exact lost_recv h q
  | sigint q => exact lost_interrupt h q
  | sigkill q => exact lost_kill h q

/-- The friend's thread comes to the inode at which a thread waits. -/
theorem meeting (hwait : (s.proc p).send = .waits i) (hlive : (s.proc q).Live)
    (hrecv : (s.proc q).recv = .openFifo) (hname : s.names (fifos q).fifoRecv = some i) :
    ((step fifos s (.recv q)).1.proc p).send = .write i := by
  have hwritten : s.Written i := ⟨p, by rw [hwait]; rfl⟩
  have hset : ((s.set q { s.proc q with recv := .read i }).proc p).send = .waits i := by
    by_cases hne : p = q
    · subst hne
      simp [State.set, hwait]
    · simp [State.set, hne, hwait]
  simp only [step, stepRecv, if_pos hlive, hrecv, hname, if_pos hwritten, State.map]
  simp [Process.meetReader, hset]

/-- What a program that is up does until it opens its FIFO: it starts its threads, unless
they run already. -/
def State.turns (s : State ι ε) (q : ι) : List (Input ι) :=
  if (s.proc q).main = .signal then [.main q true, .recv q] else [.recv q]

theorem meeting_turns (hwait : (s.proc p).send = .waits i) (hup : (s.proc q).Up)
    (hrecv : (s.proc q).recv = .openFifo) (hname : s.names (fifos q).fifoRecv = some i) :
    ((exec (step fifos) s (s.turns q)).proc p).send = .write i := by
  rcases hup with hsignal | hrunning
  · have hs : s.turns q = [.main q true, .recv q] := if_pos hsignal
    have hstep : (step fifos s (.main q true)).1 = s.set q { s.proc q with main := .running } := by
      simp only [step, stepMain, hsignal]
    rw [hs, exec_cons, hstep]
    refine meeting ?_ (.inl ?_) ?_ hname
    · by_cases hne : p = q
      · subst hne
        simpa [State.set] using hwait
      · simpa [State.set, hne] using hwait
    · simp [State.set]
    · simpa [State.set] using hrecv
  · have hs : s.turns q = [.recv q] := if_neg (by simp [hrunning])
    rw [hs]
    exact meeting hwait (.inl hrunning) hrecv hname

end Lost

/-! ## Runs -/

section Runs
variable {ι ε : Type*} [DecidableEq ι] [Fintype ι] [DecidableEq ε] {fifos : ι → Entries ε}
  {s : State ι ε} {p : ι}

omit [DecidableEq ι] [Fintype ι] [DecidableEq ε] in
theorem waiting_meets (h : Sound fifos s) (htidy : Tidy fifos s) {i : ℕ}
    (hwait : (s.proc p).send = .waits i) {n : ε} (hn : s.names n = some i) :
    ∃ q, (s.proc q).Up ∧ (s.proc q).recv = .openFifo ∧ (fifos q).fifoRecv = n := by
  obtain ⟨q, hup, rfl⟩ := (htidy.exact n).1 (by simp [hn])
  refine ⟨q, hup, ?_, rfl⟩
  have hnone : ∀ j, (s.proc q).recv.inode ≠ some j := by
    intro j hj
    have hname := htidy.held.inode q hup j hj
    rw [hn] at hname
    obtain rfl := Option.some.inj hname
    exact h.unread p i hwait ⟨q, hj⟩
  cases hrecv : (s.proc q).recv with
  | openFifo => rfl
  | waits j | read j | close j => exact absurd (by simp [hrecv, Recv.inode]) (hnone j)

end Runs

end AcademyLab.Fifo.Presence
