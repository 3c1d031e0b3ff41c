import AcademyLab.Chat.Server
import Mathlib.Data.Finset.Basic

/-!
# The servers and the kernel's descriptor table

The kernel numbers connections as `accept` returns them and knows for each open
descriptor the connection it belongs to; descriptor numbers are reused, the
numbers of connections are not. It replays the events of a server. A run of the
system is a run of a server in which each `accept` that succeeds returns a
descriptor that is not open.
-/
namespace AcademyLab.Chat
open Machine

/-- `others` are the descriptors that are open and no connection: those the
program inherits and its listening socket. `reported` gives, for a descriptor
that the last `select()` or `poll()` reported, the connection it then was. -/
structure Kernel where
  accepted : ℕ
  owner : ℤ → Option ℕ
  closes : ℕ → ℕ
  reported : ℤ → Option ℕ
  others : Finset ℤ

namespace Kernel

def apply (k : Kernel) : Event → Kernel
  | .ready fds => { k with reported := fun fd => if fd ∈ fds then k.owner fd else none }
  | .accept fd =>
    if fd < 0 then k
    else { k with
      accepted := k.accepted + 1
      owner := Function.update k.owner fd (some k.accepted) }
  | .close fd =>
    match k.owner fd with
    | some c => { k with
        owner := Function.update k.owner fd none
        closes := Function.update k.closes c (k.closes c + 1) }
    | none => { k with others := k.others.erase fd }
  | _ => k

/-- The kernel after the events of a trace. -/
def replay (k : Kernel) (es : List Event) : Kernel := es.foldl apply k

/-- A descriptor that `accept` may return. -/
def Fresh (k : Kernel) (fd : ℤ) : Prop := k.owner fd = none ∧ fd ∉ k.others

instance (k : Kernel) (fd : ℤ) : Decidable (k.Fresh fd) :=
  inferInstanceAs (Decidable (_ ∧ _))

/-- At program start, with the listening socket made. -/
def boot (listenfd : ℕ) (inherited : Finset ℤ) : Kernel where
  accepted := 0
  owner _ := none
  closes _ := 0
  reported _ := none
  others := insert (listenfd : ℤ) inherited

@[simp] theorem replay_nil (k : Kernel) : k.replay [] = k := rfl

@[simp] theorem replay_cons (k : Kernel) (e : Event) (es : List Event) :
    k.replay (e :: es) = (k.apply e).replay es := rfl

theorem apply_accept (k : Kernel) (fd : ℕ) : k.apply (.accept fd) = { k with
    accepted := k.accepted + 1
    owner := Function.update k.owner fd (some k.accepted) } := by
  have hfd : ¬ (fd : ℤ) < 0 := by omega
  simp only [apply, if_neg hfd]

theorem apply_close {k : Kernel} {fd : ℤ} {c : ℕ} (hc : k.owner fd = some c) :
    k.apply (.close fd) = { k with
      owner := Function.update k.owner fd none
      closes := Function.update k.closes c (k.closes c + 1) } := by
  simp only [apply, hc]

theorem apply_close_none {k : Kernel} {fd : ℤ} (hc : k.owner fd = none) :
    k.apply (.close fd) = { k with others := k.others.erase fd } := by
  simp only [apply, hc]

theorem apply_of_isOutput (k : Kernel) {e : Event} (h : e.IsOutput) : k.apply e = k := by
  cases e <;> first | rfl | exact h.elim

theorem replay_of_isOutput (k : Kernel) {es : List Event} (h : ∀ e ∈ es, e.IsOutput) :
    k.replay es = k := by
  induction es with
  | nil => rfl
  | cons e es ih =>
    rw [replay_cons, apply_of_isOutput k (h e List.mem_cons_self)]
    exact ih fun e he => h e (List.mem_cons_of_mem _ he)

@[simp] theorem replay_receive (k : Kernel) (clients : Table) (i : Slot) (data : CString.Bytes)
    (now : ℤ) : k.replay (receive clients i data now).2 = k :=
  k.replay_of_isOutput isOutput_receive

end Kernel

structure System (W : Type) where
  loop : Loop W
  kernel : Kernel

variable {W : Type}

def sysStep (w : Watcher W) (s : System W) (inp : Input) : System W × List Event :=
  let r := step w s.loop inp
  (⟨r.1, s.kernel.replay r.2⟩, r.2)

/-- The kernel may answer a step in this way: if the step calls `accept` and it
succeeds, the descriptor was not open. -/
def Legal (w : Watcher W) (s : System W) (inp : Input) : Prop :=
  s.loop.pc = .accept →
    w.listenerReady s.loop.server.watch s.loop.server.listenfd = true →
      ∀ conn ∈ inp.accept, s.kernel.Fresh conn.fd

instance (w : Watcher W) (s : System W) (inp : Input) : Decidable (Legal w s inp) :=
  inferInstanceAs (Decidable (_ → _))

/-- Every call of `accept` in the step succeeds. -/
def AcceptSucceeds (w : Watcher W) (s : System W) (inp : Input) : Prop :=
  s.loop.pc = .accept →
    w.listenerReady s.loop.server.watch s.loop.server.listenfd = true → inp.accept ≠ none

instance (w : Watcher W) (s : System W) (inp : Input) : Decidable (AcceptSucceeds w s inp) :=
  inferInstanceAs (Decidable (_ → _))

/-- The table and the kernel agree: every open connection is held by exactly
one slot, every slot that is not free holds an open connection, and a connection
that is no longer open has been closed once. -/
structure Sound (listenfd : ℤ) (t : Slot → ℤ) (k : Kernel) : Prop where
  free : ∀ i, t i = -1 ∨ 0 ≤ t i
  owned : ∀ i, 0 ≤ t i → ∃ c, k.owner (t i) = some c
  distinct : ∀ i j, 0 ≤ t i → t i = t j → i = j
  held : ∀ fd c, k.owner fd = some c → 0 ≤ fd ∧ ∃ i, t i = fd
  ownerLt : ∀ fd c, k.owner fd = some c → c < k.accepted
  ownerInj : ∀ fd fd' c, k.owner fd = some c → k.owner fd' = some c → fd = fd'
  notOther : ∀ fd c, k.owner fd = some c → fd ∉ k.others
  closesOpen : ∀ fd c, k.owner fd = some c → k.closes c = 0
  closesGone : ∀ c < k.accepted, (∀ fd, k.owner fd ≠ some c) → k.closes c = 1
  closesNew : ∀ c, k.accepted ≤ c → k.closes c = 0
  listener : listenfd ∈ k.others ∧ 0 ≤ listenfd

namespace Sound
variable {listenfd : ℤ} {t : Slot → ℤ} {k : Kernel}

theorem boot (listenfd : ℕ) (inherited : Finset ℤ) :
    Sound listenfd (fun _ => -1) (Kernel.boot listenfd inherited) where
  free _ := .inl rfl
  owned _ h := absurd h (by decide)
  distinct _ _ h := absurd h (by decide)
  held _ _ h := by simp [Kernel.boot] at h
  ownerLt _ _ h := by simp [Kernel.boot] at h
  ownerInj _ _ _ h := by simp [Kernel.boot] at h
  notOther _ _ h := by simp [Kernel.boot] at h
  closesOpen _ _ h := by simp [Kernel.boot] at h
  closesGone _ h := by simp [Kernel.boot] at h
  closesNew _ _ := rfl
  listener := ⟨Finset.mem_insert_self _ _, Int.natCast_nonneg _⟩

/-- No slot holds the listener's descriptor. -/
theorem ne_listenfd (h : Sound listenfd t k) (i : Slot) : t i ≠ listenfd := by
  intro he
  obtain ⟨c, hc⟩ := h.owned i (he ▸ h.listener.2)
  exact h.notOther _ c hc (he ▸ h.listener.1)

theorem fresh_ne (h : Sound listenfd t k) {fd : ℕ} (hf : k.Fresh fd) (i : Slot) :
    t i ≠ fd := by
  intro he
  obtain ⟨c, hc⟩ := h.owned i (by omega)
  rw [he, hf.1] at hc
  cases hc

theorem ready (h : Sound listenfd t k) (fds : Finset ℤ) :
    Sound listenfd t (k.apply (.ready fds)) :=
  ⟨h.free, h.owned, h.distinct, h.held, h.ownerLt, h.ownerInj, h.notOther, h.closesOpen,
    h.closesGone, h.closesNew, h.listener⟩

/-- `accept` returns a descriptor that was not open and a free slot takes it. -/
theorem accept (h : Sound listenfd t k) {i : Slot} (hi : t i < 0) {fd : ℕ} (hf : k.Fresh fd) :
    Sound listenfd (Function.update t i fd) (k.apply (.accept fd)) := by
  -- a connection that was open before keeps its descriptor and its number
  have hold {fd' : ℤ} {c : ℕ} (hc : Function.update k.owner fd (some k.accepted) fd' = some c) :
      (fd' = fd ∧ c = k.accepted) ∨ (fd' ≠ fd ∧ k.owner fd' = some c) := by
    by_cases he : fd' = fd
    · subst he
      simp only [Function.update_self, Option.some.injEq] at hc
      exact .inl ⟨rfl, hc.symm⟩
    · rw [Function.update_of_ne he] at hc
      exact .inr ⟨he, hc⟩
  have hne (j : Slot) : t j ≠ fd := h.fresh_ne hf j
  rw [Kernel.apply_accept]
  constructor
  · exact free_update h.free (.inr (Int.natCast_nonneg _))
  · intro j hj
    by_cases hji : j = i
    · subst hji
      exact ⟨k.accepted, by simp⟩
    · rw [Function.update_of_ne hji] at hj ⊢
      obtain ⟨c, hc⟩ := h.owned j hj
      exact ⟨c, by simpa [hne j] using hc⟩
  · exact Distinct.add h.distinct hne
  · intro fd' c hc
    rcases hold hc with ⟨rfl, -⟩ | ⟨hne', hc⟩
    · exact ⟨Int.natCast_nonneg _, i, by simp⟩
    · obtain ⟨h0, j, rfl⟩ := h.held fd' c hc
      have hji : j ≠ i := by rintro rfl; omega
      exact ⟨h0, j, Function.update_of_ne hji _ _⟩
  · intro fd' c hc
    rcases hold hc with ⟨-, rfl⟩ | ⟨-, hc⟩
    · exact Nat.lt_succ_self _
    · exact Nat.lt_succ_of_lt (h.ownerLt fd' c hc)
  · intro fd₁ fd₂ c h₁ h₂
    rcases hold h₁ with ⟨rfl, rfl⟩ | ⟨-, h₁⟩ <;> rcases hold h₂ with ⟨rfl, hc⟩ | ⟨-, h₂⟩
    · rfl
    · exact absurd (h.ownerLt _ _ h₂) (lt_irrefl _)
    · subst hc
      exact absurd (h.ownerLt _ _ h₁) (lt_irrefl _)
    · exact h.ownerInj fd₁ fd₂ c h₁ h₂
  · intro fd' c hc
    rcases hold hc with ⟨rfl, -⟩ | ⟨-, hc⟩
    · exact hf.2
    · exact h.notOther fd' c hc
  · intro fd' c hc
    rcases hold hc with ⟨-, rfl⟩ | ⟨-, hc⟩
    · exact h.closesNew _ le_rfl
    · exact h.closesOpen fd' c hc
  · intro c hc hno
    have hlt : c < k.accepted := by
      have hne' : c ≠ k.accepted := by
        rintro rfl
        exact hno fd (by simp)
      exact lt_of_le_of_ne (Nat.le_of_lt_succ hc) hne'
    refine h.closesGone c hlt fun fd' hc' => ?_
    have hfd : fd' ≠ fd := by
      rintro rfl
      rw [hf.1] at hc'
      cases hc'
    exact hno fd' ((Function.update_of_ne hfd _ _).trans hc')
  · intro c hc
    exact h.closesNew c (Nat.le_of_succ_le hc)
  · exact h.listener

/-- The descriptor of slot `i` is closed and the slot becomes free. -/
theorem close (h : Sound listenfd t k) {i : Slot} (hi : 0 ≤ t i) :
    Sound listenfd (Function.update t i (-1)) (k.apply (.close (t i))) := by
  obtain ⟨c, hc⟩ := h.owned i hi
  -- what is still open was open before, under another descriptor and number
  have hold {fd : ℤ} {d : ℕ} (hd : Function.update k.owner (t i) none fd = some d) :
      fd ≠ t i ∧ k.owner fd = some d ∧ d ≠ c := by
    by_cases he : fd = t i
    · subst he
      simp at hd
    · rw [Function.update_of_ne he] at hd
      refine ⟨he, hd, ?_⟩
      rintro rfl
      exact he (h.ownerInj _ _ _ hd hc)
  rw [Kernel.apply_close hc]
  constructor
  · exact free_update h.free (.inl rfl)
  · intro j hj
    have hji := ne_of_update_nonneg hj
    rw [Function.update_of_ne hji] at hj ⊢
    obtain ⟨d, hd⟩ := h.owned j hj
    have hne : t j ≠ t i := fun he => hji (h.distinct j i hj he)
    exact ⟨d, by simpa [hne] using hd⟩
  · exact Distinct.remove h.distinct
  · intro fd d hd
    obtain ⟨hne, hd, -⟩ := hold hd
    obtain ⟨h0, j, rfl⟩ := h.held fd d hd
    have hji : j ≠ i := by rintro rfl; exact hne rfl
    exact ⟨h0, j, Function.update_of_ne hji _ _⟩
  · intro fd d hd
    exact h.ownerLt fd d (hold hd).2.1
  · intro fd fd' d hd hd'
    exact h.ownerInj fd fd' d (hold hd).2.1 (hold hd').2.1
  · intro fd d hd
    exact h.notOther fd d (hold hd).2.1
  · intro fd d hd
    obtain ⟨-, hd, hdc⟩ := hold hd
    simpa [hdc] using h.closesOpen fd d hd
  · intro d hd hno
    by_cases hdc : d = c
    · subst hdc
      simp [h.closesOpen _ _ hc]
    · simp only [Function.update_of_ne hdc]
      refine h.closesGone d hd fun fd hfd => ?_
      have hne : fd ≠ t i := by
        rintro rfl
        rw [hc] at hfd
        exact hdc (Option.some.inj hfd).symm
      exact hno fd ((Function.update_of_ne hne _ _).trans hfd)
  · intro d hd
    have hdc : d ≠ c := by
      rintro rfl
      exact absurd (h.ownerLt _ _ hc) (Nat.not_lt.mpr hd)
    simpa [hdc] using h.closesNew d hd
  · exact h.listener

/-- An accepted descriptor that no slot takes is closed at once. -/
theorem refuse (h : Sound listenfd t k) {fd : ℕ} (hf : k.Fresh fd) :
    Sound listenfd t ((k.apply (.accept fd)).apply (.close fd)) := by
  have hk : (k.apply (.accept fd)).apply (.close fd) = { k with
      accepted := k.accepted + 1
      closes := Function.update k.closes k.accepted 1 } := by
    have ho : Function.update k.owner (fd : ℤ) none = k.owner := by
      rw [← hf.1, Function.update_eq_self]
    have hc : (k.apply (.accept fd)).owner fd = some k.accepted := by
      rw [Kernel.apply_accept]
      exact Function.update_self _ _ _
    rw [Kernel.apply_close hc, Kernel.apply_accept]
    simp [ho, h.closesNew]
  rw [hk]
  refine ⟨h.free, h.owned, h.distinct, h.held, ?_, h.ownerInj, h.notOther, ?_, ?_, ?_,
    h.listener⟩
  · intro fd' c hc
    exact Nat.lt_succ_of_lt (h.ownerLt fd' c hc)
  · intro fd' c hc
    have hne : c ≠ k.accepted := (h.ownerLt fd' c hc).ne
    simpa [hne] using h.closesOpen fd' c hc
  · intro c hc hno
    by_cases he : c = k.accepted
    · subst he
      simp
    · have hlt : c < k.accepted := lt_of_le_of_ne (Nat.le_of_lt_succ hc) he
      simpa [he] using h.closesGone c hlt hno
  · intro c hc
    have hc' : k.accepted + 1 ≤ c := hc
    have hne : c ≠ k.accepted := by omega
    simpa [hne] using h.closesNew c (Nat.le_of_succ_le hc')

/-- Closing the descriptor -1 that a failed `accept` returned changes nothing. -/
theorem closeInvalid (h : Sound listenfd t k) : Sound listenfd t (k.apply (.close (-1))) := by
  have ho : k.owner (-1) = none := by
    by_contra hne
    obtain ⟨c, hc⟩ := Option.ne_none_iff_exists'.mp hne
    exact absurd (h.held _ c hc).1 (by decide)
  rw [Kernel.apply_close_none ho]
  refine ⟨h.free, h.owned, h.distinct, h.held, h.ownerLt, h.ownerInj, ?_, h.closesOpen,
    h.closesGone, h.closesNew, ?_⟩
  · intro fd c hc hmem
    exact h.notOther fd c hc (Finset.mem_of_mem_erase hmem)
  · exact ⟨Finset.mem_erase.mpr ⟨by have := h.listener.2; omega, h.listener.1⟩, h.listener.2⟩

end Sound

section Steps
variable {w : Watcher W} {k : Kernel}

theorem newClient_fd_some {inp : Input} {conn : Conn} (h : inp.accept = some conn) :
    (newClient inp).fd = conn.fd := by simp [newClient, h]

theorem newClient_fd_none {inp : Input} (h : inp.accept = none) : (newClient inp).fd = -1 := by
  simp [newClient, h]

@[simp] theorem replay_addClient (s : Server W) (i : Slot) (client : Client) :
    k.replay (addClient w s i client).2 = k :=
  k.replay_of_isOutput isOutput_addClient

@[simp] theorem replay_refuse (client : Client) :
    k.replay (Chat.refuse client) = k.apply (.close client.fd) := by
  simp [Chat.refuse, Kernel.apply, sendMsg]

@[simp] theorem replay_leave (s : Server W) (i : Slot) :
    k.replay (leave w s i).2 = k.apply (.close (s.clients i).fd) := by
  obtain ⟨es, hes, hout⟩ := leave_events w s i
  rw [hes, Kernel.replay_cons, Kernel.replay_of_isOutput _ hout]

end Steps

/-- `Sound` of a state of the system. -/
def System.Sound (s : System W) : Prop :=
  Chat.Sound s.loop.server.listenfd (fds s.loop.server.clients) s.kernel

theorem Kernel.replay_accepted (k : Kernel) (client : Client) (es : List Event) :
    k.replay (acceptCall client ++ es) = (k.apply (.accept client.fd)).replay es := rfl

theorem Kernel.replay_read (k : Kernel) (fd : ℤ) (es : List Event) :
    k.replay (.read fd :: es) = k.replay es := rfl

theorem sound_sysStep (w : Watcher W) (s : System W) (inp : Input) (h : s.Sound)
    (hl : Legal w s inp) : (sysStep w s inp).1.Sound := by
  obtain ⟨c, k⟩ := s
  have ht := transition w c inp
  simp only [sysStep, System.Sound] at h ⊢
  generalize step w c inp = r at ht ⊢
  cases ht with
  | wait => exact h.ready _
  | noConnection => exact h
  | idle => exact h
  | add s _ i hr hi =>
    have hfree := firstFree_some hi
    simp only [Kernel.replay_accepted, replay_addClient]
    change Chat.Sound _ (fds (Function.update s.clients i (newClient inp))) _
    rw [fds_update]
    cases ha : inp.accept with
    | none =>
      have hm : k.apply (.accept (-1)) = k := rfl
      have hti : Function.update (fds s.clients) i (-1) = fds s.clients := by
        have hfd : (-1 : ℤ) = fds s.clients i := by
          rcases h.free i with hf | hf
          · exact hf.symm
          · exact absurd hfree (not_lt.mpr hf)
        rw [hfd, Function.update_eq_self]
      rw [newClient_fd_none ha, hm, hti]
      exact h
    | some conn =>
      rw [newClient_fd_some ha]
      exact h.accept hfree (hl rfl hr conn ha)
  | refuse s _ hr hn =>
    simp only [Kernel.replay_accepted, replay_refuse]
    cases ha : inp.accept with
    | none =>
      rw [newClient_fd_none ha]
      exact h.closeInvalid
    | some conn =>
      rw [newClient_fd_some ha]
      exact h.refuse (hl rfl hr conn ha)
  | leave s _ i hfd =>
    simp only [Kernel.replay_read, replay_leave]
    change Chat.Sound _ (fds (Function.update s.clients i _)) _
    rw [fds_update]
    exact h.close hfd
  | receive s _ i chunk =>
    simpa only [Kernel.replay_read, Kernel.replay_receive, fds_receive] using h

/-- The system at the first `select()` or `poll()` of the program. -/
def System.boot (listenfd : ℕ) (watch : W) (mem : Table) (inherited : Finset ℤ) : System W :=
  ⟨Chat.boot listenfd watch mem, Kernel.boot listenfd inherited⟩

@[simp] theorem System.boot_watch (listenfd : ℕ) (watch : W) (mem : Table)
    (inherited : Finset ℤ) :
    (System.boot listenfd watch mem inherited).loop.server.watch = watch := rfl

theorem System.boot_sound (listenfd : ℕ) (watch : W) (mem : Table) (inherited : Finset ℤ) :
    (System.boot listenfd watch mem inherited).Sound := Sound.boot listenfd inherited

/-- A state that some run of the system reaches from program start. -/
def Reachable (w : Watcher W) (start s : System W) : Prop :=
  ∃ is, Along (sysStep w) (Legal w) start is ∧ s = exec (sysStep w) start is

theorem Reachable.sound {w : Watcher W} {start s : System W} (h : start.Sound)
    (hs : Reachable w start s) : s.Sound := by
  obtain ⟨is, hl, rfl⟩ := hs
  exact invariant System.Sound (sound_sysStep w) h hl

end AcademyLab.Chat
