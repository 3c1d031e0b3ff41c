import AcademyLab.Descriptors
import AcademyLab.Machine
import Mathlib.Logic.Function.Basic

/-!
# The connections of the forking echo server

The loop of `main` in the TCP `server.c` again, now with who holds which descriptor. A
child inherits the listening socket and the connection from its parent and closes the
first; the parent closes its copy of the second. A child may also be killed at any
moment, by `SIGPIPE` for one. The connection is shut when nobody holds it any more.
-/
namespace AcademyLab.Echo.Accepting
open Descriptors Machine

inductive Proc
  | parent
  | child (k : ℕ)
  deriving DecidableEq

/-- What a descriptor stands for: `listenfd`, or the connection that the `c`-th
successful `accept` has returned. -/
inductive Socket
  | listening
  | connection (c : ℕ)
  deriving DecidableEq

/-- Where the parent stands, with its `connfd`. -/
inductive Parent
  | accept
  | fork (c : ℕ)
  | close (c : ℕ)
  | exited
  deriving DecidableEq

/-- Where a child stands: before `close(listenfd)`, in the loop of `str_echo`, or behind
its `close(connfd)`. -/
inductive Child
  | unborn
  | closeListen (c : ℕ)
  | serving (c : ℕ)
  | closed
  | exited
  deriving DecidableEq

structure State where
  table : Table Proc Socket
  accepted : ℕ
  forked : ℕ
  parent : Parent
  child : ℕ → Child

/-- Whose turn it is; for the parent, whether `accept` or `fork` succeeds. -/
inductive Move
  | parent (ok : Bool)
  | child (k : ℕ)
  | kill (k : ℕ)

/-- After `listen`. -/
def start : State where
  table := fun p r => p = .parent && r = .listening
  accepted := 0
  forked := 0
  parent := .accept
  child := fun _ => .unborn

def State.goChild (s : State) (k : ℕ) (pc : Child) : State :=
  { s with child := Function.update s.child k pc }

/-- One system call of the parent. A `fork` that fails is not looked at: the parent goes
on to close the connection. -/
def stepParent (s : State) (ok : Bool) : State :=
  match s.parent with
  | .accept =>
    if ok then
      { s with
        table := acquire s.table .parent (.connection s.accepted)
        accepted := s.accepted + 1
        parent := .fork s.accepted }
    else { s with table := exit s.table .parent, parent := .exited }
  | .fork c =>
    if ok then
      { s with
        table := fork s.table .parent (.child s.forked)
        forked := s.forked + 1
        parent := .close c }.goChild s.forked (.closeListen c)
    else { s with parent := .close c }
  | .close c =>
    { s with table := close s.table .parent (.connection c), parent := .accept }
  | .exited => s

def stepChild (s : State) (k : ℕ) : State :=
  match s.child k with
  | .closeListen c =>
    { s with table := close s.table (.child k) .listening }.goChild k (.serving c)
  | .serving c =>
    { s with table := close s.table (.child k) (.connection c) }.goChild k .closed
  | .closed => { s with table := exit s.table (.child k) }.goChild k .exited
  | .unborn | .exited => s

/-- The end of a child by a signal. -/
def kill (s : State) (k : ℕ) : State :=
  match s.child k with
  | .closeListen _ | .serving _ | .closed =>
    { s with table := exit s.table (.child k) }.goChild k .exited
  | .unborn | .exited => s

def step (s : State) : Move → State × List Empty
  | .parent ok => (stepParent s ok, [])
  | .child k => (stepChild s k, [])
  | .kill k => (kill s k, [])

/-! ## What a position says -/

/-- The connection that the parent has in `connfd`. -/
def Parent.connection : Parent → Option ℕ
  | .fork c | .close c => some c
  | .accept | .exited => none

/-- The connection that a child serves, or is about to. -/
def Child.connection : Child → Option ℕ
  | .closeListen c | .serving c => some c
  | .unborn | .closed | .exited => none

def Parent.holds (pc : Parent) : Socket → Bool
  | .listening => pc ≠ .exited
  | .connection c => pc.connection = some c

def Child.holds : Child → Socket → Bool
  | .closeListen _, .listening => true
  | pc, .connection c => pc.connection = some c
  | _, .listening => false

def State.holds (s : State) : Table Proc Socket
  | .parent => s.parent.holds
  | .child k => (s.child k).holds

structure Inv (s : State) : Prop where
  table : s.table = s.holds
  unborn : ∀ k, s.forked ≤ k → s.child k = .unborn
  parent_lt : ∀ c, s.parent.connection = some c → c < s.accepted
  child_lt : ∀ k c, (s.child k).connection = some c → c < s.accepted
  single : ∀ k k' c, (s.child k).connection = some c → (s.child k').connection = some c → k = k'
  unserved : ∀ c, s.parent = .fork c → ∀ k, (s.child k).connection ≠ some c

theorem inv_start : Inv start where
  table := by
    funext p r
    cases p <;> cases r <;> simp [start, State.holds, Parent.holds, Child.holds,
      Parent.connection, Child.connection]
  unborn := fun _ _ => rfl
  parent_lt := fun _ h => nomatch h
  child_lt := fun _ _ h => nomatch h
  single := fun _ _ _ h => nomatch h
  unserved := fun _ h => nomatch h

section Invariant
variable {s : State}

theorem goChild_child (k k' : ℕ) (pc : Child) :
    (s.goChild k pc).child k' = if k' = k then pc else s.child k' :=
  Function.update_apply s.child k pc k'

theorem inv_accept (h : Inv s) (hpc : s.parent = .accept) :
    Inv { s with
      table := acquire s.table .parent (.connection s.accepted)
      accepted := s.accepted + 1
      parent := .fork s.accepted } where
  table := by
    funext p r
    cases p with
    | parent =>
      cases r <;> simp [acquire, h.table, State.holds, hpc, Parent.holds, Parent.connection,
        eq_comm]
    | child k => simp [acquire, h.table, State.holds]
  unborn := h.unborn
  parent_lt := fun c hc => by
    obtain rfl : s.accepted = c := Option.some.inj hc
    exact Nat.lt_succ_self _
  child_lt := fun k c hc => (h.child_lt k c hc).trans (Nat.lt_succ_self _)
  single := h.single
  unserved := fun c hc k hk => by
    obtain rfl : s.accepted = c := Parent.fork.inj hc
    exact lt_irrefl _ (h.child_lt k _ hk)

theorem inv_fork {c : ℕ} (h : Inv s) (hpc : s.parent = .fork c) :
    Inv ({ s with
      table := fork s.table .parent (.child s.forked)
      forked := s.forked + 1
      parent := .close c }.goChild s.forked (.closeListen c)) where
  table := by
    funext p r
    cases p with
    | parent =>
      cases r <;> simp [fork, h.table, State.holds, hpc, Parent.holds, Parent.connection,
        State.goChild]
    | child k =>
      by_cases hk : k = s.forked
      · subst hk
        cases r <;> simp [h.table, State.holds, hpc, Parent.holds, Parent.connection,
          State.goChild, Child.holds, Child.connection]
      · simp [fork, h.table, State.holds, hk, State.goChild]
  unborn := fun k hk => by
    have hk' : s.forked + 1 ≤ k := hk
    rw [goChild_child, if_neg (by omega)]
    exact h.unborn k (by omega)
  parent_lt := fun c' hc' => h.parent_lt c' (by rw [hpc]; exact hc')
  child_lt := fun k c' hc' => by
    rw [goChild_child] at hc'
    split_ifs at hc' with hk
    · obtain rfl : c = c' := Option.some.inj hc'
      exact h.parent_lt c (by rw [hpc]; rfl)
    · exact h.child_lt k c' hc'
  single := fun k k' c' hk hk' => by
    rw [goChild_child] at hk hk'
    split_ifs at hk hk' with heq heq' heq'
    · rw [heq, heq']
    · obtain rfl : c = c' := Option.some.inj hk
      exact absurd hk' (h.unserved c hpc k')
    · obtain rfl : c = c' := Option.some.inj hk'
      exact absurd hk (h.unserved c hpc k)
    · exact h.single k k' c' hk hk'
  unserved := fun _ hc' => nomatch hc'

theorem inv_close {c : ℕ} (h : Inv s) (hpc : s.parent = .close c) :
    Inv { s with table := close s.table .parent (.connection c), parent := .accept } where
  table := by
    funext p r
    cases p with
    | parent =>
      cases r <;> simp [close, h.table, State.holds, hpc, Parent.holds, Parent.connection, eq_comm]
    | child k => simp [close, h.table, State.holds]
  unborn := h.unborn
  parent_lt := fun _ hc => nomatch hc
  child_lt := h.child_lt
  single := h.single
  unserved := fun _ hc => nomatch hc

theorem inv_parent (h : Inv s) (ok : Bool) : Inv (stepParent s ok) := by
  cases hpc : s.parent with
  | accept =>
    cases ok with
    | true =>
      simp only [stepParent, hpc, if_true]
      exact inv_accept h hpc
    | false =>
      simp only [stepParent, hpc, Bool.false_eq_true, if_false]
      refine ⟨?_, h.unborn, (fun _ hc => by cases hc), h.child_lt, h.single,
        fun _ hc => by cases hc⟩
      funext p r
      cases p with
      | parent => cases r <;> simp [exit, State.holds, Parent.holds, Parent.connection]
      | child k => simp [exit, h.table, State.holds]
  | fork c =>
    cases ok with
    | true =>
      simp only [stepParent, hpc, if_true]
      exact inv_fork h hpc
    | false =>
      simp only [stepParent, hpc, Bool.false_eq_true, if_false]
      refine ⟨?_, h.unborn, fun c' hc' => h.parent_lt c' (by rw [hpc]; exact hc'), h.child_lt,
        h.single, fun _ hc => by cases hc⟩
      funext p r
      cases p with
      | parent => cases r <;> simp [h.table, State.holds, hpc, Parent.holds, Parent.connection]
      | child k => simp [h.table, State.holds]
  | close c =>
    simp only [stepParent, hpc]
    exact inv_close h hpc
  | exited => simpa only [stepParent, hpc] using h

/-- A step of the child `k` that takes no connection it has not had. -/
theorem inv_goChild {table : Table Proc Socket} {k : ℕ} {q : Child} (h : Inv s)
    (hborn : s.child k ≠ .unborn) (hrow : table (.child k) = q.holds)
    (hrest : ∀ p, p ≠ .child k → table p = s.table p)
    (hq : ∀ c, q.connection = some c → (s.child k).connection = some c) :
    Inv ({ s with table := table }.goChild k q) := by
  have hkept : ∀ k' c, (if k' = k then q else s.child k').connection = some c →
      (s.child k').connection = some c := fun k' c hc => by
    split_ifs at hc with hk
    · rw [hk]
      exact hq c hc
    · exact hc
  constructor
  · funext p r
    by_cases hp : p = .child k
    · subst hp
      simp [State.holds, State.goChild, hrow]
    · cases p with
      | parent => simp [State.goChild, State.holds, hrest _ hp, h.table]
      | child k' =>
        have hk : k' ≠ k := fun hk => hp (by rw [hk])
        simp [State.goChild, State.holds, hrest _ hp, h.table, hk]
  · intro k' hk'
    have hne : k' ≠ k := fun hk => hborn (h.unborn k (by rw [← hk]; exact hk'))
    rw [goChild_child, if_neg hne]
    exact h.unborn k' hk'
  · exact h.parent_lt
  · intro k' c hc
    rw [goChild_child] at hc
    exact h.child_lt k' c (hkept k' c hc)
  · intro k' k'' c hc hc'
    rw [goChild_child] at hc hc'
    exact h.single k' k'' c (hkept k' c hc) (hkept k'' c hc')
  · intro c hpc k' hc
    rw [goChild_child] at hc
    exact h.unserved c hpc k' (hkept k' c hc)

theorem inv_child (h : Inv s) (k : ℕ) : Inv (stepChild s k) := by
  have hrow : s.table (.child k) = (s.child k).holds := by
    rw [h.table]
    rfl
  cases hpc : s.child k with
  | closeListen c =>
    simp only [stepChild, hpc]
    rw [hpc] at hrow
    refine inv_goChild h (by rw [hpc]; simp) ?_ ?_ fun c' hc' => by rwa [hpc]
    · funext r
      cases r <;> simp [close, hrow, Child.holds, Child.connection]
    · intro p hp
      funext r
      simp [close, hp]
  | serving c =>
    simp only [stepChild, hpc]
    rw [hpc] at hrow
    refine inv_goChild h (by rw [hpc]; simp) ?_ ?_ fun c' hc' => by cases hc'
    · funext r
      cases r <;> simp [close, hrow, Child.holds, Child.connection, eq_comm]
    · intro p hp
      funext r
      simp [close, hp]
  | closed =>
    simp only [stepChild, hpc]
    refine inv_goChild h (by rw [hpc]; simp) ?_ ?_ fun c' hc' => by cases hc'
    · funext r
      cases r <;> simp [exit, Child.holds, Child.connection]
    · intro p hp
      funext r
      simp [exit, hp]
  | unborn | exited => simpa only [stepChild, hpc] using h

theorem inv_kill (h : Inv s) (k : ℕ) : Inv (kill s k) := by
  cases hpc : s.child k with
  | closeListen c | serving c | closed =>
    simp only [kill, hpc]
    refine inv_goChild h (by rw [hpc]; simp) ?_ ?_ fun c' hc' => by cases hc'
    · funext r
      cases r <;> simp [exit, Child.holds, Child.connection]
    · intro p hp
      funext r
      simp [exit, hp]
  | unborn | exited => simpa only [kill, hpc] using h

theorem inv_run (moves : List Move) : Inv (exec step start moves) := by
  refine invariant_exec Inv (fun s m h => ?_) inv_start moves
  cases m with
  | parent ok => exact inv_parent h ok
  | child k => exact inv_child h k
  | kill k => exact inv_kill h k

end Invariant

/-- Whatever the order of the moves: the parent comes back to `accept` without a
descriptor for any connection; each connection is served by one child at most, which
holds a descriptor for it and, once it serves, for nothing else; and a connection stays
open just as long as the parent has it in `connfd` or a child serves it. -/
theorem accept_loop (moves : List Move) :
    let s := exec step start moves
    (s.parent = .accept → ∀ c, s.table .parent (.connection c) = false) ∧
      (∀ k c, s.child k = .serving c → ∀ r, s.table (.child k) r = true ↔ r = .connection c) ∧
      (∀ c, InUse s.table (.connection c) ↔
        s.parent.connection = some c ∨ ∃ k, (s.child k).connection = some c) ∧
      (∀ k k' c, (s.child k).connection = some c → (s.child k').connection = some c →
        k = k') := by
  intro s
  have h : Inv s := inv_run moves
  refine ⟨fun hpc c => ?_, fun k c hpc r => ?_, fun c => ?_, h.single⟩
  · rw [h.table]
    simp [State.holds, hpc, Parent.holds, Parent.connection]
  · rw [h.table]
    cases r <;> simp [State.holds, hpc, Child.holds, Child.connection, eq_comm]
  · constructor
    · rintro ⟨p, hp⟩
      rw [h.table] at hp
      cases p with
      | parent => exact .inl (by simpa [State.holds, Parent.holds] using hp)
      | child k => exact .inr ⟨k, by simpa [State.holds, Child.holds] using hp⟩
    · rintro (hp | ⟨k, hk⟩)
      · refine ⟨.parent, ?_⟩
        rw [h.table]
        simpa [State.holds, Parent.holds] using hp
      · refine ⟨.child k, ?_⟩
        rw [h.table]
        simpa [State.holds, Child.holds] using hk

end AcademyLab.Echo.Accepting
