import AcademyLab.Machine
import Mathlib.Data.Finset.Basic
import Mathlib.Data.Finset.Lattice.Lemmas
import Mathlib.Data.Finset.Range

/-!
# The children of the forking echo server

The loop of `main` in the TCP `server.c`, its children, and `sig_chld`. A child
is named by the number of the `fork()` that made it. A move is one `fork()`, the
exit of one child, the delivery of `SIGCHLD`, one `waitpid` of the handler's
loop, or the return of the handler. The signal is blocked while its handler
runs, and several that arrive meanwhile are one.
-/
namespace AcademyLab.Echo
open Machine

/-- Where `sig_chld` stands: not called, before `waitpid`, or behind its loop. -/
inductive Handler
  | outside
  | inLoop
  | leaving
  deriving DecidableEq

structure Server where
  forked : ℕ
  live : Finset ℕ
  zombies : Finset ℕ
  reaped : Finset ℕ
  pending : Bool
  handler : Handler

inductive Move
  | fork
  | childExit (c : ℕ)
  | deliver
  | waitpid (pick : ℕ)
  | leave

/-- After `signal(SIGCHLD, sig_chld)`. -/
def Server.start : Server := ⟨0, ∅, ∅, ∅, false, .outside⟩

/-- The moves that can happen. `main` rests while the handler runs, and
`waitpid(-1, …)` takes any one of the zombies if there are some. -/
def Server.Enabled (s : Server) : Move → Prop
  | .fork => s.handler = .outside
  | .childExit c => c ∈ s.live
  | .deliver => s.pending = true ∧ s.handler = .outside
  | .waitpid pick => s.handler = .inLoop ∧ (s.zombies = ∅ ∨ pick ∈ s.zombies)
  | .leave => s.handler = .leaving

instance (s : Server) (m : Move) : Decidable (s.Enabled m) :=
  match m with
  | .fork | .childExit _ | .deliver | .waitpid _ | .leave => by
    unfold Server.Enabled
    infer_instance

/-- `waitpid(-1, NULL, WNOHANG)`, where child `c` has the process id `c + 1`. -/
def Server.waitpid (s : Server) (pick : ℕ) : ℤ × Server :=
  if pick ∈ s.zombies then
    (pick + 1, { s with zombies := s.zombies.erase pick, reaped := insert pick s.reaped })
  else if s.live = ∅ then (-1, s)
  else (0, s)

/-- The effect of a move that can happen, with what `waitpid` returned. -/
def Server.move (s : Server) : Move → Server × List ℤ
  | .fork => ({ s with forked := s.forked + 1, live := insert s.forked s.live }, [])
  | .childExit c =>
    ({ s with live := s.live.erase c, zombies := insert c s.zombies, pending := true }, [])
  | .deliver => ({ s with pending := false, handler := .inLoop }, [])
  | .waitpid pick =>
    let (r, s') := s.waitpid pick
    if 0 < r then (s', [r]) else ({ s' with handler := .leaving }, [r])
  | .leave => ({ s with handler := .outside }, [])

/-- A move that cannot happen changes nothing. -/
def Server.step (s : Server) (m : Move) : Server × List ℤ :=
  if s.Enabled m then s.move m else (s, [])

/-- One call of `waitpid` by the handler: it takes a zombie, or there are none
and the loop is left. -/
theorem move_waitpid (s : Server) {pick : ℕ} (h : s.zombies = ∅ ∨ pick ∈ s.zombies) :
    (pick ∈ s.zombies ∧ (s.move (.waitpid pick)).1 =
      { s with zombies := s.zombies.erase pick, reaped := insert pick s.reaped }) ∨
    (s.zombies = ∅ ∧ (s.move (.waitpid pick)).1 = { s with handler := .leaving }) := by
  by_cases hpick : pick ∈ s.zombies
  · have hpos : (0 : ℤ) < pick + 1 := by omega
    exact .inl ⟨hpick, by simp [Server.move, Server.waitpid, hpick, hpos]⟩
  · refine .inr ⟨h.resolve_right hpick, ?_⟩
    by_cases hlive : s.live = ∅
    · simp [Server.move, Server.waitpid, hpick, hlive]
    · simp [Server.move, Server.waitpid, hpick, hlive]

/-- Every child made so far is alive, a zombie, or reaped, and only one of them;
a zombie has its signal still ahead or the handler still looking. -/
structure Inv (s : Server) : Prop where
  children : s.live ∪ s.zombies ∪ s.reaped = Finset.range s.forked
  live_zombies : Disjoint s.live s.zombies
  live_reaped : Disjoint s.live s.reaped
  zombies_reaped : Disjoint s.zombies s.reaped
  heard : s.zombies ≠ ∅ → s.pending = true ∨ s.handler = .inLoop

theorem inv_start : Inv Server.start where
  children := rfl
  live_zombies := Finset.disjoint_empty_left _
  live_reaped := Finset.disjoint_empty_left _
  zombies_reaped := Finset.disjoint_empty_left _
  heard := fun h => absurd rfl h

theorem Inv.forked_notMem {s : Server} (h : Inv s) :
    s.forked ∉ s.live ∧ s.forked ∉ s.zombies ∧ s.forked ∉ s.reaped := by
  have hout : s.forked ∉ s.live ∪ s.zombies ∪ s.reaped := by
    rw [h.children]
    exact Finset.notMem_range_self
  simpa [not_or, and_assoc] using hout

theorem inv_fork {s : Server} (h : Inv s) : Inv (s.move .fork).1 := by
  obtain ⟨-, hz, hr⟩ := h.forked_notMem
  refine ⟨?_, ?_, ?_, h.zombies_reaped, h.heard⟩
  · simp only [Server.move, Finset.insert_union, h.children, Finset.range_add_one]
  · exact Finset.disjoint_insert_left.2 ⟨hz, h.live_zombies⟩
  · exact Finset.disjoint_insert_left.2 ⟨hr, h.live_reaped⟩

theorem inv_childExit {s : Server} (h : Inv s) {c : ℕ} (hc : c ∈ s.live) :
    Inv (s.move (.childExit c)).1 := by
  have hr : c ∉ s.reaped := Finset.disjoint_left.1 h.live_reaped hc
  refine ⟨?_, ?_, ?_, ?_, fun _ => .inl rfl⟩
  · refine Eq.trans ?_ h.children
    ext d
    by_cases hd : d = c <;> simp [Server.move, hd, hc]
  · refine Finset.disjoint_insert_right.2 ⟨Finset.notMem_erase c _, ?_⟩
    exact h.live_zombies.mono_left (Finset.erase_subset c _)
  · exact h.live_reaped.mono_left (Finset.erase_subset c _)
  · exact Finset.disjoint_insert_left.2 ⟨hr, h.zombies_reaped⟩

theorem inv_waitpid {s : Server} (h : Inv s) {pick : ℕ} (hs : s.handler = .inLoop)
    (hpick : s.zombies = ∅ ∨ pick ∈ s.zombies) : Inv (s.move (.waitpid pick)).1 := by
  rcases move_waitpid s hpick with ⟨hmem, heq⟩ | ⟨hempty, heq⟩
  · have hl : pick ∉ s.live := Finset.disjoint_right.1 h.live_zombies hmem
    rw [heq]
    refine ⟨?_, ?_, ?_, ?_, fun _ => .inr hs⟩
    · rw [← h.children]
      ext d
      by_cases hd : d = pick <;> simp [hd, hmem]
    · exact h.live_zombies.mono_right (Finset.erase_subset pick _)
    · exact Finset.disjoint_insert_right.2 ⟨hl, h.live_reaped⟩
    · refine Finset.disjoint_insert_right.2 ⟨Finset.notMem_erase pick _, ?_⟩
      exact h.zombies_reaped.mono_left (Finset.erase_subset pick _)
  · rw [heq]
    exact ⟨h.children, h.live_zombies, h.live_reaped, h.zombies_reaped, fun hz => absurd hempty hz⟩

theorem inv_step (s : Server) (m : Move) (h : Inv s) : Inv (s.step m).1 := by
  unfold Server.step
  split_ifs with hm
  · cases m with
    | fork => exact inv_fork h
    | childExit c => exact inv_childExit h hm
    | deliver =>
      exact ⟨h.children, h.live_zombies, h.live_reaped, h.zombies_reaped, fun _ => .inr rfl⟩
    | waitpid pick => exact inv_waitpid h hm.1 hm.2
    | leave =>
      refine ⟨h.children, h.live_zombies, h.live_reaped, h.zombies_reaped, fun hz => .inl ?_⟩
      refine (h.heard hz).resolve_right fun hs => ?_
      simp [Server.Enabled, hs] at hm
  · exact h

/-- What a move reaps was not alive before it. -/
theorem disjoint_live_reaped_step {s : Server} (h : Inv s) (m : Move) :
    Disjoint s.live (s.step m).1.reaped := by
  unfold Server.step
  split_ifs with hm
  · cases m with
    | waitpid pick =>
      rcases move_waitpid s hm.2 with ⟨hmem, heq⟩ | ⟨-, heq⟩
      · rw [heq]
        have hl : pick ∉ s.live := Finset.disjoint_right.1 h.live_zombies hmem
        exact Finset.disjoint_insert_right.2 ⟨hl, h.live_reaped⟩
      · rw [heq]
        exact h.live_reaped
    | fork | childExit c | deliver | leave => exact h.live_reaped
  · exact h.live_reaped

/-- A child that has been made, and is not alive, has terminated. -/
def Server.Terminated (s : Server) (c : ℕ) : Prop := c < s.forked ∧ c ∉ s.live

/-- What holds at every moment of the server. -/
structure Reaps (s : Server) : Prop where
  heard : (∃ c, s.Terminated c ∧ c ∉ s.reaped) → s.pending = true ∨ s.handler = .inLoop
  quiet : s.pending = false → s.handler = .outside → ∀ c, s.Terminated c → c ∈ s.reaped
  alive : ∀ m, Disjoint s.live (s.step m).1.reaped

theorem Inv.reaps {s : Server} (h : Inv s) : Reaps s := by
  have hheard : (∃ c, s.Terminated c ∧ c ∉ s.reaped) → s.pending = true ∨ s.handler = .inLoop := by
    rintro ⟨c, ⟨hforked, hlive⟩, hreaped⟩
    have hmem : c ∈ s.live ∪ s.zombies ∪ s.reaped := by
      rw [h.children]
      exact Finset.mem_range.2 hforked
    have hz : c ∈ s.zombies := by simpa [hlive, hreaped] using hmem
    exact h.heard (Finset.ne_empty_of_mem hz)
  refine ⟨hheard, fun hp hs c hc => ?_, disjoint_live_reaped_step h⟩
  by_contra hreaped
  have := hheard ⟨c, hc, hreaped⟩
  simp [hp, hs] at this

/-- Whatever the order of the moves, no zombie is left behind. -/
theorem no_zombie_left (moves : List Move) :
    Reaps (exec Server.step Server.start moves) :=
  (invariant_exec Inv inv_step inv_start moves).reaps

end AcademyLab.Echo
