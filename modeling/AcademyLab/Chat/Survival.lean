import AcademyLab.Chat.Delivery
import AcademyLab.Chat.Readiness

/-!
# Writing to clients that are gone

The servers leave SIGPIPE at its default. A write to a socket whose peer has
reset the connection then ends the process: nothing behind that write is done.
A write to a socket whose peer has only closed it still succeeds.
-/
namespace AcademyLab.Chat
open Machine

/-- What the peer of a connection has done. -/
inductive Peer
  | alive
  | closed
  | reset
  deriving DecidableEq

/-- The peers of the open descriptors, by descriptor. -/
abbrev Peers := ℤ → Peer

/-- The event raises SIGPIPE in the server. -/
def Event.Sigpipe (peers : Peers) : Event → Prop
  | .write fd _ => 0 ≤ fd ∧ peers fd = .reset
  | _ => False

instance (peers : Peers) (e : Event) : Decidable (e.Sigpipe peers) :=
  match e with
  | .write fd _ => inferInstanceAs (Decidable (0 ≤ fd ∧ peers fd = .reset))
  | .ready _ | .accept _ | .read _ | .close _ | .print _ | .store _ _ _ | .fdSet _
  | .elapsed _ _ | .chunk _ _ _ _ => isFalse id

/-- What the process does of the events before a signal ends it. -/
def performed (peers : Peers) : List Event → List Event
  | [] => []
  | e :: es => if e.Sigpipe peers then [] else e :: performed peers es

def Survives (peers : Peers) (es : List Event) : Prop := ∀ e ∈ es, ¬ e.Sigpipe peers

instance (peers : Peers) (es : List Event) : Decidable (Survives peers es) :=
  inferInstanceAs (Decidable (∀ e ∈ es, _))

theorem performed_of_survives {peers : Peers} {es : List Event} (h : Survives peers es) :
    performed peers es = es := by
  induction es with
  | nil => rfl
  | cons e es ih =>
    have hes := ih fun e he => h e (List.mem_cons_of_mem _ he)
    rw [performed, if_neg (h e List.mem_cons_self), hes]

section Step
variable {W : Type} {w : Watcher W} {s : System W} {inp : Input} {peers : Peers}

/-- The process survives the step, and each client that is alive gets its copy. -/
structure Served (w : Watcher W) (s : System W) (inp : Input) (peers : Peers) : Prop where
  survives : Survives peers (sysStep w s inp).2
  copies : ∀ fd, 0 ≤ fd → peers fd = .alive →
    sentTo fd (performed peers (sysStep w s inp).2) = (copyFor w s.loop inp fd).toList

/-- No client that the step writes to has reset its connection. -/
def NoneReset (w : Watcher W) (s : System W) (inp : Input) (peers : Peers) : Prop :=
  ∀ fd, 0 ≤ fd → copyFor w s.loop inp fd ≠ none → peers fd ≠ .reset

theorem served_iff (hs : s.Sound) (hl : Legal w s inp) :
    Served w s inp peers ↔ NoneReset w s inp peers := by
  constructor
  · intro h fd h0 hcopy hreset
    obtain ⟨msg, hmsg⟩ := Option.ne_none_iff_exists'.mp hcopy
    have hmem : msg ∈ sentTo fd (sysStep w s inp).2 := by
      rw [sentTo_sysStep hs hl h0, hmsg]
      exact List.mem_singleton_self msg
    exact h.survives _ (mem_sentTo.mp hmem) ⟨h0, hreset⟩
  · intro h
    have hsurvives : Survives peers (sysStep w s inp).2 := by
      intro e he hsig
      cases e with
      | write fd msg =>
        obtain ⟨h0, hreset⟩ := hsig
        have hmem := mem_sentTo.mpr he
        rw [sentTo_sysStep hs hl h0] at hmem
        refine h fd h0 ?_ hreset
        intro hnone
        rw [hnone] at hmem
        simp at hmem
      | _ => exact hsig
    refine ⟨hsurvives, fun fd h0 _ => ?_⟩
    rw [performed_of_survives hsurvives]
    exact sentTo_sysStep hs hl h0

end Step

/-- A step, with what the peers have done by then. -/
def peerStep {W : Type} (w : Watcher W) (s : System W) (p : Input × Peers) :
    System W × List Event := sysStep w s p.1

/-- In every run from program start each step is survived and served if and only
if no step writes to a client that has reset its connection. -/
theorem survival_iff {W : Type} (w : Watcher W) (listenfd : ℕ) (watch : W) (mem : Table)
    (inherited : Finset ℤ) (ps : List (Input × Peers))
    (h : Along (peerStep w) (fun s p => Legal w s p.1)
      (System.boot listenfd watch mem inherited) ps) :
    Along (peerStep w) (fun s p => Served w s p.1 p.2)
        (System.boot listenfd watch mem inherited) ps ↔
      Along (peerStep w) (fun s p => NoneReset w s p.1 p.2)
        (System.boot listenfd watch mem inherited) ps :=
  along_congr (fun s p hs hl => sound_sysStep w s p.1 hs hl) (fun _ _ hs hl => served_iff hs hl)
    (System.boot_sound listenfd watch mem inherited) h

/-- Three clients, on 4, 5 and 6, and the first one is reported. -/
def threeClients : List Input :=
  iteration {3} (some ⟨4, default⟩) default (fun _ => none) 0 ++
    iteration {3} (some ⟨5, default⟩) default (fun _ => none) 0 ++
    iteration {3} (some ⟨6, default⟩) default (fun _ => none) 0 ++
    [{ (default : Input) with ready := {4} }, default]

def threeState : System FdSets :=
  exec (sysStep selectWatch) (System.boot 3 (FdSets.init 3) default {0, 1, 2}) threeClients

/-- The first client sends a line. -/
def threeInput : Input :=
  { (default : Input) with read := some letterA, now := 1 }

theorem survival_iff_threeClients :
    Along (peerStep selectWatch) (fun s p => Served selectWatch s p.1 p.2)
        (System.boot 3 (FdSets.init 3) default {0, 1, 2})
        ((threeClients ++ [threeInput]).map fun inp => (inp, fun _ => .alive)) ↔
      Along (peerStep selectWatch) (fun s p => NoneReset selectWatch s p.1 p.2)
        (System.boot 3 (FdSets.init 3) default {0, 1, 2})
        ((threeClients ++ [threeInput]).map fun inp => (inp, fun _ => .alive)) :=
  survival_iff selectWatch 3 (FdSets.init 3) default {0, 1, 2} _ (by decide)

/-- The second client has reset its connection: the line of the first one ends the
server, and the third one gets nothing. -/
theorem survival_reset :
    Along (sysStep selectWatch) (Legal selectWatch)
        (System.boot 3 (FdSets.init 3) default {0, 1, 2}) (threeClients ++ [threeInput]) ∧
      ¬ Survives (fun fd => if fd = 5 then .reset else .alive)
        (sysStep selectWatch threeState threeInput).2 ∧
      copyFor selectWatch threeState.loop threeInput 6 ≠ none ∧
      sentTo 6 (performed (fun fd => if fd = 5 then .reset else .alive)
        (sysStep selectWatch threeState threeInput).2) = [] := by
  decide

end AcademyLab.Chat
