import AcademyLab.Echo.Udp
import Mathlib.Algebra.Order.BigOperators.Group.Finset

/-!
# Clients of one UDP echo server

`dg_echo` of `udp_server.c` and any number of runs of `dg_echo` of `udp_client.c`. The
network delivers in any order and may lose a datagram. The server keeps the address of
the last datagram in `*pcliaddr` and answers there; it has one buffer for all clients.
None of the programs sends anything twice or stops waiting.
-/
namespace AcademyLab.Echo.Clients
open CString Machine
open Udp (ClientPc)

structure Client where
  input : Bytes
  pc : ClientPc
  buffer : Bytes

/-- The server receives, or sends the `n` bytes that it received back to the peer. -/
inductive Server (ι : Type*)
  | recvfrom
  | sendto (peer : ι) (n : ℕ)
  deriving DecidableEq

structure State (ι : Type*) where
  clients : ι → Client
  requests : List (ι × Bytes)
  server : Server ι
  serverBuffer : Bytes
  replies : ι → List Bytes

/-- A call of one of the programs, or the loss of a datagram; `pick` says which. -/
inductive Move (ι : Type*)
  | client (i : ι) (pick : ℕ)
  | server (pick : ℕ)
  | loseRequest (pick : ℕ)
  | loseReply (i : ι) (pick : ℕ)

/-- What a client prints, what the server prints about it, and a loss. -/
inductive Event (ι : Type*)
  | printed (i : ι) (text : Bytes)
  | logged (i : ι) (text : Bytes)
  | lost (i : ι)
  deriving DecidableEq

section Step
variable {ι : Type*} [DecidableEq ι] (address : ι → Bytes) (beyond : ι → Bytes) (behind : Bytes)

def State.set (s : State ι) (i : ι) (c : Client) : State ι :=
  { s with clients := Function.update s.clients i c }

/-- The server's line for `n` bytes; `address` is a client's `%s:%d`. -/
def logText (i : ι) (n : ℕ) (text : Bytes) : Bytes :=
  ascii "[" ++ address i ++ ascii "] sent " ++ decimal n ++ ascii " bytes: " ++ text ++ ascii "\n"

/-- The server's buffer, cleared by `memset`, after `recvfrom`. -/
def received (data : Bytes) : Bytes := overwrite (List.replicate maxBuffer 0) data

/-- A call of a client; `beyond` is the memory behind its buffer. -/
def stepClient (s : State ι) (i : ι) (pick : ℕ) : State ι × List (Event ι) :=
  let c := s.clients i
  match c.pc with
  | .fgets =>
    match fgets maxBuffer c.input with
    | none => (s.set i { c with pc := .done }, [])
    | some (piece, rest) => (s.set i ⟨rest, .sendto, overwrite c.buffer (piece ++ [0])⟩, [])
  | .sendto =>
    ({ s.set i { c with pc := .recvfrom } with
        requests := s.requests ++ [(i, ofMemory (c.buffer ++ beyond i))] }, [])
  | .recvfrom =>
    match (s.replies i)[pick]? with
    | none => (s, [])
    | some datagram =>
      ({ s.set i ⟨c.input, .printf, overwrite c.buffer (datagram.take maxBuffer)⟩ with
          replies := Function.update s.replies i ((s.replies i).eraseIdx pick) }, [])
  | .printf =>
    (s.set i { c with pc := .fgets },
      [.printed i (ascii "Server echo: " ++ ofMemory (c.buffer ++ beyond i))])
  | .done => (s, [])

/-- A call of the server; `memset` and `printf` are part of its `recvfrom`, and `behind`
is the memory behind its buffer. -/
def stepServer (s : State ι) (pick : ℕ) : State ι × List (Event ι) :=
  match s.server with
  | .recvfrom =>
    match s.requests[pick]? with
    | none => (s, [])
    | some (peer, datagram) =>
      let data := datagram.take maxBuffer
      ({ s with
          server := .sendto peer data.length, requests := s.requests.eraseIdx pick
          serverBuffer := received data },
        [.logged peer (logText address peer data.length (ofMemory (received data ++ behind)))])
  | .sendto peer n =>
    ({ s with
        server := .recvfrom
        replies := Function.update s.replies peer (s.replies peer ++ [s.serverBuffer.take n]) }, [])

def step (s : State ι) : Move ι → State ι × List (Event ι)
  | .client i pick => stepClient beyond s i pick
  | .server pick => stepServer address behind s pick
  | .loseRequest pick =>
    match s.requests[pick]? with
    | none => (s, [])
    | some (i, _) => ({ s with requests := s.requests.eraseIdx pick }, [.lost i])
  | .loseReply i pick =>
    match (s.replies i)[pick]? with
    | none => (s, [])
    | some _ =>
      ({ s with replies := Function.update s.replies i ((s.replies i).eraseIdx pick) }, [.lost i])

/-- Before the first `fgets` of each client, with whatever the buffers hold. -/
def start (input buffer : ι → Bytes) (serverBuffer : Bytes) : State ι :=
  ⟨fun i => ⟨input i, .fgets, buffer i⟩, [], .recvfrom, serverBuffer, fun _ => []⟩

def Move.Lossless : Move ι → Prop
  | .client _ _ | .server _ => True
  | .loseRequest _ | .loseReply _ _ => False

/-- All programs wait, or have ended. -/
def Quiet (s : State ι) : Prop := ∀ m : Move ι, m.Lossless → (step address beyond behind s m).1 = s

def printedBy (i : ι) : Event ι → Option Bytes
  | .printed j text => if j = i then some text else none
  | .logged _ _ | .lost _ => none

/-- The output of a client, one text for each `printf`. -/
def printed (i : ι) (log : List (Event ι)) : List Bytes := log.filterMap (printedBy i)

def loggedFor (i : ι) : Event ι → Option Bytes
  | .logged j text => if j = i then some text else none
  | .printed _ _ | .lost _ => none

/-- The server's lines about a client. -/
def logged (i : ι) (log : List (Event ι)) : List Bytes := log.filterMap (loggedFor i)

end Step

/-! ## The part of one client -/

section Picking
variable {α β : Type*} {f : α → Option β} {l : List α} {k : ℕ} {a : α} {b : β}

/-- What is taken out of a list is taken out of what is selected from it. -/
theorem filterMap_eraseIdx_some (hk : l[k]? = some a) (hf : f a = some b) :
    ∃ k', (l.filterMap f)[k']? = some b ∧
      (l.eraseIdx k).filterMap f = (l.filterMap f).eraseIdx k' := by
  induction l generalizing k with
  | nil => simp at hk
  | cons x l ih =>
    cases k with
    | zero =>
      obtain rfl : x = a := by simpa using hk
      exact ⟨0, by simp [hf], by simp [hf]⟩
    | succ k =>
      obtain ⟨k', hk', herase⟩ := ih (by simpa using hk)
      cases hx : f x with
      | none => exact ⟨k', by simpa [hx] using hk', by simpa [hx] using herase⟩
      | some y => exact ⟨k' + 1, by simpa [hx] using hk', by simpa [hx] using herase⟩

theorem filterMap_eraseIdx_none (hk : l[k]? = some a) (hf : f a = none) :
    (l.eraseIdx k).filterMap f = l.filterMap f := by
  induction l generalizing k with
  | nil => simp at hk
  | cons x l ih =>
    cases k with
    | zero =>
      obtain rfl : x = a := by simpa using hk
      simp [hf]
    | succ k =>
      have herase := ih (k := k) (by simpa using hk)
      simp [List.filterMap_cons, herase]

theorem pick_singleton {c : α} (hk : [c][k]? = some a) : k = 0 ∧ a = c := by
  cases k with
  | zero => exact ⟨rfl, by simpa using hk.symm⟩
  | succ k => simp at hk

end Picking

/-- What there is of one client: itself, its datagrams on the way to the server, what the
server is about to send to it, and the datagrams on the way back. -/
structure View where
  client : Client
  requests : List Bytes
  hand : Option Bytes
  replies : List Bytes

section View
variable {ι : Type*} [DecidableEq ι] {address : ι → Bytes} {beyond : ι → Bytes} {behind : Bytes}

def ofClient (i : ι) (request : ι × Bytes) : Option Bytes :=
  if request.1 = i then some request.2 else none

def Server.hand (server : Server ι) (buffer : Bytes) (i : ι) : Option Bytes :=
  match server with
  | .recvfrom => none
  | .sendto peer n => if peer = i then some (buffer.take n) else none

def State.view (s : State ι) (i : ι) : View :=
  ⟨s.clients i, s.requests.filterMap (ofClient i), s.server.hand s.serverBuffer i, s.replies i⟩

variable (address beyond behind) in
/-- What can happen to a client's part. -/
inductive Change (i : ι) : View → List (Event ι) → View → Prop
  | eof {v} (hpc : v.client.pc = .fgets) (heof : v.client.input = []) :
      Change i v [] { v with client := { v.client with pc := .done } }
  | fgets {v piece rest} (hpc : v.client.pc = .fgets)
      (hread : fgets maxBuffer v.client.input = some (piece, rest)) :
      Change i v []
        { v with client := ⟨rest, .sendto, overwrite v.client.buffer (piece ++ [0])⟩ }
  | sendto {v} (hpc : v.client.pc = .sendto) :
      Change i v []
        { v with
          client := { v.client with pc := .recvfrom }
          requests := v.requests ++ [ofMemory (v.client.buffer ++ beyond i)] }
  | recvfrom {v pick datagram} (hpc : v.client.pc = .recvfrom)
      (hpick : v.replies[pick]? = some datagram) :
      Change i v []
        { v with
          client := ⟨v.client.input, .printf, overwrite v.client.buffer (datagram.take maxBuffer)⟩
          replies := v.replies.eraseIdx pick }
  | printf {v} (hpc : v.client.pc = .printf) :
      Change i v [.printed i (ascii "Server echo: " ++ ofMemory (v.client.buffer ++ beyond i))]
        { v with client := { v.client with pc := .fgets } }
  | serve {v pick datagram} (hpick : v.requests[pick]? = some datagram) (hhand : v.hand = none) :
      Change i v
        [.logged i (logText address i (datagram.take maxBuffer).length
          (ofMemory (received (datagram.take maxBuffer) ++ behind)))]
        { v with
          requests := v.requests.eraseIdx pick, hand := some (datagram.take maxBuffer) }
  | reply {v data} (hhand : v.hand = some data) :
      Change i v [] { v with hand := none, replies := v.replies ++ [data] }
  | loseRequest {v pick datagram} (hpick : v.requests[pick]? = some datagram) :
      Change i v [.lost i] { v with requests := v.requests.eraseIdx pick }
  | loseReply {v pick datagram} (hpick : v.replies[pick]? = some datagram) :
      Change i v [.lost i] { v with replies := v.replies.eraseIdx pick }

variable {s : State ι} {i j : ι}

/-- Nothing happens, or something to the part of one client alone. -/
def StepCases (address beyond : ι → Bytes) (behind : Bytes) (s : State ι)
    (r : State ι × List (Event ι)) : Prop :=
  r = (s, []) ∨ ∃ i, Change address beyond behind i (s.view i) r.2 (r.1.view i) ∧
    ∀ j, j ≠ i → r.1.view j = s.view j

theorem StepCases.of {r : State ι × List (Event ι)} {v' : View}
    (hchange : Change address beyond behind i (s.view i) r.2 v') (hview : r.1.view i = v')
    (hothers : ∀ j, j ≠ i → r.1.view j = s.view j) : StepCases address beyond behind s r :=
  .inr ⟨i, hview ▸ hchange, hothers⟩

theorem client_cases (s : State ι) (i : ι) (pick : ℕ) :
    StepCases address beyond behind s (stepClient beyond s i pick) := by
  have hothers : ∀ c j, j ≠ i → (s.set i c).view j = s.view j := fun c j hj => by
    simp [State.view, State.set, hj]
  cases hpc : (s.clients i).pc with
  | fgets =>
    cases hread : fgets maxBuffer (s.clients i).input with
    | none =>
      simp only [stepClient, hpc, hread]
      exact .of (.eof hpc (fgets_eq_none.1 hread)) (by simp [State.view, State.set]) (hothers _)
    | some r =>
      simp only [stepClient, hpc, hread]
      exact .of (.fgets hpc hread) (by simp [State.view, State.set]) (hothers _)
  | sendto =>
    simp only [stepClient, hpc]
    refine .of (.sendto hpc) (by simp [State.view, State.set, ofClient]) fun j hj => ?_
    simp [State.view, State.set, ofClient, hj, hj.symm]
  | recvfrom =>
    cases hpick : (s.replies i)[pick]? with
    | none => exact .inl (by simp only [stepClient, hpc, hpick])
    | some datagram =>
      simp only [stepClient, hpc, hpick]
      refine .of (.recvfrom hpc hpick) (by simp [State.view, State.set]) fun j hj => ?_
      simp [State.view, State.set, hj]
  | printf =>
    simp only [stepClient, hpc]
    exact .of (.printf hpc) (by simp [State.view, State.set]) (hothers _)
  | done => exact .inl (by simp only [stepClient, hpc])

theorem server_cases (s : State ι) (pick : ℕ) :
    StepCases address beyond behind s (stepServer address behind s pick) := by
  cases hserver : s.server with
  | recvfrom =>
    cases hpick : s.requests[pick]? with
    | none => exact .inl (by simp only [stepServer, hserver, hpick])
    | some r =>
      obtain ⟨i, datagram⟩ := r
      obtain ⟨k, hk, herase⟩ := filterMap_eraseIdx_some hpick (f := ofClient i) (if_pos rfl)
      have hhand : (s.view i).hand = none := by simp [State.view, hserver, Server.hand]
      simp only [stepServer, hserver, hpick]
      refine .of (.serve hk hhand) ?_ fun j hj => ?_
      · simp [State.view, Server.hand, herase, received, overwrite]
      · have hskip : ofClient j (i, datagram) = none := if_neg hj.symm
        simp [State.view, hserver, Server.hand, hj.symm, filterMap_eraseIdx_none hpick hskip]
  | sendto i n =>
    have hhand : (s.view i).hand = some (s.serverBuffer.take n) := by
      simp [State.view, hserver, Server.hand]
    simp only [stepServer, hserver]
    refine .of (.reply hhand) ?_ fun j hj => ?_
    · simp [State.view, Server.hand]
    · simp [State.view, hserver, Server.hand, hj, hj.symm]

variable (address beyond behind) in
theorem step_cases (s : State ι) (m : Move ι) :
    StepCases address beyond behind s (step address beyond behind s m) := by
  cases m with
  | client i pick => exact client_cases s i pick
  | server pick => exact server_cases s pick
  | loseRequest pick =>
    cases hpick : s.requests[pick]? with
    | none => exact .inl (by simp only [step, hpick])
    | some r =>
      obtain ⟨i, datagram⟩ := r
      obtain ⟨k, hk, herase⟩ := filterMap_eraseIdx_some hpick (f := ofClient i) (if_pos rfl)
      simp only [step, hpick]
      refine .of (.loseRequest (i := i) hk) (by simp [State.view, herase]) fun j hj => ?_
      have hskip : ofClient j (i, datagram) = none := if_neg hj.symm
      simp [State.view, filterMap_eraseIdx_none hpick hskip]
  | loseReply i pick =>
    cases hpick : (s.replies i)[pick]? with
    | none => exact .inl (by simp only [step, hpick])
    | some datagram =>
      simp only [step, hpick]
      refine .of (.loseReply hpick) (by simp [State.view]) fun j hj => ?_
      simp [State.view, hj]

end View

/-! ## The turns of one client -/

/-- Where the client's present piece is, whether a datagram of it has been lost, and
which pieces it has still to print and the server still to log. -/
inductive Turn : View → Bool → List Bytes → List Bytes → Prop
  | idle {input b} (hin : 0 ∉ input) :
      Turn ⟨⟨input, .fgets, b⟩, [], none, []⟩ false (pieces maxBuffer input)
        (pieces maxBuffer input)
  | read {input b piece} (hin : 0 ∉ input) (h : Carried piece b) :
      Turn ⟨⟨input, .sendto, b⟩, [], none, []⟩ false (piece :: pieces maxBuffer input)
        (piece :: pieces maxBuffer input)
  | requested {input b piece} (hin : 0 ∉ input) (h : Carried piece b) :
      Turn ⟨⟨input, .recvfrom, b⟩, [piece], none, []⟩ false (piece :: pieces maxBuffer input)
        (piece :: pieces maxBuffer input)
  | served {input b piece} (hin : 0 ∉ input) (h : Carried piece b) :
      Turn ⟨⟨input, .recvfrom, b⟩, [], some piece, []⟩ false (piece :: pieces maxBuffer input)
        (pieces maxBuffer input)
  | replied {input b piece} (hin : 0 ∉ input) (h : Carried piece b) :
      Turn ⟨⟨input, .recvfrom, b⟩, [], none, [piece]⟩ false (piece :: pieces maxBuffer input)
        (pieces maxBuffer input)
  | shown {input b piece} (hin : 0 ∉ input) (h : Carried piece b) :
      Turn ⟨⟨input, .printf, b⟩, [], none, []⟩ false (piece :: pieces maxBuffer input)
        (pieces maxBuffer input)
  | done {b} : Turn ⟨⟨[], .done, b⟩, [], none, []⟩ false [] []
  | bereft {input b todo unlogged} (h : unlogged = todo ∨ unlogged = todo.tail) :
      Turn ⟨⟨input, .recvfrom, b⟩, [], none, []⟩ true todo unlogged

/-- How many changes there can still be. -/
def View.rank (v : View) : ℕ :=
  6 * (pieces maxBuffer v.client.input).length +
    match v.client.pc with
    | .fgets => 1
    | .sendto => 6
    | .recvfrom =>
      2 + 3 * v.requests.length + 2 * v.hand.toList.length + v.replies.length
    | .printf => 2
    | .done => 0

section Turn
variable {ι : Type*} [DecidableEq ι] {address : ι → Bytes} {beyond : ι → Bytes} {behind : Bytes}
variable {i : ι} {v v' : View} {lost : Bool} {todo unlogged : List Bytes} {events : List (Event ι)}

variable (address) in
/-- The server's line for a piece that arrived whole. -/
def line (i : ι) (piece : Bytes) : Bytes := logText address i piece.length piece

omit [DecidableEq ι] in
theorem line_of_carried {piece b : Bytes} (h : Carried piece b) (behind : Bytes) (i : ι) :
    logText address i (piece.take maxBuffer).length
      (ofMemory (received (piece.take maxBuffer) ++ behind)) = line address i piece := by
  have hstored : piece ++ [0] <+: received piece ++ behind := by
    have hpos : 0 < maxBuffer - piece.length := Nat.sub_pos_of_lt h.fits
    obtain ⟨n, hn⟩ : ∃ n, maxBuffer - piece.length = n + 1 := ⟨_, (Nat.succ_pred hpos.ne').symm⟩
    refine ⟨List.replicate n 0 ++ behind, ?_⟩
    simp [received, overwrite, hn, List.replicate_succ]
  rw [List.take_of_length_le h.fits.le, ofMemory_of_prefix h.clear hstored, line]

variable (address) in
/-- What a change leaves to be done, less by what it prints. -/
structure Advance (i : ι) (v : View) (lost : Bool) (todo unlogged : List Bytes)
    (events : List (Event ι)) (v' : View) (lost' : Bool) (todo' unlogged' : List Bytes) :
    Prop where
  turn : Turn v' lost' todo' unlogged'
  printed : todo.map echo = printed i events ++ todo'.map echo
  logged : unlogged.map (line address i) = logged i events ++ unlogged'.map (line address i)
  lost : lost' = true ↔ lost = true ∨ .lost i ∈ events
  rank : v'.rank < v.rank

theorem Advance.silent (hturn : Turn v' lost todo unlogged) (hrank : v'.rank < v.rank) :
    Advance address i v lost todo unlogged [] v' lost todo unlogged :=
  ⟨hturn, rfl, rfl, by simp, hrank⟩

theorem Advance.loss (hturn : Turn v' true todo unlogged) (hrank : v'.rank < v.rank) :
    Advance address i v lost todo unlogged [.lost i] v' true todo unlogged :=
  ⟨hturn, rfl, rfl, by simp, hrank⟩

theorem turn_change (h : Turn v lost todo unlogged)
    (hchange : Change address beyond behind i v events v') :
    ∃ lost' todo' unlogged',
      Advance address i v lost todo unlogged events v' lost' todo' unlogged' := by
  cases h with
  | @idle input b hin =>
    cases hchange with
    | eof _ heof =>
      obtain rfl : input = [] := heof
      rw [pieces_none (fgets_eq_none.2 rfl)]
      exact ⟨_, _, _, .silent .done (by simp [View.rank])⟩
    | @fgets piece rest _ hread =>
      have hread' : fgets maxBuffer input = some (piece, rest) := hread
      have hpieces := pieces_some (by decide) hread'
      refine ⟨_, _, _, .silent ?_ (by simp [View.rank, hpieces]; omega)⟩
      rw [hpieces]
      exact .read (clear_fgets hin hread') (carried_fgets hin hread' b)
    | _ => simp_all
  | read hin h =>
    cases hchange with
    | sendto _ =>
      refine ⟨_, _, _, .silent ?_ (by simp [View.rank])⟩
      simp only [List.nil_append, h.string]
      exact .requested hin h
    | _ => simp_all
  | requested hin h =>
    cases hchange with
    | serve hpick _ =>
      obtain ⟨rfl, rfl⟩ := pick_singleton hpick
      rw [line_of_carried h, List.take_of_length_le h.fits.le]
      exact ⟨_, _, _, .served hin h, by simp [printed, printedBy], by simp [logged, loggedFor],
        by simp, by simp [View.rank]⟩
    | loseRequest hpick =>
      obtain ⟨rfl, rfl⟩ := pick_singleton hpick
      exact ⟨_, _, _, .loss (.bereft (.inl rfl)) (by simp [View.rank])⟩
    | _ => simp_all
  | served hin h =>
    cases hchange with
    | reply hhand =>
      obtain rfl := Option.some.inj hhand
      exact ⟨_, _, _, .silent (.replied hin h) (by simp [View.rank])⟩
    | _ => simp_all
  | replied hin h =>
    cases hchange with
    | recvfrom _ hpick =>
      obtain ⟨rfl, rfl⟩ := pick_singleton hpick
      refine ⟨_, _, _, .silent ?_ (by simp [View.rank])⟩
      rw [List.take_of_length_le h.fits.le]
      exact .shown hin h.overwrite
    | loseReply hpick =>
      obtain ⟨rfl, rfl⟩ := pick_singleton hpick
      exact ⟨_, _, _, .loss (.bereft (.inr rfl)) (by simp [View.rank])⟩
    | _ => simp_all
  | shown hin h =>
    cases hchange with
    | printf _ =>
      refine ⟨_, _, _, .idle hin, ?_, by simp [logged, loggedFor], by simp, by simp [View.rank]⟩
      simp [printed, printedBy, h.string, echo]
    | _ => simp_all
  | done => cases hchange <;> simp_all
  | bereft => cases hchange <;> simp_all

end Turn

/-! ## Runs -/

section Runs
variable {ι : Type*} [DecidableEq ι] {address : ι → Bytes} {beyond : ι → Bytes} {behind : Bytes}
variable {input : ι → Bytes} {s : State ι} {log events : List (Event ι)} {i j : ι} {v v' : View}

theorem printed_append (i : ι) (e f : List (Event ι)) :
    printed i (e ++ f) = printed i e ++ printed i f :=
  List.filterMap_append

theorem logged_append (i : ι) (e f : List (Event ι)) :
    logged i (e ++ f) = logged i e ++ logged i f :=
  List.filterMap_append

/-- A change of one client's part is no output about another. -/
theorem change_others (hchange : Change address beyond behind i v events v') (hj : j ≠ i) :
    printed j events = [] ∧ logged j events = [] ∧ .lost j ∉ events := by
  cases hchange <;> simp [printed, printedBy, logged, loggedFor, hj, hj.symm]

variable (address input) in
/-- What has come out for a client and what is still to come make up its input. -/
def Told (s : State ι) (log : List (Event ι)) (i : ι) : Prop :=
  ∃ lost todo unlogged, Turn (s.view i) lost todo unlogged ∧
    (pieces maxBuffer (input i)).map echo = printed i log ++ todo.map echo ∧
    (pieces maxBuffer (input i)).map (line address i) =
      logged i log ++ unlogged.map (line address i) ∧
    (lost = true ↔ .lost i ∈ log)

theorem told_step (h : ∀ i, Told address input s log i) (m : Move ι) (j : ι) :
    Told address input (step address beyond behind s m).1
      (log ++ (step address beyond behind s m).2) j := by
  obtain ⟨lost, todo, unlogged, hturn, hprinted, hlogged, hlost⟩ := h j
  rcases step_cases address beyond behind s m with heq | ⟨i, hchange, hothers⟩
  · rw [heq, List.append_nil]
    exact ⟨lost, todo, unlogged, hturn, hprinted, hlogged, hlost⟩
  by_cases hj : j = i
  · subst hj
    obtain ⟨lost', todo', unlogged', hadvance⟩ := turn_change hturn hchange
    refine ⟨lost', todo', unlogged', hadvance.turn, ?_, ?_, ?_⟩
    · rw [hprinted, hadvance.printed, printed_append, List.append_assoc]
    · rw [hlogged, hadvance.logged, logged_append, List.append_assoc]
    · rw [hadvance.lost, hlost, List.mem_append]
  · obtain ⟨hprinted', hlogged', hlost'⟩ := change_others hchange hj
    refine ⟨lost, todo, unlogged, ?_, ?_, ?_, ?_⟩
    · rwa [hothers j hj]
    · rwa [printed_append, hprinted', List.append_nil]
    · rwa [logged_append, hlogged', List.append_nil]
    · rw [hlost, List.mem_append, or_iff_left hlost']

theorem told_start (hinput : ∀ i, 0 ∉ input i) (buffer : ι → Bytes) (serverBuffer : Bytes)
    (i : ι) : Told address input (start input buffer serverBuffer) [] i :=
  ⟨false, _, _, .idle (hinput i), rfl, rfl, by simp⟩

theorem told_run (hinput : ∀ i, 0 ∉ input i) (buffer : ι → Bytes) (serverBuffer : Bytes)
    (moves : List (Move ι)) (i : ι) :
    Told address input (exec (step address beyond behind) (start input buffer serverBuffer) moves)
      (trace (step address beyond behind) (start input buffer serverBuffer) moves) i := by
  refine invariant_trace (fun s log => ∀ i, Told address input s log i) ?_
    (told_start hinput buffer serverBuffer) moves i
  exact fun s m log h => told_step h m

theorem Turn.unlogged {lost : Bool} {todo unlogged : List Bytes} (h : Turn v lost todo unlogged) :
    unlogged = todo ∨ unlogged = todo.tail := by
  cases h with
  | idle | read | requested | done => exact .inl rfl
  | served | replied | shown => exact .inr rfl
  | bereft h => exact h

theorem Turn.todo_done {lost : Bool} {todo unlogged : List Bytes} (h : Turn v lost todo unlogged)
    (hdone : v.client.pc = .done) : todo = [] := by
  cases h with
  | done => rfl
  | _ => simp at hdone

theorem Turn.waits {lost : Bool} {todo unlogged : List Bytes} (h : Turn v lost todo unlogged)
    (hlost : lost = true) : v.client.pc = .recvfrom := by
  cases h with
  | bereft => rfl
  | _ => simp at hlost

omit [DecidableEq ι] in
/-- No datagram is under way for a client that has lost one. -/
theorem Turn.final {todo unlogged : List Bytes} (h : Turn v true todo unlogged) :
    ¬ Change address beyond behind i v events v' := by
  cases h with
  | bereft => intro hchange; cases hchange <;> simp_all

variable (address) in
/-- What a run has done for a client that stands at `pc`. -/
structure Outcome (input : Bytes) (i : ι) (pc : ClientPc) (log : List (Event ι)) : Prop where
  printed : printed i log <+: (pieces maxBuffer input).map echo
  logged : logged i log <+: (pieces maxBuffer input).map (line address i)
  ahead : (Clients.printed i log).length ≤ (Clients.logged i log).length
  atMostOne : (Clients.logged i log).length ≤ (Clients.printed i log).length + 1
  complete : pc = .done → Clients.printed i log = (pieces maxBuffer input).map echo
  waits : .lost i ∈ log → pc = .recvfrom

theorem Told.outcome (h : Told address input s log i) :
    Outcome address (input i) i (s.clients i).pc log := by
  obtain ⟨lost, todo, unlogged, hturn, hprinted, hlogged, hlost⟩ := h
  have hp := congrArg List.length hprinted
  have hl := congrArg List.length hlogged
  simp only [List.length_map, List.length_append] at hp hl
  have hlen : unlogged.length = todo.length ∨ unlogged.length = todo.length - 1 := by
    rcases hturn.unlogged with rfl | rfl
    · exact .inl rfl
    · exact .inr List.length_tail
  refine ⟨⟨_, hprinted.symm⟩, ⟨_, hlogged.symm⟩, by omega, by omega, fun hdone => ?_, ?_⟩
  · rw [hprinted, hturn.todo_done hdone, List.map_nil, List.append_nil]
  · exact fun hmem => hturn.waits (hlost.2 hmem)

/-- Nothing more comes out for a client of which a datagram was lost. -/
theorem printed_of_bereft {todo unlogged : List Bytes} (h : Turn (s.view i) true todo unlogged)
    (moves : List (Move ι)) : printed i (trace (step address beyond behind) s moves) = [] := by
  induction moves generalizing s with
  | nil => rfl
  | cons m moves ih =>
    rw [trace_cons, printed_append]
    rcases step_cases address beyond behind s m with heq | ⟨j, hchange, hothers⟩
    · rw [heq, ih h]
      rfl
    · have hne : i ≠ j := by
        rintro rfl
        exact h.final hchange
      rw [(change_others hchange hne).1, List.nil_append]
      exact ih (by rwa [hothers i hne])

/-- Any number of clients with text files, whatever the buffers hold at first and whatever
the network does: each client prints its own lines in order, the server logs them in order,
at most one ahead and each with its length, a client that ends has printed them all, and
one of which a datagram was lost waits and never prints again. -/
theorem udp_clients (address beyond : ι → Bytes) (behind : Bytes) (input buffer : ι → Bytes)
    (serverBuffer : Bytes) (hinput : ∀ i, 0 ∉ input i) (moves more : List (Move ι)) (i : ι) :
    let run := trace (step address beyond behind) (start input buffer serverBuffer)
    let s := exec (step address beyond behind) (start input buffer serverBuffer) moves
    Outcome address (input i) i (s.clients i).pc (run moves) ∧
      (.lost i ∈ run moves → printed i (run (moves ++ more)) = printed i (run moves)) := by
  intro run s
  have h : Told address input s (run moves) i := told_run hinput buffer serverBuffer moves i
  refine ⟨h.outcome, fun hmem => ?_⟩
  obtain ⟨lost, todo, unlogged, hturn, -, -, hlost⟩ := h
  obtain rfl := hlost.2 hmem
  have hmore : run (moves ++ more) = run moves ++ trace (step address beyond behind) s more :=
    trace_append _ _ _
  rw [hmore, printed_append, printed_of_bereft hturn, List.append_nil]

/-- Two clients; the request of the second is lost. -/
theorem udp_clients_two :
    let address : Bool → Bytes := fun b => if b then ascii "10.0.0.7:4242" else ascii "10.0.0.8:80"
    let input : Bool → Bytes := fun b => if b then ascii "Hi\n" else ascii "Hello\n"
    let run := trace (step address (fun _ => [7]) [8]) (start input (fun _ => [1, 2]) [3])
    let moves : List (Move Bool) :=
      [.client true 0, .client false 0, .client false 0, .client true 0, .loseRequest 0, .server 0]
    let more : List (Move Bool) := [.server 0, .client true 0, .client true 0]
    Event.lost false ∈ run moves ∧ printed false (run (moves ++ more)) = printed false (run moves)
    := by
  intro address input run moves more
  have hinput : ∀ b, 0 ∉ input b := by decide
  have hlost : Event.lost false ∈ run moves := by decide +kernel
  exact ⟨hlost, (udp_clients address (fun _ => [7]) [8] input (fun _ => [1, 2]) [3] hinput moves
    more false).2 hlost⟩

/-! ## The end of a run -/

/-- Where all wait, the server has nothing to answer. -/
theorem server_of_quiet (hquiet : Quiet address beyond behind s) :
    s.server = .recvfrom ∧ s.requests = [] := by
  have hcall := congrArg State.server (hquiet (.server 0) trivial)
  cases hserver : s.server with
  | sendto peer n => simp [step, stepServer, hserver] at hcall
  | recvfrom =>
    refine ⟨rfl, ?_⟩
    cases hrequests : s.requests with
    | nil => rfl
    | cons r requests => simp [step, stepServer, hserver, hrequests] at hcall

/-- Where all wait, a client has ended or waits for a reply. -/
theorem client_of_quiet (hquiet : Quiet address beyond behind s) (i : ι) :
    (s.clients i).pc = .done ∨ (s.clients i).pc = .recvfrom ∧ s.replies i = [] := by
  have hcall := congrArg (fun s => (s.clients i).pc) (hquiet (.client i 0) trivial)
  cases hpc : (s.clients i).pc with
  | fgets =>
    cases hread : fgets maxBuffer (s.clients i).input <;>
      simp [step, stepClient, State.set, hpc, hread] at hcall
  | sendto | printf => simp [step, stepClient, State.set, hpc] at hcall
  | recvfrom =>
    cases hreplies : s.replies i with
    | nil => exact .inr ⟨rfl, rfl⟩
    | cons datagram replies => simp [step, stepClient, State.set, hpc, hreplies] at hcall
  | done => exact .inl rfl

theorem Turn.settled {lost : Bool} {todo unlogged : List Bytes} (h : Turn v lost todo unlogged)
    (hrequests : v.requests = []) (hhand : v.hand = none)
    (hclient : v.client.pc = .done ∨ v.client.pc = .recvfrom ∧ v.replies = []) :
    v.client.pc = .done ↔ lost = false := by
  cases h <;> simp_all

theorem Told.settled (h : Told address input s log i) (hquiet : Quiet address beyond behind s) :
    (s.clients i).pc = .done ↔ .lost i ∉ log := by
  obtain ⟨lost, todo, unlogged, hturn, -, -, hlost⟩ := h
  obtain ⟨hserver, hrequests⟩ := server_of_quiet hquiet
  have hsettled := hturn.settled (by simp [State.view, hrequests])
    (by simp [State.view, hserver, Server.hand]) (client_of_quiet hquiet i)
  rw [← hlost, Bool.not_eq_true]
  exact hsettled

variable [Fintype ι]

def total (s : State ι) : ℕ := ∑ i, (s.view i).rank

theorem total_step (h : ∀ i, Told address input s log i) (m : Move ι)
    (hne : (step address beyond behind s m).1 ≠ s) :
    total (step address beyond behind s m).1 < total s := by
  rcases step_cases address beyond behind s m with heq | ⟨i, hchange, hothers⟩
  · exact absurd (congrArg Prod.fst heq) hne
  obtain ⟨lost, todo, unlogged, hturn, -⟩ := h i
  obtain ⟨_, _, _, hadvance⟩ := turn_change hturn hchange
  refine Finset.sum_lt_sum (fun j _ => ?_) ⟨i, Finset.mem_univ i, hadvance.rank⟩
  by_cases hj : j = i
  · rw [hj]
    exact hadvance.rank.le
  · rw [hothers j hj]

/-- No run goes on for ever: not counting calls that wait, it has at most six moves for
each line of each client and one more for each client. And where nothing is left but to
wait, a client has ended if and only if no datagram of it was lost. -/
theorem udp_clients_end (address beyond : ι → Bytes) (behind : Bytes) (input buffer : ι → Bytes)
    (serverBuffer : Bytes) (hinput : ∀ i, 0 ∉ input i) (moves : List (Move ι)) :
    let s := exec (step address beyond behind) (start input buffer serverBuffer) moves
    let log := trace (step address beyond behind) (start input buffer serverBuffer) moves
    (Along (step address beyond behind) (fun s m => (step address beyond behind s m).1 ≠ s)
        (start input buffer serverBuffer) moves →
      moves.length ≤ ∑ i, (6 * (pieces maxBuffer (input i)).length + 1)) ∧
    (Quiet address beyond behind s → ∀ i, (s.clients i).pc = .done ↔ .lost i ∉ log) := by
  intro s log
  constructor
  · intro hbusy
    exact length_le_of_decreasing (fun s => ∃ log, ∀ i, Told address input s log i) total
      (fun s m ⟨log, h⟩ => ⟨_, told_step h m⟩)
      (fun s m ⟨log, h⟩ => total_step h m)
      ⟨[], told_start hinput buffer serverBuffer⟩ hbusy
  · intro hquiet i
    exact (told_run hinput buffer serverBuffer moves i).settled hquiet

/-- The same two, until the first has printed its line. -/
theorem udp_clients_end_two :
    let address : Bool → Bytes := fun b => if b then ascii "10.0.0.7:4242" else ascii "10.0.0.8:80"
    let input : Bool → Bytes := fun b => if b then ascii "Hi\n" else ascii "Hello\n"
    let moves : List (Move Bool) :=
      [.client true 0, .client false 0, .client false 0, .client true 0, .loseRequest 0, .server 0,
        .server 0, .client true 0, .client true 0, .client true 0]
    ((exec (step address (fun _ => [7]) [8]) (start input (fun _ => [1, 2]) [3])
        moves).clients true).pc = .done ∧
      ((exec (step address (fun _ => [7]) [8]) (start input (fun _ => [1, 2]) [3])
        moves).clients false).pc ≠ .done := by
  intro address input moves
  have hinput : ∀ b, 0 ∉ input b := by decide
  have hquiet : Quiet address (fun _ => [7]) [8]
      (exec (step address (fun _ => [7]) [8]) (start input (fun _ => [1, 2]) [3]) moves) := by
    have hserver : (exec (step address (fun _ => [7]) [8]) (start input (fun _ => [1, 2]) [3])
        moves).server = .recvfrom := by decide +kernel
    have hrequests : (exec (step address (fun _ => [7]) [8]) (start input (fun _ => [1, 2]) [3])
        moves).requests = [] := by decide +kernel
    have hclient : ∀ b, ((exec (step address (fun _ => [7]) [8]) (start input (fun _ => [1, 2]) [3])
        moves).clients b).pc = if b then .done else .recvfrom := by decide +kernel
    have hreplies : ∀ b, (exec (step address (fun _ => [7]) [8]) (start input (fun _ => [1, 2]) [3])
        moves).replies b = [] := by decide +kernel
    rintro (⟨b, pick⟩ | pick | pick | ⟨b, pick⟩) hlossless
    · cases b <;> simp [step, stepClient, hclient, hreplies]
    · simp [step, stepServer, hserver, hrequests]
    · exact hlossless.elim
    · exact hlossless.elim
  have hdone := (udp_clients_end address (fun _ => [7]) [8] input (fun _ => [1, 2]) [3] hinput
    moves).2 hquiet
  have hwhole : .lost true ∉ trace (step address (fun _ => [7]) [8])
      (start input (fun _ => [1, 2]) [3]) moves := by decide +kernel
  have hlost : .lost false ∈ trace (step address (fun _ => [7]) [8])
      (start input (fun _ => [1, 2]) [3]) moves := by decide +kernel
  exact ⟨(hdone true).2 hwhole, fun h => (hdone false).1 h hlost⟩

end Runs

end AcademyLab.Echo.Clients
