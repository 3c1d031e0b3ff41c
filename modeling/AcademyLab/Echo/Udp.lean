import AcademyLab.Echo.Lines
import AcademyLab.Machine

/-!
# The UDP echo pair

`dg_echo` of `udp_client.c` and of `udp_server.c`, and a network that delivers
each datagram once, in any order. A move is one call of the client or of the
server; a `recvfrom` for which there is no datagram waits. A received datagram
is copied to the start of a buffer, as much of it as fits, without a NUL.
-/
namespace AcademyLab.Echo.Udp
open CString Machine

inductive ClientPc
  | fgets
  | sendto
  | recvfrom
  | printf
  | done
  deriving DecidableEq

/-- The server sends the `n` bytes received, or receives. -/
inductive ServerPc
  | recvfrom
  | sendto (n : ℕ)
  deriving DecidableEq

structure System where
  input : Bytes
  client : ClientPc
  buffer : Bytes
  requests : List Bytes
  server : ServerPc
  serverBuffer : Bytes
  replies : List Bytes

/-- A call of one of the two; `pick` says which datagram a `recvfrom` gets. -/
inductive Move
  | client (pick : ℕ)
  | server (pick : ℕ)

/-- What the client prints, and what the server keeps of a datagram. -/
inductive Event
  | print (text : Bytes)
  | kept (datagram data : Bytes)
  deriving DecidableEq

section Step
variable (beyond : Bytes)

/-- A call of the client; `beyond` is the memory behind its buffer. -/
def stepClient (s : System) (pick : ℕ) : System × List Event :=
  match s.client with
  | .fgets =>
    match fgets maxBuffer s.input with
    | none => ({ s with client := .done }, [])
    | some (piece, rest) =>
      ({ s with client := .sendto, input := rest, buffer := overwrite s.buffer (piece ++ [0]) }, [])
  | .sendto =>
    ({ s with client := .recvfrom, requests := s.requests ++ [ofMemory (s.buffer ++ beyond)] }, [])
  | .recvfrom =>
    match s.replies[pick]? with
    | none => (s, [])
    | some datagram =>
      ({ s with
          client := .printf, replies := s.replies.eraseIdx pick
          buffer := overwrite s.buffer (datagram.take maxBuffer) }, [])
  | .printf =>
    ({ s with client := .fgets },
      [.print (ascii "Server echo: " ++ ofMemory (s.buffer ++ beyond))])
  | .done => (s, [])

/-- A call of the server; `memset` is part of its `recvfrom`. -/
def stepServer (s : System) (pick : ℕ) : System × List Event :=
  match s.server with
  | .recvfrom =>
    match s.requests[pick]? with
    | none => (s, [])
    | some datagram =>
      let data := datagram.take maxBuffer
      ({ s with
          server := .sendto data.length, requests := s.requests.eraseIdx pick
          serverBuffer := overwrite (List.replicate maxBuffer 0) data }, [.kept datagram data])
  | .sendto n =>
    ({ s with server := .recvfrom, replies := s.replies ++ [s.serverBuffer.take n] }, [])

def step (s : System) : Move → System × List Event
  | .client pick => stepClient beyond s pick
  | .server pick => stepServer s pick

end Step

/-- Before the first `fgets`, with whatever the buffers hold. -/
def System.start (input buffer serverBuffer : Bytes) : System :=
  ⟨input, .fgets, buffer, [], .recvfrom, serverBuffer, []⟩

/-- The client's output, one text for each `printf`. -/
def printed (events : List Event) : List Bytes :=
  events.filterMap fun
    | .print text => some text
    | .kept _ _ => none

/-! ## One piece after the other -/

/-- The round that the two are in, with the pieces that are still to be printed. -/
inductive Round : System → List Bytes → Prop
  | idle {input b sb : Bytes} (hin : 0 ∉ input) :
      Round ⟨input, .fgets, b, [], .recvfrom, sb, []⟩ (pieces maxBuffer input)
  | read {input b sb piece : Bytes} (hin : 0 ∉ input) (h : Carried piece b) :
      Round ⟨input, .sendto, b, [], .recvfrom, sb, []⟩ (piece :: pieces maxBuffer input)
  | requested {input b sb piece : Bytes} (hin : 0 ∉ input) (h : Carried piece b) :
      Round ⟨input, .recvfrom, b, [piece], .recvfrom, sb, []⟩ (piece :: pieces maxBuffer input)
  | served {input b sb piece : Bytes} {n : ℕ} (hin : 0 ∉ input) (h : Carried piece b)
      (hsb : sb.take n = piece) :
      Round ⟨input, .recvfrom, b, [], .sendto n, sb, []⟩ (piece :: pieces maxBuffer input)
  | replied {input b sb piece : Bytes} (hin : 0 ∉ input) (h : Carried piece b) :
      Round ⟨input, .recvfrom, b, [], .recvfrom, sb, [piece]⟩ (piece :: pieces maxBuffer input)
  | shown {input b sb piece : Bytes} (hin : 0 ∉ input) (h : Carried piece b) :
      Round ⟨input, .printf, b, [], .recvfrom, sb, []⟩ (piece :: pieces maxBuffer input)
  | done {b sb : Bytes} : Round ⟨[], .done, b, [], .recvfrom, sb, []⟩ []

/-- How many calls that do something are still to come. -/
def System.rank (s : System) : ℕ :=
  match s.client with
  | .fgets => 6 * (pieces maxBuffer s.input).length + 1
  | .sendto => 6 * (pieces maxBuffer s.input).length + 6
  | .recvfrom =>
    6 * (pieces maxBuffer s.input).length + 3 + 2 * s.requests.length +
      if s.server = .recvfrom then 0 else 1
  | .printf => 6 * (pieces maxBuffer s.input).length + 2
  | .done => 0

/-- What a move, or a run, does to the pieces that are still to be printed. -/
structure Advance (s : System) (todo : List Bytes) (r : System × List Event) : Prop where
  round : ∃ todo', Round r.1 todo' ∧ todo.map echo = printed r.2 ++ todo'.map echo
  whole : ∀ datagram data, .kept datagram data ∈ r.2 → data = datagram
  rank : r.1 = s ∨ r.1.rank < s.rank

theorem Round.stay {s : System} {todo : List Bytes} (h : Round s todo) : Advance s todo (s, []) :=
  ⟨⟨todo, h, rfl⟩, by simp, .inl rfl⟩

theorem Round.go {s s' : System} {todo : List Bytes} (h : Round s' todo)
    (hrank : s'.rank < s.rank) : Advance s todo (s', []) :=
  ⟨⟨todo, h, rfl⟩, by simp, .inr hrank⟩

theorem round_fgets {input b sb : Bytes} (beyond : Bytes) (pick : ℕ) (hin : 0 ∉ input) :
    Advance ⟨input, .fgets, b, [], .recvfrom, sb, []⟩ (pieces maxBuffer input)
      (stepClient beyond ⟨input, .fgets, b, [], .recvfrom, sb, []⟩ pick) := by
  cases h : fgets maxBuffer input with
  | none =>
    obtain rfl := fgets_eq_none.1 h
    rw [pieces_none h]
    simp only [stepClient, h]
    exact Round.done.go (by simp [System.rank])
  | some r =>
    obtain ⟨piece, rest⟩ := r
    have hpieces : pieces maxBuffer input = piece :: pieces maxBuffer rest :=
      pieces_some (by decide) h
    rw [hpieces]
    simp only [stepClient, h]
    refine (Round.read (clear_fgets hin h) (carried_fgets hin h b)).go ?_
    simp [System.rank, hpieces]
    omega

theorem round_client {s : System} {todo : List Bytes} (h : Round s todo) (beyond : Bytes)
    (pick : ℕ) : Advance s todo (stepClient beyond s pick) := by
  cases h with
  | idle hin => exact round_fgets beyond pick hin
  | read hin h =>
    simp only [stepClient, h.string, List.nil_append]
    exact (Round.requested hin h).go (by simp [System.rank])
  | requested hin h => exact (Round.requested hin h).stay
  | served hin h hsb => exact (Round.served hin h hsb).stay
  | @replied input b sb piece hin h =>
    cases pick with
    | zero =>
      simp only [stepClient, List.getElem?_cons_zero, List.take_of_length_le h.fits.le,
        List.eraseIdx_cons_zero]
      exact (Round.shown hin h.overwrite).go (by simp [System.rank])
    | succ pick => exact (Round.replied hin h).stay
  | @shown input b sb piece hin h =>
    simp only [stepClient, h.string]
    exact ⟨⟨_, .idle hin, rfl⟩, by simp, .inr (by simp [System.rank])⟩
  | done => exact Round.done.stay

theorem round_server {s : System} {todo : List Bytes} (h : Round s todo) (pick : ℕ) :
    Advance s todo (stepServer s pick) := by
  cases h with
  | idle hin => exact (Round.idle hin).stay
  | read hin h => exact (Round.read hin h).stay
  | @requested input b sb piece hin h =>
    cases pick with
    | zero =>
      simp only [stepServer, List.getElem?_cons_zero, List.take_of_length_le h.fits.le,
        List.eraseIdx_cons_zero]
      exact ⟨⟨_, .served hin h (by simp [overwrite]), rfl⟩, by simp,
        .inr (by simp [System.rank])⟩
    | succ pick => exact (Round.requested hin h).stay
  | served hin h hsb =>
    simp only [stepServer, hsb, List.nil_append]
    exact (Round.replied hin h).go (by simp [System.rank])
  | replied hin h => exact (Round.replied hin h).stay
  | shown hin h => exact (Round.shown hin h).stay
  | done => exact Round.done.stay

theorem round_step {s : System} {todo : List Bytes} (h : Round s todo) (beyond : Bytes) (m : Move) :
    Advance s todo (step beyond s m) := by
  cases m with
  | client pick => exact round_client h beyond pick
  | server pick => exact round_server h pick

theorem printed_append (e f : List Event) : printed (e ++ f) = printed e ++ printed f :=
  List.filterMap_append

/-- A run prints the pieces in turn. -/
theorem round_run {s : System} {todo : List Bytes} (h : Round s todo) (beyond : Bytes)
    (moves : List Move) :
    Advance s todo (exec (step beyond) s moves, trace (step beyond) s moves) := by
  induction moves generalizing s todo with
  | nil => exact h.stay
  | cons m moves ih =>
    obtain ⟨⟨todo₁, hround, hprinted⟩, hwhole, hrank⟩ := round_step h beyond m
    obtain ⟨⟨todo₂, hround', hprinted'⟩, hwhole', hrank'⟩ := ih hround
    refine ⟨⟨todo₂, hround', ?_⟩, ?_, ?_⟩
    · rw [hprinted, hprinted', trace_cons, printed_append, List.append_assoc]
    · intro datagram data hmem
      rcases List.mem_append.1 hmem with hmem | hmem
      · exact hwhole datagram data hmem
      · exact hwhole' datagram data hmem
    · rcases hrank with heq | hlt
      · rw [exec_cons, heq]
        rwa [heq] at hrank'
      · refine .inr ?_
        rcases hrank' with heq | hlt'
        · rwa [exec_cons, heq]
        · exact hlt'.trans hlt

theorem round_next {s : System} (h : ∃ todo, Round s todo) (beyond : Bytes) (m : Move) :
    ∃ todo, Round (step beyond s m).1 todo := by
  obtain ⟨todo, hround⟩ := h
  obtain ⟨⟨todo', hround', -⟩, -, -⟩ := round_step hround beyond m
  exact ⟨todo', hround'⟩

theorem rank_next {s : System} (h : ∃ todo, Round s todo) (beyond : Bytes) (m : Move) :
    (step beyond s m).1 = s ∨ (step beyond s m).1.rank < s.rank := by
  obtain ⟨todo, hround⟩ := h
  exact (round_step hround beyond m).rank

/-- A call of the client or of the server that takes the datagram that came first. -/
def calls : Set Move := {.client 0, .server 0}

/-- Until the client is done, one of the two can go on. -/
theorem Round.live {s : System} {todo : List Bytes} (h : Round s todo) (beyond : Bytes) :
    s.client = .done ∨ ∃ m ∈ calls, (step beyond s m).1 ≠ s := by
  cases h with
  | @idle input b sb hin =>
    refine .inr ⟨.client 0, .inl rfl, fun heq => ?_⟩
    have hpc := congrArg System.client heq
    cases h : fgets maxBuffer input <;> simp [step, stepClient, h] at hpc
  | read | shown =>
    exact .inr ⟨.client 0, .inl rfl, fun heq => by simp [step, stepClient] at heq⟩
  | replied => exact .inr ⟨.client 0, .inl rfl, fun heq => by simp [step, stepClient] at heq⟩
  | requested | served =>
    exact .inr ⟨.server 0, .inr rfl, fun heq => by simp [step, stepServer] at heq⟩
  | done => exact .inl rfl

theorem Round.todo_done {s : System} {todo : List Bytes} (h : Round s todo)
    (hdone : s.client = .done) : todo = [] := by
  cases h with
  | done => rfl
  | _ => simp at hdone

/-- What the run has done with the input. -/
structure RoundTrip (input : Bytes) (s : System) (events : List Event) : Prop where
  inOrder : printed events <+: (pieces maxBuffer input).map echo
  complete : s.client = .done → printed events = (pieces maxBuffer input).map echo
  flatten : (pieces maxBuffer input).flatten = input
  bounded : ∀ piece ∈ pieces maxBuffer input, piece.length ≤ maxBuffer - 1
  whole : ∀ datagram data, .kept datagram data ∈ events → data = datagram

section Runs
variable (beyond buffer serverBuffer : Bytes) {input : Bytes} (h : 0 ∉ input)
include h

theorem roundTrip_run (moves : List Move) :
    RoundTrip input (exec (step beyond) (.start input buffer serverBuffer) moves)
      (trace (step beyond) (.start input buffer serverBuffer) moves) := by
  have hstart : Round (.start input buffer serverBuffer) (pieces maxBuffer input) := .idle h
  obtain ⟨⟨todo, hround, hprinted⟩, hwhole, -⟩ := round_run hstart beyond moves
  refine ⟨⟨_, hprinted.symm⟩, fun hdone => ?_, ?_, ?_, hwhole⟩
  · rw [hprinted, hround.todo_done hdone, List.map_nil, List.append_nil]
  · exact pieces_flatten (by decide) input
  · exact fun piece hmem => length_of_mem_pieces (by decide) input hmem

/-- A run in which every call does something has six of them for each piece, and the
`fgets` that finds the end. -/
theorem length_le_of_busy {moves : List Move}
    (hbusy : Along (step beyond) (fun s m => (step beyond s m).1 ≠ s)
      (.start input buffer serverBuffer) moves) :
    moves.length ≤ 6 * (pieces maxBuffer input).length + 1 :=
  length_le_of_decreasing (fun s => ∃ todo, Round s todo) System.rank
    (fun _ m hs => round_next hs beyond m)
    (fun _ m hs hne => (rank_next hs beyond m).resolve_left hne) ⟨_, .idle h⟩ hbusy

/-- Neither of the two is kept from its calls for ever, so the client comes to its end. -/
theorem exists_done {moves : ℕ → Move} (hfair : ∀ m ∈ calls, ∀ n, ∃ k ≥ n, moves k = m) :
    ∃ n, (exec (step beyond) (.start input buffer serverBuffer)
      ((List.range n).map moves)).client = .done :=
  exists_final_of_fair calls (fun _ m hs => round_next hs beyond m)
    (fun _ m hs => rank_next hs beyond m) (fun _ hs => hs.elim fun _ hround => hround.live beyond)
    ⟨_, .idle h⟩ hfair

end Runs

/-- Whatever the buffers hold at first and the memory behind them, and whatever the order
of the calls, the lines come back as they were; the two have at most six calls for each
piece and one more that do anything; and where each of them is called again and again,
the client prints all pieces and ends. -/
theorem udp_round_trip (beyond buffer serverBuffer input : Bytes) (h : 0 ∉ input) :
    let start := System.start input buffer serverBuffer
    (∀ moves, RoundTrip input (exec (step beyond) start moves) (trace (step beyond) start moves)) ∧
      (∀ moves, Along (step beyond) (fun s m => (step beyond s m).1 ≠ s) start moves →
        moves.length ≤ 6 * (pieces maxBuffer input).length + 1) ∧
      ∀ moves : ℕ → Move, (∀ m ∈ calls, ∀ n, ∃ k ≥ n, moves k = m) →
        ∃ n, (exec (step beyond) start ((List.range n).map moves)).client = .done ∧
          printed (trace (step beyond) start ((List.range n).map moves)) =
            (pieces maxBuffer input).map echo := by
  refine ⟨roundTrip_run beyond buffer serverBuffer h,
    fun _ => length_le_of_busy beyond buffer serverBuffer h, fun moves hfair => ?_⟩
  obtain ⟨n, hdone⟩ := exists_done beyond buffer serverBuffer h hfair
  exact ⟨n, hdone, (roundTrip_run beyond buffer serverBuffer h _).complete hdone⟩

/-- A first line and a shorter second one; the two take turns. -/
theorem udp_round_trip_twoLines :
    ∃ n, (exec (step [7]) (.start (ascii "Hello\nHi\n") [1, 2] [3])
        ((List.range n).map fun k => if k % 2 = 0 then .client 0 else .server 0)).client = .done ∧
      printed (trace (step [7]) (.start (ascii "Hello\nHi\n") [1, 2] [3])
          ((List.range n).map fun k => if k % 2 = 0 then .client 0 else .server 0)) =
        (pieces maxBuffer (ascii "Hello\nHi\n")).map echo := by
  have hfair : ∀ m ∈ calls, ∀ n, ∃ k ≥ n,
      (if k % 2 = 0 then Move.client 0 else Move.server 0) = m := by
    rintro m (rfl | rfl) n
    · exact ⟨2 * n, by omega, if_pos (by omega)⟩
    · exact ⟨2 * n + 1, by omega, if_neg (by omega)⟩
  exact (udp_round_trip [7] [1, 2] [3] (ascii "Hello\nHi\n") (by decide)).2.2 _ hfair

end AcademyLab.Echo.Udp
