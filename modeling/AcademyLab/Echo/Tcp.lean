import AcademyLab.Echo.Lines
import AcademyLab.Machine

/-!
# The TCP echo pair

`str_cli` of `client.c` and `str_echo` of `server.c` on one connection. A move
is one `read` or `write` with what the program does around it, and says how many
of the bytes under way a `read` gets; a `read` waits for the first of them. The
server closes only after the client, so that no `read` returns 0.
-/
namespace AcademyLab.Echo.Tcp
open CString Machine

/-- The client reads a line and writes it, or reads the echo and prints it. -/
inductive ClientPc
  | line
  | echo
  | done
  deriving DecidableEq

inductive ServerPc
  | read
  | write
  deriving DecidableEq

structure System where
  input : Bytes
  client : ClientPc
  sendBuf : Bytes
  readBuf : Bytes
  up : Bytes
  server : ServerPc
  buffer : Bytes
  down : Bytes

/-- `more` is the number of bytes that a `read` gets after the first. -/
inductive Move
  | client (more : ℕ)
  | server (more : ℕ)

section Step
variable (beyond beyondServer : Bytes)

/-- What `read` gets of the bytes under way. -/
def received (stream : Bytes) (more : ℕ) : Bytes := stream.take (min (more + 1) maxBuffer)

/-- What stays under way. -/
def left (stream : Bytes) (more : ℕ) : Bytes := stream.drop (min (more + 1) maxBuffer)

/-- A move of the client, with what it prints; `beyond` is the memory behind
`read_buf`. -/
def stepClient (s : System) (more : ℕ) : System × List Bytes :=
  match s.client with
  | .line =>
    match fgets maxBuffer s.input with
    | none => ({ s with client := .done }, [])
    | some (line, rest) =>
      let sendBuf := overwrite s.sendBuf (line ++ [0])
      ({ s with client := .echo, input := rest, sendBuf, up := s.up ++ ofMemory sendBuf }, [])
  | .echo =>
    if s.down = [] then (s, [])
    else
      let readBuf := overwrite s.readBuf (received s.down more)
      ({ s with client := .line, readBuf, down := left s.down more },
        [echo (ofMemory (readBuf ++ beyond))])
  | .done => (s, [])

/-- A move of the server; `memset` is part of its `read`. -/
def stepServer (s : System) (more : ℕ) : System × List Bytes :=
  match s.server with
  | .read =>
    if s.up = [] then (s, [])
    else
      let buffer := overwrite (List.replicate maxBuffer 0) (received s.up more)
      ({ s with server := .write, buffer, up := left s.up more }, [])
  | .write =>
    ({ s with server := .read, down := s.down ++ ofMemory (s.buffer ++ beyondServer) }, [])

def step (s : System) : Move → System × List Bytes
  | .client more => stepClient beyond s more
  | .server more => stepServer beyondServer s more

end Step

/-- After `connect`, with whatever the buffers hold. -/
def System.start (input sendBuf readBuf buffer : Bytes) : System :=
  ⟨input, .line, sendBuf, readBuf, [], .read, buffer, []⟩

/-- The line that the client has sent last. -/
def System.line (s : System) : Bytes := ofMemory s.sendBuf

/-- The client is about to read an echo. -/
def Reads (s : System) : Move → Prop
  | .client _ => s.client = .echo ∧ s.down ≠ []
  | .server _ => False

/-- A `read` of the client gets the whole echo of the line. -/
def Whole (s : System) (m : Move) : Prop :=
  match m with
  | .client more => Reads s m → (received s.down more).length = s.line.length
  | .server _ => True

/-- Behind the echo, `read_buf` holds a NUL. -/
def Terminated (s : System) (m : Move) : Prop := Reads s m → s.readBuf[s.line.length]? = some 0

/-- What is printed is the line. -/
def Right (beyond beyondServer : Bytes) (s : System) (m : Move) : Prop :=
  ∀ text ∈ (step beyond beyondServer s m).2, text = echo s.line

instance (s : System) (m : Move) : Decidable (Reads s m) :=
  match m with
  | .client _ => inferInstanceAs (Decidable (_ ∧ _))
  | .server _ => isFalse id

instance (s : System) (m : Move) : Decidable (Whole s m) :=
  match m with
  | .client _ => inferInstanceAs (Decidable (_ → _))
  | .server _ => isTrue trivial

instance (s : System) (m : Move) : Decidable (Terminated s m) :=
  inferInstanceAs (Decidable (_ → _))

instance (beyond beyondServer : Bytes) (s : System) (m : Move) :
    Decidable (Right beyond beyondServer s m) :=
  inferInstanceAs (Decidable (∀ text ∈ _, _))

/-! ## One line after the other -/

/-- The round that the two are in, with the lines that are still to be printed.
Of a line under way, a part is on its way back, a part in the server's buffer,
and the rest on its way there. -/
inductive Round : System → List Bytes → Prop
  | idle {input sb rb b : Bytes} (hin : 0 ∉ input) (hrb : rb.length = maxBuffer) :
      Round ⟨input, .line, sb, rb, [], .read, b, []⟩ (pieces maxBuffer input)
  | reading {input sb rb b up down line : Bytes} (hin : 0 ∉ input) (hrb : rb.length = maxBuffer)
      (h : Carried line sb) (hline : down ++ up = line) :
      Round ⟨input, .echo, sb, rb, up, .read, b, down⟩ (line :: pieces maxBuffer input)
  | writing {input sb rb b up data down line : Bytes} (hin : 0 ∉ input)
      (hrb : rb.length = maxBuffer) (h : Carried line sb) (hdata : data ≠ [])
      (hb : data ++ [0] <+: b) (hline : down ++ data ++ up = line) :
      Round ⟨input, .echo, sb, rb, up, .write, b, down⟩ (line :: pieces maxBuffer input)
  | done {sb rb b : Bytes} (hrb : rb.length = maxBuffer) :
      Round ⟨[], .done, sb, rb, [], .read, b, []⟩ []

section Lemmas
variable {input line rest sb rb b stream up down data : Bytes} {more : ℕ}

theorem received_append_left : received stream more ++ left stream more = stream :=
  List.take_append_drop _ _

theorem received_ne_nil (h : stream ≠ []) : received stream more ≠ [] := by
  have hpos := List.length_pos_iff.2 h
  refine List.length_pos_iff.1 ?_
  simp only [received, List.length_take, maxBuffer]
  omega

/-- The server's copy of what it has received ends in its buffer. -/
theorem stored_received (h : stream.length < maxBuffer) :
    received stream more ++ [0] <+:
      overwrite (List.replicate maxBuffer 0) (received stream more) := by
  have hlt : (received stream more).length < maxBuffer := by
    simp only [received, List.length_take]
    omega
  refine ⟨List.replicate (maxBuffer - (received stream more).length - 1) 0, ?_⟩
  rw [overwrite, List.drop_replicate, List.append_assoc, List.append_cancel_left_eq,
    ← List.replicate_one, List.replicate_append_replicate]
  congr 1
  omega

/-- A `read` as long as the line gets the line, and then nothing is under way. -/
theorem received_line (hline : down ++ rest = line)
    (hlen : (received down more).length = line.length) :
    received down more = line ∧ left down more = [] ∧ rest = [] := by
  have hsplit : (received down more).length + (left down more).length = down.length := by
    rw [← List.length_append, received_append_left]
  have hsum : down.length + rest.length = line.length := by rw [← List.length_append, hline]
  have hleft : left down more = [] := List.eq_nil_of_length_eq_zero (by omega)
  have hrest : rest = [] := List.eq_nil_of_length_eq_zero (by omega)
  have hdown : received down more ++ left down more = down := received_append_left
  rw [hleft, List.append_nil] at hdown
  rw [hrest, List.append_nil] at hline
  exact ⟨hdown.trans hline, hleft, hrest⟩

end Lemmas

section Steps
variable {s : System} {todo : List Bytes} {m : Move} {beyond beyondServer : Bytes}

/-- What a move does to the lines that are still to be printed, and when what it
prints is right. -/
structure Advance (beyond beyondServer : Bytes) (s : System) (m : Move) (todo : List Bytes) :
    Prop where
  round : ∃ todo', Round (step beyond beyondServer s m).1 todo' ∧
    (Right beyond beyondServer s m →
      todo.map echo = (step beyond beyondServer s m).2 ++ todo'.map echo)
  right_iff : Right beyond beyondServer s m ↔ Terminated s m

/-- A move that prints nothing. -/
theorem advance_silent {s' : System} (hstep : step beyond beyondServer s m = (s', []))
    (hround : Round s' todo) (hreads : ¬ Reads s m) : Advance beyond beyondServer s m todo where
  round := ⟨todo, by rwa [hstep], fun _ => by rw [hstep, List.nil_append]⟩
  right_iff := by simp [Right, Terminated, hstep, hreads]

/-- The echo of a line, got as a whole, is printed. -/
theorem advance_echo {input sb rb b up down line : Bytes} {more : ℕ} (hin : 0 ∉ input)
    (hrb : rb.length = maxBuffer) (h : Carried line sb) (hline : down ++ up = line)
    (hdown : down ≠ []) (hlen : (received down more).length = line.length) :
    Advance beyond beyondServer ⟨input, .echo, sb, rb, up, .read, b, down⟩ (.client more)
      (line :: pieces maxBuffer input) := by
  obtain ⟨hreceived, hleft, rfl⟩ := received_line hline hlen
  have hstep : step beyond beyondServer ⟨input, .echo, sb, rb, [], .read, b, down⟩
      (.client more) = (⟨input, .line, sb, overwrite rb line, [], .read, b, []⟩,
        [echo (ofMemory (overwrite rb line ++ beyond))]) := by
    simp only [step, stepClient, if_neg hdown, hreceived, hleft]
  have hfits : line.length < rb.length := by
    rw [hrb]
    exact h.fits
  have hright : Right beyond beyondServer ⟨input, .echo, sb, rb, [], .read, b, down⟩
      (.client more) ↔ ofMemory (overwrite rb line ++ beyond) = line := by
    simp [Right, hstep, System.line, h.ofMemory, echo]
  refine ⟨⟨pieces maxBuffer input, ?_, fun hr => ?_⟩, ?_⟩
  · rw [hstep]
    exact .idle hin ((length_overwrite hfits.le).trans hrb)
  · rw [hstep, hright.1 hr]
    rfl
  · rw [hright, ofMemory_overwrite_iff h.clear hfits, Terminated]
    simp [System.line, h.ofMemory, Reads, hdown]

theorem advance_client (h : Round s todo) (more : ℕ) (hwhole : Whole s (.client more)) :
    Advance beyond beyondServer s (.client more) todo := by
  cases h with
  | @idle input sb rb b hin hrb =>
    have hreads : ¬ Reads ⟨input, .line, sb, rb, [], .read, b, []⟩ (.client more) :=
      fun hr => hr.2 rfl
    cases h : fgets maxBuffer input with
    | none =>
      obtain rfl := fgets_eq_none.1 h
      rw [pieces_none h]
      exact advance_silent rfl (.done hrb) hreads
    | some r =>
      obtain ⟨line, rest⟩ := r
      have hcarried := carried_fgets hin h sb
      rw [pieces_some (by decide) h]
      have hstep : step beyond beyondServer ⟨input, .line, sb, rb, [], .read, b, []⟩
          (.client more) =
          (⟨rest, .echo, overwrite sb (line ++ [0]), rb, line, .read, b, []⟩, []) := by
        simp only [step, stepClient, h, hcarried.ofMemory, List.nil_append]
      exact advance_silent hstep
        (.reading (clear_fgets hin h) hrb hcarried (List.nil_append _)) hreads
  | @reading input sb rb b up down line hin hrb h hline =>
    by_cases hdown : down = []
    · subst hdown
      exact advance_silent rfl (.reading hin hrb h hline) fun hr => hr.2 rfl
    · have hlen := hwhole ⟨rfl, hdown⟩
      simp only [System.line, h.ofMemory] at hlen
      exact advance_echo hin hrb h hline hdown hlen
  | @writing input sb rb b up data down line hin hrb h hdata hb hline =>
    by_cases hdown : down = []
    · subst hdown
      exact advance_silent rfl (.writing hin hrb h hdata hb hline) fun hr => hr.2 rfl
    · have hlen := hwhole ⟨rfl, hdown⟩
      simp only [System.line, h.ofMemory] at hlen
      rw [List.append_assoc] at hline
      obtain ⟨-, -, hnil⟩ := received_line hline hlen
      exact absurd (List.append_eq_nil_iff.1 hnil).1 hdata
  | done hrb => exact advance_silent rfl (.done hrb) fun hr => hr.2 rfl

theorem advance_server (h : Round s todo) (more : ℕ) :
    Advance beyond beyondServer s (.server more) todo := by
  cases h with
  | idle hin hrb => exact advance_silent rfl (.idle hin hrb) id
  | @reading input sb rb b up down line hin hrb h hline =>
    by_cases hup : up = []
    · subst hup
      exact advance_silent rfl (.reading hin hrb h hline) id
    · have hlen : up.length < maxBuffer := by
        have := h.fits
        rw [← hline, List.length_append] at this
        omega
      have hstep : step beyond beyondServer ⟨input, .echo, sb, rb, up, .read, b, down⟩
          (.server more) = (⟨input, .echo, sb, rb, left up more, .write,
            overwrite (List.replicate maxBuffer 0) (received up more), down⟩, []) := by
        simp only [step, stepServer, if_neg hup]
      have hline' : down ++ received up more ++ left up more = line := by
        rw [List.append_assoc, received_append_left, hline]
      exact advance_silent hstep
        (.writing hin hrb h (received_ne_nil hup) (stored_received hlen) hline') id
  | @writing input sb rb b up data down line hin hrb h hdata hb hline =>
    have hclear : 0 ∉ data := by
      intro h0
      refine h.clear ?_
      rw [← hline]
      exact List.mem_append_left _ (List.mem_append_right _ h0)
    have hstring : ofMemory (b ++ beyondServer) = data :=
      ofMemory_of_prefix hclear (hb.trans (List.prefix_append _ _))
    have hstep : step beyond beyondServer ⟨input, .echo, sb, rb, up, .write, b, down⟩
        (.server more) = (⟨input, .echo, sb, rb, up, .read, b, down ++ data⟩, []) := by
      simp only [step, stepServer, hstring]
    exact advance_silent hstep (.reading hin hrb h hline) id
  | done hrb => exact advance_silent rfl (.done hrb) id

theorem advance (h : Round s todo) (hwhole : Whole s m) :
    Advance beyond beyondServer s m todo := by
  cases m with
  | client more => exact advance_client h more hwhole
  | server more => exact advance_server h more

/-- Along whole reads, what is printed is right exactly where there is a NUL. -/
theorem along_right_iff (h : Round s todo) {moves : List Move}
    (hwhole : Along (step beyond beyondServer) Whole s moves) :
    Along (step beyond beyondServer) (Right beyond beyondServer) s moves ↔
      Along (step beyond beyondServer) Terminated s moves := by
  have keep : ∀ s m, (∃ todo, Round s todo) → Whole s m →
      ∃ todo, Round (step beyond beyondServer s m).1 todo := by
    rintro s m ⟨todo, hround⟩ hw
    obtain ⟨todo', hround', -⟩ := (advance hround hw).round
    exact ⟨todo', hround'⟩
  have equiv : ∀ s m, (∃ todo, Round s todo) → Whole s m →
      (Right beyond beyondServer s m ↔ Terminated s m) := by
    rintro s m ⟨todo, hround⟩ hw
    exact (advance hround hw).right_iff
  exact along_congr keep equiv ⟨todo, h⟩ hwhole

/-- Along whole reads that are printed right, the lines come back in turn. -/
theorem run_right (h : Round s todo) {moves : List Move}
    (hwhole : Along (step beyond beyondServer) Whole s moves)
    (hright : Along (step beyond beyondServer) (Right beyond beyondServer) s moves) :
    ∃ todo', Round (exec (step beyond beyondServer) s moves) todo' ∧
      todo.map echo = trace (step beyond beyondServer) s moves ++ todo'.map echo := by
  induction moves generalizing s todo with
  | nil => exact ⟨todo, h, rfl⟩
  | cons m moves ih =>
    obtain ⟨todo₁, hround, hprinted⟩ := (advance h hwhole.1).round
    obtain ⟨todo₂, hround', hprinted'⟩ := ih hround hwhole.2 hright.2
    refine ⟨todo₂, hround', ?_⟩
    rw [hprinted hright.1, hprinted', trace_cons, List.append_assoc]

/-- Until the client is done, one of the two can go on, with a whole read if it
is the client. -/
theorem Round.live (h : Round s todo) :
    s.client = .done ∨ ∃ m, Whole s m ∧ (step beyond beyondServer s m).1 ≠ s := by
  cases h with
  | @idle input sb rb b hin hrb =>
    refine .inr ⟨.client 0, fun hr => absurd rfl hr.2, fun heq => ?_⟩
    have hpc := congrArg System.client heq
    cases h : fgets maxBuffer input <;> simp [step, stepClient, h] at hpc
  | @reading input sb rb b up down line hin hrb h hline =>
    by_cases hup : up = []
    · subst hup
      rw [List.append_nil] at hline
      subst hline
      refine .inr ⟨.client down.length, fun _ => ?_, fun heq => ?_⟩
      · have hfits := h.fits
        simp only [received, List.length_take, System.line, h.ofMemory]
        omega
      · have hpc := congrArg System.client heq
        simp [step, stepClient, h.nonempty] at hpc
    · refine .inr ⟨.server 0, trivial, fun heq => ?_⟩
      have hpc := congrArg System.server heq
      simp [step, stepServer, hup] at hpc
  | writing =>
    refine .inr ⟨.server 0, trivial, fun heq => ?_⟩
    have hpc := congrArg System.server heq
    simp [step, stepServer] at hpc
  | done => exact .inl rfl

theorem Round.todo_done (h : Round s todo) (hdone : s.client = .done) : todo = [] := by
  cases h with
  | done => rfl
  | _ => simp at hdone

end Steps

/-- What a session has done with the input. -/
structure Echoed (beyond beyondServer input : Bytes) (s : System) (prints : List Bytes) :
    Prop where
  inOrder : prints <+: (pieces maxBuffer input).map echo
  complete : s.client = .done → prints = (pieces maxBuffer input).map echo
  live : s.client = .done ∨ ∃ m, Whole s m ∧ (step beyond beyondServer s m).1 ≠ s

section Session
variable (beyond beyondServer input sendBuf readBuf buffer : Bytes) (hin : 0 ∉ input)
  (hbuf : readBuf.length = maxBuffer) (moves : List Move)
include hin hbuf

/-- If each `read` of the client gets a whole echo and there is a NUL behind it,
the lines are echoed. Among the runs with whole reads, these are all in which
every line is printed right. -/
theorem tcp_echo :
    (Along (step beyond beyondServer) (fun s m => Whole s m ∧ Terminated s m)
        (.start input sendBuf readBuf buffer) moves →
      Echoed beyond beyondServer input
        (exec (step beyond beyondServer) (.start input sendBuf readBuf buffer) moves)
        (trace (step beyond beyondServer) (.start input sendBuf readBuf buffer) moves)) ∧
    (Along (step beyond beyondServer) Whole (.start input sendBuf readBuf buffer) moves →
      (Along (step beyond beyondServer) (Right beyond beyondServer)
          (.start input sendBuf readBuf buffer) moves ↔
        Along (step beyond beyondServer) Terminated
          (.start input sendBuf readBuf buffer) moves)) := by
  have hstart : Round (.start input sendBuf readBuf buffer) (pieces maxBuffer input) :=
    .idle hin hbuf
  refine ⟨fun hboth => ?_, fun hwhole => along_right_iff hstart hwhole⟩
  obtain ⟨hwhole, hterm⟩ := (along_and _ _).1 hboth
  have hright := (along_right_iff hstart hwhole).2 hterm
  obtain ⟨todo, hround, hprinted⟩ := run_right hstart hwhole hright
  refine ⟨⟨_, hprinted.symm⟩, fun hdone => ?_, hround.live⟩
  rw [hprinted, hround.todo_done hdone, List.map_nil, List.append_nil]

end Session

/-- The client's first line and its echo, with whole reads. -/
def firstLine : List Move := [.client 0, .server 9, .server 0, .client 9]

/-- A `read_buf` of zeroes, and one line. -/
theorem tcp_echo_oneLine : Echoed [] [] (ascii "Hello\n")
    (exec (step [] []) (.start (ascii "Hello\n") [] (List.replicate maxBuffer 0) []) firstLine)
    (trace (step [] []) (.start (ascii "Hello\n") [] (List.replicate maxBuffer 0) []) firstLine) :=
  (tcp_echo [] [] (ascii "Hello\n") [] (List.replicate maxBuffer 0) [] (by decide)
    List.length_replicate firstLine).1 (by decide)

/-- A shorter second line is printed with the end of the first, and a part of an
echo without the rest. -/
theorem wrong_echo :
    ¬ Along (step [] []) (Right [] []) (.start (ascii "Hello\nHi\n") []
      (List.replicate maxBuffer 0) []) (firstLine ++ firstLine) ∧
    ¬ Along (step [] []) (Right [] []) (.start (ascii "Hello\n") []
      (List.replicate maxBuffer 0) []) [.client 0, .server 9, .server 0, .client 2] := by
  decide

end AcademyLab.Echo.Tcp
