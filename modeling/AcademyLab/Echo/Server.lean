import AcademyLab.Echo.Tcp

/-!
# The TCP echo server and arbitrary bytes

`str_echo` of `lab_1/server.c` on whatever a client sends. What `read` returns is
printed; what is written back has the length that `strlen` finds in the buffer,
which `memset` has cleared before the `read`.
-/
namespace AcademyLab.Echo.Server
open CString

/-- One `read` that returns something: what it puts into `buffer`, and the memory
that is behind `buffer` then. -/
structure Chunk where
  bytes : Bytes
  nonempty : bytes ≠ []
  length_le : bytes.length ≤ maxBuffer
  beyond : Bytes

/-- The memory from `buffer` on, when the chunk has been read. -/
def Chunk.memory (chunk : Chunk) : Bytes :=
  overwrite (List.replicate maxBuffer 0) chunk.bytes ++ chunk.beyond

def strlen (mem : Bytes) : ℕ := (ofMemory mem).length

/-- One turn of the loop: what it writes to the client, the number and the text that
it prints, and how many bytes from the start of `buffer` on it looks at. -/
structure Turn where
  written : Bytes
  nRead : ℕ
  printed : Bytes
  reach : ℕ
  deriving DecidableEq

/-- The body of the loop, behind its `read`. -/
def turn (chunk : Chunk) : Turn :=
  let mem := chunk.memory
  ⟨mem.take (strlen mem), chunk.bytes.length, ofMemory mem, strlen mem + 1⟩

/-- The loop; it ends when `read` returns nothing more. -/
def strEcho (chunks : List Chunk) : List Turn := chunks.map turn

/-- What the client sends, and what it gets back. -/
def stream (chunks : List Chunk) : Bytes := (chunks.map Chunk.bytes).flatten

def echoed (turns : List Turn) : Bytes := (turns.map Turn.written).flatten

section Turn
variable {chunk : Chunk} {chunks : List Chunk}

theorem written_eq : (turn chunk).written = ofMemory chunk.memory :=
  (List.prefix_iff_eq_take.1 (List.takeWhile_prefix _)).symm

/-- Two moves of the server of the echo pair are one turn. -/
theorem stepServer_turn {s : Tcp.System} {more more' : ℕ} {beyond : Bytes}
    (hserver : s.server = .read) (hup : s.up ≠ [])
    (hchunk : chunk.bytes = Tcp.received s.up more) (hbeyond : chunk.beyond = beyond) :
    (Tcp.stepServer beyond (Tcp.stepServer beyond s more).1 more').1.down =
      s.down ++ (turn chunk).written := by
  rw [written_eq, Chunk.memory, hchunk, hbeyond]
  simp [Tcp.stepServer, hserver, hup]

/-- A chunk without a NUL that leaves room for one is written back. -/
theorem turn_of_text (hzero : 0 ∉ chunk.bytes) (hlen : chunk.bytes.length < maxBuffer) :
    (turn chunk).written = chunk.bytes ∧ (turn chunk).reach ≤ maxBuffer := by
  have hnul : (List.replicate maxBuffer (0 : UInt8))[chunk.bytes.length]? = some 0 := by
    simp [hlen]
  have hmem : ofMemory chunk.memory = chunk.bytes := by
    rw [Chunk.memory, ofMemory_overwrite_iff hzero (by rwa [List.length_replicate]), hnul]
  refine ⟨written_eq.trans hmem, ?_⟩
  rw [turn, strlen, hmem]
  exact hlen

theorem reach_eq : (turn chunk).reach = (turn chunk).written.length + 1 := by
  rw [written_eq]
  rfl

/-- A turn that stays in `buffer` writes back a start of the chunk. -/
theorem written_prefix (h : (turn chunk).reach ≤ maxBuffer) :
    (turn chunk).written <+: chunk.bytes := by
  rw [reach_eq, written_eq] at h
  rw [written_eq]
  have hmem : ofMemory chunk.memory <+: chunk.memory := List.takeWhile_prefix _
  have hchunk : chunk.bytes <+: chunk.memory := by
    rw [Chunk.memory, overwrite, List.append_assoc]
    exact List.prefix_append _ _
  refine List.prefix_of_prefix_length_le hmem hchunk ?_
  rcases Nat.lt_or_ge chunk.bytes.length maxBuffer with hlt | hge
  · have hsplit : chunk.memory = chunk.bytes ++
        0 :: (List.replicate (maxBuffer - chunk.bytes.length - 1) 0 ++ chunk.beyond) := by
      rw [Chunk.memory, overwrite, List.drop_replicate, List.append_assoc, ← List.cons_append,
        ← List.replicate_succ, show maxBuffer - chunk.bytes.length - 1 + 1 =
          maxBuffer - chunk.bytes.length by omega]
    rw [hsplit, ofMemory_terminated]
    exact (List.takeWhile_prefix _).length_le
  · omega

/-- A chunk is written back from `buffer` just when it is text that leaves room for
the NUL. -/
theorem turn_right_iff :
    (turn chunk).written = chunk.bytes ∧ (turn chunk).reach ≤ maxBuffer ↔
      0 ∉ chunk.bytes ∧ chunk.bytes.length < maxBuffer := by
  constructor
  · rintro ⟨hwritten, hreach⟩
    rw [reach_eq, hwritten] at hreach
    refine ⟨fun hzero => ?_, hreach⟩
    rw [← hwritten, written_eq] at hzero
    simpa using List.mem_takeWhile_imp hzero
  · rintro ⟨hzero, hlen⟩
    exact turn_of_text hzero hlen

end Turn

/-- The server is an echo, and stays in its buffer, just when every chunk is text
shorter than the buffer. -/
theorem str_echo_identity (chunks : List Chunk) :
    (echoed (strEcho chunks) = stream chunks ∧ ∀ t ∈ strEcho chunks, t.reach ≤ maxBuffer) ↔
      ∀ chunk ∈ chunks, 0 ∉ chunk.bytes ∧ chunk.bytes.length < maxBuffer := by
  have hreach : (∀ t ∈ strEcho chunks, t.reach ≤ maxBuffer) ↔
      ∀ chunk ∈ chunks, (turn chunk).reach ≤ maxBuffer := by
    simp [strEcho]
  have hechoed : echoed (strEcho chunks) =
      (chunks.map fun chunk => (turn chunk).written).flatten := by
    rw [echoed, strEcho, List.map_map]
    rfl
  simp only [← turn_right_iff]
  rw [hreach, hechoed, stream]
  constructor
  · rintro ⟨hstream, hall⟩ chunk hchunk
    have hsame := (flatten_map_eq_iff fun c hc => written_prefix (hall c hc)).1 hstream
    exact ⟨hsame chunk hchunk, hall chunk hchunk⟩
  · intro hall
    refine ⟨?_, fun chunk hchunk => (hall chunk hchunk).2⟩
    exact (flatten_map_eq_iff fun c hc => written_prefix (hall c hc).2).2 fun c hc => (hall c hc).1

/-- One chunk of `a`, NUL, `b`: the client gets `a`. -/
theorem nul_not_echoed :
    ¬ ∀ chunks : List Chunk, echoed (strEcho chunks) = stream chunks ∧
      ∀ t ∈ strEcho chunks, t.reach ≤ maxBuffer := by
  intro h
  have hecho := (h [⟨[97, 0, 98], by decide, by decide, []⟩]).1
  have hlen := congrArg List.length hecho
  have hturn : (turn ⟨[97, 0, 98], by decide, by decide, []⟩).written = [97] := by
    rw [written_eq]
    rfl
  simp [echoed, strEcho, hturn, stream] at hlen

end AcademyLab.Echo.Server
