import AcademyLab.Chat.Cooldown

/-!
# Lines and chunks

The servers keep nothing of a chunk: what one `read` returns is one message, up
to its first CR, LF or NUL. So the lines of a client come through exactly as the
chunks show them.
-/
namespace AcademyLab.Chat
open Machine CString

/-- The bytes at which the handler does not cut. -/
def isText (b : UInt8) : Bool := b ∉ ascii "\r\n" ∧ b ≠ 0

def lf : UInt8 := 10

/-- The chunk is the line with LF or CR LF behind it. -/
def OneLine (line data : Bytes) : Prop := data = line ++ ascii "\n" ∨ data = line ++ ascii "\r\n"

theorem lineOf_eq (data : Bytes) : lineOf data = data.takeWhile isText := by
  unfold lineOf ofMemory
  simp only [take_strcspn, List.takeWhile_takeWhile]
  congr 1
  funext b
  simp [isText]

theorem lineOf_oneLine {line data : Bytes} (hline : line.all isText = true)
    (h : OneLine line data) : lineOf data = line := by
  have htext := List.all_eq_true.mp hline
  rw [lineOf_eq]
  rcases h with rfl | rfl
  · exact takeWhile_append_cons htext (by decide)
  · exact takeWhile_append_cons htext (by decide)

theorem map_lineOf_oneLine {lines datas : List Bytes}
    (hlines : ∀ l ∈ lines, l.all isText = true) (h : List.Forall₂ OneLine lines datas) :
    datas.map lineOf = lines := by
  induction h with
  | nil => rfl
  | cons hone _ ih =>
    rw [List.map_cons, lineOf_oneLine (hlines _ List.mem_cons_self) hone,
      ih fun l hl => hlines l (List.mem_cons_of_mem _ hl)]

/-- Nothing of a line is lost in what it asks for. -/
theorem request_injective : Function.Injective request := by
  -- the line is read back from the request
  have hinv (line : Bytes) : line = match request line with
      | .renamed newName | .rejected newName => ascii "/name " ++ newName
      | .chatted text => text
      | .dropped => [] := by
    unfold request
    by_cases hcmd : strncmpEq line (ascii "/name ") 6 = true
    · obtain ⟨newName, rfl⟩ := (strncmpEq_iff line (ascii "/name ")).mp hcmd
      rw [if_pos hcmd]
      dsimp only
      split_ifs <;> rfl
    · rw [if_neg hcmd]
  intro l l' h
  rw [hinv l, hinv l', h]

/-- Chunks that keep the cooldown all pass once the first one does. -/
theorem allows_of_mem_visits {c : Client} {as : List Arrival}
    (hfirst : ∀ a ∈ as.head?, c.Allows a.2)
    (hgap : as.IsChain fun a b => msgCooldown ≤ b.2 - a.2) {v : Client × Arrival}
    (hv : v ∈ visits treat c as) : v.1.Allows v.2.2 := by
  induction as generalizing c with
  | nil => simp at hv
  | cons a as ih =>
    have ha : c.Allows a.2 := hfirst a rfl
    rcases List.mem_cons.mp hv with rfl | hv
    · exact ha
    · refine ih (fun b hb => ?_) hgap.tail hv
      have hab : msgCooldown ≤ b.2 - a.2 := (List.isChain_cons.mp hgap).1 b hb
      have ha' : a.2 - c.lastMsgTime ≥ msgCooldown := ha
      have hpos : (0 : ℤ) < msgCooldown := by decide
      change b.2 - (c.after a.1 a.2).lastMsgTime ≥ msgCooldown
      rcases lastMsgTime_after c a.1 a.2 with ⟨-, hafter⟩ | ⟨-, hafter⟩
      · omega
      · omega

/-- Each chunk is one message, in order. Chunks that are one line each are
processed as these lines, and lines that are not empty are processed exactly if
the stream was cut behind each of them. What the other clients get of a chunk is what its
message has for them. -/
theorem one_message_per_chunk {W : Type} {w : Watcher W} (S : Session w)
    (hfirst : ∀ a ∈ S.history.head?, msgCooldown ≤ a.2 - S.input.stack.lastMsgTime)
    (hgap : S.history.IsChain fun a b => msgCooldown ≤ b.2 - a.2) :
    S.log.map Entry.outcome = S.history.map (fun a => request (lineOf a.1)) ∧
      (∀ lines : List Bytes, (∀ l ∈ lines, l.all isText = true) →
        List.Forall₂ OneLine lines (S.history.map Prod.fst) →
          S.log.map Entry.outcome = lines.map request) ∧
      (∀ lines : List Bytes, (∀ l ∈ lines, l ≠ [] ∧ l.all isText = true) →
        (S.history.map Prod.fst).flatten = stream lf lines →
          (S.log.map Entry.outcome = lines.map request ↔
            S.history.map Prod.fst = lines.map (· ++ [lf]))) ∧
      Along (sysStep w) (Told w S.conn.fd) S.start S.inputs := by
  have hall : ∀ a ∈ S.history.head?, S.client.Allows a.2 := by
    intro a ha
    change a.2 - (newClient S.input).lastMsgTime ≥ msgCooldown
    rw [newClient_lastMsgTime]
    exact hfirst a ha
  have hmessages : S.log.map Entry.outcome = S.history.map fun a => request (lineOf a.1) := by
    have hvisits : S.visits.map Prod.snd = S.history := visits_inputs _ _
    rw [S.log_eq, ← hvisits, List.map_map, List.map_map]
    refine List.map_congr_left fun v hv => ?_
    exact if_pos (allows_of_mem_visits hall hgap hv)
  -- two lists of lines ask for the same if they are the same
  have hcompare (lines : List Bytes) : S.log.map Entry.outcome = lines.map request ↔
      (S.history.map Prod.fst).map lineOf = lines := by
    have hmap : S.history.map (fun a => request (lineOf a.1)) =
        ((S.history.map Prod.fst).map lineOf).map request := by simp
    rw [hmessages, hmap]
    exact (List.map_injective_iff.mpr request_injective).eq_iff
  refine ⟨hmessages, fun lines hlines hone => ?_, fun lines hlines hstream => ?_,
    along_of_forall (told_sysStep S.conn.fd) _ _⟩
  · exact (hcompare lines).mpr (map_lineOf_oneLine hlines hone)
  · rw [hcompare]
    have htext : ∀ l ∈ lines, l.all isText = true := fun l hl => (hlines l hl).2
    constructor
    · intro hstart
      refine chunks_eq_lines (fun l hl => List.all_eq_true.mp (htext l hl)) (by decide)
        (fun l hl => (hlines l hl).1) ?_ hstream ?_
      · intro c hc
        obtain ⟨a, ha, rfl⟩ := List.mem_map.mp hc
        exact List.length_pos_iff.mp (S.fits ha).1
      · rw [← hstart]
        exact List.map_congr_left fun c _ => (lineOf_eq c).symm
    · intro hcut
      refine map_lineOf_oneLine htext ?_
      rw [hcut, List.forall₂_map_right_iff, List.forall₂_same]
      exact fun l _ => .inl rfl

/-- Two lines in two chunks. -/
def twoChunks : Session selectWatch :=
  firstSession 0 (firstInputs [(lineA, 1), (lineChunk "b\n" (by decide), 2)]) (by decide)

theorem one_message_per_chunk_twoChunks :
    twoChunks.log.map Entry.outcome = [ascii "a", ascii "b"].map request ∧
      twoChunks.history.map Prod.fst = [ascii "a", ascii "b"].map (· ++ [lf]) := by
  have h := (one_message_per_chunk twoChunks (by decide) (by decide)).2
  have hlines := h.1 [ascii "a", ascii "b"] (by decide)
    (.cons (.inl (by decide)) (.cons (.inl (by decide)) .nil))
  exact ⟨hlines, (h.2.1 _ (by decide) (by decide)).mp hlines⟩

/-- The same two lines in one chunk, and cut behind the first letter. -/
def oneChunk : Session selectWatch :=
  firstSession 0 (firstInputs [(lineChunk "a\nb\n" (by decide), 1)]) (by decide)

def cutChunks : Session selectWatch :=
  firstSession 0 (firstInputs [(letterA, 1), (lineChunk "\nb\n" (by decide), 2)]) (by decide)

/-- Both lose a line, and a stale time stamp loses the first one. -/
theorem lines_lost :
    ((oneChunk.history.map Prod.fst).flatten = stream lf [ascii "a", ascii "b"] ∧
      oneChunk.log.map Entry.outcome ≠ [ascii "a", ascii "b"].map request) ∧
    ((cutChunks.history.map Prod.fst).flatten = stream lf [ascii "a", ascii "b"] ∧
      cutChunks.log.map Entry.outcome ≠ [ascii "a", ascii "b"].map request) ∧
    (((greetingSession 10 (by decide)).history.map Prod.fst).flatten = stream lf [ascii "a"] ∧
      (greetingSession 10 (by decide)).log.map Entry.outcome ≠ [ascii "a"].map request) := by
  decide

end AcademyLab.Chat
