import AcademyLab.CString
import AcademyLab.Machine
import Mathlib.Logic.Function.Basic

/-!
# A message in a buffer

`get_message` and `thread_func` of `lab_3.c`, in both versions of `PROGRAM`. They differ
in the buffer that a thread formats its message in: the static one that all threads
share, or one of its own. `buffer` says which thread uses which. A step is one byte that
the `snprintf` of one thread stores or that its `printf` reads, in order, or its `sleep`.
-/
namespace AcademyLab.Message
open CString Machine

/-- How many bytes are stored, and what has been read, up to there. -/
inductive Pc
  | snprintf (stored : ℕ)
  | sleep
  | printf (text : Bytes)
  | done
  deriving DecidableEq

/-- `memory` holds the bytes from the start of each buffer on, which are anything at
first. -/
structure State (ι κ : Type*) where
  pc : ι → Pc
  memory : κ → ℕ → UInt8

inductive Event (ι : Type*)
  | formatted (t : ι)
  | printed (t : ι) (line : Bytes)
  deriving DecidableEq

/-- `sizeof(buffer)`. -/
def bufferSize : ℕ := 100

def message (name : Bytes) : Bytes := snprintf bufferSize (ascii "Hi, I'm " ++ name)

def line (name msg : Bytes) : Bytes := ascii "[" ++ name ++ ascii " thread] " ++ msg ++ ascii "\n"

section Step
variable {ι κ : Type*} [DecidableEq ι] [DecidableEq κ] (buffer : ι → κ) (name : ι → Bytes)

def start (memory : κ → ℕ → UInt8) : State ι κ := ⟨fun _ => .snprintf 0, memory⟩

def State.goto (s : State ι κ) (t : ι) (pc : Pc) : State ι κ :=
  { s with pc := Function.update s.pc t pc }

/-- A byte is stored at place `i` of the buffer `b`. -/
def State.store (s : State ι κ) (b : κ) (i : ℕ) (byte : UInt8) : State ι κ :=
  { s with memory := Function.update s.memory b (Function.update (s.memory b) i byte) }

/-- One step of the thread `t`. Behind the message its NUL is stored. -/
def step (s : State ι κ) (t : ι) : State ι κ × List (Event ι) :=
  match s.pc t with
  | .snprintf stored =>
    let msg := message (name t)
    let s := s.store (buffer t) stored (msg.getD stored 0)
    if stored = msg.length then (s.goto t .sleep, [.formatted t])
    else (s.goto t (.snprintf (stored + 1)), [])
  | .sleep => (s.goto t (.printf []), [])
  | .printf text =>
    let byte := s.memory (buffer t) text.length
    if byte = 0 then (s.goto t .done, [.printed t (line (name t) text)])
    else (s.goto t (.printf (text ++ [byte])), [])
  | .done => (s, [])

/-- The last thread to have formatted a message in the buffer `b`. -/
def lastWriter (b : κ) (log : List (Event ι)) : Option ι :=
  log.foldl (fun w e => match e with
    | .formatted t => if buffer t = b then some t else w
    | .printed _ _ => w) none

/-- The lines that a thread has printed. -/
def printed (t : ι) (log : List (Event ι)) : List Bytes :=
  log.filterMap fun
    | .printed u text => if u = t then some text else none
    | .formatted _ => none

end Step

section Goto
variable {ι κ : Type*} [DecidableEq ι] {s : State ι κ} {t u : ι} {q : Pc}

@[simp] theorem goto_self : (s.goto t q).pc t = q := by simp [State.goto]

@[simp] theorem goto_of_ne (h : u ≠ t) : (s.goto t q).pc u = s.pc u := by simp [State.goto, h]

@[simp] theorem goto_memory : (s.goto t q).memory = s.memory := rfl

/-- Who is elsewhere than `t` has gone is another thread, and has stayed where it was. -/
theorem pc_of_goto {p : Pc} (hq : q ≠ p) (hu : (s.goto t q).pc u = p) : u ≠ t ∧ s.pc u = p := by
  by_cases hut : u = t
  · subst hut
    exact absurd (goto_self.symm.trans hu) hq
  · exact ⟨hut, (goto_of_ne hut).symm.trans hu⟩

end Goto

section Store
variable {ι κ : Type*} [DecidableEq κ] {s : State ι κ}

@[simp] theorem store_pc {b : κ} {i : ℕ} {byte : UInt8} : (s.store b i byte).pc = s.pc := rfl

theorem store_memory_of_ne {b b' : κ} (h : b' ≠ b) (i : ℕ) (byte : UInt8) :
    (s.store b i byte).memory b' = s.memory b' := by
  simp [State.store, h]

theorem store_memory (b : κ) (i : ℕ) (byte : UInt8) (j : ℕ) :
    (s.store b i byte).memory b j = if j = i then byte else s.memory b j := by
  simp only [State.store, Function.update_self, Function.update_apply]

end Store

/-- In `snprintf`, whether or not it has stored anything. -/
def Pc.formats : Pc → Bool
  | .snprintf _ => true
  | _ => false

/-- In the middle of `snprintf`. -/
def Pc.writing : Pc → Bool
  | .snprintf stored => 0 < stored
  | _ => false

def Pc.reads : Pc → Bool
  | .printf _ => true
  | _ => false

/-- In the middle of `printf`. -/
def Pc.reading : Pc → Bool
  | .printf text => text ≠ []
  | _ => false

/-- The step is not one of `snprintf` while another thread is in the middle of its
`snprintf` or `printf` on the same buffer, nor one of `printf` while another is in the
middle of `snprintf`. -/
def Exclusive {ι κ : Type*} (buffer : ι → κ) (s : State ι κ) (t : ι) : Prop :=
  ∀ u ≠ t, buffer u = buffer t →
    ((s.pc t).formats → (s.pc u).writing = false ∧ (s.pc u).reading = false) ∧
      ((s.pc t).reads → (s.pc u).writing = false)

instance {ι κ : Type*} [Fintype ι] [DecidableEq ι] [DecidableEq κ] (buffer : ι → κ)
    (s : State ι κ) (t : ι) : Decidable (Exclusive buffer s t) :=
  inferInstanceAs (Decidable (∀ u ≠ t, _ → _ ∧ _))

/-- `PROGRAM` 0: the static buffer. -/
def nonReentrant {ι : Type*} : ι → Unit := fun _ => ()

/-- `PROGRAM` 1: each thread has its own. -/
def reentrant {ι : Type*} : ι → ι := id

/-- The memory starts with the message and its NUL. -/
def Holds (memory : ℕ → UInt8) (msg : Bytes) : Prop := ∀ i ≤ msg.length, memory i = msg.getD i 0

/-- While no two threads are inside each other's calls: a buffer in which nobody is
writing holds the message of the last thread that has formatted one, who is writing is
alone and has stored a first part, and who is reading has read one. -/
structure Inv {ι κ : Type*} [DecidableEq ι] [DecidableEq κ] (buffer : ι → κ) (name : ι → Bytes)
    (s : State ι κ) (log : List (Event ι)) : Prop where
  bound : ∀ t i, s.pc t = .snprintf i → i ≤ (message (name t)).length
  begun : ∀ t i, s.pc t = .snprintf i →
    ∀ j < i, s.memory (buffer t) j = (message (name t)).getD j 0
  same : ∀ b w, lastWriter buffer b log = some w → buffer w = b
  whole : ∀ b w, lastWriter buffer b log = some w →
    (∀ u, buffer u = b → (s.pc u).writing = false) → Holds (s.memory b) (message (name w))
  written : ∀ t, (s.pc t).formats = false → (lastWriter buffer (buffer t) log).isSome
  alone : ∀ t u, u ≠ t → buffer u = buffer t → (s.pc t).writing →
    (s.pc u).writing = false ∧ (s.pc u).reading = false
  read : ∀ t text, s.pc t = .printf text → ∀ w, lastWriter buffer (buffer t) log = some w →
    text <+: message (name w)

section Invariant
variable {ι κ : Type*} [DecidableEq ι] [DecidableEq κ] {buffer : ι → κ} {name : ι → Bytes}
  {s : State ι κ} {t : ι} {q : Pc} {log : List (Event ι)}

omit [DecidableEq ι] in
theorem lastWriter_formatted (b : κ) : lastWriter buffer b (log ++ [.formatted t]) =
    if buffer t = b then some t else lastWriter buffer b log := by
  simp [lastWriter]

omit [DecidableEq ι] in
theorem lastWriter_printed (b : κ) (text : Bytes) :
    lastWriter buffer b (log ++ [.printed t text]) = lastWriter buffer b log := by
  simp [lastWriter]

theorem zero_notMem_message {name : Bytes} (hname : 0 ∉ name) : 0 ∉ message name := by
  intro hmem
  have htext : 0 ∈ ascii "Hi, I'm " ++ name := List.mem_of_mem_take hmem
  rcases List.mem_append.1 htext with h | h
  · revert h
    decide
  · exact hname h

theorem length_message (name : Bytes) : (message name).length < bufferSize := by
  simp only [message, snprintf, bufferSize, List.length_take]
  omega

theorem writing_of_formats (h : q.formats = false) : q.writing = false := by
  cases q with
  | snprintf i => cases h
  | _ => rfl

theorem inv_start (memory : κ → ℕ → UInt8) : Inv buffer name (start memory) [] where
  bound := fun t i h => by
    obtain rfl : 0 = i := Pc.snprintf.inj h
    exact Nat.zero_le _
  begun := fun t i h j hj => by
    obtain rfl : 0 = i := Pc.snprintf.inj h
    exact absurd hj (Nat.not_lt_zero j)
  same := fun _ _ h => nomatch h
  whole := fun _ _ h => nomatch h
  written := fun _ h => nomatch h
  alone := fun _ _ _ _ h => by simp [start, Pc.writing] at h
  read := fun _ _ h => nomatch h

/-- A move that stores nothing. -/
theorem inv_goto {log' : List (Event ι)} (h : Inv buffer name s log)
    (hlog : ∀ b, lastWriter buffer b log' = lastWriter buffer b log)
    (hpc : (s.pc t).formats = false) (hq : q.formats = false)
    (halone : q.reading → ∀ u ≠ t, buffer u = buffer t → (s.pc u).writing = false)
    (hread : ∀ text, q = .printf text → ∀ w, lastWriter buffer (buffer t) log = some w →
      text <+: message (name w)) :
    Inv buffer name (s.goto t q) log' := by
  have hwriting : ∀ u, ((s.goto t q).pc u).writing = (s.pc u).writing := by
    intro u
    by_cases hu : u = t
    · subst hu
      rw [goto_self, writing_of_formats hq, writing_of_formats hpc]
    · rw [goto_of_ne hu]
  have hformats : ∀ u i, (s.goto t q).pc u = .snprintf i → s.pc u = .snprintf i := by
    intro u i hu
    have hne : q ≠ .snprintf i := by
      rintro rfl
      cases hq
    exact (pc_of_goto hne hu).2
  refine ⟨fun u i hu => h.bound u i (hformats u i hu), fun u i hu => h.begun u i (hformats u i hu),
    ?_, ?_, fun u hu => ?_, fun u v hne hb hu => ?_, fun u text hu w hw => ?_⟩
  · simpa only [hlog] using h.same
  · simpa only [hlog, hwriting, goto_memory] using h.whole
  · rw [hlog]
    by_cases hut : u = t
    · subst hut
      exact h.written u hpc
    · rw [goto_of_ne hut] at hu
      exact h.written u hu
  · rw [hwriting] at hu ⊢
    obtain ⟨hwrite, hread'⟩ := h.alone u v hne hb hu
    refine ⟨hwrite, ?_⟩
    by_cases hvt : v = t
    · subst hvt
      rw [goto_self]
      by_contra hreads
      have hidle := halone (by simpa using hreads) u hne.symm hb.symm
      rw [hu] at hidle
      cases hidle
    · rwa [goto_of_ne hvt]
  · rw [hlog] at hw
    by_cases hut : u = t
    · subst hut
      rw [goto_self] at hu
      exact hread text hu w hw
    · rw [goto_of_ne hut] at hu
      exact h.read u text hu w hw

/-- After a store of `t` its buffer starts with the bytes that it has stored. -/
theorem begun_store (h : Inv buffer name s log) {i : ℕ} (hpc : s.pc t = .snprintf i) :
    ∀ j < i + 1, (s.store (buffer t) i ((message (name t)).getD i 0)).memory (buffer t) j =
      (message (name t)).getD j 0 := by
  intro j hj
  rw [store_memory]
  split_ifs with hji
  · rw [hji]
  · exact h.begun t i hpc j (by omega)

omit [DecidableEq ι] [DecidableEq κ] in
/-- Nobody else is in the middle of a call on the buffer of a thread that stores. -/
theorem exclusive_store (hex : Exclusive buffer s t) {i : ℕ} (hpc : s.pc t = .snprintf i) (u : ι)
    (hu : u ≠ t) (hb : buffer u = buffer t) :
    (s.pc u).writing = false ∧ (s.pc u).reading = false :=
  (hex u hu hb).1 (by rw [hpc]; rfl)

/-- Another thread that stores in the same buffer has not begun yet. -/
theorem begun_of_ne (h : Inv buffer name s log) (hex : Exclusive buffer s t) {i : ℕ}
    (hpc : s.pc t = .snprintf i) (byte : UInt8) {u : ι} (hu : u ≠ t) {k : ℕ}
    (hpcu : s.pc u = .snprintf k) :
    ∀ j < k, (s.store (buffer t) i byte).memory (buffer u) j = (message (name u)).getD j 0 := by
  intro j hj
  by_cases hb : buffer u = buffer t
  · have hidle := (exclusive_store hex hpc u hu hb).1
    rw [hpcu] at hidle
    simp only [Pc.writing, decide_eq_false_iff_not] at hidle
    omega
  · rw [store_memory_of_ne hb]
    exact h.begun u k hpcu j hj

theorem inv_store (h : Inv buffer name s log) (hex : Exclusive buffer s t) {i : ℕ}
    (hpc : s.pc t = .snprintf i) (hlt : i < (message (name t)).length) :
    Inv buffer name ((s.store (buffer t) i ((message (name t)).getD i 0)).goto t
      (.snprintf (i + 1))) log := by
  refine ⟨fun u k hu => ?_, fun u k hu => ?_, h.same, fun b w hw hidle => ?_, fun u hu => ?_,
    fun u v hne hb hu => ?_, fun u text hu w hw => ?_⟩
  · by_cases hut : u = t
    · subst hut
      rw [goto_self] at hu
      have := Pc.snprintf.inj hu
      omega
    · rw [goto_of_ne hut] at hu
      exact h.bound u k hu
  · rw [goto_memory]
    by_cases hut : u = t
    · subst hut
      rw [goto_self] at hu
      obtain rfl := Pc.snprintf.inj hu
      exact begun_store h hpc
    · rw [goto_of_ne hut] at hu
      exact begun_of_ne h hex hpc _ hut hu
  · have hb : b ≠ buffer t := by
      rintro rfl
      have := hidle t rfl
      rw [goto_self] at this
      simp [Pc.writing] at this
    rw [goto_memory, store_memory_of_ne hb]
    refine h.whole b w hw fun u hu => ?_
    have hut : u ≠ t := by
      rintro rfl
      exact hb hu.symm
    simpa [hut] using hidle u hu
  · have hut : u ≠ t := by
      rintro rfl
      rw [goto_self] at hu
      cases hu
    rw [goto_of_ne hut] at hu
    exact h.written u hu
  · by_cases hut : u = t
    · subst hut
      rw [goto_of_ne hne]
      exact exclusive_store hex hpc v hne hb
    · rw [goto_of_ne hut] at hu
      by_cases hvt : v = t
      · subst hvt
        have hidle := (exclusive_store hex hpc u hut hb.symm).1
        rw [store_pc, hidle] at hu
        cases hu
      · rw [goto_of_ne hvt]
        exact h.alone u v hne hb hu
  · obtain ⟨-, hu⟩ := pc_of_goto (by simp) hu
    exact h.read u text hu w hw

/-- The store of the NUL ends the message. -/
theorem inv_formatted (h : Inv buffer name s log) (hex : Exclusive buffer s t)
    (hpc : s.pc t = .snprintf (message (name t)).length) :
    Inv buffer name ((s.store (buffer t) (message (name t)).length
      ((message (name t)).getD (message (name t)).length 0)).goto t .sleep)
      (log ++ [.formatted t]) := by
  refine ⟨fun u k hu => ?_, fun u k hu => ?_, fun b w hw => ?_, fun b w hw hidle => ?_,
    fun u hu => ?_, fun u v hne hb hu => ?_, fun u text hu w hw => ?_⟩
  · obtain ⟨-, hu⟩ := pc_of_goto (by simp) hu
    exact h.bound u k hu
  · obtain ⟨hut, hu⟩ := pc_of_goto (by simp) hu
    exact begun_of_ne h hex hpc _ hut hu
  · rw [lastWriter_formatted] at hw
    split_ifs at hw with hb
    · obtain rfl : t = w := Option.some.inj hw
      exact hb
    · exact h.same b w hw
  · rw [goto_memory]
    rw [lastWriter_formatted] at hw
    split_ifs at hw with hb
    · obtain rfl : t = w := Option.some.inj hw
      subst hb
      exact fun j hj => begun_store h hpc j (by omega)
    · rw [store_memory_of_ne (Ne.symm hb)]
      refine h.whole b w hw fun u hu => ?_
      have hut : u ≠ t := by
        rintro rfl
        exact hb hu
      simpa [hut] using hidle u hu
  · rw [lastWriter_formatted]
    split_ifs with hb
    · rfl
    · have hut : u ≠ t := fun hut => hb (by rw [hut])
      rw [goto_of_ne hut] at hu
      exact h.written u hu
  · have hut : u ≠ t := by
      rintro rfl
      rw [goto_self] at hu
      cases hu
    rw [goto_of_ne hut] at hu
    by_cases hvt : v = t
    · subst hvt
      rw [goto_self]
      exact ⟨rfl, rfl⟩
    · rw [goto_of_ne hvt]
      exact h.alone u v hne hb hu
  · obtain ⟨hut, hu⟩ := pc_of_goto (by simp) hu
    rw [store_pc] at hu
    rw [lastWriter_formatted] at hw
    split_ifs at hw with hb
    · -- who is about to read on has read nothing yet
      have hidle := (exclusive_store hex hpc u hut hb.symm).2
      rw [hu] at hidle
      obtain rfl : text = [] := by simpa [Pc.reading] using hidle
      exact List.nil_prefix
    · exact h.read u text hu w hw

/-- Who has read a first part of a message reads on in it, up to its NUL. -/
theorem reads_on {memory : ℕ → UInt8} {msg text : Bytes} (hmsg : 0 ∉ msg)
    (hholds : Holds memory msg) (htext : text <+: msg) :
    (memory text.length = 0 → text = msg) ∧
      (memory text.length ≠ 0 → text ++ [memory text.length] <+: msg) := by
  obtain ⟨rest, rfl⟩ := htext
  have hbyte := hholds text.length (by simp)
  cases rest with
  | nil =>
    have hnul : memory text.length = 0 := by simpa using hbyte
    exact ⟨fun _ => (List.append_nil text).symm, fun hne => absurd hnul hne⟩
  | cons c rest =>
    have hc : memory text.length = c := by simpa using hbyte
    rw [hc]
    refine ⟨fun hzero => absurd ?_ hmsg, fun _ => ⟨rest, by simp⟩⟩
    rw [← hzero]
    simp

/-- A thread in its `printf` has read a first part of the message that its buffer holds. -/
theorem reading_holds (h : Inv buffer name s log) (hex : Exclusive buffer s t) {text : Bytes}
    (hpc : s.pc t = .printf text) :
    ∃ w, lastWriter buffer (buffer t) log = some w ∧ buffer w = buffer t ∧
      Holds (s.memory (buffer t)) (message (name w)) ∧ text <+: message (name w) := by
  obtain ⟨w, hw⟩ := Option.isSome_iff_exists.1 (h.written t (by rw [hpc]; rfl))
  refine ⟨w, hw, h.same _ w hw, h.whole _ w hw fun u hu => ?_, h.read t text hpc w hw⟩
  by_cases hut : u = t
  · rw [hut, hpc]
    rfl
  · exact (hex u hut hu).2 (by rw [hpc]; rfl)

theorem inv_step (hname : ∀ t, 0 ∉ name t) (h : Inv buffer name s log)
    (hex : Exclusive buffer s t) :
    Inv buffer name (step buffer name s t).1 (log ++ (step buffer name s t).2) := by
  cases hpc : s.pc t with
  | snprintf i =>
    have hle := h.bound t i hpc
    by_cases hi : i = (message (name t)).length
    · subst hi
      simp only [step, hpc, if_true]
      exact inv_formatted h hex hpc
    · simp only [step, hpc, if_neg hi, List.append_nil]
      exact inv_store h hex hpc (by omega)
  | sleep =>
    simp only [step, hpc, List.append_nil]
    refine inv_goto h (fun _ => rfl) (by rw [hpc]; rfl) rfl ?_ ?_
    · intro hreads
      simp [Pc.reading] at hreads
    · intro text htext w _
      obtain rfl := Pc.printf.inj htext
      exact List.nil_prefix
  | printf text =>
    by_cases hbyte : s.memory (buffer t) text.length = 0
    · simp only [step, hpc, if_pos hbyte]
      exact inv_goto h (fun b => lastWriter_printed b _) (by rw [hpc]; rfl) rfl
        (fun hreads => nomatch hreads) (fun _ htext => nomatch htext)
    · simp only [step, hpc, if_neg hbyte, List.append_nil]
      refine inv_goto h (fun _ => rfl) (by rw [hpc]; rfl) rfl ?_ ?_
      · exact fun _ u hu hb => (hex u hu hb).2 (by rw [hpc]; rfl)
      · intro text' htext w hw
        obtain rfl := Pc.printf.inj htext
        obtain ⟨w', hw', -, hholds, hprefix⟩ := reading_holds h hex hpc
        obtain rfl : w = w' := Option.some.inj (hw.symm.trans hw')
        exact (reads_on (zero_notMem_message (hname w)) hholds hprefix).2 hbyte
  | done => simpa only [step, hpc, List.append_nil] using h

theorem inv_run (hname : ∀ t, 0 ∉ name t) (memory : κ → ℕ → UInt8) {schedule : List ι}
    (hex : Along (step buffer name) (Exclusive buffer) (start memory) schedule) :
    Inv buffer name (exec (step buffer name) (start memory) schedule)
      (trace (step buffer name) (start memory) schedule) := by
  have hrun := invariant_trace_along (fun s log => Inv buffer name s log)
    (fun s t log (h : Inv buffer name s log) hex => inv_step hname h hex) (inv_start memory) hex
  simpa using hrun

theorem line_inj {name msg msg' : Bytes} : line name msg = line name msg' ↔ msg = msg' := by
  simp [line]

/-- What a thread prints is the message of the last one that has used its buffer. -/
theorem printed_last (hname : ∀ t, 0 ∉ name t) (h : Inv buffer name s log)
    (hex : Exclusive buffer s t) {text : Bytes}
    (hprints : .printed t text ∈ (step buffer name s t).2) :
    ∃ w, buffer w = buffer t ∧ lastWriter buffer (buffer t) log = some w ∧
      text = line (name t) (message (name w)) := by
  cases hpc : s.pc t with
  | snprintf i =>
    simp only [step, hpc] at hprints
    split_ifs at hprints <;> simp at hprints
  | sleep | done => simp [step, hpc] at hprints
  | printf read =>
    obtain ⟨w, hw, hbuffer, hholds, hprefix⟩ := reading_holds h hex hpc
    simp only [step, hpc] at hprints
    split_ifs at hprints with hbyte
    · obtain rfl := (reads_on (zero_notMem_message (hname w)) hholds hprefix).1 hbyte
      exact ⟨w, hbuffer, hw, by simpa using hprints⟩
    · simp at hprints

/-! ## How long it takes -/

/-- An upper bound of the steps that a thread has left. -/
def rank (name : Bytes) : Pc → ℕ
  | .snprintf stored => (message name).length + 2 - stored + bufferSize
  | .sleep => 1 + bufferSize
  | .printf text => bufferSize - text.length
  | .done => 0

theorem pc_of_ne {u : ι} (hu : u ≠ t) : (step buffer name s t).1.pc u = s.pc u := by
  unfold step
  cases s.pc t with
  | snprintf i => dsimp only; split_ifs <;> simp [hu]
  | sleep => simp [hu]
  | printf text => dsimp only; split_ifs <;> simp [hu]
  | done => rfl

theorem rank_pos (h : Inv buffer name s log) (hex : Exclusive buffer s t)
    (hpc : s.pc t ≠ .done) : 0 < rank (name t) (s.pc t) := by
  cases hpc' : s.pc t with
  | snprintf i =>
    have := h.bound t i hpc'
    simp only [rank]
    omega
  | sleep => simp [rank]
  | printf text =>
    obtain ⟨w, -, -, -, hprefix⟩ := reading_holds h hex hpc'
    have := hprefix.length_le
    have := length_message (name w)
    simp only [rank]
    omega
  | done => exact absurd hpc' hpc

theorem rank_step (h : Inv buffer name s log) (hex : Exclusive buffer s t)
    (hpc : s.pc t ≠ .done) :
    rank (name t) ((step buffer name s t).1.pc t) < rank (name t) (s.pc t) := by
  have hpos := rank_pos h hex hpc
  cases hpc' : s.pc t with
  | snprintf i =>
    have := h.bound t i hpc'
    simp only [step, hpc']
    split_ifs <;> simp only [goto_self, rank] <;> omega
  | sleep => simp [step, hpc', rank]
  | printf text =>
    rw [hpc'] at hpos
    simp only [step, hpc']
    simp only [rank] at hpos
    split_ifs <;> simp only [goto_self, rank, List.length_append, List.length_singleton] <;> omega
  | done => exact absurd hpc' hpc

theorem done_run (h : s.pc t = .done) (schedule : List ι) :
    (exec (step buffer name) s schedule).pc t = .done := by
  refine invariant_exec (fun s : State ι κ => s.pc t = .done) (fun s u h => ?_) h schedule
  by_cases hut : t = u
  · subst hut
    simp [step, h]
  · rwa [pc_of_ne hut]

/-- The thread is done, or each of its steps has taken it on. -/
theorem rank_run (hname : ∀ t, 0 ∉ name t) (h : Inv buffer name s log) (t : ι)
    {schedule : List ι} (hex : Along (step buffer name) (Exclusive buffer) s schedule) :
    (exec (step buffer name) s schedule).pc t = .done ∨
      rank (name t) ((exec (step buffer name) s schedule).pc t) + schedule.count t ≤
        rank (name t) (s.pc t) := by
  induction schedule generalizing s log with
  | nil => exact .inr (by simp)
  | cons u schedule ih =>
    by_cases hpc : s.pc t = .done
    · exact .inl (done_run hpc (u :: schedule))
    rcases ih (inv_step hname h hex.1) hex.2 with hdone | hle
    · exact .inl hdone
    refine .inr ?_
    by_cases hut : u = t
    · subst hut
      have hless := rank_step h hex.1 hpc
      rw [exec_cons, List.count_cons_self]
      omega
    · rw [pc_of_ne (Ne.symm hut)] at hle
      rwa [exec_cons, List.count_cons_of_ne hut]

theorem done_of_count (hname : ∀ t, 0 ∉ name t) (memory : κ → ℕ → UInt8) {schedule : List ι}
    (hex : Along (step buffer name) (Exclusive buffer) (start memory) schedule)
    (hcount : 2 * bufferSize + 1 ≤ schedule.count t)
    (hnext : Exclusive buffer (exec (step buffer name) (start memory) schedule) t) :
    (exec (step buffer name) (start memory) schedule).pc t = .done := by
  by_contra hpc
  have hpos := rank_pos (inv_run hname memory hex) hnext hpc
  have hle := (rank_run hname (inv_start memory) t hex).resolve_left hpc
  have hlen := length_message (name t)
  have hstart : rank (name t) ((start memory).pc t) =
      (message (name t)).length + 2 - 0 + bufferSize := rfl
  omega

/-! ## Each thread with a buffer of its own -/

theorem printed_append (t : ι) (e f : List (Event ι)) :
    printed t (e ++ f) = printed t e ++ printed t f :=
  List.filterMap_append

theorem printed_of_ne {u : ι} (hu : u ≠ t) : printed u (step buffer name s t).2 = [] := by
  unfold step
  cases s.pc t with
  | snprintf i => dsimp only; split_ifs <;> rfl
  | sleep | done => rfl
  | printf text => dsimp only; split_ifs <;> simp [printed, Ne.symm hu]

/-- A thread has printed its line when it is done, and nothing before. -/
def Told (name : ι → Bytes) (s : State ι κ) (log : List (Event ι)) : Prop :=
  ∀ t, printed t log = if s.pc t = .done then [line (name t) (message (name t))] else []

theorem told_step (hname : ∀ t, 0 ∉ name t) (hinj : Function.Injective buffer)
    (h : Inv buffer name s log) (htold : Told name s log) (t : ι) :
    Told name (step buffer name s t).1 (log ++ (step buffer name s t).2) := by
  have hex : Exclusive buffer s t := fun u hu hb => absurd (hinj hb) hu
  intro u
  rw [printed_append, htold u]
  by_cases hu : u = t
  swap
  · rw [printed_of_ne hu, pc_of_ne hu, List.append_nil]
  subst hu
  cases hpc : s.pc u with
  | snprintf i =>
    simp only [step, hpc]
    split_ifs <;> simp_all [printed]
  | sleep => simp [step, hpc, printed]
  | done => simp [step, hpc, printed]
  | printf text =>
    by_cases hbyte : s.memory (buffer u) text.length = 0
    · have hprints : .printed u (line (name u) text) ∈ (step buffer name s u).2 := by
        simp [step, hpc, hbyte]
      obtain ⟨w, hbuffer, -, hline⟩ := printed_last hname h hex hprints
      obtain rfl := hinj hbuffer
      simp [step, hpc, hbyte, printed, hline]
    · simp [step, hpc, hbyte, printed]

theorem told_run (hname : ∀ t, 0 ∉ name t) (hinj : Function.Injective buffer)
    (memory : κ → ℕ → UInt8) (schedule : List ι) :
    Told name (exec (step buffer name) (start memory) schedule)
      (trace (step buffer name) (start memory) schedule) := by
  have hrun := invariant_trace (fun s log => Inv buffer name s log ∧ Told name s log)
    (fun s t log h => ⟨inv_step hname h.1 fun u hu hb => absurd (hinj hb) hu,
      told_step hname hinj h.1 h.2 t⟩)
    (⟨inv_start memory, fun _ => rfl⟩ : Inv buffer name (start memory) [] ∧ _) schedule
  simpa using hrun.2

end Invariant

theorem exclusive_reentrant {ι : Type*} (s : State ι ι) (t : ι) : Exclusive reentrant s t :=
  fun _ hu hb => absurd hb hu

/-- With any number of threads, under any names and in any order of their steps, down to
the bytes: a thread of `PROGRAM` 1 prints its own message and nothing else. In a run of
`PROGRAM` 0 in which no two threads are inside each other's `snprintf` or `printf`, one
prints its own message if and only if the last thread to have formatted one has formatted
the same text. -/
theorem get_message_lines {ι : Type*} [DecidableEq ι] (name : ι → Bytes)
    (hname : ∀ t, 0 ∉ name t) (own : ι → ℕ → UInt8) (shared : Unit → ℕ → UInt8)
    (schedule : List ι) (t : ι) :
    let alone := exec (step reentrant name) (start own) schedule
    let s := exec (step nonReentrant name) (start shared) schedule
    (printed t (trace (step reentrant name) (start own) schedule) =
          (if alone.pc t = .done then [line (name t) (message (name t))] else []) ∧
        (2 * bufferSize + 1 ≤ schedule.count t → alone.pc t = .done)) ∧
      (Along (step nonReentrant name) (Exclusive nonReentrant) (start shared) schedule →
        Exclusive nonReentrant s t →
          (2 * bufferSize + 1 ≤ schedule.count t → s.pc t = .done) ∧
          ∀ text, .printed t text ∈ (step nonReentrant name s t).2 →
            ∃ w, lastWriter nonReentrant ()
                (trace (step nonReentrant name) (start shared) schedule) = some w ∧
              (text = line (name t) (message (name t)) ↔ message (name w) = message (name t))) := by
  intro alone s
  constructor
  · have hex : Along (step reentrant name) (Exclusive reentrant) (start own) schedule :=
      along_of_forall exclusive_reentrant _ schedule
    exact ⟨told_run hname Function.injective_id own schedule t,
      fun hcount => done_of_count hname own hex hcount (exclusive_reentrant _ t)⟩
  · intro hex hnext
    refine ⟨fun hcount => done_of_count hname shared hex hcount hnext, fun text hprints => ?_⟩
    obtain ⟨w, -, hw, rfl⟩ := printed_last hname (inv_run hname shared hex) hnext hprints
    exact ⟨w, hw, line_inj⟩

inductive Thread
  | t1 | t2
  deriving DecidableEq

instance : Fintype Thread := ⟨{.t1, .t2}, fun t => by cases t <;> decide⟩

/-- The arguments that `main` passes. -/
def names : Thread → Bytes
  | .t1 => ascii "Alice"
  | .t2 => ascii "Bob"

/-- The static buffer, one call after the other: Alice's thread, then Bob's, and Alice's
up to the end of what it reads. -/
def callByCall : List Thread :=
  List.replicate 14 .t1 ++ List.replicate 12 .t2 ++ List.replicate 12 .t1

theorem get_message_lines_main :
    ∃ w, lastWriter nonReentrant ()
        (trace (step nonReentrant names) (start fun _ _ => 0) callByCall) = some w ∧
      (line (names .t1) (ascii "Hi, I'm Bob") = line (names .t1) (message (names .t1)) ↔
        message (names w) = message (names .t1)) :=
  ((get_message_lines names (fun t => by cases t <;> decide) (fun _ _ => 0) (fun _ _ => 0)
    callByCall .t1).2 (by decide +kernel) (by decide +kernel)).2 _ (by decide +kernel)

/-- Bob's thread inside Alice's `snprintf`: the text that Alice's prints is nobody's. -/
example : let schedule : List Thread :=
      List.replicate 9 .t1 ++ List.replicate 12 .t2 ++ List.replicate 5 .t1 ++ List.replicate 15 .t1
    printed .t1 (trace (step nonReentrant names) (start fun _ _ => 0) schedule) =
      [line (ascii "Alice") (ascii "Hi, I'm Blice")] := by decide +kernel

end AcademyLab.Message
