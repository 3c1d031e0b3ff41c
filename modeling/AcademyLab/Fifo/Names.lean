import AcademyLab.CString

/-!
# The names of the FIFOs

`main` of `lab_1.c` names the two FIFOs after its arguments, in the one order and in
the other, with `_to_` between them. Names may contain `_to_` themselves, and
`snprintf` cuts what does not fit.
-/
namespace AcademyLab.Fifo.Names
open CString

/-- An argument of the program. -/
@[ext]
structure Name where
  bytes : Bytes
  notMem_zero : 0 ∉ bytes
  deriving DecidableEq

/-- `sizeof(fifo_send)`, `sizeof(fifo_recv)` -/
def fifoSize : ℕ := 100

/-- What is between the two names. -/
def separator : Bytes := ascii "_to_"

def fifoName (a b : Name) : Bytes := snprintf fifoSize (a.bytes ++ separator ++ b.bytes)

/-- The `fifo_send` and the `fifo_recv` of one process. -/
structure Fifos where
  fifoSend : Bytes
  fifoRecv : Bytes

/-- `main` with `argv[1]` and `argv[2]`. -/
def fifos (argv1 argv2 : Name) : Fifos := ⟨fifoName argv1 argv2, fifoName argv2 argv1⟩

section Length
variable {a b : Name}

theorem separator_ne_nil : separator ≠ [] := by decide

theorem length_separator : separator.length = 4 := by decide

/-- A name that leaves room in its buffer is whole. -/
theorem fifoName_of_short (h : a.bytes.length + b.bytes.length + 4 ≤ 99) :
    fifoName a b = a.bytes ++ separator ++ b.bytes := by
  refine List.take_of_length_le ?_
  simp only [List.length_append, length_separator, fifoSize]
  omega

theorem length_fifoName :
    (fifoName a b).length = min 99 (a.bytes.length + b.bytes.length + 4) := by
  simp only [fifoName, snprintf, List.length_take, List.length_append, length_separator, fifoSize]
  omega

/-- A cut name does not show what comes behind. -/
theorem fifoName_append {b' : Name} (tail : Bytes) (hb' : b'.bytes = b.bytes ++ tail)
    (h : 99 ≤ a.bytes.length + b.bytes.length + 4) : fifoName a b' = fifoName a b := by
  rw [fifoName, fifoName, hb', ← List.append_assoc, snprintf, snprintf,
    List.take_append_of_le_length]
  simp only [List.length_append, length_separator, fifoSize]
  omega

end Length

section SameName
variable {a b : Name}

/-- The two names of a process are one just when the friend's goes on as the user's
begins. -/
theorem fifoName_comm_iff : fifoName a b = fifoName b a ↔
    ∃ n, fifoName b a <+: (List.replicate n (a.bytes ++ separator)).flatten := by
  have hx : a.bytes ++ separator ≠ [] := List.append_ne_nil_of_right_ne_nil _ separator_ne_nil
  have hb : b.bytes <+: b.bytes ++ separator ++ a.bytes := ⟨separator ++ a.bytes, by simp⟩
  have hlen : (b.bytes ++ separator ++ a.bytes).length =
      (a.bytes ++ separator).length + b.bytes.length := by
    simp only [List.length_append]
    omega
  exact take_append_eq_iff hx hb hlen (fifoSize - 1)

end SameName

section Shared
variable {a b : Name}

/-- The texts of the names that can be cut out of a name. -/
theorem exists_name {s t : Bytes} (h : s ++ separator ++ t = a.bytes ++ separator ++ b.bytes) :
    ∃ c d : Name, c.bytes = s ∧ d.bytes = t := by
  have hzero : 0 ∉ s ++ separator ++ t := by
    have hsep : 0 ∉ separator := by decide
    simp [h, a.notMem_zero, b.notMem_zero, hsep]
  simp only [List.mem_append, not_or] at hzero
  exact ⟨⟨s, hzero.1.1⟩, ⟨t, hzero.2⟩, rfl, rfl⟩

/-- A name that is not cut belongs to no other pair just when it has one `_to_`. -/
theorem unshared_of_short (h : a.bytes.length + b.bytes.length + 4 < 99) :
    (∀ c d, fifoName c d = fifoName a b → c = a ∧ d = b) ↔
      Clear separator a.bytes ∧ ¬ separator <:+: separator.tail ++ b.bytes := by
  have hshort : ∀ c d : Name, fifoName c d = fifoName a b ↔
      c.bytes ++ separator ++ d.bytes = a.bytes ++ separator ++ b.bytes := by
    intro c d
    constructor
    · intro hname
      have hlen := congrArg List.length hname
      rw [length_fifoName, length_fifoName] at hlen
      rwa [fifoName_of_short (by omega), fifoName_of_short (by omega)] at hname
    · intro htext
      rw [fifoName, fifoName, htext]
  rw [← append_unique_iff separator_ne_nil]
  simp only [hshort]
  constructor
  · intro hunique s t hst
    obtain ⟨c, d, rfl, rfl⟩ := exists_name hst
    obtain ⟨rfl, rfl⟩ := hunique c d hst
    exact ⟨rfl, rfl⟩
  · intro hunique c d hcd
    obtain ⟨hc, hd⟩ := hunique c.bytes d.bytes hcd
    exact ⟨Name.ext hc, Name.ext hd⟩

/-- A name that fills its buffer is the one of a longer second name too. -/
theorem shared_of_long (h : 99 ≤ a.bytes.length + b.bytes.length + 4) :
    ∃ d, fifoName a d = fifoName a b ∧ d ≠ b := by
  have hzero : 0 ∉ b.bytes ++ [120] := by
    simp [b.notMem_zero]
  refine ⟨⟨b.bytes ++ [120], hzero⟩, fifoName_append [120] rfl h, fun hsame => ?_⟩
  have hlen := congrArg (fun d : Name => d.bytes.length) hsame
  simp at hlen

/-- What the names of the FIFOs say about the two users. -/
theorem fifo_names :
    (∀ a b, (fifos a b).fifoSend = (fifos b a).fifoRecv) ∧
    (∀ a b, (fifos a b).fifoSend = (fifos a b).fifoRecv ↔
      ∃ n, (fifos a b).fifoRecv <+: (List.replicate n (a.bytes ++ separator)).flatten) ∧
    ∀ a b, (∀ c d, fifoName c d = fifoName a b → c = a ∧ d = b) ↔
      a.bytes.length + b.bytes.length + 4 < 99 ∧
        ¬ separator <:+: a.bytes ++ ascii "_to" ∧ ¬ separator <:+: ascii "to_" ++ b.bytes := by
  refine ⟨fun a b => rfl, fun a b => fifoName_comm_iff, fun a b => ?_⟩
  by_cases hshort : a.bytes.length + b.bytes.length + 4 < 99
  · rw [and_iff_right hshort, unshared_of_short hshort]
    rfl
  · refine iff_of_false (fun h => ?_) (fun h => hshort h.1)
    obtain ⟨d, hname, hd⟩ := shared_of_long (Nat.not_lt.1 hshort)
    exact hd (h a d hname).2

end Shared

/-- `x` and `x_to_x` send and receive over one FIFO, and `a_to_b` and `c` share one
with `a` and `b_to_c`. -/
theorem fifos_shared :
    (¬ ∀ a b, a ≠ b → (fifos a b).fifoSend ≠ (fifos a b).fifoRecv) ∧
      ¬ ∀ a b c d, fifoName a b = fifoName c d → a = c ∧ b = d := by
  constructor
  · intro h
    exact h ⟨ascii "x", by decide⟩ ⟨ascii "x_to_x", by decide⟩ (by decide) (by decide)
  · intro h
    have hsame := h ⟨ascii "a_to_b", by decide⟩ ⟨ascii "c", by decide⟩ ⟨ascii "a", by decide⟩
      ⟨ascii "b_to_c", by decide⟩ (by decide)
    exact absurd hsame.1 (by decide)

end AcademyLab.Fifo.Names
