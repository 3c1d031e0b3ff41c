import AcademyLab.Cells
import AcademyLab.Led.Driver

/-!
# Concurrent calls on the LED device

Any number of calls of `led_read` and `led_write`, with nothing between them
that orders them: `led_fops` takes no lock. A step is one `gpio_get_value` or
one `gpio_set_value` of one call. The LEDs are the cells that the calls share.
-/
namespace AcademyLab.Led
open CString Machine

/-- A valid pattern to be written: a `0` or a `1` for each LED. -/
structure Pattern (b : Board) where
  chars : Bytes
  length_eq : chars.length = b.numLeds
  valid : ∀ c ∈ chars, c = 48 ∨ c = 49

inductive Call (b : Board)
  | read
  | write (pattern : Pattern b)

def Call.isWrite {b : Board} : Call b → Bool
  | .read => false
  | .write _ => true

/-- The lines, the `i` of each call's loop, and the `s` of each `led_read` up to
there. -/
structure Sharing (ι : Type*) where
  lv : Levels
  i : ι → ℕ
  s : ι → Bytes

section Step
variable {ι : Type*} [DecidableEq ι] (b : Board) (calls : ι → Call b)

def Sharing.start (lv : Levels) : Sharing ι := ⟨lv, fun _ => 0, fun _ => []⟩

/-- The body of the loop of `led_write`; a character of a pattern is one of the
two. -/
def setLed (gpio : ℕ) (c : UInt8) (lv : Levels) : Levels :=
  if c = 49 then gpioSetValue lv gpio true
  else if c = 48 then gpioSetValue lv gpio false
  else lv

/-- One turn of the loop of a call that is not over. -/
def Sharing.step (t : Sharing ι) (c : ι) : Sharing ι × List Unit :=
  if h : t.i c < b.ledGpios.length then
    let gpio := b.ledGpios[t.i c]
    let i := Function.update t.i c (t.i c + 1)
    match calls c with
    | .read => (⟨t.lv, i, Function.update t.s c (t.s c ++ [levelChar (t.lv gpio)])⟩, [])
    | .write pattern => (⟨setLed gpio (pattern.chars.getD (t.i c) 0) t.lv, i, t.s⟩, [])
  else (t, [])

/-- The characters of the LEDs. -/
def ledChars (lv : Levels) : Bytes := b.ledGpios.map fun gpio => levelChar (lv gpio)

/-- The call has gone through all LEDs. -/
def Sharing.Over (t : Sharing ι) (c : ι) : Prop := b.numLeds ≤ t.i c

instance (t : Sharing ι) (c : ι) : Decidable (t.Over b c) := inferInstanceAs (Decidable (_ ≤ _))

/-- The call is among its turns. -/
def Sharing.Among (t : Sharing ι) (c : ι) : Prop := 0 < t.i c ∧ t.i c < b.numLeds

instance (t : Sharing ι) (c : ι) : Decidable (t.Among b c) := inferInstanceAs (Decidable (_ ∧ _))

/-- No two calls of `led_write` overlap: the turn is none of one while another is among
its turns. -/
def Sharing.WritesApart (t : Sharing ι) (c : ι) : Prop :=
  (calls c).isWrite → ∀ d ≠ c, (calls d).isWrite → ¬ t.Among b d

/-- No `led_write` overlaps the `led_read` `r`. -/
def Sharing.Undisturbed (r : ι) (t : Sharing ι) (c : ι) : Prop :=
  (c = r → ∀ w, (calls w).isWrite → ¬ t.Among b w) ∧ ((calls c).isWrite → ¬ t.Among b r)

instance [Fintype ι] (t : Sharing ι) (c : ι) : Decidable (t.WritesApart b calls c) :=
  inferInstanceAs (Decidable (_ → ∀ d ≠ c, _ → _))

instance [Fintype ι] (r : ι) (t : Sharing ι) (c : ι) : Decidable (t.Undisturbed b calls r c) :=
  inferInstanceAs (Decidable ((_ → ∀ _, _ → _) ∧ _))

/-- The pattern is written by some call. -/
def IsWritten (chars : Bytes) : Prop :=
  ∃ w pattern, calls w = .write pattern ∧ pattern.chars = chars

/-- A `led_read` that is over has returned a pattern as a whole. -/
def ReadsWhole (lv : Levels) (t : Sharing ι) (c : ι) : Prop :=
  t.Over b c → t.s c = ledChars b lv ∨ IsWritten b calls (t.s c)

/-- In the end the LEDs show a pattern as a whole. -/
def ShowsWhole (t : Sharing ι) : Prop :=
  (∀ c, t.Over b c) → (∃ chars, IsWritten b calls chars) → IsWritten b calls (ledChars b t.lv)

/-- What holds of each LED by itself. -/
structure AtomicEach (lv : Levels) (t : Sharing ι) : Prop where
  length : ∀ c, calls c = .read → t.Over b c → (t.s c).length = b.numLeds
  read : ∀ c, calls c = .read → ∀ (i : ℕ) (x : UInt8), (t.s c)[i]? = some x →
    (ledChars b lv)[i]? = some x ∨ ∃ chars : Bytes, IsWritten b calls chars ∧ chars[i]? = some x
  final : (∀ c, t.Over b c) → (∃ chars, IsWritten b calls chars) →
    ∀ (i : ℕ) (x : UInt8), (ledChars b t.lv)[i]? = some x →
      ∃ chars : Bytes, IsWritten b calls chars ∧ chars[i]? = some x

end Step

/-! ## One turn -/

section Turn
variable {ι : Type*} [DecidableEq ι] {b : Board} {calls : ι → Call b} {c : ι} {t : Sharing ι}
  {pattern : Pattern b}

theorem turn_over (h : t.Over b c) : (t.step b calls c).1 = t := by
  rw [Sharing.step, dif_neg]
  simpa [Sharing.Over] using h

theorem turn_read (hc : calls c = .read) (h : t.i c < b.ledGpios.length) :
    (t.step b calls c).1 = ⟨t.lv, Function.update t.i c (t.i c + 1),
      Function.update t.s c (t.s c ++ [levelChar (t.lv b.ledGpios[t.i c])])⟩ := by
  rw [Sharing.step, dif_pos h]
  simp only [hc]

theorem turn_write (hc : calls c = .write pattern) (h : t.i c < b.ledGpios.length)
    (h' : t.i c < pattern.chars.length) :
    (t.step b calls c).1 = ⟨setLed b.ledGpios[t.i c] pattern.chars[t.i c] t.lv,
      Function.update t.i c (t.i c + 1), t.s⟩ := by
  rw [Sharing.step, dif_pos h]
  simp only [hc, List.getD_eq_getElem?_getD, List.getElem?_eq_getElem h', Option.getD_some]

end Turn

/-! ## One call by itself -/

section Alone
variable {ι : Type*} [DecidableEq ι] {b : Board} {calls : ι → Call b} {c : ι}

theorem ledLoop_valid {gpio : ℕ} {gpios : List ℕ} {x : UInt8} {kbuf : Bytes} {len : ℤ} {lv : Levels}
    (hx : x = 48 ∨ x = 49) :
    ledLoop (gpio :: gpios) (x :: kbuf) len lv = ledLoop gpios kbuf len (setLed gpio x lv) := by
  rcases hx with rfl | rfl <;> rfl

/-- The turns of a `led_write` that are left are the rest of the driver's loop. -/
theorem turns_write {pattern : Pattern b} (hc : calls c = .write pattern) (len : ℤ) (k : ℕ)
    (t : Sharing ι) (hk : t.i c + k = b.numLeds) :
    (exec (Sharing.step b calls) t (List.replicate k c)).lv =
      (ledLoop (b.ledGpios.drop (t.i c)) (pattern.chars.drop (t.i c)) len t.lv).2 := by
  induction k generalizing t with
  | zero =>
    rw [List.drop_eq_nil_of_le (by simp [← hk])]
    rfl
  | succ k ih =>
    have hi : t.i c < b.ledGpios.length := by
      rw [b.length_ledGpios]
      omega
    have hi' : t.i c < pattern.chars.length := by
      rw [pattern.length_eq]
      omega
    rw [List.replicate_succ, exec_cons, turn_write hc hi hi', ih _ (by simp; omega),
      List.drop_eq_getElem_cons hi, List.drop_eq_getElem_cons hi',
      ledLoop_valid (pattern.valid _ (List.getElem_mem hi'))]
    simp

/-- The turns of a `led_read` that are left read the rest of the text. -/
theorem turns_read (hc : calls c = .read) (k : ℕ) (t : Sharing ι) (hk : t.i c + k = b.numLeds) :
    (exec (Sharing.step b calls) t (List.replicate k c)).s c =
      t.s c ++ (ledChars b t.lv).drop (t.i c) := by
  induction k generalizing t with
  | zero =>
    rw [List.drop_eq_nil_of_le (by simp [ledChars, ← hk])]
    simp
  | succ k ih =>
    have hi : t.i c < b.ledGpios.length := by
      rw [b.length_ledGpios]
      omega
    have hi' : t.i c < (ledChars b t.lv).length := by simpa [ledChars] using hi
    rw [List.replicate_succ, exec_cons, turn_read hc hi, ih _ (by simp; omega),
      List.drop_eq_getElem_cons hi']
    simp [ledChars]

/-- A `led_write` that nothing interrupts is the driver's. -/
theorem write_alone {pattern : Pattern b} (hc : calls c = .write pattern) (lv : Levels) (len : ℕ) :
    (exec (Sharing.step b calls) (.start lv) (List.replicate b.numLeds c)).lv =
      (ledWrite b (userMemory pattern.chars) len lv).2 := by
  have hcopy : copyFromUser (userMemory pattern.chars) b.numLeds = some pattern.chars := by
    rw [copyFromUser_userMemory pattern.length_eq.ge, ← pattern.length_eq, List.take_length]
  rw [turns_write hc len b.numLeds (.start lv) (Nat.zero_add _)]
  simp [ledWrite, hcopy, Sharing.start]

/-- A `led_read` that nothing interrupts is the driver's. -/
theorem read_alone (hc : calls c = .read) (lv : Levels) :
    (ledRead b lv (b.numLeds + 2) 0).data =
      (exec (Sharing.step b calls) (.start lv) (List.replicate b.numLeds c)).s c ++ [10, 0] := by
  have hlen : (ledText b lv).length ≤ b.numLeds + 2 := by simp [ledText]
  rw [turns_read hc b.numLeds (.start lv) (Nat.zero_add _), ledRead, simpleReadFromBuffer,
    List.drop_zero, List.take_of_length_le hlen]
  rfl

end Alone

/-! ## The LEDs as cells -/

section Image
variable {ι : Type*} {b : Board} {calls : ι → Call b}

/-- The calls on the LEDs as calls on cells. -/
def Call.op {b : Board} : Call b → Cells.Op UInt8
  | .read => .read
  | .write pattern => .write pattern.chars

def ops (calls : ι → Call b) (c : ι) : Cells.Op UInt8 := (calls c).op

/-- The state of the LEDs as one of cells. -/
def Sharing.cells (b : Board) (t : Sharing ι) : Cells.State ι UInt8 := ⟨ledChars b t.lv, t.i, t.s⟩

theorem length_ledChars (b : Board) (lv : Levels) : (ledChars b lv).length = b.numLeds := by
  simp [ledChars]

theorem ledChars_setLed {i : ℕ} (hi : i < b.ledGpios.length) {x : UInt8} (hx : x = 48 ∨ x = 49)
    (lv : Levels) : ledChars b (setLed b.ledGpios[i] x lv) = (ledChars b lv).set i x := by
  refine List.ext_getElem (by simp [ledChars]) fun j hj hj' => ?_
  have hset : ∀ gpio, levelChar (setLed b.ledGpios[i] x lv gpio) =
      if gpio = b.ledGpios[i] then x else levelChar (lv gpio) := by
    intro gpio
    by_cases hg : gpio = b.ledGpios[i]
    · rcases hx with rfl | rfl <;> simp [setLed, gpioSetValue, levelChar, hg]
    · rcases hx with rfl | rfl <;> simp [setLed, gpioSetValue, hg]
  have hjlen : j < b.ledGpios.length := by simpa [ledChars] using hj
  have hinj : b.ledGpios[j] = b.ledGpios[i] ↔ j = i := b.ledGpios_nodup.getElem_inj_iff
  simp only [ledChars, List.getElem_map, hset, hinj, List.getElem_set]
  by_cases hji : j = i
  · simp [hji]
  · simp [hji, Ne.symm hji]

/-- Every pattern has the length of the row. -/
theorem ops_length (calls : ι → Call b) (w : ι) (row : Bytes) (h : ops calls w = .write row) :
    row.length = b.numLeds := by
  unfold ops at h
  cases hw : calls w with
  | read => simp [hw, Call.op] at h
  | write pattern =>
    rw [hw] at h
    rw [← Cells.Op.write.inj h, pattern.length_eq]

theorem ops_read {c : ι} : ops calls c = .read ↔ calls c = .read := by
  unfold ops
  cases h : calls c <;> simp [Call.op]

theorem written_iff {row : Bytes} : Cells.Written (ops calls) row ↔ IsWritten b calls row := by
  constructor
  · rintro ⟨w, hw⟩
    unfold ops at hw
    cases hcall : calls w with
    | read => simp [hcall, Call.op] at hw
    | write pattern =>
      rw [hcall] at hw
      exact ⟨w, pattern, hcall, Cells.Op.write.inj hw⟩
  · rintro ⟨w, pattern, hw, rfl⟩
    exact ⟨w, by simp [ops, hw, Call.op]⟩

theorem supplied_iff {lv : Levels} {i : ℕ} {x : UInt8} :
    Cells.Supplied (ops calls) (ledChars b lv) i x ↔ (ledChars b lv)[i]? = some x ∨
      ∃ chars : Bytes, IsWritten b calls chars ∧ chars[i]? = some x := by
  simp only [Cells.Supplied, written_iff]

theorem ops_isWrite (c : ι) : (ops calls c).isWrite = (calls c).isWrite := by
  unfold ops
  cases calls c <;> rfl

theorem writesApart_iff {t : Sharing ι} {c : ι} : t.WritesApart b calls c ↔
    Cells.WritesApart b.numLeds (ops calls) (t.cells b) c := by
  simp only [Sharing.WritesApart, Cells.WritesApart, ops_isWrite]
  rfl

theorem undisturbed_iff {r : ι} {t : Sharing ι} {c : ι} : t.Undisturbed b calls r c ↔
    Cells.Undisturbed b.numLeds (ops calls) r (t.cells b) c := by
  simp only [Sharing.Undisturbed, Cells.Undisturbed, ops_isWrite]
  rfl

variable [DecidableEq ι]

/-- A turn of a call is a step over the cells. -/
theorem cells_step (t : Sharing ι) (c : ι) :
    (t.step b calls c).1.cells b = (Cells.step b.numLeds (ops calls) (t.cells b) c).1 := by
  by_cases hlt : t.i c < b.numLeds
  · have hi : t.i c < b.ledGpios.length := by simpa using hlt
    cases hc : calls c with
    | read =>
      rw [turn_read hc hi, Cells.step_read (ops_read.2 hc) hlt (length_ledChars b t.lv)]
      simp [Sharing.cells, ledChars]
    | write pattern =>
      have hop : ops calls c = .write pattern.chars := by simp [ops, hc, Call.op]
      have hi' : t.i c < pattern.chars.length := by
        rw [pattern.length_eq]
        exact hlt
      rw [turn_write hc hi hi', Cells.step_write hop hlt pattern.length_eq]
      simp [Sharing.cells, ledChars_setLed hi (pattern.valid _ (List.getElem_mem hi'))]
  · rw [turn_over (Nat.not_lt.1 hlt), Cells.step_finished (Nat.not_lt.1 hlt)]

theorem cells_exec (lv : Levels) (schedule : List ι) :
    (exec (Sharing.step b calls) (.start lv) schedule).cells b =
      exec (Cells.step b.numLeds (ops calls)) (.start (ledChars b lv)) schedule :=
  exec_image cells_step _ schedule

/-- A condition on the steps over the cells is one on the turns of the calls. -/
theorem along_cells {P : Sharing ι → ι → Prop} {Q : Cells.State ι UInt8 → ι → Prop}
    (h : ∀ t c, P t c ↔ Q (t.cells b) c) (lv : Levels) (schedule : List ι) :
    Along (Sharing.step b calls) P (.start lv) schedule ↔
      Along (Cells.step b.numLeds (ops calls)) Q (.start (ledChars b lv)) schedule := by
  refine Iff.trans ?_ (along_image cells_step (.start lv) schedule)
  have hiff : ∀ (t : Sharing ι) (c : ι), True → (P t c ↔ Q (t.cells b) c) := fun t c _ => h t c
  exact along_iff hiff (fun _ _ _ _ => trivial) trivial schedule

end Image

section Run
variable {ι : Type*} [DecidableEq ι] (b : Board) (calls : ι → Call b) (lv : Levels)
  (schedule : List ι)

theorem atomicEach_run :
    AtomicEach b calls lv (exec (Sharing.step b calls) (.start lv) schedule) := by
  have hreg := Cells.regular_run (ops_length calls) (length_ledChars b lv) schedule
  rw [← cells_exec] at hreg
  refine ⟨fun c hc hover => ?_, fun c hc i x hx => ?_, fun hover hw i x hx => ?_⟩
  · have hle := hreg.bound c
    rw [← le_antisymm hle hover]
    exact hreg.gotLength c (ops_read.2 hc)
  · exact supplied_iff.1 (hreg.got c (ops_read.2 hc) i x hx)
  · obtain ⟨chars, w, pattern, hw, -⟩ := hw
    have hi : i < b.numLeds := by
      rw [← length_ledChars b]
      exact (List.getElem?_eq_some_iff.1 hx).1
    obtain ⟨row, hrow, hget⟩ := hreg.written w pattern.chars (by simp [ops, hw, Call.op]) i x
      (lt_of_lt_of_le hi (hover w)) hx
    exact ⟨row, written_iff.1 hrow, hget⟩

variable {b calls lv schedule}

theorem showsWhole_run
    (h : Along (Sharing.step b calls) (Sharing.WritesApart b calls) (.start lv) schedule) :
    ShowsWhole b calls (exec (Sharing.step b calls) (.start lv) schedule) := by
  have hreg := Cells.regular_run (ops_length calls) (length_ledChars b lv) schedule
  have hord := Cells.ordered_run (ops_length calls) (length_ledChars b lv) schedule
    ((along_cells (fun _ _ => writesApart_iff) lv schedule).1 h)
  rw [← cells_exec] at hreg hord
  intro hover ⟨chars, hchars⟩
  exact written_iff.1 (hord.final (ops_length calls) hreg hover ⟨chars, written_iff.2 hchars⟩)

theorem readsWhole_run {c : ι} (hc : calls c = .read)
    (h : Along (Sharing.step b calls) (Sharing.WritesApart b calls) (.start lv) schedule)
    (hun : Along (Sharing.step b calls) (Sharing.Undisturbed b calls c) (.start lv) schedule) :
    ReadsWhole b calls lv (exec (Sharing.step b calls) (.start lv) schedule) c := by
  have hcoh := Cells.coherent_run (ops_length calls) (length_ledChars b lv) schedule
    (ops_read.2 hc) ((along_cells (fun _ _ => writesApart_iff) lv schedule).1 h)
    ((along_cells (fun _ _ => undisturbed_iff) lv schedule).1 hun)
  rw [← cells_exec] at hcoh
  exact fun hover => (hcoh.finished hover).imp_right written_iff.1

variable (b calls lv schedule)

/-- Every LED by itself sees each call as a whole, whatever the order. If no two calls of
`led_write` overlap, the LEDs show a whole pattern in the end, and a `led_read` that no
`led_write` overlaps returns one. -/
theorem led_sharing :
    AtomicEach b calls lv (exec (Sharing.step b calls) (.start lv) schedule) ∧
      (Along (Sharing.step b calls) (Sharing.WritesApart b calls) (.start lv) schedule →
        ShowsWhole b calls (exec (Sharing.step b calls) (.start lv) schedule) ∧
          ∀ c, calls c = .read →
            Along (Sharing.step b calls) (Sharing.Undisturbed b calls c) (.start lv) schedule →
              ReadsWhole b calls lv (exec (Sharing.step b calls) (.start lv) schedule) c) :=
  ⟨atomicEach_run b calls lv schedule,
    fun h => ⟨showsWhole_run h, fun _ hc hun => readsWhole_run hc h hun⟩⟩

end Run

/-- The pattern of some levels. -/
def Pattern.ofLeds (b : Board) (leds : List Bool) (h : leds.length = b.numLeds) : Pattern b where
  chars := leds.map levelChar
  length_eq := by simpa using h
  valid := by
    intro c hc
    obtain ⟨value, -, rfl⟩ := List.mem_map.1 hc
    cases value <;> simp [levelChar]

/-- A write of all on, one of all off, and a read. -/
def onOffRead : Option Bool → Call board
  | some true => .write (.ofLeds board [true, true, true, true] rfl)
  | some false => .write (.ofLeds board [false, false, false, false] rfl)
  | none => .read

/-- One write of all on, and a read. -/
def onAndRead : Bool → Call board
  | true => .write (.ofLeds board [true, true, true, true] rfl)
  | false => .read

theorem isWritten_onOffRead {chars : Bytes} (h : IsWritten board onOffRead chars) :
    chars = ascii "1111" ∨ chars = ascii "0000" := by
  obtain ⟨w, pattern, hw, rfl⟩ := h
  rcases w with _ | _ | _
  · cases hw
  · obtain rfl := Call.write.inj hw
    exact .inr rfl
  · obtain rfl := Call.write.inj hw
    exact .inl rfl

theorem isWritten_onAndRead {chars : Bytes} (h : IsWritten board onAndRead chars) :
    chars = ascii "1111" := by
  obtain ⟨w, pattern, hw, rfl⟩ := h
  cases w with
  | true =>
    obtain rfl := Call.write.inj hw
    rfl
  | false => cases hw

/-- The second write overtakes the first behind the first LED: neither pattern is left, and
a read behind both returns neither. A read overtaken by the only write there is returns the
first half of the old pattern and the second half of the new one. -/
theorem calls_mix :
    (let schedule := [some true, some false, some false, some false, some false, some true,
        some true, some true, none, none, none, none]
      let t := exec (Sharing.step board onOffRead) (.start fun _ => false) schedule
      Along (Sharing.step board onOffRead) (Sharing.Undisturbed board onOffRead none)
          (.start fun _ => false) schedule ∧
        ¬ ShowsWhole board onOffRead t ∧ ¬ ReadsWhole board onOffRead (fun _ => false) t none) ∧
    (let schedule := [false, false, true, true, true, true, false, false]
      let t := exec (Sharing.step board onAndRead) (.start fun _ => false) schedule
      Along (Sharing.step board onAndRead) (Sharing.WritesApart board onAndRead)
          (.start fun _ => false) schedule ∧
        ¬ ReadsWhole board onAndRead (fun _ => false) t false) := by
  refine ⟨⟨by decide, fun h => ?_, fun h => ?_⟩, by decide, fun h => ?_⟩
  · rcases isWritten_onOffRead (h (by decide) ⟨_, some true, _, rfl, rfl⟩) with hchars | hchars
    · exact absurd hchars (by decide)
    · exact absurd hchars (by decide)
  · rcases h (by decide) with hchars | hw
    · exact absurd hchars (by decide)
    · rcases isWritten_onOffRead hw with hchars | hchars
      · exact absurd hchars (by decide)
      · exact absurd hchars (by decide)
  · rcases h (by decide) with hchars | hw
    · exact absurd hchars (by decide)
    · exact absurd (isWritten_onAndRead hw) (by decide)

end AcademyLab.Led
