import AcademyLab.CString
import Mathlib.Logic.Function.Basic

/-!
# The LED and button driver

The file operations of `led_device.c`. The levels of the GPIO lines are a
function of the line's number; the LED lines are outputs, so `gpio_get_value`
gives what was set last, and the button's line has the level of the button.
Memory of the caller is a partial function of the distance from `buf`, undefined
where nothing is mapped.
-/
namespace AcademyLab.Led
open CString

/-! ## The board -/

/-- The pins that the driver is built for; none is used twice. -/
structure Board where
  ledPins : List ℕ
  btnPin : ℕ
  nodup : (btnPin :: ledPins).Nodup

/-- `GPIO_BASE` -/
def gpioBase : ℕ := 512

/-- `NUM_LEDS` -/
def Board.numLeds (b : Board) : ℕ := b.ledPins.length

/-- The lines `led_gpio(0)` to `led_gpio(NUM_LEDS - 1)`. -/
def Board.ledGpios (b : Board) : List ℕ := b.ledPins.map (gpioBase + ·)

/-- `btn_gpio()` -/
def Board.btnGpio (b : Board) : ℕ := gpioBase + b.btnPin

theorem pins_nodup : [26, 5, 6, 13, 19].Nodup := by decide

/-- The board of `led_device.c`. -/
def board : Board := ⟨[5, 6, 13, 19], 26, pins_nodup⟩

theorem Board.ledGpios_nodup (b : Board) : b.ledGpios.Nodup :=
  (List.nodup_cons.1 b.nodup).2.map (add_right_injective gpioBase)

theorem Board.btnGpio_notMem (b : Board) : b.btnGpio ∉ b.ledGpios := by
  intro h
  obtain ⟨pin, hpin, heq⟩ := List.mem_map.1 h
  have hsame : pin = b.btnPin := add_right_injective gpioBase heq
  exact (List.nodup_cons.1 b.nodup).1 (hsame ▸ hpin)

@[simp] theorem Board.length_ledGpios (b : Board) : b.ledGpios.length = b.numLeds :=
  List.length_map _

/-! ## Calls on the kernel -/

def EFAULT : ℤ := 14
def EINVAL : ℤ := 22

/-- The level of each line. -/
abbrev Levels := ℕ → Bool

/-- `gpio_set_value` -/
def gpioSetValue (lv : Levels) (gpio : ℕ) (value : Bool) : Levels :=
  Function.update lv gpio value

/-- The memory that a caller passes, from `buf` on. -/
abbrev UserMemory := ℕ → Option UInt8

/-- The mapped memory that starts with `bytes`. -/
def userMemory (bytes : Bytes) : UserMemory := fun k => bytes[k]?

/-- `copy_from_user` of `n` bytes; `none` if a part of them is not mapped. -/
def copyFromUser (buf : UserMemory) : ℕ → Option Bytes
  | 0 => some []
  | n + 1 => do
    let c ← buf 0
    let cs ← copyFromUser (fun k => buf (k + 1)) n
    return c :: cs

/-- What a call of `read` returns, puts into the caller's memory, and makes of
the file's offset. -/
structure ReadResult where
  ret : ℤ
  data : Bytes
  off : ℕ
  deriving DecidableEq

/-- `simple_read_from_buffer`, with a memory of the caller that can be written. -/
def simpleReadFromBuffer (len off : ℕ) (src : Bytes) : ReadResult :=
  let data := (src.drop off).take len
  ⟨data.length, data, off + data.length⟩

/-! ## The file operations -/

/-- A level as the two devices write it. -/
def levelChar (value : Bool) : UInt8 := if value then 49 else 48

/-- The text `s` of `led_read`. -/
def ledText (b : Board) (lv : Levels) : Bytes :=
  b.ledGpios.map (fun gpio => levelChar (lv gpio)) ++ [10, 0]

def ledRead (b : Board) (lv : Levels) (len off : ℕ) : ReadResult :=
  simpleReadFromBuffer len off (ledText b lv)

/-- The loop of `led_write` over the LEDs that are left, with the characters
for them. A wrong character ends it where it is. -/
def ledLoop : List ℕ → Bytes → ℤ → Levels → ℤ × Levels
  | gpio :: gpios, c :: kbuf, len, lv =>
    if c = 49 then ledLoop gpios kbuf len (gpioSetValue lv gpio true)
    else if c = 48 then ledLoop gpios kbuf len (gpioSetValue lv gpio false)
    else (-EINVAL, lv)
  | _, _, len, lv => (len, lv)

def ledWrite (b : Board) (buf : UserMemory) (len : ℕ) (lv : Levels) : ℤ × Levels :=
  match copyFromUser buf b.numLeds with
  | none => (-EFAULT, lv)
  | some kbuf => ledLoop b.ledGpios kbuf len lv

def btnRead (b : Board) (lv : Levels) (len off : ℕ) : ReadResult :=
  if len = 0 then ⟨0, [], off⟩
  else simpleReadFromBuffer len 0 [levelChar (lv b.btnGpio), 10, 0]

/-! ## What they do -/

/-- The levels of the LEDs, in the order of the pins. -/
def Board.leds (b : Board) (lv : Levels) : List Bool := b.ledGpios.map lv

section Pattern
variable {gpio : ℕ} {gpios : List ℕ} {kbuf : Bytes} {len : ℤ} {lv : Levels}

/-- The loop leaves the other lines alone. -/
theorem ledLoop_of_notMem (h : gpio ∉ gpios) : (ledLoop gpios kbuf len lv).2 gpio = lv gpio := by
  induction gpios, kbuf, len, lv using ledLoop.induct with
  | case1 len lv g gpios kbuf ih =>
    rw [List.mem_cons, not_or] at h
    rw [ledLoop, if_pos rfl, ih h.2, gpioSetValue, Function.update_of_ne h.1]
  | case2 len lv g gpios kbuf hc ih =>
    rw [List.mem_cons, not_or] at h
    rw [ledLoop, if_neg hc, if_pos rfl, ih h.2, gpioSetValue, Function.update_of_ne h.1]
  | case3 len lv g gpios c kbuf hc hc' => rw [ledLoop, if_neg hc, if_neg hc']
  | case4 => rw [ledLoop]; assumption

theorem ledLoop_cons (value : Bool) :
    ledLoop (gpio :: gpios) (levelChar value :: kbuf) len lv =
      ledLoop gpios kbuf len (gpioSetValue lv gpio value) := by
  cases value <;> rfl

/-- A pattern of levels is accepted. -/
theorem ledLoop_pattern_ret {pattern : List Bool} :
    (ledLoop gpios (pattern.map levelChar) len lv).1 = len := by
  induction gpios generalizing pattern lv with
  | nil => cases pattern <;> rfl
  | cons gpio gpios ih =>
    cases pattern with
    | nil => rfl
    | cons value pattern => rw [List.map_cons, ledLoop_cons, ih]

/-- A pattern of levels is what the lines have afterwards. -/
theorem ledLoop_pattern_levels {pattern : List Bool} (hnodup : gpios.Nodup)
    (hlen : pattern.length = gpios.length) :
    gpios.map (ledLoop gpios (pattern.map levelChar) len lv).2 = pattern := by
  induction gpios generalizing pattern lv with
  | nil => exact (List.eq_nil_of_length_eq_zero hlen).symm
  | cons gpio gpios ih =>
    obtain ⟨value, pattern, rfl⟩ := List.exists_cons_of_length_eq_add_one hlen
    obtain ⟨hmem, hnodup⟩ := List.nodup_cons.1 hnodup
    rw [List.map_cons, List.map_cons, ledLoop_cons, ih hnodup (by simpa using hlen),
      ledLoop_of_notMem hmem, gpioSetValue, Function.update_self]

theorem copyFromUser_userMemory {bytes : Bytes} {n : ℕ} (h : n ≤ bytes.length) :
    copyFromUser (userMemory bytes) n = some (bytes.take n) := by
  induction n generalizing bytes with
  | zero => rfl
  | succ n ih =>
    obtain ⟨c, cs, rfl⟩ := List.exists_cons_of_length_pos (show 0 < bytes.length by omega)
    have hrest : (fun k => userMemory (c :: cs) (k + 1)) = userMemory cs := by
      funext k
      simp [userMemory]
    rw [copyFromUser, hrest, ih (by simpa using h)]
    rfl

/-- A call of `led_write` with a whole pattern. -/
theorem ledWrite_pattern (b : Board) {pattern : List Bool} (rest : Bytes) (len : ℕ) (lv : Levels)
    (hlen : pattern.length = b.numLeds) :
    (ledWrite b (userMemory (pattern.map levelChar ++ rest)) len lv).1 = len ∧
      b.leds (ledWrite b (userMemory (pattern.map levelChar ++ rest)) len lv).2 = pattern := by
  have hcopy : copyFromUser (userMemory (pattern.map levelChar ++ rest)) b.numLeds =
      some (pattern.map levelChar) := by
    rw [copyFromUser_userMemory (by simp [hlen])]
    simp [← hlen]
  simp only [ledWrite, hcopy]
  exact ⟨ledLoop_pattern_ret, ledLoop_pattern_levels b.ledGpios_nodup (by simp [hlen])⟩

end Pattern

end AcademyLab.Led
