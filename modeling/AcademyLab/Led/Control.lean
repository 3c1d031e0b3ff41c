import AcademyLab.Machine
import AcademyLab.Led.Driver
import Mathlib.Algebra.Order.Ring.Int

/-!
# The LED control program on its driver

`main` of `led_control.c`. A step is one `read` of the button, for which the
button has a given level, and everything up to the next `read`. The two devices
stay open, so each `read` starts at the offset that the one before has left.
-/
namespace AcademyLab.Led
open CString Machine

/-- `instructions`, one pattern behind the other without a NUL. -/
def instructions : List Bytes := ["1000", "0100", "0010", "0001", "0010", "0100"].map ascii

/-- `ins_size` -/
def insSize : ℕ := instructions.length

/-- The next `read` is that of the outer loop or of the release loop, or there
is none. -/
inductive Pc
  | outer
  | release
  | cleanup
  deriving DecidableEq

structure Control where
  pc : Pc
  i : ℕ
  btnState : Bytes
  off : ℕ
  lv : Levels

/-- A `write` to the LEDs: the instruction, the result, and the LEDs after it. -/
structure Write where
  data : Bytes
  ret : ℤ
  leds : List Bool
  deriving DecidableEq

/-- `read(btn_fd, &btn_state, len)` at a level of the button. -/
def Control.read (s : Control) (level : Bool) (len : ℕ) : ℤ × Control :=
  let lv := Function.update s.lv board.btnGpio level
  let r := btnRead board lv len s.off
  (r.ret, { s with btnState := overwrite s.btnState r.data, off := r.off, lv := lv })

/-- `btn_state[0] == BTN_PRESSED` -/
def Control.btnPressed (s : Control) : Bool := s.btnState.head? = some 48

/-- `write(led_fd, instructions[i], 4)` -/
def Control.write (s : Control) : Control × List Write :=
  let r := ledWrite board (userMemory (instructions.drop s.i).flatten) 4 s.lv
  ({ s with lv := r.2 }, [⟨instructions.getD s.i [], r.1, board.leds r.2⟩])

def Control.step (s : Control) (level : Bool) : Control × List Write :=
  match s.pc with
  | .outer =>
    let (n, s) := s.read level 3
    if n < 0 then ({ s with pc := .cleanup }, [])
    else if s.btnPressed then
      let (s, writes) := s.write
      ({ s with i := (s.i + 1) % insSize, pc := .release }, writes)
    else (s, [])
  | .release =>
    let (n, s) := s.read level 1
    if n ≠ 1 then ({ s with pc := .cleanup }, [])
    else if s.btnPressed then (s, [])
    else ({ s with pc := .outer }, [])
  | .cleanup => (s, [])

/-- After the two `open`s; `btn_state` has not been initialised. -/
def Control.start (btnState : Bytes) (lv : Levels) : Control := ⟨.outer, 0, btnState, 0, lv⟩

/-- The presses in the levels seen, after a level `prev`: low, and high before. -/
def pressesAfter (prev : Bool) (levels : List Bool) : ℕ :=
  (levels.zip (prev :: levels)).countP fun p => !p.1 && p.2

/-- A first low level counts as a press. -/
def presses (levels : List Bool) : ℕ := pressesAfter true levels

theorem pressesAfter_cons (prev level : Bool) (levels : List Bool) :
    pressesAfter prev (level :: levels) =
      pressesAfter level levels + if !level && prev then 1 else 0 := by
  simp [pressesAfter, List.countP_cons]

/-! ## One instruction after the other -/

/-- The levels that instruction `k` asks for, counted round and round. -/
def pattern (k : ℕ) : List Bool := (instructions.getD (k % insSize) []).map (· == 49)

/-- What the write of instruction `k` is to be. -/
def writeOf (k : ℕ) : Write := ⟨instructions.getD (k % insSize) [], 4, pattern k⟩

theorem writeOf_mod (i k : ℕ) : writeOf ((i + 1) % insSize + k) = writeOf (i + (k + 1)) := by
  have h : ((i + 1) % insSize + k) % insSize = (i + (k + 1)) % insSize := by
    rw [Nat.mod_add_mod]
    congr 1
    omega
  simp only [writeOf, pattern, h]

/-- Every instruction is a whole pattern. -/
theorem instructions_take : ∀ i < insSize, (instructions.drop i).flatten.take 4 =
    (pattern i).map levelChar ∧ instructions.getD i [] = (pattern i).map levelChar ∧
      (pattern i).length = 4 ∧ (pattern i).count true = 1 := by
  decide

theorem write_eq {s : Control} (h : s.i < insSize) :
    s.write.2 = [writeOf s.i] ∧ board.leds s.write.1.lv = pattern s.i := by
  obtain ⟨htake, hget, hlen, -⟩ := instructions_take s.i h
  have hmem : (instructions.drop s.i).flatten =
      (pattern s.i).map levelChar ++ (instructions.drop s.i).flatten.drop 4 := by
    rw [← htake, List.take_append_drop]
  obtain ⟨hret, hleds⟩ :=
    ledWrite_pattern board ((instructions.drop s.i).flatten.drop 4) 4 s.lv hlen
  rw [← hmem] at hret hleds
  refine ⟨?_, hleds⟩
  simp only [Control.write, hret, hleds, writeOf, Nat.mod_eq_of_lt h]
  rfl

section Step
variable {s : Control} {prev level : Bool} {len : ℕ}

/-- A `read` of the button returns what was asked for, whatever the offset. -/
theorem read_ret (h : len = 1 ∨ len = 3) : (s.read level len).1 = len := by
  rcases h with rfl | rfl <;> rfl

theorem read_btnPressed (h : len = 1 ∨ len = 3) :
    (s.read level len).2.btnPressed = !level := by
  rcases h with rfl | rfl <;> cases level <;> simp [Control.read, Control.btnPressed, btnRead,
    simpleReadFromBuffer, overwrite, levelChar]

theorem leds_read : board.leds (s.read level len).2.lv = board.leds s.lv := by
  refine List.map_congr_left fun gpio hgpio => Function.update_of_ne ?_ _ _
  rintro rfl
  exact board.btnGpio_notMem hgpio

/-- The loop that the program is in tells the level that it has seen last. -/
structure Ready (prev : Bool) (s : Control) : Prop where
  pc : s.pc = if prev then .outer else .release
  bound : s.i < insSize

/-- A press writes the next instruction; nothing else does anything to the LEDs. -/
theorem step_spec (h : Ready prev s) (level : Bool) : Ready level (s.step level).1 ∧
    if !level && prev then
      (s.step level).2 = [writeOf s.i] ∧ (s.step level).1.i = (s.i + 1) % insSize ∧
        board.leds (s.step level).1.lv = pattern s.i
    else
      (s.step level).2 = [] ∧ (s.step level).1.i = s.i ∧
        board.leds (s.step level).1.lv = board.leds s.lv := by
  cases prev with
  | true =>
    have hpc : s.pc = .outer := h.pc
    have hpressed : (s.read level 3).2.btnPressed = !level := read_btnPressed (.inr rfl)
    have hret : ¬ (s.read level 3).1 < 0 := by
      rw [read_ret (.inr rfl)]
      decide
    simp only [Control.step, hpc, if_neg hret, hpressed]
    cases level with
    | true => exact ⟨⟨hpc, h.bound⟩, rfl, rfl, leds_read⟩
    | false =>
      obtain ⟨hwrite, hleds⟩ := write_eq (s := (s.read false 3).2) h.bound
      exact ⟨⟨rfl, Nat.mod_lt _ (by decide)⟩, hwrite, rfl, hleds⟩
  | false =>
    have hpc : s.pc = .release := h.pc
    have hpressed : (s.read level 1).2.btnPressed = !level := read_btnPressed (.inl rfl)
    have hret : ¬ (s.read level 1).1 ≠ 1 := by
      rw [read_ret (.inl rfl)]
      decide
    simp only [Control.step, hpc, if_neg hret, hpressed]
    cases level with
    | true => exact ⟨⟨rfl, h.bound⟩, rfl, rfl, @leds_read s true 1⟩
    | false => exact ⟨⟨hpc, h.bound⟩, rfl, rfl, leds_read⟩

/-- A run writes the instructions in turn, one for each press, and the LEDs show
the last of them. -/
theorem run_spec (h : Ready prev s) (levels : List Bool) :
    (exec Control.step s levels).pc ≠ .cleanup ∧
      trace Control.step s levels =
        (List.range (pressesAfter prev levels)).map (fun k => writeOf (s.i + k)) ∧
      board.leds (exec Control.step s levels).lv =
        (trace Control.step s levels).getLast?.elim (board.leds s.lv) Write.leds := by
  induction levels generalizing s prev with
  | nil =>
    refine ⟨?_, rfl, rfl⟩
    rw [exec_nil, h.pc]
    cases prev <;> decide
  | cons level levels ih =>
    obtain ⟨hready, hstep⟩ := step_spec h level
    obtain ⟨hpc, htrace, hleds⟩ := ih hready
    rw [exec_cons, trace_cons, pressesAfter_cons]
    split_ifs at hstep ⊢ with hpress
    · obtain ⟨hwrites, hi, hshown⟩ := hstep
      refine ⟨hpc, ?_, ?_⟩
      · rw [hwrites, htrace, hi, List.range_succ_eq_map]
        simp [writeOf_mod]
      · rw [hleds, hwrites, hshown, List.getLast?_append]
        cases (trace Control.step (s.step level).1 levels).getLast? <;> rfl
    · obtain ⟨hwrites, hi, hshown⟩ := hstep
      refine ⟨hpc, ?_, ?_⟩
      · rw [hwrites, htrace, hi]
        rfl
      · rw [hleds, hwrites, hshown]
        rfl

end Step

/-- What the program has done after the `levels` seen. -/
structure Advances (levels : List Bool) (s : Control) (writes : List Write) : Prop where
  running : s.pc ≠ .cleanup
  count : writes.length = presses levels
  data : ∀ k, (h : k < writes.length) → writes[k].data = instructions.getD (k % insSize) []
  accepted : ∀ w ∈ writes, w.ret = 4
  shown : ∀ w ∈ writes, w.leds.map levelChar = w.data ∧ w.leds.count true = 1
  latest : ∀ w ∈ writes.getLast?, board.leds s.lv = w.leds

/-- One instruction for each press, whatever the levels, what `btn_state` holds
at first, and the lines at first. -/
theorem one_instruction_per_press (btnState : Bytes) (lv : Levels) (levels : List Bool) :
    Advances levels (exec Control.step (.start btnState lv) levels)
      (trace Control.step (.start btnState lv) levels) := by
  have hready : Ready true (.start btnState lv) := ⟨rfl, Nat.zero_lt_succ 5⟩
  obtain ⟨hpc, hrun, hleds⟩ := run_spec hready levels
  have htrace : trace Control.step (.start btnState lv) levels =
      (List.range (presses levels)).map writeOf := by
    rw [hrun]
    exact List.map_congr_left fun k _ => congrArg writeOf (Nat.zero_add k)
  have hof : ∀ w ∈ trace Control.step (.start btnState lv) levels,
      ∃ k < insSize, w = writeOf k := by
    rw [htrace]
    simp only [List.mem_map]
    rintro w ⟨k, -, rfl⟩
    refine ⟨k % insSize, Nat.mod_lt k (Nat.zero_lt_succ 5), ?_⟩
    simp only [writeOf, pattern, Nat.mod_mod]
  refine ⟨hpc, ?_, ?_, ?_, ?_, ?_⟩
  · rw [htrace, List.length_map, List.length_range]
  · intro k hk
    rw [List.getElem_of_eq htrace hk, List.getElem_map, List.getElem_range]
    rfl
  · intro w hw
    obtain ⟨k, -, rfl⟩ := hof w hw
    rfl
  · intro w hw
    obtain ⟨k, hk, rfl⟩ := hof w hw
    obtain ⟨-, hdata, -, hcount⟩ := instructions_take k hk
    refine ⟨?_, hcount⟩
    rw [writeOf, Nat.mod_eq_of_lt hk, hdata]
  · intro w hw
    rw [hleds, Option.mem_def.1 hw]
    rfl

end AcademyLab.Led
