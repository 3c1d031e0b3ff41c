import AcademyLab.Asm
import AcademyLab.CInt

/-!
# The routines of `lab_6.c` and their assembly

`add`, `myfunc` and `main` of `lab_6.c`, as the arithmetic on `long` that C gives
them, and the instructions of `lab_6.s`, comment by comment.
-/
namespace AcademyLab.Calls
open Asm CInt

/-! ## `lab_6.c` -/

def add (a b : ℤ) : Option ℤ := long (a + b)

def myfunc (a b c d e f g h : ℤ) : Option ℤ := do
  let s ← long (a + b)
  let s ← long (s + c)
  let s ← long (s + d)
  let s ← long (s + e)
  let s ← long (s + f)
  let s ← long (s + g)
  let xx ← long (s + h)
  let yy ← add xx 10
  long (yy + 20)

/-- The `result` that `main` returns. -/
def main : Option ℤ := myfunc 1 2 3 4 5 6 7 8

/-! ## `lab_6.s` -/

inductive Label
  | add | myfunc | main
  deriving DecidableEq

def addPrologue : List Op := [.pushq (.reg .rbp), .movq .rsp .rbp]

/-- Save the register-passed arguments to the stack. -/
def addSave : List Op := [.movqTo .rdi (-8) .rbp, .movqTo .rsi (-16) .rbp]

def addPerform : List Op :=
  [.movqFrom (-8) .rbp .rdx, .movqFrom (-16) .rbp .rax, .addq (.reg .rdx) .rax]

def addOps : List Op := addPrologue ++ addSave ++ addPerform ++ [.popq .rbp]

def addText : List (Instr Label) := addOps.map .op ++ [.ret]

def myfuncPrologue : List Op := [.pushq (.reg .rbp), .movq .rsp .rbp, .subq (.imm 64) .rsp]

def myfuncSave : List Op :=
  [.movqTo .rdi (-24) .rbp, .movqTo .rsi (-32) .rbp, .movqTo .rdx (-40) .rbp,
    .movqTo .rcx (-48) .rbp, .movqTo .r8 (-56) .rbp, .movqTo .r9 (-64) .rbp]

/-- `g` and `h` are above the frame: the caller has pushed them. -/
def myfuncPerform : List Op :=
  [.movqFrom (-24) .rbp .rdx, .movqFrom (-32) .rbp .rax, .addq (.reg .rax) .rdx,
    .movqFrom (-40) .rbp .rax, .addq (.reg .rax) .rdx,
    .movqFrom (-48) .rbp .rax, .addq (.reg .rax) .rdx,
    .movqFrom (-56) .rbp .rax, .addq (.reg .rax) .rdx,
    .movqFrom (-64) .rbp .rax, .addq (.reg .rax) .rdx,
    .movqFrom 16 .rbp .rax, .addq (.reg .rax) .rdx,
    .movqFrom 24 .rbp .rax, .addq (.reg .rdx) .rax]

/-- Store the result in the local variable `xx` and pass it to `add`. -/
def myfuncPass : List Op :=
  [.movqTo .rax (-16) .rbp, .movqFrom (-16) .rbp .rax, .movl 10 .rsi, .movq .rax .rdi]

def myfuncBefore : List Op := myfuncPrologue ++ myfuncSave ++ myfuncPerform ++ myfuncPass

/-- Store the result of `add` in the local variable `yy`, add 20 and leave. -/
def myfuncAfter : List Op :=
  [.movqTo .rax (-8) .rbp, .movqFrom (-8) .rbp .rax, .addq (.imm 20) .rax, .leave]

def myfuncText : List (Instr Label) :=
  myfuncBefore.map .op ++ [.call .add] ++ myfuncAfter.map .op ++ [.ret]

def mainPrologue : List Op := [.pushq (.reg .rbp), .movq .rsp .rbp, .subq (.imm 16) .rsp]

def mainPass : List Op :=
  [.pushq (.imm 8), .pushq (.imm 7), .movl 6 .r9, .movl 5 .r8, .movl 4 .rcx, .movl 3 .rdx,
    .movl 2 .rsi, .movl 1 .rdi]

/-- Clean up the stack after the call, store `result` and leave. -/
def mainAfter : List Op :=
  [.addq (.imm 16) .rsp, .movqTo .rax (-8) .rbp, .movqFrom (-8) .rbp .rax, .leave]

def mainBefore : List Op := mainPrologue ++ mainPass

def mainText : List (Instr Label) :=
  mainBefore.map .op ++ [.call .myfunc] ++ mainAfter.map .op ++ [.ret]

def program : Program Label where
  text := addText ++ myfuncText ++ mainText
  entry
    | .add => 0
    | .myfunc => addText.length
    | .main => addText.length + myfuncText.length

/-! ## What the blocks of instructions do -/

section Blocks
open Memory Data

variable (d d' : Data)

/-- The sum that `myfunc` passes on: six arguments in registers, two above the return
address. -/
def passed (d : Data) : Word :=
  d.regs .rdi + d.regs .rsi + d.regs .rdx + d.regs .rcx + d.regs .r8 + d.regs .r9 +
    load d.mem (d.regs .rsp + 8#64) + load d.mem (d.regs .rsp + 16#64)

theorem addOps_rax : (addOps.foldl exec d).regs .rax = d.regs .rdi + d.regs .rsi := by
  rw [BitVec.add_comm]
  simp [addOps, addPrologue, addSave, addPerform, exec, value, BitVec.add_assoc]

theorem addOps_balanced : Balanced 24 d (addOps.foldl exec d) where
  rsp := by simp [addOps, addPrologue, addSave, addPerform, exec, value, BitVec.add_assoc]
  saved := by
    simp [addOps, addPrologue, addSave, addPerform, exec, value, top, calleeSaved,
      BitVec.add_assoc]
  frame := by simp [addOps, addPrologue, addSave, addPerform, exec, value, BitVec.add_assoc]

theorem myfuncBefore_framed : Framed 104 d (myfuncBefore.foldl exec d) where
  rbp := by
    simp [myfuncBefore, myfuncPrologue, myfuncSave, myfuncPerform, myfuncPass, exec, value]
  caller := by
    simp [myfuncBefore, myfuncPrologue, myfuncSave, myfuncPerform, myfuncPass, exec, value,
      BitVec.add_assoc]
  saved := by
    simp [myfuncBefore, myfuncPrologue, myfuncSave, myfuncPerform, myfuncPass, exec, value,
      calleeSaved]
  frame := by
    simp [myfuncBefore, myfuncPrologue, myfuncSave, myfuncPerform, myfuncPass, exec, value,
      BitVec.add_assoc]

theorem myfuncBefore_rdi : (myfuncBefore.foldl exec d).regs .rdi = passed d := by
  rw [passed, BitVec.add_comm]
  simp [myfuncBefore, myfuncPrologue, myfuncSave, myfuncPerform, myfuncPass, exec, value,
    BitVec.add_assoc]

theorem myfuncBefore_rsi : (myfuncBefore.foldl exec d).regs .rsi = 10 := by
  simp [myfuncBefore, myfuncPrologue, myfuncSave, myfuncPerform, myfuncPass, exec]

theorem myfuncBefore_rsp :
    (myfuncBefore.foldl exec d).regs .rsp = d.regs .rsp - BitVec.ofNat 64 72 := by
  simp [myfuncBefore, myfuncPrologue, myfuncSave, myfuncPerform, myfuncPass, exec, value,
    BitVec.sub_eq_add_neg, BitVec.add_assoc]

theorem myfuncAfter_rax : (myfuncAfter.foldl exec d).regs .rax = d.regs .rax + 20 := by
  simp [myfuncAfter, exec, value]

theorem myfuncAfter_balanced (h : Framed 104 d d') :
    Balanced 104 d (myfuncAfter.foldl exec d') := by
  have hyy := h.write (-8) (d'.regs .rax) (by decide) (by decide)
  exact ((hyy.set .rax _ (by decide)).set .rax _ (by decide)).leave

theorem mainBefore_framed : Framed 152 d (mainBefore.foldl exec d) where
  rbp := by simp [mainBefore, mainPrologue, mainPass, exec, value]
  caller := by
    simp [mainBefore, mainPrologue, mainPass, exec, value, add_sub_distance, BitVec.add_assoc]
  saved := by simp [mainBefore, mainPrologue, mainPass, exec, value, calleeSaved]
  frame := by
    simp [mainBefore, mainPrologue, mainPass, exec, value, add_sub_distance, BitVec.add_assoc]

theorem mainBefore_rsp :
    (mainBefore.foldl exec d).regs .rsp = d.regs .rsp - BitVec.ofNat 64 40 := by
  simp [mainBefore, mainPrologue, mainPass, exec, value, BitVec.sub_eq_add_neg, BitVec.add_assoc]

/-- What `main` passes, whatever its return address is. -/
theorem passed_main (v : Word) : passed ((mainBefore.foldl exec d).push v) = 36 := by
  simp [passed, mainBefore, mainPrologue, mainPass, exec, value, add_sub_distance,
    BitVec.add_assoc]

theorem mainAfter_rax : (mainAfter.foldl exec d).regs .rax = d.regs .rax := by
  simp [mainAfter, exec, value]

theorem mainAfter_balanced (h : Framed 152 d d') : Balanced 152 d (mainAfter.foldl exec d') := by
  have hclean := h.set .rsp (d'.regs .rsp + 16) (by decide)
  have hresult := hclean.write (-8) (d'.regs .rax) (by decide) (by decide)
  exact (hresult.set .rax _ (by decide)).leave

end Blocks

/-! ## The routines -/

section Compiled
open Memory Data

variable {place : ℕ → Addr}

/-- Where the sum of two longs is a long, the machine's addition gives it. -/
theorem toInt_add_of_long {x y : Word} {v : ℤ} (h : long (x.toInt + y.toInt) = some v) :
    v = (x + y).toInt := by
  obtain ⟨hlong, rfl⟩ := long_eq_some.1 h
  rw [BitVec.toInt_add, Int.bmod_eq_of_le_mul_two]
  · have hle := hlong.1
    omega
  · have hlt := hlong.2
    omega

theorem add_toInt {x y : Word} {v : ℤ} (h : add x.toInt y.toInt = some v) : v = (x + y).toInt :=
  toInt_add_of_long h

theorem myfunc_toInt {a b c d e f g h : Word} {v : ℤ}
    (hv : myfunc a.toInt b.toInt c.toInt d.toInt e.toInt f.toInt g.toInt h.toInt = some v) :
    v = (a + b + c + d + e + f + g + h + 10 + 20).toInt := by
  simp only [myfunc, Option.bind_eq_bind, Option.bind_eq_some_iff] at hv
  obtain ⟨s, hab, hv⟩ := hv
  obtain rfl := toInt_add_of_long hab
  obtain ⟨s, hc, hv⟩ := hv
  obtain rfl := toInt_add_of_long hc
  obtain ⟨s, hd, hv⟩ := hv
  obtain rfl := toInt_add_of_long hd
  obtain ⟨s, he, hv⟩ := hv
  obtain rfl := toInt_add_of_long he
  obtain ⟨s, hf, hv⟩ := hv
  obtain rfl := toInt_add_of_long hf
  obtain ⟨s, hg, hv⟩ := hv
  obtain rfl := toInt_add_of_long hg
  obtain ⟨xx, hxx, hv⟩ := hv
  obtain rfl := toInt_add_of_long hxx
  obtain ⟨yy, hyy, hv⟩ := hv
  obtain rfl := add_toInt (y := 10) hyy
  exact toInt_add_of_long (y := 20) hv

theorem add_returns (hp : Placed program place) (d : Data) :
    Returns program place .add d (addOps.foldl exec d).pop :=
  returns_straight hp ⟨_, rfl⟩ ((addOps_balanced d).top (by decide) (by decide))

theorem add_convention (d : Data) : Convention 24 d (addOps.foldl exec d).pop :=
  (addOps_balanced d).convention

/-- `myfunc`, with the sum as the machine adds. -/
theorem myfunc_returns (hp : Placed program place) (d : Data) :
    ∃ d', Returns program place .myfunc d d' ∧ Convention 104 d d' ∧
      d'.regs .rax = passed d + 10 + 20 := by
  let d₁ := myfuncBefore.foldl exec d
  let d₂ := d₁.push (place (program.entry .myfunc + myfuncBefore.length + 1))
  let d₃ := (addOps.foldl exec d₂).pop
  have hcall := (myfuncBefore_framed d).call (myfuncBefore_rsp d) (add_convention d₂) (by decide)
    (by decide) (by decide)
  have hbalanced := myfuncAfter_balanced d d₃ hcall.1
  refine ⟨(myfuncAfter.foldl exec d₃).pop, ?_, hbalanced.convention, ?_⟩
  · exact returns_calling hp ⟨mainText, rfl⟩ (add_returns hp d₂)
      (hbalanced.top (by decide) (by decide))
  · have hrax : d₃.regs .rax = passed d + 10 := by
      rw [regs_pop_of_ne _ _ (by decide), addOps_rax, regs_push_of_ne _ _ _ (by decide),
        regs_push_of_ne _ _ _ (by decide), myfuncBefore_rdi, myfuncBefore_rsi]
    rw [regs_pop_of_ne _ _ (by decide), myfuncAfter_rax, hrax]

/-- Wherever the program is placed and whatever state it is called in, `myfunc` of
`lab_6.s` returns to its caller with the calling convention kept, the sum of its
arguments and 30 in `rax` as the machine adds, and the value of `myfunc` of `lab_6.c`
wherever C defines one. The `add` that it calls does so too. -/
theorem myfunc_compiled (hp : Placed program place) (d : Data) :
    (∃ d', Returns program place .add d d' ∧ Convention 24 d d' ∧
      d'.regs .rax = d.regs .rdi + d.regs .rsi ∧
      ∀ v, add (d.regs .rdi).toInt (d.regs .rsi).toInt = some v →
        (d'.regs .rax).toInt = v) ∧
    (∃ d', Returns program place .myfunc d d' ∧ Convention 104 d d' ∧
      d'.regs .rax = passed d + 10 + 20 ∧
      ∀ v, myfunc (d.regs .rdi).toInt (d.regs .rsi).toInt (d.regs .rdx).toInt
          (d.regs .rcx).toInt (d.regs .r8).toInt (d.regs .r9).toInt
          (load d.mem (d.regs .rsp + 8#64)).toInt (load d.mem (d.regs .rsp + 16#64)).toInt =
            some v →
        (d'.regs .rax).toInt = v) := by
  constructor
  · have hrax : (addOps.foldl exec d).pop.regs .rax = d.regs .rdi + d.regs .rsi := by
      rw [regs_pop_of_ne _ _ (by decide), addOps_rax]
    refine ⟨_, add_returns hp d, add_convention d, hrax, fun v hv => ?_⟩
    rw [hrax, add_toInt hv]
  · obtain ⟨d', hreturns, hconvention, hrax⟩ := myfunc_returns hp d
    refine ⟨d', hreturns, hconvention, hrax, fun v hv => ?_⟩
    rw [hrax, myfunc_toInt hv, passed]

/-- A caller of `myfunc` with the arguments 1 to 6 in registers and zeros on its stack. -/
def caller : Data where
  regs
    | .rdi => 1 | .rsi => 2 | .rdx => 3 | .rcx => 4 | .r8 => 5 | .r9 => 6
    | _ => 0
  mem := fun _ => 0

theorem placed_consecutive : Placed program (BitVec.ofNat 64) := by
  intro i hi j hj h
  have hlen : program.text.length = 60 := rfl
  have htoNat := congrArg BitVec.toNat h
  simp only [BitVec.toNat_ofNat] at htoNat
  omega

theorem myfunc_compiled_caller : ∃ d', Returns program (BitVec.ofNat 64) .myfunc caller d' ∧
    (d'.regs .rax).toInt = 51 := by
  obtain ⟨d', hreturns, -, -, hvalue⟩ := (myfunc_compiled placed_consecutive caller).2
  exact ⟨d', hreturns, hvalue 51 (by decide)⟩

/-- Wherever the program is placed and whatever state it is called in, `main` of
`lab_6.s` returns to its caller with the calling convention kept and the result of
`main` of `lab_6.c` in `rax`. -/
theorem main_compiled (hp : Placed program place) (d : Data) :
    ∃ d', Returns program place .main d d' ∧ Convention 152 d d' ∧
      main = some (d'.regs .rax).toInt := by
  let d₁ := mainBefore.foldl exec d
  let d₂ := d₁.push (place (program.entry .main + mainBefore.length + 1))
  obtain ⟨d₃, hmyfunc, hconvention, hrax⟩ := myfunc_returns hp d₂
  have hcall := (mainBefore_framed d).call (mainBefore_rsp d) hconvention (by decide)
    (by decide) (by decide)
  have hbalanced := mainAfter_balanced d d₃ hcall.1
  refine ⟨(mainAfter.foldl exec d₃).pop, ?_, hbalanced.convention, ?_⟩
  · exact returns_calling hp (List.prefix_rfl) hmyfunc (hbalanced.top (by decide) (by decide))
  · have hresult : (mainAfter.foldl exec d₃).pop.regs .rax = 66 := by
      rw [regs_pop_of_ne _ _ (by decide), mainAfter_rax, hrax, passed_main]
      rfl
    rw [hresult]
    decide

theorem main_compiled_caller : ∃ d', Returns program (BitVec.ofNat 64) .main caller d' ∧
    main = some (d'.regs .rax).toInt := by
  obtain ⟨d', hreturns, -, hmain⟩ := main_compiled placed_consecutive caller
  exact ⟨d', hreturns, hmain⟩

end Compiled

end AcademyLab.Calls
