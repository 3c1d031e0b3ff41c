import AcademyLab.Memory
import Mathlib.Data.List.Infix

/-!
# A small x86-64 machine

The instructions on 64-bit registers that straight code with calls needs, in the
order of operands that the assembler has: the source first. A program is a list of
instructions with an entry for each label; where its instructions are placed in
memory is the linker's choice, so it is a parameter. Instructions are not data: no
store changes them. The flags are left out, since no instruction here reads them.
-/
namespace AcademyLab.Asm
open Memory

inductive Reg
  | rax | rbx | rcx | rdx | rsi | rdi | rbp | rsp
  | r8 | r9 | r10 | r11 | r12 | r13 | r14 | r15
  deriving DecidableEq, Repr

inductive Source
  | imm (v : Word)
  | reg (r : Reg)
  deriving DecidableEq

/-- The instructions after which the next one follows. `movl` is a move of a
constant to the low half of a register, which clears the high half. -/
inductive Op
  | pushq (src : Source)
  | popq (dst : Reg)
  | movq (src dst : Reg)
  | movqTo (src : Reg) (disp : Word) (base : Reg)
  | movqFrom (disp : Word) (base dst : Reg)
  | movl (v : BitVec 32) (dst : Reg)
  | addq (src : Source) (dst : Reg)
  | subq (src : Source) (dst : Reg)
  | leave
  deriving DecidableEq

inductive Instr (L : Type*)
  | op (o : Op)
  | call (l : L)
  | ret
  deriving DecidableEq

/-- The registers and the memory. -/
@[ext] structure Data where
  regs : Reg → Word
  mem : Mem

namespace Data

def set (d : Data) (r : Reg) (v : Word) : Data := { d with regs := Function.update d.regs r v }

def value (d : Data) : Source → Word
  | .imm v => v
  | .reg r => d.regs r

def write (d : Data) (a : Addr) (v : Word) : Data := { d with mem := store d.mem a v }

def push (d : Data) (v : Word) : Data :=
  (d.write (d.regs .rsp + -8#64) v).set .rsp (d.regs .rsp + -8#64)

/-- The word on top of the stack. -/
def top (d : Data) : Word := load d.mem (d.regs .rsp)

def pop (d : Data) : Data := d.set .rsp (d.regs .rsp + 8#64)

variable (d : Data) (r r' : Reg) (v : Word)

@[simp] theorem regs_set_self : (d.set r v).regs r = v := by
  simp [set]

@[simp] theorem regs_set_of_ne (h : r' ≠ r) : (d.set r v).regs r' = d.regs r' := by
  simp [set, h]

@[simp] theorem mem_set : (d.set r v).mem = d.mem := rfl

@[simp] theorem regs_write (a : Addr) : (d.write a v).regs = d.regs := rfl

@[simp] theorem mem_write (a : Addr) : (d.write a v).mem = store d.mem a v := rfl

@[simp] theorem regs_push_rsp : (d.push v).regs .rsp = d.regs .rsp + -8#64 := by
  simp [push]

@[simp] theorem regs_push_of_ne (h : r ≠ .rsp) : (d.push v).regs r = d.regs r := by
  simp [push, h]

@[simp] theorem mem_push : (d.push v).mem = store d.mem (d.regs .rsp + -8#64) v := rfl

@[simp] theorem top_push : (d.push v).top = v := by
  simp [top]

@[simp] theorem regs_pop_rsp : d.pop.regs .rsp = d.regs .rsp + 8#64 := by
  simp [pop]

@[simp] theorem regs_pop_of_ne (h : r ≠ .rsp) : d.pop.regs r = d.regs r := by
  simp [pop, h]

@[simp] theorem mem_pop : d.pop.mem = d.mem := rfl

end Data

def exec (d : Data) : Op → Data
  | .pushq src => d.push (d.value src)
  | .popq dst => d.pop.set dst d.top
  | .movq src dst => d.set dst (d.regs src)
  | .movqTo src disp base => d.write (d.regs base + disp) (d.regs src)
  | .movqFrom disp base dst => d.set dst (load d.mem (d.regs base + disp))
  | .movl v dst => d.set dst (v.setWidth 64)
  | .addq src dst => d.set dst (d.regs dst + d.value src)
  | .subq src dst => d.set dst (d.regs dst - d.value src)
  | .leave =>
    let d := d.set .rsp (d.regs .rbp)
    d.pop.set .rbp d.top

structure State where
  data : Data
  rip : Addr

structure Program (L : Type*) where
  text : List (Instr L)
  entry : L → ℕ

section Run
variable {L : Type*} (p : Program L) (place : ℕ → Addr)

/-- Every instruction has an address of its own. -/
def Placed : Prop :=
  ∀ i < p.text.length, ∀ j < p.text.length, place i = place j → i = j

/-- Which instruction is at an address. -/
def fetch (a : Addr) : Option ℕ := (List.range p.text.length).find? fun i => place i == a

/-- The instruction `i`. A call leaves the address of the instruction after it on the
stack. -/
def control (d : Data) (i : ℕ) : Instr L → State
  | .op o => ⟨exec d o, place (i + 1)⟩
  | .call l => ⟨d.push (place (i + 1)), place (p.entry l)⟩
  | .ret => ⟨d.pop, d.top⟩

/-- One step; `none` where `rip` is at no instruction of the program. -/
def step (s : State) : Option State :=
  (fetch p place s.rip).bind fun i => p.text[i]?.map (control p place s.data i)

def run : ℕ → State → Option State
  | 0, s => some s
  | n + 1, s => (step p place s).bind (run n)

/-- The machine comes from one state to another. -/
def Reaches (s s' : State) : Prop := ∃ n, run p place n s = some s'

/-- A call of `l` comes back to the address on top of the stack. -/
def Returns (l : L) (d d' : Data) : Prop :=
  Reaches p place ⟨d, place (p.entry l)⟩ ⟨d', d.top⟩

end Run

/-- The registers that a routine leaves as it has found them. -/
def calleeSaved : List Reg := [.rbx, .rbp, .r12, .r13, .r14, .r15]

theorem ne_rsp_of_mem {r : Reg} (hr : r ∈ calleeSaved) : r ≠ .rsp := by
  rintro rfl
  simp [calleeSaved] at hr

/-- What a caller relies on: the return address is taken off the stack, the saved
registers are back, and of the memory only the `n` bytes below the stack have
been written. -/
structure Convention (n : ℕ) (d d' : Data) : Prop where
  rsp : d'.regs .rsp = d.regs .rsp + 8#64
  saved : ∀ r ∈ calleeSaved, d'.regs r = d.regs r
  frame : Frame (d.regs .rsp - BitVec.ofNat 64 n) n d.mem d'.mem

/-- The body of a routine, before it returns: the stack is where it was. -/
structure Balanced (n : ℕ) (d d' : Data) : Prop where
  rsp : d'.regs .rsp = d.regs .rsp
  saved : ∀ r ∈ calleeSaved, d'.regs r = d.regs r
  frame : Frame (d.regs .rsp - BitVec.ofNat 64 n) n d.mem d'.mem

/-- A routine that entered with `d` has its frame: the base pointer is below the
return address, on the caller's base pointer. -/
structure Framed (n : ℕ) (d d' : Data) : Prop where
  rbp : d'.regs .rbp = d.regs .rsp + -8#64
  caller : load d'.mem (d.regs .rsp + -8#64) = d.regs .rbp
  saved : ∀ r ∈ calleeSaved, r ≠ .rbp → d'.regs r = d.regs r
  frame : Frame (d.regs .rsp - BitVec.ofNat 64 n) n d.mem d'.mem

section Frames
variable {n k : ℕ} {d d' d'' : Data}

theorem Balanced.convention (h : Balanced n d d') : Convention n d d'.pop where
  rsp := by rw [Data.regs_pop_rsp, h.rsp]
  saved := fun r hr => by
    rw [Data.regs_pop_of_ne _ _ (ne_rsp_of_mem hr)]
    exact h.saved r hr
  frame := h.frame

/-- The return address is above what a routine writes. -/
theorem Balanced.top (h : Balanced n d d') (hn : 0 < n) (hlt : n < 2 ^ 63) : d'.top = d.top := by
  rw [Data.top, Data.top, h.rsp]
  refine h.frame.load ?_ ?_
  · bv_omega
  · bv_omega

/-- A register that is nobody's but the routine's. -/
theorem Framed.set (h : Framed n d d') (r : Reg) (v : Word) (hr : r ∉ calleeSaved) :
    Framed n d (d'.set r v) where
  rbp := by
    have hne : Reg.rbp ≠ r := by
      rintro rfl
      exact hr (by decide)
    rw [Data.regs_set_of_ne _ _ _ _ hne, h.rbp]
  caller := h.caller
  saved := fun r' hr' hrbp => by
    have hne : r' ≠ r := by
      rintro rfl
      exact hr hr'
    rw [Data.regs_set_of_ne _ _ _ _ hne, h.saved r' hr' hrbp]
  frame := h.frame

/-- A local variable, `disp` from the base pointer. -/
theorem Framed.write (h : Framed n d d') (disp v : Word)
    (hroom : (-8#64 + disp + BitVec.ofNat 64 n).toNat + 8 ≤ n)
    (hbelow : 8 ≤ disp.toNat ∧ 8 ≤ (-disp).toNat) :
    Framed n d (d'.write (d'.regs .rbp + disp) v) where
  rbp := h.rbp
  caller := by
    rw [Data.mem_write, h.rbp, ← h.caller]
    refine load_store_of_disjoint ?_ ?_
    · bv_omega
    · bv_omega
  saved := h.saved
  frame := by
    rw [Data.mem_write, h.rbp, BitVec.add_assoc, frame_store_iff hroom]
    exact h.frame

theorem Framed.leave (h : Framed n d d') : Balanced n d (exec d' .leave) where
  rsp := by simp [exec, h.rbp, BitVec.add_assoc]
  saved := fun r hr => by
    by_cases hrbp : r = .rbp
    · subst hrbp
      simpa [exec, Data.top, h.rbp] using h.caller
    · have hrsp := ne_rsp_of_mem hr
      simpa [exec, hrbp, hrsp] using h.saved r hr hrbp
  frame := h.frame

/-- A call from within a frame whose stack pointer is `k` bytes down, with room below it for
what the call writes. -/
theorem Framed.call {m : ℕ} {v : Word} (h : Framed n d d') (hrsp : d'.regs .rsp =
    d.regs .rsp - BitVec.ofNat 64 k) (hcall : Convention m (d'.push v) d'') (hk : 8 ≤ k)
    (hn : k + 8 + m ≤ n) (hlt : n < 2 ^ 63) :
    Framed n d d'' ∧ d''.regs .rsp = d'.regs .rsp := by
  have hpush : (d'.push v).regs .rsp = d.regs .rsp - BitVec.ofNat 64 (k + 8) := by
    rw [Data.regs_push_rsp, hrsp]
    bv_omega
  have hframe := hcall.frame
  rw [hpush] at hframe
  have hkeep : ∀ r ∈ calleeSaved, d''.regs r = d'.regs r := fun r hr => by
    rw [hcall.saved r hr, Data.regs_push_of_ne _ _ _ (ne_rsp_of_mem hr)]
  have hwritten : Frame (d.regs .rsp - BitVec.ofNat 64 n) n d.mem (d'.push v).mem := by
    refine h.frame.store ?_
    rw [hrsp]
    bv_omega
  have hcaller : load (d'.push v).mem (d.regs .rsp + -8#64) = d.regs .rbp := by
    rw [← h.caller]
    refine load_store_of_disjoint ?_ ?_
    · rw [hrsp]
      bv_omega
    · rw [hrsp]
      bv_omega
  refine ⟨⟨?_, ?_, ?_, ?_⟩, ?_⟩
  · rw [hkeep .rbp (by decide), h.rbp]
  · rw [← hcaller]
    refine hframe.load ?_ ?_
    · bv_omega
    · bv_omega
  · intro r hr hne
    rw [hkeep r hr, h.saved r hr hne]
  · refine hwritten.trans (hframe.mono ?_)
    bv_omega
  · rw [hcall.rsp, Data.regs_push_rsp]
    bv_omega

end Frames

section Rules
variable {L : Type*} {p : Program L} {place : ℕ → Addr} {s s' s'' : State} {d d' : Data} {i : ℕ}

theorem run_add (m n : ℕ) (s : State) :
    run p place (m + n) s = (run p place m s).bind (run p place n) := by
  induction m generalizing s with
  | zero => simp [run]
  | succ m ih =>
    rw [Nat.succ_add, run, run]
    cases step p place s with
    | none => rfl
    | some s' => exact ih s'

theorem Reaches.refl (s : State) : Reaches p place s s := ⟨0, rfl⟩

theorem Reaches.trans (h : Reaches p place s s') (h' : Reaches p place s' s'') :
    Reaches p place s s'' := by
  obtain ⟨m, hm⟩ := h
  obtain ⟨n, hn⟩ := h'
  refine ⟨m + n, ?_⟩
  rw [run_add, hm]
  exact hn

theorem Reaches.of_step (h : step p place s = some s') : Reaches p place s s' := by
  refine ⟨1, ?_⟩
  rw [run, h]
  rfl

theorem fetch_place (hp : Placed p place) (hi : i < p.text.length) :
    fetch p place (place i) = some i := by
  rw [fetch, List.find?_range_eq_some]
  refine ⟨by simp, List.mem_range.2 hi, fun j hj => ?_⟩
  have hne : place j ≠ place i := fun h => hj.ne (hp j (hj.trans hi) i hi h)
  simpa using hne

theorem reaches_instr (hp : Placed p place) {c : Instr L} (hc : p.text[i]? = some c) :
    Reaches p place ⟨d, place i⟩ (control p place d i c) := by
  have hi : i < p.text.length := (List.getElem?_eq_some_iff.1 hc).1
  apply Reaches.of_step
  simp [step, fetch_place hp hi, hc]

/-- A piece of straight code does what its instructions do one after the other. -/
theorem reaches_ops (hp : Placed p place) {os : List Op}
    (hos : os.map Instr.op <+: p.text.drop i) :
    Reaches p place ⟨d, place i⟩ ⟨os.foldl exec d, place (i + os.length)⟩ := by
  induction os generalizing i d with
  | nil => exact Reaches.refl _
  | cons o os ih =>
    obtain ⟨rest, hrest⟩ := hos
    have hc : p.text[i]? = some (.op o) := by
      rw [← Nat.add_zero i, ← List.getElem?_drop, ← hrest]
      rfl
    have hos' : os.map Instr.op <+: p.text.drop (i + 1) := by
      refine ⟨rest, ?_⟩
      rw [← List.drop_drop, ← hrest]
      rfl
    have hlen : i + (o :: os).length = i + 1 + os.length := by
      rw [List.length_cons]
      omega
    rw [hlen]
    exact (reaches_instr hp hc).trans (ih hos')

/-- A call of a routine that returns goes on after the call. -/
theorem reaches_call (hp : Placed p place) {l : L} (hc : p.text[i]? = some (.call l))
    (hl : Returns p place l (d.push (place (i + 1))) d') :
    Reaches p place ⟨d, place i⟩ ⟨d', place (i + 1)⟩ := by
  have hcall : Reaches p place ⟨d, place i⟩ ⟨d.push (place (i + 1)), place (p.entry l)⟩ :=
    reaches_instr hp hc
  have hback := hcall.trans hl
  rwa [Data.top_push] at hback

/-- The return of a routine whose body has left the stack as it was. -/
theorem reaches_ret (hp : Placed p place) (hc : p.text[i]? = some .ret) (h : d'.top = d.top) :
    Reaches p place ⟨d', place i⟩ ⟨d'.pop, d.top⟩ := by
  rw [← h]
  exact reaches_instr hp hc

theorem getElem?_of_prefix {is : List (Instr L)} {j : ℕ} {c : Instr L}
    (h : is <+: p.text.drop i) (hj : is[j]? = some c) : p.text[i + j]? = some c := by
  obtain ⟨rest, hrest⟩ := h
  have hlt : j < is.length := (List.getElem?_eq_some_iff.1 hj).1
  rw [← List.getElem?_drop, ← hrest, List.getElem?_append_left hlt, hj]

section Routines
variable {l l' : L} {os os' : List Op} {n : ℕ}

/-- A routine of straight code. -/
theorem returns_straight (hp : Placed p place)
    (htext : os.map Instr.op ++ [.ret] <+: p.text.drop (p.entry l))
    (h : (os.foldl exec d).top = d.top) : Returns p place l d (os.foldl exec d).pop := by
  have hops : os.map Instr.op <+: p.text.drop (p.entry l) :=
    (List.prefix_append _ _).trans htext
  have hret : p.text[p.entry l + os.length]? = some .ret :=
    getElem?_of_prefix htext (by simp)
  exact (reaches_ops hp hops).trans (reaches_ret hp hret h)

/-- A routine of straight code with a call in it. -/
theorem returns_calling (hp : Placed p place)
    (htext : os.map Instr.op ++ .call l' :: os'.map Instr.op ++ [.ret] <+:
      p.text.drop (p.entry l))
    (hcall : Returns p place l'
      ((os.foldl exec d).push (place (p.entry l + os.length + 1))) d')
    (h : (os'.foldl exec d').top = d.top) : Returns p place l d (os'.foldl exec d').pop := by
  have hops : os.map Instr.op <+: p.text.drop (p.entry l) := by
    refine List.IsPrefix.trans ?_ htext
    rw [List.append_assoc]
    exact List.prefix_append _ _
  have hat : p.text[p.entry l + os.length]? = some (.call l') :=
    getElem?_of_prefix htext (by simp)
  have hops' : os'.map Instr.op <+: p.text.drop (p.entry l + os.length + 1) := by
    obtain ⟨rest, hrest⟩ := htext
    refine ⟨.ret :: rest, ?_⟩
    rw [← List.drop_drop, ← List.drop_drop, ← hrest, List.append_assoc, List.append_assoc,
      List.drop_left' (List.length_map _)]
    simp
  have hret : p.text[p.entry l + os.length + 1 + os'.length]? = some .ret := by
    rw [Nat.add_assoc, Nat.add_assoc]
    refine getElem?_of_prefix htext ?_
    rw [List.append_assoc, List.getElem?_append_right (by simp)]
    simp [Nat.add_comm 1]
  exact ((reaches_ops hp hops).trans (reaches_call hp hat hcall)).trans
    ((reaches_ops hp hops').trans (reaches_ret hp hret h))

end Routines

end Rules

end AcademyLab.Asm
