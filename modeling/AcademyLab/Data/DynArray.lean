import AcademyLab.CInt
import AcademyLab.Machine
import Mathlib.Order.Bounds.Basic
import Mathlib.Tactic.Positivity
import Mathlib.Tactic.Ring

/-!
# The growing array

`arr_push` of `lab_2.c`. What `realloc` answers is part of the push: `NULL`, or the
address of the new block with what its new cells hold. Whatever the code must not
do with the array is a fault of the push, and so is an `int` operation that
overflows.
-/
namespace AcademyLab.ArrPush
open CInt Machine

/-- What a push must not come to. -/
inductive Fault
  | null
  | outside
  | overflow
  deriving DecidableEq

/-- The memory at a pointer, with the `int`s it can hold. -/
structure Block where
  addr : ℕ
  cells : List Int32
  deriving DecidableEq

/-- What `malloc` or `realloc` answers: a failure, or an address and what is in each
cell before anything is put there. -/
abbrev Answer := Option (ℕ × (ℕ → Int32))

structure DynArray where
  data : Option Block
  size : ℤ
  capacity : ℤ
  deriving DecidableEq

/-- `realloc` to `n` cells, where `old` may be `NULL`. -/
def realloc (old : Option Block) (n : ℕ) (answer : Answer) : Option Block :=
  answer.map fun (addr, fresh) =>
    ⟨addr, List.ofFn fun i : Fin n => ((old.map Block.cells).getD []).getD i (fresh i)⟩

def malloc (n : ℕ) (answer : Answer) : Option Block := realloc none n answer

/-- `data[i] = value` -/
def store (data : Option Block) (i : ℤ) (value : Int32) : Except Fault Block :=
  match data with
  | none => .error .null
  | some b =>
    if 0 ≤ i ∧ i < b.cells.length then .ok { b with cells := b.cells.set i.toNat value }
    else .error .outside

/-- The branch of `arr_push` for an array that is full. -/
def grow (a : DynArray) (answer : Answer) : Except Fault DynArray := do
  let capacity ← checked .overflow (a.capacity * 2)
  return { a with capacity, data := realloc a.data capacity.toNat answer }

/-- The store of `arr_push`, and `a->size++`. -/
def put (a : DynArray) (value : Int32) : Except Fault DynArray := do
  let b ← store a.data a.size value
  let size ← checked .overflow (a.size + 1)
  return { a with data := some b, size }

def arrPush (a : DynArray) (value : Int32) (answer : Answer) : Except Fault DynArray := do
  let a ← if a.size = a.capacity then grow a answer else .ok a
  put a value

/-- `main` before the threads, with the block that `malloc` gives it. -/
def start (addr : ℕ) (fresh : ℕ → Int32) : DynArray := ⟨malloc 4 (some (addr, fresh)), 0, 4⟩

/-- One push, with the answer of its `realloc` in case it makes one. -/
structure Push where
  value : Int32
  answer : Answer

/-- What a push comes to: the index of its store and the capacity then, or a fault. -/
inductive Event
  | stored (index capacity : ℤ)
  | fault (f : Fault)
  deriving DecidableEq

/-- A push as a step; after a fault there is nothing more to say. -/
def step (a : DynArray) (p : Push) : DynArray × List Event :=
  match arrPush a p.value p.answer with
  | .ok a' => (a', [.stored a.size a'.capacity])
  | .error f => (a, [.fault f])

/-! ## What the array stands for -/

/-- The array holds `values`, in order, at the start of a block of `capacity` cells. -/
structure Holds (a : DynArray) (values : List Int32) : Prop where
  block : ∃ b, a.data = some b ∧ values <+: b.cells ∧ b.cells.length = a.capacity
  size : a.size = values.length
  isInt : IsInt a.capacity

/-- The capacity is the least one that `values` make it grow to. -/
def Grown (a : DynArray) (values : List Int32) : Prop :=
  ∃ k : ℕ, a.capacity = 4 * 2 ^ k ∧ IsLeast {k : ℕ | values.length ≤ 4 * 2 ^ k} k

section Spec
variable {a : DynArray} {values : List Int32} {value : Int32} {answer : Answer} {b : Block} {n : ℕ}

theorem Holds.size_le (h : Holds a values) : a.size ≤ a.capacity := by
  obtain ⟨b, -, hcells, hlen⟩ := h.block
  have hle := hcells.length_le
  rw [h.size, ← hlen]
  exact_mod_cast hle

theorem length_realloc {old : Option Block} (h : realloc old n answer = some b) :
    b.cells.length = n := by
  obtain ⟨⟨addr, fresh⟩, -, rfl⟩ := Option.map_eq_some_iff.1 h
  exact List.length_ofFn

/-- The old cells are kept. -/
theorem prefix_realloc {old : Block} (h : realloc (some old) n answer = some b)
    (hn : old.cells.length ≤ n) : old.cells <+: b.cells := by
  obtain ⟨⟨addr, fresh⟩, -, rfl⟩ := Option.map_eq_some_iff.1 h
  refine List.prefix_iff_getElem.2 ⟨by simpa using hn, fun i hi => ?_⟩
  simp [hi]

theorem prefix_set {cells : List Int32} (h : values <+: cells) (hlt : values.length < cells.length)
    (value : Int32) : values ++ [value] <+: cells.set values.length value := by
  obtain ⟨rest, rfl⟩ := h
  cases rest with
  | nil => simp at hlt
  | cons x rest => exact ⟨rest, by simp⟩

/-- Where there is room, the value is put behind the others. -/
theorem put_room (h : Holds a values) (hroom : a.size < a.capacity) (value : Int32) :
    ∃ a', put a value = .ok a' ∧ Holds a' (values ++ [value]) ∧ a'.capacity = a.capacity := by
  obtain ⟨b, hdata, hcells, hlen⟩ := h.block
  have hsize := h.size
  have hmax := isInt_iff.1 h.isInt
  have hstore : store a.data a.size value =
      .ok { b with cells := b.cells.set values.length value } := by
    simp only [store, hdata]
    rw [if_pos ⟨by omega, by omega⟩, hsize, Int.toNat_natCast]
  have hadd : checked Fault.overflow (a.size + 1) = .ok (a.size + 1) :=
    checked_of_isInt (isInt_iff.2 ⟨by omega, by omega⟩)
  refine ⟨⟨some { b with cells := b.cells.set values.length value }, a.size + 1, a.capacity⟩,
    ?_, ⟨⟨_, rfl, ?_, ?_⟩, ?_, h.isInt⟩, rfl⟩
  · simp only [put, hstore, hadd, bind, Except.bind, pure, Except.pure]
  · exact prefix_set hcells (by omega) value
  · simpa using hlen
  · simp [hsize]

/-- An array that grows keeps its values. -/
theorem grow_spec (h : Holds a values) (hmem : answer ≠ none) (hlimit : a.capacity < 2 ^ 30) :
    ∃ a', grow a answer = .ok a' ∧ Holds a' values ∧ a'.size = a.size ∧
      a'.capacity = a.capacity * 2 := by
  obtain ⟨b, hdata, hcells, hlen⟩ := h.block
  have hint : IsInt (a.capacity * 2) := isInt_iff.2 ⟨by omega, by omega⟩
  obtain ⟨b', hb'⟩ : ∃ b', realloc (some b) (a.capacity * 2).toNat answer = some b' := by
    obtain ⟨x, rfl⟩ := Option.ne_none_iff_exists'.1 hmem
    exact ⟨_, rfl⟩
  have hlen' := length_realloc hb'
  refine ⟨⟨some b', a.size, a.capacity * 2⟩, ?_, ⟨⟨b', rfl, ?_, ?_⟩, h.size, hint⟩, rfl, rfl⟩
  · simp only [grow, hdata, hb', checked_of_isInt hint, bind, Except.bind, pure, Except.pure]
  · exact hcells.trans (prefix_realloc hb' (by omega))
  · show (b'.cells.length : ℤ) = a.capacity * 2
    omega

/-- Without memory, or without an `int` for the new capacity, a push of a full array is
a fault. -/
theorem arrPush_fault (hfull : a.size = a.capacity)
    (hbad : answer = none ∨ ¬ IsInt (a.capacity * 2)) :
    ∃ f, arrPush a value answer = .error f := by
  by_cases hint : IsInt (a.capacity * 2)
  · obtain rfl := hbad.resolve_right (not_not.2 hint)
    refine ⟨.null, ?_⟩
    simp only [arrPush, if_pos hfull, grow, checked_of_isInt hint, realloc, Option.map_none, put,
      store, bind, Except.bind, pure, Except.pure]
  · refine ⟨.overflow, ?_⟩
    simp only [arrPush, if_pos hfull, grow, checked_of_not_isInt hint, bind, Except.bind]

/-- A push finds room, or gets it. -/
def Roomy (a : DynArray) (p : Push) : Prop :=
  a.size = a.capacity → p.answer ≠ none ∧ a.capacity < 2 ^ 30

/-- What a push does to the values of the array. -/
theorem arrPush_spec {p : Push} (h : Holds a values) (hpos : 0 < a.capacity) (hroomy : Roomy a p) :
    ∃ a', arrPush a p.value p.answer = .ok a' ∧ Holds a' (values ++ [p.value]) ∧
      a'.capacity = (if a.size = a.capacity then a.capacity * 2 else a.capacity) ∧
      a.size < a'.capacity := by
  have hle := h.size_le
  by_cases hfull : a.size = a.capacity
  · obtain ⟨hmem, hlimit⟩ := hroomy hfull
    obtain ⟨a₁, hgrow, hholds, hsize, hcapacity⟩ := grow_spec h hmem hlimit
    obtain ⟨a', hput, hholds', hcapacity'⟩ := put_room hholds (by omega) p.value
    refine ⟨a', ?_, hholds', ?_, by omega⟩
    · simp only [arrPush, if_pos hfull, hgrow, hput, bind, Except.bind]
    · rw [if_pos hfull, hcapacity', hcapacity]
  · obtain ⟨a', hput, hholds', hcapacity'⟩ := put_room h (by omega) p.value
    refine ⟨a', ?_, hholds', ?_, by omega⟩
    · simp only [arrPush, if_neg hfull, hput, bind, Except.bind]
    · rw [if_neg hfull, hcapacity']

end Spec

/-! ## How far it grows -/

section Grown
variable {n k : ℕ}

theorem isLeast_room (h : IsLeast {k : ℕ | n ≤ 4 * 2 ^ k} k) (hroom : n < 4 * 2 ^ k) :
    IsLeast {k : ℕ | n + 1 ≤ 4 * 2 ^ k} k :=
  ⟨hroom, fun _ hj => h.2 (Nat.le_of_succ_le hj)⟩

theorem isLeast_full (hfull : n = 4 * 2 ^ k) : IsLeast {k : ℕ | n + 1 ≤ 4 * 2 ^ k} (k + 1) := by
  have hpos : 0 < 2 ^ k := Nat.two_pow_pos k
  constructor
  · show n + 1 ≤ 4 * 2 ^ (k + 1)
    rw [pow_succ]
    omega
  · intro j hj
    have hlt : 2 ^ k < 2 ^ j := by
      have : n + 1 ≤ 4 * 2 ^ j := hj
      omega
    exact (Nat.pow_lt_pow_iff_right (by decide)).1 hlt

variable {a a' : DynArray} {values : List Int32} {value : Int32}

theorem Grown.pos (h : Grown a values) : 0 < a.capacity := by
  obtain ⟨k, hk, -⟩ := h
  rw [hk]
  positivity

theorem grown_push (h : Grown a values) (hholds : Holds a values)
    (hcapacity : a'.capacity = if a.size = a.capacity then a.capacity * 2 else a.capacity) :
    Grown a' (values ++ [value]) := by
  obtain ⟨k, hk, hleast⟩ := h
  have hle := hholds.size_le
  rw [hholds.size] at hle hcapacity
  have hk' : a.capacity = ((4 * 2 ^ k : ℕ) : ℤ) := by
    rw [hk]
    push_cast
    rfl
  unfold Grown
  rw [List.length_append, List.length_singleton]
  by_cases hfull : (values.length : ℤ) = a.capacity
  · refine ⟨k + 1, ?_, isLeast_full (by omega)⟩
    rw [hcapacity, if_pos hfull, hk]
    ring
  · refine ⟨k, ?_, isLeast_room hleast (by omega)⟩
    rw [hcapacity, if_neg hfull, hk]

end Grown

/-! ## One push after the other -/

section Run
variable {a : DynArray} {values : List Int32} {pushes : List Push} {p : Push}

/-- The array as a sequence: it holds the values, and has grown as far as it had to. -/
structure Represents (a : DynArray) (values : List Int32) : Prop where
  holds : Holds a values
  grown : Grown a values

theorem represents_start (addr : ℕ) (fresh : ℕ → Int32) : Represents (start addr fresh) [] where
  holds := by
    have hint : IsInt 4 := by decide
    exact ⟨⟨_, rfl, List.nil_prefix, by simp [start]⟩, rfl, hint⟩
  grown := ⟨0, rfl, Nat.zero_le _, fun _ _ => Nat.zero_le _⟩

theorem represents_push (h : Represents a values) (hroomy : Roomy a p) :
    ∃ a', arrPush a p.value p.answer = .ok a' ∧ Represents a' (values ++ [p.value]) ∧
      a.size < a'.capacity := by
  obtain ⟨a', hpush, hholds, hcapacity, hlt⟩ := arrPush_spec h.holds h.grown.pos hroomy
  exact ⟨a', hpush, ⟨hholds, grown_push h.grown h.holds hcapacity⟩, hlt⟩

/-- The pushes find room: then the array is the sequence of what was pushed, and each
store is inside. -/
theorem represents_run (h : Represents a values) (hroomy : Along step Roomy a pushes) :
    Represents (exec step a pushes) (values ++ pushes.map Push.value) ∧
      ∀ e ∈ trace step a pushes, ∃ index capacity, e = .stored index capacity ∧ 0 ≤ index ∧
        index < capacity := by
  induction pushes generalizing a values with
  | nil => simpa using h
  | cons p pushes ih =>
    obtain ⟨hp, hpushes⟩ := hroomy
    obtain ⟨a', hpush, hrep, hlt⟩ := represents_push h hp
    have hstep : step a p = (a', [.stored a.size a'.capacity]) := by
      rw [step, hpush]
    rw [hstep] at hpushes
    obtain ⟨hrep', hevents⟩ := ih hrep hpushes
    rw [exec_cons, trace_cons, hstep, List.map_cons, List.append_cons]
    refine ⟨hrep', ?_⟩
    rw [List.singleton_append, List.forall_mem_cons]
    refine ⟨⟨_, _, rfl, ?_, hlt⟩, hevents⟩
    rw [h.holds.size]
    exact Int.natCast_nonneg _

/-- With memory, no push of the first `2 ^ 30` fails to find room. -/
theorem roomy_of_short (h : Represents a values) (hlen : values.length + pushes.length < 2 ^ 30)
    (hmem : ∀ p ∈ pushes, p.answer ≠ none) : Along step Roomy a pushes := by
  induction pushes generalizing a values with
  | nil => trivial
  | cons p pushes ih =>
    rw [List.length_cons] at hlen
    have hsize := h.holds.size
    have hp : Roomy a p := fun hfull => ⟨hmem p List.mem_cons_self, by omega⟩
    obtain ⟨a', hpush, hrep, -⟩ := represents_push h hp
    have hstep : step a p = (a', [.stored a.size a'.capacity]) := by
      rw [step, hpush]
    refine ⟨hp, ?_⟩
    rw [hstep]
    refine ih hrep ?_ fun q hq => hmem q (List.mem_cons_of_mem p hq)
    simp only [List.length_append, List.length_singleton]
    omega

end Run

/-! ## Pushes with memory -/

/-- Fewer than `2 ^ 30` pushes, with memory whenever they ask for it, append what
they push, in an array that has doubled no more often than it had to. -/
theorem arr_push_appends (addr : ℕ) (fresh : ℕ → Int32) (pushes : List Push)
    (hlen : pushes.length < 2 ^ 30) (hmem : ∀ p ∈ pushes, p.answer ≠ none) :
    let a := exec step (start addr fresh) pushes
    a.size = pushes.length ∧
      (∃ b, a.data = some b ∧ b.cells.take pushes.length = pushes.map Push.value) ∧
      (∃ k : ℕ, a.capacity = 4 * 2 ^ k ∧ IsLeast {k : ℕ | pushes.length ≤ 4 * 2 ^ k} k) ∧
      ∀ e ∈ trace step (start addr fresh) pushes, ∃ index capacity,
        e = .stored index capacity ∧ 0 ≤ index ∧ index < capacity := by
  intro a
  have hstart := represents_start addr fresh
  have hroomy : Along step Roomy (start addr fresh) pushes :=
    roomy_of_short hstart (by simpa using hlen) hmem
  obtain ⟨⟨hholds, hgrown⟩, hevents⟩ := represents_run hstart hroomy
  rw [List.nil_append] at hholds hgrown
  refine ⟨by simpa using hholds.size, ?_, by simpa [Grown] using hgrown, hevents⟩
  obtain ⟨b, hdata, hcells, -⟩ := hholds.block
  refine ⟨b, hdata, ?_⟩
  have htake := List.prefix_iff_eq_take.1 hcells
  rw [List.length_map] at htake
  exact htake.symm

/-- Nine pushes of `7`: the array doubles twice. -/
theorem arr_push_appends_nine :
    let pushes : List Push := List.replicate 9 ⟨7, some (0, fun _ => 0)⟩
    ∃ k : ℕ, (exec step (start 0 fun _ => 0) pushes).capacity = 4 * 2 ^ k ∧
      IsLeast {k : ℕ | pushes.length ≤ 4 * 2 ^ k} k := by
  intro pushes
  refine (arr_push_appends 0 (fun _ => 0) pushes (by decide) fun p hp => ?_).2.2.1
  rw [List.eq_of_mem_replicate hp]
  exact Option.some_ne_none _

/-! ## Pushes without memory -/

/-- The block at `data` has `capacity` cells, and `size` is among them. -/
structure Consistent (a : DynArray) : Prop where
  block : ∃ b, a.data = some b ∧ b.cells.length = a.capacity
  size_le : a.size ≤ a.capacity

/-- A push comes to an end, leaves the array consistent, and changes nothing if its
`realloc` fails. -/
def Kept (a : DynArray) (p : Push) : Prop :=
  ∃ a', arrPush a p.value p.answer = .ok a' ∧ Consistent a' ∧
    (a.size = a.capacity → p.answer = none → a' = a)

section Kept
variable {a : DynArray} {values : List Int32}

theorem Holds.consistent (h : Holds a values) : Consistent a := by
  obtain ⟨b, hdata, -, hlen⟩ := h.block
  exact ⟨⟨b, hdata, hlen⟩, h.size_le⟩

theorem kept_iff (h : Represents a values) (p : Push) : Kept a p ↔ Roomy a p := by
  constructor
  · rintro ⟨a', hpush, -⟩ hfull
    have hpos := h.grown.pos
    by_contra hbad
    have hbad' : p.answer = none ∨ ¬ IsInt (a.capacity * 2) := by
      rw [isInt_iff]
      by_cases hmem : p.answer = none
      · exact Or.inl hmem
      · refine Or.inr fun hint => hbad ⟨hmem, ?_⟩
        omega
    obtain ⟨f, hfault⟩ : ∃ f, arrPush a p.value p.answer = .error f := arrPush_fault hfull hbad'
    rw [hfault] at hpush
    cases hpush
  · intro hroomy
    obtain ⟨a', hpush, hrep, -⟩ := represents_push h hroomy
    exact ⟨a', hpush, hrep.holds.consistent, fun hfull hfail => absurd hfail (hroomy hfull).1⟩

end Kept

/-- Whatever `realloc` answers, the pushes keep the array consistent just when none
of them finds it full and gets no memory, or finds it full at `2 ^ 30`. -/
theorem arr_push_consistent (addr : ℕ) (fresh : ℕ → Int32) (pushes : List Push) :
    Along step Kept (start addr fresh) pushes ↔ Along step Roomy (start addr fresh) pushes := by
  have hequiv : ∀ a p, (∃ values, Represents a values) → (Kept a p ↔ Roomy a p) := by
    rintro a p ⟨values, h⟩
    exact kept_iff h p
  refine along_iff hequiv ?_ ⟨[], represents_start addr fresh⟩ pushes
  rintro a p ⟨values, h⟩ hroomy
  obtain ⟨a', hpush, hrep, -⟩ := represents_push h hroomy
  refine ⟨values ++ [p.value], ?_⟩
  rwa [step, hpush]

/-- The fifth push asks for memory and gets none. -/
theorem arr_push_no_memory :
    ¬ ∀ (addr : ℕ) (fresh : ℕ → Int32) (pushes : List Push),
      Along step Kept (start addr fresh) pushes := by
  intro h
  have hfifth := h 0 (fun _ => 0) (List.replicate 4 ⟨7, none⟩ ++ [⟨7, none⟩])
  rw [along_append] at hfifth
  obtain ⟨a', hpush, -⟩ := hfifth.2.1
  have hfault : arrPush (exec step (start 0 fun _ => 0) (List.replicate 4 ⟨7, none⟩)) 7 none =
      .error .null := by rfl
  rw [hfault] at hpush
  cases hpush

end AcademyLab.ArrPush
