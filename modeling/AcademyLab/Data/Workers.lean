import AcademyLab.Data.DynArray
import AcademyLab.Thread.Exclusion
import Mathlib.Data.Fintype.Basic
import Mathlib.Logic.Function.Basic

/-!
# Threads that push to one array

`worker` of `lab_2.c`: threads that call `arr_push` on one array without a lock. A step
is one load or store of a field of the array, the store of the value, or the call of
`realloc`; another thread may come between any two of them. The blocks of memory that
are allocated are in `heap`. Whatever C leaves undefined ends the run as a fault.
-/
namespace AcademyLab.Workers
open CInt Machine
open ArrPush (Answer DynArray Block arrPush grow put store realloc)

inductive Fault
  | null | outside | overflow | freed
  deriving DecidableEq

/-- Where a thread stands in turn `i` of its loop, with what it has loaded. -/
inductive Pc
  | test (i : ℕ)
  | size (i : ℕ)
  | capacity (i : ℕ) (size : ℤ)
  | double (i : ℕ)
  | setCapacity (i : ℕ) (doubled : ℤ)
  | old (i : ℕ)
  | realloc (i : ℕ) (old : Option ℕ)
  | setData (i : ℕ) (data : Option ℕ)
  | data (i : ℕ)
  | index (i : ℕ) (data : Option ℕ)
  | write (i : ℕ) (data : Option ℕ) (index : ℤ)
  | load (i : ℕ)
  | add (i : ℕ) (loaded : ℤ)
  | store (i : ℕ) (sum : ℤ)
  | done
  deriving DecidableEq

/-- The fields of `arr`, the blocks at their addresses, and the fault that has ended the
run. -/
structure State (ι : Type*) where
  pc : ι → Pc
  data : Option ℕ
  size : ℤ
  capacity : ℤ
  heap : ℕ → Option (List Int32)
  fault : Option Fault

section Step
variable {ι : Type*} [DecidableEq ι]

def State.goto (s : State ι) (t : ι) (pc : Pc) : State ι :=
  { s with pc := Function.update s.pc t pc }

def State.fail (s : State ι) (f : Fault) : State ι := { s with fault := some f }

/-- `realloc(old, n * sizeof(int))`: the new block keeps the cells of the old one, which
is freed. -/
def State.realloc (s : State ι) (old : Option ℕ) (n : ℕ) (answer : Answer) :
    Except Fault (State ι × Option ℕ) :=
  match old with
  | none =>
    match answer with
    | none => .ok (s, none)
    | some (addr, fresh) =>
      let cells := List.ofFn fun i : Fin n => fresh i
      .ok ({ s with heap := Function.update s.heap addr (some cells) }, some addr)
  | some a =>
    match s.heap a with
    | none => .error .freed
    | some old =>
      match answer with
      | none => .ok (s, none)
      | some (addr, fresh) =>
        let cells := List.ofFn fun i : Fin n => old.getD i (fresh i)
        let heap := Function.update (Function.update s.heap a none) addr (some cells)
        .ok ({ s with heap := heap }, some addr)

/-- `data[k] = value` through the pointer that was loaded. -/
def State.write (s : State ι) (data : Option ℕ) (k : ℤ) (value : Int32) :
    Except Fault (State ι) :=
  match data with
  | none => .error .null
  | some a =>
    match s.heap a with
    | none => .error .freed
    | some cells =>
      if 0 ≤ k ∧ k < cells.length then
        .ok { s with heap := Function.update s.heap a (some (cells.set k.toNat value)) }
      else .error .outside

variable (n : ℕ) (value : ι → Int32)

/-- One step of the thread `t`, with what `realloc` answers if that is the step. The
events are the loads and stores of `a->size++`. -/
def advance (s : State ι) (t : ι) (answer : Answer) : State ι × List (Race.Event ι) :=
  match s.pc t with
  | .test i => (s.goto t (if i < n then .size i else .done), [])
  | .size i => (s.goto t (.capacity i s.size), [])
  | .capacity i size => (s.goto t (if size = s.capacity then .double i else .data i), [])
  | .double i =>
    if IsInt (s.capacity * 2) then (s.goto t (.setCapacity i (s.capacity * 2)), [])
    else (s.fail .overflow, [])
  | .setCapacity i doubled => ({ s with capacity := doubled }.goto t (.old i), [])
  | .old i => (s.goto t (.realloc i s.data), [])
  | .realloc i old =>
    match s.realloc old s.capacity.toNat answer with
    | .ok (s', data) => (s'.goto t (.setData i data), [])
    | .error f => (s.fail f, [])
  | .setData i data => ({ s with data := data }.goto t (.data i), [])
  | .data i => (s.goto t (.index i s.data), [])
  | .index i data => (s.goto t (.write i data s.size), [])
  | .write i data k =>
    match s.write data k (value t) with
    | .ok s' => (s'.goto t (.load i), [])
    | .error f => (s.fail f, [])
  | .load i => (s.goto t (.add i s.size), [.loaded t])
  | .add i loaded =>
    if IsInt (loaded + 1) then (s.goto t (.store i (loaded + 1)), [])
    else (s.fail .overflow, [])
  | .store i sum => ({ s with size := sum }.goto t (.test (i + 1)), [.stored t])
  | .done => (s, [])

def step (s : State ι) (input : ι × Answer) : State ι × List (Race.Event ι) :=
  match s.fault with
  | some _ => (s, [])
  | none => advance n value s input.1 input.2

/-- After `main` has made the array. -/
def start (addr : ℕ) (fresh : ℕ → Int32) : State ι where
  pc := fun _ => .test 0
  data := some addr
  size := 0
  capacity := 4
  heap := Function.update (fun _ => none) addr (some (List.ofFn fun i : Fin 4 => fresh i))
  fault := none

end Step

/-! ## Only the size -/

/-- A push is an increment of `size` with much before it. -/
def position : Pc → Race.Pc
  | .test i => .test i
  | .size i | .capacity i _ | .double i | .setCapacity i _ | .old i | .realloc i _
  | .setData i _ | .data i | .index i _ | .write i _ _ | .load i => .load i
  | .add i loaded => .add i loaded
  | .store i sum => .store i sum
  | .done => .done

section Refinement
variable {ι : Type*} [DecidableEq ι] {n : ℕ} {value : ι → Int32} {s s' : State ι} {t : ι}

def sizes (s : State ι) : Race.State ι := ⟨fun t => position (s.pc t), s.size⟩

/-- A thread that goes on within its push. -/
theorem sizes_goto (pc : Pc) : sizes (s.goto t pc) = (sizes s).goto t (position pc) := by
  simp only [sizes, State.goto, Race.State.goto, Race.State.mk.injEq, and_true]
  funext t'
  by_cases ht : t' = t
  · subst ht
    simp
  · simp [ht]

theorem sizes_goto_self {pc : Pc} (h : position (s.pc t) = position pc) :
    sizes (s.goto t pc) = sizes s := by
  rw [sizes_goto, Race.State.goto, ← h]
  simp [sizes]

omit [DecidableEq ι] in
theorem sizes_realloc {old data : Option ℕ} {k : ℕ} {answer : Answer}
    (h : s.realloc old k answer = .ok (s', data)) : s'.pc = s.pc ∧ s'.size = s.size := by
  unfold State.realloc at h
  split at h
  · split at h <;> cases h <;> exact ⟨rfl, rfl⟩
  · split at h
    · cases h
    · split at h <;> cases h <;> exact ⟨rfl, rfl⟩

omit [DecidableEq ι] in
theorem sizes_write {data : Option ℕ} {k : ℤ} {v : Int32} (h : s.write data k v = .ok s') :
    s'.pc = s.pc ∧ s'.size = s.size := by
  unfold State.write at h
  split at h
  · cases h
  · split at h
    · cases h
    · split at h <;> cases h
      exact ⟨rfl, rfl⟩

omit [DecidableEq ι] in
theorem sizes_congr (hpc : s'.pc = s.pc) (hsize : s'.size = s.size) : sizes s' = sizes s := by
  simp only [sizes, hpc, hsize]

theorem step_running (h : s.fault = none) (t : ι) (answer : Answer) :
    step n value s (t, answer) = advance n value s t answer := by
  rw [step, h]

/-- Of what a thread does, only the loads and stores of `size++` and the turns of the
loop are steps of `increment`. -/
theorem step_sizes (s : State ι) (input : ι × Answer) :
    sizes (step n value s input).1 = sizes s ∧
        (step n value s input).2.filterMap some = [] ∨
      ∃ t, sizes (step n value s input).1 = (Race.step n (sizes s) t).1 ∧
        (step n value s input).2.filterMap some =
          (Race.step n (sizes s) t).2.filterMap some := by
  obtain ⟨t, answer⟩ := input
  have hpos : (sizes s).pc t = position (s.pc t) := rfl
  cases hfault : s.fault with
  | some f => exact .inl (by simp [step, hfault])
  | none =>
    rw [step_running hfault]
    cases hpc : s.pc t with
    | test i =>
      rw [hpc] at hpos
      refine .inr ⟨t, ?_⟩
      simp only [advance, hpc, Race.step, hpos, position, sizes_goto]
      refine ⟨?_, trivial⟩
      split_ifs <;> rfl
    | size i =>
      left
      simp only [advance, hpc]
      exact ⟨sizes_goto_self (by rw [hpc]; rfl), rfl⟩
    | capacity i size =>
      left
      simp only [advance, hpc]
      refine ⟨sizes_goto_self ?_, rfl⟩
      rw [hpc]
      split_ifs <;> rfl
    | double i =>
      left
      simp only [advance, hpc]
      split_ifs
      · exact ⟨sizes_goto_self (by rw [hpc]; rfl), rfl⟩
      · exact ⟨rfl, rfl⟩
    | setCapacity i doubled =>
      left
      simp only [advance, hpc]
      refine ⟨?_, rfl⟩
      rw [sizes_goto_self (by rw [hpc]; rfl)]
      rfl
    | old i =>
      left
      simp only [advance, hpc]
      exact ⟨sizes_goto_self (by rw [hpc]; rfl), rfl⟩
    | realloc i old =>
      left
      simp only [advance, hpc]
      cases hrealloc : s.realloc old s.capacity.toNat answer with
      | error f => exact ⟨rfl, rfl⟩
      | ok result =>
        obtain ⟨hpc', hsize⟩ := sizes_realloc hrealloc
        refine ⟨?_, rfl⟩
        rw [sizes_goto_self (by rw [hpc', hpc]; rfl), sizes_congr hpc' hsize]
    | setData i data =>
      left
      simp only [advance, hpc]
      refine ⟨?_, rfl⟩
      rw [sizes_goto_self (by rw [hpc]; rfl)]
      rfl
    | data i =>
      left
      simp only [advance, hpc]
      exact ⟨sizes_goto_self (by rw [hpc]; rfl), rfl⟩
    | index i data =>
      left
      simp only [advance, hpc]
      exact ⟨sizes_goto_self (by rw [hpc]; rfl), rfl⟩
    | write i data k =>
      left
      simp only [advance, hpc]
      cases hwrite : s.write data k (value t) with
      | error f => exact ⟨rfl, rfl⟩
      | ok s' =>
        obtain ⟨hpc', hsize⟩ := sizes_write hwrite
        refine ⟨?_, rfl⟩
        rw [sizes_goto_self (by rw [hpc', hpc]; rfl), sizes_congr hpc' hsize]
    | load i =>
      rw [hpc] at hpos
      refine .inr ⟨t, ?_⟩
      simp only [advance, hpc, Race.step, hpos, position, sizes_goto]
      exact ⟨rfl, trivial⟩
    | add i loaded =>
      rw [hpc] at hpos
      simp only [advance, hpc]
      split_ifs
      · refine .inr ⟨t, ?_⟩
        simp only [Race.step, hpos, position, sizes_goto]
        exact ⟨trivial, trivial⟩
      · exact .inl ⟨rfl, rfl⟩
    | store i sum =>
      rw [hpc] at hpos
      refine .inr ⟨t, ?_⟩
      simp only [advance, hpc, Race.step, hpos, position, sizes_goto]
      exact ⟨rfl, trivial⟩
    | done => exact .inl (by simp [advance, hpc])

variable (n value) in
/-- What the pushes of any threads do to `size` is a run of `increment` in as many
threads, with the same loads and stores. -/
theorem exists_race (addr : ℕ) (fresh : ℕ → Int32) (inputs : List (ι × Answer)) :
    ∃ schedule, sizes (exec (step n value) (start addr fresh) inputs) =
        exec (Race.step n) Race.start schedule ∧
      trace (step n value) (start addr fresh) inputs =
        trace (Race.step n) Race.start schedule := by
  have himage := exists_image some some (@step_sizes ι _ n value) (start addr fresh) inputs
  simp only [List.filterMap_some] at himage
  exact himage

end Refinement

/-- Whatever the order of the steps and the answers of `realloc`, `size` never exceeds
the pushes that have stored it, and equals them if and only if no thread stored it
between the load and the store of another. If both threads come to the end of their
loops, it lies between 2 (`n` if that is less) and twice `n`, and it is twice `n` only
if they stayed apart. -/
theorem worker_size (n : ℕ) (value : Race.Thread → Int32) (addr : ℕ) (fresh : ℕ → Int32)
    (inputs : List (Race.Thread × Answer)) :
    let s := exec (step n value) (start addr fresh) inputs
    let log := trace (step n value) (start addr fresh) inputs
    s.size ≤ Race.stores log ∧ (s.size = Race.stores log ↔ Race.Apart log) ∧
      ((∀ t, s.pc t = .done) →
        ((min n 2 : ℕ) : ℤ) ≤ s.size ∧ s.size ≤ 2 * n ∧ (s.size = 2 * n ↔ Race.Apart log)) := by
  intro s log
  obtain ⟨schedule, hstate, htrace⟩ := exists_race n value addr fresh inputs
  have hinv : Race.Inv (sizes s) log := by
    rw [hstate, show log = _ from htrace]
    exact Race.inv_run schedule
  have hcount : s.size ≤ Race.stores log ∧ (s.size = Race.stores log ↔ Race.Apart log) := by
    by_cases hapart : Race.Apart log
    · have heq : s.size = Race.stores log := (hinv.apart hapart).1
      exact ⟨heq.le, iff_of_true heq hapart⟩
    · have hlt : s.size < Race.stores log := (hinv.behind hapart).1
      exact ⟨hlt.le, iff_of_false hlt.ne hapart⟩
  refine ⟨hcount.1, hcount.2, fun hdone => ?_⟩
  have hdone' : ∀ t, (exec (Race.step n) Race.start schedule).pc t = .done := fun t => by
    rw [← hstate]
    show position (s.pc t) = .done
    rw [hdone t]
    rfl
  have hstores : Race.stores log = 2 * n := by
    rw [show log = _ from htrace]
    exact Race.stores_of_done hdone'
  have hlast : ((min n 2 : ℕ) : ℤ) ≤ s.size := by
    have hkept := (Race.kept_run (n := n) schedule).last fun t => by rw [hdone' t]; rfl
    rw [← hstate] at hkept
    exact hkept
  have htotal : (Race.stores log : ℤ) = 2 * n := by
    rw [hstores, Nat.cast_mul, Nat.cast_ofNat]
  rw [htotal] at hcount
  exact ⟨hlast, hcount⟩

/-! ## Pushes that nobody interrupts -/

section Alone
variable {ι : Type*} [DecidableEq ι] {n : ℕ} {value : ι → Int32} {Ok : Answer → Prop}
  {s s' : State ι} {t : ι} {a a₁ : DynArray} {b : Block} {v : Int32} {answer : Answer}

/-- The thread is not inside `arr_push`. -/
def Pc.Between : Pc → Prop
  | .test _ | .done => True
  | .size _ | .capacity _ _ | .double _ | .setCapacity _ _ | .old _ | .realloc _ _
  | .setData _ _ | .data _ | .index _ _ | .write _ _ _ | .load _ | .add _ _ | .store _ _ => False

instance (pc : Pc) : Decidable pc.Between := by
  cases pc <;> unfold Pc.Between <;> infer_instance

/-- While a thread pushes, no other does. -/
def Alone (s : State ι) (input : ι × Answer) : Prop := ∀ t, t ≠ input.1 → (s.pc t).Between

instance [Fintype ι] (s : State ι) (input : ι × Answer) : Decidable (Alone s input) :=
  inferInstanceAs (Decidable (∀ _, _))

/-- The fields and the block that `data` points to are those of `a`. -/
structure Agrees (s : State ι) (a : DynArray) : Prop where
  data : s.data = a.data.map Block.addr
  block : ∀ b, a.data = some b → s.heap b.addr = some b.cells
  size : s.size = a.size
  capacity : s.capacity = a.capacity

/-- `arr_push` up to the store of the value. -/
def ready (a : DynArray) (answer : Answer) : Except ArrPush.Fault DynArray :=
  if a.size = a.capacity then grow a answer else .ok a

theorem arrPush_eq (a : DynArray) (v : Int32) (answer : Answer) :
    arrPush a v answer = ready a answer >>= fun a₁ => put a₁ v := by
  unfold arrPush ready
  split <;> rfl

/-- What a thread that stands at a place of its push of `v` has made of the array `a`,
where the answers are such that `Ok`. -/
def Pushing (Ok : Answer → Prop) (s : State ι) (a : DynArray) (v : Int32) : Pc → Prop
  | .test _ | .size _ | .done => Agrees s a
  | .capacity _ size => Agrees s a ∧ size = a.size
  | .double _ => Agrees s a ∧ a.size = a.capacity
  | .setCapacity _ doubled =>
    Agrees s a ∧ a.size = a.capacity ∧ doubled = a.capacity * 2 ∧ IsInt doubled
  | .old _ =>
    Agrees s { a with capacity := a.capacity * 2 } ∧ a.size = a.capacity ∧ IsInt (a.capacity * 2)
  | .realloc _ old =>
    Agrees s { a with capacity := a.capacity * 2 } ∧ a.size = a.capacity ∧
      IsInt (a.capacity * 2) ∧ old = s.data
  | .setData _ data =>
    ∃ answer a₁, Ok answer ∧ ready a answer = .ok a₁ ∧ Agrees { s with data := data } a₁
  | .data _ => ∃ answer a₁, Ok answer ∧ ready a answer = .ok a₁ ∧ Agrees s a₁
  | .index _ data =>
    ∃ answer a₁, Ok answer ∧ ready a answer = .ok a₁ ∧ Agrees s a₁ ∧ data = s.data
  | .write _ data k =>
    ∃ answer a₁, Ok answer ∧ ready a answer = .ok a₁ ∧ Agrees s a₁ ∧ data = s.data ∧ k = s.size
  | .load _ =>
    ∃ answer a₁ b, Ok answer ∧ ready a answer = .ok a₁ ∧ store a₁.data a₁.size v = .ok b ∧
      Agrees s { a₁ with data := some b }
  | .add _ loaded =>
    ∃ answer a₁ b, Ok answer ∧ ready a answer = .ok a₁ ∧ store a₁.data a₁.size v = .ok b ∧
      Agrees s { a₁ with data := some b } ∧ loaded = s.size
  | .store _ sum =>
    ∃ answer a', Ok answer ∧ arrPush a v answer = .ok a' ∧ Agrees { s with size := sum } a'

/-- The push of `v` into `a` would be a fault as well if it were one step. -/
def Broken (Ok : Answer → Prop) (a : DynArray) (v : Int32) : Prop :=
  ∃ answer f, Ok answer ∧ arrPush a v answer = .error f

omit [DecidableEq ι] in
theorem pushing_between {pc : Pc} (h : pc.Between) : Pushing Ok s a v pc ↔ Agrees s a := by
  cases pc with
  | test i => exact Iff.rfl
  | done => exact Iff.rfl
  | _ => exact h.elim

theorem Agrees.goto (h : Agrees s a) (t : ι) (pc : Pc) : Agrees (s.goto t pc) a :=
  ⟨h.data, h.block, h.size, h.capacity⟩

theorem goto_pc (s : State ι) (t : ι) (pc : Pc) : (s.goto t pc).pc t = pc := by
  simp [State.goto]

omit [DecidableEq ι] in
/-- `realloc` of the block that `data` points to. -/
theorem agrees_realloc (h : Agrees s a) (n : ℕ) (answer : Answer) :
    ∃ s', s.realloc s.data n answer = .ok (s', (realloc a.data n answer).map Block.addr) ∧
      s'.fault = s.fault ∧
      Agrees { s' with data := (realloc a.data n answer).map Block.addr }
        { a with data := realloc a.data n answer } := by
  rw [h.data]
  cases hdata : a.data with
  | none =>
    cases answer with
    | none => exact ⟨s, rfl, rfl, rfl, fun _ hb => (nomatch hb), h.size, h.capacity⟩
    | some fresh =>
      refine ⟨_, rfl, rfl, rfl, ?_, h.size, h.capacity⟩
      rintro b hb
      cases hb
      simp
  | some old =>
    have hblock := h.block old hdata
    rw [Option.map_some, State.realloc, hblock]
    cases answer with
    | none => exact ⟨s, rfl, rfl, rfl, fun _ hb => (nomatch hb), h.size, h.capacity⟩
    | some fresh =>
      refine ⟨_, rfl, rfl, rfl, ?_, h.size, h.capacity⟩
      rintro b hb
      cases hb
      simp

omit [DecidableEq ι] in
theorem agrees_write (h : Agrees s a) (hstore : store a.data a.size v = .ok b) :
    ∃ s', s.write s.data s.size v = .ok s' ∧ s'.fault = s.fault ∧
      Agrees s' { a with data := some b } := by
  have hdata' := h.data
  rw [h.size, h.data]
  cases hdata : a.data with
  | none =>
    rw [hdata] at hstore
    cases hstore
  | some old =>
    have hblock := h.block old hdata
    rw [hdata, store] at hstore
    rw [hdata] at hdata'
    split_ifs at hstore with hinside
    cases hstore
    rw [Option.map_some, State.write, hblock]
    simp only [if_pos hinside]
    refine ⟨_, rfl, rfl, hdata', ?_, h.size, h.capacity⟩
    rintro b hb
    cases hb
    simp

omit [DecidableEq ι] in
theorem write_fault {f : ArrPush.Fault} (h : Agrees s a)
    (hstore : store a.data a.size v = .error f) : ∃ f', s.write s.data s.size v = .error f' := by
  rw [h.size, h.data]
  cases hdata : a.data with
  | none => exact ⟨.null, rfl⟩
  | some old =>
    have hblock := h.block old hdata
    rw [hdata, store] at hstore
    split_ifs at hstore with hinside
    rw [Option.map_some, State.write, hblock]
    exact ⟨.outside, if_neg hinside⟩

/-- What one step of a thread does to its push: it goes on, or it completes it. -/
theorem step_pushing (hfault : s.fault = none) (h : Pushing Ok s a (value t) (s.pc t))
    (hok : Ok answer) :
    let s' := (step n value s (t, answer)).1
    let events := (step n value s (t, answer)).2
    events.filterMap Exclusion.stored = [] ∧
        (s'.fault = none ∧ Pushing Ok s' a (value t) (s'.pc t) ∨
          s'.fault ≠ none ∧ Broken Ok a (value t)) ∨
      events.filterMap Exclusion.stored = [t] ∧ s'.fault = none ∧ (s'.pc t).Between ∧
        ∃ answer a', Ok answer ∧ arrPush a (value t) answer = .ok a' ∧ Agrees s' a' := by
  intro s' events
  cases hpc : s.pc t with
  | test i =>
    rw [hpc] at h
    simp only [s', events, step_running hfault, advance, hpc, goto_pc]
    refine .inl ⟨rfl, .inl ⟨hfault, ?_⟩⟩
    split_ifs <;> exact h.goto t _
  | size i =>
    rw [hpc] at h
    simp only [s', events, step_running hfault, advance, hpc, goto_pc]
    exact .inl ⟨rfl, .inl ⟨hfault, h.goto t _, h.size⟩⟩
  | capacity i size =>
    rw [hpc] at h
    obtain ⟨hagrees, rfl⟩ := h
    simp only [s', events, step_running hfault, advance, hpc, goto_pc, hagrees.capacity]
    refine .inl ⟨rfl, .inl ⟨hfault, ?_⟩⟩
    by_cases hfull : a.size = a.capacity
    · rw [if_pos hfull]
      exact ⟨hagrees.goto t _, hfull⟩
    · rw [if_neg hfull]
      exact ⟨answer, a, hok, if_neg hfull, hagrees.goto t _⟩
  | double i =>
    rw [hpc] at h
    obtain ⟨hagrees, hfull⟩ := h
    simp only [s', events, step_running hfault, advance, hpc, hagrees.capacity]
    by_cases hint : IsInt (a.capacity * 2)
    · rw [if_pos hint]
      simp only [goto_pc]
      exact .inl ⟨rfl, .inl ⟨hfault, hagrees.goto t _, hfull, rfl, hint⟩⟩
    · rw [if_neg hint]
      refine .inl ⟨rfl, .inr ⟨by simp [State.fail], answer, .overflow, hok, ?_⟩⟩
      rw [arrPush_eq, ready, if_pos hfull, grow, checked_of_not_isInt hint]
      rfl
  | setCapacity i doubled =>
    rw [hpc] at h
    obtain ⟨hagrees, hfull, rfl, hint⟩ := h
    simp only [s', events, step_running hfault, advance, hpc, goto_pc]
    refine .inl ⟨rfl, .inl ⟨hfault, ?_, hfull, hint⟩⟩
    exact ⟨hagrees.data, hagrees.block, hagrees.size, rfl⟩
  | old i =>
    rw [hpc] at h
    obtain ⟨hagrees, hfull, hint⟩ := h
    simp only [s', events, step_running hfault, advance, hpc, goto_pc]
    exact .inl ⟨rfl, .inl ⟨hfault, hagrees.goto t _, hfull, hint, rfl⟩⟩
  | realloc i old =>
    rw [hpc] at h
    obtain ⟨hagrees, hfull, hint, rfl⟩ := h
    obtain ⟨s₁, hrealloc, hfault₁, hagrees₁⟩ := agrees_realloc hagrees s.capacity.toNat answer
    simp only [s', events, step_running hfault, advance, hpc, hrealloc, goto_pc]
    refine .inl ⟨rfl, .inl ⟨hfault₁.trans hfault, answer, _, hok, ?_, hagrees₁.goto t _⟩⟩
    rw [ready, if_pos hfull, grow, checked_of_isInt hint, hagrees.capacity]
    rfl
  | setData i data =>
    rw [hpc] at h
    obtain ⟨answer', a₁, hok', hready, hagrees⟩ := h
    simp only [s', events, step_running hfault, advance, hpc, goto_pc]
    exact .inl ⟨rfl, .inl ⟨hfault, answer', a₁, hok', hready, hagrees.goto t _⟩⟩
  | data i =>
    rw [hpc] at h
    obtain ⟨answer', a₁, hok', hready, hagrees⟩ := h
    simp only [s', events, step_running hfault, advance, hpc, goto_pc]
    exact .inl ⟨rfl, .inl ⟨hfault, answer', a₁, hok', hready, hagrees.goto t _, rfl⟩⟩
  | index i data =>
    rw [hpc] at h
    obtain ⟨answer', a₁, hok', hready, hagrees, rfl⟩ := h
    simp only [s', events, step_running hfault, advance, hpc, goto_pc]
    exact .inl ⟨rfl, .inl ⟨hfault, answer', a₁, hok', hready, hagrees.goto t _, rfl, rfl⟩⟩
  | write i data k =>
    rw [hpc] at h
    obtain ⟨answer', a₁, hok', hready, hagrees, rfl, rfl⟩ := h
    cases hstore : store a₁.data a₁.size (value t) with
    | error f =>
      obtain ⟨f', hwrite⟩ := write_fault hagrees hstore
      simp only [s', events, step_running hfault, advance, hpc, hwrite]
      refine .inl ⟨rfl, .inr ⟨by simp [State.fail], answer', f, hok', ?_⟩⟩
      rw [arrPush_eq, hready]
      simp only [put, hstore, bind, Except.bind]
    | ok b =>
      obtain ⟨s₁, hwrite, hfault₁, hagrees₁⟩ := agrees_write hagrees hstore
      simp only [s', events, step_running hfault, advance, hpc, hwrite, goto_pc]
      exact .inl ⟨rfl, .inl ⟨hfault₁.trans hfault, answer', a₁, b, hok', hready, hstore,
        hagrees₁.goto t _⟩⟩
  | load i =>
    rw [hpc] at h
    obtain ⟨answer', a₁, b, hok', hready, hstore, hagrees⟩ := h
    simp only [s', events, step_running hfault, advance, hpc, goto_pc]
    exact .inl ⟨rfl, .inl ⟨hfault, answer', a₁, b, hok', hready, hstore, hagrees.goto t _, rfl⟩⟩
  | add i loaded =>
    rw [hpc] at h
    obtain ⟨answer', a₁, b, hok', hready, hstore, hagrees, rfl⟩ := h
    have hpush : arrPush a (value t) answer' =
        checked .overflow (a₁.size + 1) >>= fun size => .ok { a₁ with data := some b, size } := by
      rw [arrPush_eq, hready]
      simp only [put, hstore, bind, Except.bind, pure, Except.pure]
    simp only [s', events, step_running hfault, advance, hpc, hagrees.size]
    by_cases hint : IsInt (a₁.size + 1)
    · rw [if_pos hint]
      simp only [goto_pc]
      rw [checked_of_isInt hint] at hpush
      refine .inl ⟨rfl, .inl ⟨hfault, answer', _, hok', hpush, ?_⟩⟩
      exact ⟨hagrees.data, hagrees.block, rfl, hagrees.capacity⟩
    · rw [if_neg hint]
      rw [checked_of_not_isInt hint] at hpush
      exact .inl ⟨rfl, .inr ⟨by simp [State.fail], answer', _, hok', hpush⟩⟩
  | store i sum =>
    rw [hpc] at h
    obtain ⟨answer', a', hok', hpush, hagrees⟩ := h
    simp only [s', events, step_running hfault, advance, hpc, goto_pc]
    exact .inr ⟨rfl, hfault, trivial, answer', a', hok', hpush, hagrees.goto t _⟩
  | done =>
    rw [hpc] at h
    simp only [s', events, step_running hfault, advance, hpc]
    exact .inl ⟨rfl, .inl ⟨hfault, h⟩⟩

/-- The pushes one after the other, each as one step. -/
def pushAll (value : ι → Int32) (a : DynArray) (pushes : List (ι × Answer)) :
    Except ArrPush.Fault DynArray :=
  pushes.foldlM (fun a p => arrPush a (value p.1) p.2) a

/-- The stores of `size` so far are those of whole pushes that have made the array `a`;
the thread that is not between pushes, if there is one, is on its way from there. -/
structure Serial (value : ι → Int32) (Ok : Answer → Prop) (a₀ : DynArray) (s : State ι)
    (log : List (Race.Event ι)) (pushes : List (ι × Answer)) (a : DynArray) : Prop where
  threads : pushes.map Prod.fst = log.filterMap Exclusion.stored
  ok : ∀ p ∈ pushes, Ok p.2
  pushed : pushAll value a₀ pushes = .ok a
  current : s.fault = none → ∀ t, (∀ t', t' ≠ t → (s.pc t').Between) →
    Pushing Ok s a (value t) (s.pc t)
  broken : s.fault ≠ none → ∃ t, Broken Ok a (value t)

theorem goto_pc_of_ne {t' : ι} (h : t' ≠ t) (pc : Pc) : (s.goto t pc).pc t' = s.pc t' := by
  simp [State.goto, h]

theorem pc_step_of_ne {t' : ι} (h : t' ≠ t) :
    ((step n value s (t, answer)).1).pc t' = s.pc t' := by
  cases hfault : s.fault with
  | some f => rw [step, hfault]
  | none =>
    rw [step_running hfault]
    cases hpc : s.pc t with
    | double i =>
      simp only [advance, hpc]
      split_ifs
      · exact goto_pc_of_ne h _
      · rfl
    | realloc i old =>
      simp only [advance, hpc]
      cases hrealloc : s.realloc old s.capacity.toNat answer with
      | error f => rfl
      | ok result => exact (goto_pc_of_ne h _).trans (by rw [(sizes_realloc hrealloc).1])
    | write i data k =>
      simp only [advance, hpc]
      cases hwrite : s.write data k (value t) with
      | error f => rfl
      | ok s' => exact (goto_pc_of_ne h _).trans (by rw [(sizes_write hwrite).1])
    | add i loaded =>
      simp only [advance, hpc]
      split_ifs
      · exact goto_pc_of_ne h _
      · rfl
    | done => simp only [advance, hpc]
    | _ =>
      simp only [advance, hpc]
      exact goto_pc_of_ne h _

omit [DecidableEq ι] in
theorem serial_start (addr : ℕ) (fresh : ℕ → Int32) :
    Serial value Ok (ArrPush.start addr fresh) (start addr fresh) [] []
      (ArrPush.start addr fresh) where
  threads := rfl
  ok := fun _ hp => nomatch hp
  pushed := rfl
  current := fun _ t _ => by
    refine ⟨rfl, fun b hb => ?_, rfl, rfl⟩
    cases hb
    simp [start]
  broken := fun h => absurd rfl h

theorem serial_step {a₀ : DynArray} {log : List (Race.Event ι)} {pushes : List (ι × Answer)}
    {input : ι × Answer} (h : Serial value Ok a₀ s log pushes a) (halone : Alone s input)
    (hok : Ok input.2) : ∃ pushes' a', Serial value Ok a₀ (step n value s input).1
      (log ++ (step n value s input).2) pushes' a' := by
  obtain ⟨t, answer⟩ := input
  -- whoever else stands between pushes stays there
  have hothers : ∀ t', t' ≠ t → ((step n value s (t, answer)).1.pc t').Between := fun t' ht => by
    rw [pc_step_of_ne ht]
    exact halone t' ht
  cases hfault : s.fault with
  | some f =>
    have hstay : step n value s (t, answer) = (s, []) := by
      rw [step, hfault]
    rw [hstay, List.append_nil]
    exact ⟨pushes, a, h⟩
  | none =>
    rcases step_pushing (n := n) hfault (h.current hfault t halone) hok with
      ⟨hevents, hafter⟩ | ⟨hevents, hfault', hbetween, answer', a', hok', hpush, hagrees⟩
    · refine ⟨pushes, a, ⟨?_, h.ok, h.pushed, fun hrunning t' ht' => ?_, fun hstopped => ?_⟩⟩
      · rw [List.filterMap_append, hevents, List.append_nil, h.threads]
      · have hpushing := (hafter.resolve_right fun hbroken => hbroken.1 hrunning).2
        by_cases ht : t' = t
        · subst ht
          exact hpushing
        · exact (pushing_between (hothers t' ht)).2
            ((pushing_between (ht' t (Ne.symm ht))).1 hpushing)
      · exact ⟨t, (hafter.resolve_left fun hpushing => hstopped hpushing.1).2⟩
    · refine ⟨pushes ++ [(t, answer')], a', ⟨?_, ?_, ?_, fun _ t' ht' => ?_, fun hstopped => ?_⟩⟩
      · rw [List.filterMap_append, hevents, List.map_append, h.threads]
        rfl
      · intro p hp
        rcases List.mem_append.1 hp with hp | hp
        · exact h.ok p hp
        · rw [List.mem_singleton.1 hp]
          exact hok'
      · have hpushed := h.pushed
        simp only [pushAll] at hpushed ⊢
        rw [List.foldlM_append, hpushed]
        simp only [List.foldlM_cons, List.foldlM_nil, hpush, bind, Except.bind, pure, Except.pure]
      · by_cases ht : t' = t
        · subst ht
          exact (pushing_between hbetween).2 hagrees
        · exact (pushing_between (hothers t' ht)).2 hagrees
      · exact absurd hfault' hstopped

omit [DecidableEq ι] in
theorem exec_of_pushAll {pushes : List (ι × Answer)} {a a' : DynArray}
    (h : pushAll value a pushes = .ok a') :
    exec ArrPush.step a (pushes.map fun p => ⟨value p.1, p.2⟩) = a' := by
  induction pushes generalizing a with
  | nil => exact Except.ok.inj h
  | cons p pushes ih =>
    rw [pushAll, List.foldlM_cons] at h
    cases hpush : arrPush a (value p.1) p.2 with
    | error f =>
      rw [hpush] at h
      cases h
    | ok a₁ =>
      rw [hpush] at h
      rw [List.map_cons, exec_cons, ArrPush.step, hpush]
      exact ih h

omit [DecidableEq ι] in
/-- The array of whole pushes with memory: it holds their values, and takes one more. -/
theorem represents_pushAll {addr : ℕ} {fresh : ℕ → Int32} {pushes : List (ι × Answer)}
    (h : pushAll value (ArrPush.start addr fresh) pushes = .ok a)
    (hmem : ∀ p ∈ pushes, p.2 ≠ none) (hshort : pushes.length < 2 ^ 30) :
    ArrPush.Represents a (pushes.map fun p => value p.1) ∧
      ∀ v answer, answer ≠ none → ∃ a', arrPush a v answer = .ok a' := by
  have hstart := ArrPush.represents_start addr fresh
  have hroomy : Along ArrPush.step ArrPush.Roomy (ArrPush.start addr fresh)
      (pushes.map fun p => ⟨value p.1, p.2⟩) := by
    refine ArrPush.roomy_of_short hstart (by simpa using hshort) fun p hp => ?_
    obtain ⟨q, hq, rfl⟩ := List.mem_map.1 hp
    exact hmem q hq
  have hrep := (ArrPush.represents_run hstart hroomy).1
  rw [exec_of_pushAll h, List.nil_append, List.map_map] at hrep
  refine ⟨hrep, fun v answer hanswer => ?_⟩
  have hsize := hrep.holds.size
  rw [List.length_map] at hsize
  have hnext : ArrPush.Roomy a ⟨v, answer⟩ := fun hfull => ⟨hanswer, by omega⟩
  obtain ⟨a', hpush, -⟩ := ArrPush.represents_push hrep hnext
  exact ⟨a', hpush⟩

/-- As long as no push is interrupted and `realloc` never fails, fewer than `2 ^ 30`
pushes of any number of threads come to no fault, and whenever nobody is pushing, the
array holds the value of every push, in the order in which `size` was stored. -/
theorem worker_alone [Nonempty ι] (n : ℕ) (value : ι → Int32) (addr : ℕ) (fresh : ℕ → Int32)
    (inputs : List (ι × Answer)) (halone : Along (step n value) Alone (start addr fresh) inputs)
    (hmem : ∀ input ∈ inputs, input.2 ≠ none) :
    let s := exec (step n value) (start addr fresh) inputs
    let pushed := (trace (step n value) (start addr fresh) inputs).filterMap Exclusion.stored
    pushed.length < 2 ^ 30 → s.fault = none ∧ ((∀ t, (s.pc t).Between) →
      s.size = pushed.length ∧ ∃ a cells, s.data = some a ∧ s.heap a = some cells ∧
        cells.take pushed.length = pushed.map value) := by
  intro s pushed hshort
  have hallowed : Along (step n value) (fun s input => Alone s input ∧ input.2 ≠ none)
      (start addr fresh) inputs := (along_and _ _).2 ⟨halone, along_of_forall_mem hmem⟩
  obtain ⟨pushes, a, h⟩ := invariant_trace_along
    (fun s log => ∃ pushes a, Serial value (· ≠ none) (ArrPush.start addr fresh) s log pushes a)
    (fun _ _ _ ⟨_, _, h⟩ hp => serial_step h hp.1 hp.2) ⟨[], _, serial_start addr fresh⟩ hallowed
  have hthreads : pushes.map Prod.fst = pushed := h.threads
  have hlen : pushes.length = pushed.length := by
    rw [← hthreads, List.length_map]
  have hvalues : pushes.map (fun p => value p.1) = pushed.map value := by
    rw [← hthreads, List.map_map]
    rfl
  obtain ⟨hrep, hnext⟩ := represents_pushAll h.pushed h.ok (by rwa [hlen])
  rw [hvalues] at hrep
  have hrunning : s.fault = none := by
    by_contra hfault
    obtain ⟨t, answer, f, hanswer, hpush⟩ := h.broken hfault
    obtain ⟨a', hpush'⟩ := hnext (value t) answer hanswer
    rw [hpush'] at hpush
    cases hpush
  refine ⟨hrunning, fun hbetween => ?_⟩
  have hagrees : Agrees s a :=
    (pushing_between (hbetween _)).1
      (h.current hrunning (Classical.arbitrary ι) fun t _ => hbetween t)
  obtain ⟨b, hdata, hcells, -⟩ := hrep.holds.block
  have hsize := hrep.holds.size
  rw [List.length_map] at hsize
  refine ⟨hagrees.size.trans hsize, b.addr, b.cells, ?_, hagrees.block b hdata, ?_⟩
  · rw [hagrees.data, hdata, Option.map_some]
  · have htake := List.prefix_iff_eq_take.1 hcells
    rw [List.length_map] at htake
    exact htake.symm

/-- One push of `0` and then one of `1`. -/
theorem worker_alone_two :
    let inputs : List (Bool × Answer) :=
      List.replicate 10 (false, some (8, fun _ => 7)) ++
        List.replicate 10 (true, some (8, fun _ => 7))
    let s := exec (step 1 fun t => if t then 1 else 0) (start 4 fun _ => 7) inputs
    s.size = 2 ∧ ∃ a cells, s.data = some a ∧ s.heap a = some cells ∧ cells.take 2 = [0, 1] := by
  intro inputs s
  have hpushed : (trace (step 1 fun t => if t then 1 else 0) (start 4 fun _ => 7)
      inputs).filterMap Exclusion.stored = [false, true] := by decide +kernel
  have hwhole := worker_alone 1 (fun t => if t then 1 else 0) 4 (fun _ => 7) inputs
    (by decide +kernel) (by decide +kernel)
  rw [hpushed] at hwhole
  exact (hwhole (by decide)).2 (by decide +kernel)

end Alone

end AcademyLab.Workers
