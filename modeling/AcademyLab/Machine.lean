import Mathlib.Data.List.Basic
import Mathlib.Tactic.Tauto

/-!
# Runs of deterministic machines

A machine reads one input at a time and emits a finite block of events. The
inputs carry every choice of the surroundings, so a run is a list of inputs.
Conditions on the surroundings are predicates on the state before a step and
the input of that step, required along the whole run.
-/
namespace AcademyLab.Machine

variable {σ ι ε τ κ : Type*}

/-- The state after a run. -/
def exec (step : σ → ι → σ × List ε) : σ → List ι → σ
  | s, [] => s
  | s, i :: is => exec step (step s i).1 is

/-- The events of a run, in order. -/
def trace (step : σ → ι → σ × List ε) : σ → List ι → List ε
  | _, [] => []
  | s, i :: is => (step s i).2 ++ trace step (step s i).1 is

/-- Every step of the run meets `P` on its state before and its input. -/
def Along (step : σ → ι → σ × List ε) (P : σ → ι → Prop) : σ → List ι → Prop
  | _, [] => True
  | s, i :: is => P s i ∧ Along step P (step s i).1 is

/-- The states that the inputs of a run meet, each with its input. -/
def visits (step : σ → ι → σ × List ε) : σ → List ι → List (σ × ι)
  | _, [] => []
  | s, i :: is => (s, i) :: visits step (step s i).1 is

variable {step : σ → ι → σ × List ε} {P Q : σ → ι → Prop}

instance decidableAlong [∀ s i, Decidable (P s i)] (s : σ) (is : List ι) :
    Decidable (Along step P s is) :=
  match is with
  | [] => isTrue trivial
  | i :: is =>
    have := decidableAlong (step s i).1 is
    inferInstanceAs (Decidable (P s i ∧ Along step P (step s i).1 is))

@[simp] theorem exec_nil (s : σ) : exec step s [] = s := rfl

@[simp] theorem exec_cons (s : σ) (i : ι) (is : List ι) :
    exec step s (i :: is) = exec step (step s i).1 is := rfl

@[simp] theorem trace_nil (s : σ) : trace step s [] = [] := rfl

@[simp] theorem trace_cons (s : σ) (i : ι) (is : List ι) :
    trace step s (i :: is) = (step s i).2 ++ trace step (step s i).1 is := rfl

@[simp] theorem along_nil (s : σ) : Along step P s [] := trivial

@[simp] theorem along_cons (s : σ) (i : ι) (is : List ι) :
    Along step P s (i :: is) ↔ P s i ∧ Along step P (step s i).1 is := Iff.rfl

@[simp] theorem visits_nil (s : σ) : visits step s [] = [] := rfl

@[simp] theorem visits_cons (s : σ) (i : ι) (is : List ι) :
    visits step s (i :: is) = (s, i) :: visits step (step s i).1 is := rfl

theorem exec_append (s : σ) (is js : List ι) :
    exec step s (is ++ js) = exec step (exec step s is) js := by
  induction is generalizing s with
  | nil => rfl
  | cons i is ih => exact ih _

theorem trace_append (s : σ) (is js : List ι) :
    trace step s (is ++ js) = trace step s is ++ trace step (exec step s is) js := by
  induction is generalizing s with
  | nil => rfl
  | cons i is ih => simp [ih]

theorem along_append (s : σ) (is js : List ι) :
    Along step P s (is ++ js) ↔ Along step P s is ∧ Along step P (exec step s is) js := by
  induction is generalizing s with
  | nil => simp
  | cons i is ih => simp [ih, and_assoc]

theorem along_and (s : σ) (is : List ι) : Along step (fun s i => P s i ∧ Q s i) s is ↔
    Along step P s is ∧ Along step Q s is := by
  induction is generalizing s with
  | nil => simp
  | cons i is ih =>
    simp only [along_cons, ih]
    tauto

theorem along_of_forall (h : ∀ s i, P s i) (s : σ) (is : List ι) : Along step P s is := by
  induction is generalizing s with
  | nil => trivial
  | cons i is ih => exact ⟨h s i, ih _⟩

/-- A condition on the inputs alone. -/
theorem along_of_forall_mem {p : ι → Prop} {s : σ} {is : List ι} (h : ∀ i ∈ is, p i) :
    Along step (fun _ i => p i) s is := by
  induction is generalizing s with
  | nil => trivial
  | cons i is ih =>
    exact ⟨h i List.mem_cons_self, ih fun j hj => h j (List.mem_cons_of_mem i hj)⟩

/-- An invariant kept by every allowed step holds after every allowed run. -/
theorem invariant (Inv : σ → Prop) (keep : ∀ s i, Inv s → P s i → Inv (step s i).1)
    {s : σ} (hs : Inv s) {is : List ι} (h : Along step P s is) : Inv (exec step s is) := by
  induction is generalizing s with
  | nil => exact hs
  | cons i is ih => exact ih (keep s i hs h.1) h.2

/-- What follows from an invariant for each allowed step holds along every allowed
run. -/
theorem along_of_invariant (Inv : σ → Prop) (keep : ∀ s i, Inv s → P s i → Inv (step s i).1)
    (good : ∀ s i, Inv s → P s i → Q s i) {s : σ} (hs : Inv s) {is : List ι}
    (h : Along step P s is) : Along step Q s is := by
  induction is generalizing s with
  | nil => trivial
  | cons i is ih => exact ⟨good s i hs h.1, ih (keep s i hs h.1) h.2⟩

/-- An invariant kept by every step at all holds after every run. -/
theorem invariant_exec (Inv : σ → Prop) (keep : ∀ s i, Inv s → Inv (step s i).1) {s : σ}
    (hs : Inv s) (is : List ι) : Inv (exec step s is) := by
  induction is generalizing s with
  | nil => exact hs
  | cons i is ih => exact ih (keep s i hs)

/-- An invariant of a state together with everything that was emitted up to it. -/
theorem invariant_trace (Inv : σ → List ε → Prop)
    (keep : ∀ s i log, Inv s log → Inv (step s i).1 (log ++ (step s i).2)) {s : σ} {log : List ε}
    (hs : Inv s log) (is : List ι) : Inv (exec step s is) (log ++ trace step s is) := by
  induction is generalizing s log with
  | nil => simpa using hs
  | cons i is ih => simpa using ih (keep s i log hs)

/-- The same for a run of allowed steps. -/
theorem invariant_trace_along (Inv : σ → List ε → Prop)
    (keep : ∀ s i log, Inv s log → P s i → Inv (step s i).1 (log ++ (step s i).2)) {s : σ}
    {log : List ε} (hs : Inv s log) {is : List ι} (h : Along step P s is) :
    Inv (exec step s is) (log ++ trace step s is) := by
  induction is generalizing s log with
  | nil => simpa using hs
  | cons i is ih => simpa using ih (keep s i log hs h.1) h.2

/-- Under an invariant, a condition on the steps may be replaced by an
equivalent one. -/
theorem along_congr {Inv : σ → Prop} (keep : ∀ s i, Inv s → P s i → Inv (step s i).1)
    {R : σ → ι → Prop} (equiv : ∀ s i, Inv s → P s i → (Q s i ↔ R s i))
    {s : σ} (hs : Inv s) {is : List ι} (h : Along step P s is) :
    Along step Q s is ↔ Along step R s is := by
  induction is generalizing s with
  | nil => simp
  | cons i is ih =>
    rw [along_cons, along_cons, equiv s i hs h.1, ih (keep s i hs h.1) h.2]

/-- Two conditions that agree under an invariant, which they keep, agree along
a run. -/
theorem along_iff {Inv : σ → Prop} (equiv : ∀ s i, Inv s → (P s i ↔ Q s i))
    (keep : ∀ s i, Inv s → Q s i → Inv (step s i).1) {s : σ} (hs : Inv s) (is : List ι) :
    Along step P s is ↔ Along step Q s is := by
  induction is generalizing s with
  | nil => simp
  | cons i is ih =>
    rw [along_cons, along_cons, equiv s i hs]
    exact and_congr_right fun hq => ih (keep s i hs hq)

/-- A run of which every step changes something is no longer than a measure that every
such step makes smaller. -/
theorem length_le_of_decreasing (Inv : σ → Prop) (measure : σ → ℕ)
    (keep : ∀ s i, Inv s → Inv (step s i).1)
    (decrease : ∀ s i, Inv s → (step s i).1 ≠ s → measure (step s i).1 < measure s) {s : σ}
    (hs : Inv s) {is : List ι} (h : Along step (fun s i => (step s i).1 ≠ s) s is) :
    is.length ≤ measure s := by
  induction is generalizing s with
  | nil => exact Nat.zero_le _
  | cons i is ih =>
    have hlt := decrease s i hs h.1
    have hle := ih (keep s i hs) h.2
    rw [List.length_cons]
    omega

theorem exec_range_succ (s : σ) (inputs : ℕ → ι) (n : ℕ) :
    exec step s ((List.range (n + 1)).map inputs) =
      (step (exec step s ((List.range n).map inputs)) (inputs n)).1 := by
  rw [List.range_succ, List.map_append, exec_append]
  rfl

section Fair
variable {Inv Final : σ → Prop} {measure : σ → ℕ} {s : σ} {inputs : ℕ → ι} {n m : ℕ}

/-- From one time to a later one the measure becomes smaller, or nothing changes. -/
theorem measure_lt_or_eq (keep : ∀ s i, Inv s → Inv (step s i).1)
    (decrease : ∀ s i, Inv s → (step s i).1 = s ∨ measure (step s i).1 < measure s)
    (hs : Inv s) (hnm : n ≤ m) :
    measure (exec step s ((List.range m).map inputs)) <
        measure (exec step s ((List.range n).map inputs)) ∨
      exec step s ((List.range m).map inputs) = exec step s ((List.range n).map inputs) := by
  induction hnm with
  | refl => exact .inr rfl
  | @step m hnm ih =>
    have hinv : Inv (exec step s ((List.range m).map inputs)) := invariant_exec Inv keep hs _
    rw [exec_range_succ]
    rcases decrease _ (inputs m) hinv with hstay | hless
    · rwa [hstay]
    · refine .inl ?_
      rcases ih with hlt | heq
      · exact Nat.lt_trans hless hlt
      · rwa [heq] at hless ⊢

/-- An endless run comes to an end state if each step that changes something makes the
measure smaller, and in every other state some input of `helpful` does, each of which
comes again and again. -/
theorem exists_final_of_fair (helpful : Set ι) (keep : ∀ s i, Inv s → Inv (step s i).1)
    (decrease : ∀ s i, Inv s → (step s i).1 = s ∨ measure (step s i).1 < measure s)
    (live : ∀ s, Inv s → Final s ∨ ∃ i ∈ helpful, (step s i).1 ≠ s) (hs : Inv s)
    (fair : ∀ i ∈ helpful, ∀ n, ∃ m ≥ n, inputs m = i) :
    ∃ n, Final (exec step s ((List.range n).map inputs)) := by
  suffices h : ∀ bound n, measure (exec step s ((List.range n).map inputs)) ≤ bound →
      ∃ m, Final (exec step s ((List.range m).map inputs)) from h _ 0 (Nat.le_refl _)
  intro bound
  induction bound with
  | zero =>
    intro n hn
    have hinv : Inv (exec step s ((List.range n).map inputs)) := invariant_exec Inv keep hs _
    rcases live _ hinv with hfinal | ⟨i, -, hne⟩
    · exact ⟨n, hfinal⟩
    · have hless := (decrease _ i hinv).resolve_left hne
      omega
  | succ bound ih =>
    intro n hn
    have hinv : Inv (exec step s ((List.range n).map inputs)) := invariant_exec Inv keep hs _
    rcases live _ hinv with hfinal | ⟨i, hi, hne⟩
    · exact ⟨n, hfinal⟩
    -- when the helpful input comes, the run is where it was or has moved on before
    obtain ⟨m, hnm, rfl⟩ := fair i hi n
    have hless : measure (exec step s ((List.range (m + 1)).map inputs)) <
        measure (exec step s ((List.range n).map inputs)) := by
      have hinv' : Inv (exec step s ((List.range m).map inputs)) := invariant_exec Inv keep hs _
      rw [exec_range_succ]
      rcases measure_lt_or_eq keep decrease hs hnm with hlt | heq
      · rcases decrease _ (inputs m) hinv' with hstay | hless
        · rwa [hstay]
        · exact Nat.lt_trans hless hlt
      · rw [heq]
        exact (decrease _ (inputs m) hinv).resolve_left hne
    exact ih (m + 1) (by omega)

end Fair

theorem visits_inputs (s : σ) (is : List ι) : (visits step s is).map Prod.snd = is := by
  induction is generalizing s with
  | nil => rfl
  | cons i is ih => simp [ih]

/-- A machine that emits one event at each step emits one for each visit. -/
theorem trace_eq_map {emit : σ → ι → ε} (h : ∀ s i, (step s i).2 = [emit s i]) (s : σ)
    (is : List ι) : trace step s is = (visits step s is).map fun v => emit v.1 v.2 := by
  induction is generalizing s with
  | nil => rfl
  | cons i is ih => simp [h, ih]

theorem length_trace (h : ∀ s i, (step s i).2.length = 1) (s : σ) (is : List ι) :
    (trace step s is).length = is.length := by
  induction is generalizing s with
  | nil => rfl
  | cons i is ih => simp [h, ih, Nat.add_comm]

theorem getElem?_trace {emit : σ → ι → ε} (h : ∀ s i, (step s i).2 = [emit s i]) (s : σ)
    (is : List ι) {k : ℕ} (hk : k < is.length) :
    (trace step s is)[k]? = some (emit (exec step s (is.take k)) is[k]) := by
  induction is generalizing s k with
  | nil => exact absurd hk (Nat.not_lt_zero k)
  | cons i is ih =>
    cases k with
    | zero => simp [h]
    | succ k =>
      have hk' : k < is.length := Nat.lt_of_succ_lt_succ hk
      simp [h, ih _ hk']

section Prefixes
variable {ω : Type*}

/-- What holds at first holds all along a run if every step of it ends there. -/
theorem forall_prefix_exec {P : σ → Prop} {s : σ} (hs : P s) (is : List ι) :
    (∀ run, run <+: is → P (exec step s run)) ↔ Along step (fun s i => P (step s i).1) s is := by
  induction is generalizing s with
  | nil => simpa using hs
  | cons i is ih =>
    rw [along_cons]
    constructor
    · intro h
      have hi : P (step s i).1 := h [i] (List.prefix_append [i] is)
      exact ⟨hi, (ih hi).1 fun run hrun => h (i :: run) ((List.prefix_cons_inj i).2 hrun)⟩
    · rintro ⟨hi, his⟩ run hrun
      rcases List.prefix_cons_iff.1 hrun with rfl | ⟨tail, rfl, htail⟩
      · exact hs
      · exact (ih hi).2 his tail htail

variable (step) in
/-- A machine gives out what it takes in, in order and with nothing lost, if every
step of it does. -/
theorem forall_prefix_conserved (taken given : ε → Option ω) (held : σ → List ω) (s : σ)
    (is : List ι) :
    (∀ run, run <+: is → held s ++ (trace step s run).filterMap taken =
        (trace step s run).filterMap given ++ held (exec step s run)) ↔
      Along step (fun s i => held s ++ (step s i).2.filterMap taken =
        (step s i).2.filterMap given ++ held (step s i).1) s is := by
  induction is generalizing s with
  | nil => simp
  | cons i is ih =>
    rw [along_cons, ← ih]
    have hrun (hi : held s ++ (step s i).2.filterMap taken =
        (step s i).2.filterMap given ++ held (step s i).1) (run : List ι) :
        held s ++ (trace step s (i :: run)).filterMap taken =
            (trace step s (i :: run)).filterMap given ++ held (exec step s (i :: run)) ↔
          held (step s i).1 ++ (trace step (step s i).1 run).filterMap taken =
            (trace step (step s i).1 run).filterMap given ++
              held (exec step (step s i).1 run) := by
      rw [trace_cons, exec_cons, List.filterMap_append, List.filterMap_append, ← List.append_assoc,
        hi, List.append_assoc, List.append_assoc, List.append_cancel_left_eq]
    constructor
    · intro h
      have hi := h [i] (List.prefix_append [i] is)
      rw [trace_cons, trace_nil, List.append_nil] at hi
      exact ⟨hi, fun run hpre => (hrun hi run).1 (h (i :: run) ((List.prefix_cons_inj i).2 hpre))⟩
    · rintro ⟨hi, his⟩ run hpre
      rcases List.prefix_cons_iff.1 hpre with rfl | ⟨tail, rfl, htail⟩
      · simp
      · exact (hrun hi tail).2 (his tail htail)

end Prefixes

section Image
variable {step' : τ → ι → τ × List κ} {f : σ → τ}

/-- If `f` turns the steps of one machine into those of another, it does so with
whole runs. -/
theorem exec_image (h : ∀ s i, f (step s i).1 = (step' (f s) i).1) (s : σ) (is : List ι) :
    f (exec step s is) = exec step' (f s) is := by
  induction is generalizing s with
  | nil => rfl
  | cons i is ih => rw [exec_cons, ih, h, exec_cons]

theorem along_image {R : τ → ι → Prop} (h : ∀ s i, f (step s i).1 = (step' (f s) i).1) (s : σ)
    (is : List ι) : Along step (fun s i => R (f s) i) s is ↔ Along step' R (f s) is := by
  induction is generalizing s with
  | nil => simp
  | cons i is ih => rw [along_cons, along_cons, ih, h]

end Image

section Simulation
variable {step' : τ → κ → τ × List ε} {R : σ → τ → Prop} {M : σ → τ → ι → κ → Prop}

/-- The steps of two runs, taken side by side, all meet `M`. -/
def Paired (step : σ → ι → σ × List ε) (step' : τ → κ → τ × List ε)
    (M : σ → τ → ι → κ → Prop) : σ → τ → List (ι × κ) → Prop
  | _, _, [] => True
  | s, t, p :: ps => M s t p.1 p.2 ∧ Paired step step' M (step s p.1).1 (step' t p.2).1 ps

instance decidablePaired [∀ s t i k, Decidable (M s t i k)] (s : σ) (t : τ)
    (ps : List (ι × κ)) : Decidable (Paired step step' M s t ps) :=
  match ps with
  | [] => isTrue trivial
  | p :: ps =>
    have := decidablePaired (step s p.1).1 (step' t p.2).1 ps
    inferInstanceAs (Decidable (M s t p.1 p.2 ∧ Paired step step' M _ _ ps))

/-- Lockstep simulation: matched steps from related states keep the relation
and agree on the observed part of their events, so whole runs do. -/
theorem simulation {ω : Type*} (observe : ε → Option ω)
    (keep : ∀ s t i k, R s t → M s t i k →
      R (step s i).1 (step' t k).1 ∧
        (step s i).2.filterMap observe = (step' t k).2.filterMap observe)
    {s : σ} {t : τ} (hst : R s t) {ps : List (ι × κ)} (h : Paired step step' M s t ps) :
    R (exec step s (ps.map Prod.fst)) (exec step' t (ps.map Prod.snd)) ∧
      (trace step s (ps.map Prod.fst)).filterMap observe =
        (trace step' t (ps.map Prod.snd)).filterMap observe := by
  induction ps generalizing s t with
  | nil => exact ⟨hst, rfl⟩
  | cons p ps ih =>
    obtain ⟨hR, hE⟩ := keep s t p.1 p.2 hst h.1
    obtain ⟨hR', hE'⟩ := ih hR h.2
    refine ⟨hR', ?_⟩
    simp only [List.map_cons, trace_cons, List.filterMap_append, hE, hE']

end Simulation

section Stuttering
variable {κ' : Type*} {step' : τ → κ' → τ × List κ} {f : σ → τ}

/-- If each step of one machine is a step of another or leaves the other where it is,
its runs are runs of the other, with the same observed events. -/
theorem exists_image {ω : Type*} (observe : ε → Option ω) (observe' : κ → Option ω)
    (h : ∀ s i, f (step s i).1 = f s ∧ (step s i).2.filterMap observe = [] ∨
      ∃ j, f (step s i).1 = (step' (f s) j).1 ∧
        (step s i).2.filterMap observe = (step' (f s) j).2.filterMap observe')
    (s : σ) (is : List ι) : ∃ js, f (exec step s is) = exec step' (f s) js ∧
      (trace step s is).filterMap observe = (trace step' (f s) js).filterMap observe' := by
  induction is generalizing s with
  | nil => exact ⟨[], rfl, rfl⟩
  | cons i is ih =>
    obtain ⟨js, hexec, htrace⟩ := ih (step s i).1
    rcases h s i with ⟨hstate, hevents⟩ | ⟨j, hstate, hevents⟩
    · rw [hstate] at hexec htrace
      refine ⟨js, hexec, ?_⟩
      rw [trace_cons, List.filterMap_append, hevents, htrace, List.nil_append]
    · rw [hstate] at hexec htrace
      refine ⟨j :: js, hexec, ?_⟩
      rw [trace_cons, trace_cons, List.filterMap_append, List.filterMap_append, hevents, htrace]

end Stuttering

end AcademyLab.Machine
