import AcademyLab.Machine
import Mathlib.Algebra.Order.Ring.Int
import Mathlib.Logic.Function.Basic

/-!
# Calls that go over shared cells one by one

Any number of calls read or write a row of cells, each in order and one cell at
a time. A step is one cell of one call. Whatever the order of the steps, each
cell by itself behaves. The row as a whole does if no two writes overlap, and a
read sees it whole then if no write overlaps that read.
-/
namespace AcademyLab.Cells
open Machine

/-- What a call does with the row: nothing but read it, or write a row. -/
inductive Op (α : Type*)
  | read
  | write (row : List α)

def Op.isWrite {α : Type*} : Op α → Bool
  | .read => false
  | .write _ => true

theorem isWrite_of_write {α : Type*} {o : Op α} {row : List α} (h : o = .write row) :
    o.isWrite = true := by
  rw [h]
  rfl

theorem not_isWrite_of_read {α : Type*} {o : Op α} (h : o = .read) : ¬ o.isWrite = true := by
  rw [h]
  exact Bool.false_ne_true

/-- The cells, how many of them each call has been at, and what it has read. -/
structure State (ι α : Type*) where
  cells : List α
  pos : ι → ℕ
  got : ι → List α

section Step
variable {ι α : Type*} [DecidableEq ι] (n : ℕ) (op : ι → Op α)

/-- Before any step. -/
def State.start (cells : List α) : State ι α := ⟨cells, fun _ => 0, fun _ => []⟩

/-- The cells after the step of a call at cell `i`. -/
def Op.cells (o : Op α) (i : ℕ) (cells : List α) : List α :=
  match o with
  | .read => cells
  | .write row => (row[i]?).elim cells (cells.set i)

/-- What a call has read after its step at cell `i`. -/
def Op.got (o : Op α) (i : ℕ) (cells got : List α) : List α :=
  match o with
  | .read => got ++ (cells[i]?).toList
  | .write _ => got

/-- One step of call `c`, if it has not been at all `n` cells. -/
def step (s : State ι α) (c : ι) : State ι α × List Unit :=
  if s.pos c < n then
    (⟨(op c).cells (s.pos c) s.cells, Function.update s.pos c (s.pos c + 1),
      Function.update s.got c ((op c).got (s.pos c) s.cells (s.got c))⟩, [])
  else (s, [])

/-- The call has begun and is not over. -/
def InProgress (s : State ι α) (c : ι) : Prop := 0 < s.pos c ∧ s.pos c < n

/-- The call is over. -/
def Finished (s : State ι α) (c : ι) : Prop := n ≤ s.pos c

/-- Row `row` is written by some call. -/
def Written (row : List α) : Prop := ∃ w, op w = .write row

/-- The step is not one of a write while another write is in progress. -/
def WritesApart (s : State ι α) (c : ι) : Prop :=
  (op c).isWrite → ∀ d ≠ c, (op d).isWrite → ¬ InProgress n s d

/-- The step is not one of read `r` while a write is in progress, nor one of a write
while `r` is. -/
def Undisturbed (r : ι) (s : State ι α) (c : ι) : Prop :=
  (c = r → ∀ w, (op w).isWrite → ¬ InProgress n s w) ∧ ((op c).isWrite → ¬ InProgress n s r)

end Step

section Rows
variable {ι α : Type*} [DecidableEq ι] {n : ℕ} {op : ι → Op α} {s : State ι α} {first row : List α}
  {c : ι}

/-! ## One step -/

theorem step_finished (h : Finished n s c) : (step n op s c).1 = s := by
  simp [step, Nat.not_lt.2 h]

theorem step_read (hop : op c = .read) (h : s.pos c < n) (hlen : s.cells.length = n) :
    (step n op s c).1 = ⟨s.cells, Function.update s.pos c (s.pos c + 1),
      Function.update s.got c (s.got c ++ [s.cells[s.pos c]])⟩ := by
  have hget : s.cells[s.pos c]? = some s.cells[s.pos c] := List.getElem?_eq_getElem _
  simp [step, h, hop, Op.cells, Op.got, hget]

theorem step_write (hop : op c = .write row) (h : s.pos c < n) (hrow : row.length = n) :
    (step n op s c).1 = ⟨s.cells.set (s.pos c) row[s.pos c],
      Function.update s.pos c (s.pos c + 1), s.got⟩ := by
  have hget : row[s.pos c]? = some row[s.pos c] := List.getElem?_eq_getElem _
  simp [step, h, hop, Op.cells, Op.got, hget]

/-! ## Each cell -/

/-- A value that cell `i` has at first or in a row that is written. -/
def Supplied (op : ι → Op α) (first : List α) (i : ℕ) (x : α) : Prop :=
  first[i]? = some x ∨ ∃ row, Written op row ∧ row[i]? = some x

/-- What is true of each cell, whatever the order. -/
structure Regular (n : ℕ) (op : ι → Op α) (first : List α) (s : State ι α) : Prop where
  length : s.cells.length = n
  bound : ∀ c, s.pos c ≤ n
  gotLength : ∀ c, op c = .read → (s.got c).length = s.pos c
  cells : ∀ i x, s.cells[i]? = some x → Supplied op first i x
  got : ∀ c, op c = .read → ∀ i x, (s.got c)[i]? = some x → Supplied op first i x
  written : ∀ w row, op w = .write row → ∀ i x, i < s.pos w → s.cells[i]? = some x →
    ∃ row', Written op row' ∧ row'[i]? = some x

omit [DecidableEq ι] in
theorem regular_start (hlen : first.length = n) : Regular n op first (State.start first) where
  length := hlen
  bound := fun _ => Nat.zero_le n
  gotLength := fun _ _ => rfl
  cells := fun _ _ h => .inl h
  got := fun _ _ _ _ h => by simp [State.start] at h
  written := fun _ _ _ _ _ hi => absurd hi (Nat.not_lt_zero _)

theorem bound_update (h : ∀ c, s.pos c ≤ n) (hlt : s.pos c < n) (d : ι) :
    Function.update s.pos c (s.pos c + 1) d ≤ n :=
  (Function.forall_update_iff s.pos fun _ p => p ≤ n).2 ⟨hlt, fun d _ => h d⟩ d

theorem regular_read (h : Regular n op first s) (hop : op c = .read) (hlt : s.pos c < n) :
    Regular n op first (step n op s c).1 := by
  have hcell : s.pos c < s.cells.length := by
    rw [h.length]
    exact hlt
  rw [step_read hop hlt h.length]
  refine ⟨h.length, bound_update h.bound hlt, ?_, h.cells, ?_, ?_⟩ <;> dsimp only
  · intro d hd
    by_cases hdc : d = c
    · subst hdc
      simp [h.gotLength d hd]
    · simpa [hdc] using h.gotLength d hd
  · intro d hd i x hx
    by_cases hdc : d = c
    · subst hdc
      rw [Function.update_self, List.getElem?_append] at hx
      split_ifs at hx with hi
      · exact h.got d hd i x hx
      · obtain ⟨hzero, rfl⟩ : i - (s.got d).length = 0 ∧ s.cells[s.pos d] = x := by
          simpa [List.getElem?_singleton] using hx
        have hpos : i = s.pos d := by
          have := h.gotLength d hd
          omega
        rw [hpos]
        exact h.cells _ _ (List.getElem?_eq_getElem _)
    · rw [Function.update_of_ne hdc] at hx
      exact h.got d hd i x hx
  · intro w row hw i x hi hx
    have hwc : w ≠ c := by
      rintro rfl
      simp [hop] at hw
    rw [Function.update_of_ne hwc] at hi
    exact h.written w row hw i x hi hx

theorem regular_write (hrow : row.length = n) (h : Regular n op first s)
    (hop : op c = .write row) (hlt : s.pos c < n) : Regular n op first (step n op s c).1 := by
  rw [step_write hop hlt hrow]
  have hcases : ∀ i x, (s.cells.set (s.pos c) row[s.pos c])[i]? = some x →
      row[i]? = some x ∨ (i ≠ s.pos c ∧ s.cells[i]? = some x) := by
    intro i x hx
    by_cases hi : i = s.pos c
    · subst hi
      rw [List.getElem?_set_self (by rw [h.length]; exact hlt)] at hx
      rw [← hx]
      exact .inl (List.getElem?_eq_getElem _)
    · rw [List.getElem?_set_ne (Ne.symm hi)] at hx
      exact .inr ⟨hi, hx⟩
  refine ⟨by simpa using h.length, bound_update h.bound hlt, ?_, ?_, h.got, ?_⟩ <;> dsimp only
  · intro d hd
    have hdc : d ≠ c := by
      rintro rfl
      simp [hop] at hd
    rw [Function.update_of_ne hdc]
    exact h.gotLength d hd
  · intro i x hx
    rcases hcases i x hx with hx | ⟨-, hx⟩
    · exact .inr ⟨row, ⟨c, hop⟩, hx⟩
    · exact h.cells i x hx
  · intro w row' hw i x hi hx
    rcases hcases i x hx with hx | ⟨hne, hx⟩
    · exact ⟨row, ⟨c, hop⟩, hx⟩
    · refine h.written w row' hw i x ?_ hx
      by_cases hwc : w = c
      · subst hwc
        rw [Function.update_self] at hi
        omega
      · rwa [Function.update_of_ne hwc] at hi

theorem regular_step (hrow : ∀ w row, op w = .write row → row.length = n)
    (h : Regular n op first s) (c : ι) : Regular n op first (step n op s c).1 := by
  by_cases hlt : s.pos c < n
  · cases hop : op c with
    | read => exact regular_read h hop hlt
    | write row => exact regular_write (hrow c row hop) h hop hlt
  · rw [step_finished (Nat.not_lt.1 hlt)]
    exact h

/-! ## The whole row -/

/-- The row is that of a write that is over, or that at first and no write has
begun. -/
def Whole (n : ℕ) (op : ι → Op α) (first : List α) (s : State ι α) (row : List α) : Prop :=
  (∃ w, op w = .write row ∧ Finished n s w) ∨
    row = first ∧ ∀ w row', op w = .write row' → s.pos w = 0

/-- What is true of the row while no two writes overlap. -/
structure Ordered (n : ℕ) (op : ι → Op α) (first : List α) (s : State ι α) : Prop where
  quiet : (∀ w, (op w).isWrite → ¬ InProgress n s w) → Whole n op first s s.cells
  writing : ∀ w row, op w = .write row → InProgress n s w →
    s.cells.take (s.pos w) = row.take (s.pos w) ∧
      ∀ d ≠ w, (op d).isWrite → ¬ InProgress n s d

/-- What is true of a read that no write overlaps. -/
structure Coherent (n : ℕ) (op : ι → Op α) (first : List α) (r : ι) (s : State ι α) : Prop where
  begun : s.pos r < n → s.got r = s.cells.take (s.pos r)
  finished : Finished n s r → s.got r = first ∨ Written op (s.got r)

omit [DecidableEq ι] in
theorem ordered_start : Ordered n op first (State.start first) where
  quiet := fun _ => .inr ⟨rfl, fun _ _ _ => rfl⟩
  writing := fun _ _ _ h => absurd h.1 (lt_irrefl 0)

omit [DecidableEq ι] in
theorem coherent_start (hlen : first.length = n) (r : ι) :
    Coherent n op first r (State.start first) where
  begun := fun _ => rfl
  finished := fun h => .inl (List.eq_nil_of_length_eq_zero (by
    rw [hlen]
    exact Nat.le_zero.1 h)).symm

theorem take_set {cells : List α} {i : ℕ} (hcells : i < cells.length) (hrow : i < row.length)
    (h : cells.take i = row.take i) :
    (cells.set i row[i]).take (i + 1) = row.take (i + 1) := by
  rw [List.take_succ_eq_append_getElem (by simpa using hcells),
    List.take_succ_eq_append_getElem hrow, List.take_set_of_le le_rfl, h]
  simp

/-- A step of a read leaves the row and the writes as they are. -/
theorem ordered_read (hreg : Regular n op first s) (h : Ordered n op first s)
    (hop : op c = .read) (hlt : s.pos c < n) : Ordered n op first (step n op s c).1 := by
  have hpos : ∀ w, (op w).isWrite → Function.update s.pos c (s.pos c + 1) w = s.pos w := by
    intro w hw
    refine Function.update_of_ne ?_ _ _
    rintro rfl
    exact not_isWrite_of_read hop hw
  rw [step_read hop hlt hreg.length]
  refine ⟨fun hquiet => ?_, fun w row hw hin => ?_⟩
  · have hquiet' : ∀ w, (op w).isWrite → ¬ InProgress n s w := by
      intro w hw
      have := hquiet w hw
      simpa only [InProgress, hpos w hw] using this
    rcases h.quiet hquiet' with ⟨w, hw, hfin⟩ | ⟨hfirst, hnone⟩
    · refine .inl ⟨w, hw, ?_⟩
      simpa only [Finished, hpos w (isWrite_of_write hw)] using hfin
    · refine .inr ⟨hfirst, fun w row hw => ?_⟩
      simpa only [hpos w (isWrite_of_write hw)] using hnone w row hw
  · simp only [InProgress, hpos w (isWrite_of_write hw)] at hin ⊢
    obtain ⟨htake, halone⟩ := h.writing w row hw hin
    refine ⟨htake, fun d hd hwrite => ?_⟩
    simpa only [InProgress, hpos d hwrite] using halone d hd hwrite

theorem ordered_write (hrow : row.length = n) (hreg : Regular n op first s)
    (h : Ordered n op first s) (hapart : WritesApart n op s c) (hop : op c = .write row)
    (hlt : s.pos c < n) : Ordered n op first (step n op s c).1 := by
  have hcell : s.pos c < s.cells.length := by
    rw [hreg.length]
    exact hlt
  have halone := hapart (isWrite_of_write hop)
  have hbegun : s.cells.take (s.pos c) = row.take (s.pos c) := by
    rcases Nat.eq_zero_or_pos (s.pos c) with hzero | hpos
    · simp [hzero]
    · exact (h.writing c row hop ⟨hpos, hlt⟩).1
  have htake := take_set hcell (by omega) hbegun
  rw [step_write hop hlt hrow]
  refine ⟨fun hquiet => .inl ⟨c, ?_, ?_⟩, fun w row' hw hin => ?_⟩
  · have hlast : n ≤ s.pos c + 1 := by
      have := hquiet c (isWrite_of_write hop)
      simp only [InProgress, Function.update_self] at this
      omega
    rw [List.take_of_length_le (by simpa [hreg.length] using hlast),
      List.take_of_length_le (by omega)] at htake
    rw [hop, htake]
  · have := hquiet c (isWrite_of_write hop)
    simp only [InProgress, Function.update_self] at this
    simp only [Finished, Function.update_self]
    omega
  · by_cases hwc : w = c
    · subst hwc
      obtain rfl : row = row' := Op.write.inj (hop.symm.trans hw)
      refine ⟨by simpa using htake, fun d hd hwrite => ?_⟩
      simpa only [InProgress, Function.update_of_ne hd] using halone d hd hwrite
    · simp only [InProgress, Function.update_of_ne hwc] at hin
      exact absurd hin (halone w hwc (isWrite_of_write hw))

theorem ordered_step (hrow : ∀ w row, op w = .write row → row.length = n)
    (hreg : Regular n op first s) (h : Ordered n op first s) (hapart : WritesApart n op s c) :
    Ordered n op first (step n op s c).1 := by
  by_cases hlt : s.pos c < n
  · cases hop : op c with
    | read => exact ordered_read hreg h hop hlt
    | write row => exact ordered_write (hrow c row hop) hreg h hapart hop hlt
  · rw [step_finished (Nat.not_lt.1 hlt)]
    exact h

/-- A step of the read itself: no write is in progress, so the row is whole. -/
theorem coherent_read (hreg : Regular n op first s) (hord : Ordered n op first s)
    (h : Coherent n op first c s) (hun : Undisturbed n op c s c) (hop : op c = .read)
    (hlt : s.pos c < n) : Coherent n op first c (step n op s c).1 := by
  have hcell : s.pos c < s.cells.length := by
    rw [hreg.length]
    exact hlt
  have hgot : s.got c ++ [s.cells[s.pos c]] = s.cells.take (s.pos c + 1) := by
    rw [h.begun hlt, List.take_succ_eq_append_getElem hcell]
  rw [step_read hop hlt hreg.length]
  refine ⟨fun _ => by simpa using hgot, fun hfin => ?_⟩
  simp only [Finished, Function.update_self] at hfin
  have hall : s.cells.take (s.pos c + 1) = s.cells := by
    rw [List.take_of_length_le]
    rw [hreg.length]
    exact hfin
  simp only [Function.update_self, hgot, hall]
  rcases hord.quiet (hun.1 rfl) with ⟨w, hw, -⟩ | ⟨hfirst, -⟩
  · exact .inr ⟨w, hw⟩
  · exact .inl hfirst

theorem coherent_step {r : ι} (hr : op r = .read)
    (hrow : ∀ w row, op w = .write row → row.length = n) (hreg : Regular n op first s)
    (hord : Ordered n op first s) (h : Coherent n op first r s) (hun : Undisturbed n op r s c) :
    Coherent n op first r (step n op s c).1 := by
  by_cases hlt : s.pos c < n
  swap
  · rw [step_finished (Nat.not_lt.1 hlt)]
    exact h
  by_cases hrc : r = c
  · subst hrc
    exact coherent_read hreg hord h hun hr hlt
  cases hop : op c with
  | read =>
    rw [step_read hop hlt hreg.length]
    refine ⟨fun hlt' => ?_, fun hfin => ?_⟩
    · simp only [Function.update_of_ne hrc] at hlt' ⊢
      exact h.begun hlt'
    · simp only [Finished, Function.update_of_ne hrc] at hfin ⊢
      exact h.finished hfin
  | write row =>
    have hquiet := hun.2 (isWrite_of_write hop)
    rw [step_write hop hlt (hrow c row hop)]
    refine ⟨fun hlt' => ?_, fun hfin => ?_⟩
    · simp only [Function.update_of_ne hrc] at hlt' ⊢
      have hzero : s.pos r = 0 := by
        simp only [InProgress] at hquiet
        omega
      simpa [hzero] using h.begun hlt'
    · simp only [Finished, Function.update_of_ne hrc] at hfin
      exact h.finished hfin

/-! ## Runs -/

section Run
variable (hrow : ∀ w row, op w = .write row → row.length = n) (hlen : first.length = n)
  (schedule : List ι)
include hrow hlen

theorem regular_run : Regular n op first (exec (step n op) (.start first) schedule) :=
  invariant_exec (Regular n op first) (fun _ c h => regular_step hrow h c) (regular_start hlen)
    schedule

theorem ordered_run (hapart : Along (step n op) (WritesApart n op) (.start first) schedule) :
    Ordered n op first (exec (step n op) (.start first) schedule) := by
  have hinv : Regular n op first (exec (step n op) (.start first) schedule) ∧
      Ordered n op first (exec (step n op) (.start first) schedule) :=
    invariant (fun s => Regular n op first s ∧ Ordered n op first s)
      (fun _ c h hapart => ⟨regular_step hrow h.1 c, ordered_step hrow h.1 h.2 hapart⟩)
      ⟨regular_start hlen, ordered_start⟩ hapart
  exact hinv.2

theorem coherent_run {r : ι} (hr : op r = .read)
    (hapart : Along (step n op) (WritesApart n op) (.start first) schedule)
    (hun : Along (step n op) (Undisturbed n op r) (.start first) schedule) :
    Coherent n op first r (exec (step n op) (.start first) schedule) := by
  have hinv : Regular n op first (exec (step n op) (.start first) schedule) ∧
      Ordered n op first (exec (step n op) (.start first) schedule) ∧
      Coherent n op first r (exec (step n op) (.start first) schedule) :=
    invariant (fun s => Regular n op first s ∧ Ordered n op first s ∧ Coherent n op first r s)
      (fun _ c h hc => ⟨regular_step hrow h.1 c, ordered_step hrow h.1 h.2.1 hc.1,
        coherent_step hr hrow h.1 h.2.1 h.2.2 hc.2⟩)
      ⟨regular_start hlen, ordered_start, coherent_start hlen r⟩
      ((along_and _ _).2 ⟨hapart, hun⟩)
  exact hinv.2.2

end Run

omit [DecidableEq ι] in
/-- When every call is over, the row is that of a write, if there is any. -/
theorem Ordered.final (hrow : ∀ w row, op w = .write row → row.length = n)
    (hreg : Regular n op first s) (h : Ordered n op first s) (hfin : ∀ c, Finished n s c)
    (hwrite : ∃ row, Written op row) : Written op s.cells := by
  have hquiet : ∀ w, (op w).isWrite → ¬ InProgress n s w := fun w _ hin =>
    absurd hin.2 (Nat.not_lt.2 (hfin w))
  rcases h.quiet hquiet with ⟨w, hw, -⟩ | ⟨-, hnone⟩
  · exact ⟨w, hw⟩
  · obtain ⟨row, w, hw⟩ := hwrite
    have hzero : n = 0 := by
      have hle := hfin w
      rw [Finished, hnone w row hw] at hle
      omega
    have hcells : s.cells = row := by
      rw [List.eq_nil_of_length_eq_zero (hreg.length.trans hzero),
        List.eq_nil_of_length_eq_zero ((hrow w row hw).trans hzero)]
    exact ⟨w, hcells ▸ hw⟩

end Rows

end AcademyLab.Cells
