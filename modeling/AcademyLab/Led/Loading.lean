import AcademyLab.Ledger
import AcademyLab.Led.Driver
import AcademyLab.Machine

/-!
# Loading and unloading the LED driver

`my_init` and `my_exit` of `led_device.c`, as far as they take resources of the
kernel and give them back. The ledger holds what this module holds; for whatever
reason the kernel refuses a request, it does so by its answer.
-/
namespace AcademyLab.Led
open Machine

inductive Resource
  | line (gpio : ℕ)
  | region
  | ledCdev
  | btnCdev
  | devclass
  | ledDev
  | btnDev
  deriving DecidableEq

def EBUSY : ℤ := 16

section Module
variable (b : Board) (answers : Resource → ℤ)

/-- A call whose failure `ret` is returned, after what the label `undo` does. -/
def tryTo (r : Resource) (undo : Ledger Resource → Ledger Resource)
    (next : Ledger Resource → ℤ × Ledger Resource) (l : Ledger Resource) : ℤ × Ledger Resource :=
  Ledger.attempt (-EBUSY) answers r undo next l

/-- The loop of `gpio_setup` over the LEDs, which returns at the first refusal. -/
def requestLeds : List ℕ → Ledger Resource → ℤ × Ledger Resource
  | [], l => (0, l)
  | gpio :: gpios, l => tryTo answers (.line gpio) id (requestLeds gpios) l

def gpioSetup (l : Ledger Resource) : ℤ × Ledger Resource :=
  tryTo answers (.line b.btnGpio) id (requestLeds answers b.ledGpios) l

/-- The lines of the module, the button's first. -/
def Board.lines (b : Board) : List Resource := (b.btnGpio :: b.ledGpios).map .line

def gpioCleanup (l : Ledger Resource) : Ledger Resource := l.releaseAll b.lines

/-! The labels of `my_init`, each with those that it falls through to. -/

def errLed (l : Ledger Resource) : Ledger Resource := gpioCleanup b l

def errRegion (l : Ledger Resource) : Ledger Resource := errLed b (l.release .region)

def errLedCdev (l : Ledger Resource) : Ledger Resource := errRegion b (l.release .ledCdev)

def errBtnCdev (l : Ledger Resource) : Ledger Resource := errLedCdev b (l.release .btnCdev)

def errClass (l : Ledger Resource) : Ledger Resource := errBtnCdev b (l.release .devclass)

def errLedDev (l : Ledger Resource) : Ledger Resource := errClass b (l.release .ledDev)

def myInit (l : Ledger Resource) : ℤ × Ledger Resource :=
  let (ret, l) := gpioSetup b answers l
  if ret ≠ 0 then (ret, l)
  else
    tryTo answers .region (errLed b) (
      tryTo answers .ledCdev (errRegion b) <|
      tryTo answers .btnCdev (errLedCdev b) <|
      tryTo answers .devclass (errBtnCdev b) <|
      tryTo answers .ledDev (errClass b) <|
      tryTo answers .btnDev (errLedDev b) fun l => (0, l)) l

def myExit (l : Ledger Resource) : Ledger Resource :=
  gpioCleanup b
    (l.releaseAll [.ledDev, .btnDev, .devclass, .ledCdev, .btnCdev, .region])

end Module

/-! ## Runs -/

/-- `insmod` with the kernel's answers, or `rmmod`. -/
inductive Op
  | load (answers : Resource → ℤ)
  | unload

/-- The module, with what was held before it was loaded if it is. -/
structure Module where
  ledger : Ledger Resource
  loaded : Option (Finset Resource)

/-- Before the first load. -/
def Module.start : Module := ⟨⟨∅, 0⟩, none⟩

/-- One load or unload, with what `my_init` returns; a loaded module is not
loaded again, and only a loaded one is unloaded. -/
def Module.step (b : Board) (s : Module) : Op → Module × List ℤ
  | .load answers =>
    match s.loaded with
    | some _ => (s, [])
    | none =>
      let (ret, l) := myInit b answers s.ledger
      (⟨l, if ret = 0 then some s.ledger.held else none⟩, [ret])
  | .unload =>
    match s.loaded with
    | some _ => (⟨myExit b s.ledger, none⟩, [])
    | none => (s, [])

/-- The resources that a module that is not loaded has to hold. -/
def Op.before (s : Module) : Op → Finset Resource
  | .load _ => s.ledger.held
  | .unload => s.loaded.getD s.ledger.held

/-- The step releases nothing that is not held; after a failed load and after an
unload what was held before the load is held again, and a load can succeed. -/
structure Restores (b : Board) (s : Module) (op : Op) : Prop where
  faults : (s.step b op).1.ledger.faults = s.ledger.faults
  held : (s.step b op).1.loaded = none → (s.step b op).1.ledger.held = op.before s
  loadable : (s.step b op).1.loaded = none → (myInit b (fun _ => 0) (s.step b op).1.ledger).1 = 0

/-- The load does not get the button's line and then is refused that of a LED. -/
def Clean (b : Board) (s : Module) : Op → Prop
  | .load answers => s.loaded = none → answers (.line b.btnGpio) = 0 →
      ∀ gpio ∈ b.ledGpios, answers (.line gpio) = 0
  | .unload => True

/-! ## What one load does -/

/-- The other resources, in the order of `my_init`. -/
def others : List Resource := [.region, .ledCdev, .btnCdev, .devclass, .ledDev, .btnDev]

theorem lines_nodup (b : Board) : b.lines.Nodup := by
  refine List.Nodup.map (fun g g' h => Resource.line.inj h) ?_
  exact List.nodup_cons.2 ⟨b.btnGpio_notMem, b.ledGpios_nodup⟩

theorem lines_others_nodup (b : Board) : (b.lines ++ others).Nodup := by
  refine List.nodup_append.2 ⟨lines_nodup b, by decide, ?_⟩
  intro r hr r' hr' heq
  obtain ⟨gpio, -, rfl⟩ := List.mem_map.1 hr
  subst heq
  simp [others] at hr'

section Load
variable {b : Board} {answers : Resource → ℤ} {l : Ledger Resource} {as : List Resource}
  {gpios : List ℕ}

/-- A line that is acquired leaves the other free lines free. -/
theorem free_lines_acquire {gpio : ℕ} (hmem : gpio ∉ gpios)
    (hfree : ∀ g ∈ gpios, Resource.line g ∉ l.held) :
    ∀ g ∈ gpios, Resource.line g ∉ (l.acquire (.line gpio)).held := by
  intro g hg
  rw [Ledger.notMem_acquire]
  exact ⟨fun heq => hmem (Resource.line.inj heq ▸ hg), hfree g hg⟩

/-- The lines of the LEDs, if they are all granted. -/
theorem requestLeds_granted (hnodup : gpios.Nodup)
    (hfree : ∀ gpio ∈ gpios, Resource.line gpio ∉ l.held)
    (h : ∀ gpio ∈ gpios, answers (.line gpio) = 0) :
    requestLeds answers gpios l = (0, l.acquireAll (gpios.map .line)) := by
  induction gpios generalizing l with
  | nil => rfl
  | cons gpio gpios ih =>
    obtain ⟨hmem, hnodup⟩ := List.nodup_cons.1 hnodup
    rw [requestLeds, tryTo, Ledger.attempt_granted (hfree gpio (by simp)) (h gpio (by simp))]
    have hrest : ∀ g ∈ gpios, answers (.line g) = 0 := fun g hg =>
      h g (List.mem_cons_of_mem _ hg)
    exact ih hnodup (free_lines_acquire hmem fun g hg => hfree g (List.mem_cons_of_mem _ hg)) hrest

/-- A refusal is returned, and what is held by then stays held. -/
theorem requestLeds_refused (hfree : ∀ gpio ∈ gpios, Resource.line gpio ∉ l.held)
    (hnodup : gpios.Nodup) (h : ∃ gpio ∈ gpios, answers (.line gpio) ≠ 0) :
    (requestLeds answers gpios l).1 ≠ 0 ∧ l.held ⊆ (requestLeds answers gpios l).2.held := by
  induction gpios generalizing l with
  | nil => simp at h
  | cons gpio gpios ih =>
    obtain ⟨hmem, hnodup⟩ := List.nodup_cons.1 hnodup
    have hgpio := hfree gpio (by simp)
    by_cases hr : answers (.line gpio) = 0
    · rw [requestLeds, tryTo, Ledger.attempt_granted hgpio hr]
      have hrest : ∃ g ∈ gpios, answers (.line g) ≠ 0 := by simpa [hr] using h
      have hfree' := free_lines_acquire hmem fun g hg => hfree g (List.mem_cons_of_mem _ hg)
      obtain ⟨hret, hheld⟩ := ih hfree' hnodup hrest
      exact ⟨hret, (Finset.subset_insert _ _).trans hheld⟩
    · rw [requestLeds, tryTo, Ledger.attempt_refused hgpio hr]
      exact ⟨hr, Finset.Subset.refl _⟩

/-- All resources of the module are free. -/
def Free (b : Board) (l : Ledger Resource) : Prop := ∀ r ∈ b.lines ++ others, r ∉ l.held

theorem Free.line (h : Free b l) {gpio : ℕ} (hg : gpio ∈ b.btnGpio :: b.ledGpios) :
    Resource.line gpio ∉ l.held :=
  h _ (List.mem_append_left _ (List.mem_map_of_mem hg))

theorem Free.line_acquire (h : Free b l) :
    ∀ gpio ∈ b.ledGpios, Resource.line gpio ∉ (l.acquire (.line b.btnGpio)).held :=
  free_lines_acquire b.btnGpio_notMem fun _ hg => h.line (List.mem_cons_of_mem _ hg)

theorem gpioSetup_granted (hfree : Free b l) (h : ∀ r ∈ b.lines, answers r = 0) :
    gpioSetup b answers l = (0, l.acquireAll b.lines) := by
  have hbtn : answers (.line b.btnGpio) = 0 := h _ (List.mem_map_of_mem (by simp))
  rw [gpioSetup, tryTo, Ledger.attempt_granted (hfree.line (by simp)) hbtn,
    requestLeds_granted b.ledGpios_nodup hfree.line_acquire]
  · rfl
  · exact fun gpio hg => h _ (List.mem_map_of_mem (List.mem_cons_of_mem _ hg))

/-- A label undoes what has been acquired before the jump to it. -/
theorem undo_acquired (hfree : Free b l) {done rest : List Resource} (h : done ++ rest = others) :
    (l.acquireAll (b.lines ++ done)).releaseAll (done.reverse ++ b.lines) = l := by
  have hpre : b.lines ++ done <+: b.lines ++ others := ⟨rest, by rw [List.append_assoc, h]⟩
  refine Ledger.releaseAll_acquireAll ?_ (hpre.sublist.nodup (lines_others_nodup b)) ?_
  · exact List.perm_append_comm.trans (List.Perm.append_left _ (List.reverse_perm done))
  · exact fun r hr => hfree r (hpre.subset hr)

/-- One of the steps of `my_init` behind `gpio_setup`. -/
theorem stage (hfree : Free b l) {r : Resource} {done rest : List Resource}
    {undo : Ledger Resource → Ledger Resource} {next : Ledger Resource → ℤ × Ledger Resource}
    (hsplit : done ++ r :: rest = others)
    (hundo : ∀ l, undo l = l.releaseAll (done.reverse ++ b.lines))
    (h : Ledger.AllOrNothing answers l (b.lines ++ (done ++ [r])) rest
      (next (l.acquireAll (b.lines ++ (done ++ [r]))))) :
    Ledger.AllOrNothing answers l (b.lines ++ done) (r :: rest)
      (tryTo answers r undo next (l.acquireAll (b.lines ++ done))) := by
  refine Ledger.AllOrNothing.attempt ?_ ?_ (by simpa using h)
  · have hnodup := lines_others_nodup b
    rw [← hsplit, ← List.append_assoc] at hnodup
    have hr : r ∉ b.lines ++ done := fun hmem =>
      (List.nodup_append.1 hnodup).2.2 r hmem r (by simp) rfl
    rw [Ledger.mem_acquireAll, not_or]
    exact ⟨hr, hfree r (by simp [← hsplit])⟩
  · rw [hundo, undo_acquired hfree hsplit]

/-- Behind a complete `gpio_setup`, `my_init` takes all or nothing. -/
theorem myInit_allOrNothing (hfree : Free b l) (hlines : ∀ r ∈ b.lines, answers r = 0) :
    Ledger.AllOrNothing answers l b.lines others (myInit b answers l) := by
  simp only [myInit, gpioSetup_granted hfree hlines, ne_eq, not_true_eq_false, if_false]
  rw [← List.append_nil b.lines]
  refine stage hfree rfl (fun l => by simp [errLed, gpioCleanup]) ?_
  refine stage hfree rfl (fun l => by simp [errRegion, errLed, gpioCleanup]) ?_
  refine stage hfree rfl (fun l => by simp [errLedCdev, errRegion, errLed, gpioCleanup]) ?_
  refine stage hfree rfl (fun l => ?_) ?_
  · simp [errBtnCdev, errLedCdev, errRegion, errLed, gpioCleanup]
  refine stage hfree rfl (fun l => ?_) ?_
  · simp [errClass, errBtnCdev, errLedCdev, errRegion, errLed, gpioCleanup]
  refine stage hfree rfl (fun l => ?_) ?_
  · simp [errLedDev, errClass, errBtnCdev, errLedCdev, errRegion, errLed, gpioCleanup]
  exact Ledger.allOrNothing_nil

/-- A first refusal of the button's line changes nothing. -/
theorem myInit_button (hfree : Free b l) (h : answers (.line b.btnGpio) ≠ 0) :
    myInit b answers l = (answers (.line b.btnGpio), l) := by
  have hsetup : gpioSetup b answers l = (answers (.line b.btnGpio), l) :=
    Ledger.attempt_refused (hfree.line (by simp)) h
  simp [myInit, hsetup, h]

/-- A refusal of a LED's line leaves the button's line behind. -/
theorem myInit_leak (hfree : Free b l) (hbtn : answers (.line b.btnGpio) = 0)
    (h : ∃ gpio ∈ b.ledGpios, answers (.line gpio) ≠ 0) :
    (myInit b answers l).1 ≠ 0 ∧ .line b.btnGpio ∈ (myInit b answers l).2.held := by
  have hsetup : gpioSetup b answers l =
      requestLeds answers b.ledGpios (l.acquire (.line b.btnGpio)) :=
    Ledger.attempt_granted (hfree.line (by simp)) hbtn
  obtain ⟨hret, hheld⟩ := requestLeds_refused hfree.line_acquire b.ledGpios_nodup h
  rw [← hsetup] at hret hheld
  simp only [myInit, if_pos hret]
  exact ⟨hret, hheld (Finset.mem_insert_self _ _)⟩

theorem myExit_eq :
    myExit b l =
      l.releaseAll ([.ledDev, .btnDev, .devclass, .ledCdev, .btnCdev, .region] ++ b.lines) := by
  simp [myExit, gpioCleanup]

theorem myExit_acquired (hfree : Free b l) :
    myExit b (l.acquireAll (b.lines ++ others)) = l := by
  rw [myExit_eq]
  refine Ledger.releaseAll_acquireAll ?_ (lines_others_nodup b) hfree
  exact List.perm_append_comm.trans (List.Perm.append_left _ (by decide))

end Load

/-! ## Loads and unloads one after the other -/

/-- Between clean steps the module holds nothing, or everything. -/
inductive Inv (b : Board) : Module → Prop
  | unloaded (k : ℕ) : Inv b ⟨⟨∅, k⟩, none⟩
  | loaded (k : ℕ) : Inv b ⟨(⟨∅, k⟩ : Ledger Resource).acquireAll (b.lines ++ others), some ∅⟩

section Steps
variable {b : Board} {s : Module} {answers : Resource → ℤ}

theorem free_empty (k : ℕ) : Free b ⟨∅, k⟩ := fun _ _ => Finset.notMem_empty _

/-- With nothing held, a load succeeds if every request is granted. -/
theorem myInit_granted (k : ℕ) : (myInit b (fun _ => 0) ⟨∅, k⟩).1 = 0 := by
  have h : Ledger.AllOrNothing (fun _ => 0) ⟨∅, k⟩ b.lines others
      (myInit b (fun _ => 0) ⟨∅, k⟩) := myInit_allOrNothing (free_empty k) fun _ _ => rfl
  simp only [Ledger.AllOrNothing, implies_true, if_true] at h
  rw [h]

/-- A clean load takes everything, or fails and takes nothing. -/
theorem load_clean {k : ℕ} (h : Clean b ⟨⟨∅, k⟩, none⟩ (.load answers)) :
    myInit b answers ⟨∅, k⟩ = (0, (⟨∅, k⟩ : Ledger Resource).acquireAll (b.lines ++ others)) ∨
      (myInit b answers ⟨∅, k⟩).1 ≠ 0 ∧ (myInit b answers ⟨∅, k⟩).2 = ⟨∅, k⟩ := by
  by_cases hbtn : answers (.line b.btnGpio) = 0
  · have hlines : ∀ r ∈ b.lines, answers r = 0 := by
      intro r hr
      obtain ⟨gpio, hg, rfl⟩ := List.mem_map.1 hr
      rcases List.mem_cons.1 hg with rfl | hg
      · exact hbtn
      · exact h rfl hbtn gpio hg
    have hall := myInit_allOrNothing (free_empty k) hlines
    unfold Ledger.AllOrNothing at hall
    split_ifs at hall
    · exact .inl hall
    · exact .inr hall
  · rw [myInit_button (free_empty k) hbtn]
    exact .inr ⟨hbtn, rfl⟩

/-- A load changes the state by what `my_init` does. -/
theorem step_load (b : Board) (l : Ledger Resource) (answers : Resource → ℤ) :
    (Module.step b ⟨l, none⟩ (.load answers)).1 = ⟨(myInit b answers l).2,
      if (myInit b answers l).1 = 0 then some l.held else none⟩ := rfl

theorem step_unload_loaded (k : ℕ) :
    (Module.step b ⟨(⟨∅, k⟩ : Ledger Resource).acquireAll (b.lines ++ others), some ∅⟩
      .unload).1 = ⟨⟨∅, k⟩, none⟩ := by
  simp [Module.step, myExit_acquired (free_empty k)]

theorem inv_step (op : Op) (h : Inv b s) (hclean : Clean b s op) : Inv b (s.step b op).1 := by
  cases h with
  | unloaded k =>
    cases op with
    | load answers =>
      rw [step_load]
      rcases load_clean hclean with hall | ⟨hret, hnothing⟩
      · simp only [hall, if_true]
        exact .loaded k
      · rw [hnothing, if_neg hret]
        exact .unloaded k
    | unload => exact .unloaded k
  | loaded k =>
    cases op with
    | load answers => exact .loaded k
    | unload =>
      rw [step_unload_loaded]
      exact .unloaded k

theorem restores_of_unloaded {op : Op} {k : ℕ} (hstep : (s.step b op).1 = ⟨⟨∅, k⟩, none⟩)
    (hfaults : s.ledger.faults = k) (hbefore : op.before s = ∅) : Restores b s op where
  faults := by rw [hstep, hfaults]
  held := fun _ => by rw [hstep, hbefore]
  loadable := fun _ => by rw [hstep, myInit_granted]

theorem restores_of_loaded {op : Op} {l : Ledger Resource} {before : Finset Resource}
    (hstep : (s.step b op).1 = ⟨l, some before⟩) (hfaults : l.faults = s.ledger.faults) :
    Restores b s op where
  faults := by rw [hstep, hfaults]
  held := fun h => by simp [hstep] at h
  loadable := fun h => by simp [hstep] at h

theorem restores_of_clean (op : Op) (h : Inv b s) (hclean : Clean b s op) : Restores b s op := by
  cases h with
  | unloaded k =>
    cases op with
    | load answers =>
      rcases load_clean hclean with hall | ⟨hret, hnothing⟩
      · have hstep : (Module.step b ⟨⟨∅, k⟩, none⟩ (.load answers)).1 =
            ⟨(⟨∅, k⟩ : Ledger Resource).acquireAll (b.lines ++ others), some ∅⟩ := by
          rw [step_load, hall]
          rfl
        exact restores_of_loaded hstep Ledger.faults_acquireAll
      · refine restores_of_unloaded (k := k) ?_ rfl rfl
        rw [step_load, if_neg hret, hnothing]
    | unload => exact restores_of_unloaded rfl rfl rfl
  | loaded k =>
    cases op with
    | load answers => exact restores_of_loaded rfl rfl
    | unload => exact restores_of_unloaded (step_unload_loaded k) Ledger.faults_acquireAll rfl

theorem clean_of_restores (op : Op) (h : Inv b s) (hres : Restores b s op) : Clean b s op := by
  cases op with
  | unload => trivial
  | load answers =>
    cases h with
    | loaded k => exact fun hnone => absurd hnone (Option.some_ne_none _)
    | unloaded k =>
      intro _ hbtn
      by_contra hled
      push Not at hled
      obtain ⟨hret, hheld⟩ := myInit_leak (free_empty k) hbtn hled
      have hempty := hres.held
      rw [step_load, if_neg hret] at hempty
      rw [hempty rfl] at hheld
      exact Finset.notMem_empty _ hheld

end Steps

/-- Nothing leaks exactly if no load gets the button's line and is then refused
the line of a LED. -/
theorem nothing_leaks_iff (b : Board) (ops : List Op) :
    Along (Module.step b) (Restores b) .start ops ↔ Along (Module.step b) (Clean b) .start ops := by
  have hiff : ∀ s op, Inv b s → (Restores b s op ↔ Clean b s op) := fun s op h =>
    ⟨clean_of_restores op h, restores_of_clean op h⟩
  exact along_iff hiff (fun s op h => inv_step op h) (.unloaded 0) ops

/-- The first LED's line is in use elsewhere: the button's line stays requested. -/
theorem button_leaks : ¬ Along (Module.step board) (Restores board) .start
    [.load fun r => if r = .line 517 then -EBUSY else 0] := by
  intro h
  exact absurd (h.1.held (by decide)) (by decide)

end AcademyLab.Led
