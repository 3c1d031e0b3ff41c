import AcademyLab.Process.Lineage

/-!
# The programs of section 3

`lab_1.c`, `lab_2.c` and `lab_3.c`: what they print about their numbers, whom `kill` ends,
and what the wait waits for.
-/
namespace AcademyLab.Family
open CString Machine ProcessTable

/-! ## The programs -/

def timeLine (name : Bytes) (i pid ppid : ℕ) : Bytes :=
  ascii "[" ++ name ++ ascii "] PID: " ++ decimal pid ++ ascii ", PPID: " ++ decimal ppid ++
    ascii ", Time: " ++ decimal i ++ ascii "\n"

/-- The loop of `sleep_with_print`, with a bound on its turns. -/
def sleepLoop (name : Bytes) (runningTime printInterval : ℕ) : ℕ → ℕ → List Action
  | 0, _ => []
  | fuel + 1, i =>
    if i < runningTime then
      .print (timeLine name i) :: sleepLoop name runningTime printInterval fuel (i + printInterval)
    else []

def sleepWithPrint (name : Bytes) (runningTime printInterval : ℕ) : List Action :=
  sleepLoop name runningTime printInterval runningTime 0

inductive Lab
  | lab_1
  | lab_2
  | lab_3
  deriving DecidableEq

def Lab.script : Lab → Role → List Action
  | .lab_1, .parent =>
    .fork .child true :: sleepWithPrint (ascii "Parent process") 60 2 ++
    [.waitpid false, .print fun _ _ => ascii "parent waited!\n"] ++
    sleepWithPrint (ascii "Parent process") 5 2 ++
    [.print fun pid _ => ascii "Parent process - PID " ++ decimal pid ++ ascii " exiting\n", .exit]
  | .lab_1, .child =>
    .fork .grandchild true :: sleepWithPrint (ascii "Child process") 5 2 ++
    [.print fun pid _ => ascii "Child process - PID " ++ decimal pid ++ ascii " exiting\n", .exit]
  | .lab_1, .grandchild =>
    sleepWithPrint (ascii "Grandchild") 30 2 ++
    [.execlp (ascii "Bye!!! Grandchild process using execlp to echo\n"), .exit]
  | .lab_2, .parent =>
    [.fork .child false, .print fun _ _ => ascii "Parent: kill()\n", .kill, .waitpid false, .exit]
  | .lab_2, .child => [.print fun _ _ => ascii "Child: Hello!\n", .exit]
  | .lab_3, .parent =>
    [.fork .child false, .print fun pid _ => ascii "[Parent] PID: " ++ decimal pid ++ ascii "\n",
      .waitpid true, .exit]
  | .lab_3, .child =>
    [.print fun pid ppid => ascii "[Child] PID: " ++ decimal pid ++ ascii ", PPID: " ++
      decimal ppid ++ ascii "\n", .exit]
  | .lab_2, .grandchild | .lab_3, .grandchild => []

/-- The loop has as many turns as there are multiples of the interval. -/
theorem sleepLoop_eq (name : Bytes) {runningTime printInterval : ℕ} (h : 0 < printInterval)
    (fuel i : ℕ) (hfuel : runningTime ≤ i + fuel) :
    sleepLoop name runningTime printInterval fuel i =
      (List.range ((runningTime - i + (printInterval - 1)) / printInterval)).map fun n =>
        .print (timeLine name (i + n * printInterval)) := by
  induction fuel generalizing i with
  | zero =>
    have hzero : (runningTime - i + (printInterval - 1)) / printInterval = 0 :=
      Nat.div_eq_of_lt (by omega)
    simp [sleepLoop, hzero]
  | succ fuel ih =>
    unfold sleepLoop
    split_ifs with hi
    · have hturn : (runningTime - i + (printInterval - 1)) / printInterval =
          (runningTime - (i + printInterval) + (printInterval - 1)) / printInterval + 1 := by
        have hsplit : runningTime - i + (printInterval - 1) =
            runningTime - i - 1 + printInterval := by omega
        rw [hsplit, Nat.add_div_right _ h]
        congr 1
        by_cases hlast : i + printInterval ≤ runningTime
        · congr 1
          omega
        · rw [Nat.div_eq_of_lt (by omega), Nat.div_eq_of_lt (by omega)]
      rw [ih (i + printInterval) (by omega), hturn, List.range_succ_eq_map]
      simp only [List.map_cons, List.map_map, Nat.zero_mul, Nat.add_zero, List.cons.injEq, true_and]
      refine List.map_congr_left fun n _ => ?_
      simp only [Function.comp_apply, Nat.succ_mul]
      congr 2
      omega
    · have hzero : (runningTime - i + (printInterval - 1)) / printInterval = 0 :=
        Nat.div_eq_of_lt (by omega)
      simp [hzero]

/-- `sleep_with_print` prints at all multiples of the interval below the running time. -/
theorem sleepWithPrint_eq (name : Bytes) {runningTime printInterval : ℕ}
    (h : 0 < printInterval) :
    sleepWithPrint name runningTime printInterval =
      (List.range ((runningTime + (printInterval - 1)) / printInterval)).map fun n =>
        .print (timeLine name (n * printInterval)) := by
  simpa [sleepWithPrint] using sleepLoop_eq name h runningTime 0 (by omega)

/-- A `fork` makes the child of the one whose call it is. -/
def Action.forksFor (r : Role) : Action → Bool
  | .fork c _ => c.maker = some r
  | _ => true

def Lab.program (lab : Lab) : Program where
  script := lab.script
  order r := by cases lab <;> cases r <;> decide
  forks r c checked hmem := by
    have hall : (lab.script r).all (Action.forksFor r) = true := by
      cases lab <;> cases r <;> decide
    exact of_decide_eq_true (List.all_eq_true.1 hall _ hmem)

/-- The first process, a shell, the process of `main`, and the one that takes in the orphans
of their user. -/
def smallTable : Table where
  limit := 7
  entry
    | 1 => some ⟨0, 0, 0, false, false⟩
    | 2 => some ⟨2, 4, 100, false, false⟩
    | 3 => some ⟨3, 2, 100, false, false⟩
    | 4 => some ⟨1, 1, 100, false, true⟩
    | _ => none
  born := 4

theorem smallTable_entry {p : ℕ} {e : Entry} (h : smallTable.entry p = some e) :
    p = 1 ∧ e = ⟨0, 0, 0, false, false⟩ ∨ p = 2 ∧ e = ⟨2, 4, 100, false, false⟩ ∨
    p = 3 ∧ e = ⟨3, 2, 100, false, false⟩ ∨ p = 4 ∧ e = ⟨1, 1, 100, false, true⟩ := by
  simp only [smallTable] at h
  split at h <;> simp_all

theorem smallTable_sound : smallTable.Sound where
  range p e h := by
    rcases smallTable_entry h with ⟨rfl, -⟩ | ⟨rfl, -⟩ | ⟨rfl, -⟩ | ⟨rfl, -⟩ <;> decide
  below p e h := by
    rcases smallTable_entry h with ⟨-, rfl⟩ | ⟨-, rfl⟩ | ⟨-, rfl⟩ | ⟨-, rfl⟩ <;> decide
  inj p q e f h h' hserial := by
    rcases smallTable_entry h with ⟨rfl, rfl⟩ | ⟨rfl, rfl⟩ | ⟨rfl, rfl⟩ | ⟨rfl, rfl⟩ <;>
      rcases smallTable_entry h' with ⟨rfl, rfl⟩ | ⟨rfl, rfl⟩ | ⟨rfl, rfl⟩ | ⟨rfl, rfl⟩ <;>
      first | rfl | cases hserial
  parent p e h := by
    rcases smallTable_entry h with ⟨-, rfl⟩ | ⟨-, rfl⟩ | ⟨-, rfl⟩ | ⟨-, rfl⟩ <;> decide
  reaper := by decide

def smallSystem : Start where
  table := smallTable
  sound := smallTable_sound
  pid := 3
  serial := 3
  user := 100
  adopts := false
  parent := 2
  entry := rfl
  shell := 2
  shellSerial := 2
  shellBorn := by decide
  link := by decide

theorem smallSystem_alone : smallSystem.Alone where
  adopts := by decide
  childless q e h := by
    rcases smallTable_entry h with ⟨-, rfl⟩ | ⟨-, rfl⟩ | ⟨-, rfl⟩ | ⟨-, rfl⟩ <;> decide

/-! ## What is printed -/

def linesOf (r : Role) (log : List (Role × Bytes)) : List Bytes :=
  (log.filter fun line => line.1 = r).map Prod.snd

/-- In a step of the run the process of `r` has printed `line`, while `q` took orphans in. -/
def Orphaned (program : Program) (S : Start) (inputs : List Input) (r : Role) (line : Bytes)
    (q : ℕ) : Prop :=
  ∃ before input, before ++ [input] <+: inputs ∧
    (exec (step program) (start program S) before).table.Adopts q ∧
    (r, line) ∈ (step program (exec (step program) (start program S) before) input).2

/-- Of its lines a process has printed `lines`: a first part with the number `p` of its
maker, as long as that one runs, and a second one with other numbers, about which there is
`orphan`. -/
def HasPrinted (script : List Action) (orphan : Bytes → ℕ → Prop) (a : Proc) (p : ℕ)
    (runs : Prop) (lines : List Bytes) : Prop :=
  ∃ own, ∃ orphaned : List ((ℕ → ℕ → Bytes) × ℕ), ∃ later,
    texts script = own ++ orphaned.map Prod.fst ++ later ∧
    lines = own.map (fun text => text a.pid p) ++
      orphaned.map (fun line => line.1 a.pid line.2) ∧
    (∀ line ∈ orphaned, orphan (line.1 a.pid line.2) line.2) ∧
    (runs → orphaned = []) ∧ (texts a.todo = later ∨ texts a.todo = [])

def Printed (program : Program) (S : Start) (orphan : Role → Bytes → ℕ → Prop) (s : State)
    (log : List (Role × Bytes)) : Prop :=
  ∀ r, (s.proc r = none → linesOf r log = []) ∧
    ∀ a p n, s.proc r = some a → s.maker S r = some (p, n) →
      HasPrinted (program.script r) (orphan r) a p (s.table.Runs p n) (linesOf r log)

section Printed
variable {program : Program} {S : Start} {orphan orphan' : Role → Bytes → ℕ → Prop}
  {s s' : State} {log : List (Role × Bytes)} {r : Role}

theorem linesOf_append (r : Role) (log out : List (Role × Bytes)) :
    linesOf r (log ++ out) = linesOf r log ++ linesOf r out := by
  simp [linesOf]

theorem printed_start (program : Program) (S : Start) (orphan : Role → Bytes → ℕ → Prop) :
    Printed program S orphan (start program S) [] := by
  intro r
  refine ⟨fun _ => rfl, fun a p n ha _ => ⟨[], [], texts (program.script r), rfl, rfl, by simp,
    fun _ => rfl, ?_⟩⟩
  by_cases hr : r = .parent
  · subst hr
    simp only [start, Function.update_self, Option.some.injEq] at ha
    rw [← ha]
    exact .inl rfl
  · simp [start, Function.update_of_ne hr] at ha

namespace HasPrinted
variable {script : List Action} {told told' : Bytes → ℕ → Prop} {a a' : Proc} {p : ℕ}
  {runs runs' : Prop} {lines : List Bytes}

theorem silent (h : HasPrinted script told a p runs lines)
    (htold : ∀ line q, told line q → told' line q) (hruns : runs' → runs) (hpid : a'.pid = a.pid)
    (htexts : texts a'.todo = texts a.todo ∨ texts a'.todo = []) :
    HasPrinted script told' a' p runs' lines := by
  obtain ⟨own, orphaned, later, hscript, hlines, horphan, hnone, hlater⟩ := h
  refine ⟨own, orphaned, later, hscript, by rw [hpid, hlines], fun line hline => ?_,
    fun h => hnone (hruns h), ?_⟩
  · rw [hpid]
    exact htold _ _ (horphan line hline)
  · rcases htexts with hsame | hnil
    · rwa [hsame]
    · exact .inr hnil

/-- The next line, with the number `q` as `getppid()`. -/
theorem print {text : ℕ → ℕ → Bytes} {rest : List (ℕ → ℕ → Bytes)} {q : ℕ}
    (h : HasPrinted script told a p runs lines)
    (htold : ∀ line q, told line q → told' line q) (hruns : runs' → runs) (hpid : a'.pid = a.pid)
    (htexts : texts a.todo = text :: rest) (hrest : texts a'.todo = rest ∨ texts a'.todo = [])
    (hown : runs → q = p) (hother : ¬runs → told' (text a.pid q) q) :
    HasPrinted script told' a' p runs' (lines ++ [text a.pid q]) := by
  obtain ⟨own, orphaned, later, hscript, hlines, horphan, hnone, hlater⟩ := h
  have hnext : later = text :: rest := by
    rcases hlater with hlater | hnil
    · rw [← hlater, htexts]
    · rw [hnil] at htexts
      cases htexts
  subst hnext
  rw [HasPrinted, hpid]
  by_cases hmaker : runs
  · obtain rfl := hnone hmaker
    obtain rfl := hown hmaker
    exact ⟨own ++ [text], [], rest, by simp [hscript], by simp [hlines], by simp, fun _ => rfl,
      hrest⟩
  · refine ⟨own, orphaned ++ [(text, q)], rest, by simp [hscript], by simp [hlines], ?_,
      fun h => absurd (hruns h) hmaker, hrest⟩
    intro line hline
    rcases List.mem_append.1 hline with hline | hline
    · exact htold _ _ (horphan line hline)
    · rw [List.mem_singleton.1 hline]
      exact hother hmaker

end HasPrinted

/-- What was so before the step, for a process that prints nothing in it. -/
theorem printed_silent {op : Op} {a a' : Proc} {p n : ℕ} (h : Inv S s)
    (hp : Printed program S orphan s log)
    (horphan : ∀ r line q, orphan r line q → orphan' r line q) (ha : s.proc r = some a)
    (hmaker : s.maker S r = some (p, n)) (htable : s'.table = s.table.apply op)
    (hpid : a'.pid = a.pid) (htexts : texts a'.todo = texts a.todo ∨ texts a'.todo = []) :
    HasPrinted (program.script r) (orphan' r) a' p (s'.table.Runs p n) (linesOf r log) := by
  refine ((hp r).2 a p n ha hmaker).silent (horphan r) (fun hruns => ?_) hpid htexts
  rw [htable, Table.runs_apply_iff (h.maker_below hmaker)] at hruns
  exact hruns.1

theorem printed_fork {c : Role} {a : Proc} {checked : Bool} {rest : List Action} {p : ℕ}
    (h : Inv S s) (hp : Printed program S orphan s log)
    (horphan : ∀ r line q, orphan r line q → orphan' r line q)
    (hf : Forks program s s' r c a checked rest p) : Printed program S orphan' s' log := by
  intro q
  constructor
  · intro hq
    cases hb : s.proc q with
    | none => exact (hp q).1 hb
    | some b =>
      obtain ⟨-, b', hb', -⟩ := hf.new h hb
      rw [hq] at hb'
      cases hb'
  · intro b' x n hb' hmaker
    by_cases hq : q = c
    · subst hq
      rw [hf.self] at hb'
      cases hb'
      refine ⟨[], [], texts (program.script q), rfl, ?_, by simp, fun _ => rfl, .inl rfl⟩
      exact (hp q).1 (hf.none_before h)
    · obtain ⟨b, hb, hpid, -⟩ := hf.old h hq hb'
      refine printed_silent h hp horphan hb (hf.maker_eq h hb ▸ hmaker) hf.table hpid (.inl ?_)
      by_cases hqr : q = r
      · subst hqr
        rw [hf.parent h] at hb'
        rw [(running_iff.1 hf.run).1] at hb
        cases hb'
        cases hb
        rw [hf.todo]
        rfl
      · rw [hf.other hq hqr, hb] at hb'
        cases hb'
        rfl

theorem printed_act {a a' : Proc} {op : Op} {out : List (Role × Bytes)} (h : Inv S s)
    (hp : Printed program S orphan s log)
    (horphan : ∀ r line q, orphan r line q → orphan' r line q)
    (hnew : ∀ r line q, s.table.Adopts q → (r, line) ∈ out → orphan' r line q)
    (hrun : s.running r = some a) (hadv : Advance s r a a' op out)
    (htable : s'.table = s.table.apply op)
    (hproc : s'.proc = Function.update s.proc r (some a')) :
    Printed program S orphan' s' (log ++ out) := by
  have ha := (running_iff.1 hrun).1
  have hkept := Inv.act_new ha hadv hproc
  intro q
  by_cases hq : q = r
  · subst hq
    have hself : s'.proc q = some a' := by rw [hproc, Function.update_self]
    refine ⟨fun hnone => by simp [hself] at hnone, fun b p n hb hmaker => ?_⟩
    rw [hself] at hb
    cases hb
    rw [h.maker_eq hkept ha] at hmaker
    rcases hadv.out with ⟨rfl, htexts⟩ | ⟨text, rest, htexts, hrest, rfl⟩
    · rw [List.append_nil]
      exact printed_silent h hp horphan ha hmaker htable hadv.pid htexts
    · have hline : linesOf q [(q, text a.pid (s.getppid a.pid))] =
          [text a.pid (s.getppid a.pid)] := by simp [linesOf]
      have hppid := getppid_eq h hrun hmaker
      rw [linesOf_append, hline]
      refine ((hp q).2 a p n ha hmaker).print (horphan q) (fun hruns => ?_) hadv.pid htexts hrest
        (fun hruns => ?_) fun hruns => ?_
      · rw [htable, Table.runs_apply_iff (h.maker_below hmaker)] at hruns
        exact hruns.1
      · rwa [if_pos hruns] at hppid
      · rw [if_neg hruns] at hppid
        exact hnew _ _ _ hppid List.mem_cons_self
  · have hother : s'.proc q = s.proc q := by rw [hproc, Function.update_of_ne hq]
    have hsilent : linesOf q (log ++ out) = linesOf q log := by
      rw [linesOf_append]
      rcases hadv.out with ⟨rfl, -⟩ | ⟨text, rest, -, -, rfl⟩
      · simp [linesOf]
      · simp [linesOf, Ne.symm hq]
    rw [hother, hsilent]
    refine ⟨(hp q).1, fun b p n hb hmaker => ?_⟩
    exact printed_silent h hp horphan hb (h.maker_eq hkept hb ▸ hmaker) htable rfl (.inl rfl)

theorem printed_step (h : Inv S s) (hp : Printed program S orphan s log) (input : Input)
    (horphan : ∀ r line q, orphan r line q → orphan' r line q)
    (hnew : ∀ r line q, s.table.Adopts q → (r, line) ∈ (step program s input).2 →
      orphan' r line q) :
    Printed program S orphan' (step program s input).1 (log ++ (step program s input).2) := by
  generalize hs' : (step program s input).1 = s'
  generalize hout : (step program s input).2 = out at hnew ⊢
  have heffect := effect_step program (fun r a hrun => h.order r a (running_iff.1 hrun).1) input
  rw [hs', hout] at heffect
  cases heffect with
  | other op hop htable hproc hnil =>
    rw [hnil, List.append_nil]
    intro r
    rw [hproc]
    refine ⟨(hp r).1, fun a p n ha hmaker => ?_⟩
    have hsame : s'.maker S r = s.maker S r := by simp only [State.maker, hproc]
    exact printed_silent h hp horphan ha (hsame ▸ hmaker) htable rfl (.inl rfl)
  | fork r c a checked rest p hf hnil =>
    rw [hnil, List.append_nil]
    exact printed_fork h hp horphan hf
  | act r a a' op hrun hadv htable hproc =>
    exact printed_act h hp horphan hnew hrun hadv htable hproc

theorem printed_run (program : Program) (S : Start) (inputs : List Input) :
    Printed program S (Orphaned program S inputs) (exec (step program) (start program S) inputs)
      (trace (step program) (start program S) inputs) := by
  induction inputs using List.reverseRecOn with
  | nil => exact printed_start program S _
  | append_singleton inputs input ih =>
    rw [exec_append, trace_append]
    simp only [exec_cons, exec_nil, trace_cons, trace_nil, List.append_nil]
    refine printed_step (inv_exec S program inputs) ih input ?_ ?_
    · rintro r line q ⟨before, input', hbefore, horphan⟩
      exact ⟨before, input', hbefore.trans (List.prefix_append inputs [input]), horphan⟩
    · exact fun r line q hadopts hline => ⟨inputs, input, List.prefix_rfl, hadopts, hline⟩

example :
    linesOf .grandchild (trace (step Lab.lab_1.program) (start Lab.lab_1.program smallSystem)
      [.act .parent (some 5), .act .child (some 6), .act .grandchild none, .other (.exit 5),
        .act .grandchild none]) =
      [ascii "[Grandchild] PID: 6, PPID: 5, Time: 0\n",
        ascii "[Grandchild] PID: 6, PPID: 4, Time: 2\n"] := by
  decide +kernel

end Printed

/-! ## Whom `kill` ends -/

section Kill
variable {program : Program} {S : Start} {s : State} {r c : Role} {a b : Proc} {p : ℕ}

theorem live_kill {c : ℕ} (hc : c ≠ reaper) (q : ℕ) :
    (s.table.apply (.exit c)).Live q ↔ s.table.Live q ∧ q ≠ c := by
  by_cases hlegal : s.table.Legal (.exit c)
  · rw [Table.apply_of_legal hlegal]
    refine (Table.live_stop (S := fun q => q = c)).trans (and_congr_right fun _ => ?_)
    exact decide_eq_false_iff_not
  · rw [Table.apply_of_not_legal hlegal]
    refine (and_iff_left_of_imp ?_).symm
    rintro hlive rfl
    exact hlegal ⟨hlive, hc⟩

theorem live_killAll (hp : s.table.Live p) (q : ℕ) :
    (s.table.apply (.killAll p)).Live q ↔ s.table.Live q ∧
      (q = p ∨ q = reaper ∨ s.table.user p ≠ 0 ∧ s.table.user q ≠ s.table.user p) := by
  have hlegal : s.table.Legal (.killAll p) := hp
  rw [Table.apply_of_legal hlegal]
  refine Table.live_stop.trans (and_congr_right fun hlive => ?_)
  simp only [Table.victims, hlive, decide_eq_false_iff_not, true_and]
  tauto

/-- A process that still may use its child has one whose number is its own. -/
theorem Inv.child_of_uses (h : Inv S s) (hrun : s.running r = some a)
    (huse : ∃ x ∈ a.todo, x.uses = true) (hc : c.maker = some r) (hb : s.proc c = some b) :
    a.forked = some b.pid ∧ s.table.At b.pid b.serial := by
  have hforked := h.number c r a b hc (running_iff.1 hrun).1 hb
  obtain ⟨d, f, hd, hf, -, hat⟩ := h.held r a b.pid hrun hforked huse
  obtain rfl := maker_inj hd hc
  rw [hf] at hb
  cases hb
  exact ⟨hforked, hat⟩

/-- Without a child `fork()` has failed. -/
theorem Inv.forked_of_no_child (h : Inv S s) (hrun : s.running r = some a)
    (huse : ∃ x ∈ a.todo, x.uses = true) (hnone : ∀ c, c.maker = some r → s.proc c = none) :
    a.forked = none := by
  cases hforked : a.forked with
  | none => rfl
  | some p =>
    obtain ⟨c, b, hc, hb, -⟩ := h.held r a p hrun hforked huse
    rw [hnone c hc] at hb
    cases hb

theorem only_child {s : State} (hnone : s.proc .child = none) (c : Role)
    (hc : c.maker = some .parent) : s.proc c = none := by
  cases c with
  | child => exact hnone
  | parent | grandchild => cases hc

end Kill

/-! ## What is waited for -/

section Wait
variable {program : Program} {S : Start} {s s' : State} {r c : Role} {a b : Proc} {op : Op}
  {any : Bool} {rest : List Action}

theorem hasChild_of_at (h : Inv S s) (hrun : s.running r = some a) (hc : c.maker = some r)
    (hb : s.proc c = some b) (hat : s.table.At b.pid b.serial) {target : Option ℕ}
    (htarget : target = none ∨ target = some b.pid) : s.HasChild a.pid target := by
  obtain ⟨e, he, hserial⟩ := Table.at_iff.1 hat
  have hparent := h.parent_of_child hrun hc hb he hserial
  refine ⟨b.pid, (h.sound.range _ e he).2, ?_, by simp [he, hparent]⟩
  rcases htarget with rfl | rfl <;> simp

/-- The only number under which the wait can find a child. -/
theorem eq_child_of_parent (ho : Own s) (hrun : s.running r = some a) (hc : c.maker = some r)
    (hb : s.proc c = some b) {q : ℕ} {e : Entry} (he : s.table.entry q = some e)
    (hparent : e.parent = a.pid) : q = b.pid := by
  obtain ⟨d, f, hd, hf, rfl, -⟩ := ho.children r a q e hrun he hparent
  obtain rfl := maker_inj hd hc
  rw [hf] at hb
  cases hb
  rfl

theorem act_wait (htodo : a.todo = .waitpid any :: rest) (answer : Option ℕ) :
    act program s r a answer =
      match answer.filter fun q => (∀ n ∈ if any then none else a.forked, q = n) ∧
        s.table.Legal (.reap a.pid q) with
      | some q =>
        ({ s with table := s.table.apply (.reap a.pid q) }.set r { a with todo := rest }, [])
      | none => if s.HasChild a.pid (if any then none else a.forked) then (s, [])
        else (s.set r { a with todo := rest }, []) := by
  cases a
  cases htodo
  rfl

variable (program) in
/-- While the child lives the wait goes on; when it has ended, it is taken. -/
theorem wait_child (h : Inv S s) (ho : Own s) (hrun : s.running r = some a)
    (htodo : a.todo = .waitpid any :: rest) (hc : c.maker = some r) (hb : s.proc c = some b) :
    (s.table.Live b.pid → ∀ answer, act program s r a answer = (s, [])) ∧
    (¬s.table.Live b.pid → act program s r a (some b.pid) =
      ({ s with table := s.table.apply (.reap a.pid b.pid) }.set r { a with todo := rest },
        [])) := by
  have huse : ∃ x ∈ a.todo, x.uses = true := ⟨.waitpid any, by simp [htodo], rfl⟩
  obtain ⟨hforked, hat⟩ := h.child_of_uses hrun huse hc hb
  obtain ⟨e, he, hserial⟩ := Table.at_iff.1 hat
  have hparent := h.parent_of_child hrun hc hb he hserial
  have htarget : (if any then none else a.forked) = none ∨
      (if any then none else a.forked) = some b.pid := by
    cases any
    · exact .inr hforked
    · exact .inl rfl
  constructor
  · intro hlive answer
    have hanswer : (answer.filter fun q => (∀ n ∈ if any then none else a.forked, q = n) ∧
        s.table.Legal (.reap a.pid q)) = none := by
      refine Option.filter_eq_none_iff.2 fun q _ hq => ?_
      obtain ⟨f, hf, hzombie, hfparent⟩ := Table.legal_reap_iff.1 (of_decide_eq_true hq).2
      obtain rfl := eq_child_of_parent ho hrun hc hb hf hfparent
      obtain ⟨g, hg, hlives⟩ := Table.live_iff.1 hlive
      rw [hf] at hg
      cases hg
      rw [hzombie] at hlives
      cases hlives
    rw [act_wait htodo, hanswer]
    exact if_pos (hasChild_of_at h hrun hc hb hat htarget)
  · intro hdead
    have hlegal : s.table.Legal (.reap a.pid b.pid) := by
      have hzombie : e.zombie = true := by
        by_contra hne
        exact hdead (Table.live_iff.2 ⟨e, he, by simpa using hne⟩)
      exact Table.legal_reap_iff.2 ⟨e, he, hzombie, hparent⟩
    have hanswer : ((some b.pid).filter fun q => (∀ n ∈ if any then none else a.forked, q = n) ∧
        s.table.Legal (.reap a.pid q)) = some b.pid := by
      refine Option.filter_eq_some_iff.2 ⟨rfl, decide_eq_true ⟨?_, hlegal⟩⟩
      rcases htarget with hnone | hsome
      · simp [hnone]
      · simp [hsome]
    rw [act_wait htodo, hanswer]

/-- There is nothing to wait for when `fork()` has failed. -/
theorem wait_no_child (ho : Own s) (hrun : s.running r = some a)
    (htodo : a.todo = .waitpid any :: rest) (hnone : ∀ c, c.maker = some r → s.proc c = none)
    (answer : Option ℕ) : act program s r a answer = (s.set r { a with todo := rest }, []) := by
  have hno {q e} (he : s.table.entry q = some e) : e.parent ≠ a.pid := by
    intro hparent
    obtain ⟨c, b, hc, hb, -⟩ := ho.children r a q e hrun he hparent
    rw [hnone c hc] at hb
    cases hb
  have hanswer : (answer.filter fun q => (∀ n ∈ if any then none else a.forked, q = n) ∧
      s.table.Legal (.reap a.pid q)) = none := by
    refine Option.filter_eq_none_iff.2 fun q _ hq => ?_
    obtain ⟨f, hf, -, hparent⟩ := Table.legal_reap_iff.1 (of_decide_eq_true hq).2
    exact hno hf hparent
  rw [act_wait htodo, hanswer]
  refine if_neg ?_
  rintro ⟨q, -, -, hq⟩
  cases hf : s.table.entry q with
  | none => simp [hf] at hq
  | some f => simp [hf, hno hf] at hq

def Program.Waits (program : Program) (r : Role) : Prop :=
  ∃ x ∈ program.script r, x.isWait = true

/-- A process that waits at all still has its wait ahead or no child left in the table. -/
structure Awaited (program : Program) (s : State) : Prop where
  due : ∀ r a c checked, program.Waits r → s.proc r = some a → .fork c checked ∈ a.todo →
    ∃ x ∈ a.todo, x.isWait = true
  gone : ∀ r a c b, program.Waits r → s.proc r = some a → c.maker = some r →
    s.proc c = some b → (∃ x ∈ a.todo, x.isWait = true) ∨ ¬s.table.At b.pid b.serial

theorem awaited_start (program : Program) (S : Start) : Awaited program (start program S) := by
  refine ⟨fun r a c checked hwaits ha _ => ?_, fun r a c b _ _ hc hb => ?_⟩
  · by_cases hr : r = .parent
    · subst hr
      simp only [start, Function.update_self, Option.some.injEq] at ha
      rw [← ha]
      exact hwaits
    · simp [start, Function.update_of_ne hr] at ha
  · have hne : c ≠ .parent := by
      rintro rfl
      cases hc
    simp [start, Function.update_of_ne hne] at hb

theorem not_at_apply (h : Inv S s) (hb : s.proc c = some b) (hat : ¬s.table.At b.pid b.serial)
    (htable : s'.table = s.table.apply op) : ¬s'.table.At b.pid b.serial := by
  rw [htable]
  exact fun hat' => hat (Table.at_of_at_apply (h.below c b hb) hat')

/-- A wait that is over has taken the child. -/
theorem gone_of_wait {a' : Proc} {out : List (Role × Bytes)} (h : Inv S s) (ho : Own s)
    (hrun : s.running r = some a) (hadv : Advance s r a a' op out)
    (htable : s'.table = s.table.apply op) (hc : c.maker = some r) (hb : s.proc c = some b)
    (hwait : ∃ x ∈ a.todo, x.isWait = true) :
    (∃ x ∈ a'.todo, x.isWait = true) ∨ ¬s'.table.At b.pid b.serial := by
  obtain ⟨x, hx, hxwait⟩ := hwait
  have ha := (running_iff.1 hrun).1
  rcases hadv.wait x hx hxwait with hmem | ⟨-, ⟨d, checked, hfork⟩ | ⟨q, rfl, hlegal⟩ |
    ⟨target, htarget, hnone⟩⟩
  · exact .inl ⟨x, hmem, hxwait⟩
  · have hnone := h.fresh r a d checked ha hfork
    rw [maker_inj (h.forks r a d checked ha hfork) hc, hb] at hnone
    cases hnone
  · right
    obtain ⟨f, hf, -, hparent⟩ := Table.legal_reap_iff.1 hlegal
    obtain rfl := eq_child_of_parent ho hrun hc hb hf hparent
    rw [htable, Table.apply_of_legal hlegal]
    simp [Table.At, Table.effect, Table.reap]
  · refine .inr (not_at_apply h hb (fun hat => hnone ?_) htable)
    rw [h.number c r a b hc ha hb] at htarget
    exact hasChild_of_at h hrun hc hb hat htarget

theorem awaited_fork {a : Proc} {checked : Bool} {p : ℕ} (h : Inv S s) (hw : Awaited program s)
    (hf : Forks program s s' r c a checked rest p) : Awaited program s' := by
  have ha := (running_iff.1 hf.run).1
  have hahead (hwaits : program.Waits r) : ∃ x ∈ rest, x.isWait = true := by
    obtain ⟨x, hx, hwait⟩ := hw.due r a c checked hwaits ha hf.mem
    rw [hf.todo] at hx
    rcases List.mem_cons.1 hx with rfl | hx
    · cases hwait
    · exact ⟨x, hx, hwait⟩
  refine ⟨fun q b' d checked' hwaits hb' hd => ?_, fun q b' d f' hwaits hb' hd hf' => ?_⟩
  · by_cases hq : q = c
    · subst hq
      rw [hf.self] at hb'
      cases hb'
      exact hwaits
    · by_cases hqr : q = r
      · subst hqr
        rw [hf.parent h] at hb'
        cases hb'
        exact hahead hwaits
      · exact hw.due q b' d checked' hwaits (hf.other hq hqr ▸ hb') hd
  · by_cases hqr : q = r
    · subst hqr
      rw [hf.parent h] at hb'
      cases hb'
      exact .inl (hahead hwaits)
    · have hdc : d ≠ c := by
        rintro rfl
        exact hqr (Option.some.inj (hd.symm.trans (hf.maker h)))
      obtain ⟨f, hdf, hpid, hserial, -⟩ := hf.old h hdc hf'
      have hqc : q ≠ c := by
        rintro rfl
        rw [h.made d q hd (hf.none_before h)] at hdf
        cases hdf
      rw [hpid, hserial]
      exact (hw.gone q b' d f hwaits (hf.other hqc hqr ▸ hb') hd hdf).imp_right fun hat =>
        not_at_apply h hdf hat hf.table

theorem awaited_act {a a' : Proc} {out : List (Role × Bytes)} (h : Inv S s) (ho : Own s)
    (hw : Awaited program s) (hrun : s.running r = some a) (hadv : Advance s r a a' op out)
    (htable : s'.table = s.table.apply op)
    (hproc : s'.proc = Function.update s.proc r (some a')) : Awaited program s' := by
  have ha := (running_iff.1 hrun).1
  have hself : s'.proc r = some a' := by rw [hproc, Function.update_self]
  have hother {q} (hq : q ≠ r) : s'.proc q = s.proc q := by rw [hproc, Function.update_of_ne hq]
  refine ⟨fun q b' d checked hwaits hb' hd => ?_, fun q b' d f' hwaits hb' hd hf' => ?_⟩
  · by_cases hq : q = r
    · subst hq
      rw [hself] at hb'
      cases hb'
      have hfork : .fork d checked ∈ a.todo := by
        rcases hadv.kept _ hd with hmem | hexit
        · exact hmem
        · cases hexit
      obtain ⟨x, hx, hwait⟩ := hw.due q a d checked hwaits ha hfork
      rcases hadv.wait x hx hwait with hmem | ⟨hnone, -⟩
      · exact ⟨x, hmem, hwait⟩
      · exact absurd hd (hnone d checked)
    · exact hw.due q b' d checked hwaits (hother hq ▸ hb') hd
  · by_cases hq : q = r
    · subst hq
      have hdq : d ≠ q := by
        rintro rfl
        cases d <;> cases hd
      rw [hself] at hb'
      rw [hother hdq] at hf'
      cases hb'
      rcases hw.gone q a d f' hwaits ha hd hf' with hwait | hat
      · exact gone_of_wait h ho hrun hadv htable hd hf' hwait
      · exact .inr (not_at_apply h hf' hat htable)
    · rw [hother hq] at hb'
      by_cases hdr : d = r
      · subst hdr
        rw [hself] at hf'
        cases hf'
        rw [hadv.pid, hadv.serial]
        exact (hw.gone q b' d a hwaits hb' hd ha).imp_right fun hat =>
          not_at_apply h ha hat htable
      · rw [hother hdr] at hf'
        exact (hw.gone q b' d f' hwaits hb' hd hf').imp_right fun hat =>
          not_at_apply h hf' hat htable

theorem awaited_step (h : Inv S s) (ho : Own s) (hw : Awaited program s) (input : Input) :
    Awaited program (step program s input).1 := by
  generalize hs' : (step program s input).1 = s'
  have heffect := effect_step program (fun r a hrun => h.order r a (running_iff.1 hrun).1) input
  rw [hs'] at heffect
  cases heffect with
  | other op hop htable hproc _ =>
    refine ⟨?_, ?_⟩
    · rw [hproc]
      exact hw.due
    · rw [hproc]
      intro r a c b hwaits ha hc hb
      exact (hw.gone r a c b hwaits ha hc hb).imp_right fun hat => not_at_apply h hb hat htable
  | fork r c a checked rest p hf _ => exact awaited_fork h hw hf
  | act r a a' op hrun hadv htable hproc => exact awaited_act h ho hw hrun hadv htable hproc

theorem Lab.waits (lab : Lab) : lab.program.Waits .parent := by
  have hany : (lab.script .parent).any Action.isWait = true := by cases lab <;> decide
  exact List.any_eq_true.1 hany

/-- None of the three programs leaves a zombie: when the parent is past its wait, the
child is not in the table any more. -/
theorem past_wait (lab : Lab) {S : Start} (hS : S.Alone) (inputs : List Input) {a b : Proc}
    (ha : (exec (step lab.program) (start lab.program S) inputs).proc .parent = some a)
    (hpast : ∀ x ∈ a.todo, x.isWait = false)
    (hb : (exec (step lab.program) (start lab.program S) inputs).proc .child = some b) :
    ¬(exec (step lab.program) (start lab.program S) inputs).table.At b.pid b.serial := by
  have hrun := invariant_exec (fun s => Inv S s ∧ Own s ∧ Awaited lab.program s)
    (fun s input h => ⟨inv_step h.1 input, own_step h.1 h.2.1 input,
      awaited_step h.1 h.2.1 h.2.2 input⟩)
    ⟨inv_start lab.program S, own_start lab.program hS, awaited_start lab.program S⟩ inputs
  rcases hrun.2.2.gone .parent a .child b lab.waits ha rfl hb with ⟨x, hx, hwait⟩ | hat
  · simp [hpast x hx] at hwait
  · exact hat

theorem past_wait_lab_2 :
    let inputs : List Input := [.act .parent (some 5), .act .parent none, .act .parent none,
      .act .parent (some 5)]
    ¬(exec (step Lab.lab_2.program) (start Lab.lab_2.program smallSystem) inputs).table.At 5 4 :=
  past_wait .lab_2 smallSystem_alone [.act .parent (some 5), .act .parent none, .act .parent none,
    .act .parent (some 5)] rfl (by simp [Action.isWait]) rfl

end Wait

end AcademyLab.Family
