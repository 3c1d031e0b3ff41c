import AcademyLab.CString
import AcademyLab.Machine
import AcademyLab.ProcessTable
import Mathlib.Data.Fintype.Basic

/-!
# Parent, child and grandchild

How the programs of section 3 run: a process forks at most one other process, prints,
kills its child, waits for it and ends. All other processes of the system go on as they
like, and anybody may kill anybody at any time. A step is one call; `sleep` only leaves
time to the others. The output is a terminal, so that each `printf` writes its line.
-/
namespace AcademyLab.Family
open CString Machine ProcessTable

inductive Role
  | parent
  | child
  | grandchild
  deriving DecidableEq

instance : Fintype Role :=
  ⟨{.parent, .child, .grandchild}, fun r => by cases r <;> decide⟩

/-- The one whose `fork` makes the process. -/
def Role.maker : Role → Option Role
  | .parent => none
  | .child => some .parent
  | .grandchild => some .child

theorem maker_inj {q r m : Role} (hq : q.maker = some m) (hr : r.maker = some m) : q = r := by
  cases q <;> cases r <;> cases hq <;> cases hr <;> rfl

/-- A call. `print` has the text for given `getpid()` and `getppid()`, `waitpid true` is
`wait`, and a checked `fork` that fails is the end of the program. -/
inductive Action
  | fork (c : Role) (checked : Bool)
  | print (text : ℕ → ℕ → Bytes)
  | kill
  | waitpid (any : Bool)
  | execlp (text : Bytes)
  | exit

namespace Action

/-- The call needs the number of the child. -/
def uses : Action → Bool
  | .kill | .waitpid _ => true
  | _ => false

def isWait : Action → Bool
  | .waitpid _ => true
  | _ => false

/-- The lines of a program; the one of `execlp` comes from `echo`. -/
def text : Action → Option (ℕ → ℕ → Bytes)
  | .print text => some text
  | .execlp text => some fun _ _ => text
  | _ => none

/-- The order of calls: `fork` comes before what uses the child, the child is not used
after the wait, and nothing but the end follows `execlp`. -/
def before : Action → Action → Bool
  | .exit, _ => false
  | .execlp _, .exit => true
  | .execlp _, _ => false
  | .print _, _ => true
  | _, .fork _ _ => false
  | .waitpid _, y => !y.uses
  | _, _ => true

end Action

def texts (todo : List Action) : List (ℕ → ℕ → Bytes) := todo.filterMap Action.text

/-- What each process is to do. -/
structure Program where
  script : Role → List Action
  order : ∀ r, (script r).Pairwise fun x y => x.before y
  forks : ∀ r c checked, .fork c checked ∈ script r → c.maker = some r

/-- `forked` is what `fork()` has returned, `none` for −1. -/
structure Proc where
  pid : ℕ
  serial : ℕ
  forked : Option ℕ
  todo : List Action

structure State where
  table : Table
  proc : Role → Option Proc

/-- The choice of a free number, of the child that is waited for, or that there is an
`echo`, and what somebody else does. -/
inductive Input
  | act (r : Role) (answer : Option ℕ)
  | other (op : Op)

/-- The shell has made the process of `main` and may have ended since. -/
structure Start where
  table : Table
  sound : table.Sound
  pid : ℕ
  serial : ℕ
  user : ℕ
  adopts : Bool
  parent : ℕ
  entry : table.entry pid = some ⟨serial, parent, user, false, adopts⟩
  shell : ℕ
  shellSerial : ℕ
  shellBorn : shellSerial < table.born
  link : if table.Runs shell shellSerial then parent = shell else table.Adopts parent

/-- The process of `main` has no children yet, and no orphans will come to it. -/
structure Start.Alone (S : Start) : Prop where
  adopts : ¬S.table.Adopts S.pid
  childless : ∀ q e, S.table.entry q = some e → e.parent ≠ S.pid

namespace State

def running (s : State) (r : Role) : Option Proc :=
  (s.proc r).filter fun a => s.table.Runs a.pid a.serial

/-- What others do is not done by the processes of the program. -/
def Foreign (s : State) (op : Op) : Prop :=
  op = .exit op.actor ∨ ∀ r, ∀ a ∈ s.running r, op.actor ≠ a.pid

instance (s : State) (op : Op) : Decidable (s.Foreign op) :=
  inferInstanceAs (Decidable (_ ∨ _))

def set (s : State) (r : Role) (a : Proc) : State :=
  { s with proc := Function.update s.proc r (some a) }

def getppid (s : State) (p : ℕ) : ℕ := ((s.table.entry p).map Entry.parent).getD 0

/-- `p` has a child with the number `target`, or with any number. -/
def HasChild (s : State) (p : ℕ) (target : Option ℕ) : Prop :=
  ∃ q < s.table.limit, (∀ n ∈ target, q = n) ∧
    (s.table.entry q).any fun e => decide (e.parent = p)

instance (s : State) (p : ℕ) (target : Option ℕ) : Decidable (s.HasChild p target) :=
  inferInstanceAs (Decidable (∃ q < s.table.limit, _ ∧ _))

end State

section Step
variable (program : Program)

/-- The next call of the process `a`. -/
def act (s : State) (r : Role) (a : Proc) (answer : Option ℕ) :
    State × List (Role × Bytes) :=
  match a.todo with
  | [] => (s, [])
  | .fork c checked :: rest =>
    match answer.filter fun p => s.table.Legal (.fork a.pid p) with
    | some p =>
      let table := s.table.apply (.fork a.pid p)
      let child : Proc := ⟨p, s.table.born, none, program.script c⟩
      (({ s with table }.set r { a with forked := some p, todo := rest }).set c child, [])
    | none =>
      (s.set r { a with forked := none, todo := if checked then [.exit] else rest }, [])
  | .print text :: rest => (s.set r { a with todo := rest }, [(r, text a.pid (s.getppid a.pid))])
  | .kill :: rest =>
    -- `kill(-1, SIGKILL)` is for all processes
    let op := match a.forked with
      | some c => .exit c
      | none => .killAll a.pid
    ({ s with table := s.table.apply op }.set r { a with todo := rest }, [])
  | .waitpid any :: rest =>
    let target := if any then none else a.forked
    match answer.filter fun q => (∀ n ∈ target, q = n) ∧ s.table.Legal (.reap a.pid q) with
    | some q =>
      ({ s with table := s.table.apply (.reap a.pid q) }.set r { a with todo := rest }, [])
    | none => if s.HasChild a.pid target then (s, []) else (s.set r { a with todo := rest }, [])
  | .execlp text :: rest =>
    match answer with
    | some _ => (s.set r { a with todo := [.exit] }, [(r, text)])
    | none => (s.set r { a with todo := rest }, [])
  | .exit :: _ => ({ s with table := s.table.apply (.exit a.pid) }.set r { a with todo := [] }, [])

def step (s : State) : Input → State × List (Role × Bytes)
  | .act r answer =>
    match s.running r with
    | some a => act program s r a answer
    | none => (s, [])
  | .other op => if s.Foreign op then ({ s with table := s.table.apply op }, []) else (s, [])

def start (S : Start) : State :=
  ⟨S.table, Function.update (fun _ => none) .parent
    (some ⟨S.pid, S.serial, none, program.script .parent⟩)⟩

end Step

/-! ## What a step can be -/

/-- A call of `a` other than a `fork` that succeeds leaves `a'` and does `op`. -/
structure Advance (s : State) (r : Role) (a a' : Proc) (op : Op) (out : List (Role × Bytes)) :
    Prop where
  pid : a'.pid = a.pid
  serial : a'.serial = a.serial
  own : op.actor = a.pid ∨ op = .exit op.actor
  notFork : ∀ p q, op ≠ .fork p q
  forked : a'.forked = a.forked ∨ a'.forked = none ∧ ∃ c checked, .fork c checked ∈ a.todo
  order : a'.todo.Pairwise fun x y => x.before y
  kept : ∀ x ∈ a'.todo, x ∈ a.todo ∨ x = .exit
  reap : ∀ p q, op = .reap p q → ∀ x ∈ a'.todo, x.uses = false
  wait : ∀ x ∈ a.todo, x.isWait = true → x ∈ a'.todo ∨
    (∀ c checked, .fork c checked ∉ a'.todo) ∧
      ((∃ c checked, .fork c checked ∈ a.todo) ∨ (∃ q, op = .reap a.pid q ∧ s.table.Legal op) ∨
        ∃ target, (target = none ∨ target = a.forked) ∧ ¬s.HasChild a.pid target)
  out : out = [] ∧ (texts a'.todo = texts a.todo ∨ texts a'.todo = []) ∨
    ∃ text rest, texts a.todo = text :: rest ∧ (texts a'.todo = rest ∨ texts a'.todo = []) ∧
      out = [(r, text a.pid (s.getppid a.pid))]

/-- A `fork` of `a` makes `c` with the number `p`. -/
structure Forks (program : Program) (s s' : State) (r c : Role) (a : Proc) (checked : Bool)
    (rest : List Action) (p : ℕ) : Prop where
  run : s.running r = some a
  todo : a.todo = .fork c checked :: rest
  legal : s.table.Legal (.fork a.pid p)
  table : s'.table = s.table.apply (.fork a.pid p)
  proc : s'.proc = Function.update
    (Function.update s.proc r (some { a with forked := some p, todo := rest })) c
    (some ⟨p, s.table.born, none, program.script c⟩)

inductive Effect (program : Program) (s s' : State) (out : List (Role × Bytes)) : Prop
  | other (op : Op) (hop : s.Foreign op) (htable : s'.table = s.table.apply op)
      (hproc : s'.proc = s.proc) (hout : out = [])
  | fork (r c : Role) (a : Proc) (checked : Bool) (rest : List Action) (p : ℕ)
      (hfork : Forks program s s' r c a checked rest p) (hout : out = [])
  | act (r : Role) (a a' : Proc) (op : Op) (hrun : s.running r = some a)
      (hadv : Advance s r a a' op out) (htable : s'.table = s.table.apply op)
      (hproc : s'.proc = Function.update s.proc r (some a'))

section Effect
variable {program : Program} {s : State} {r : Role} {a : Proc}

/-- The reaper does not end. -/
theorem apply_quiet (t : Table) : t.apply (.exit reaper) = t :=
  Table.apply_of_not_legal fun h => h.2 rfl

theorem Effect.refl : Effect program s s [] :=
  .other (.exit reaper) (.inl rfl) (apply_quiet _).symm rfl rfl

/-- What is left to do after a call is the rest, or no more than the end. -/
theorem order_rest {x : Action} {rest todo : List Action}
    (horder : (x :: rest).Pairwise fun x y => x.before y)
    (h : todo = rest ∨ todo = [] ∨ todo = [.exit]) :
    (todo.Pairwise fun x y => x.before y) ∧ ∀ y ∈ todo, y ∈ x :: rest ∨ y = .exit := by
  rcases h with rfl | rfl | rfl
  · exact ⟨horder.tail, fun y hy => .inl (List.mem_cons_of_mem x hy)⟩
  · exact ⟨List.Pairwise.nil, fun y hy => absurd hy List.not_mem_nil⟩
  · exact ⟨List.pairwise_singleton _ _, fun y hy => .inr (List.mem_singleton.1 hy)⟩

theorem texts_after_execlp {text : Bytes} {rest : List Action}
    (horder : (Action.execlp text :: rest).Pairwise fun x y => x.before y) : texts rest = [] := by
  refine List.filterMap_eq_nil_iff.2 fun y hy => ?_
  have hbefore := List.rel_of_pairwise_cons horder hy
  cases y <;> first | rfl | cases hbefore

theorem no_fork_after {x : Action} {rest : List Action}
    (horder : (x :: rest).Pairwise fun x y => x.before y) (hx : x.text = none) (c : Role)
    (checked : Bool) : .fork c checked ∉ rest := by
  intro hmem
  have hbefore := List.rel_of_pairwise_cons horder hmem
  cases x with
  | print => simp [Action.text] at hx
  | fork | kill | waitpid | execlp | exit => cases hbefore

theorem unused_after_wait {any : Bool} {rest : List Action}
    (horder : (Action.waitpid any :: rest).Pairwise fun x y => x.before y) :
    ∀ y ∈ rest, y.uses = false := by
  intro y hy
  have hbefore := List.rel_of_pairwise_cons horder hy
  cases y <;> first | rfl | cases hbefore

variable {x : Action} {rest : List Action} {a' : Proc} {op : Op} {out : List (Role × Bytes)}

/-- A call that is no `fork` and no wait. -/
theorem Advance.of_call (htodo : a.todo = x :: rest)
    (horder : a.todo.Pairwise fun x y => x.before y) (hpid : a'.pid = a.pid)
    (hserial : a'.serial = a.serial) (hforked : a'.forked = a.forked)
    (hrest : a'.todo = rest ∨ a'.todo = [] ∨ a'.todo = [.exit])
    (hown : op.actor = a.pid ∨ op = .exit op.actor) (hfork : ∀ p q, op ≠ .fork p q)
    (hreap : ∀ p q, op ≠ .reap p q) (hwait : ∀ y ∈ x :: rest, y.isWait = true → y ∈ a'.todo)
    (hout : out = [] ∧ (texts a'.todo = texts a.todo ∨ texts a'.todo = []) ∨
      ∃ text rest, texts a.todo = text :: rest ∧ (texts a'.todo = rest ∨ texts a'.todo = []) ∧
        out = [(r, text a.pid (s.getppid a.pid))]) :
    Advance s r a a' op out := by
  rw [htodo] at horder
  obtain ⟨hnext, hkept⟩ := order_rest horder hrest
  refine ⟨hpid, hserial, hown, hfork, .inl hforked, hnext, ?_, ?_, ?_, hout⟩
  · rwa [htodo]
  · exact fun p q hop => absurd hop (hreap p q)
  · rw [htodo]
    exact fun y hy hy' => .inl (hwait y hy hy')

theorem effect_fork {c : Role} {checked : Bool} (hrun : s.running r = some a)
    (horder : a.todo.Pairwise fun x y => x.before y) (htodo : a.todo = .fork c checked :: rest)
    (answer : Option ℕ) :
    Effect program s (act program s r a answer).1 (act program s r a answer).2 := by
  have hquiet := (apply_quiet s.table).symm
  have horder' := htodo ▸ horder
  unfold act
  rw [htodo]
  dsimp only
  cases hanswer : answer.filter fun p => s.table.Legal (.fork a.pid p) with
  | some p =>
    have hlegal := of_decide_eq_true (Option.filter_eq_some_iff.1 hanswer).2
    exact .fork r c a checked rest p ⟨hrun, htodo, hlegal, rfl, rfl⟩ rfl
  | none =>
    have hrest : (if checked then [.exit] else rest) = rest ∨
        (if checked then [.exit] else rest) = [] ∨
        (if checked then [.exit] else rest) = [Action.exit] := by
      cases checked <;> simp
    obtain ⟨hnext, hkept⟩ := order_rest horder' hrest
    refine .act r a _ (.exit reaper) hrun ?_ hquiet rfl
    have hfork : ∃ c checked, .fork c checked ∈ a.todo :=
      ⟨c, checked, by simp [htodo]⟩
    refine ⟨rfl, rfl, .inr rfl, by simp, .inr ⟨rfl, hfork⟩, hnext, ?_, by simp, ?_, ?_⟩
    · rwa [htodo]
    · refine fun _ _ _ => .inr ⟨?_, .inl hfork⟩
      cases checked
      · exact no_fork_after horder' rfl
      · simp
    · refine .inl ⟨rfl, ?_⟩
      rw [htodo]
      cases checked
      · exact .inl rfl
      · exact .inr rfl

theorem effect_waitpid {any : Bool} (hrun : s.running r = some a)
    (horder : a.todo.Pairwise fun x y => x.before y) (htodo : a.todo = .waitpid any :: rest)
    (answer : Option ℕ) :
    Effect program s (act program s r a answer).1 (act program s r a answer).2 := by
  have hquiet := (apply_quiet s.table).symm
  have horder' := htodo ▸ horder
  unfold act
  rw [htodo]
  dsimp only
  have hout : ([] : List (Role × Bytes)) = [] ∧ (texts rest = texts a.todo ∨ texts rest = []) :=
    ⟨rfl, .inl (by rw [htodo]; rfl)⟩
  cases hanswer : answer.filter fun q =>
      (∀ n ∈ if any then none else a.forked, q = n) ∧ s.table.Legal (.reap a.pid q) with
  | some q =>
    have hlegal := (of_decide_eq_true (Option.filter_eq_some_iff.1 hanswer).2).2
    refine .act r a _ (.reap a.pid q) hrun ?_ rfl rfl
    refine ⟨rfl, rfl, .inl rfl, by simp, .inl rfl, horder'.tail, ?_, ?_, ?_, .inl hout⟩
    · exact fun y hy => .inl (by simp [htodo, hy])
    · exact fun _ _ _ => unused_after_wait horder'
    · exact fun _ _ _ => .inr ⟨no_fork_after horder' rfl, .inr (.inl ⟨q, rfl, hlegal⟩)⟩
  | none =>
    dsimp only
    by_cases hchild : s.HasChild a.pid (if any then none else a.forked)
    · rw [if_pos hchild]
      exact .refl
    · rw [if_neg hchild]
      refine .act r a _ (.exit reaper) hrun ?_ hquiet rfl
      refine ⟨rfl, rfl, .inr rfl, by simp, .inl rfl, horder'.tail, ?_, ?_, ?_, .inl hout⟩
      · exact fun y hy => .inl (by simp [htodo, hy])
      · exact fun _ _ _ => unused_after_wait horder'
      · refine fun _ _ _ => .inr ⟨no_fork_after horder' rfl, .inr (.inr ⟨_, ?_, hchild⟩)⟩
        cases any <;> simp

theorem effect_act (hrun : s.running r = some a)
    (horder : a.todo.Pairwise fun x y => x.before y) (answer : Option ℕ) :
    Effect program s (act program s r a answer).1 (act program s r a answer).2 := by
  have hquiet := (apply_quiet s.table).symm
  cases htodo : a.todo with
  | nil => simpa [act, htodo] using Effect.refl
  | cons x rest =>
    have horder' := htodo ▸ horder
    cases x with
    | fork c checked => exact effect_fork hrun horder htodo answer
    | print text =>
      simp only [act, htodo]
      refine .act r a _ (.exit reaper) hrun ?_ hquiet rfl
      refine .of_call htodo horder rfl rfl rfl (.inl rfl) (.inr rfl) (by simp) (by simp) ?_ ?_
      · intro y hy hwait
        rcases List.mem_cons.1 hy with rfl | hy
        · cases hwait
        · exact hy
      · exact .inr ⟨text, texts rest, by simp [htodo, texts, Action.text], .inl rfl, rfl⟩
    | kill =>
      simp only [act, htodo]
      refine .act r a _ _ hrun ?_ rfl rfl
      refine .of_call htodo horder rfl rfl rfl (.inl rfl) ?_ ?_ ?_ ?_ ?_
      · cases a.forked with
        | some c => exact .inr rfl
        | none => exact .inl rfl
      · cases a.forked <;> simp
      · cases a.forked <;> simp
      · intro y hy hwait
        rcases List.mem_cons.1 hy with rfl | hy
        · cases hwait
        · exact hy
      · exact .inl ⟨rfl, .inl (by rw [htodo]; rfl)⟩
    | waitpid any => exact effect_waitpid hrun horder htodo answer
    | execlp text =>
      have hnone : ∀ y ∈ Action.execlp text :: rest, y.isWait = false := by
        intro y hy
        rcases List.mem_cons.1 hy with rfl | hy
        · rfl
        · have hbefore := List.rel_of_pairwise_cons horder' hy
          cases y <;> first | rfl | cases hbefore
      simp only [act, htodo]
      cases answer with
      | some _ =>
        refine .act r a _ (.exit reaper) hrun ?_ hquiet rfl
        refine .of_call htodo horder rfl rfl rfl (.inr (.inr rfl)) (.inr rfl) (by simp) (by simp)
          (fun y hy hwait => by simp [hnone y hy] at hwait) ?_
        exact .inr ⟨fun _ _ => text, texts rest, by simp [htodo, texts, Action.text], .inr rfl, rfl⟩
      | none =>
        refine .act r a _ (.exit reaper) hrun ?_ hquiet rfl
        refine .of_call htodo horder rfl rfl rfl (.inl rfl) (.inr rfl) (by simp) (by simp)
          (fun y hy hwait => by simp [hnone y hy] at hwait) ?_
        exact .inl ⟨rfl, .inr (texts_after_execlp horder')⟩
    | exit =>
      have hnone : rest = [] := by
        cases rest with
        | nil => rfl
        | cons y rest => cases List.rel_of_pairwise_cons horder' List.mem_cons_self
      simp only [act, htodo]
      refine .act r a _ (.exit a.pid) hrun ?_ rfl rfl
      refine .of_call htodo horder rfl rfl rfl (.inr (.inl rfl)) (.inr rfl) (by simp) (by simp)
        ?_ ?_
      · intro y hy hwait
        rw [hnone, List.mem_singleton] at hy
        cases hy
        cases hwait
      · exact .inl ⟨rfl, .inr rfl⟩

variable (program) in
theorem effect_step (horder : ∀ r a, s.running r = some a →
      a.todo.Pairwise fun x y => x.before y) (input : Input) :
    Effect program s (step program s input).1 (step program s input).2 := by
  cases input with
  | act r answer =>
    cases hrun : s.running r with
    | none => simpa [step, hrun] using Effect.refl
    | some a => simpa [step, hrun] using effect_act hrun (horder r a hrun) answer
  | other op =>
    by_cases hop : s.Foreign op
    · rw [step, if_pos hop]
      exact .other op hop rfl rfl rfl
    · rw [step, if_neg hop]
      exact .refl

end Effect

end AcademyLab.Family
