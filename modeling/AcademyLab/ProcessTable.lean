import Mathlib.Data.Nat.Notation
import Mathlib.Logic.Function.Basic
import Mathlib.Tactic.SplitIfs

/-!
# A table of processes

Processes fork, end and wait for their children. A process that has ended stays in the
table as a zombie until its parent has waited for it, and only then is its number free
for another one. The children of a process that ends go to its nearest ancestor that has
asked for them, or else to the first process. To tell processes apart that have the same
number one after the other, each has a serial number as well.
-/
namespace AcademyLab.ProcessTable

/-- `adopts` is set for a process that has asked for the orphans among its descendants, as
the `systemd` of a user does. -/
structure Entry where
  serial : ℕ
  parent : ℕ
  user : ℕ
  zombie : Bool
  adopts : Bool
  deriving DecidableEq

/-- The numbers are below `limit`; `born` is the serial number of the next process. -/
structure Table where
  limit : ℕ
  entry : ℕ → Option Entry
  born : ℕ

/-- The first process, which does not end and takes the orphans that nobody else takes. -/
def reaper : ℕ := 1

/-- What a process does to the table: `killAll p` ends what `p` may end, except for itself
and the reaper. -/
inductive Op
  | fork (p c : ℕ)
  | exit (p : ℕ)
  | reap (p c : ℕ)
  | killAll (p : ℕ)
  deriving DecidableEq

def Op.actor : Op → ℕ
  | .fork p _ | .exit p | .reap p _ | .killAll p => p

namespace Table

def Live (t : Table) (p : ℕ) : Prop := (t.entry p).any fun e => !e.zombie

instance (t : Table) (p : ℕ) : Decidable (t.Live p) := inferInstanceAs (Decidable (_ = true))

/-- Process `n` has the number `p`; it may be a zombie. -/
def At (t : Table) (p n : ℕ) : Prop := (t.entry p).any fun e => decide (e.serial = n)

instance (t : Table) (p n : ℕ) : Decidable (t.At p n) := inferInstanceAs (Decidable (_ = true))

def Runs (t : Table) (p n : ℕ) : Prop := t.At p n ∧ t.Live p

instance (t : Table) (p n : ℕ) : Decidable (t.Runs p n) := inferInstanceAs (Decidable (_ ∧ _))

def user (t : Table) (p : ℕ) : ℕ := ((t.entry p).map Entry.user).getD 0

def fork (t : Table) (p c : ℕ) : Table :=
  { t with
    entry := Function.update t.entry c (some ⟨t.born, p, t.user p, false, false⟩)
    born := t.born + 1 }

/-- The nearest of `q` and its ancestors that takes orphans in and is none of the processes
`S`, which end. A process has fewer than `limit` ancestors, so that this is fuel enough. -/
def heir (t : Table) (S : ℕ → Bool) : ℕ → ℕ → ℕ
  | 0, _ => reaper
  | fuel + 1, q =>
    match t.entry q with
    | none => reaper
    | some e =>
      if S q = false ∧ e.zombie = false ∧ e.adopts = true then q else t.heir S fuel e.parent

/-- The processes in `S` end. -/
def stop (t : Table) (S : ℕ → Bool) : Table :=
  { t with entry := fun q => (t.entry q).map fun e =>
      { e with
        parent := if S e.parent then t.heir S t.limit e.parent else e.parent
        zombie := e.zombie || S q } }

def reap (t : Table) (c : ℕ) : Table := { t with entry := Function.update t.entry c none }

/-- The reaper does not end, and a process waits for its own children. -/
def Legal (t : Table) : Op → Prop
  | .fork p c => t.Live p ∧ 0 < c ∧ c < t.limit ∧ t.entry c = none
  | .exit p => t.Live p ∧ p ≠ reaper
  | .reap p c => (t.entry c).any fun e => e.zombie && decide (e.parent = p)
  | .killAll p => t.Live p

instance (t : Table) (op : Op) : Decidable (t.Legal op) :=
  match op with
  | .fork _ _ | .exit _ | .reap _ _ | .killAll _ => by
    unfold Legal
    infer_instance

/-- User 0 may end the processes of all users. -/
def victims (t : Table) (p q : ℕ) : Bool :=
  t.Live q ∧ q ≠ p ∧ q ≠ reaper ∧ (t.user p = 0 ∨ t.user q = t.user p)

def effect (t : Table) : Op → Table
  | .fork p c => t.fork p c
  | .exit p => t.stop fun q => q = p
  | .reap _ c => t.reap c
  | .killAll p => t.stop (t.victims p)

/-- What cannot be done changes nothing. -/
def apply (t : Table) (op : Op) : Table := if t.Legal op then t.effect op else t

/-- Orphans may go to `p`. -/
def Adopts (t : Table) (p : ℕ) : Prop :=
  p = reaper ∨ (t.entry p).any fun e => !e.zombie && e.adopts

instance (t : Table) (p : ℕ) : Decidable (t.Adopts p) := inferInstanceAs (Decidable (_ ∨ _))

/-- What an operation that leads to `t'` may make of the entry `e`, if it does not take it
away: another parent only when the old one ends, and then one that takes orphans in. -/
structure Heir (t t' : Table) (e f : Entry) : Prop where
  serial : f.serial = e.serial
  adopts : f.adopts = e.adopts
  zombie : e.zombie = true → f.zombie = true
  parent : f.parent = e.parent ∧ (t.Live e.parent → t'.Live e.parent) ∨
    t.Live e.parent ∧ ¬t'.Live e.parent ∧ t'.Adopts f.parent

/-- Serial numbers are given once, every process but the first has a live parent, and
there is a reaper. -/
structure Sound (t : Table) : Prop where
  range : ∀ p e, t.entry p = some e → 0 < p ∧ p < t.limit
  below : ∀ p e, t.entry p = some e → e.serial < t.born
  inj : ∀ p q e f, t.entry p = some e → t.entry q = some f → e.serial = f.serial → p = q
  parent : ∀ p e, t.entry p = some e → e.parent = 0 ∨ t.Live e.parent
  reaper : t.Live reaper

variable {t : Table} {p c q n : ℕ} {op : Op} {e f : Entry}

theorem live_iff : t.Live p ↔ ∃ e, t.entry p = some e ∧ e.zombie = false := by
  cases h : t.entry p <;> simp [Live, h]

theorem at_iff : t.At p n ↔ ∃ e, t.entry p = some e ∧ e.serial = n := by
  cases h : t.entry p <;> simp [At, h]

theorem adopts_iff :
    t.Adopts p ↔ p = reaper ∨ ∃ e, t.entry p = some e ∧ e.zombie = false ∧ e.adopts = true := by
  cases h : t.entry p <;> simp [Adopts, h]

theorem legal_reap_iff :
    t.Legal (.reap p c) ↔ ∃ e, t.entry c = some e ∧ e.zombie = true ∧ e.parent = p := by
  cases h : t.entry c <;> simp [Legal, h]

/-! ## What an operation changes -/

theorem entry_stop {S : ℕ → Bool} (h : t.entry q = some e) :
    (t.stop S).entry q =
      some { e with
        parent := if S e.parent then t.heir S t.limit e.parent else e.parent
        zombie := e.zombie || S q } := by
  simp [stop, h]

theorem live_stop {S : ℕ → Bool} : (t.stop S).Live q ↔ t.Live q ∧ S q = false := by
  cases h : t.entry q <;> simp [Live, stop, h]

theorem adopts_heir {S : ℕ → Bool} (fuel q : ℕ) : (t.stop S).Adopts (t.heir S fuel q) := by
  induction fuel generalizing q with
  | zero => exact .inl rfl
  | succ fuel ih =>
    unfold heir
    cases he : t.entry q with
    | none => exact .inl rfl
    | some e =>
      dsimp only
      split_ifs with hadopts
      · obtain ⟨hq, hzombie, hadopts⟩ := hadopts
        exact adopts_iff.2 (.inr ⟨_, entry_stop he, by simp [hzombie, hq], hadopts⟩)
      · exact ih e.parent

/-- When live processes end, their children are the ones that change the parent. -/
theorem stop_some {S : ℕ → Bool} (hS : ∀ q, S q = true → t.Live q) (h : t.entry q = some e) :
    ∃ f, (t.stop S).entry q = some f ∧ Heir t (t.stop S) e f := by
  refine ⟨_, entry_stop h, rfl, rfl, by simp +contextual, ?_⟩
  simp only [live_stop]
  cases hparent : S e.parent
  · exact .inl ⟨rfl, fun hlive => ⟨hlive, rfl⟩⟩
  · exact .inr ⟨hS e.parent hparent, by simp, adopts_heir t.limit e.parent⟩

theorem Heir.refl {t' : Table} (h : t.Live e.parent → t'.Live e.parent) : Heir t t' e e :=
  ⟨rfl, rfl, id, .inl ⟨rfl, h⟩⟩

theorem apply_of_legal (h : t.Legal op) : t.apply op = t.effect op := if_pos h

theorem apply_of_not_legal (h : ¬t.Legal op) : t.apply op = t := if_neg h

variable (op) in
/-- Only its own parent takes a process from the table. -/
theorem apply_some (h : t.entry q = some e) :
    (t.apply op).entry q = none ∧ op = .reap e.parent q ∧ e.zombie = true ∨
    ∃ f, (t.apply op).entry q = some f ∧ Heir t (t.apply op) e f := by
  by_cases hlegal : t.Legal op
  · rw [apply_of_legal hlegal]
    cases op with
    | fork a c =>
      right
      have hne : q ≠ c := by
        rintro rfl
        exact Option.some_ne_none e (h.symm.trans hlegal.2.2.2)
      have hlive : t.Live e.parent → (t.effect (.fork a c)).Live e.parent := by
        intro hlive
        have hparent : e.parent ≠ c := by
          rintro rfl
          simp [Live, hlegal.2.2.2] at hlive
        simpa [Live, effect, fork, Function.update_of_ne hparent] using hlive
      exact ⟨e, by simp [effect, fork, Function.update_of_ne hne, h], .refl hlive⟩
    | exit a =>
      refine .inr (stop_some (S := fun q => q = a) ?_ h)
      intro q hq
      rw [of_decide_eq_true hq]
      exact hlegal.1
    | reap a c =>
      by_cases hne : q = c
      · subst hne
        obtain ⟨f, hf, hzombie, rfl⟩ := legal_reap_iff.1 hlegal
        rw [h] at hf
        cases hf
        exact .inl ⟨Function.update_self _ _ _, rfl, hzombie⟩
      · right
        have hlive : t.Live e.parent → (t.effect (.reap a c)).Live e.parent := by
          intro hlive
          have hparent : e.parent ≠ c := by
            rintro rfl
            obtain ⟨f, hf, hzombie⟩ := live_iff.1 hlive
            simp [Legal, hf, hzombie] at hlegal
          simpa [Live, effect, reap, Function.update_of_ne hparent] using hlive
        exact ⟨e, by simp [effect, reap, Function.update_of_ne hne, h], .refl hlive⟩
    | killAll a =>
      refine .inr (stop_some (S := t.victims a) ?_ h)
      intro q hq
      exact (of_decide_eq_true hq).1
  · rw [apply_of_not_legal hlegal]
    exact .inr ⟨e, h, .refl id⟩

variable (op) in
/-- A number that is free is given by `fork` only. -/
theorem apply_none (h : t.entry q = none) :
    (t.apply op).entry q = none ∨
    ∃ p, op = .fork p q ∧ t.Legal op ∧
      (t.apply op).entry q = some ⟨t.born, p, t.user p, false, false⟩ := by
  unfold apply
  split_ifs with hlegal
  · cases op with
    | fork a c =>
      by_cases hne : q = c
      · subst hne
        exact .inr ⟨a, rfl, hlegal, Function.update_self _ _ _⟩
      · exact .inl (by simp [effect, fork, Function.update_of_ne hne, h])
    | exit a => exact .inl (by simp [effect, stop, h])
    | reap a c =>
      refine .inl ?_
      by_cases hne : q = c
      · simp [effect, reap, hne]
      · simp [effect, reap, Function.update_of_ne hne, h]
    | killAll a => exact .inl (by simp [effect, stop, h])
  · exact .inl h

/-- Where an entry comes from: from the one that was there, or from a `fork`. -/
theorem entry_apply (hf : (t.apply op).entry q = some f) :
    (∃ e, t.entry q = some e ∧ Heir t (t.apply op) e f) ∨
    ∃ p, op = .fork p q ∧ t.Legal op ∧ f = ⟨t.born, p, t.user p, false, false⟩ := by
  cases he : t.entry q with
  | none =>
    rcases apply_none op he with hnone | ⟨p, hop, hlegal, hsome⟩
    · simp [hnone] at hf
    · rw [hsome] at hf
      exact .inr ⟨p, hop, hlegal, (Option.some.inj hf).symm⟩
  | some e =>
    rcases apply_some op he with ⟨hnone, -⟩ | ⟨g, hsome, hheir⟩
    · simp [hnone] at hf
    · rw [hsome] at hf
      cases hf
      exact .inl ⟨e, rfl, hheir⟩

theorem heir_apply (he : t.entry q = some e) (hf : (t.apply op).entry q = some f) :
    Heir t (t.apply op) e f := by
  rcases entry_apply hf with ⟨d, hd, hheir⟩ | ⟨p, rfl, hlegal, -⟩
  · rw [he] at hd
    cases hd
    exact hheir
  · exact absurd he (by simp [hlegal.2.2.2])

theorem Heir.zombie_eq_false {t' : Table} (h : Heir t t' e f) (hf : f.zombie = false) :
    e.zombie = false := by
  cases he : e.zombie
  · rfl
  · rw [h.zombie he] at hf
    cases hf

theorem born_apply_fork (h : t.Legal (.fork p c)) : (t.apply (.fork p c)).born = t.born + 1 := by
  rw [apply_of_legal h]
  rfl

theorem born_le_apply : t.born ≤ (t.apply op).born := by
  unfold apply
  split_ifs
  · cases op with
    | fork => exact Nat.le_succ _
    | exit | reap | killAll => exact Nat.le_refl _
  · exact Nat.le_refl _

theorem limit_apply : (t.apply op).limit = t.limit := by
  unfold apply
  split_ifs
  · cases op <;> rfl
  · rfl

variable (op) in
/-- A process goes on, but for its own end and a `killAll` of another one. -/
theorem apply_live (h : t.Live q) :
    (t.apply op).Live q ∨ q ≠ reaper ∧ (op = .exit q ∨ ∃ p ≠ q, op = .killAll p) := by
  unfold apply
  split_ifs with hlegal
  · cases op with
    | fork a c =>
      have hne : q ≠ c := by
        rintro rfl
        simp [Live, hlegal.2.2.2] at h
      exact .inl (by simpa [Live, effect, fork, Function.update_of_ne hne] using h)
    | exit a =>
      by_cases hne : q = a
      · subst hne
        exact .inr ⟨hlegal.2, .inl rfl⟩
      · exact .inl (live_stop (S := fun q => q = a) |>.2 ⟨h, decide_eq_false hne⟩)
    | reap a c =>
      have hne : q ≠ c := by
        rintro rfl
        obtain ⟨f, hf, hzombie⟩ := live_iff.1 h
        simp [Legal, hf, hzombie] at hlegal
      exact .inl (by simpa [Live, effect, reap, Function.update_of_ne hne] using h)
    | killAll a =>
      cases hq : t.victims a q
      · exact .inl (live_stop.2 ⟨h, hq⟩)
      · obtain ⟨-, hne, hreaper, -⟩ := of_decide_eq_true hq
        exact .inr ⟨hreaper, .inr ⟨a, Ne.symm hne, rfl⟩⟩
  · exact .inl h

/-! ## What holds over all operations -/

/-- A process that has been born comes to no other number. -/
theorem at_of_at_apply (hn : n < t.born) (h : (t.apply op).At p n) : t.At p n := by
  obtain ⟨f, hf, rfl⟩ := at_iff.1 h
  rcases entry_apply hf with ⟨e, he, hheir⟩ | ⟨a, -, -, rfl⟩
  · exact at_iff.2 ⟨e, he, hheir.serial.symm⟩
  · exact absurd hn (Nat.lt_irrefl _)

theorem live_of_live_apply (h : (t.apply op).Live p) (hp : t.At p n) : t.Live p := by
  obtain ⟨e, he, -⟩ := at_iff.1 hp
  obtain ⟨f, hf, hzombie⟩ := live_iff.1 h
  exact live_iff.2 ⟨e, he, (heir_apply he hf).zombie_eq_false hzombie⟩

/-- Nobody comes to take orphans in who has not done so before. -/
theorem adopts_of_adopts_apply (h : (t.apply op).Adopts p) : t.Adopts p := by
  rcases adopts_iff.1 h with hreaper | ⟨f, hf, hzombie, hadopts⟩
  · exact .inl hreaper
  · rcases entry_apply hf with ⟨e, he, hheir⟩ | ⟨a, -, -, rfl⟩
    · exact adopts_iff.2 (.inr ⟨e, he, hheir.zombie_eq_false hzombie, hheir.adopts ▸ hadopts⟩)
    · cases hadopts

theorem live_of_adopts (ht : t.Sound) (h : t.Adopts p) : t.Live p := by
  rcases adopts_iff.1 h with rfl | ⟨e, he, hzombie, -⟩
  · exact ht.reaper
  · exact live_iff.2 ⟨e, he, hzombie⟩

/-- Who takes orphans in does so as long as it lives. -/
theorem adopts_apply (h : t.Adopts p) (hlive : (t.apply op).Live p) : (t.apply op).Adopts p := by
  rcases adopts_iff.1 h with hreaper | ⟨e, he, -, hadopts⟩
  · exact .inl hreaper
  · obtain ⟨f, hf, hzombie⟩ := live_iff.1 hlive
    exact adopts_iff.2 (.inr ⟨f, hf, hzombie, (heir_apply he hf).adopts.trans hadopts⟩)

variable (op) in
/-- Only its parent ends a process's being in the table. -/
theorem at_apply (h : t.At p n) :
    (t.apply op).At p n ∨
    ∃ e, t.entry p = some e ∧ e.zombie = true ∧ op = .reap e.parent p := by
  obtain ⟨e, he, rfl⟩ := at_iff.1 h
  rcases apply_some op he with ⟨-, hreap, hzombie⟩ | ⟨f, hf, hheir⟩
  · exact .inr ⟨e, he, hzombie, hreap⟩
  · exact .inl (at_iff.2 ⟨f, hf, hheir.serial⟩)

theorem runs_apply_iff (hn : n < t.born) :
    (t.apply op).Runs p n ↔ t.Runs p n ∧ (t.apply op).Live p := by
  constructor
  · intro ⟨hat, hlive⟩
    have hbefore := at_of_at_apply hn hat
    exact ⟨⟨hbefore, live_of_live_apply hlive hbefore⟩, hlive⟩
  · intro ⟨⟨hat, hbefore⟩, hlive⟩
    refine ⟨?_, hlive⟩
    rcases at_apply op hat with hafter | ⟨e, he, hzombie, -⟩
    · exact hafter
    · obtain ⟨f, hf, hfalse⟩ := live_iff.1 hbefore
      rw [he] at hf
      cases hf
      simp [hzombie] at hfalse

theorem sound_apply (ht : t.Sound) : (t.apply op).Sound := by
  have hreaper : (t.apply op).Live reaper := by
    rcases apply_live op ht.reaper with hlive | ⟨hne, -⟩
    · exact hlive
    · exact absurd rfl hne
  refine ⟨?_, ?_, ?_, ?_, hreaper⟩
  · intro q f hf
    rw [limit_apply]
    rcases entry_apply hf with ⟨e, he, -⟩ | ⟨p, rfl, hlegal, -⟩
    · exact ht.range q e he
    · exact ⟨hlegal.2.1, hlegal.2.2.1⟩
  · intro q f hf
    rcases entry_apply hf with ⟨e, he, hheir⟩ | ⟨p, rfl, hlegal, rfl⟩
    · rw [hheir.serial]
      exact Nat.lt_of_lt_of_le (ht.below q e he) born_le_apply
    · rw [born_apply_fork hlegal]
      exact Nat.lt_succ_self _
  · intro q r f g hf hg hfg
    rcases entry_apply hf with ⟨e, he, hheir⟩ | ⟨p, rfl, -, rfl⟩
    · rcases entry_apply hg with ⟨d, hd, hheir'⟩ | ⟨p, rfl, -, rfl⟩
      · exact ht.inj q r e d he hd (hheir.serial ▸ hheir'.serial ▸ hfg)
      · exact absurd (ht.below q e he) (by rw [← hheir.serial, hfg]; exact Nat.lt_irrefl _)
    · rcases entry_apply hg with ⟨d, hd, hheir'⟩ | ⟨p', hop, -, rfl⟩
      · exact absurd (ht.below r d hd) (by rw [← hheir'.serial, ← hfg]; exact Nat.lt_irrefl _)
      · cases hop
        rfl
  · intro q f hf
    rcases entry_apply hf with ⟨e, he, hheir⟩ | ⟨p, rfl, hlegal, rfl⟩
    · rcases hheir.parent with ⟨hsame, hlives⟩ | ⟨-, -, hadopts⟩
      · rw [hsame]
        exact (ht.parent q e he).imp_right hlives
      · rcases adopts_iff.1 hadopts with hfirst | ⟨g, hg, hzombie, -⟩
        · exact .inr (hfirst ▸ hreaper)
        · exact .inr (live_iff.2 ⟨g, hg, hzombie⟩)
    · rcases apply_live (.fork p q) hlegal.1 with hlive | ⟨-, hop | ⟨_, _, hop⟩⟩
      · exact .inr hlive
      · cases hop
      · cases hop

end Table

end AcademyLab.ProcessTable
