import AcademyLab.Process.Family

/-!
# What a process knows of its family

`getppid()`, the number that `fork()` has returned and `wait()` name the right processes in
every run, although numbers are given again and the others end when they like.
-/
namespace AcademyLab.Family
open CString Machine ProcessTable

/-- The process that made the one of `r`, with its serial number. -/
def State.maker (S : Start) (s : State) (r : Role) : Option (ℕ × ℕ) :=
  match r.maker with
  | none => some (S.shell, S.shellSerial)
  | some m => (s.proc m).map fun b => (b.pid, b.serial)

/-- While a process runs, the numbers it has name what it takes them for: `link` is about
`getppid()`, `number` and `held` about what `fork()` has returned. -/
structure Inv (S : Start) (s : State) : Prop where
  sound : s.table.Sound
  shell : S.shellSerial < s.table.born
  below : ∀ r a, s.proc r = some a → a.serial < s.table.born
  given : ∀ r a, r ≠ .parent → s.proc r = some a → a.pid ≠ reaper
  inj : ∀ q r a b, s.proc q = some a → s.proc r = some b → a.serial = b.serial → q = r
  order : ∀ r a, s.proc r = some a → a.todo.Pairwise fun x y => x.before y
  forks : ∀ r a c checked, s.proc r = some a → .fork c checked ∈ a.todo → c.maker = some r
  fresh : ∀ r a c checked, s.proc r = some a → .fork c checked ∈ a.todo → s.proc c = none
  made : ∀ c m, c.maker = some m → s.proc m = none → s.proc c = none
  number : ∀ c r a b, c.maker = some r → s.proc r = some a → s.proc c = some b →
    a.forked = some b.pid
  link : ∀ r a p n e, s.proc r = some a → s.maker S r = some (p, n) →
    s.table.entry a.pid = some e → e.serial = a.serial →
    if s.table.Runs p n then e.parent = p else s.table.Adopts e.parent
  held : ∀ r a p, s.running r = some a → a.forked = some p → (∃ x ∈ a.todo, x.uses = true) →
    ∃ c b, c.maker = some r ∧ s.proc c = some b ∧ b.pid = p ∧ s.table.At p b.serial

/-- What `wait()` takes: a process that runs has no children but those it has made. -/
structure Own (s : State) : Prop where
  adopts : ∀ r a, s.running r = some a → ¬s.table.Adopts a.pid
  children : ∀ r a q e, s.running r = some a → s.table.entry q = some e → e.parent = a.pid →
    ∃ c b, c.maker = some r ∧ s.proc c = some b ∧ b.pid = q ∧ b.serial = e.serial

/-- What becomes of the process `b` while `op` is done to the table, unless it forks. -/
structure Kept (t : Table) (op : Op) (b b' : Proc) : Prop where
  pid : b'.pid = b.pid
  serial : b'.serial = b.serial
  order : b'.todo.Pairwise fun x y => x.before y
  todo : ∀ x ∈ b'.todo, x ∈ b.todo ∨ x = .exit
  forked : b'.forked = b.forked ∨ b'.forked = none ∧ ∃ c checked, .fork c checked ∈ b.todo
  fork : t.Runs b.pid b.serial → ∀ p, op ≠ .fork b.pid p
  reap : t.Runs b.pid b.serial → ∀ p, op = .reap b.pid p → ∀ x ∈ b'.todo, x.uses = false

section Run
variable {program : Program} {S : Start} {s s' : State} {r q c : Role} {a b : Proc} {op : Op}
  {p n : ℕ} {f : Entry}

theorem running_iff :
    s.running r = some a ↔ s.proc r = some a ∧ s.table.Runs a.pid a.serial := by
  simp [State.running, Option.filter_eq_some_iff]

theorem maker_of_proc (hc : c.maker = some r) (ha : s.proc r = some a) :
    s.maker S c = some (a.pid, a.serial) := by
  simp [State.maker, hc, ha]

theorem proc_start (h : (start program S).proc r = some a) :
    r = .parent ∧ a = ⟨S.pid, S.serial, none, program.script .parent⟩ := by
  by_cases hr : r = .parent
  · subst hr
    simp only [start, Function.update_self, Option.some.injEq] at h
    exact ⟨rfl, h.symm⟩
  · simp [start, Function.update_of_ne hr] at h

theorem inv_start (program : Program) (S : Start) : Inv S (start program S) := by
  refine ⟨S.sound, S.shellBorn, ?_, ?_, ?_, ?_, ?_, ?_, ?_, ?_, ?_, ?_⟩
  · intro r a ha
    obtain ⟨-, rfl⟩ := proc_start ha
    exact S.sound.below _ _ S.entry
  · intro r a hr ha
    exact absurd (proc_start ha).1 hr
  · intro q r a b ha hb _
    rw [(proc_start ha).1, (proc_start hb).1]
  · intro r a ha
    obtain ⟨-, rfl⟩ := proc_start ha
    exact program.order _
  · intro r a c checked ha hmem
    obtain ⟨rfl, rfl⟩ := proc_start ha
    exact program.forks _ c checked hmem
  · intro r a c checked ha hmem
    obtain ⟨rfl, rfl⟩ := proc_start ha
    have hc := program.forks _ c checked hmem
    cases c with
    | parent => cases hc
    | child | grandchild => rfl
  · intro c m hc _
    cases c with
    | parent => cases hc
    | child | grandchild => rfl
  · intro c r a b hc _ hb
    obtain ⟨rfl, -⟩ := proc_start hb
    cases hc
  · intro r a p n e ha hmaker he _
    obtain ⟨rfl, rfl⟩ := proc_start ha
    have hentry : e = ⟨S.serial, S.parent, S.user, false, S.adopts⟩ :=
      Option.some.inj (he.symm.trans S.entry)
    simp only [State.maker, Role.maker, Option.some.injEq, Prod.mk.injEq] at hmaker
    obtain ⟨rfl, rfl⟩ := hmaker
    rw [hentry]
    exact S.link
  · intro r a p ha hforked _
    obtain ⟨-, rfl⟩ := proc_start (running_iff.1 ha).1
    cases hforked

theorem own_start (program : Program) (hS : S.Alone) : Own (start program S) := by
  refine ⟨?_, ?_⟩
  · intro r a ha
    obtain ⟨-, rfl⟩ := proc_start (running_iff.1 ha).1
    exact hS.adopts
  · intro r a q e ha he hparent
    obtain ⟨-, rfl⟩ := proc_start (running_iff.1 ha).1
    exact absurd hparent (hS.childless q e he)

namespace Inv
variable (h : Inv S s)
include h

theorem pid_inj (hq : s.running q = some a) (hr : s.running r = some b) (hpid : a.pid = b.pid) :
    q = r := by
  obtain ⟨ha, hruns, -⟩ := running_iff.1 hq
  obtain ⟨hb, hruns', -⟩ := running_iff.1 hr
  obtain ⟨e, he, hserial⟩ := Table.at_iff.1 hruns
  obtain ⟨f, hf, hserial'⟩ := Table.at_iff.1 hruns'
  rw [hpid, hf] at he
  cases he
  exact h.inj q r a b ha hb (hserial.symm.trans hserial')

theorem maker_below (hmaker : s.maker S r = some (p, n)) : n < s.table.born := by
  unfold State.maker at hmaker
  cases hm : r.maker with
  | none =>
    simp only [hm, Option.some.injEq, Prod.mk.injEq] at hmaker
    obtain ⟨-, rfl⟩ := hmaker
    exact h.shell
  | some m =>
    simp only [hm, Option.map_eq_some_iff, Prod.mk.injEq] at hmaker
    obtain ⟨b, hb, -, rfl⟩ := hmaker
    exact h.below m b hb

theorem maker_eq (hnew : ∀ m b, s.proc m = some b →
      ∃ b', s'.proc m = some b' ∧ b'.pid = b.pid ∧ b'.serial = b.serial)
    (ha : s.proc r = some a) : s'.maker S r = s.maker S r := by
  unfold State.maker
  cases hm : r.maker with
  | none => rfl
  | some m =>
    cases hmproc : s.proc m with
    | none =>
      rw [h.made r m hm hmproc] at ha
      cases ha
    | some b =>
      obtain ⟨b', hb', hpid, hserial⟩ := hnew m b hmproc
      simp [hb', hmproc, hpid, hserial]

/-- A process gets another parent when its own one ends, and not before. -/
theorem link_apply (ha : s.proc r = some a) (hmaker : s.maker S r = some (p, n))
    (hf : (s.table.apply op).entry a.pid = some f) (hserial : f.serial = a.serial) :
    if (s.table.apply op).Runs p n then f.parent = p else (s.table.apply op).Adopts f.parent := by
  have hat := Table.at_of_at_apply (h.below r a ha) (Table.at_iff.2 ⟨f, hf, hserial⟩)
  obtain ⟨e, he, heserial⟩ := Table.at_iff.1 hat
  have hlink := h.link r a p n e ha hmaker he heserial
  have hheir := (Table.heir_apply he hf).parent
  simp only [Table.runs_apply_iff (h.maker_below hmaker)]
  by_cases hruns : s.table.Runs p n
  · rw [if_pos hruns] at hlink
    subst hlink
    rcases hheir with ⟨hsame, hlives⟩ | ⟨-, hends, hnew⟩
    · rw [if_pos ⟨hruns, hlives hruns.2⟩, hsame]
    · rw [if_neg fun hand => hends hand.2]
      exact hnew
  · rw [if_neg hruns] at hlink
    rw [if_neg fun hand => hruns hand.1]
    rcases hheir with ⟨hsame, hlives⟩ | ⟨-, -, hnew⟩
    · rw [hsame]
      exact Table.adopts_apply hlink (hlives (Table.live_of_adopts h.sound hlink))
    · exact hnew

theorem parent_of_child (hrun : s.running r = some a) (hc : c.maker = some r)
    (hb : s.proc c = some b) {e : Entry} (he : s.table.entry b.pid = some e)
    (hserial : e.serial = b.serial) : e.parent = a.pid := by
  obtain ⟨ha, hruns⟩ := running_iff.1 hrun
  have hlink := h.link c b a.pid a.serial e hb (maker_of_proc hc ha) he hserial
  rwa [if_pos hruns] at hlink

omit h in
/-- The children of a process that runs are those it had or the one it makes. -/
theorem child_apply (ho : Own s) (hrun : s.running r = some a) {q : ℕ}
    (hf : (s.table.apply op).entry q = some f) (hparent : f.parent = a.pid) :
    (∃ c b, c.maker = some r ∧ s.proc c = some b ∧ b.pid = q ∧ b.serial = f.serial) ∨
    op = .fork a.pid q ∧ f.serial = s.table.born := by
  rcases Table.entry_apply hf with ⟨e, he, hheir⟩ | ⟨p, rfl, -, rfl⟩
  · left
    rw [hheir.serial]
    rcases hheir.parent with ⟨hsame, -⟩ | ⟨-, -, hnew⟩
    · exact ho.children r a q e hrun he (hsame ▸ hparent)
    · rw [hparent] at hnew
      exact absurd (Table.adopts_of_adopts_apply hnew) (ho.adopts r a hrun)
  · exact .inr ⟨by rw [← hparent], rfl⟩

variable (op) in
/-- A process that may still use its child has it as long as it does not wait for it. -/
theorem held_apply (hrun : s.running r = some a) (hforked : a.forked = some p)
    (huse : ∃ x ∈ a.todo, x.uses = true) (hop : ∀ q, op ≠ .reap a.pid q) :
    ∃ c b, c.maker = some r ∧ s.proc c = some b ∧ b.pid = p ∧ (s.table.apply op).At p b.serial := by
  obtain ⟨c, b, hc, hb, rfl, hat⟩ := h.held r a p hrun hforked huse
  refine ⟨c, b, hc, hb, rfl, ?_⟩
  rcases Table.at_apply op hat with hat' | ⟨e, he, -, hreap⟩
  · exact hat'
  · obtain ⟨f, hf, hserial⟩ := Table.at_iff.1 hat
    have hparent := h.parent_of_child hrun hc hb hf hserial
    rw [hf] at he
    cases he
    exact absurd (hparent ▸ hreap) (hop _)

theorem running_before {b' : Proc} (hb : s.proc q = some b) (hpid : b'.pid = b.pid)
    (hserial : b'.serial = b.serial) (htable : s'.table = s.table.apply op)
    (hrun : s'.running q = some b') : s.running q = some b := by
  have hruns := (running_iff.1 hrun).2
  rw [htable, hpid, hserial, Table.runs_apply_iff (h.below q b hb)] at hruns
  exact running_iff.2 ⟨hb, hruns.1⟩

/-- A step that makes no process. -/
theorem keep (htable : s'.table = s.table.apply op)
    (hold : ∀ q b', s'.proc q = some b' → ∃ b, s.proc q = some b ∧ Kept s.table op b b')
    (hnew : ∀ q b, s.proc q = some b →
      ∃ b', s'.proc q = some b' ∧ b'.pid = b.pid ∧ b'.serial = b.serial) :
    Inv S s' := by
  have hnone {q} : s'.proc q = none ↔ s.proc q = none := by
    rw [Option.eq_none_iff_forall_ne_some, Option.eq_none_iff_forall_ne_some]
    constructor
    · intro hq b hb
      obtain ⟨b', hb', -⟩ := hnew q b hb
      exact hq b' hb'
    · intro hq b' hb'
      obtain ⟨b, hb, -⟩ := hold q b' hb'
      exact hq b hb
  refine ⟨?_, ?_, ?_, ?_, ?_, ?_, ?_, ?_, ?_, ?_, ?_, ?_⟩
  · rw [htable]
    exact Table.sound_apply h.sound
  · rw [htable]
    exact Nat.lt_of_lt_of_le h.shell Table.born_le_apply
  · intro q b' hb'
    obtain ⟨b, hb, hkept⟩ := hold q b' hb'
    rw [htable, hkept.serial]
    exact Nat.lt_of_lt_of_le (h.below q b hb) Table.born_le_apply
  · intro q b' hq hb'
    obtain ⟨b, hb, hkept⟩ := hold q b' hb'
    rw [hkept.pid]
    exact h.given q b hq hb
  · intro q r a' b' ha' hb' hserial
    obtain ⟨a, ha, hakept⟩ := hold q a' ha'
    obtain ⟨b, hb, hbkept⟩ := hold r b' hb'
    exact h.inj q r a b ha hb (hakept.serial.symm.trans (hserial.trans hbkept.serial))
  · intro q b' hb'
    obtain ⟨b, -, hkept⟩ := hold q b' hb'
    exact hkept.order
  · intro q b' c checked hb' hmem
    obtain ⟨b, hb, hkept⟩ := hold q b' hb'
    rcases hkept.todo _ hmem with hmem | hmem
    · exact h.forks q b c checked hb hmem
    · cases hmem
  · intro q b' c checked hb' hmem
    obtain ⟨b, hb, hkept⟩ := hold q b' hb'
    rcases hkept.todo _ hmem with hmem | hmem
    · exact hnone.2 (h.fresh q b c checked hb hmem)
    · cases hmem
  · intro c m hc hm
    exact hnone.2 (h.made c m hc (hnone.1 hm))
  · intro c q a' b' hc ha' hb'
    obtain ⟨a, ha, hakept⟩ := hold q a' ha'
    obtain ⟨b, hb, hbkept⟩ := hold c b' hb'
    rw [hbkept.pid]
    rcases hakept.forked with hsame | ⟨-, d, checked, hfork⟩
    · rw [hsame, h.number c q a b hc ha hb]
    · have hnone := h.fresh q a d checked ha hfork
      rw [maker_inj (h.forks q a d checked ha hfork) hc, hb] at hnone
      cases hnone
  · intro q b' p n f hb' hm hf hfserial
    obtain ⟨b, hb, hkept⟩ := hold q b' hb'
    rw [htable, hkept.pid] at hf
    rw [htable]
    exact h.link_apply hb (h.maker_eq hnew hb ▸ hm) hf (hfserial.trans hkept.serial)
  · intro q b' p hrun hforked huse
    obtain ⟨b, hb, hkept⟩ := hold q b' (running_iff.1 hrun).1
    have hrun' := h.running_before hb hkept.pid hkept.serial htable hrun
    have hforked : b.forked = some p := by
      rcases hkept.forked with hsame | ⟨hnone, -⟩
      · exact hsame ▸ hforked
      · rw [hnone] at hforked
        cases hforked
    obtain ⟨x, hx, huses⟩ := huse
    have hxb : x ∈ b.todo := by
      rcases hkept.todo x hx with hmem | rfl
      · exact hmem
      · cases huses
    have hop : ∀ q, op ≠ .reap b.pid q := by
      intro q hop
      rw [hkept.reap (running_iff.1 hrun').2 q hop x hx] at huses
      cases huses
    obtain ⟨c, d, hc, hd, hdpid, hat⟩ := h.held_apply op hrun' hforked ⟨x, hxb, huses⟩ hop
    obtain ⟨d', hd', hdpid', hdserial⟩ := hnew c d hd
    refine ⟨c, d', hc, hd', hdpid'.trans hdpid, ?_⟩
    rw [htable, hdserial]
    exact hat

/-- What others do is nothing to a process of the program. -/
theorem kept_foreign (hop : s.Foreign op) (hproc : s'.proc = s.proc) (hb : s'.proc r = some b) :
    ∃ b₀, s.proc r = some b₀ ∧ Kept s.table op b₀ b := by
  rw [hproc] at hb
  refine ⟨b, hb, rfl, rfl, h.order r b hb, fun x hx => .inl hx, .inl rfl, ?_, ?_⟩
  · rintro hruns p rfl
    rcases hop with hexit | hother
    · cases hexit
    · exact hother r b (running_iff.2 ⟨hb, hruns⟩) rfl
  · rintro hruns p rfl
    rcases hop with hexit | hother
    · cases hexit
    · exact absurd rfl (hother r b (running_iff.2 ⟨hb, hruns⟩))

omit h in
theorem same_new (hproc : s'.proc = s.proc) (q : Role) (b : Proc) (hb : s.proc q = some b) :
    ∃ b', s'.proc q = some b' ∧ b'.pid = b.pid ∧ b'.serial = b.serial :=
  ⟨b, by rw [hproc, hb], rfl, rfl⟩

omit h in
theorem act_new {a' : Proc} {out : List (Role × Bytes)} (ha : s.proc r = some a)
    (hadv : Advance s r a a' op out) (hproc : s'.proc = Function.update s.proc r (some a'))
    (q : Role) (b : Proc) (hb : s.proc q = some b) :
    ∃ b', s'.proc q = some b' ∧ b'.pid = b.pid ∧ b'.serial = b.serial := by
  rw [hproc]
  by_cases hq : q = r
  · subst hq
    rw [ha] at hb
    cases hb
    exact ⟨a', Function.update_self _ _ _, hadv.pid, hadv.serial⟩
  · exact ⟨b, by rw [Function.update_of_ne hq, hb], rfl, rfl⟩

/-- A call of one process changes nothing that another one knows. -/
theorem kept_act {a' : Proc} {out : List (Role × Bytes)} (hrun : s.running r = some a)
    (hadv : Advance s r a a' op out) (hproc : s'.proc = Function.update s.proc r (some a'))
    (hb : s'.proc q = some b) : ∃ b₀, s.proc q = some b₀ ∧ Kept s.table op b₀ b := by
  rw [hproc] at hb
  by_cases hq : q = r
  · subst hq
    rw [Function.update_self] at hb
    cases hb
    refine ⟨a, (running_iff.1 hrun).1, hadv.pid, hadv.serial, hadv.order, hadv.kept, hadv.forked,
      ?_, ?_⟩
    · exact fun _ p => hadv.notFork a.pid p
    · exact fun _ => hadv.reap a.pid
  · rw [Function.update_of_ne hq] at hb
    have hne : s.table.Runs b.pid b.serial → b.pid ≠ a.pid := by
      intro hruns hpid
      exact hq (h.pid_inj (running_iff.2 ⟨hb, hruns⟩) hrun hpid)
    refine ⟨b, hb, rfl, rfl, h.order q b hb, fun x hx => .inl hx, .inl rfl, ?_, ?_⟩
    · exact fun _ p => hadv.notFork b.pid p
    · rintro hruns p rfl
      rcases hadv.own with hown | hexit
      · exact absurd hown (hne hruns)
      · cases hexit

variable (ho : Own s)
include ho

theorem adopts_before {b' : Proc} (hb : s.proc q = some b) (hpid : b'.pid = b.pid)
    (hserial : b'.serial = b.serial) (htable : s'.table = s.table.apply op)
    (hrun : s'.running q = some b') : ¬s'.table.Adopts b'.pid := by
  rw [htable, hpid]
  have hbefore := h.running_before hb hpid hserial htable hrun
  exact fun hadopts => ho.adopts q b hbefore (Table.adopts_of_adopts_apply hadopts)

theorem keep_own (htable : s'.table = s.table.apply op)
    (hold : ∀ q b', s'.proc q = some b' → ∃ b, s.proc q = some b ∧ Kept s.table op b b')
    (hnew : ∀ q b, s.proc q = some b →
      ∃ b', s'.proc q = some b' ∧ b'.pid = b.pid ∧ b'.serial = b.serial) :
    Own s' := by
  refine ⟨?_, ?_⟩
  · intro q b' hrun
    obtain ⟨b, hb, hkept⟩ := hold q b' (running_iff.1 hrun).1
    exact h.adopts_before ho hb hkept.pid hkept.serial htable hrun
  · intro q b' x f hrun hf hparent
    obtain ⟨b, hb, hkept⟩ := hold q b' (running_iff.1 hrun).1
    have hrun' := h.running_before hb hkept.pid hkept.serial htable hrun
    rw [htable] at hf
    rcases child_apply ho hrun' hf (hparent.trans hkept.pid) with
      ⟨c, d, hc, hd, hpid, hserial⟩ | ⟨hop, -⟩
    · obtain ⟨d', hd', hdpid, hdserial⟩ := hnew c d hd
      exact ⟨c, d', hc, hd', hdpid.trans hpid, hdserial.trans hserial⟩
    · exact absurd hop (hkept.fork (running_iff.1 hrun').2 x)

end Inv

namespace Forks
variable {checked : Bool} {rest : List Action} (hf : Forks program s s' r c a checked rest p)
include hf

theorem self : s'.proc c = some ⟨p, s.table.born, none, program.script c⟩ := by
  rw [hf.proc, Function.update_self]

theorem mem : .fork c checked ∈ a.todo := by simp [hf.todo]

theorem born : s'.table.born = s.table.born + 1 := by
  rw [hf.table, Table.born_apply_fork hf.legal]

theorem entry :
    s'.table.entry p = some ⟨s.table.born, a.pid, s.table.user a.pid, false, false⟩ := by
  rw [hf.table, Table.apply_of_legal hf.legal]
  exact Function.update_self _ _ _

theorem not_live : ¬s.table.Live p := by
  intro hlive
  obtain ⟨e, he, -⟩ := Table.live_iff.1 hlive
  rw [hf.legal.2.2.2] at he
  cases he

variable (h : Inv S s)
include h

theorem maker : c.maker = some r := h.forks r a c checked (running_iff.1 hf.run).1 hf.mem

theorem none_before : s.proc c = none := h.fresh r a c checked (running_iff.1 hf.run).1 hf.mem

theorem ne : c ≠ r := by
  rintro rfl
  have hnone := hf.none_before h
  rw [(running_iff.1 hf.run).1] at hnone
  cases hnone

theorem parent : s'.proc r = some { a with forked := some p, todo := rest } := by
  rw [hf.proc, Function.update_of_ne (hf.ne h).symm, Function.update_self]

omit h in
theorem other (hqc : q ≠ c) (hqr : q ≠ r) : s'.proc q = s.proc q := by
  rw [hf.proc, Function.update_of_ne hqc, Function.update_of_ne hqr]

theorem runs : s'.table.Runs a.pid a.serial := by
  obtain ⟨ha, hruns⟩ := running_iff.1 hf.run
  rw [hf.table, Table.runs_apply_iff (h.below r a ha)]
  rcases Table.apply_live (.fork a.pid p) hf.legal.1 with hlive | ⟨-, hop | ⟨_, -, hop⟩⟩
  · exact ⟨hruns, hlive⟩
  · cases hop
  · cases hop

/-- All processes but the new one were there before, under the same number. -/
theorem old {b' : Proc} (hq : q ≠ c) (hb' : s'.proc q = some b') :
    ∃ b, s.proc q = some b ∧ b'.pid = b.pid ∧ b'.serial = b.serial ∧ ∀ x ∈ b'.todo, x ∈ b.todo := by
  by_cases hqr : q = r
  · subst hqr
    rw [hf.parent h] at hb'
    cases hb'
    exact ⟨a, (running_iff.1 hf.run).1, rfl, rfl, fun x hx => by simp [hf.todo, hx]⟩
  · exact ⟨b', by rw [← hf.other hq hqr, hb'], rfl, rfl, fun _ hx => hx⟩

theorem new (hb : s.proc q = some b) :
    q ≠ c ∧ ∃ b', s'.proc q = some b' ∧ b'.pid = b.pid ∧ b'.serial = b.serial := by
  have hq : q ≠ c := by
    rintro rfl
    rw [hf.none_before h] at hb
    cases hb
  refine ⟨hq, ?_⟩
  by_cases hqr : q = r
  · subst hqr
    rw [(running_iff.1 hf.run).1] at hb
    cases hb
    exact ⟨_, hf.parent h, rfl, rfl⟩
  · exact ⟨b, by rw [hf.other hq hqr, hb], rfl, rfl⟩

theorem below {b' : Proc} (hb' : s'.proc q = some b') : b'.serial < s'.table.born := by
  rw [hf.born]
  by_cases hq : q = c
  · subst hq
    rw [hf.self] at hb'
    cases hb'
    exact Nat.lt_succ_self _
  · obtain ⟨b, hb, -, hserial, -⟩ := hf.old h hq hb'
    rw [hserial]
    exact Nat.lt_succ_of_lt (h.below q b hb)

omit h in
theorem not_reaper (hsound : s.table.Sound) : p ≠ reaper := by
  rintro rfl
  exact hf.not_live hsound.reaper

theorem given {b' : Proc} (hq : q ≠ .parent) (hb' : s'.proc q = some b') : b'.pid ≠ reaper := by
  by_cases hqc : q = c
  · subst hqc
    rw [hf.self] at hb'
    cases hb'
    exact hf.not_reaper h.sound
  · obtain ⟨b, hb, hpid, -⟩ := hf.old h hqc hb'
    rw [hpid]
    exact h.given q b hq hb

theorem inj {q' : Role} {b b' : Proc} (hb : s'.proc q = some b) (hb' : s'.proc q' = some b')
    (hserial : b.serial = b'.serial) : q = q' := by
  have hlt {q b'} (hq : q ≠ c) (hb' : s'.proc q = some b') : b'.serial ≠ s.table.born := by
    obtain ⟨b, hb, -, hserial, -⟩ := hf.old h hq hb'
    rw [hserial]
    exact Nat.ne_of_lt (h.below q b hb)
  by_cases hq : q = c
  · by_cases hq' : q' = c
    · rw [hq, hq']
    · subst hq
      rw [hf.self] at hb
      cases hb
      exact absurd hserial.symm (hlt hq' hb')
  · by_cases hq' : q' = c
    · subst hq'
      rw [hf.self] at hb'
      cases hb'
      exact absurd hserial (hlt hq hb)
    · obtain ⟨d, hd, -, hdserial, -⟩ := hf.old h hq hb
      obtain ⟨d', hd', -, hdserial', -⟩ := hf.old h hq' hb'
      exact h.inj q q' d d' hd hd' (hdserial.symm.trans (hserial.trans hdserial'))

theorem order {b' : Proc} (hb' : s'.proc q = some b') :
    b'.todo.Pairwise fun x y => x.before y := by
  by_cases hq : q = c
  · subst hq
    rw [hf.self] at hb'
    cases hb'
    exact program.order q
  · by_cases hqr : q = r
    · subst hqr
      rw [hf.parent h] at hb'
      cases hb'
      exact (hf.todo ▸ h.order q a (running_iff.1 hf.run).1).tail
    · exact h.order q b' (hf.other hq hqr ▸ hb')

/-- What is to be forked is not there yet, nor does the new process have a child. -/
theorem fresh {b' : Proc} {d : Role} {checked' : Bool} (hb' : s'.proc q = some b')
    (hd : .fork d checked' ∈ b'.todo) : d.maker = some q ∧ s'.proc d = none := by
  have ha := (running_iff.1 hf.run).1
  by_cases hq : q = c
  · subst hq
    rw [hf.self] at hb'
    cases hb'
    have hmaker := program.forks q d checked' hd
    have hnone : s.proc d = none := h.made d q hmaker (hf.none_before h)
    have hdq : d ≠ q := by
      rintro rfl
      cases d <;> cases hmaker
    have hdr : d ≠ r := by
      rintro rfl
      rw [ha] at hnone
      cases hnone
    exact ⟨hmaker, by rw [hf.other hdq hdr, hnone]⟩
  · by_cases hqr : q = r
    · subst hqr
      rw [hf.parent h] at hb'
      cases hb'
      cases List.rel_of_pairwise_cons (hf.todo ▸ h.order q a ha) hd
    · obtain ⟨b, hb, -, -, htodo⟩ := hf.old h hq hb'
      have hmaker := h.forks q b d checked' hb (htodo _ hd)
      have hnone := h.fresh q b d checked' hb (htodo _ hd)
      have hdc : d ≠ c := by
        rintro rfl
        exact hqr (Option.some.inj (hmaker.symm.trans (hf.maker h)))
      have hdr : d ≠ r := by
        rintro rfl
        rw [ha] at hnone
        cases hnone
      exact ⟨hmaker, by rw [hf.other hdc hdr, hnone]⟩

theorem made {d m : Role} (hd : d.maker = some m) (hm : s'.proc m = none) : s'.proc d = none := by
  cases hdproc : s'.proc d with
  | none => rfl
  | some b' =>
    by_cases hdc : d = c
    · subst hdc
      rw [hf.maker h] at hd
      cases hd
      rw [hf.parent h] at hm
      cases hm
    · obtain ⟨b, hb, -⟩ := hf.old h hdc hdproc
      cases hmproc : s.proc m with
      | none =>
        rw [h.made d m hd hmproc] at hb
        cases hb
      | some b =>
        obtain ⟨-, b', hb', -⟩ := hf.new h hmproc
        rw [hm] at hb'
        cases hb'

theorem number {d : Role} {b b' : Proc} (hd : d.maker = some q) (hb : s'.proc q = some b)
    (hb' : s'.proc d = some b') : b.forked = some b'.pid := by
  by_cases hdc : d = c
  · subst hdc
    obtain rfl : q = r := Option.some.inj (hd.symm.trans (hf.maker h))
    rw [hf.parent h] at hb
    rw [hf.self] at hb'
    cases hb
    cases hb'
    rfl
  · obtain ⟨f, hdf, hpid, -⟩ := hf.old h hdc hb'
    have hqc : q ≠ c := by
      rintro rfl
      rw [h.made d q hd (hf.none_before h)] at hdf
      cases hdf
    have hqr : q ≠ r := by
      rintro rfl
      exact hdc (maker_inj hd (hf.maker h))
    rw [hf.other hqc hqr] at hb
    rw [hpid, h.number d q b f hd hb hdf]

theorem maker_eq (hb : s.proc q = some b) : s'.maker S q = s.maker S q :=
  h.maker_eq (fun _ _ hm => (hf.new h hm).2) hb

theorem link {b' : Proc} {x n : ℕ} {e : Entry} (hb' : s'.proc q = some b')
    (hmaker : s'.maker S q = some (x, n)) (he : s'.table.entry b'.pid = some e)
    (hserial : e.serial = b'.serial) :
    if s'.table.Runs x n then e.parent = x else s'.table.Adopts e.parent := by
  by_cases hq : q = c
  · subst hq
    rw [hf.self] at hb'
    cases hb'
    rw [maker_of_proc (hf.maker h) (hf.parent h)] at hmaker
    cases hmaker
    rw [hf.entry] at he
    cases he
    rw [if_pos (hf.runs h)]
  · obtain ⟨b, hb, hpid, hbserial, -⟩ := hf.old h hq hb'
    rw [hf.table]
    rw [hf.table, hpid] at he
    exact h.link_apply hb (hf.maker_eq h hb ▸ hmaker) he (hserial.trans hbserial)

omit h in
theorem not_adopts (hsound : s.table.Sound) : ¬s.table.Adopts p :=
  fun hadopts => hf.not_live (Table.live_of_adopts hsound hadopts)

/-- Nobody has the number as a parent when it is given to the new process. -/
theorem childless {x : ℕ} {e : Entry} (he : s'.table.entry x = some e) : e.parent ≠ p := by
  rintro rfl
  rw [hf.table] at he
  rcases Table.entry_apply he with ⟨d, hd, hheir⟩ | ⟨a', hop, -, rfl⟩
  · rcases hheir.parent with ⟨hsame, -⟩ | ⟨-, -, hadopts⟩
    · rcases h.sound.parent x d hd with hzero | hlive
      · exact absurd hf.legal.2.1 (by rw [hsame, hzero]; exact Nat.lt_irrefl 0)
      · exact hf.not_live (hsame ▸ hlive)
    · exact hf.not_adopts h.sound (Table.adopts_of_adopts_apply hadopts)
  · cases hop
    exact hf.not_live hf.legal.1

theorem held {b' : Proc} {x : ℕ} (hrun : s'.running q = some b') (hforked : b'.forked = some x)
    (huse : ∃ y ∈ b'.todo, y.uses = true) :
    ∃ d b, d.maker = some q ∧ s'.proc d = some b ∧ b.pid = x ∧ s'.table.At x b.serial := by
  have hb' := (running_iff.1 hrun).1
  by_cases hq : q = c
  · subst hq
    rw [hf.self] at hb'
    cases hb'
    cases hforked
  · by_cases hqr : q = r
    · subst hqr
      rw [hf.parent h] at hb'
      cases hb'
      cases hforked
      exact ⟨c, _, hf.maker h, hf.self, rfl, Table.at_iff.2 ⟨_, hf.entry, rfl⟩⟩
    · have hb := hf.other hq hqr ▸ hb'
      have hrun' := h.running_before hb rfl rfl hf.table hrun
      obtain ⟨d, f, hd, hdf, rfl, hat⟩ :=
        h.held_apply (.fork a.pid p) hrun' hforked huse (by simp)
      obtain ⟨-, f', hf', hfpid, hfserial⟩ := hf.new h hdf
      refine ⟨d, f', hd, hf', hfpid, ?_⟩
      rw [hf.table, hfserial]
      exact hat

theorem own (ho : Own s) : Own s' := by
  refine ⟨?_, ?_⟩
  · intro q b' hrun
    have hb' := (running_iff.1 hrun).1
    by_cases hq : q = c
    · subst hq
      rw [hf.self] at hb'
      cases hb'
      rw [hf.table]
      exact fun hadopts => hf.not_adopts h.sound (Table.adopts_of_adopts_apply hadopts)
    · obtain ⟨b, hb, hpid, hserial, -⟩ := hf.old h hq hb'
      exact h.adopts_before ho hb hpid hserial hf.table hrun
  · intro q b' x e hrun he hparent
    have hb' := (running_iff.1 hrun).1
    by_cases hq : q = c
    · subst hq
      rw [hf.self] at hb'
      cases hb'
      exact absurd hparent (hf.childless h he)
    · obtain ⟨b, hb, hpid, hserial, -⟩ := hf.old h hq hb'
      have hrun' := h.running_before hb hpid hserial hf.table hrun
      rw [hf.table] at he
      rcases Inv.child_apply ho hrun' he (hparent.trans hpid) with
        ⟨d, f, hd, hdf, rfl, hfserial⟩ | ⟨hop, hnew⟩
      · obtain ⟨-, f', hf', hfpid, hfserial'⟩ := hf.new h hdf
        exact ⟨d, f', hd, hf', hfpid, hfserial'.trans hfserial⟩
      · rw [Op.fork.injEq] at hop
        obtain ⟨hsame, rfl⟩ := hop
        obtain rfl := h.pid_inj hrun' hf.run hsame.symm
        exact ⟨c, _, hf.maker h, hf.self, rfl, hnew.symm⟩

end Forks

/-- `getppid()` is the number of the maker, or when the maker has ended, of a process that
takes orphans in. -/
theorem getppid_eq (h : Inv S s) (hrun : s.running r = some a)
    (hmaker : s.maker S r = some (p, n)) :
    if s.table.Runs p n then s.getppid a.pid = p else s.table.Adopts (s.getppid a.pid) := by
  obtain ⟨ha, hat, -⟩ := running_iff.1 hrun
  obtain ⟨e, he, hserial⟩ := Table.at_iff.1 hat
  simp only [State.getppid, he, Option.map_some, Option.getD_some]
  exact h.link r a p n e ha hmaker he hserial

theorem inv_step (h : Inv S s) (input : Input) : Inv S (step program s input).1 := by
  rcases effect_step program (fun r a hrun => h.order r a (running_iff.1 hrun).1) input with
    ⟨op, hop, htable, hproc, -⟩ | ⟨r, c, a, checked, rest, p, hf, -⟩ |
    ⟨r, a, a', op, hrun, hadv, htable, hproc⟩
  · exact h.keep htable (fun _ _ => h.kept_foreign hop hproc) (Inv.same_new hproc)
  · refine ⟨?_, ?_, ?_, ?_, ?_, ?_, ?_, ?_, ?_, ?_, ?_, ?_⟩
    · rw [hf.table]
      exact Table.sound_apply h.sound
    · rw [hf.born]
      exact Nat.lt_succ_of_lt h.shell
    · exact fun q b => hf.below h
    · exact fun q b => hf.given h
    · exact fun q q' b b' => hf.inj h
    · exact fun q b => hf.order h
    · exact fun q b d checked' hb hd => (hf.fresh h hb hd).1
    · exact fun q b d checked' hb hd => (hf.fresh h hb hd).2
    · exact fun d m => hf.made h
    · exact fun d q b b' => hf.number h
    · exact fun q b x n e => hf.link h
    · exact fun q b x => hf.held h
  · exact h.keep htable (fun _ _ => h.kept_act hrun hadv hproc)
      (Inv.act_new (running_iff.1 hrun).1 hadv hproc)

theorem own_step (h : Inv S s) (ho : Own s) (input : Input) : Own (step program s input).1 := by
  rcases effect_step program (fun r a hrun => h.order r a (running_iff.1 hrun).1) input with
    ⟨op, hop, htable, hproc, -⟩ | ⟨r, c, a, checked, rest, p, hf, -⟩ |
    ⟨r, a, a', op, hrun, hadv, htable, hproc⟩
  · exact h.keep_own ho htable (fun _ _ => h.kept_foreign hop hproc) (Inv.same_new hproc)
  · exact hf.own h ho
  · exact h.keep_own ho htable (fun _ _ => h.kept_act hrun hadv hproc)
      (Inv.act_new (running_iff.1 hrun).1 hadv hproc)

theorem inv_exec (S : Start) (program : Program) (inputs : List Input) :
    Inv S (exec (step program) (start program S) inputs) :=
  invariant_exec (Inv S) (fun _ input h => inv_step h input) (inv_start program S) inputs

theorem own_exec (hS : S.Alone) (program : Program) (inputs : List Input) :
    Own (exec (step program) (start program S) inputs) := by
  have hstep (s : State) (input : Input) (h : Inv S s ∧ Own s) :
      Inv S (step program s input).1 ∧ Own (step program s input).1 :=
    ⟨inv_step h.1 input, own_step h.1 h.2 input⟩
  exact (invariant_exec _ hstep ⟨inv_start program S, own_start program hS⟩ inputs).2

end Run

end AcademyLab.Family
