import AcademyLab.Machine
import AcademyLab.Segments

/-!
# A pointer in shared memory

Any number of runs of `shm_ptr_writer.c` and of `shm_ptr_reader.c`. The writer stores a
value and its address in the segment; the reader marks the segment for removal and
follows the address. The kernel attaches a segment at any page, in each process at
another one. A load of an address outside the segment is one of other memory of the
process, or `SIGSEGV`.
-/
namespace AcademyLab.Shm.Pointer
open Machine Segments

inductive Role
  | writer
  | reader
  deriving DecidableEq

/-- The segment as longs. -/
abbrev Content := Fin 512 → ℕ

/-- `p` is `&baseaddr[1]`. -/
def p : Fin 512 := 1

/-- `target` is `&baseaddr[50]`. -/
def target : Fin 512 := 50

/-- What the writer stores in `*target`. -/
def value : ℕ := 123456789

/-- What a process does next once it has attached the segment. -/
inductive Call
  | storeTarget
  | storeP
  | shmctl
  | printTarget
  | printP
  | printDeref
  | shmdt
  deriving DecidableEq

inductive Pc
  | shmget
  | shmat (id : ℕ)
  | attached (id page : ℕ) (call : Call)
  | ended (ret : ℤ)
  | killed
  deriving DecidableEq

structure State (ι : Type*) where
  table : Table ι Content
  pc : ι → Pc

/-- The lines about values, a store of the address, and the signal. -/
inductive Event (ι : Type*)
  | stored (id page : ℕ)
  | target (i : ι) (v : ℕ)
  | pointer (i : ι) (address : ℕ)
  | dereferenced (i : ι) (v : ℕ)
  | segv (i : ι)
  deriving DecidableEq

def baseaddr (page : ℕ) : ℕ := 4096 * (page + 1)

/-- `&baseaddr[k]` -/
def address (page : ℕ) (k : Fin 512) : ℕ := baseaddr page + 8 * k

/-- What a process that has the segment at `page` finds at an address. -/
def load (content : Content) (page : ℕ) (other : ℕ → Option ℕ) (a : ℕ) : Option ℕ :=
  if h : baseaddr page ≤ a ∧ a < baseaddr page + 4096 then
    some (content ⟨(a - baseaddr page) / 8, by omega⟩)
  else if a = 0 then none
  else other a

section Step
variable {ι : Type*} [DecidableEq ι] [Fintype ι] (role : ι → Role) (other : ι → ℕ → Option ℕ)

def State.goto (s : State ι) (i : ι) (pc : Pc) : State ι :=
  { s with pc := Function.update s.pc i pc }

/-- A step of a process that has the segment attached. -/
def stepAttached (s : State ι) (i : ι) (id page : ℕ) (content : Content) :
    Call → State ι × List (Event ι)
  | .storeTarget =>
    ({ s.goto i (.attached id page .storeP) with
        table := s.table.store id fun content => Function.update content target value }, [])
  | .storeP =>
    ({ s.goto i (.attached id page .printTarget) with
        table := s.table.store id fun content =>
          Function.update content p (address page target) }, [.stored id page])
  | .shmctl =>
    ({ s.goto i (.attached id page .printTarget) with table := s.table.remove id }, [])
  | .printTarget => (s.goto i (.attached id page .printP), [.target i (content target)])
  | .printP => (s.goto i (.attached id page .printDeref), [.pointer i (content p)])
  | .printDeref =>
    match load content page (other i) (content p) with
    | none => ({ s.goto i .killed with table := s.table.detach i }, [.segv i])
    | some v => (s.goto i (.attached id page .shmdt), [.dereferenced i v])
  | .shmdt => ({ s.goto i (.ended 0) with table := s.table.detach i }, [])

/-- A step of a process. `answer` is the kernel's: no to `shmget` or `shmat`, or the page
at which it attaches the segment. -/
def step (s : State ι) (input : ι × Option ℕ) : State ι × List (Event ι) :=
  let (i, answer) := input
  match s.pc i with
  | .shmget =>
    match answer, s.table.key, role i with
    | none, _, _ => (s.goto i (.ended (-1)), [])
    | some _, some id, _ => (s.goto i (.shmat id), [])
    | some _, none, .reader => (s.goto i (.ended (-1)), [])
    | some _, none, .writer =>
      ({ s.goto i (.shmat s.table.next) with table := s.table.create fun _ => 0 }, [])
  | .shmat id =>
    match answer, s.table.mem id with
    | some page, some _ =>
      let call := match role i with
        | .writer => .storeTarget
        | .reader => .shmctl
      ({ s.goto i (.attached id page call) with table := s.table.attach i id }, [])
    | _, _ => (s.goto i (.ended (-1)), [])
  | .attached id page call =>
    match s.table.mem id with
    | none => (s, [])
    | some content => stepAttached other s i id page content call
  | .ended _ | .killed => (s, [])

def start : State ι := ⟨.empty, fun _ => .shmget⟩

/-- The pages of the writers that have stored their address in a segment. -/
def storedIn (id : ℕ) : Event ι → Option ℕ
  | .stored id' page => if id' = id then some page else none
  | .target _ _ | .pointer _ _ | .dereferenced _ _ | .segv _ => none

def lastStored (id : ℕ) (log : List (Event ι)) : Option ℕ := (log.filterMap (storedIn id)).getLast?

end Step

/-- An address in another page is not one of the segment. -/
theorem load_address (content : Content) (page page' : ℕ) (other : ℕ → Option ℕ) (k : Fin 512) :
    load content page other (address page' k) =
      if page' = page then some (content k) else other (address page' k) := by
  have hk := k.isLt
  unfold load
  by_cases heq : page' = page
  · subst heq
    have hin : baseaddr page' ≤ address page' k ∧ address page' k < baseaddr page' + 4096 := by
      unfold address
      omega
    have hindex : (address page' k - baseaddr page') / 8 = k := by
      unfold address
      omega
    rw [dif_pos hin, if_pos rfl]
    exact congrArg (fun j => some (content j)) (Fin.ext hindex)
  · have hout : ¬ (baseaddr page ≤ address page' k ∧ address page' k < baseaddr page + 4096) := by
      unfold address baseaddr
      omega
    have hzero : address page' k ≠ 0 := by
      unfold address baseaddr
      omega
    rw [dif_neg hout, if_neg hzero, if_neg heq]

theorem load_null (content : Content) (page : ℕ) (other : ℕ → Option ℕ) :
    load content page other 0 = none := by
  simp [load, baseaddr]

/-! ## What is in a segment -/

section Content
variable {ι : Type*} {s s' : State ι} {log log' : List (Event ι)} {i j : ι} {id page : ℕ}

def Pc.segment : Pc → Option ℕ
  | .attached id _ _ => some id
  | .shmget | .shmat _ | .ended _ | .killed => none

/-- The segments are those that the key leads to or that are attached; in each, `p` has
the address of the last writer, and `target` has the value before `p` has an address. -/
structure Inv (s : State ι) (log : List (Event ι)) : Prop where
  kept : s.table.Kept
  user : ∀ i, s.table.user i = (s.pc i).segment
  pointer : ∀ id content, s.table.mem id = some content →
    content p = (lastStored id log).elim 0 fun page => address page target
  filled : ∀ id content, s.table.mem id = some content →
    (lastStored id log ≠ none ∨ ∃ i page, s.pc i = .attached id page .storeP) →
      content target = value
  logged : ∀ id, lastStored id log ≠ none → id < s.table.next

theorem inv_start : Inv (start : State ι) [] :=
  ⟨Table.kept_empty, fun _ => rfl, by simp [start, Table.empty], by simp [start, Table.empty],
    by simp [lastStored]⟩

theorem lastStored_append (id : ℕ) (log events : List (Event ι))
    (h : ∀ e ∈ events, storedIn id e = none) :
    lastStored id (log ++ events) = lastStored id log := by
  have hnone : events.filterMap (storedIn id) = [] := List.filterMap_eq_nil_iff.2 h
  rw [lastStored, List.filterMap_append, hnone, List.append_nil, lastStored]

theorem lastStored_stored (id id' page : ℕ) (log : List (Event ι)) :
    lastStored id' (log ++ [.stored id page]) =
      if id = id' then some page else lastStored id' log := by
  by_cases h : id = id' <;> simp [lastStored, storedIn, h]

/-- What is attached is there. -/
theorem Inv.mem (h : Inv s log) {call : Call} (hpc : s.pc i = .attached id page call) :
    ∃ content, s.table.mem id = some content := by
  refine Option.ne_none_iff_exists'.1 ((h.kept.reached id).2 (.inr ⟨i, ?_⟩))
  rw [h.user, hpc, Pc.segment]

/-- A step that stores nothing. -/
theorem Inv.frame (h : Inv s log) (hkept : s'.table.Kept)
    (huser : ∀ i, s'.table.user i = (s'.pc i).segment)
    (hmem : ∀ id content, s'.table.mem id = some content → s.table.mem id = some content)
    (hnext : s.table.next ≤ s'.table.next)
    (hstore : ∀ i id page, s'.pc i = .attached id page .storeP → s.pc i = .attached id page .storeP)
    (hlog : ∀ id, lastStored id log' = lastStored id log) : Inv s' log' := by
  refine ⟨hkept, huser, fun id content hc => ?_, fun id content hc hfull => ?_, fun id hid => ?_⟩
  · rw [hlog]
    exact h.pointer id content (hmem id content hc)
  · refine h.filled id content (hmem id content hc) (hfull.imp (fun hl => by rwa [hlog] at hl) ?_)
    rintro ⟨i, page, hi⟩
    exact ⟨i, page, hstore i id page hi⟩
  · rw [hlog] at hid
    exact (h.logged id hid).trans_le hnext

variable [DecidableEq ι]

theorem pc_goto (s : State ι) (i j : ι) (pc : Pc) :
    (s.goto i pc).pc j = if j = i then pc else s.pc j := by
  simp [State.goto, Function.update_apply]

theorem segment_goto {pc : Pc} (h : pc.segment = (s.pc i).segment) (j : ι) :
    ((s.goto i pc).pc j).segment = (s.pc j).segment := by
  rw [pc_goto]
  split_ifs with hj
  · rw [h, hj]
  · rfl

theorem of_pc_goto {pc pc' : Pc} (hne : pc ≠ pc') (h : (s.goto i pc).pc j = pc') :
    s.pc j = pc' := by
  rw [pc_goto] at h
  split_ifs at h
  · exact absurd h hne
  · exact h

/-- A step that only prints, or fails. -/
theorem Inv.goto (h : Inv s log) {pc : Pc} (hsegment : pc.segment = (s.pc i).segment)
    (hpc : ∀ id page, pc ≠ .attached id page .storeP) {events : List (Event ι)}
    (hevents : ∀ id, ∀ e ∈ events, storedIn id e = none) : Inv (s.goto i pc) (log ++ events) :=
  h.frame h.kept (fun j => (h.user j).trans (segment_goto hsegment j).symm) (fun _ _ => id) le_rfl
    (fun _ id page => of_pc_goto (hpc id page)) fun id =>
      lastStored_append id log events (hevents id)

/-- A process lets go of its segment. -/
theorem Inv.detach [Fintype ι] (h : Inv s log) {pc : Pc} (hsegment : pc.segment = none)
    (hpc : ∀ id page, pc ≠ .attached id page .storeP) {events : List (Event ι)}
    (hevents : ∀ id, ∀ e ∈ events, storedIn id e = none) :
    Inv { s.goto i pc with table := s.table.detach i } (log ++ events) := by
  refine h.frame (h.kept.detach i) (fun j => ?_) (fun _ _ => Table.mem_of_detach)
    (Table.next_detach _ _).ge (fun _ id page => of_pc_goto (hpc id page)) fun id =>
      lastStored_append id log events (hevents id)
  rw [Table.user_detach, Function.update_apply, pc_goto]
  split_ifs
  · exact hsegment.symm
  · exact h.user j

theorem Inv.remove [Fintype ι] (h : Inv s log) (hpc : s.pc i = .attached id page .shmctl) :
    Inv { s.goto i (.attached id page .printTarget) with table := s.table.remove id }
      (log ++ []) := by
  refine h.frame (h.kept.remove id) (fun j => ?_) (fun _ _ => Table.mem_of_remove)
    (Table.next_remove _ _).ge (fun _ _ _ => of_pc_goto (by simp)) fun id =>
      lastStored_append id log [] (by simp)
  rw [Table.user_remove, h.user j]
  exact (segment_goto (by rw [hpc, Pc.segment, Pc.segment]) j).symm

theorem Inv.attach (h : Inv s log) (hpc : s.pc i = .shmat id) (hmem : s.table.mem id ≠ none)
    {call : Call} (hcall : call ≠ .storeP) (page : ℕ) :
    Inv { s.goto i (.attached id page call) with table := s.table.attach i id } (log ++ []) := by
  have huser : s.table.user i = none := by rw [h.user, hpc, Pc.segment]
  refine h.frame (h.kept.attach huser hmem) (fun j => ?_) (fun _ _ hc => hc) le_rfl
    (fun _ _ _ => of_pc_goto (by simp [hcall])) fun id => lastStored_append id log [] (by simp)
  rw [Table.user_attach, Function.update_apply, pc_goto]
  split_ifs
  · rfl
  · exact h.user j

/-- A new segment: nobody has stored anything in it. -/
theorem Inv.create (h : Inv s log) (hpc : s.pc i = .shmget) (hkey : s.table.key = none) :
    Inv { s.goto i (.shmat s.table.next) with table := s.table.create fun _ => 0 }
      (log ++ []) := by
  have hold : ∀ {id content}, id ≠ s.table.next →
      (s.table.create fun _ => 0).mem id = some content → s.table.mem id = some content := by
    intro id content hid hc
    simpa [Table.create, hid] using hc
  have hstored : lastStored s.table.next log = none := by
    by_contra hne
    exact lt_irrefl _ (h.logged _ hne)
  rw [List.append_nil]
  refine ⟨h.kept.create hkey _, fun j => ?_, fun id content hc => ?_, fun id content hc hfull => ?_,
    fun id hid => (h.logged id hid).trans (Nat.lt_succ_self _)⟩
  · exact (h.user j).trans (segment_goto (by rw [hpc, Pc.segment, Pc.segment]) j).symm
  · by_cases hid : id = s.table.next
    · subst hid
      obtain rfl : (fun _ => 0) = content := by simpa [Table.create] using hc
      rw [hstored, Option.elim]
    · exact h.pointer id content (hold hid hc)
  · have hfull : lastStored id log ≠ none ∨ ∃ j page, s.pc j = .attached id page .storeP := by
      refine hfull.imp_right ?_
      rintro ⟨j, page, hj⟩
      exact ⟨j, page, of_pc_goto (by simp) hj⟩
    have hid : id ≠ s.table.next := by
      rintro rfl
      rcases hfull with hne | ⟨j, page, hj⟩
      · exact hne hstored
      · obtain ⟨content, hc⟩ := h.mem hj
        exact lt_irrefl _ (h.kept.below _ (by simp [hc]))
    exact h.filled id content (hold hid hc) hfull

theorem Inv.storeTarget (h : Inv s log) (hpc : s.pc i = .attached id page .storeTarget) :
    Inv { s.goto i (.attached id page .storeP) with
      table := s.table.store id fun content => Function.update content target value }
      (log ++ []) := by
  have hne : p ≠ target := by decide
  rw [List.append_nil]
  refine ⟨h.kept.store id _, fun j => ?_, fun id' content hc => ?_, fun id' content hc hfull => ?_,
    h.logged⟩
  · exact (h.user j).trans (segment_goto (by rw [hpc, Pc.segment, Pc.segment]) j).symm
  · obtain ⟨before, hbefore, rfl⟩ := Table.mem_store.1 hc
    have hp := h.pointer id' before hbefore
    split_ifs
    · simpa [hne] using hp
    · exact hp
  · obtain ⟨before, hbefore, rfl⟩ := Table.mem_store.1 hc
    split_ifs with hid
    · simp
    · refine h.filled id' before hbefore (hfull.imp_right ?_)
      rintro ⟨j, page', hj⟩
      exact ⟨j, page', of_pc_goto (by simp [Ne.symm hid]) hj⟩

theorem Inv.storeP (h : Inv s log) (hpc : s.pc i = .attached id page .storeP) :
    Inv { s.goto i (.attached id page .printTarget) with
      table := s.table.store id fun content => Function.update content p (address page target) }
      (log ++ [.stored id page]) := by
  have hne : target ≠ p := by decide
  refine ⟨h.kept.store id _, fun j => ?_, fun id' content hc => ?_, fun id' content hc hfull => ?_,
    fun id' hid' => ?_⟩
  · exact (h.user j).trans (segment_goto (by rw [hpc, Pc.segment, Pc.segment]) j).symm
  · obtain ⟨before, hbefore, rfl⟩ := Table.mem_store.1 hc
    rw [lastStored_stored]
    split_ifs with hid hid' hid'
    · simp
    · exact absurd hid.symm hid'
    · exact absurd hid'.symm hid
    · exact h.pointer id' before hbefore
  · obtain ⟨before, hbefore, rfl⟩ := Table.mem_store.1 hc
    have hvalue : before target = value := by
      refine h.filled id' before hbefore ?_
      by_cases hid : id' = id
      · exact .inr ⟨i, page, hid ▸ hpc⟩
      · rw [lastStored_stored, if_neg (Ne.symm hid)] at hfull
        refine hfull.imp_right ?_
        rintro ⟨j, page', hj⟩
        exact ⟨j, page', of_pc_goto (by simp) hj⟩
    split_ifs
    · simpa [hne] using hvalue
    · exact hvalue
  · by_cases hid : id = id'
    · obtain ⟨content, hc⟩ := h.mem hpc
      exact hid ▸ h.kept.below id (by simp [hc])
    · rw [lastStored_stored, if_neg hid] at hid'
      exact h.logged id' hid'

variable [Fintype ι] (role : ι → Role) (other : ι → ℕ → Option ℕ)

theorem inv_attached (h : Inv s log) {call : Call} (hpc : s.pc i = .attached id page call)
    (content : Content) : Inv (stepAttached other s i id page content call).1
      (log ++ (stepAttached other s i id page content call).2) := by
  have hprint : ∀ next events, next ≠ Call.storeP → (∀ id, ∀ e ∈ events, storedIn id e = none) →
      Inv (s.goto i (.attached id page next)) (log ++ events) := fun next events hnext hevents =>
    h.goto (by rw [hpc, Pc.segment, Pc.segment]) (by simp [hnext]) hevents
  cases call with
  | storeTarget => exact h.storeTarget hpc
  | storeP => exact h.storeP hpc
  | shmctl => exact h.remove hpc
  | printTarget => exact hprint .printP [.target i _] (by simp) (by simp [storedIn])
  | printP => exact hprint .printDeref [.pointer i _] (by simp) (by simp [storedIn])
  | printDeref =>
    unfold stepAttached
    cases load content page (other i) (content p) with
    | none => exact h.detach rfl (by simp) (by simp [storedIn])
    | some v => exact hprint .shmdt _ (by simp) (by simp [storedIn])
  | shmdt => exact h.detach rfl (by simp) fun _ _ he => by cases he

theorem inv_step (h : Inv s log) (input : ι × Option ℕ) :
    Inv (step role other s input).1 (log ++ (step role other s input).2) := by
  obtain ⟨i, answer⟩ := input
  cases hpc : s.pc i with
  | shmget =>
    have hgoto : ∀ pc : Pc, pc.segment = none → (∀ id page, pc ≠ .attached id page .storeP) →
        Inv (s.goto i pc) (log ++ []) := fun pc hsegment hne =>
      h.goto (by rw [hpc, hsegment, Pc.segment]) hne (by simp)
    cases answer with
    | none =>
      simp only [step, hpc]
      exact hgoto _ rfl (by simp)
    | some _ =>
      cases hkey : s.table.key with
      | some id =>
        simp only [step, hpc, hkey]
        exact hgoto _ rfl (by simp)
      | none =>
        cases hrole : role i with
        | reader =>
          simp only [step, hpc, hkey, hrole]
          exact hgoto _ rfl (by simp)
        | writer =>
          simp only [step, hpc, hkey, hrole]
          exact h.create hpc hkey
  | shmat id =>
    have hfail : Inv (s.goto i (.ended (-1))) (log ++ []) :=
      h.goto (by rw [hpc, Pc.segment, Pc.segment]) (by simp) (by simp)
    cases answer with
    | none =>
      simp only [step, hpc]
      exact hfail
    | some page =>
      cases hmem : s.table.mem id with
      | none =>
        simp only [step, hpc, hmem]
        exact hfail
      | some content =>
        simp only [step, hpc, hmem]
        exact h.attach hpc (by simp [hmem]) (by cases role i <;> simp) page
  | attached id page call =>
    obtain ⟨content, hmem⟩ := h.mem hpc
    simp only [step, hpc, hmem]
    exact inv_attached other h hpc content
  | ended | killed =>
    simp only [step, hpc, List.append_nil]
    exact h

theorem key_attached {content : Content} {call : Call} {id' : ℕ}
    (hkey : (stepAttached other s i id page content call).1.table.key = some id') :
    s.table.key = some id' ∧ (call = .shmctl → id' ≠ id) := by
  cases call with
  | storeTarget | storeP | printTarget | printP => exact ⟨hkey, by simp⟩
  | shmctl =>
    have hremove : (s.table.remove id).key = some id' := hkey
    rw [Table.key_remove] at hremove
    split_ifs at hremove with hid
    refine ⟨hremove, ?_⟩
    rintro - rfl
    exact hid hremove
  | printDeref =>
    unfold stepAttached at hkey
    cases hload : load content page (other i) (content p) <;> simp [hload, State.goto] at hkey <;>
      exact ⟨hkey, by simp⟩
  | shmdt =>
    have hdetach : (s.table.detach i).key = some id' := hkey
    rw [Table.key_detach] at hdetach
    exact ⟨hdetach, by simp⟩

/-- The key comes to lead to a new segment only. -/
theorem key_step (input : ι × Option ℕ) (hkey : (step role other s input).1.table.key = some id) :
    s.table.key = some id ∨ id = s.table.next := by
  obtain ⟨i, answer⟩ := input
  cases hpc : s.pc i with
  | shmget =>
    cases answer <;> cases hk : s.table.key <;> cases hrole : role i <;>
      simp_all [step, State.goto, Table.create]
  | shmat id' =>
    cases answer <;> cases hmem : s.table.mem id' <;> simp_all [step, State.goto, Table.attach]
  | attached id' page call =>
    cases hmem : s.table.mem id' with
    | none =>
      simp only [step, hpc, hmem] at hkey
      exact .inl hkey
    | some content =>
      simp only [step, hpc, hmem] at hkey
      exact .inl (key_attached other hkey).1
  | ended | killed =>
    simp only [step, hpc] at hkey
    exact .inl hkey

theorem next_step (s : State ι) (input : ι × Option ℕ) :
    s.table.next ≤ (step role other s input).1.table.next := by
  obtain ⟨i, answer⟩ := input
  cases hpc : s.pc i with
  | shmget =>
    cases answer <;> cases hk : s.table.key <;> cases hrole : role i <;>
      simp [step, hpc, hk, hrole, State.goto, Table.create]
  | shmat id' =>
    cases answer <;> cases hmem : s.table.mem id' <;>
      simp [step, hpc, hmem, State.goto, Table.attach]
  | attached id' page call =>
    cases hmem : s.table.mem id' with
    | none => simp [step, hpc, hmem]
    | some content =>
      simp only [step, hpc, hmem]
      cases call with
      | printDeref =>
        unfold stepAttached
        cases load content page (other i) (content p) <;> simp [State.goto]
      | shmctl | shmdt => simp [stepAttached]
      | _ => exact le_rfl
  | ended | killed => simp [step, hpc]

theorem pc_attached {content : Content} {before call : Call} {id' page' : ℕ}
    (hpc : (stepAttached other s i id page content before).1.pc i = .attached id' page' call) :
    id' = id ∧ page' = page := by
  cases before with
  | printDeref =>
    unfold stepAttached at hpc
    cases hload : load content page (other i) (content p) <;>
      simp [hload, State.goto, eq_comm] at hpc
    exact ⟨hpc.1.symm, hpc.2.1.symm⟩
  | shmdt => simp [stepAttached, State.goto] at hpc
  | _ =>
    simp only [stepAttached, State.goto, Function.update_self, Pc.attached.injEq] at hpc
    exact ⟨hpc.1.symm, hpc.2.1.symm⟩

theorem pc_of_ne {input : ι × Option ℕ} (hj : j ≠ input.1) :
    (step role other s input).1.pc j = s.pc j := by
  obtain ⟨i, answer⟩ := input
  have hgoto : ∀ pc, (s.goto i pc).pc j = s.pc j := fun pc => by rw [pc_goto, if_neg hj]
  cases hpc : s.pc i with
  | shmget =>
    cases answer <;> cases hk : s.table.key <;> cases hrole : role i <;>
      simp [step, hpc, hk, hrole, hgoto]
  | shmat id =>
    cases answer <;> cases hmem : s.table.mem id <;> simp [step, hpc, hmem, hgoto]
  | attached id page call =>
    cases hmem : s.table.mem id with
    | none => simp [step, hpc, hmem]
    | some content =>
      simp only [step, hpc, hmem]
      cases call with
      | printDeref =>
        unfold stepAttached
        cases load content page (other i) (content p) <;> exact hgoto _
      | _ => exact hgoto _
  | ended | killed => simp [step, hpc]

/-- A reader comes behind `shmctl` only through `shmctl`. -/
theorem pc_step {input : ι × Option ℕ} {call : Call} (hrole : role j = .reader)
    (hpc : (step role other s input).1.pc j = .attached id page call) (hcall : call ≠ .shmctl) :
    (∃ before, s.pc j = .attached id page before ∧ before ≠ .shmctl) ∨
      (step role other s input).1.table.key ≠ some id := by
  by_cases hj : j = input.1
  swap
  · rw [pc_of_ne role other hj] at hpc
    exact .inl ⟨call, hpc, hcall⟩
  obtain ⟨i, answer⟩ := input
  obtain rfl : j = i := hj
  cases hbefore : s.pc j with
  | shmget =>
    cases answer <;> cases hk : s.table.key <;> simp [step, hbefore, hk, hrole, State.goto] at hpc
  | shmat id' =>
    cases answer <;> cases hmem : s.table.mem id' <;>
      simp [step, hbefore, hmem, hrole, State.goto] at hpc
    exact absurd hpc.2.2.symm hcall
  | attached id' page' before =>
    cases hmem : s.table.mem id' with
    | none =>
      simp only [step, hbefore, hmem] at hpc
      exact .inl ⟨call, hpc, hcall⟩
    | some content =>
      simp only [step, hbefore, hmem] at hpc ⊢
      obtain ⟨rfl, rfl⟩ := pc_attached other hpc
      by_cases hshmctl : before = .shmctl
      · exact .inr fun hkey => (key_attached other hkey).2 hshmctl rfl
      · exact .inl ⟨before, rfl, hshmctl⟩
  | ended | killed => simp [step, hbefore] at hpc

end Content

/-! ## Runs -/

section Runs
variable {ι : Type*} [DecidableEq ι] [Fintype ι] {role : ι → Role} {other : ι → ℕ → Option ℕ}
variable {s : State ι} {i : ι}

variable (role other) in
theorem inv_run (inputs : List (ι × Option ℕ)) :
    Inv (exec (step role other) start inputs) (trace (step role other) start inputs) :=
  invariant_trace Inv (fun _ input _ h => inv_step role other h input) inv_start inputs

/-- A process follows the address in the segment. If no writer has stored one yet, that
is `SIGSEGV`. Else the last writer to have stored its own decides: if it had the segment
attached at the same page, the process prints the value; if not, the process goes to
where the address leads in its own other memory. -/
theorem pointer_followed (role : ι → Role) (other : ι → ℕ → Option ℕ)
    (inputs : List (ι × Option ℕ)) (i : ι) (id page : ℕ) (answer : Option ℕ)
    (hpc : (exec (step role other) start inputs).pc i = .attached id page .printDeref) :
    (step role other (exec (step role other) start inputs) (i, answer)).2 =
      match lastStored id (trace (step role other) start inputs) with
      | none => [.segv i]
      | some page' =>
        if page' = page then [.dereferenced i value]
        else match other i (address page' target) with
          | none => [.segv i]
          | some v => [.dereferenced i v] := by
  have hinv := inv_run role other inputs
  obtain ⟨content, hmem⟩ := hinv.mem hpc
  have hpointer := hinv.pointer id content hmem
  have hfilled := hinv.filled id content hmem
  simp only [step, hpc, hmem, stepAttached]
  cases hlast : lastStored id (trace (step role other) start inputs) with
  | none =>
    have hnull : load content page (other i) (content p) = none := by
      rw [hpointer, hlast, Option.elim, load_null]
    simp only [hnull]
  | some page' =>
    have hvalue : content target = value := hfilled (.inl (by simp [hlast]))
    have hload : load content page (other i) (content p) =
        if page' = page then some value else other i (address page' target) := by
      rw [hpointer, hlast, Option.elim, load_address, hvalue]
    rw [hload]
    by_cases hpage : page' = page
    · simp only [if_pos hpage]
    · simp only [if_neg hpage]
      cases other i (address page' target) <;> rfl

/-- A writer, and a reader that has the segment attached at the same page. -/
theorem pointer_followed_pair :
    let role : Bool → Role := fun b => if b then .writer else .reader
    let other : Bool → ℕ → Option ℕ := fun _ _ => none
    let inputs := List.replicate 4 (true, some 3) ++ List.replicate 5 (false, some 3)
    (step role other (exec (step role other) start inputs) (false, none)).2 =
      [.dereferenced false value] := by
  intro role other inputs
  have hpc : (exec (step role other) start inputs).pc false = .attached 0 3 .printDeref := by
    decide +kernel
  have hlast : lastStored 0 (trace (step role other) start inputs) = some 3 := by decide +kernel
  have hfollowed := pointer_followed role other inputs false 0 3 none hpc
  rw [hlast] at hfollowed
  exact hfollowed

/-- No key leads to a segment that a reader has marked. -/
def Marked (role : ι → Role) (s : State ι) : Prop :=
  ∀ i id page call, role i = .reader → s.pc i = .attached id page call → call ≠ .shmctl →
    s.table.key ≠ some id

theorem key_gone {id : ℕ} (hkey : s.table.key ≠ some id) (hid : id < s.table.next)
    (input : ι × Option ℕ) : (step role other s input).1.table.key ≠ some id := fun h =>
  (key_step role other input h).elim hkey hid.ne

theorem marked_step {log : List (Event ι)} (hinv : Inv s log) (h : Marked role s)
    (input : ι × Option ℕ) : Marked role (step role other s input).1 := by
  intro j id page call hrole hpc hcall
  rcases pc_step role other hrole hpc hcall with ⟨before, hbefore, hne⟩ | hkey
  · obtain ⟨content, hmem⟩ := hinv.mem hbefore
    have hid : id < s.table.next := hinv.kept.below id (by simp [hmem])
    exact key_gone (h j id page before hrole hbefore hne) hid input
  · exact hkey

/-- Once a reader has called `shmctl`, the key leads to its segment in no continuation, and
the segment exists exactly as long as somebody has it attached. -/
theorem marked_segment (role : ι → Role) (other : ι → ℕ → Option ℕ)
    (inputs later : List (ι × Option ℕ)) (i : ι) (id page : ℕ) (call : Call)
    (hrole : role i = .reader)
    (hpc : (exec (step role other) start inputs).pc i = .attached id page call)
    (hcall : call ≠ .shmctl) :
    let s := exec (step role other) (exec (step role other) start inputs) later
    s.table.key ≠ some id ∧ (s.table.mem id ≠ none ↔ ∃ j, (s.pc j).segment = some id) := by
  intro s
  have hinv := inv_run role other inputs
  have hmarked : Marked role (exec (step role other) start inputs) := by
    have hboth := invariant_trace (fun s log => Inv s log ∧ Marked role s)
      (fun s input log h => ⟨inv_step role other h.1 input, marked_step h.1 h.2 input⟩)
      ⟨inv_start, by simp [Marked, start]⟩ inputs
    exact hboth.2
  obtain ⟨content, hmem⟩ := hinv.mem hpc
  have hgone : s.table.key ≠ some id ∧ id < s.table.next := by
    refine invariant_exec (fun s : State ι => s.table.key ≠ some id ∧ id < s.table.next) ?_
      ⟨hmarked i id page call hrole hpc hcall, hinv.kept.below id (by simp [hmem])⟩ later
    exact fun s input h =>
      ⟨key_gone h.1 h.2 input, h.2.trans_le (next_step role other s input)⟩
  have hlater : Inv s (trace (step role other) start (inputs ++ later)) := by
    have hrun := inv_run role other (inputs ++ later)
    rwa [exec_append] at hrun
  refine ⟨hgone.1, ?_⟩
  rw [hlater.kept.reached, or_iff_right hgone.1]
  exact exists_congr fun j => by rw [hlater.user]

/-- The writer and the reader let go of the segment. -/
theorem marked_segment_pair :
    let role : Bool → Role := fun b => if b then .writer else .reader
    let other : Bool → ℕ → Option ℕ := fun _ _ => none
    let inputs := List.replicate 4 (true, some 3) ++ List.replicate 5 (false, some 3)
    let later := List.replicate 2 (false, none) ++ List.replicate 4 (true, none)
    let s := exec (step role other) (exec (step role other) start inputs) later
    s.table.key ≠ some 0 ∧ s.table.mem 0 = none := by
  intro role other inputs later
  have hpc : (exec (step role other) start inputs).pc false = .attached 0 3 .printDeref := by
    decide +kernel
  have hfree : ¬ ∃ j, ((exec (step role other) (exec (step role other) start inputs) later).pc
      j).segment = some 0 := by decide +kernel
  obtain ⟨hkey, hmem⟩ := marked_segment role other inputs later false 0 3 .printDeref rfl hpc
    (by decide)
  exact ⟨hkey, not_not.1 fun h => hfree (hmem.1 h)⟩

end Runs

end AcademyLab.Shm.Pointer
