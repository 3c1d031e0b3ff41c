import AcademyLab.Chain
import Mathlib.Data.List.Lattice

/-!
# The singly linked list

The functions of `singly_linked_list.c` over a heap with any addresses. `malloc`
does not fail; the address that it answers is part of the call. Whatever the code
must not do with a pointer is a fault of the run, and a loop that does not end in
`fuel` turns is one too.
-/
namespace AcademyLab.LinkedList
open Chains

/-- What a run must not come to. -/
inductive Fault
  | null
  | dangling
  | badFree
  | running
  deriving DecidableEq

/-- The heap and `head`. -/
structure State (α : Type*) where
  heap : Heap α Int32
  head : Option α

section Reading
variable {α : Type*}

/-- `*p` -/
def load (h : Heap α Int32) (p : Option α) : Except Fault (Node α Int32) :=
  match p with
  | none => .error .null
  | some a =>
    match h a with
    | none => .error .dangling
    | some node => .ok node

/-- The search loop of `delete_node`, with `cur` and `prev`. -/
def search (h : Heap α Int32) (data : Int32) :
    ℕ → Option α → Option α → Except Fault (Option α × Option α)
  | 0, _, _ => .error .running
  | fuel + 1, cur, prev =>
    match cur with
    | none => .ok (cur, prev)
    | some _ => do
      let node ← load h cur
      if node.data = data then .ok (cur, prev) else search h data fuel node.next cur

/-- The loop of `insert_back`, with `cur`. -/
def walk (h : Heap α Int32) : ℕ → Option α → Except Fault (Option α)
  | 0, _ => .error .running
  | fuel + 1, cur => do
    let node ← load h cur
    match node.next with
    | none => .ok cur
    | some _ => walk h fuel node.next

/-- The nodes that `func` is called with, each with what it finds there. -/
def traverseNode (h : Heap α Int32) : ℕ → Option α → Except Fault (List (α × Int32))
  | 0, _ => .error .running
  | fuel + 1, cur =>
    match cur with
    | none => .ok []
    | some a => do
      let node ← load h cur
      let visited ← traverseNode h fuel node.next
      return (a, node.data) :: visited

end Reading

section Program
variable {α : Type*} [DecidableEq α]

/-- `p->next = next` -/
def storeNext (h : Heap α Int32) (p next : Option α) : Except Fault (Heap α Int32) :=
  match p with
  | none => .error .null
  | some a =>
    match h a with
    | none => .error .dangling
    | some node => .ok (Function.update h a (some ⟨node.data, next⟩))

/-- `free(p)` -/
def free (h : Heap α Int32) (p : Option α) : Except Fault (Heap α Int32) :=
  match p with
  | none => .ok h
  | some a =>
    match h a with
    | none => .error .badFree
    | some _ => .ok (Function.update h a none)

/-- `create_node`, with the answer of `malloc`. -/
def createNode (h : Heap α Int32) (a : α) (data : Int32) : Heap α Int32 :=
  Function.update h a (some ⟨data, none⟩)

def deleteNode (fuel : ℕ) (s : State α) (data : Int32) : Except Fault (State α) :=
  match s.head with
  | none => .ok s
  | some _ => do
    let first ← load s.heap s.head
    if first.data = data then
      let heap ← free s.heap s.head
      return ⟨heap, first.next⟩
    let (cur, prev) ← search s.heap data fuel s.head none
    match cur with
    | none => return s
    | some _ =>
      let node ← load s.heap cur
      if node.data = data then
        let heap ← storeNext s.heap prev node.next
        let heap ← free heap cur
        return ⟨heap, s.head⟩
      return s

def insertFront (s : State α) (a : α) (data : Int32) : Except Fault (State α) := do
  let heap ← storeNext (createNode s.heap a data) (some a) s.head
  return ⟨heap, some a⟩

def insertBack (fuel : ℕ) (s : State α) (a : α) (data : Int32) : Except Fault (State α) :=
  match s.head with
  | none => .ok ⟨createNode s.heap a data, some a⟩
  | some _ => do
    let cur ← walk s.heap fuel s.head
    let heap ← storeNext (createNode s.heap a data) cur (some a)
    return ⟨heap, s.head⟩

/-- The calls that change the list. -/
inductive Op (α : Type*)
  | insertFront (a : α) (data : Int32)
  | insertBack (a : α) (data : Int32)
  | deleteNode (data : Int32)

def step (fuel : ℕ) (s : State α) : Op α → Except Fault (State α)
  | .insertFront a data => insertFront s a data
  | .insertBack a data => insertBack fuel s a data
  | .deleteNode data => deleteNode fuel s data

def run (fuel : ℕ) : State α → List (Op α) → Except Fault (State α)
  | s, [] => .ok s
  | s, op :: ops => do
    let s ← step fuel s op
    run fuel s ops

/-- `head` is null, and nothing is allocated. -/
def start : State α := ⟨fun _ => none, none⟩

/-- `malloc` answers an address that is not allocated. -/
def Op.Fresh (s : State α) : Op α → Prop
  | .insertFront a _ | .insertBack a _ => s.heap a = none
  | .deleteNode _ => True

/-- All answers of `malloc` are fresh when they are given. -/
def AllFresh (fuel : ℕ) : State α → List (Op α) → Prop
  | _, [] => True
  | s, op :: ops => op.Fresh s ∧ ∀ s', step fuel s op = .ok s' → AllFresh fuel s' ops

end Program

/-! ## What the calls are for -/

/-- The call on the list that the chain stands for. -/
def Op.apply {α : Type*} (xs : List Int32) : Op α → List Int32
  | .insertFront _ data => data :: xs
  | .insertBack _ data => xs ++ [data]
  | .deleteNode data => xs.erase data

/-- The chain from `head` has just the nodes that are allocated. -/
structure Represents {α : Type*} (s : State α) (cells : List (α × Int32)) : Prop where
  chain : Chain s.heap s.head cells
  owned : ∀ a, s.heap a ≠ none ↔ a ∈ addresses cells

/-! ## The loops -/

section Loops
variable {α : Type*} {h : Heap α Int32} {p cur prev next : Option α} {a : α}
  {data x : Int32} {node : Node α Int32} {cells rest : List (α × Int32)} {fuel : ℕ}

theorem load_some (hnode : h a = some node) : load h (some a) = .ok node := by
  simp [load, hnode]

/-- The address of the last node, or the pointer before. -/
def lastOf (prev : Option α) (cells : List (α × Int32)) : Option α :=
  cells.foldl (fun _ cell => some cell.1) prev

@[simp] theorem lastOf_concat : lastOf prev (cells ++ [(a, x)]) = some a := by
  simp [lastOf]

/-- The search loop stops at the first node with `data`, with `prev` right
behind. -/
theorem search_found (prev : Option α) (hseg : Seg h cur cells (some a)) (hne : data ∉ values cells)
    (hnode : h a = some node) (hdata : node.data = data) (hfuel : cells.length < fuel) :
    search h data fuel cur prev = .ok (some a, lastOf prev cells) := by
  induction cells generalizing cur prev fuel with
  | nil =>
    obtain ⟨fuel, rfl⟩ := Nat.exists_eq_add_of_lt hfuel
    obtain rfl := seg_nil.1 hseg
    simp [search, load_some hnode, hdata, lastOf, bind, Except.bind]
  | cons cell cells ih =>
    obtain ⟨b, y⟩ := cell
    obtain ⟨rfl, next, hb, hcells⟩ := hseg
    rw [values_cons, List.mem_cons, not_or] at hne
    cases fuel with
    | zero => omega
    | succ fuel =>
      have hrest := ih (some b) hcells hne.2 (by simpa using hfuel)
      simp [search, load_some hb, Ne.symm hne.1, bind, Except.bind, hrest, lastOf]

/-- Without such a node it goes through to the null pointer. -/
theorem search_missing (prev : Option α) (hchain : Chain h cur cells) (hne : data ∉ values cells)
    (hfuel : cells.length < fuel) :
    search h data fuel cur prev = .ok (none, lastOf prev cells) := by
  induction cells generalizing cur prev fuel with
  | nil =>
    obtain ⟨fuel, rfl⟩ := Nat.exists_eq_add_of_lt hfuel
    obtain rfl : cur = none := hchain
    simp [search, lastOf]
  | cons cell cells ih =>
    obtain ⟨b, y⟩ := cell
    obtain ⟨rfl, next, hb, hcells⟩ := hchain
    rw [values_cons, List.mem_cons, not_or] at hne
    cases fuel with
    | zero => omega
    | succ fuel =>
      have hrest := ih (some b) hcells hne.2 (by simpa using hfuel)
      simp [search, load_some hb, Ne.symm hne.1, bind, Except.bind, hrest, lastOf]

/-- The loop of `insert_back` stops at the last node. -/
theorem walk_last (hchain : Chain h cur (cells ++ [(a, x)])) (hfuel : cells.length < fuel) :
    walk h fuel cur = .ok (some a) := by
  induction cells generalizing cur fuel with
  | nil =>
    obtain ⟨fuel, rfl⟩ := Nat.exists_eq_add_of_lt hfuel
    obtain ⟨rfl, next, hnode, hnext⟩ := hchain
    obtain rfl : next = none := hnext
    simp [walk, load_some hnode, bind, Except.bind]
  | cons cell cells ih =>
    obtain ⟨b, y⟩ := cell
    obtain ⟨rfl, next, hb, hcells⟩ := hchain
    cases fuel with
    | zero => omega
    | succ fuel =>
      have hrest := ih hcells (by simpa using hfuel)
      have hnext : ∃ c, next = some c := by
        cases cells with
        | nil => exact ⟨_, hcells.1⟩
        | cons cell cells => exact ⟨_, hcells.1⟩
      obtain ⟨c, rfl⟩ := hnext
      simp [walk, load_some hb, bind, Except.bind, hrest]

/-- A traversal visits the nodes of the chain, in order. -/
theorem traverseNode_chain (hchain : Chain h cur cells) (hfuel : cells.length < fuel) :
    traverseNode h fuel cur = .ok cells := by
  induction cells generalizing cur fuel with
  | nil =>
    obtain ⟨fuel, rfl⟩ := Nat.exists_eq_add_of_lt hfuel
    obtain rfl : cur = none := hchain
    simp [traverseNode]
  | cons cell cells ih =>
    obtain ⟨b, y⟩ := cell
    obtain ⟨rfl, next, hb, hcells⟩ := hchain
    cases fuel with
    | zero => omega
    | succ fuel =>
      have hrest := ih hcells (by simpa using hfuel)
      simp [traverseNode, load_some hb, bind, Except.bind, hrest, pure, Except.pure]

end Loops

section Stores
variable {α : Type*} [DecidableEq α] {h : Heap α Int32} {next : Option α} {a : α}
  {node : Node α Int32}

theorem storeNext_some (hnode : h a = some node) :
    storeNext h (some a) next = .ok (Function.update h a (some ⟨node.data, next⟩)) := by
  simp [storeNext, hnode]

theorem free_some (hnode : h a = some node) :
    free h (some a) = .ok (Function.update h a none) := by
  simp [free, hnode]

end Stores

/-! ## The calls -/

section Calls
variable {α : Type*} {s : State α} {a : α} {data : Int32} {cells : List (α × Int32)} {fuel : ℕ}

theorem represents_start : Represents (start : State α) [] :=
  ⟨rfl, fun a => by simp [start, addresses]⟩

theorem Represents.notMem_of_fresh (h : Represents s cells) (ha : s.heap a = none) :
    a ∉ addresses cells := fun hmem => (h.owned a).2 hmem ha

theorem length_apply (op : Op α) (xs : List Int32) : (op.apply xs).length ≤ xs.length + 1 := by
  cases op with
  | insertFront a data => simp [Op.apply]
  | insertBack a data => simp [Op.apply]
  | deleteNode data =>
    have := (List.erase_sublist (a := data) (l := xs)).length_le
    simp only [Op.apply]
    omega

variable [DecidableEq α]

theorem insertFront_spec (h : Represents s cells) (ha : s.heap a = none) :
    ∃ s', insertFront s a data = .ok s' ∧ Represents s' ((a, data) :: cells) := by
  have hnode : createNode s.heap a data a = some ⟨data, none⟩ := Function.update_self ..
  refine ⟨⟨Function.update s.heap a (some ⟨data, s.head⟩), some a⟩, ?_, ?_, ?_⟩
  · have hheap : Function.update (createNode s.heap a data) a (some ⟨data, s.head⟩) =
        Function.update s.heap a (some ⟨data, s.head⟩) := Function.update_idem ..
    rw [insertFront, storeNext_some hnode, hheap]
    rfl
  · exact h.chain.push (h.notMem_of_fresh ha)
  · intro b
    by_cases hb : b = a
    · simp [hb]
    · simpa [Function.update_of_ne hb, hb] using h.owned b

theorem insertBack_spec (h : Represents s cells) (ha : s.heap a = none)
    (hfuel : cells.length < fuel) :
    ∃ s', insertBack fuel s a data = .ok s' ∧ Represents s' (cells ++ [(a, data)]) := by
  have hfresh := h.notMem_of_fresh ha
  obtain rfl | ⟨before, ⟨b, y⟩, rfl⟩ := cells.eq_nil_or_concat'
  · have hhead : s.head = none := h.chain
    refine ⟨⟨createNode s.heap a data, some a⟩, ?_, ?_, ?_⟩
    · rw [insertBack, hhead]
    · have hempty : Chain s.heap none [] := rfl
      exact hempty.push hfresh
    · intro b
      by_cases hb : b = a
      · simp [createNode, hb]
      · simpa [createNode, Function.update_of_ne hb, hb] using h.owned b
  · obtain ⟨r, hbefore, rfl, next, hb, hnext⟩ := seg_append.1 h.chain
    obtain rfl : next = none := hnext
    have hba : b ≠ a := fun hba => hfresh (by simp [hba])
    have hnode : createNode s.heap a data b = some ⟨y, none⟩ := by
      rw [createNode, Function.update_of_ne hba, hb]
    have hwalk : walk s.heap fuel s.head = .ok (some b) :=
      walk_last h.chain (by rw [List.length_append] at hfuel; omega)
    obtain ⟨c, hhead⟩ : ∃ c, s.head = some c := by
      cases before with
      | nil => exact ⟨b, hbefore⟩
      | cons cell before => exact ⟨cell.1, hbefore.1⟩
    refine ⟨⟨Function.update (createNode s.heap a data) b (some ⟨y, some a⟩), s.head⟩, ?_, ?_, ?_⟩
    · simp only [insertBack, hhead] at hwalk ⊢
      simp only [hwalk, storeNext_some hnode, bind, Except.bind, pure, Except.pure]
    · exact h.chain.snoc hfresh
    · intro c
      by_cases hcb : c = b
      · simp [hcb]
      · by_cases hca : c = a
        · simp [hca, Function.update_of_ne (hca ▸ hcb), createNode]
        · simpa [createNode, Function.update_of_ne hcb, Function.update_of_ne hca, hca, hcb]
            using h.owned c

/-- The first node has `data`. -/
theorem deleteNode_first (fuel : ℕ) {rest : List (α × Int32)}
    (h : Represents s ((a, data) :: rest)) :
    ∃ s', deleteNode fuel s data = .ok s' ∧ Represents s' rest := by
  obtain ⟨hhead, next, hnode, -⟩ := h.chain
  have hmem : a ∉ addresses rest := (List.nodup_cons.1 h.chain.nodup).1
  refine ⟨⟨Function.update s.heap a none, next⟩, ?_, h.chain.pop hnode, ?_⟩
  · simp [deleteNode, hhead, load_some hnode, free_some hnode, bind, Except.bind, pure,
      Except.pure]
  · intro b
    by_cases hb : b = a
    · simpa [hb] using hmem
    · simpa [Function.update_of_ne hb, hb] using h.owned b

/-- A node behind the first has it: the one behind `b`. -/
theorem deleteNode_later {before rest : List (α × Int32)} {b : α} {y : Int32}
    (h : Represents s (before ++ (b, y) :: (a, data) :: rest))
    (hne : data ∉ values (before ++ [(b, y)])) (hfuel : before.length + 1 < fuel) :
    ∃ s', deleteNode fuel s data = .ok s' ∧ Represents s' (before ++ (b, y) :: rest) := by
  have hnodup := h.chain.nodup
  have hchain : Chain s.heap s.head ((before ++ [(b, y)]) ++ (a, data) :: rest) := by
    simpa using h.chain
  obtain ⟨r, hbefore, rfl, after, hnode, -⟩ := seg_append.1 hchain
  obtain ⟨r, -, rfl, after', hb, -⟩ := seg_append.1 hbefore
  -- the test of the first node fails
  obtain ⟨⟨first, x⟩, tail, hsplit⟩ := List.exists_cons_of_ne_nil
    (show before ++ [(b, y)] ≠ [] by simp)
  obtain ⟨hhead, next, hfirst, -⟩ : Seg s.heap s.head ((first, x) :: tail) (some a) :=
    hsplit ▸ hbefore
  have hx : x ≠ data := fun hx => hne (by simp [hsplit, hx])
  simp only [addresses_append, addresses_cons, List.nodup_append, List.nodup_cons, List.mem_cons,
    not_or] at hnodup
  have hab : a ≠ b := fun hab => hnodup.2.1.1.1 hab.symm
  have habefore : a ∉ addresses before := fun hmem => hnodup.2.2 a hmem a (Or.inr (Or.inl rfl)) rfl
  have harest : a ∉ addresses rest := hnodup.2.1.2.1
  have hfound : search s.heap data fuel (some first) none = .ok (some a, some b) := by
    rw [← hhead, search_found none hbefore hne hnode rfl (by simpa using hfuel), lastOf_concat]
  have hstore : storeNext s.heap (some b) after =
      .ok (Function.update s.heap b (some ⟨y, after⟩)) := storeNext_some hb
  have hnode' : Function.update s.heap b (some ⟨y, after⟩) a = some ⟨data, after⟩ := by
    rw [Function.update_of_ne hab, hnode]
  refine ⟨⟨Function.update (Function.update s.heap b (some ⟨y, after⟩)) a none, s.head⟩, ?_,
    h.chain.unlink hnode, ?_⟩
  · simp only [deleteNode, hhead, load_some hfirst, bind, Except.bind, hx, if_false, hfound,
      load_some hnode, if_true, hstore, free_some hnode', pure, Except.pure]
  · intro c
    by_cases hca : c = a
    · simp [hca, hab, habefore, harest]
    · by_cases hcb : c = b
      · simp [hcb, Function.update_of_ne (hcb ▸ hca)]
      · simpa [Function.update_of_ne hca, Function.update_of_ne hcb, hca, hcb] using h.owned c

/-- No node has it. -/
theorem deleteNode_missing (h : Represents s cells) (hne : data ∉ values cells)
    (hfuel : cells.length < fuel) : deleteNode fuel s data = .ok s := by
  cases cells with
  | nil =>
    have hhead : s.head = none := h.chain
    rw [deleteNode, hhead]
  | cons cell cells =>
    obtain ⟨b, y⟩ := cell
    have hmissing := search_missing none h.chain hne hfuel
    obtain ⟨hhead, next, hnode, -⟩ := h.chain
    have hy : y ≠ data := fun hy => hne (by simp [hy])
    simp only [hhead] at hmissing
    simp only [deleteNode, hhead, load_some hnode, bind, Except.bind, hy, if_false, hmissing, pure,
      Except.pure]

/-- A deletion takes out the first node with `data`, if there is one. -/
theorem deleteNode_spec (h : Represents s cells) (hfuel : cells.length < fuel) :
    ∃ s' cells', deleteNode fuel s data = .ok s' ∧ Represents s' cells' ∧
      values cells' = (values cells).erase data := by
  by_cases hmem : data ∈ values cells
  · obtain ⟨xs, ys, hne, hsplit, herase⟩ := List.exists_erase_eq hmem
    obtain ⟨before, found, rfl, rfl, hfound⟩ := List.map_eq_append_iff.1 hsplit
    obtain ⟨⟨a, x⟩, rest, rfl, rfl, rfl⟩ := List.map_eq_cons_iff.1 hfound
    obtain rfl | ⟨before, ⟨b, y⟩, rfl⟩ := before.eq_nil_or_concat'
    · obtain ⟨s', hs', h'⟩ := deleteNode_first fuel h
      exact ⟨s', rest, hs', h', by rw [herase]; rfl⟩
    · rw [List.append_assoc] at h
      obtain ⟨s', hs', h'⟩ := deleteNode_later h hne (show before.length + 1 < fuel by
        simp at hfuel
        omega)
      exact ⟨s', _, hs', h', by rw [herase]; simp [values]⟩
  · exact ⟨s, cells, deleteNode_missing h hmem hfuel, h, (List.erase_of_not_mem hmem).symm⟩

/-- A call does to the chain what it is for. -/
theorem step_spec {op : Op α} (h : Represents s cells) (hfresh : op.Fresh s)
    (hfuel : cells.length < fuel) :
    ∃ s' cells', step fuel s op = .ok s' ∧ Represents s' cells' ∧
      values cells' = op.apply (values cells) := by
  cases op with
  | insertFront a data =>
    obtain ⟨s', hs', h'⟩ := insertFront_spec h hfresh
    exact ⟨s', _, hs', h', rfl⟩
  | insertBack a data =>
    obtain ⟨s', hs', h'⟩ := insertBack_spec h hfresh hfuel
    exact ⟨s', _, hs', h', by simp [Op.apply, values]⟩
  | deleteNode data => exact deleteNode_spec h hfuel

theorem run_spec {ops : List (Op α)} (h : Represents s cells) (hfresh : AllFresh fuel s ops)
    (hfuel : cells.length + ops.length < fuel) :
    ∃ s' cells', run fuel s ops = .ok s' ∧ Represents s' cells' ∧
      values cells' = ops.foldl Op.apply (values cells) ∧
      cells'.length ≤ cells.length + ops.length := by
  induction ops generalizing s cells with
  | nil => exact ⟨s, cells, rfl, h, rfl, Nat.le_refl _⟩
  | cons op ops ih =>
    rw [List.length_cons] at hfuel
    obtain ⟨s', cells', hs', h', hvalues⟩ := step_spec h hfresh.1 (by omega : cells.length < fuel)
    have hlength : cells'.length ≤ cells.length + 1 := by
      simpa only [← hvalues, length_values] using length_apply op (values cells)
    obtain ⟨s'', cells'', hs'', h'', hvalues', hlength'⟩ := ih h' (hfresh.2 s' hs') (by omega)
    refine ⟨s'', cells'', ?_, h'', ?_, ?_⟩
    · rw [run, hs']
      exact hs''
    · rw [hvalues', hvalues, List.foldl_cons]
    · rw [List.length_cons]
      omega

end Calls

/-- Any calls on an empty list: no pointer is misused and every loop ends, and the
chain from `head` is the list, made of just what is allocated. -/
theorem linked_list {α : Type*} [DecidableEq α] (ops : List (Op α)) (fuel : ℕ)
    (hfresh : AllFresh fuel start ops) (hfuel : ops.length < fuel) :
    ∃ s cells, run fuel start ops = .ok s ∧
      Chain s.heap s.head cells ∧ (addresses cells).Nodup ∧
      values cells = ops.foldl Op.apply [] ∧
      (∀ a, s.heap a ≠ none ↔ a ∈ addresses cells) ∧
      traverseNode s.heap fuel s.head = .ok cells := by
  obtain ⟨s, cells, hs, h, hvalues, hlength⟩ :=
    run_spec represents_start hfresh (by simpa using hfuel)
  rw [List.length_nil] at hlength
  exact ⟨s, cells, hs, h.chain, h.chain.nodup, hvalues, h.owned,
    traverseNode_chain h.chain (by omega)⟩

/-- Two insertions, and a deletion of the last node. -/
theorem linked_list_three :
    ∃ s cells, run 4 (start : State ℕ) [.insertBack 7 1, .insertFront 3 2, .deleteNode 1] = .ok s ∧
      Chain s.heap s.head cells ∧ (addresses cells).Nodup ∧ values cells = [2] ∧
      (∀ a, s.heap a ≠ none ↔ a ∈ addresses cells) ∧
      traverseNode s.heap 4 s.head = .ok cells :=
  linked_list [.insertBack 7 1, .insertFront 3 2, .deleteNode 1] 4
    ⟨rfl, fun s hs => by
      obtain rfl := Except.ok.inj hs
      exact ⟨rfl, fun s' hs' => ⟨trivial, fun _ _ => trivial⟩⟩⟩ (by decide)

end AcademyLab.LinkedList
