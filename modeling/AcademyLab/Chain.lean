import Mathlib.Data.List.Nodup
import Mathlib.Logic.Function.Basic

/-!
# Chains of nodes in a heap

A heap is a partial function from addresses to nodes, and a node has a value and a
pointer to the next one. `Seg` reads the nodes between two pointers, `Chain` those
from a pointer to the null pointer. A chain has no cycle, because what follows an
address is determined by the heap.
-/
namespace AcademyLab.Chains

variable {α β : Type*}

structure Node (α β : Type*) where
  data : β
  next : Option α
  deriving DecidableEq

/-- What is allocated, and what is in it. -/
abbrev Heap (α β : Type*) := α → Option (Node α β)

/-- The nodes from `p` on up to `q`, each with its address. -/
def Seg (h : Heap α β) : Option α → List (α × β) → Option α → Prop
  | p, [], q => p = q
  | p, (a, x) :: cells, q => p = some a ∧ ∃ next, h a = some ⟨x, next⟩ ∧ Seg h next cells q

/-- The nodes from `p` on, to the last. -/
def Chain (h : Heap α β) (p : Option α) (cells : List (α × β)) : Prop := Seg h p cells none

/-- The addresses of some nodes. -/
def addresses (cells : List (α × β)) : List α := cells.map Prod.fst

/-- The values of some nodes. -/
def values (cells : List (α × β)) : List β := cells.map Prod.snd

section Segments
variable {h h' : Heap α β} {p q r next : Option α} {a b : α} {x y : β}
  {cells rest : List (α × β)}

@[simp] theorem addresses_cons : addresses ((a, x) :: cells) = a :: addresses cells := rfl

@[simp] theorem addresses_append : addresses (cells ++ rest) = addresses cells ++ addresses rest :=
  List.map_append

@[simp] theorem values_cons : values ((a, x) :: cells) = x :: values cells := rfl

@[simp] theorem length_values : (values cells).length = cells.length := List.length_map _

@[simp] theorem values_append : values (cells ++ rest) = values cells ++ values rest :=
  List.map_append

@[simp] theorem seg_nil : Seg h p [] q ↔ p = q := Iff.rfl

@[simp] theorem seg_cons : Seg h p ((a, x) :: cells) q ↔
    p = some a ∧ ∃ next, h a = some ⟨x, next⟩ ∧ Seg h next cells q := Iff.rfl

theorem seg_append :
    Seg h p (cells ++ rest) q ↔ ∃ r, Seg h p cells r ∧ Seg h r rest q := by
  induction cells generalizing p with
  | nil => simp
  | cons cell cells ih =>
    obtain ⟨a, x⟩ := cell
    simp only [List.cons_append, seg_cons, ih]
    constructor
    · rintro ⟨hp, next, hnode, r, hcells, hrest⟩
      exact ⟨r, ⟨hp, next, hnode, hcells⟩, hrest⟩
    · rintro ⟨r, ⟨hp, next, hnode, hcells⟩, hrest⟩
      exact ⟨hp, next, hnode, r, hcells, hrest⟩

/-- Only the nodes of a segment matter for it. -/
theorem Seg.congr (hseg : Seg h p cells q) (hsame : ∀ a ∈ addresses cells, h' a = h a) :
    Seg h' p cells q := by
  induction cells generalizing p with
  | nil => exact hseg
  | cons cell cells ih =>
    obtain ⟨a, x⟩ := cell
    obtain ⟨hp, next, hnode, hcells⟩ := hseg
    refine ⟨hp, next, (hsame a List.mem_cons_self).trans hnode, ih hcells fun b hb => ?_⟩
    exact hsame b (List.mem_cons_of_mem a hb)

/-- A pointer has one chain. -/
theorem Chain.unique (hcells : Chain h p cells) (hrest : Chain h p rest) : cells = rest := by
  induction cells generalizing p rest with
  | nil =>
    cases rest with
    | nil => rfl
    | cons cell rest =>
      obtain ⟨rfl, -⟩ := hrest
      cases hcells
  | cons cell cells ih =>
    obtain ⟨a, x⟩ := cell
    obtain ⟨rfl, next, hnode, hcells⟩ := hcells
    cases rest with
    | nil => cases hrest
    | cons cell rest =>
      obtain ⟨b, y⟩ := cell
      obtain ⟨hb, next', hnode', hrest⟩ := hrest
      obtain rfl := Option.some.inj hb
      rw [hnode] at hnode'
      cases hnode'
      rw [ih hcells hrest]

/-- A chain does not come back to a node. -/
theorem Chain.nodup (hchain : Chain h p cells) : (addresses cells).Nodup := by
  induction cells generalizing p with
  | nil => exact List.nodup_nil
  | cons cell cells ih =>
    obtain ⟨a, x⟩ := cell
    have hwhole := hchain
    obtain ⟨rfl, next, hnode, hcells⟩ := hchain
    refine List.nodup_cons.2 ⟨fun hmem => ?_, ih hcells⟩
    -- what follows `a` further on would be all of the chain
    obtain ⟨⟨a', y⟩, hcell, rfl⟩ := List.mem_map.1 hmem
    obtain ⟨before, after, rfl⟩ := List.append_of_mem hcell
    obtain ⟨r, -, hr, hafter⟩ := seg_append.1 hcells
    subst hr
    have hagain : Chain h (some a') ((a', y) :: after) := ⟨rfl, hafter⟩
    have hsame := Chain.unique hwhole hagain
    have hlength := congrArg List.length hsame
    simp at hlength
    omega

end Segments

/-! ## Nodes put in and taken out -/

section Updates
variable [DecidableEq α] {h : Heap α β} {p next : Option α} {a b : α} {x y : β}
  {cells rest : List (α × β)}

/-- A change outside a segment. -/
theorem Seg.update {q : Option α} {node : Option (Node α β)} (hseg : Seg h p cells q)
    (ha : a ∉ addresses cells) : Seg (Function.update h a node) p cells q := by
  refine hseg.congr fun b hb => Function.update_of_ne ?_ _ _
  rintro rfl
  exact ha hb

/-- A node in front. -/
theorem Chain.push (hchain : Chain h p cells) (ha : a ∉ addresses cells) :
    Chain (Function.update h a (some ⟨x, p⟩)) (some a) ((a, x) :: cells) :=
  ⟨rfl, p, Function.update_self .., hchain.update ha⟩

/-- A node behind the last, which is `b`. -/
theorem Chain.snoc (hchain : Chain h p (cells ++ [(b, y)]))
    (ha : a ∉ addresses (cells ++ [(b, y)])) :
    Chain (Function.update (Function.update h a (some ⟨x, none⟩)) b (some ⟨y, some a⟩)) p
      (cells ++ [(b, y)] ++ [(a, x)]) := by
  have hnodup := hchain.nodup
  simp only [addresses_append, addresses_cons, List.mem_append, not_or,
    List.nodup_append] at hnodup ha
  obtain ⟨r, hcells, rfl, -⟩ := seg_append.1 hchain
  have hb : b ∉ addresses cells := fun hmem => hnodup.2.2 b hmem b List.mem_cons_self rfl
  have hab : a ≠ b := fun hab => ha.2 (hab ▸ List.mem_cons_self)
  rw [List.append_assoc]
  refine seg_append.2 ⟨some b, (hcells.update ha.1).update hb, rfl, some a,
    Function.update_self .., rfl, none, ?_, rfl⟩
  rw [Function.update_of_ne hab, Function.update_self]

/-- The node `a` taken out from behind `b`. -/
theorem Chain.unlink (hchain : Chain h p (cells ++ (b, y) :: (a, x) :: rest))
    (hnode : h a = some ⟨x, next⟩) :
    Chain (Function.update (Function.update h b (some ⟨y, next⟩)) a none) p
      (cells ++ (b, y) :: rest) := by
  have hnodup := hchain.nodup
  simp only [addresses_append, addresses_cons, List.nodup_append, List.nodup_cons, List.mem_cons,
    not_or] at hnodup
  obtain ⟨-, ⟨⟨hba, hbrest⟩, harest, -⟩, hcells'⟩ := hnodup
  obtain ⟨r, hcells, rfl, next', hnode', rfl, next'', hnode'', hrest⟩ := seg_append.1 hchain
  rw [hnode] at hnode''
  cases hnode''
  have hb : b ∉ addresses cells := fun hmem => hcells' b hmem b (Or.inl rfl) rfl
  have ha : a ∉ addresses cells := fun hmem => hcells' a hmem a (Or.inr (Or.inl rfl)) rfl
  refine seg_append.2 ⟨some b, (hcells.update hb).update ha, rfl, next, ?_,
    (hrest.update hbrest).update harest⟩
  rw [Function.update_of_ne hba, Function.update_self]

/-- The first node taken out. -/
theorem Chain.pop (hchain : Chain h p ((a, x) :: cells)) (hnode : h a = some ⟨x, next⟩) :
    Chain (Function.update h a none) next cells := by
  have hnotMem := (List.nodup_cons.1 hchain.nodup).1
  obtain ⟨-, next', hnode', hcells⟩ := hchain
  rw [hnode] at hnode'
  cases hnode'
  exact Seg.update hcells hnotMem

end Updates

end AcademyLab.Chains
