import Mathlib.Data.Nat.Digits.Defs
import Mathlib.Tactic.NormNum

/-!
# Words in a byte-addressed memory

A memory of 64-bit addresses with one byte at each. A word occupies eight bytes,
the lowest first. Differences of addresses wrap around as the machine's do, so a
range of addresses is given by where it begins and how many bytes it has.
-/
namespace AcademyLab.Memory

abbrev Addr := BitVec 64

abbrev Word := BitVec 64

/-- The byte at each address. -/
abbrev Mem := Addr → UInt8

/-- The byte `i` of a word. -/
def byteOf (v : Word) (i : ℕ) : UInt8 := UInt8.ofNat (v.toNat / 256 ^ i)

/-- The word that eight bytes make. -/
def wordOf (b : ℕ → UInt8) : Word :=
  BitVec.ofNat 64 (Nat.ofDigits 256 ((List.range 8).map fun i => (b i).toNat))

def load (m : Mem) (a : Addr) : Word := wordOf fun i => m (a + BitVec.ofNat 64 i)

def store (m : Mem) (a : Addr) (v : Word) : Mem :=
  fun x => if (x - a).toNat < 8 then byteOf v (x - a).toNat else m x

/-- The address `x` is one of the `n` from `lo` on. -/
def Within (lo : Addr) (n : ℕ) (x : Addr) : Prop := (x - lo).toNat < n

instance (lo : Addr) (n : ℕ) (x : Addr) : Decidable (Within lo n x) :=
  inferInstanceAs (Decidable (_ < _))

/-- Nothing has changed but the `n` bytes from `lo` on. -/
def Frame (lo : Addr) (n : ℕ) (m m' : Mem) : Prop := ∀ x, ¬ Within lo n x → m' x = m x

variable {m m' m'' : Mem} {a b lo lo' : Addr} {v : Word} {n n' : ℕ}

theorem wordOf_byteOf (v : Word) : wordOf (byteOf v) = v := by
  apply BitVec.eq_of_toNat_eq
  have hv : v.toNat < 2 ^ 64 := v.isLt
  simp [wordOf, byteOf, List.range, List.range.loop, Nat.ofDigits_cons]
  omega

theorem wordOf_congr {b c : ℕ → UInt8} (h : ∀ i < 8, b i = c i) : wordOf b = wordOf c := by
  have hmap : (List.range 8).map (fun i => (b i).toNat) =
      (List.range 8).map fun i => (c i).toNat := by
    refine List.map_congr_left fun i hi => ?_
    rw [h i (List.mem_range.1 hi)]
  rw [wordOf, wordOf, hmap]

theorem toNat_add_sub (a : Addr) {i : ℕ} (hi : i < 8) :
    (a + BitVec.ofNat 64 i - a).toNat = i := by
  have ha : a.toNat < 2 ^ 64 := a.isLt
  simp only [BitVec.toNat_sub, BitVec.toNat_add, BitVec.toNat_ofNat]
  omega

/-- A word that was stored is what is read back. -/
@[simp] theorem load_store (m : Mem) (a : Addr) (v : Word) : load (store m a v) a = v := by
  refine Eq.trans (wordOf_congr fun i hi => ?_) (wordOf_byteOf v)
  rw [store, toNat_add_sub a hi, if_pos hi]

/-- A store elsewhere does not reach a word. -/
theorem load_store_of_disjoint (hab : 8 ≤ (a - b).toNat) (hba : 8 ≤ (b - a).toNat) :
    load (store m a v) b = load m b := by
  refine wordOf_congr fun i hi => if_neg ?_
  have ha : a.toNat < 2 ^ 64 := a.isLt
  have hb : b.toNat < 2 ^ 64 := b.isLt
  simp only [BitVec.toNat_sub, BitVec.toNat_add, BitVec.toNat_ofNat] at hab hba ⊢
  omega

theorem add_sub_add (a c d : Addr) : a + c - (a + d) = c - d := by
  bv_omega

theorem add_sub_distance (a c d : Addr) : a + c - d = a + (c - d) := by
  bv_omega

/-- Two words at fixed distances from one address. -/
@[simp] theorem load_store_offset {c d : Addr} (h : 8 ≤ (c - d).toNat ∧ 8 ≤ (d - c).toNat) :
    load (store m (a + c) v) (a + d) = load m (a + d) := by
  refine load_store_of_disjoint ?_ ?_
  · rw [add_sub_add]
    exact h.1
  · rw [add_sub_add]
    exact h.2

/-! ## What stays as it is -/

@[simp] theorem Frame.refl (lo : Addr) (n : ℕ) (m : Mem) : Frame lo n m m := fun _ _ => rfl

theorem Frame.trans (h : Frame lo n m m') (h' : Frame lo n m' m'') : Frame lo n m m'' :=
  fun x hx => (h' x hx).trans (h x hx)

/-- A range within a range. -/
theorem Within.mono {x : Addr} (h : (lo' - lo).toNat + n' ≤ n) (hx : Within lo' n' x) :
    Within lo n x := by
  have hlo : lo.toNat < 2 ^ 64 := lo.isLt
  have hlo' : lo'.toNat < 2 ^ 64 := lo'.isLt
  have hxlt : x.toNat < 2 ^ 64 := x.isLt
  simp only [Within, BitVec.toNat_sub] at h hx ⊢
  omega

theorem Frame.mono (h : Frame lo' n' m m') (hle : (lo' - lo).toNat + n' ≤ n) :
    Frame lo n m m' := fun x hx => h x fun hx' => hx (hx'.mono hle)

theorem Frame.store (h : Frame lo n m m') (hle : (a - lo).toNat + 8 ≤ n) :
    Frame lo n m (store m' a v) := by
  refine h.trans fun x hx => if_neg fun hxa => hx ?_
  exact @Within.mono lo a n 8 x hle hxa

/-- A store among the `n` bytes below `a` does not matter to the rest. -/
@[simp] theorem frame_store_iff {c : Addr} (h : (c + BitVec.ofNat 64 n).toNat + 8 ≤ n) :
    Frame (a - BitVec.ofNat 64 n) n m (Memory.store m' (a + c) v) ↔
      Frame (a - BitVec.ofNat 64 n) n m m' := by
  have hstart : a + c - (a - BitVec.ofNat 64 n) = c + BitVec.ofNat 64 n := by
    bv_omega
  have hstore : Frame (a - BitVec.ofNat 64 n) n m' (Memory.store m' (a + c) v) :=
    (Frame.refl _ _ _).store (by rwa [hstart])
  constructor
  · intro hframe x hx
    rw [← hstore x hx]
    exact hframe x hx
  · intro hframe
    exact hframe.trans hstore

/-- A word outside the range that has changed. -/
theorem Frame.load (h : Frame lo n m m') (hlo : 8 ≤ (lo - a).toNat) (hn : n ≤ (a - lo).toNat) :
    load m' a = load m a := by
  refine wordOf_congr fun i hi => h _ ?_
  have ha : a.toNat < 2 ^ 64 := a.isLt
  have hl : lo.toNat < 2 ^ 64 := lo.isLt
  simp only [Within, BitVec.toNat_sub, BitVec.toNat_add, BitVec.toNat_ofNat] at hlo hn ⊢
  omega

end AcademyLab.Memory
