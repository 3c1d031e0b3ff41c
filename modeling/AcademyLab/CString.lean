import Mathlib.Data.List.Infix
import Mathlib.Data.List.TakeWhile
import Mathlib.Data.Nat.Digits.Lemmas

/-!
# C strings and delimited text

A C string is the list of its bytes before the terminating NUL. The library
functions below take and return such lists. What is read piece by piece adds up to
the whole. A text made of a field, a delimiter and a rest can be taken apart again if
the first occurrence of the delimiter is the one that was put there, and comes from
no other field and rest if it is the only one.
-/
namespace AcademyLab.CString

abbrev Bytes := List UInt8

/-- The bytes of an ASCII literal. -/
def ascii (s : String) : Bytes := s.toList.map fun c => UInt8.ofNat c.toNat

/-- The string that starts a memory area: everything before its first NUL. -/
def ofMemory (mem : Bytes) : Bytes := mem.takeWhile (· ≠ 0)

/-- `strcspn(s, reject)`: the length of the longest start of `s` that has no
byte of `reject`. -/
def strcspn (s reject : Bytes) : ℕ := (s.takeWhile (· ∉ reject)).length

/-- `strncmp(s, t, n) == 0`. -/
def strncmpEq (s t : Bytes) (n : ℕ) : Bool := s.take n == t.take n

/-- What `snprintf(buf, size, ...)` leaves in `buf` of the formatted text. -/
def snprintf (size : ℕ) (text : Bytes) : Bytes := text.take (size - 1)

/-- What a memory area holds after `data` has been copied to its start. -/
def overwrite (mem data : Bytes) : Bytes := data ++ mem.drop data.length

/-- `%d` of a number that is not negative. -/
def decimal (n : ℕ) : Bytes :=
  if n = 0 then ascii "0"
  else (Nat.digits 10 n).reverse.map fun d => UInt8.ofNat (48 + d)

theorem take_strcspn (s reject : Bytes) :
    s.take (strcspn s reject) = s.takeWhile (· ∉ reject) := by
  have h : s.takeWhile (· ∉ reject) <+: s := List.takeWhile_prefix _
  exact (List.prefix_iff_eq_take.mp h).symm

/-- Writing a terminator makes the bytes behind it irrelevant. -/
theorem ofMemory_terminated (data stale : Bytes) :
    ofMemory (data ++ 0 :: stale) = ofMemory data := by
  induction data with
  | nil => simp [ofMemory]
  | cons b data ih =>
    by_cases hb : b = 0
    · simp [ofMemory, hb]
    · simpa [ofMemory, hb] using ih

/-- What has no NUL belongs to the string. -/
theorem ofMemory_append {s : Bytes} (hs : 0 ∉ s) (rest : Bytes) :
    ofMemory (s ++ rest) = s ++ ofMemory rest := by
  refine List.takeWhile_append_of_pos fun b hb => ?_
  simpa using fun h0 : b = 0 => hs (h0 ▸ hb)

/-- A string is read back from the memory that it and its NUL start. -/
theorem ofMemory_of_prefix {s mem : Bytes} (hs : 0 ∉ s) (h : s ++ [0] <+: mem) :
    ofMemory mem = s := by
  obtain ⟨rest, rfl⟩ := h
  have hnul : ofMemory (0 :: rest) = [] := List.takeWhile_cons_of_neg (by decide)
  rw [List.append_assoc, List.singleton_append, ofMemory_append hs, hnul, List.append_nil]

/-- Copying a string without its NUL over itself leaves the NUL in place. -/
theorem prefix_overwrite {s mem : Bytes} (h : s ++ [0] <+: mem) : s ++ [0] <+: overwrite mem s := by
  obtain ⟨rest, rfl⟩ := h
  exact ⟨rest, by simp [overwrite]⟩

theorem length_overwrite {mem data : Bytes} (h : data.length ≤ mem.length) :
    (overwrite mem data).length = mem.length := by
  simp only [overwrite, List.length_append, List.length_drop]
  omega

/-- A string copied without its NUL is read back if there happens to be one
behind it. -/
theorem ofMemory_overwrite_iff {s mem beyond : Bytes} (hs : 0 ∉ s) (hlt : s.length < mem.length) :
    ofMemory (overwrite mem s ++ beyond) = s ↔ mem[s.length]? = some 0 := by
  rw [overwrite, List.drop_eq_getElem_cons hlt, List.getElem?_eq_getElem hlt, List.append_assoc,
    List.cons_append, ofMemory_append hs, ofMemory, List.takeWhile_cons]
  split_ifs with hb
  · simpa using hb
  · simpa using hb

theorem strncmpEq_iff (s t : Bytes) : strncmpEq s t t.length = true ↔ t <+: s := by
  simp only [strncmpEq, List.take_length, beq_iff_eq]
  exact ⟨fun h => h ▸ List.take_prefix _ _, fun h => (List.prefix_iff_eq_take.mp h).symm⟩

theorem digit_of_mem_decimal {n : ℕ} {b : UInt8} (hb : b ∈ decimal n) : 48 ≤ b ∧ b ≤ 57 := by
  unfold decimal at hb
  split_ifs at hb with hn
  · have : b = 48 := by simpa [ascii] using hb
    subst this
    decide
  · simp only [List.mem_map, List.mem_reverse] at hb
    obtain ⟨d, hd, rfl⟩ := hb
    have hlt : d < 10 := Nat.digits_lt_base (by decide) hd
    interval_cases d <;> decide

theorem length_decimal_le {n k : ℕ} (hk : 0 < k) (hn : n < 10 ^ k) : (decimal n).length ≤ k := by
  unfold decimal
  split_ifs with h
  · exact hk
  · rw [List.length_map, List.length_reverse]
    exact (Nat.digits_length_le_iff (by decide) n).mpr hn

/-! ## Reading a file line by line -/

/-- `fgets(s, size, fp)` on the rest of the file: the string, and what is left of
the file then; `none` is the NULL at its end. -/
def fgets (size : ℕ) (input : Bytes) : Option (Bytes × Bytes) :=
  if input = [] then none
  else
    let n := min (size - 1) ((input.takeWhile (· ≠ 10)).length + 1)
    some (input.take n, input.drop n)

section Fgets
variable {size : ℕ} {input piece rest : Bytes}

theorem fgets_eq_none : fgets size input = none ↔ input = [] := by
  unfold fgets
  split_ifs with h <;> simp [h]

theorem fgets_append (h : fgets size input = some (piece, rest)) : piece ++ rest = input := by
  unfold fgets at h
  split_ifs at h
  obtain ⟨rfl, rfl⟩ := Prod.mk.inj (Option.some.inj h)
  exact List.take_append_drop _ _

theorem fgets_length (h : fgets size input = some (piece, rest)) : piece.length ≤ size - 1 := by
  unfold fgets at h
  split_ifs at h
  obtain ⟨rfl, rfl⟩ := Prod.mk.inj (Option.some.inj h)
  simp only [List.length_take]
  omega

theorem fgets_rest_length (hsize : 2 ≤ size) (h : fgets size input = some (piece, rest)) :
    rest.length < input.length := by
  unfold fgets at h
  split_ifs at h with hinput
  obtain ⟨rfl, rfl⟩ := Prod.mk.inj (Option.some.inj h)
  have hpos := List.length_pos_iff.2 hinput
  simp only [List.length_drop]
  omega

/-- What `fgets` returns, call after call, up to the end of the file. -/
def pieces (size : ℕ) (input : Bytes) : List Bytes :=
  match fgets size input with
  | none => []
  | some (piece, rest) => if rest.length < input.length then piece :: pieces size rest else []
termination_by input.length

theorem pieces_none (h : fgets size input = none) : pieces size input = [] := by
  rw [pieces]
  split
  · rfl
  · simp_all

theorem pieces_some (hsize : 2 ≤ size) (h : fgets size input = some (piece, rest)) :
    pieces size input = piece :: pieces size rest := by
  have hlt := fgets_rest_length hsize h
  rw [pieces]
  split
  · simp_all
  · simp_all

theorem pieces_flatten (hsize : 2 ≤ size) (input : Bytes) :
    (pieces size input).flatten = input := by
  cases h : fgets size input with
  | none => rw [pieces_none h, fgets_eq_none.1 h, List.flatten_nil]
  | some r =>
    have hlt := fgets_rest_length hsize h
    rw [pieces_some hsize h, List.flatten_cons, pieces_flatten hsize r.2, fgets_append h]
termination_by input.length

theorem length_of_mem_pieces (hsize : 2 ≤ size) (input : Bytes)
    (h : piece ∈ pieces size input) : piece.length ≤ size - 1 := by
  cases hget : fgets size input with
  | none => simp [pieces_none hget] at h
  | some r =>
    have hlt := fgets_rest_length hsize hget
    rw [pieces_some hsize hget] at h
    rcases List.mem_cons.1 h with rfl | h
    · exact fgets_length hget
    · exact length_of_mem_pieces hsize r.2 h
termination_by input.length

end Fgets

/-! ## Reading up to a number of bytes at a time -/

section Chunks
variable {α : Type*} {n : ℕ} {l m : List α}

/-- What one read of at most `n` after the other takes of `l`. -/
def chunks (n : ℕ) (l : List α) : List (List α) :=
  if 0 < n ∧ 0 < l.length then l.take n :: chunks n (l.drop n) else []
termination_by l.length
decreasing_by
  rw [List.length_drop]
  omega

@[simp] theorem chunks_nil (n : ℕ) : chunks n ([] : List α) = [] := by
  rw [chunks, if_neg (by simp)]

theorem chunks_of_ne_nil (hn : 0 < n) (hl : l ≠ []) :
    chunks n l = l.take n :: chunks n (l.drop n) := by
  rw [chunks, if_pos ⟨hn, List.length_pos_iff.2 hl⟩]

theorem chunks_eq_nil (hn : 0 < n) : chunks n l = [] ↔ l = [] := by
  constructor
  · intro h
    by_contra hl
    simp [chunks_of_ne_nil hn hl] at h
  · rintro rfl
    exact chunks_nil n

theorem chunks_of_length_le (hl : l ≠ []) (hle : l.length ≤ n) : chunks n l = [l] := by
  have hn : 0 < n := by
    have := List.length_pos_iff.2 hl
    omega
  rw [chunks_of_ne_nil hn hl, List.take_of_length_le hle, List.drop_of_length_le hle, chunks_nil]

/-- What is put in behind `l` is read by itself if `l` is read in full reads. -/
theorem chunks_append_iff (hm : m ≠ []) (hle : m.length ≤ n) (l : List α) :
    chunks n (l ++ m) = chunks n l ++ [m] ↔ l.length % n = 0 := by
  have hpos := List.length_pos_iff.2 hm
  by_cases hl : l = []
  · simp [hl, chunks_of_length_le hm hle]
  have hlen := List.length_pos_iff.2 hl
  have happ : l ++ m ≠ [] := List.append_ne_nil_of_left_ne_nil hl m
  rw [chunks_of_ne_nil (by omega) hl, chunks_of_ne_nil (by omega) happ, List.cons_append]
  by_cases hfull : n ≤ l.length
  · have ih := chunks_append_iff hm hle (l.drop n)
    rw [List.take_append_of_le_length hfull, List.drop_append_of_le_length hfull,
      List.cons_inj_right, ih, List.length_drop, ← Nat.mod_eq_sub_mod hfull]
  · have hmod : l.length % n = l.length := Nat.mod_eq_of_lt (by omega)
    rw [hmod]
    refine iff_of_false (fun h => ?_) (by omega)
    -- the first read takes more than `l`
    have hhead := congrArg List.length (List.cons.inj h).1
    simp only [List.length_take, List.length_append] at hhead
    omega
termination_by l.length
decreasing_by
  rw [List.length_drop]
  omega

/-- What one read takes, and the one behind it. -/
theorem take_append_take_drop (l : List α) (m n : ℕ) :
    l.take m ++ (l.drop (l.take m).length).take n = l.take (m + n) := by
  rw [List.length_take, List.take_add]
  rcases Nat.le_total m l.length with h | h
  · rw [Nat.min_eq_left h]
  · rw [Nat.min_eq_right h, List.drop_length, List.drop_of_length_le h]

variable {β : Type*} {f g : β → List α} {parts : List β}

theorem length_flatten_map_le (h : ∀ x ∈ parts, f x <+: g x) :
    (parts.map f).flatten.length ≤ (parts.map g).flatten.length := by
  induction parts with
  | nil => simp
  | cons x parts ih =>
    rw [List.forall_mem_cons] at h
    have hle := h.1.length_le
    have hrest := ih h.2
    simp only [List.map_cons, List.flatten_cons, List.length_append]
    omega

/-- Parts that are cut short somewhere do not add up to the whole. -/
theorem flatten_map_eq_iff (h : ∀ x ∈ parts, f x <+: g x) :
    (parts.map f).flatten = (parts.map g).flatten ↔ ∀ x ∈ parts, f x = g x := by
  constructor
  · intro heq
    induction parts with
    | nil => simp
    | cons x parts ih =>
      rw [List.forall_mem_cons] at h ⊢
      obtain ⟨r, hr⟩ := h.1
      simp only [List.map_cons, List.flatten_cons, ← hr, List.append_assoc,
        List.append_cancel_left_eq] at heq
      have hle := length_flatten_map_le h.2
      have hlen := congrArg List.length heq
      rw [List.length_append] at hlen
      obtain rfl : r = [] := List.eq_nil_of_length_eq_zero (by omega)
      exact ⟨by simpa using hr, ih h.2 heq⟩
  · intro heq
    rw [List.map_congr_left heq]

end Chunks

section Delimited
variable {α : Type*} {a b d e s t : List α}

/-- Between the field `a` and a following `d`, no earlier `d` begins. -/
def Clear (d a : List α) : Prop := ¬ d <:+: a ++ d.dropLast

instance [DecidableEq α] (d a : List α) : Decidable (Clear d a) :=
  inferInstanceAs (Decidable (¬ _))

/-- An occurrence of `d` that starts inside `b` in front of `d` makes `b` unclear. -/
theorem infix_of_append_lt (hd : d ≠ []) (hlt : a.length < b.length)
    (h : a ++ d ++ s = b ++ d ++ t) : d <:+: b ++ d.dropLast := by
  have hpos : 0 < d.length := List.length_pos_iff.mpr hd
  have hleft : a ++ d <+: b ++ d ++ t := ⟨s, h⟩
  have hright : b ++ d.dropLast <+: b ++ d ++ t := by
    refine List.IsPrefix.trans ?_ (List.prefix_append _ _)
    exact (List.prefix_append_right_inj b).mpr (List.dropLast_prefix d)
  have hle : (a ++ d).length ≤ (b ++ d.dropLast).length := by
    simp only [List.length_append, List.length_dropLast]
    omega
  have hin : a ++ d <+: b ++ d.dropLast := List.prefix_of_prefix_length_le hleft hright hle
  exact (List.infix_append' a d []).trans (by simpa using hin.isInfix)

/-- A clear field and the rest behind its delimiter can be read back. -/
theorem append_inj_of_clear (hd : d ≠ []) (ha : Clear d a) (hb : Clear d b)
    (h : a ++ d ++ s = b ++ d ++ t) : a = b ∧ s = t := by
  rcases lt_trichotomy a.length b.length with hlt | heq | hgt
  · exact absurd (infix_of_append_lt hd hlt h) hb
  · simp only [List.append_assoc] at h
    obtain ⟨hab, hst⟩ := List.append_inj h heq
    exact ⟨hab, List.append_cancel_left hst⟩
  · exact absurd (infix_of_append_lt hd hgt h.symm) ha

/-- A field is clear if it does not contain `d` and does not end in what stands in `d`
in front of a rest that `d` also begins with. -/
theorem clear_of_borders (ha : ¬ d <:+: a)
    (hborder : ∀ k < d.length, 0 < k → d.drop k <+: d.dropLast → ¬ d.take k <:+ a) :
    Clear d a := by
  rintro ⟨u, v, huv⟩
  have hlen := congrArg List.length huv
  simp only [List.length_append, List.length_dropLast] at hlen
  rcases Nat.lt_or_ge a.length (u ++ d).length with hlt | hge
  swap
  · -- the occurrence lies inside the field
    have hpre : u ++ d <+: a :=
      List.prefix_of_prefix_length_le ⟨v, huv⟩ (List.prefix_append a _) hge
    exact ha ((List.infix_append' u d []).trans (by simpa using hpre.isInfix))
  rw [List.length_append] at hlt
  obtain ⟨w, rfl⟩ : u <+: a := by
    refine List.prefix_of_prefix_length_le ⟨d ++ v, by simpa using huv⟩
      (List.prefix_append a _) (by omega)
  have hd : d ++ v = w ++ d.dropLast := by simpa using huv
  rw [List.length_append] at hlen hlt
  obtain ⟨r, hr⟩ : w <+: d :=
    List.prefix_of_prefix_length_le (List.prefix_append w _) ⟨v, hd⟩ (by omega)
  have hrest : r ++ v = d.dropLast := by
    have hd' : w ++ (r ++ v) = w ++ d.dropLast := by
      rw [← List.append_assoc, hr]
      exact hd
    exact List.append_cancel_left hd'
  have hlen' := congrArg List.length hr
  rw [List.length_append] at hlen'
  have hdrop : d.drop w.length = r := by rw [← hr, List.drop_left]
  have htake : d.take w.length = w := by rw [← hr, List.take_left]
  refine hborder w.length ?_ ?_ ?_ ?_
  · omega
  · omega
  · rw [hdrop]
    exact ⟨v, hrest⟩
  · rw [htake]
    exact List.suffix_append u w

/-- A field without the delimiter's first element is clear. -/
theorem clear_of_head_notMem {x : α} (h : x ∉ a) : Clear (x :: d) a := by
  rintro ⟨u, v, huv⟩
  have hlen := congrArg List.length huv
  simp only [List.length_append, List.length_cons, List.length_dropLast] at hlen
  have hu : u.length < a.length := by omega
  have hx : (a ++ (x :: d).dropLast)[u.length]? = some x := by
    rw [← huv]
    simp
  rw [List.getElem?_append_left hu] at hx
  exact h (List.mem_of_getElem? hx)

/-- Behind a clear field, a text `e` holds no occurrence of `d` either, if it
holds none itself and can complete a begun `d` only where `d` itself would. -/
theorem notInfix_append_of_clear (hb : Clear d b) (he : ¬ d <:+: e)
    (hov : ∀ k < d.length, d.drop (d.length - k) <+: e → e.take k = d.take k) :
    ¬ d <:+: b ++ e := by
  rintro ⟨u, v, huv⟩
  rcases Nat.lt_or_ge u.length b.length with hu | hu
  · obtain ⟨w, rfl⟩ : u <+: b := List.prefix_of_prefix_length_le
      ⟨d ++ v, by simpa using huv⟩ (List.prefix_append b e) (by omega)
    have hd : d ++ v = w ++ e := by simpa using huv
    rcases Nat.le_total d.length w.length with hdw | hdw
    · have : d <+: w := List.prefix_of_prefix_length_le ⟨v, hd⟩ (List.prefix_append w e) hdw
      exact hb (this.isInfix.trans (List.infix_append u w _))
    · obtain ⟨r, rfl⟩ : w <+: d :=
        List.prefix_of_prefix_length_le (List.prefix_append w e) ⟨v, hd⟩ hdw
      have hre : r <+: e := ⟨v, by simpa using hd⟩
      have hw : 0 < w.length := by
        rw [List.length_append] at hu
        omega
      have hr : r.length < (w ++ r).length := by
        rw [List.length_append]
        omega
      have hdrop : (w ++ r).drop ((w ++ r).length - r.length) = r := by
        simp
      have htake := hov r.length hr (by rw [hdrop]; exact hre)
      have hrd : r <+: (w ++ r).dropLast :=
        calc r = e.take r.length := List.prefix_iff_eq_take.mp hre
          _ = (w ++ r).take r.length := htake
          _ <+: (w ++ r).take ((w ++ r).length - 1) :=
            List.take_prefix_take_left (by omega)
          _ = (w ++ r).dropLast := List.dropLast_eq_take.symm
      obtain ⟨q, hq⟩ := hrd
      refine hb ⟨u, q, ?_⟩
      rw [← hq]
      simp
  · obtain ⟨w, rfl⟩ : b <+: u := List.prefix_of_prefix_length_le
      (List.prefix_append b e) ⟨d ++ v, by simpa using huv⟩ hu
    exact he ⟨w, v, by simpa using huv⟩

/-- An occurrence of `d` that ends inside `b` behind `d`. -/
theorem infix_of_rest_lt (hd : d ≠ []) (hlt : t.length < b.length)
    (h : s ++ d ++ t = a ++ d ++ b) : d <:+: d.tail ++ b := by
  -- read from behind, it is the one that begins first
  have hrev := congrArg List.reverse h
  simp only [List.reverse_append, ← List.append_assoc] at hrev
  have hlt' : t.reverse.length < b.reverse.length := by
    simp only [List.length_reverse]
    omega
  have hin := infix_of_append_lt (by simpa using hd) hlt' hrev
  rwa [List.dropLast_reverse, ← List.reverse_append, List.reverse_infix] at hin

/-- The text of a field, a delimiter and a rest comes from these only, if the
delimiter that was put there is the only one in it. -/
theorem append_unique_iff (hd : d ≠ []) :
    (∀ s t, s ++ d ++ t = a ++ d ++ b → s = a ∧ t = b) ↔ Clear d a ∧ ¬ d <:+: d.tail ++ b := by
  constructor
  · intro h
    refine ⟨fun ⟨u, v, huv⟩ => ?_, fun ⟨u, v, huv⟩ => ?_⟩
    · have hsplit : u ++ d ++ (v ++ d.getLast hd :: b) = a ++ d ++ b := by
        calc u ++ d ++ (v ++ d.getLast hd :: b) = u ++ d ++ v ++ ([d.getLast hd] ++ b) := by simp
          _ = a ++ (d.dropLast ++ [d.getLast hd]) ++ b := by
            rw [huv]
            simp only [List.append_assoc]
          _ = a ++ d ++ b := by rw [List.dropLast_append_getLast hd]
      have hlen := congrArg List.length huv
      have hpos := List.length_pos_iff.2 hd
      simp only [(h _ _ hsplit).1, List.length_append, List.length_dropLast] at hlen
      omega
    · have hsplit : a ++ d.head hd :: u ++ d ++ v = a ++ d ++ b := by
        calc a ++ d.head hd :: u ++ d ++ v = a ++ [d.head hd] ++ (u ++ d ++ v) := by simp
          _ = a ++ (d.head hd :: d.tail) ++ b := by
            rw [huv]
            simp only [List.append_assoc, List.cons_append, List.nil_append]
          _ = a ++ d ++ b := by rw [List.cons_head_tail hd]
      have hfield := congrArg List.length (h _ _ hsplit).1
      simp at hfield
  · rintro ⟨ha, hb⟩ s t h
    rcases lt_trichotomy s.length a.length with hlt | heq | hgt
    · exact absurd (infix_of_append_lt hd hlt h) ha
    · simp only [List.append_assoc] at h
      obtain ⟨hsa, htb⟩ := List.append_inj h heq
      exact ⟨hsa, List.append_cancel_left htb⟩
    · have hlen := congrArg List.length h
      simp only [List.length_append] at hlen
      exact absurd (infix_of_rest_lt hd (by omega) h) hb

end Delimited

section Repeated
variable {α : Type*} {x : List α}

/-- What goes on as it began, `x` by `x`, is the start of `x` said many times over. -/
theorem prefix_append_self_iff (hx : x ≠ []) (p : List α) :
    p <+: x ++ p ↔ ∃ n, p <+: (List.replicate n x).flatten := by
  constructor
  · intro h
    by_cases hle : p.length ≤ x.length
    · refine ⟨1, ?_⟩
      simpa using List.prefix_of_prefix_length_le h (List.prefix_append x p) hle
    · obtain ⟨q, hpq⟩ : x <+: p :=
        List.prefix_of_prefix_length_le (List.prefix_append x p) h (by omega)
      have hlt : q.length < p.length := by
        have hpos := List.length_pos_iff.2 hx
        rw [← hpq, List.length_append]
        omega
      rw [← hpq] at h ⊢
      have hq : q <+: x ++ q := (List.prefix_append_right_inj x).1 h
      obtain ⟨n, hn⟩ := (prefix_append_self_iff hx q).1 hq
      refine ⟨n + 1, ?_⟩
      rw [List.replicate_succ, List.flatten_cons]
      exact (List.prefix_append_right_inj x).2 hn
  · rintro ⟨n, hn⟩
    induction n generalizing p with
    | zero => simp_all
    | succ n ih =>
      rw [List.replicate_succ, List.flatten_cons] at hn
      by_cases hle : p.length ≤ x.length
      · exact (List.prefix_of_prefix_length_le hn (List.prefix_append _ _) hle).trans
          (List.prefix_append x p)
      · obtain ⟨q, rfl⟩ : x <+: p :=
          List.prefix_of_prefix_length_le (List.prefix_append _ _) hn (by omega)
        have hq := ih q ((List.prefix_append_right_inj x).1 hn)
        exact (List.prefix_append_right_inj x).2 hq
termination_by p.length

variable {b t : List α}

/-- `x ++ b` up to `n`, if `t` begins with `b` and is as long. -/
theorem take_append_take (hb : b <+: t) (hlen : t.length = x.length + b.length) (n : ℕ) :
    (x ++ t.take n).take (t.take n).length = (x ++ b).take n := by
  obtain ⟨rest, rfl⟩ := hb
  have hsize : ((b ++ rest).take n).length = min n (x.length + b.length) := by
    rw [List.length_take, hlen]
  refine List.ext_getElem? fun i => ?_
  by_cases hi : i < min n (x.length + b.length)
  · rw [hsize, List.getElem?_take_of_lt hi, List.getElem?_take_of_lt (by omega)]
    by_cases hx : i < x.length
    · rw [List.getElem?_append_left hx, List.getElem?_append_left hx]
    · rw [List.getElem?_append_right (by omega), List.getElem?_append_right (by omega),
        List.getElem?_take_of_lt (by omega), List.getElem?_append_left (by omega)]
  · rw [List.getElem?_eq_none, List.getElem?_eq_none]
    · simp only [List.length_take, List.length_append]
      omega
    · rw [List.length_take, hsize]
      omega

/-- Up to `n`, `x ++ b` is such a text `t` just when `t` is `x` said over and over. -/
theorem take_append_eq_iff (hx : x ≠ []) (hb : b <+: t) (hlen : t.length = x.length + b.length)
    (n : ℕ) : (x ++ b).take n = t.take n ↔ ∃ m, t.take n <+: (List.replicate m x).flatten := by
  rw [← prefix_append_self_iff hx, List.prefix_iff_eq_take, take_append_take hb hlen, eq_comm]

end Repeated

section Lines
variable {α : Type*} {p : α → Bool} {d : α} {line rest : List α} {lines chunks : List (List α)}

/-- The lines one after the other, each closed by `d`. -/
def stream (d : α) (lines : List (List α)) : List α := lines.flatMap (· ++ [d])

@[simp] theorem stream_nil : stream d [] = [] := rfl

@[simp] theorem stream_cons : stream d (line :: lines) = line ++ d :: stream d lines := by
  simp [stream]

theorem takeWhile_append_cons {x : α} (hp : ∀ a ∈ line, p a = true) (hx : p x = false) :
    (line ++ x :: rest).takeWhile p = line := by
  rw [List.takeWhile_append_of_pos hp, List.takeWhile_cons_of_neg (by simp [hx]), List.append_nil]

/-- The bytes that can stand in a line are counted by the lengths of the lines. -/
theorem countP_stream (hp : ∀ l ∈ lines, ∀ a ∈ l, p a = true) (hd : p d = false) :
    (stream d lines).countP p = (lines.map List.length).sum := by
  induction lines with
  | nil => rfl
  | cons line lines ih =>
    have hline : line.countP p = line.length := List.countP_eq_length.mpr (hp line (by simp))
    have hlines := ih fun l hl => hp l (List.mem_cons_of_mem _ hl)
    simp [hline, hlines, hd]

theorem le_countP_flatten (chunks : List (List α)) :
    ((chunks.map (List.takeWhile p)).map List.length).sum ≤ chunks.flatten.countP p := by
  induction chunks with
  | nil => simp
  | cons chunk chunks ih =>
    have hpos : ∀ a ∈ chunk.takeWhile p, p a = true := fun a ha => List.mem_takeWhile_imp ha
    have hall : (chunk.takeWhile p).countP p = (chunk.takeWhile p).length :=
      List.countP_eq_length.mpr hpos
    have hle : (chunk.takeWhile p).countP p ≤ chunk.countP p :=
      (List.takeWhile_sublist p).countP_le
    simp only [List.map_cons, List.sum_cons, List.flatten_cons, List.countP_append]
    omega

/-- If the starts of the chunks are the lines of the stream, the stream was cut
exactly behind the lines; for an empty line this need not be so. -/
theorem chunks_eq_lines (hp : ∀ l ∈ lines, ∀ a ∈ l, p a = true) (hd : p d = false)
    (hl : ∀ l ∈ lines, l ≠ []) (hc : ∀ c ∈ chunks, c ≠ [])
    (hflat : chunks.flatten = stream d lines) (hstart : chunks.map (List.takeWhile p) = lines) :
    chunks = lines.map (· ++ [d]) := by
  induction lines generalizing chunks with
  | nil => simpa using hstart
  | cons line lines ih =>
    obtain ⟨chunk, chunks, rfl, hline, hlines⟩ := List.map_eq_cons_iff.mp hstart
    have hsplit : chunk = line ++ chunk.dropWhile p := by
      rw [← hline, List.takeWhile_append_dropWhile]
    rw [hsplit, List.flatten_cons, stream_cons, List.append_assoc, List.append_cancel_left_eq]
      at hflat
    have hpl : ∀ l ∈ lines, ∀ a ∈ l, p a = true := fun l h => hp l (List.mem_cons_of_mem _ h)
    have hrest : chunk.dropWhile p = [d] := by
      cases hdrop : chunk.dropWhile p with
      | nil =>
        -- the next chunk would start with the delimiter
        rw [hdrop, List.nil_append] at hflat
        cases chunks with
        | nil => simp at hflat
        | cons next chunks =>
          obtain ⟨a, next, rfl⟩ := List.exists_cons_of_ne_nil (hc next (by simp))
          obtain rfl : a = d := by simpa using (List.cons.inj hflat).1
          have hempty : ([] : List α) ∈ lines := by
            rw [← hlines]
            simp [hd]
          exact absurd rfl (hl [] (List.mem_cons_of_mem _ hempty))
      | cons x rest =>
        rw [hdrop, List.cons_append] at hflat
        obtain ⟨rfl, hflat⟩ := List.cons.inj hflat
        -- what is behind the delimiter is counted in none of the lines
        have hcount : rest.countP p = 0 := by
          have hsum := countP_stream hpl hd
          rw [← hflat, List.countP_append] at hsum
          have hle := le_countP_flatten (p := p) chunks
          rw [hlines] at hle
          omega
        cases rest with
        | nil => rfl
        | cons y rest =>
          exfalso
          cases lines with
          | nil => simp at hflat
          | cons next lines =>
            obtain ⟨a, next, rfl⟩ := List.exists_cons_of_ne_nil (hl next (by simp))
            obtain rfl : y = a := by simpa using (List.cons.inj hflat).1
            have hy : p y = true := hpl (y :: next) (by simp) y (by simp)
            exact List.countP_eq_zero.mp hcount y (by simp) hy
    have htail : chunks.flatten = stream d lines := by
      rw [hrest] at hflat
      simpa using hflat
    rw [List.map_cons, hsplit, hrest, ih hpl (fun l h => hl l (List.mem_cons_of_mem _ h))
      (fun c h => hc c (List.mem_cons_of_mem _ h)) htail hlines]

end Lines

end AcademyLab.CString
