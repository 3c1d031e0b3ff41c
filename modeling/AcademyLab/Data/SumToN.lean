import AcademyLab.CInt
import AcademyLab.CString
import Mathlib.Tactic.Linarith
import Mathlib.Tactic.Ring

/-!
# The sum of the first numbers

`sum_to_n` of `lab_1.c`, and how `printSum` comes to its argument: a line of at most
nine characters, without its newline, through `atoi`. The sum is an `int`, and so is
what is added up so far.
-/
namespace AcademyLab.SumToN
open CInt CString

/-- What the loop must not come to. -/
inductive Fault
  | overflow
  deriving DecidableEq

/-- The loop from `i` on. -/
def sumLoop (num i sum : ℤ) : Except Fault ℤ :=
  if i ≤ num then do
    let sum ← checked .overflow (sum + i)
    let _ ← checked Fault.overflow (i + 1)
    sumLoop num (i + 1) sum
  else .ok sum
termination_by (num + 1 - i).toNat

def sumToN (num : ℤ) : Except Fault ℤ := sumLoop num 1 0

/-! ## The line -/

/-- `isspace` -/
def isSpace (c : UInt8) : Bool := c = 32 ∨ 9 ≤ c ∧ c ≤ 13

/-- `isdigit` -/
def isDigit (c : UInt8) : Bool := 48 ≤ c ∧ c ≤ 57

/-- The number that the digits at the start of a text stand for. -/
def digitsValue (s : Bytes) : ℕ :=
  Nat.ofDigits 10 ((s.takeWhile isDigit).map fun c => c.toNat - 48).reverse

/-- `atoi`, for a number that an `int` can hold. -/
def atoi (s : Bytes) : ℤ :=
  match s.dropWhile isSpace with
  | [] => 0
  | c :: rest =>
    if c = 45 then -digitsValue rest
    else if c = 43 then digitsValue rest
    else digitsValue (c :: rest)

/-- The string at `s` after `strtok(s, delim)`: a NUL ends its first token. -/
def strtok (s delim : Bytes) : Bytes :=
  s.takeWhile (· ∈ delim) ++ (s.dropWhile (· ∈ delim)).takeWhile (· ∉ delim)

/-- `sizeof(line)` -/
def lineSize : ℕ := 10

/-- The argument that `printSum` makes of a line. -/
def numOf (line : Bytes) : ℤ := atoi (strtok (ofMemory line) [10])

section Line
variable {line : Bytes}

theorem digitsValue_lt (s : Bytes) : digitsValue s < 10 ^ s.length := by
  have hdigit : ∀ d ∈ ((s.takeWhile isDigit).map fun c => c.toNat - 48).reverse, d < 10 := by
    intro d hd
    rw [List.mem_reverse, List.mem_map] at hd
    obtain ⟨c, hc, rfl⟩ := hd
    have hc' : 48 ≤ c ∧ c ≤ 57 := by simpa [isDigit] using List.mem_takeWhile_imp hc
    have hle : c.toNat ≤ 57 := hc'.2
    omega
  refine lt_of_lt_of_le (Nat.ofDigits_lt_base_pow_length (by decide) hdigit) ?_
  refine Nat.pow_le_pow_right (by decide) ?_
  rw [List.length_reverse, List.length_map]
  exact (List.takeWhile_prefix _).length_le

/-- A short text stands for a small number. -/
theorem natAbs_atoi_lt (s : Bytes) : (atoi s).natAbs < 10 ^ s.length := by
  have hpow : ∀ t : Bytes, t.length ≤ s.length → digitsValue t < 10 ^ s.length := fun t ht =>
    lt_of_lt_of_le (digitsValue_lt t) (Nat.pow_le_pow_right (by decide) ht)
  have hle : (s.dropWhile isSpace).length ≤ s.length := (List.dropWhile_suffix _).length_le
  unfold atoi
  split
  · exact Nat.pow_pos (by decide)
  · rename_i c rest hdrop
    rw [hdrop, List.length_cons] at hle
    split_ifs
    · simpa using hpow rest (by omega)
    · simpa using hpow rest (by omega)
    · simpa using hpow (c :: rest) hle

theorem strtok_start (s delim : Bytes) : strtok s delim <+: s := by
  obtain ⟨t, ht⟩ : (s.dropWhile (· ∈ delim)).takeWhile (· ∉ delim) <+: s.dropWhile (· ∈ delim) :=
    List.takeWhile_prefix _
  refine ⟨t, ?_⟩
  rw [strtok, List.append_assoc, ht, List.takeWhile_append_dropWhile]

/-- What a line of `printSum` stands for is an `int`. -/
theorem isInt_numOf (h : line.length ≤ lineSize - 1) : IsInt (numOf line) := by
  have hlen : (strtok (ofMemory line) [10]).length ≤ 9 :=
    ((strtok_start _ _).trans (List.takeWhile_prefix _)).length_le.trans h
  have hlt : (numOf line).natAbs < 10 ^ 9 :=
    lt_of_lt_of_le (natAbs_atoi_lt _) (Nat.pow_le_pow_right (by decide) hlen)
  rw [isInt_iff]
  omega

end Line

/-! ## The line of a number -/

section Decimal
variable {n : ℕ}

theorem decimal_ne_nil (n : ℕ) : decimal n ≠ [] := by
  unfold decimal
  split_ifs with h
  · decide
  · simpa [Nat.digits_eq_nil_iff_eq_zero] using h

theorem isDigit_of_mem_decimal {c : UInt8} (h : c ∈ decimal n) : isDigit c = true := by
  simpa [isDigit] using digit_of_mem_decimal h

theorem notMem_decimal {c : UInt8} (h : c < 48) : c ∉ decimal n := fun hc =>
  absurd (digit_of_mem_decimal hc).1 (UInt8.not_le.2 h)

theorem digitsValue_decimal (n : ℕ) : digitsValue (decimal n) = n := by
  have hall : (decimal n).takeWhile isDigit = decimal n :=
    List.takeWhile_eq_self_iff.2 fun c hc => isDigit_of_mem_decimal hc
  rw [digitsValue, hall]
  unfold decimal
  split_ifs with h
  · rw [h]
    decide
  · have hdigits : (Nat.digits 10 n).map (fun d => (UInt8.ofNat (48 + d)).toNat - 48) =
        Nat.digits 10 n := by
      refine (List.map_congr_left fun d hd => ?_).trans (List.map_id _)
      have hlt : d < 10 := Nat.digits_lt_base (by decide) hd
      interval_cases d <;> rfl
    rw [List.map_map, ← List.map_reverse, List.reverse_reverse]
    exact (congrArg (Nat.ofDigits 10) hdigits).trans (Nat.ofDigits_digits 10 n)

/-- A text that begins with a digit has no white space and no sign. -/
theorem atoi_of_isDigit {c : UInt8} {rest : Bytes} (h : isDigit c) :
    atoi (c :: rest) = digitsValue (c :: rest) := by
  have hc : 48 ≤ c.toNat := by
    have hdigit : 48 ≤ c ∧ c ≤ 57 := by simpa [isDigit] using h
    exact hdigit.1
  have hspace : ¬ isSpace c = true := by
    simp only [isSpace, decide_eq_true_eq]
    rintro (rfl | ⟨-, h13⟩)
    · exact absurd hc (by decide)
    · have h13' : c.toNat ≤ 13 := h13
      omega
  have hsign : c ≠ 45 ∧ c ≠ 43 := by
    constructor
    · rintro rfl
      exact absurd hc (by decide)
    · rintro rfl
      exact absurd hc (by decide)
  rw [atoi, List.dropWhile_cons_of_neg hspace]
  simp only [hsign.1, hsign.2, if_false]

/-- `atoi` reads what `%d` writes. -/
theorem atoi_decimal (n : ℕ) : atoi (decimal n) = n := by
  have hvalue := digitsValue_decimal n
  obtain ⟨c, rest, hcons⟩ := List.exists_cons_of_ne_nil (decimal_ne_nil n)
  have hc : isDigit c := isDigit_of_mem_decimal (hcons ▸ List.mem_cons_self)
  rw [hcons] at hvalue ⊢
  rw [atoi_of_isDigit hc, hvalue]

/-- The newline behind the text of a line is the end of its only token. -/
theorem strtok_line {text : Bytes} (hne : text ≠ []) (hline : 10 ∉ text) :
    strtok (text ++ [10]) [10] = text := by
  have hclear : ∀ c ∈ text, c ≠ 10 := fun c hc h10 => hline (h10 ▸ hc)
  have hfirst : (text ++ [10]).takeWhile (· ∈ ([10] : Bytes)) = [] ∧
      (text ++ [10]).dropWhile (· ∈ ([10] : Bytes)) = text ++ [10] := by
    obtain ⟨c, rest, rfl⟩ := List.exists_cons_of_ne_nil hne
    have hc : c ≠ 10 := hclear c List.mem_cons_self
    simp [hc]
  rw [strtok, hfirst.1, hfirst.2, List.nil_append]
  exact takeWhile_append_cons (fun c hc => by simpa using hclear c hc) (by decide)

/-- The newline does not change the number. -/
theorem numOf_decimal (n : ℕ) : numOf (decimal n ++ [10]) = n := by
  have hmem : ofMemory (decimal n ++ [10]) = decimal n ++ [10] :=
    ofMemory_append (notMem_decimal (by decide)) [10]
  rw [numOf, hmem, strtok_line (decimal_ne_nil n) (notMem_decimal (by decide)), atoi_decimal]

/-- A number of up to eight digits is a line by itself. -/
theorem fgets_decimal (h : n < 10 ^ 8) :
    fgets lineSize (decimal n ++ [10]) = some (decimal n ++ [10], []) := by
  have hlen : (decimal n).length ≤ 8 := length_decimal_le (by decide) h
  have hclear : 10 ∉ decimal n := notMem_decimal (by decide)
  have hline : (decimal n ++ [10]).takeWhile (· ≠ 10) = decimal n := by
    refine takeWhile_append_cons (fun c hc => ?_) (by decide)
    simpa using fun h10 : c = 10 => hclear (h10 ▸ hc)
  have hmin : min (lineSize - 1) ((decimal n).length + 1) = (decimal n ++ [10]).length := by
    simp only [lineSize, List.length_append, List.length_singleton]
    omega
  rw [fgets, if_neg (by simp), hline]
  simp only [hmin, List.take_length, List.drop_length]

end Decimal

/-! ## The sum -/

section Sum
variable {num i sum : ℤ}

/-- The sum up to `i`, and the one after it. -/
theorem sum_step (h : 2 * sum = i * (i - 1)) : 2 * (sum + i) = (i + 1) * (i + 1 - 1) := by
  calc 2 * (sum + i) = 2 * sum + 2 * i := by ring
    _ = i * (i - 1) + 2 * i := by rw [h]
    _ = (i + 1) * (i + 1 - 1) := by ring

/-- As long as `i` is below `65536`, the sum up to it is an `int`. -/
theorem isInt_sum (h : 2 * sum = i * (i - 1)) (hpos : 1 ≤ i) (hle : i ≤ 65536) : IsInt sum := by
  rw [isInt_iff]
  constructor
  · nlinarith
  · nlinarith

theorem sumLoop_of_le (h : i ≤ num) (hsum : IsInt (sum + i)) (hi : IsInt (i + 1)) :
    sumLoop num i sum = sumLoop num (i + 1) (sum + i) := by
  rw [sumLoop, if_pos h, checked_of_isInt hsum, checked_of_isInt hi]
  rfl

theorem sumLoop_of_lt (h : num < i) : sumLoop num i sum = .ok sum := by
  rw [sumLoop, if_neg (not_le.2 h)]

/-- The loop adds up the numbers from `i` to `num`, if it does not get too far. -/
theorem sumLoop_eq (h : 2 * sum = i * (i - 1)) (hpos : 1 ≤ i) (hi : i ≤ num + 1)
    (hnum : num ≤ 65535) : sumLoop num i sum = .ok (num * (num + 1) / 2) := by
  obtain ⟨n, hn⟩ := Int.le.dest hi
  induction n generalizing i sum with
  | zero =>
    obtain rfl : i = num + 1 := by omega
    rw [sumLoop_of_lt (by omega)]
    have hsum : num * (num + 1) = 2 * sum := by
      rw [h]
      ring
    rw [hsum, Int.mul_ediv_cancel_left _ (by decide)]
  | succ n ih =>
    have hstep := sum_step h
    have hsum : IsInt (sum + i) := isInt_sum hstep (by omega) (by omega)
    rw [sumLoop_of_le (by omega) hsum (isInt_iff.2 ⟨by omega, by omega⟩)]
    exact ih hstep (by omega) (by omega) (by omega)

/-- The loop does not get past `65535`. -/
theorem sumLoop_overflow (h : 2 * sum = i * (i - 1)) (hpos : 1 ≤ i) (hi : i ≤ 65536)
    (hnum : 65536 ≤ num) : sumLoop num i sum = .error .overflow := by
  obtain ⟨n, hn⟩ := Int.le.dest hi
  induction n generalizing i sum with
  | zero =>
    obtain rfl : i = 65536 := by omega
    have hsum : ¬ IsInt (sum + 65536) := by
      rw [isInt_iff]
      omega
    rw [sumLoop, if_pos hnum, checked_of_not_isInt hsum]
    rfl
  | succ n ih =>
    have hstep := sum_step h
    have hsum : IsInt (sum + i) := isInt_sum hstep (by omega) (by omega)
    rw [sumLoop_of_le (by omega) hsum (isInt_iff.2 ⟨by omega, by omega⟩)]
    exact ih hstep (by omega) (by omega) (by omega)

theorem sumToN_of_le (h : num ≤ 65535) :
    sumToN num = .ok (if 1 ≤ num then num * (num + 1) / 2 else 0) := by
  by_cases hpos : 1 ≤ num
  · rw [if_pos hpos]
    exact sumLoop_eq (by decide) le_rfl (by omega) h
  · rw [if_neg hpos]
    exact sumLoop_of_lt (by omega)

theorem sumToN_overflow (h : 65536 ≤ num) : sumToN num = .error .overflow :=
  sumLoop_overflow (by decide) le_rfl (by decide) h

end Sum

/-- A line that `printSum` reads is summed up right just when it stands for less than
`65536`. -/
theorem print_sum_exact (input line rest : Bytes) (h : fgets lineSize input = some (line, rest)) :
    IsInt (numOf line) ∧
      (sumToN (numOf line) =
          .ok (if 1 ≤ numOf line then numOf line * (numOf line + 1) / 2 else 0) ↔
        numOf line ≤ 65535) := by
  refine ⟨isInt_numOf (fgets_length h), fun hsum => ?_, sumToN_of_le⟩
  by_contra hbig
  rw [sumToN_overflow (by omega)] at hsum
  cases hsum

/-- The line `100`. -/
theorem print_sum_hundred : sumToN (numOf (ascii "100\n")) = .ok 5050 := by
  have hline : numOf (ascii "100\n") = 100 := by decide
  have hsum := (print_sum_exact (ascii "100\n") (ascii "100\n") [] (by decide)).2.2
  rw [hline] at hsum ⊢
  exact hsum (by decide)

/-- Each number of up to eight digits from `65536` on is a line whose sum overflows. -/
theorem big_line_overflows {n : ℕ} (hbig : 65536 ≤ n) (h : n < 10 ^ 8) :
    fgets lineSize (decimal n ++ [10]) = some (decimal n ++ [10], []) ∧
      sumToN (numOf (decimal n ++ [10])) = .error .overflow := by
  refine ⟨fgets_decimal h, ?_⟩
  rw [numOf_decimal]
  exact sumToN_overflow (by exact_mod_cast hbig)

/-- The line `65536`. -/
theorem print_sum_overflows :
    ¬ ∀ input line rest : Bytes, fgets lineSize input = some (line, rest) →
      sumToN (numOf line) =
        .ok (if 1 ≤ numOf line then numOf line * (numOf line + 1) / 2 else 0) := by
  intro h
  obtain ⟨hline, hsum⟩ := big_line_overflows (n := 65536) le_rfl (by decide)
  rw [h _ _ _ hline] at hsum
  cases hsum

end AcademyLab.SumToN
