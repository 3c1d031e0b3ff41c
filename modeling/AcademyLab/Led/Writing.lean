import AcademyLab.Led.Sharing

/-!
# What a write to the LED device depends on and what it leaves

`led_write` copies `NUM_LEDS` characters, whatever `len` is, and sets the LEDs
while it tests the characters. A shell's `len` is far below the bound of
`ssize_t`, so that the `len` that is returned is not negative.
-/
namespace AcademyLab.Led
open CString

/-- A character that stands for a level. -/
def isLevel (c : UInt8) : Bool := c = 48 ∨ c = 49

@[simp] theorem isLevel_iff {c : UInt8} : isLevel c = true ↔ c = 48 ∨ c = 49 := by
  simp [isLevel]

/-! ## The loop -/

section Loop
variable {gpio : ℕ} {gpios : List ℕ} {c : UInt8} {kbuf : Bytes} {len : ℤ} {lv : Levels}

theorem levelChar_setLed (hc : isLevel c) : levelChar (setLed gpio c lv gpio) = c := by
  obtain rfl | rfl := isLevel_iff.1 hc
  · simp [setLed, gpioSetValue, levelChar]
  · simp [setLed, gpioSetValue, levelChar]

theorem setLed_of_ne {gpio' : ℕ} (h : gpio' ≠ gpio) : setLed gpio c lv gpio' = lv gpio' := by
  unfold setLed
  split
  · exact Function.update_of_ne h _ _
  · split
    · exact Function.update_of_ne h _ _
    · rfl

theorem ledLoop_wrong (hc : ¬ isLevel c) :
    ledLoop (gpio :: gpios) (c :: kbuf) len lv = (-EINVAL, lv) := by
  rw [isLevel_iff, not_or] at hc
  rw [ledLoop, if_neg hc.2, if_neg hc.1]

/-- What the loop returns: the length, unless a character is wrong. -/
theorem ledLoop_ret (hlen : kbuf.length = gpios.length) :
    (ledLoop gpios kbuf len lv).1 = if kbuf.all isLevel then len else -EINVAL := by
  induction gpios generalizing kbuf lv with
  | nil =>
    rw [List.eq_nil_of_length_eq_zero hlen]
    simp [ledLoop]
  | cons gpio gpios ih =>
    obtain ⟨c, kbuf, rfl⟩ := List.exists_cons_of_length_eq_add_one hlen
    by_cases hc : isLevel c
    · rw [ledLoop_valid (isLevel_iff.1 hc), ih (by simpa using hlen)]
      simp only [List.all_cons, hc, Bool.true_and]
    · have hwrong : ¬ (c :: kbuf).all isLevel = true := by simp [hc]
      rw [ledLoop_wrong hc, if_neg hwrong]

/-- What the LEDs show afterwards: the characters up to the first wrong one, and
behind them what they showed before. -/
theorem ledLoop_chars (len : ℤ) (lv : Levels) (hnodup : gpios.Nodup)
    (hlen : kbuf.length = gpios.length) :
    gpios.map (fun gpio => levelChar ((ledLoop gpios kbuf len lv).2 gpio)) =
      kbuf.takeWhile isLevel ++
        (gpios.map fun gpio => levelChar (lv gpio)).drop (kbuf.takeWhile isLevel).length := by
  induction gpios generalizing kbuf lv with
  | nil =>
    rw [List.eq_nil_of_length_eq_zero hlen]
    rfl
  | cons gpio gpios ih =>
    obtain ⟨c, kbuf, rfl⟩ := List.exists_cons_of_length_eq_add_one hlen
    obtain ⟨hmem, hnodup⟩ := List.nodup_cons.1 hnodup
    by_cases hc : isLevel c
    · have hrest : (gpios.map fun gpio' => levelChar (setLed gpio c lv gpio')) =
          gpios.map fun gpio' => levelChar (lv gpio') := by
        refine List.map_congr_left fun gpio' hmem' => ?_
        rw [setLed_of_ne (ne_of_mem_of_not_mem hmem' hmem)]
      rw [List.takeWhile_cons_of_pos hc, ledLoop_valid (isLevel_iff.1 hc), List.map_cons,
        ledLoop_of_notMem hmem, levelChar_setLed hc, ih _ hnodup (by simpa using hlen), hrest]
      rfl
    · rw [List.takeWhile_cons_of_neg hc, ledLoop_wrong hc]
      rfl

end Loop

/-! ## The copy -/

section Copy
variable {buf buf' : UserMemory} {n : ℕ} {kbuf : Bytes}

theorem copyFromUser_succ : copyFromUser buf (n + 1) =
    (buf 0).bind fun c => (copyFromUser (fun k => buf (k + 1)) n).map (c :: ·) := by
  rw [copyFromUser]
  cases buf 0 with
  | none => rfl
  | some c => cases copyFromUser (fun k => buf (k + 1)) n <;> rfl

theorem copyFromUser_length (h : copyFromUser buf n = some kbuf) : kbuf.length = n := by
  induction n generalizing buf kbuf with
  | zero =>
    cases h
    rfl
  | succ n ih =>
    simp only [copyFromUser_succ, Option.bind_eq_some_iff, Option.map_eq_some_iff] at h
    obtain ⟨c, -, cs, hcs, rfl⟩ := h
    rw [List.length_cons, ih hcs]

theorem copyFromUser_congr (h : ∀ k < n, buf k = buf' k) :
    copyFromUser buf n = copyFromUser buf' n := by
  induction n generalizing buf buf' with
  | zero => rfl
  | succ n ih =>
    rw [copyFromUser_succ, copyFromUser_succ, h 0 (by omega),
      ih fun k hk => h (k + 1) (by omega)]

/-- A part that is not mapped fails the copy. -/
theorem copyFromUser_unmapped {k : ℕ} (hk : k < n) (h : buf k = none) :
    copyFromUser buf n = none := by
  induction n generalizing buf k with
  | zero => omega
  | succ n ih =>
    rw [copyFromUser_succ]
    cases k with
    | zero => rw [h, Option.bind_none]
    | succ k =>
      rw [ih (k := k) (by omega) h]
      cases buf 0 <;> rfl

end Copy

/-! ## A write that is rejected -/

section Rejected
variable {b : Board} {buf : UserMemory} {kbuf : Bytes} {len : ℕ} {lv : Levels}

theorem ledWrite_copied (h : copyFromUser buf b.numLeds = some kbuf) :
    ledWrite b buf len lv = ledLoop b.ledGpios kbuf len lv := by
  rw [ledWrite, h]

theorem ledWrite_faulted (h : copyFromUser buf b.numLeds = none) :
    ledWrite b buf len lv = (-EFAULT, lv) := by
  rw [ledWrite, h]

/-- A negative error. -/
def IsError (ret : ℤ) : Prop := ret = -EFAULT ∨ ret = -EINVAL

theorem not_isError_len : ¬ IsError (len : ℤ) := by
  unfold IsError EFAULT EINVAL
  omega

theorem isError_ledLoop (hlen : kbuf.length = b.numLeds) :
    IsError (ledLoop b.ledGpios kbuf len lv).1 ↔ ∃ c ∈ kbuf, ¬ isLevel c := by
  rw [ledLoop_ret (by rw [hlen, b.length_ledGpios])]
  split
  · rename_i hvalid
    refine iff_of_false not_isError_len ?_
    rintro ⟨c, hc, hwrong⟩
    exact hwrong (List.all_eq_true.1 hvalid c hc)
  · rename_i hwrong
    refine iff_of_true (Or.inr rfl) ?_
    simpa using hwrong

theorem leds_eq_iff {lv lv' : Levels} :
    b.leds lv' = b.leds lv ↔ ledChars b lv' = ledChars b lv := by
  have hinj : Function.Injective levelChar := by
    intro v w h
    cases v <;> cases w <;> simp_all [levelChar]
  have hmap : ∀ lv, ledChars b lv = (b.leds lv).map levelChar := fun lv => by
    simp [ledChars, Board.leds]
  rw [hmap, hmap, (List.map_injective_iff.2 hinj).eq_iff]

/-- The loop leaves the LEDs as they were just when what it sets is what they
showed. -/
theorem ledLoop_unchanged (hlen : kbuf.length = b.numLeds) :
    b.leds (ledLoop b.ledGpios kbuf len lv).2 = b.leds lv ↔
      kbuf.takeWhile isLevel <+: ledChars b lv := by
  have hchars := ledLoop_chars len lv b.ledGpios_nodup
    (hlen.trans b.length_ledGpios.symm)
  rw [leds_eq_iff, ledChars, hchars, ← ledChars]
  constructor
  · intro h
    exact ⟨_, h⟩
  · rintro ⟨rest, hrest⟩
    rw [← hrest, List.drop_left]

/-- A rejected write leaves the LEDs as they were just when the copy fails, or the
characters before the first wrong one are what the LEDs show. -/
theorem led_write_rejected :
    ∀ (b : Board) (buf : UserMemory) (len : ℕ) (lv : Levels),
      (IsError (ledWrite b buf len lv).1 → b.leds (ledWrite b buf len lv).2 = b.leds lv) ↔
        ∀ kbuf, copyFromUser buf b.numLeds = some kbuf → (∃ c ∈ kbuf, ¬ isLevel c) →
          kbuf.takeWhile isLevel <+: ledChars b lv := by
  intro b buf len lv
  cases hcopy : copyFromUser buf b.numLeds with
  | none =>
    refine iff_of_true (fun _ => ?_) (fun kbuf h => nomatch h)
    rw [ledWrite_faulted hcopy]
  | some kbuf =>
    have hlen := copyFromUser_length hcopy
    rw [ledWrite_copied hcopy, isError_ledLoop hlen, ledLoop_unchanged hlen]
    simp

/-- `1x00`, with all LEDs off. -/
theorem led_write_half_done :
    ¬ ∀ (b : Board) (buf : UserMemory) (len : ℕ) (lv : Levels),
      IsError (ledWrite b buf len lv).1 → b.leds (ledWrite b buf len lv).2 = b.leds lv := by
  intro h
  have hwrong := h board (userMemory [49, 120, 48, 48]) 4 (fun _ => false) (Or.inr (by decide))
  exact absurd hwrong (by decide)

end Rejected

/-! ## What a write depends on -/

section Passed

/-- A write is a function of the bytes that the caller passes just when these are
enough for the LEDs. -/
theorem led_write_passed :
    ∀ (b : Board) (len : ℕ) (lv : Levels),
      (∀ buf buf' : UserMemory, (∀ k < len, buf k = buf' k) →
        (ledWrite b buf len lv).1 = (ledWrite b buf' len lv).1 ∧
          b.leds (ledWrite b buf len lv).2 = b.leds (ledWrite b buf' len lv).2) ↔
      b.numLeds ≤ len := by
  intro b len lv
  constructor
  · intro h
    by_contra hshort
    rw [not_le] at hshort
    -- ones, and behind the bytes that are passed: more of them, or nothing
    let ones : UserMemory := userMemory ((List.replicate b.numLeds true).map levelChar ++ [])
    let cut : UserMemory := fun k => if k < len then ones k else none
    have hagree : ∀ k < len, ones k = cut k := fun k hk => (if_pos hk).symm
    have hones : (ledWrite b ones len lv).1 = len :=
      (ledWrite_pattern b [] len lv (List.length_replicate ..)).1
    have hcut : (ledWrite b cut len lv).1 = -EFAULT := by
      rw [ledWrite_faulted (copyFromUser_unmapped hshort (if_neg (lt_irrefl len)))]
    have hsame := (h ones cut hagree).1
    rw [hones, hcut] at hsame
    exact not_isError_len (Or.inl hsame)
  · intro hlong buf buf' hagree
    have hcopy : copyFromUser buf b.numLeds = copyFromUser buf' b.numLeds :=
      copyFromUser_congr fun k hk => hagree k (by omega)
    have hwrite : ledWrite b buf len lv = ledWrite b buf' len lv := by
      rw [ledWrite, ledWrite, hcopy]
    rw [hwrite]
    exact ⟨rfl, rfl⟩

/-- `11`, with two more characters behind. -/
theorem led_write_reads_on :
    ¬ ∀ (b : Board) (len : ℕ) (lv : Levels) (buf buf' : UserMemory),
      (∀ k < len, buf k = buf' k) →
        (ledWrite b buf len lv).1 = (ledWrite b buf' len lv).1 ∧
          b.leds (ledWrite b buf len lv).2 = b.leds (ledWrite b buf' len lv).2 := by
  intro h
  have hsame := h board 2 (fun _ => false) (userMemory [49, 49, 49, 49])
    (userMemory [49, 49, 48, 48]) (by decide)
  exact absurd hsame.2 (by decide)

end Passed

end AcademyLab.Led
