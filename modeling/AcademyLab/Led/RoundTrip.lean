import AcademyLab.Led.Writing
import AcademyLab.Machine

/-!
# Reading back what was written to the LED device

An open file is read piece by piece. Each `led_read` samples the lines anew, and
only the offset is kept between two of them; the pieces fit together because the
lines of the LEDs have what was set last.
-/
namespace AcademyLab.Led
open CString Machine

/-! ## Reading in pieces -/

/-- One `led_read`: the levels of all lines at that moment, and `len`. -/
structure Reading where
  lv : Levels
  len : ℕ

/-- The state of an open file is its offset. -/
def readStep (b : Board) (off : ℕ) (r : Reading) : ℕ × List ReadResult :=
  ((ledRead b r.lv r.len off).off, [ledRead b r.lv r.len off])

/-- The offset after some reads from the start of the file. -/
def offsetAfter (b : Board) (reads : List Reading) : ℕ := exec (readStep b) 0 reads

/-- The pieces that some reads from the start of the file return, as one text. -/
def textOf (b : Board) (reads : List Reading) : Bytes :=
  ((trace (readStep b) 0 reads).map ReadResult.data).flatten

/-- The sum of the lengths of the reads. -/
def lengthOf (reads : List Reading) : ℕ := (reads.map Reading.len).sum

section Pieces
variable {b : Board} {lv lv' : Levels} {text : Bytes} {off : ℕ} {reads : List Reading}

theorem ledText_eq : ledText b lv = ledChars b lv ++ [10, 0] := rfl

theorem ledText_congr (h : b.leds lv' = b.leds lv) : ledText b lv' = ledText b lv := by
  rw [ledText_eq, ledText_eq, leds_eq_iff.1 h]

/-- Reads that all find the same text return what follows the offset in it. -/
theorem reads_run (hsame : ∀ r ∈ reads, ledText b r.lv = text) :
    ((trace (readStep b) off reads).map ReadResult.data).flatten =
        (text.drop off).take (lengthOf reads) ∧
      exec (readStep b) off reads = off + ((text.drop off).take (lengthOf reads)).length := by
  induction reads generalizing off with
  | nil => simp [lengthOf]
  | cons r reads ih =>
    have hr : ledText b r.lv = text := hsame r List.mem_cons_self
    have hsame' : ∀ r' ∈ reads, ledText b r'.lv = text := fun r' hr' =>
      hsame r' (List.mem_cons_of_mem r hr')
    obtain ⟨hdata, hoff⟩ := @ih (off + ((text.drop off).take r.len).length) hsame'
    have hlen : lengthOf (r :: reads) = r.len + lengthOf reads := by simp [lengthOf]
    have hstep : readStep b off r = (off + ((text.drop off).take r.len).length,
        [⟨((text.drop off).take r.len).length, (text.drop off).take r.len,
          off + ((text.drop off).take r.len).length⟩]) := by
      rw [readStep, ledRead, hr]
      rfl
    have hjoin := take_append_take_drop (text.drop off) r.len (lengthOf reads)
    rw [List.drop_drop] at hjoin
    constructor
    · rw [trace_cons, hstep, List.map_append, List.flatten_append, hdata, hlen, ← hjoin]
      simp
    · rw [exec_cons, hstep, hoff, hlen, ← hjoin, List.length_append, Nat.add_assoc]

theorem textOf_eq (hsame : ∀ r ∈ reads, ledText b r.lv = text) :
    textOf b reads = text.take (lengthOf reads) := (reads_run hsame).1

/-- At the end of the text there is nothing more to read. -/
theorem read_at_end (hsame : ∀ r ∈ reads, ledText b r.lv = text)
    (hall : text.length ≤ lengthOf reads) (lv' : Levels) (hlv' : ledText b lv' = text) (len : ℕ) :
    (ledRead b lv' len (offsetAfter b reads)).ret = 0 := by
  have hoff : offsetAfter b reads = text.length := by
    rw [offsetAfter, (reads_run hsame).2, List.drop_zero, List.take_of_length_le hall,
      Nat.zero_add]
  rw [hoff, ledRead, hlv', simpleReadFromBuffer, List.drop_length]
  simp

end Pieces

/-! ## Writing and reading -/

section RoundTrip
variable {b : Board} {gpios : List ℕ} {lv lv' : Levels} {len : ℤ} {buf : UserMemory}
  {buffer : Bytes}

/-- Setting every line to what it is. -/
theorem ledLoop_self :
    ledLoop gpios (gpios.map fun gpio => levelChar (lv gpio)) len lv = (len, lv) := by
  induction gpios with
  | nil => rfl
  | cons gpio gpios ih =>
    rw [List.map_cons, ledLoop_cons, gpioSetValue, Function.update_eq_self, ih]

/-- What the driver copies from a buffer that is long enough. -/
theorem copyFromUser_buffer (hlen : b.numLeds ≤ buffer.length)
    (hbuf : ∀ k < buffer.length, buf k = buffer[k]?) :
    copyFromUser buf b.numLeds = some (buffer.take b.numLeds) := by
  rw [← copyFromUser_userMemory hlen]
  exact copyFromUser_congr fun k hk => hbuf k (by omega)

/-- A valid buffer is accepted, and its characters are what the LEDs show. -/
theorem ledWrite_buffer (lv : Levels) (hlen : b.numLeds ≤ buffer.length)
    (hvalid : (buffer.take b.numLeds).all isLevel)
    (hbuf : ∀ k < buffer.length, buf k = buffer[k]?) :
    (ledWrite b buf buffer.length lv).1 = buffer.length ∧
      ledChars b (ledWrite b buf buffer.length lv).2 = buffer.take b.numLeds := by
  have hkbuf : (buffer.take b.numLeds).length = b.ledGpios.length := by
    rw [List.length_take_of_le hlen, b.length_ledGpios]
  rw [ledWrite_copied (copyFromUser_buffer hlen hbuf)]
  constructor
  · rw [ledLoop_ret hkbuf, if_pos hvalid]
  · have hwhole : (buffer.take b.numLeds).takeWhile isLevel = buffer.take b.numLeds :=
      List.takeWhile_eq_self_iff.2 (List.all_eq_true.1 hvalid)
    rw [ledChars, ledLoop_chars _ _ b.ledGpios_nodup hkbuf, hwhole, hkbuf,
      List.drop_of_length_le (by rw [List.length_map]), List.append_nil]

/-- What a read of all LEDs returns sets them to what they are. -/
theorem ledWrite_read {n : ℕ} (hn : b.numLeds ≤ n) (hsame : b.leds lv' = b.leds lv)
    (hbuf : ∀ k < (ledRead b lv n 0).data.length, buf k = (ledRead b lv n 0).data[k]?) :
    ledWrite b buf (ledRead b lv n 0).data.length lv' =
      (((ledRead b lv n 0).data.length : ℤ), lv') := by
  have hdata : (ledRead b lv n 0).data = (ledChars b lv' ++ [10, 0]).take n := by
    rw [leds_eq_iff.1 hsame]
    rfl
  have hchars : (ledChars b lv').length = b.numLeds := by simp [ledChars]
  have htake : (ledRead b lv n 0).data.take b.numLeds = ledChars b lv' := by
    rw [hdata, List.take_take, Nat.min_eq_left hn, ← hchars, List.take_left]
  have hlen : b.numLeds ≤ (ledRead b lv n 0).data.length := by
    rw [hdata, List.length_take, List.length_append, hchars]
    omega
  rw [ledWrite_copied (copyFromUser_buffer hlen hbuf), htake]
  exact ledLoop_self

/-- A write and the reads that follow it are inverse to each other, whatever the
pieces, and so are a read of all LEDs and a write of what it returned. -/
theorem led_round_trip (b : Board) (lv : Levels) :
    (∀ (buffer : Bytes) (buf : UserMemory), b.numLeds ≤ buffer.length →
      (buffer.take b.numLeds).all isLevel → (∀ k < buffer.length, buf k = buffer[k]?) →
        let written := ledWrite b buf buffer.length lv
        let text := buffer.take b.numLeds ++ [10, 0]
        written.1 = buffer.length ∧
          ∀ reads : List Reading, (∀ r ∈ reads, 0 < r.len ∧ b.leds r.lv = b.leds written.2) →
            textOf b reads <+: text ∧
            (b.numLeds + 2 ≤ lengthOf reads → textOf b reads = text ∧
              ∀ r : Reading, b.leds r.lv = b.leds written.2 →
                (ledRead b r.lv r.len (offsetAfter b reads)).ret = 0)) ∧
    ∀ (n : ℕ) (lv' : Levels) (buf : UserMemory), b.numLeds ≤ n → b.leds lv' = b.leds lv →
      let data := (ledRead b lv n 0).data
      (∀ k < data.length, buf k = data[k]?) →
        ledWrite b buf data.length lv' = ((data.length : ℤ), lv') := by
  constructor
  · intro buffer buf hlen hvalid hbuf written text
    obtain ⟨hret, hchars⟩ := ledWrite_buffer lv hlen hvalid hbuf
    refine ⟨hret, fun reads hreads => ?_⟩
    have hseen : ∀ lv', b.leds lv' = b.leds written.2 → ledText b lv' = text := fun lv' h => by
      rw [ledText_congr h, ledText_eq, hchars]
    have hsame : ∀ r ∈ reads, ledText b r.lv = text := fun r hr => hseen r.lv (hreads r hr).2
    have htext : text.length = b.numLeds + 2 := by
      simp only [text, List.length_append, List.length_take_of_le hlen]
      rfl
    rw [textOf_eq hsame]
    refine ⟨List.take_prefix _ _, fun hall => ⟨List.take_of_length_le (by omega), fun r hr => ?_⟩⟩
    exact read_at_end hsame (by omega) r.lv (hseen r.lv hr) r.len
  · intro n lv' buf hn hsame data hbuf
    exact ledWrite_read hn hsame hbuf

/-- `1010` and a newline, read back three bytes at a time; and all LEDs on, with what
is read of them copied back. -/
theorem led_round_trip_echo :
    textOf board (List.replicate 2 ⟨(ledWrite board (userMemory [49, 48, 49, 48, 10]) 5
        fun _ => true).2, 3⟩) = [49, 48, 49, 48, 10, 0] ∧
      (ledWrite board (userMemory [49, 49, 49, 49, 10]) 5 fun _ => true).1 = 5 := by
  have hread : (ledRead board (fun _ => true) 5 0).data = [49, 49, 49, 49, 10] := by decide
  constructor
  · have hall := ((led_round_trip board fun _ => true).1 [49, 48, 49, 48, 10]
      (userMemory [49, 48, 49, 48, 10]) (by decide) (by decide) (fun k _ => rfl)).2
      (List.replicate 2 ⟨(ledWrite board (userMemory [49, 48, 49, 48, 10]) 5 fun _ => true).2, 3⟩)
    refine ((hall fun r hr => ?_).2 (by decide)).1
    rw [List.eq_of_mem_replicate hr]
    exact ⟨by decide, rfl⟩
  · have hback := (led_round_trip board fun _ => true).2 5 (fun _ => true)
      (userMemory [49, 49, 49, 49, 10]) (by decide) rfl (fun k _ => by rw [hread]; rfl)
    rw [hread] at hback
    exact congrArg Prod.fst hback

end RoundTrip

end AcademyLab.Led
