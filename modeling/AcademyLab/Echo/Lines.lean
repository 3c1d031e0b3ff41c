import AcademyLab.CString

/-!
# Lines of the echo clients

What `str_cli` of the TCP client and `dg_echo` of the UDP client have in common:
`fgets` into a buffer, and the line in which the answer is printed.
-/
namespace AcademyLab.Echo
open CString

/-- `MAX_BUFFER` of all four programs. -/
def maxBuffer : ℕ := 4096

/-- The line that a piece of the input is to be printed in. -/
def echo (piece : Bytes) : Bytes := ascii "Server echo: " ++ piece

/-- The piece is in the buffer, as a string that fits. -/
structure Carried (piece buffer : Bytes) : Prop where
  clear : 0 ∉ piece
  nonempty : piece ≠ []
  fits : piece.length < maxBuffer
  stored : piece ++ [0] <+: buffer

variable {input piece rest buffer : Bytes}

theorem Carried.string (h : Carried piece buffer) (beyond : Bytes) :
    ofMemory (buffer ++ beyond) = piece :=
  ofMemory_of_prefix h.clear (h.stored.trans (List.prefix_append _ _))

theorem Carried.ofMemory (h : Carried piece buffer) : ofMemory buffer = piece :=
  ofMemory_of_prefix h.clear h.stored

theorem Carried.overwrite (h : Carried piece buffer) : Carried piece (overwrite buffer piece) :=
  ⟨h.clear, h.nonempty, h.fits, prefix_overwrite h.stored⟩

/-- What `fgets` reads of a file without NUL is carried by its buffer. -/
theorem carried_fgets (hin : 0 ∉ input) (h : fgets maxBuffer input = some (piece, rest))
    (buffer : Bytes) : Carried piece (CString.overwrite buffer (piece ++ [0])) := by
  have hsplit := fgets_append h
  have hlen := fgets_length h
  have hlt := fgets_rest_length (by decide) h
  refine ⟨fun h0 => hin ?_, fun hnil => ?_, ?_, List.prefix_append _ _⟩
  · rw [← hsplit]
    exact List.mem_append_left _ h0
  · rw [← hsplit, hnil, List.nil_append] at hlt
    exact lt_irrefl _ hlt
  · exact lt_of_le_of_lt hlen (by decide)

theorem clear_fgets (hin : 0 ∉ input) (h : fgets maxBuffer input = some (piece, rest)) :
    0 ∉ rest := by
  intro h0
  rw [← fgets_append h] at hin
  exact hin (List.mem_append_right _ h0)

end AcademyLab.Echo
