import AcademyLab.CString

/-!
# Constants and texts of the chat servers

`server_select.c` and `server_poll.c` share their constants, `addr_to_str` and
every format string. A message is kept as its format and arguments; `Msg.bytes`
is the text that `sprintf` leaves in `send_buf` and that `write` sends, up to
`strlen(buf)`.
-/
namespace AcademyLab.Chat
open CString

/-- `MAX_CLIENTS` -/
def maxClients : ℕ := 3
/-- `MAX_BUFFER` -/
def maxBuffer : ℕ := 4096
/-- `MSG_COOLDOWN`, in seconds. -/
def msgCooldown : ℤ := 1
/-- `sizeof(pclient->name)` -/
def nameSize : ℕ := 30
/-- `SERVER_NAME` -/
def serverName : Bytes := ascii "Server"

/-- The fields of `struct sockaddr_in` that the servers read: the four bytes of
`sin_addr` and the value of `ntohs(sin_port)`. -/
structure SockAddr where
  ip : UInt8 × UInt8 × UInt8 × UInt8
  port : UInt16
  deriving DecidableEq, Inhabited

/-- `inet_ntop(AF_INET, ...)` -/
def inetNtop (addr : SockAddr) : Bytes :=
  decimal addr.ip.1.toNat ++ ascii "." ++ decimal addr.ip.2.1.toNat ++ ascii "." ++
    decimal addr.ip.2.2.1.toNat ++ ascii "." ++ decimal addr.ip.2.2.2.toNat

/-- `addr_to_str(addr, buf, size)` -/
def addrToStr (addr : SockAddr) (size : ℕ) : Bytes :=
  snprintf size (inetNtop addr ++ ascii ":" ++ decimal addr.port.toNat)

/-- The text of an address is never cut by the size of a name field. -/
theorem addrToStr_nameSize (addr : SockAddr) :
    addrToStr addr nameSize = inetNtop addr ++ ascii ":" ++ decimal addr.port.toNat ∧
      (addrToStr addr nameSize).length ≤ 21 := by
  have hb (b : UInt8) : (decimal b.toNat).length ≤ 3 :=
    length_decimal_le (by decide) (by have := b.toNat_lt; omega)
  have hp : (decimal addr.port.toNat).length ≤ 5 :=
    length_decimal_le (by decide) (by have := addr.port.toNat_lt; omega)
  have hdot : (ascii ".").length = 1 := by decide
  have hcolon : (ascii ":").length = 1 := by decide
  have hlen : (inetNtop addr ++ ascii ":" ++ decimal addr.port.toNat).length ≤ 21 := by
    have h1 := hb addr.ip.1
    have h2 := hb addr.ip.2.1
    have h3 := hb addr.ip.2.2.1
    have h4 := hb addr.ip.2.2.2
    simp only [inetNtop, List.length_append, hdot, hcolon]
    omega
  have heq : addrToStr addr nameSize = inetNtop addr ++ ascii ":" ++ decimal addr.port.toNat :=
    List.take_of_length_le (hlen.trans (by decide))
  exact ⟨heq, heq ▸ hlen⟩

/-- Only digits, dots and a colon occur in the text of an address. -/
theorem mem_addrToStr {addr : SockAddr} {size : ℕ} {b : UInt8} (h : b ∈ addrToStr addr size) :
    46 ≤ b ∧ b ≤ 58 := by
  have hdigit {n : ℕ} (hb : b ∈ decimal n) : 46 ≤ b ∧ b ≤ 58 := by
    obtain ⟨hlo, hhi⟩ := digit_of_mem_decimal hb
    exact ⟨UInt8.le_trans (show (46 : UInt8) ≤ 48 by decide) hlo,
      UInt8.le_trans hhi (show (57 : UInt8) ≤ 58 by decide)⟩
  have hdot (hb : b ∈ ascii ".") : 46 ≤ b ∧ b ≤ 58 := by
    obtain rfl : b = 46 := by simpa [ascii] using hb
    decide
  have hcolon (hb : b ∈ ascii ":") : 46 ≤ b ∧ b ≤ 58 := by
    obtain rfl : b = 58 := by simpa [ascii] using hb
    decide
  have hb := List.mem_of_mem_take h
  simp only [inetNtop, List.mem_append] at hb
  rcases hb with ((((((((hb | hb) | hb) | hb) | hb) | hb) | hb) | hb) | hb)
  all_goals first | exact hdigit hb | exact hdot hb | exact hcolon hb

/-- What the servers format, by format string. -/
inductive Msg
  | connected (name : Bytes)
  | disconnected (name : Bytes)
  | changedName (oldName newName : Bytes)
  | nameRule
  | you (text : Bytes)
  | chat (name text : Bytes)
  | full
  | refused (name : Bytes)
  deriving DecidableEq

/-- `"[%s] "` with `SERVER_NAME`. -/
def serverTag : Bytes := ascii "[" ++ serverName ++ ascii "] "

/-- The formatted text of a message. -/
def Msg.bytes : Msg → Bytes
  | .connected name => serverTag ++ name ++ ascii " connected.\n"
  | .disconnected name => serverTag ++ name ++ ascii " has disconnected.\n"
  | .changedName oldName newName =>
      serverTag ++ oldName ++ ascii " changed name to " ++ newName ++ ascii ".\n"
  | .nameRule => serverTag ++ ascii "Name must be between 1 and " ++ decimal (nameSize - 1) ++
      ascii " characters.\n"
  | .you text => ascii "[You] " ++ text ++ ascii "\n"
  | .chat name text => ascii "[" ++ name ++ ascii "] " ++ text ++ ascii "\n"
  | .full => ascii "Server is full. Try again later.\n"
  | .refused name => serverTag ++ ascii "Max clients reached. Connection from " ++ name ++
      ascii " refused.\n"

example : (Msg.connected (addrToStr ⟨(127, 0, 0, 1), 3001⟩ nameSize)).bytes =
    ascii "[Server] 127.0.0.1:3001 connected.\n" := by decide

end AcademyLab.Chat
