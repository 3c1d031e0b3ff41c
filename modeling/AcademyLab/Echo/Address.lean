import AcademyLab.Chat.Message
import AcademyLab.Data.SumToN

/-!
# The arguments of the echo clients

`main` of the TCP `client.c` and of `udp_client.c`, from the arguments to the address that
is connected to or sent to. An argument is copied to `serv_ip` with `strcpy`, and what
`inet_pton` returns is not looked at.
-/
namespace AcademyLab.Echo.Address
open CString SumToN
open Chat (SockAddr inetNtop)

/-- What `strcpy` must not come to. -/
inductive Fault
  | overrun
  deriving DecidableEq

/-- `sizeof(serv_ip)` -/
def servIpSize : ℕ := 15

/-- `strcpy(serv_ip, arg)` -/
def strcpy (arg : Bytes) : Except Fault Bytes :=
  if arg.length + 1 ≤ servIpSize then .ok arg else .error .overrun

/-- `htons`, as the number of the port. -/
def htons (n : ℤ) : UInt16 := UInt16.ofNat (n % 65536).toNat

/-! ## `inet_pton` -/

/-- One character, with the numbers before the last dot and the one begun since. -/
def scanChar (octets : List ℕ) (number : Option ℕ) (c : UInt8) :
    Option (List ℕ × Option ℕ) :=
  if isDigit c then
    match number with
    | none => if octets.length < 4 then some (octets, some (c.toNat - 48)) else none
    | some n =>
      -- a number that begins with 0 ends with it
      if n = 0 ∨ 255 < 10 * n + (c.toNat - 48) then none
      else some (octets, some (10 * n + (c.toNat - 48)))
  else if c = 46 then
    match number with
    | some n => if octets.length < 3 then some (octets ++ [n], none) else none
    | none => none
  else none

def scan (octets : List ℕ) (number : Option ℕ) : Bytes → Option (List ℕ)
  | [] => number.map fun n => octets ++ [n]
  | c :: s => (scanChar octets number c).bind fun p => scan p.1 p.2 s

/-- `inet_pton(AF_INET, s, &sin_addr)` for an address that is 0 before. -/
def inetPton (s : Bytes) : UInt8 × UInt8 × UInt8 × UInt8 :=
  match scan [] none s with
  | some [a, b, c, d] => (UInt8.ofNat a, UInt8.ofNat b, UInt8.ofNat c, UInt8.ofNat d)
  | _ => (0, 0, 0, 0)

/-! ## The two programs -/

/-- The address and port of the server, from the arguments for them. -/
def servAddr (ip port : Option Bytes) (serverPort : ℤ) : Except Fault SockAddr := do
  let servIp ← match ip with
    | some arg => strcpy arg
    | none => .ok (ascii "127.0.0.1")
  .ok ⟨inetPton servIp, htons ((port.map atoi).getD serverPort)⟩

/-- The port that the TCP client binds, if any, and whom it connects to. -/
def tcpMain (args : List Bytes) : Except Fault (Option UInt16 × SockAddr) := do
  let cliPort := (args[0]?.map atoi).getD 0
  let addr ← servAddr args[1]? args[2]? 8080
  .ok (if cliPort ≠ 0 then some (htons cliPort) else none, addr)

/-- Whom the UDP client sends to. -/
def udpMain (args : List Bytes) : Except Fault SockAddr := servAddr args[0]? args[1]? 1234

/-! ## Texts of numbers and addresses -/

theorem decimal_of_lt {n : ℕ} (h : n < 10) : decimal n = [UInt8.ofNat (48 + n)] := by
  interval_cases n <;> decide

theorem decimal_step {n : ℕ} (h : 10 ≤ n) :
    decimal n = decimal (n / 10) ++ [UInt8.ofNat (48 + n % 10)] := by
  have hn : n ≠ 0 := by omega
  have hdiv : n / 10 ≠ 0 := by omega
  rw [decimal, if_neg hn, decimal, if_neg hdiv, Nat.digits_def' (by decide) (by omega)]
  simp

theorem two_lt_length_decimal {n : ℕ} : 2 < (decimal n).length ↔ 100 ≤ n := by
  by_cases hn : n = 0
  · subst hn
    decide
  · rw [decimal, if_neg hn, List.length_map, List.length_reverse,
      Nat.lt_digits_length_iff (by decide)]
    norm_num

theorem isDigit_ofNat {d : ℕ} (h : d < 10) : isDigit (UInt8.ofNat (48 + d)) = true := by
  interval_cases d <;> decide

theorem toNat_digit {d : ℕ} (h : d < 10) : (UInt8.ofNat (48 + d)).toNat - 48 = d := by
  interval_cases d <;> decide

/-- A number that is no more than 255 is read as it was written. -/
theorem scan_decimal {octets : List ℕ} (ho : octets.length < 4) {n : ℕ} (hn : n ≤ 255)
    (s : Bytes) : scan octets none (decimal n ++ s) = scan octets (some n) s := by
  induction n using Nat.strong_induction_on generalizing s with
  | _ n ih =>
    by_cases hsmall : n < 10
    · rw [decimal_of_lt hsmall, List.singleton_append, scan, scanChar,
        if_pos (isDigit_ofNat hsmall), toNat_digit hsmall]
      simp [ho]
    · have hmod : n % 10 < 10 := Nat.mod_lt n (by decide)
      have hvalue : 10 * (n / 10) + n % 10 = n := Nat.div_add_mod n 10
      have hgo : ¬(n / 10 = 0 ∨ 255 < n) := by omega
      rw [decimal_step (by omega), List.append_assoc, ih (n / 10) (by omega) (by omega),
        List.singleton_append, scan, scanChar, if_pos (isDigit_ofNat hmod), toNat_digit hmod]
      rw [hvalue, if_neg hgo]
      rfl

theorem scan_dot {octets : List ℕ} (ho : octets.length < 3) (n : ℕ) (s : Bytes) :
    scan octets (some n) (ascii "." ++ s) = scan (octets ++ [n]) none s := by
  have hdot : ascii "." = [46] := by decide
  rw [hdot, List.singleton_append, scan, scanChar, if_neg (by decide), if_pos rfl]
  simp [ho]

/-- `inet_pton` reads what `inet_ntop` writes. -/
theorem inetPton_inetNtop (addr : SockAddr) : inetPton (inetNtop addr) = addr.ip := by
  have hle (b : UInt8) : b.toNat ≤ 255 := by
    have := b.toNat_lt
    omega
  have hscan : scan [] none (inetNtop addr) =
      some [addr.ip.1.toNat, addr.ip.2.1.toNat, addr.ip.2.2.1.toNat, addr.ip.2.2.2.toNat] := by
    simp only [inetNtop, List.append_assoc]
    rw [scan_decimal (by simp) (hle _), scan_dot (by simp), scan_decimal (by simp) (hle _),
      scan_dot (by simp), scan_decimal (by simp) (hle _), scan_dot (by simp),
      ← List.append_nil (decimal _), scan_decimal (by simp) (hle _)]
    rfl
  simp [inetPton, hscan]

/-! ## What fits into `serv_ip` -/

/-- All four numbers of the address have three digits. -/
def Long (addr : SockAddr) : Prop :=
  100 ≤ addr.ip.1 ∧ 100 ≤ addr.ip.2.1 ∧ 100 ≤ addr.ip.2.2.1 ∧ 100 ≤ addr.ip.2.2.2

instance (addr : SockAddr) : Decidable (Long addr) := inferInstanceAs (Decidable (_ ∧ _))

theorem strcpy_inetNtop (addr : SockAddr) :
    strcpy (inetNtop addr) = if Long addr then .error .overrun else .ok (inetNtop addr) := by
  have hlong (b : UInt8) : (decimal b.toNat).length = 3 ↔ 100 ≤ b := by
    have hle : (decimal b.toNat).length ≤ 3 :=
      length_decimal_le (by decide) (by have := b.toNat_lt; omega)
    have hlt := two_lt_length_decimal (n := b.toNat)
    have hnum : (100 : UInt8).toNat = 100 := by decide
    rw [UInt8.le_iff_toNat_le, hnum]
    omega
  have hle (b : UInt8) : (decimal b.toNat).length ≤ 3 :=
    length_decimal_le (by decide) (by have := b.toNat_lt; omega)
  have hdot : (ascii ".").length = 1 := by decide
  have hfits : (inetNtop addr).length + 1 ≤ servIpSize ↔ ¬Long addr := by
    have h1 := hle addr.ip.1
    have h2 := hle addr.ip.2.1
    have h3 := hle addr.ip.2.2.1
    have h4 := hle addr.ip.2.2.2
    simp only [Long, ← hlong, inetNtop, List.length_append, hdot, servIpSize]
    omega
  simp only [strcpy, hfits, ite_not]

theorem htons_port (port : UInt16) : htons port.toNat = port := by
  have hlt := port.toNat_lt
  have hmod : ((port.toNat : ℤ) % 65536).toNat = port.toNat := by omega
  rw [htons, hmod, UInt16.ofNat_toNat]

/-- Given the usual texts of an address and of ports, both clients turn to that address,
and the TCP client binds its port unless that is 0; but `serv_ip` is a byte too short for
an address of four numbers of three digits. -/
theorem client_address (addr : SockAddr) (port : UInt16) :
    tcpMain [decimal port.toNat, inetNtop addr, decimal addr.port.toNat] =
      (if Long addr then .error .overrun
        else .ok (if port ≠ 0 then some port else none, addr)) ∧
    udpMain [inetNtop addr, decimal addr.port.toNat] =
      if Long addr then .error .overrun else .ok addr := by
  have hserv (serverPort : ℤ) :
      servAddr (some (inetNtop addr)) (some (decimal addr.port.toNat)) serverPort =
        if Long addr then .error .overrun else .ok addr := by
    simp only [servAddr, strcpy_inetNtop]
    split_ifs
    · rfl
    · have hread := inetPton_inetNtop addr
      simp only [Option.map_some, Option.getD_some, atoi_decimal, htons_port]
      change Except.ok (SockAddr.mk (inetPton (inetNtop addr)) addr.port) = .ok addr
      rw [hread]
  refine ⟨?_, hserv 1234⟩
  simp only [tcpMain, List.getElem?_cons_zero, List.getElem?_cons_succ, hserv, Option.map_some,
    Option.getD_some, atoi_decimal, htons_port]
  have hport : ((port.toNat : ℤ) ≠ 0) ↔ port ≠ 0 := by
    rw [ne_eq, ne_eq, Int.natCast_eq_zero, ← UInt16.toNat_inj]
    rfl
  simp only [hport]
  split_ifs <;> rfl

end AcademyLab.Echo.Address
