import Hseos.Lib.Groups
import Hseos.Sockets.Types

/-! # Reading back a printed address

The text of an address ends with the only colon its port could be split at, so the host part reaches
`inet_pton` whole. The port does not always survive: it is compared with `SHRT_MAX`, not with the
greatest port, and a pointer that nothing has set is compared with `NULL`.
-/

namespace Hseos.Sockets

open Numeral

/-- What a socket address stands for, with the port in host order. -/
inductive Endpoint where
  | v4 (address : BitVec 32) (port : BitVec 16)
  | v6 (address : BitVec 128) (port : BitVec 16)
deriving DecidableEq

def Endpoint.port : Endpoint → BitVec 16
  | .v4 _ port | .v6 _ port => port

/-- The endpoint an address structure holds; nothing for other families. -/
def Addr.endpoint (addr : Addr) : Option Endpoint :=
  if addr.family = afInet then some (.v4 addr.sinAddr (swapBytes addr.port))
  else if addr.family = afInet6 then some (.v6 addr.sin6Addr (swapBytes addr.port))
  else none

/-- What the program relies on of the conversions. -/
structure Inet.Documented (inet : Inet) : Prop where
  pton4_ntop4 : ∀ a, inet.pton4 (inet.ntop4 a) = some a
  pton6_ntop6 : ∀ a, inet.pton6 (inet.ntop6 a) = some a
  pton6_ntop4 : ∀ a, inet.pton6 (inet.ntop4 a) = none
  length_ntop4 : ∀ a, (inet.ntop4 a).length < inetAddrStrLen
  length_ntop6 : ∀ a, (inet.ntop6 a).length < inet6AddrStrLen
  bracket_ntop4 : ∀ a, openBracket ∉ inet.ntop4 a
  bracket_ntop6 : ∀ a, openBracket ∉ inet.ntop6 a

/-- Printing an address and reading the text succeed and give the endpoint back, with this left in
`err` and in both destinations before. -/
def RoundTrips (inet : Inet) (err : ℕ) (string : List (BitVec 8)) (dest addr : Addr) : Prop :=
  ∃ text back, eoAddrToStr inet addr string = .ok (0, text) ∧
    eoParseAddrPort inet err text dest = (0, back) ∧ back.endpoint = addr.endpoint

theorem swapBytes_swapBytes (port : BitVec 16) : swapBytes (swapBytes port) = port := by
  simp only [swapBytes]
  grind

section Parse

variable {inet : Inet} {err : ℕ} {host s : List (BitVec 8)} {port : BitVec 16} {dest : Addr}

theorem colon_not_mem_numeral (n : ℕ) : colon ∉ numeral 10 n := by
  intro member
  exact absurd (isDigit_of_mem member) (by decide)

/-- The loop stops at the last colon below its bound. -/
theorem findColon_last {i n : ℕ} (below : i < n) (here : s[i]? = some colon)
    (after : ∀ j, i < j → j < n → s[j]? ≠ some colon) : findColon s n = some i := by
  induction n with
  | zero => exact absurd below (Nat.not_lt_zero i)
  | succ n ih =>
    rw [findColon]
    rcases Nat.lt_succ_iff_lt_or_eq.mp below with earlier | rfl
    · rw [if_neg (after n earlier (Nat.lt_succ_self n))]
      exact ih earlier fun j low high => after j low (Nat.lt_succ_of_lt high)
    · exact if_pos here

theorem findColon_append {rest : List (BitVec 8)} (absent : colon ∉ rest) :
    findColon (host ++ colon :: rest) (host ++ colon :: rest).length = some host.length := by
  apply findColon_last
  · rw [List.length_append, List.length_cons]
    omega
  · rw [List.getElem?_append_right (Nat.le_refl _), Nat.sub_self]
    rfl
  · intro j later _ found
    obtain ⟨k, rfl⟩ := Nat.exists_eq_add_of_lt later
    rw [List.getElem?_append_right (by omega), Nat.add_assoc, Nat.add_sub_cancel_left] at found
    exact absent (List.mem_of_getElem? found)

/-- What is read of a printed address. -/
theorem eoParseAddrPort_printed (inet : Inet) (err : ℕ) (host : List (BitVec 8)) (port : BitVec 16)
    (dest : Addr) :
    eoParseAddrPort inet err (host ++ colon :: numeral 10 port.toNat) dest =
      if port = 0 ∨ 32767 < port.toNat ∨ err ≠ 0 then (-1, dest)
      else eoParseAddrLimited inet (host ++ colon :: numeral 10 port.toNat) host.length port dest := by
  have small := port.isLt
  have digits : (host ++ colon :: numeral 10 port.toNat).drop (host.length + 1) =
      numeral 10 port.toNat := by
    rw [List.drop_append, List.drop_of_length_le (by omega), Nat.add_sub_cancel_left]
    rfl
  have zero : port = 0 ↔ port.toNat = 0 := BitVec.toNat_eq
  simp only [eoParseAddrPort, findColon_append (colon_not_mem_numeral port.toNat), digits,
    atoi_numeral (n := port.toNat) (by omega), shrtMax, BitVec.ofInt_natCast, BitVec.ofNat_toNat,
    BitVec.setWidth_eq, zero]
  split_ifs <;> first | rfl | omega

/-- A host without brackets that fits the buffer reaches the conversions whole. -/
theorem host_whole {rest : List (BitVec 8)} (plain : openBracket ∉ host) :
    ¬(host.length ≥ 2 ∧ (host ++ rest)[0]? = some openBracket ∧
      (host ++ rest)[host.length - 1]? = some closeBracket) := by
  rintro ⟨long, first, _⟩
  rw [List.getElem?_append_left (by omega)] at first
  exact plain (List.mem_of_getElem? first)

theorem eoParseAddrLimited_v6 {rest : List (BitVec 8)} {address : BitVec 128}
    (short : host.length < inet6AddrStrLen) (plain : openBracket ∉ host)
    (found : inet.pton6 host = some address) :
    eoParseAddrLimited inet (host ++ rest) host.length port dest =
      (0, { dest with sin6Addr := address, port := swapBytes port, family := afInet6 }) := by
  simp only [eoParseAddrLimited, if_neg (Nat.not_lt.mpr (Nat.le_of_lt short)),
    if_neg (host_whole plain), List.take_left', found]

theorem eoParseAddrLimited_v4 {rest : List (BitVec 8)} {address : BitVec 32}
    (short : host.length < inet6AddrStrLen) (plain : openBracket ∉ host)
    (other : inet.pton6 host = none) (found : inet.pton4 host = some address) :
    eoParseAddrLimited inet (host ++ rest) host.length port dest =
      (0, { dest with sinAddr := address, port := swapBytes port, family := afInet }) := by
  simp only [eoParseAddrLimited, if_neg (Nat.not_lt.mpr (Nat.le_of_lt short)),
    if_neg (host_whole plain), List.take_left', other, found]

end Parse

section Print

variable {inet : Inet} {addr : Addr} {endpoint : Endpoint}

/-- The text of the host part of an endpoint. -/
def Endpoint.host (inet : Inet) : Endpoint → List (BitVec 8)
  | .v4 address _ => inet.ntop4 address
  | .v6 address _ => inet.ntop6 address

theorem length_host (documented : inet.Documented) (endpoint : Endpoint) :
    (endpoint.host inet).length < inet6AddrStrLen := by
  cases endpoint with
  | v4 address port => exact Nat.lt_trans (documented.length_ntop4 address) (by decide)
  | v6 address port => exact documented.length_ntop6 address

theorem printAddr_host (documented : inet.Documented) (endpoint : Endpoint) :
    printAddr (endpoint.host inet) endpoint.port =
      .ok (endpoint.host inet ++ colon :: numeral 10 endpoint.port.toNat) := by
  have small := endpoint.port.isLt
  have digits : (numeral 10 endpoint.port.toNat).length ≤ 5 :=
    (length_numeral_le_iff (by decide) (by decide)).mpr (by omega)
  have host := length_host documented endpoint
  apply if_pos
  rw [List.length_append, List.length_cons, eoAddrLen, inet6AddrStrLen] at *
  omega

/-- What is printed of an endpoint. -/
theorem eoAddrToStr_printed (documented : inet.Documented) (stands : addr.endpoint = some endpoint)
    (string : List (BitVec 8)) :
    eoAddrToStr inet addr string =
      .ok (0, endpoint.host inet ++ colon :: numeral 10 endpoint.port.toNat) := by
  have printed := printAddr_host documented endpoint
  rw [Addr.endpoint] at stands
  split_ifs at stands with v4 v6
  · cases stands
    have fits := documented.length_ntop4 addr.sinAddr
    simp only [eoAddrToStr, eoIsV4Addr, v4, decide_true, if_true, inetNtop, if_pos fits]
    simp only [Endpoint.host, Endpoint.port] at printed
    rw [printed]
    rfl
  · cases stands
    have fits := documented.length_ntop6 addr.sin6Addr
    simp only [eoAddrToStr, eoIsV4Addr, eoIsV6Addr, v6, decide_true, if_true, inetNtop, if_pos fits]
    simp only [Endpoint.host, Endpoint.port] at printed
    rw [printed]
    rfl

/-- A printed host is read back with any port. -/
theorem eoParseAddrLimited_endpoint (documented : inet.Documented) (endpoint : Endpoint)
    (rest : List (BitVec 8)) (dest : Addr) :
    ∃ back, eoParseAddrLimited inet (endpoint.host inet ++ rest) (endpoint.host inet).length
        endpoint.port dest = (0, back) ∧ back.endpoint = some endpoint := by
  have short := length_host documented endpoint
  cases endpoint with
  | v4 address port =>
    refine ⟨_, eoParseAddrLimited_v4 short (documented.bracket_ntop4 address)
      (documented.pton6_ntop4 address) (documented.pton4_ntop4 address), ?_⟩
    simp only [Addr.endpoint, if_true, swapBytes_swapBytes, Endpoint.port]
  | v6 address port =>
    refine ⟨_, eoParseAddrLimited_v6 short (documented.bracket_ntop6 address)
      (documented.pton6_ntop6 address), ?_⟩
    have other : afInet6 ≠ afInet := by decide
    simp only [Addr.endpoint, if_neg other, if_true, swapBytes_swapBytes, Endpoint.port]

/-- Other ports are refused, and all of them when `err` is not `NULL`. -/
theorem not_roundTrips (documented : inet.Documented) (stands : addr.endpoint = some endpoint)
    {err : ℕ} {string : List (BitVec 8)} {dest : Addr}
    (refused : endpoint.port = 0 ∨ 32767 < endpoint.port.toNat ∨ err ≠ 0) :
    ¬RoundTrips inet err string dest addr := by
  rintro ⟨text, back, toStr, parse, _⟩
  cases (eoAddrToStr_printed documented stands string).symm.trans toStr
  rw [eoParseAddrPort_printed, if_pos refused] at parse
  cases parse

end Print

section Notation

open Groups

def dot : BitVec 8 := 0x2e

/-- The usual notation, without the abbreviation of zeros. -/
def plainInet : Inet where
  ntop4 a := write 10 dot 256 4 a.toNat
  ntop6 a := write 16 colon 65536 8 a.toNat
  pton4 text := (read 10 dot 256 4 text).map (BitVec.ofNat 32)
  pton6 text := (read 16 colon 65536 8 text).map (BitVec.ofNat 128)

theorem plainInet_documented : plainInet.Documented where
  pton4_ntop4 a := by
    have back : read 10 dot 256 4 (write 10 dot 256 4 a.toNat) = some a.toNat :=
      read_write dot (by decide) (by decide) (by decide) (by decide) a.isLt
    simp only [plainInet, back, Option.map_some, BitVec.ofNat_toNat, BitVec.setWidth_eq]
  pton6_ntop6 a := by
    have back : read 16 colon 65536 8 (write 16 colon 65536 8 a.toNat) = some a.toNat :=
      read_write colon (by decide) (by decide) (by decide) (by decide) a.isLt
    simp only [plainInet, back, Option.map_some, BitVec.ofNat_toNat, BitVec.setWidth_eq]
  pton6_ntop4 a := by
    have absent : colon ∉ write 10 dot 256 4 a.toNat :=
      not_mem_write (by decide) (by decide) (by decide)
    exact congrArg (Option.map _) (read_of_not_mem (by decide) absent)
  length_ntop4 a := by
    have bound : (write 10 dot 256 4 a.toNat).length ≤ 4 * (3 + 1) - 1 :=
      length_write dot 4 a.toNat (by decide) (by decide) (by decide) (by decide)
    exact Nat.lt_succ_of_le bound
  length_ntop6 a := by
    have bound : (write 16 colon 65536 8 a.toNat).length ≤ 8 * (4 + 1) - 1 :=
      length_write colon 8 a.toNat (by decide) (by decide) (by decide) (by decide)
    exact Nat.lt_of_le_of_lt bound (by decide)
  bracket_ntop4 a := not_mem_write (by decide) (by decide) (by decide)
  bracket_ntop6 a := not_mem_write (by decide) (by decide) (by decide)

/-- `127.0.0.1` with this port. -/
def loopback (port : BitVec 16) : Addr := ⟨afInet, swapBytes port, 0x7f000001, 0⟩

end Notation

/-- A printed address is read back exactly when its port is between 1 and `SHRT_MAX` and `err` happens
to hold `NULL`. -/
theorem addr_round_trip_iff {inet : Inet} (documented : inet.Documented) (err : ℕ)
    (string : List (BitVec 8)) (dest addr : Addr) {endpoint : Endpoint}
    (stands : addr.endpoint = some endpoint) :
    RoundTrips inet err string dest addr ↔
      err = 0 ∧ 1 ≤ endpoint.port.toNat ∧ (endpoint.port.toNat : ℤ) ≤ shrtMax := by
  have zero : endpoint.port = 0 ↔ endpoint.port.toNat = 0 := BitVec.toNat_eq
  rw [shrtMax]
  constructor
  · intro trip
    have accepted := mt (not_roundTrips documented stands) (not_not.mpr trip)
    rw [zero] at accepted
    omega
  · rintro ⟨rfl, positive, small⟩
    obtain ⟨back, limited, same⟩ := eoParseAddrLimited_endpoint documented endpoint
      (colon :: numeral 10 endpoint.port.toNat) dest
    refine ⟨_, back, eoAddrToStr_printed documented stands string, ?_, same.trans stands.symm⟩
    rw [eoParseAddrPort_printed, if_neg (by rw [zero]; omega)]
    exact limited

/-- Port 8080 is read back. -/
theorem addr_round_trip_iff_loopback : RoundTrips plainInet 0 [] (loopback 0) (loopback 8080) := by
  have stands : (loopback 8080).endpoint = some (.v4 0x7f000001 8080) := by decide
  exact (addr_round_trip_iff plainInet_documented 0 [] (loopback 0) (loopback 8080) stands).mpr
    (by decide)

/-- Port 40000 is never read back, and port 8080 is not when `err` is not `NULL`. -/
theorem addr_round_trip_lost : plainInet.Documented ∧
    (loopback 40000).endpoint = some (.v4 0x7f000001 40000) ∧
    ¬RoundTrips plainInet 0 [] (loopback 0) (loopback 40000) ∧
    (loopback 8080).endpoint = some (.v4 0x7f000001 8080) ∧
    ¬RoundTrips plainInet 1 [] (loopback 0) (loopback 8080) := by
  have high : (loopback 40000).endpoint = some (.v4 0x7f000001 40000) := by decide
  have low : (loopback 8080).endpoint = some (.v4 0x7f000001 8080) := by decide
  refine ⟨plainInet_documented, high, ?_, low, ?_⟩
  · exact not_roundTrips plainInet_documented high (.inr (.inl (by decide)))
  · exact not_roundTrips plainInet_documented low (.inr (.inr (by decide)))

end Hseos.Sockets
