import Hseos.Lib.Numeral

/-! # Socket addresses and their text

`eo_addr_to_str` prints an address and its port with a colon between them; `eo_parse_addr_port` splits
a text at its last colon. A string is the list of its bytes before the NUL. The conversions of
`<arpa/inet.h>` are parameters; the hosts are little-endian.
-/

namespace Hseos.Sockets

open Numeral

def colon : BitVec 8 := 0x3a

def openBracket : BitVec 8 := 0x5b

def closeBracket : BitVec 8 := 0x5d

def afInet : BitVec 16 := 2

def afInet6 : BitVec 16 := 10

def inetAddrStrLen : ℕ := 16

def inet6AddrStrLen : ℕ := 46

def eoAddrLen : ℕ := inet6AddrStrLen + 18

def shrtMax : ℤ := 32767

/-- `htons` and `ntohs`. -/
def swapBytes (port : BitVec 16) : BitVec 16 := port.rotateLeft 8

/-- `inet_ntop` without its limit and `inet_pton`, for both families. -/
structure Inet where
  ntop4 : BitVec 32 → List (BitVec 8)
  ntop6 : BitVec 128 → List (BitVec 8)
  pton4 : List (BitVec 8) → Option (BitVec 32)
  pton6 : List (BitVec 8) → Option (BitVec 128)

/-- `eo_addr_t`. The ports of both families share their place, their addresses do not. Ports and
addresses are in network order. -/
structure Addr where
  family : BitVec 16
  port : BitVec 16
  sinAddr : BitVec 32
  sin6Addr : BitVec 128
deriving DecidableEq

/-- `inet_ntop` into a buffer of zeros: the string in it afterwards, which is empty when the text and
its NUL do not fit. -/
def inetNtop (text : List (BitVec 8)) (size : ℕ) : List (BitVec 8) :=
  if text.length < size then text else []

/-- `eo_parse_addr_limited`: the value returned and `*dest`, which a failed `inet_pton` leaves as it
was. -/
def eoParseAddrLimited (inet : Inet) (s : List (BitVec 8)) (n : ℕ) (port : BitVec 16) (dest : Addr) :
    ℤ × Addr :=
  let n := if n > inet6AddrStrLen then inet6AddrStrLen else n
  let (s, n) :=
    if n ≥ 2 ∧ s[0]? = some openBracket ∧ s[n - 1]? = some closeBracket then (s.drop 1, n - 2)
    else (s, n)
  let buf := s.take n
  match inet.pton6 buf with
  | some address =>
      (0, { dest with sin6Addr := address, port := swapBytes port, family := afInet6 })
  | none =>
      match inet.pton4 buf with
      | some address =>
          (0, { dest with sinAddr := address, port := swapBytes port, family := afInet })
      | none => (-1, dest)

/-- `eo_parse_addr`. -/
def eoParseAddr (inet : Inet) (s : List (BitVec 8)) (port : BitVec 16) (dest : Addr) : ℤ × Addr :=
  eoParseAddrLimited inet s s.length port dest

/-- The loop of `eo_parse_addr_port` with `i` starting below a bound: where it finds a colon. -/
def findColon (s : List (BitVec 8)) : ℕ → Option ℕ
  | 0 => none
  | i + 1 => if s[i]? = some colon then some i else findColon s i

/-- `eo_parse_addr_port`. `err` is the value of the pointer that is tested and never set, with zero for
`NULL`. -/
def eoParseAddrPort (inet : Inet) (err : ℕ) (s : List (BitVec 8)) (dest : Addr) : ℤ × Addr :=
  match findColon s s.length with
  | none => (-1, dest)
  | some i =>
      let value := atoi (s.drop (i + 1))
      if value ≤ 0 ∨ value > shrtMax then (-1, dest)
      else
        let port := BitVec.ofInt 16 value
        if err ≠ 0 then (-1, dest)
        else eoParseAddrLimited inet s i port dest

def eoIsV4Addr (addr : Addr) : Bool := addr.family = afInet

def eoIsV6Addr (addr : Addr) : Bool := addr.family = afInet6

/-- `sprintf` into `*dest`, which has `EO_ADDR_LEN` bytes. -/
def printAddr (buf : List (BitVec 8)) (port : BitVec 16) : Except Fault (List (BitVec 8)) :=
  let text := buf ++ colon :: numeral 10 port.toNat
  if text.length < eoAddrLen then .ok text else .error .outOfBounds

/-- `eo_addr_to_str`: the value returned and the string in `*dest`. -/
def eoAddrToStr (inet : Inet) (addr : Addr) (dest : List (BitVec 8)) :
    Except Fault (ℤ × List (BitVec 8)) := do
  if eoIsV4Addr addr then
    let text ← printAddr (inetNtop (inet.ntop4 addr.sinAddr) inetAddrStrLen) (swapBytes addr.port)
    return (0, text)
  else if eoIsV6Addr addr then
    let text ← printAddr (inetNtop (inet.ntop6 addr.sin6Addr) inet6AddrStrLen) (swapBytes addr.port)
    return (0, text)
  else return (-1, dest)

end Hseos.Sockets
