import Hseos.Sockets.HostText
import Hseos.Sockets.RoundTrip

/-! # The port part of a text

`eo_parse_addr_port` splits its text at the last colon and reads the port with `atoi`, which skips blanks
and a sign, stops at the first character that is no digit, and takes the number modulo `2 ^ 32`. So not
only digits that stand for a port are taken for one.
-/

namespace Hseos.Sockets

open Numeral

variable {inet : Inet} {err : ℕ} {s host tail : List (BitVec 8)} {dest : Addr}

/-- If a text is accepted, it is a host, a colon and digits, and the structure holds the address of the
host and the number of the digits. -/
def PortSound (inet : Inet) (err : ℕ) (s : List (BitVec 8)) (dest : Addr) : Prop :=
  (eoParseAddrPort inet err s dest).1 = 0 → ∃ host digits t, s = host ++ colon :: digits ∧
    digits ≠ [] ∧ (∀ c ∈ digits, isDigit c = true) ∧ IsHost host t ∧
    inet.Holds t (eoParseAddrPort inet err s dest).2 ∧
    (swapBytes (eoParseAddrPort inet err s dest).2.port).toNat = value 10 digits

/-- `atoi` reads a number from 1 to `SHRT_MAX`. -/
def TakenForPort (tail : List (BitVec 8)) : Prop := 1 ≤ atoi tail ∧ atoi tail ≤ shrtMax

instance (tail : List (BitVec 8)) : Decidable (TakenForPort tail) :=
  inferInstanceAs (Decidable (1 ≤ atoi tail ∧ atoi tail ≤ shrtMax))

/-- Decimal digits of a number up to `SHRT_MAX`, and nothing else. -/
def PortDigits (tail : List (BitVec 8)) : Prop :=
  tail ≠ [] ∧ (∀ c ∈ tail, isDigit c = true) ∧ (value 10 tail : ℤ) ≤ shrtMax

section Split

/-- A text with a colon has a last one. -/
theorem exists_last_colon (member : colon ∈ s) :
    ∃ host tail, s = host ++ colon :: tail ∧ colon ∉ tail := by
  obtain ⟨before, after, split, absent⟩ := List.eq_append_cons_of_mem (List.mem_reverse.mpr member)
  refine ⟨after.reverse, before.reverse, ?_, fun inside => absent (List.mem_reverse.mp inside)⟩
  rw [← List.reverse_reverse s, split]
  simp

/-- There is one last colon only. -/
theorem last_colon_unique {host' tail' : List (BitVec 8)}
    (same : host ++ colon :: tail = host' ++ colon :: tail') (absent : colon ∉ tail)
    (absent' : colon ∉ tail') : host = host' ∧ tail = tail' := by
  have first : findColon (host ++ colon :: tail) (host ++ colon :: tail).length = some host.length :=
    findColon_append absent
  rw [same, findColon_append absent'] at first
  obtain ⟨hosts, tails⟩ := List.append_inj same (Option.some.inj first).symm
  exact ⟨hosts, (List.cons.inj tails).2⟩

theorem findColon_none (absent : colon ∉ s) (n : ℕ) : findColon s n = none := by
  induction n with
  | zero => rfl
  | succ n ih =>
    rw [findColon, if_neg fun found => absent (List.mem_of_getElem? found), ih]

theorem colon_not_mem_digits (digits : ∀ c ∈ tail, isDigit c = true) : colon ∉ tail :=
  fun member => absurd (digits colon member) (by decide)

end Split

theorem eoParseAddrPort_split (absent : colon ∉ tail) :
    eoParseAddrPort inet err (host ++ colon :: tail) dest =
      if TakenForPort tail ∧ err = 0 then
        eoParseAddrLimited inet (host ++ colon :: tail) host.length (BitVec.ofInt 16 (atoi tail)) dest
      else (-1, dest) := by
  have dropped : (host ++ colon :: tail).drop (host.length + 1) = tail := by
    rw [List.drop_append, List.drop_of_length_le (by omega), Nat.add_sub_cancel_left]
    rfl
  simp only [eoParseAddrPort, findColon_append absent, dropped]
  by_cases taken : TakenForPort tail ∧ err = 0
  · obtain ⟨⟨low, high⟩, null⟩ := taken
    rw [if_neg (by omega), if_neg (not_not.mpr null), if_pos ⟨⟨low, high⟩, null⟩]
  · rw [if_neg taken]
    rw [TakenForPort] at taken
    split_ifs
    · rfl
    · rfl
    · omega

/-- The text is accepted if a number is read in front of the port and the host reaches `inet_pton` in a
form it accepts. -/
theorem eoParseAddrPort_zero_iff (absent : colon ∉ tail) :
    (eoParseAddrPort inet err (host ++ colon :: tail) dest).1 = 0 ↔
      (TakenForPort tail ∧ err = 0) ∧ inet.Accepts (hostBuffer host) := by
  rw [eoParseAddrPort_split absent]
  split_ifs with taken
  · rw [eoParseAddrLimited_zero_iff (by simp), List.take_left, and_iff_right taken]
  · exact iff_of_false (show ¬(-1 : ℤ) = 0 by decide) fun both => taken both.1

/-- An accepted text gives the address in the buffer and the number that was read. -/
theorem eoParseAddrPort_holds (absent : colon ∉ tail)
    (accepted : (eoParseAddrPort inet err (host ++ colon :: tail) dest).1 = 0) :
    inet.Holds (hostBuffer host) (eoParseAddrPort inet err (host ++ colon :: tail) dest).2 ∧
      ((swapBytes (eoParseAddrPort inet err (host ++ colon :: tail) dest).2.port).toNat : ℤ) = atoi tail := by
  have taken := ((eoParseAddrPort_zero_iff absent).mp accepted).1
  rw [eoParseAddrPort_split absent, if_pos taken] at accepted ⊢
  obtain ⟨holds, port⟩ := eoParseAddrLimited_holds (by simp) accepted
  rw [List.take_left] at holds
  refine ⟨holds, ?_⟩
  obtain ⟨low, high⟩ := taken.1
  rw [shrtMax] at high
  rw [port, swapBytes_swapBytes, BitVec.toNat_ofInt]
  omega

/-- A text is accepted for what it says exactly when these conditions hold: if `err` is `NULL`, the tail is
taken for a port and the host for an address, then the tail is all digits of a number up to `SHRT_MAX` and
the host does not go on behind a bracketed address of 44 characters. -/
theorem port_sound_iff (limited : inet.Limited) (err : ℕ) (s : List (BitVec 8)) (dest : Addr) :
    PortSound inet err s dest ↔
      ∀ host tail, s = host ++ colon :: tail → colon ∉ tail → err = 0 → TakenForPort tail →
        inet.Accepts (hostBuffer host) → PortDigits tail ∧ ¬GoesOn inet host := by
  constructor
  · rintro sound host tail rfl absent null taken accepts
    have accepted : (eoParseAddrPort inet err (host ++ colon :: tail) dest).1 = 0 :=
      (eoParseAddrPort_zero_iff absent).mpr ⟨⟨taken, null⟩, accepts⟩
    have number := (eoParseAddrPort_holds absent accepted).2
    obtain ⟨host', digits, t, same, nonempty, all, is_host, holds, port⟩ := sound accepted
    obtain ⟨rfl, rfl⟩ := last_colon_unique same absent (colon_not_mem_digits all)
    refine ⟨⟨nonempty, all, ?_⟩, fun goes_on => ?_⟩
    · rw [← port, number]
      exact taken.2
    · exact (goes_on.hostBuffer limited).2 t is_host (holds.accepts)
  · intro exact_ accepted
    by_cases member : colon ∈ s
    · obtain ⟨host, tail, rfl, absent⟩ := exists_last_colon member
      obtain ⟨⟨taken, null⟩, accepts⟩ := (eoParseAddrPort_zero_iff absent).mp accepted
      obtain ⟨⟨nonempty, all, small⟩, ends⟩ := exact_ host tail rfl absent null taken accepts
      obtain ⟨holds, number⟩ := eoParseAddrPort_holds absent accepted
      rw [shrtMax] at small
      rw [atoi_digits nonempty all (by omega)] at number
      exact ⟨host, tail, _, rfl, nonempty, all, isHost_hostBuffer limited accepts ends, holds,
        Int.ofNat_inj.mp number⟩
    · rw [eoParseAddrPort, findColon_none member] at accepted
      exact absurd accepted (show ¬(-1 : ℤ) = 0 by decide)

/-- The loopback address with port 80. -/
theorem port_sound_loopback :
    (literalInet (characters "::1") 1).Limited ∧
    PortSound (literalInet (characters "::1") 1) 0 (characters "[::1]:80") ⟨0, 0, 0, 0⟩ := by
  have limited : (literalInet (characters "::1") 1).Limited :=
    literalInet_limited (by decide) (by decide)
  refine ⟨limited, (port_sound_iff limited _ _ _).mpr ?_⟩
  intro host tail same absent _ _ _
  obtain ⟨rfl, rfl⟩ := last_colon_unique
    (show host ++ colon :: tail = characters "[::1]" ++ colon :: characters "80" from same.symm) absent
    (by decide)
  refine ⟨⟨by decide, by decide, by decide⟩, fun goes_on => ?_⟩
  exact absurd goes_on.length_lt (by decide)

/-- Behind the digits of the port anything is accepted, and `2 ^ 32 + 80` is accepted as 80. -/
theorem port_not_sound :
    ¬PortSound (literalInet (characters "::1") 1) 0 (characters "[::1]:80x") ⟨0, 0, 0, 0⟩ ∧
    ¬PortSound (literalInet (characters "::1") 1) 0 (characters "[::1]:4294967376") ⟨0, 0, 0, 0⟩ := by
  constructor
  · intro sound
    obtain ⟨host, digits, t, same, _, all, _⟩ := sound (by decide)
    obtain ⟨_, rfl⟩ := last_colon_unique
      (show host ++ colon :: digits = characters "[::1]" ++ colon :: characters "80x" from same.symm)
      (colon_not_mem_digits all) (by decide)
    exact absurd all (by decide)
  · intro sound
    obtain ⟨host, digits, t, same, _, all, _, _, port⟩ := sound (by decide)
    obtain ⟨_, rfl⟩ := last_colon_unique
      (show host ++ colon :: digits = characters "[::1]" ++ colon :: characters "4294967376" from same.symm)
      (colon_not_mem_digits all) (by decide)
    exact absurd port (by decide)

end Hseos.Sockets
