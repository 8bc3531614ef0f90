import Hseos.Sockets.Types
import Mathlib.Data.List.Infix

/-! # The host part of a text

`eo_parse_addr_limited` cuts its text to `INET6_ADDRSTRLEN` characters before it looks for the closing
bracket. A bracketed address of the greatest length is two characters longer than what is kept of it, so
its bracket is cut off; and a text that goes on behind a shorter bracketed address loses the rest instead
of being refused. For all other texts what reaches `inet_pton` is the whole text, or the whole text
between its brackets.
-/

namespace Hseos.Sockets

variable {inet : Inet} {s t host : List (BitVec 8)} {n : ℕ} {port : BitVec 16} {dest : Addr}

/-- `inet_pton` accepts the text for one of the families. -/
def Inet.Accepts (inet : Inet) (t : List (BitVec 8)) : Prop :=
  inet.pton6 t ≠ none ∨ inet.pton4 t ≠ none

/-- The text is the whole of `s`, or the whole of `s` without one pair of brackets. -/
def IsHost (s t : List (BitVec 8)) : Prop := t = s ∨ s = openBracket :: t ++ [closeBracket]

/-- The structure holds the family and the address of the text. -/
def Inet.Holds (inet : Inet) (t : List (BitVec 8)) (addr : Addr) : Prop :=
  addr.family = afInet6 ∧ inet.pton6 t = some addr.sin6Addr ∨
    addr.family = afInet ∧ inet.pton4 t = some addr.sinAddr

theorem Inet.Holds.accepts {addr : Addr} (holds : inet.Holds t addr) : inet.Accepts t := by
  rcases holds with ⟨_, six⟩ | ⟨_, four⟩
  · exact .inl (by simp [six])
  · exact .inr (by simp [four])

/-- The texts `inet_pton` accepts are shorter than `INET6_ADDRSTRLEN` and free of brackets. -/
structure Inet.Limited (inet : Inet) : Prop where
  length : ∀ t, inet.Accepts t → t.length < inet6AddrStrLen
  brackets : ∀ t, inet.Accepts t → openBracket ∉ t ∧ closeBracket ∉ t

/-- `eo_parse_addr` returns zero if and only if the text, or the text in its brackets, is accepted, and
then the structure holds that text's address and the port. -/
def ParsesWhole (inet : Inet) (s : List (BitVec 8)) (port : BitVec 16) (dest : Addr) : Prop :=
  ((eoParseAddr inet s port dest).1 = 0 ↔ ∃ t, IsHost s t ∧ inet.Accepts t) ∧
  ((eoParseAddr inet s port dest).1 = 0 → ∃ t, IsHost s t ∧
    inet.Holds t (eoParseAddr inet s port dest).2 ∧ (eoParseAddr inet s port dest).2.port = swapBytes port)

/-- The text goes on behind a bracketed address, and the cut is right behind its bracket. -/
def GoesOn (inet : Inet) (s : List (BitVec 8)) : Prop :=
  ∃ t rest, s = openBracket :: t ++ closeBracket :: rest ∧ rest ≠ [] ∧ t.length = inet6AddrStrLen - 2 ∧
    inet.Accepts t

/-- A bracketed address of the greatest length. -/
def LosesBracket (inet : Inet) (s : List (BitVec 8)) : Prop :=
  ∃ t, s = openBracket :: t ++ [closeBracket] ∧ t.length = inet6AddrStrLen - 1 ∧ inet.Accepts t

section Brackets

/-- What is left of a text without one pair of brackets around it. -/
def unbracket (s : List (BitVec 8)) : List (BitVec 8) :=
  if s.length ≥ 2 ∧ s[0]? = some openBracket ∧ s[s.length - 1]? = some closeBracket then
    (s.drop 1).take (s.length - 2)
  else s

theorem unbracket_bracketed (t : List (BitVec 8)) :
    unbracket (openBracket :: t ++ [closeBracket]) = t := by
  have length : (openBracket :: t ++ [closeBracket]).length = t.length + 2 := by simp
  rw [unbracket, length, if_pos]
  · simp
  · refine ⟨by omega, rfl, ?_⟩
    rw [show t.length + 2 - 1 = (openBracket :: t).length by simp]
    exact List.getElem?_concat_length

/-- A text is in brackets or left as it is. -/
theorem unbracket_cases (s : List (BitVec 8)) :
    s = openBracket :: unbracket s ++ [closeBracket] ∨
      unbracket s = s ∧ ∀ t, s ≠ openBracket :: t ++ [closeBracket] := by
  by_cases bracketed : ∃ t, s = openBracket :: t ++ [closeBracket]
  · obtain ⟨t, rfl⟩ := bracketed
    rw [unbracket_bracketed]
    exact .inl rfl
  · refine .inr ⟨if_neg ?_, fun t same => bracketed ⟨t, same⟩⟩
    rintro ⟨long, first, last⟩
    obtain ⟨c, rest, rfl⟩ := List.exists_cons_of_length_pos (show 0 < s.length by omega)
    obtain rfl := Option.some.inj first
    rcases List.eq_nil_or_concat rest with rfl | ⟨t, d, rfl⟩
    · simp at long
    · refine bracketed ⟨t, ?_⟩
      rw [List.concat_eq_append, List.length_cons, List.length_append, List.length_singleton,
        Nat.add_sub_cancel, List.getElem?_cons_succ, List.getElem?_concat_length] at last
      rw [Option.some.inj last, List.concat_eq_append, List.cons_append]

theorem isHost_unbracket (s : List (BitVec 8)) : IsHost s (unbracket s) := by
  rcases unbracket_cases s with bracketed | ⟨same, _⟩
  · exact .inr bracketed
  · exact .inl same

/-- An accepted text is what is left of `s` without its brackets. -/
theorem IsHost.eq_unbracket (limited : inet.Limited) (is_host : IsHost s t) (accepts : inet.Accepts t) :
    t = unbracket s := by
  rcases is_host with rfl | rfl
  · rcases unbracket_cases t with bracketed | ⟨same, _⟩
    · have first : openBracket ∈ t := by
        rw [bracketed]
        exact List.mem_cons_self
      exact absurd first (limited.brackets t accepts).1
    · exact same.symm
  · rw [unbracket_bracketed]

/-- The same on a text that is given by its length. -/
theorem unbracket_take (bound : n ≤ s.length) :
    unbracket (s.take n) =
      if n ≥ 2 ∧ s[0]? = some openBracket ∧ s[n - 1]? = some closeBracket then (s.drop 1).take (n - 2)
      else s.take n := by
  rw [unbracket, List.length_take_of_le bound]
  by_cases long : n ≥ 2
  · rw [List.getElem?_take_of_lt (by omega), List.getElem?_take_of_lt (by omega), List.drop_take,
      List.take_take, show min (n - 2) (n - 1) = n - 2 by omega]
  · rw [if_neg (fun found => long found.1), if_neg (fun found => long found.1)]

end Brackets

/-- What `eo_parse_addr_limited` copies into its buffer, of a text of the given length. -/
def hostBuffer (host : List (BitVec 8)) : List (BitVec 8) := unbracket (host.take inet6AddrStrLen)

/-- `eo_parse_addr_limited` is a matter of what reaches `inet_pton`. -/
theorem eoParseAddrLimited_eq (inet : Inet) (port : BitVec 16) (dest : Addr) (bound : n ≤ s.length) :
    eoParseAddrLimited inet s n port dest =
      match inet.pton6 (hostBuffer (s.take n)) with
      | some address => (0, { dest with sin6Addr := address, port := swapBytes port, family := afInet6 })
      | none =>
          match inet.pton4 (hostBuffer (s.take n)) with
          | some address => (0, { dest with sinAddr := address, port := swapBytes port, family := afInet })
          | none => (-1, dest) := by
  have cut : (s.take n).take inet6AddrStrLen =
      s.take (if n > inet6AddrStrLen then inet6AddrStrLen else n) := by
    rw [List.take_take]
    congr 1
    split <;> omega
  have inside : (if n > inet6AddrStrLen then inet6AddrStrLen else n) ≤ s.length := by
    split <;> omega
  rw [hostBuffer, cut, unbracket_take inside, eoParseAddrLimited]
  generalize (if n > inet6AddrStrLen then inet6AddrStrLen else n) = kept
  split_ifs <;> rfl

theorem eoParseAddrLimited_zero_iff (bound : n ≤ s.length) :
    (eoParseAddrLimited inet s n port dest).1 = 0 ↔ inet.Accepts (hostBuffer (s.take n)) := by
  rw [eoParseAddrLimited_eq inet port dest bound, Inet.Accepts]
  cases inet.pton6 (hostBuffer (s.take n)) with
  | some => simp
  | none => cases inet.pton4 (hostBuffer (s.take n)) <;> simp

theorem eoParseAddrLimited_holds (bound : n ≤ s.length)
    (accepted : (eoParseAddrLimited inet s n port dest).1 = 0) :
    inet.Holds (hostBuffer (s.take n)) (eoParseAddrLimited inet s n port dest).2 ∧
      (eoParseAddrLimited inet s n port dest).2.port = swapBytes port := by
  rw [eoParseAddrLimited_eq inet port dest bound] at accepted ⊢
  cases six : inet.pton6 (hostBuffer (s.take n)) with
  | some address => exact ⟨.inl ⟨rfl, six⟩, rfl⟩
  | none =>
    rw [six] at accepted
    cases four : inet.pton4 (hostBuffer (s.take n)) with
    | some address => exact ⟨.inr ⟨rfl, four⟩, rfl⟩
    | none =>
      rw [four] at accepted
      cases accepted

/-- What is accepted in the buffer is the whole host, or the host goes on behind it. -/
theorem isHost_hostBuffer (limited : inet.Limited) (accepts : inet.Accepts (hostBuffer host))
    (ends : ¬GoesOn inet host) : IsHost host (hostBuffer host) := by
  have short := limited.length _ accepts
  rcases Nat.lt_or_ge inet6AddrStrLen host.length with long | fits
  · have length : (host.take inet6AddrStrLen).length = inet6AddrStrLen := List.length_take_of_le long.le
    rcases unbracket_cases (host.take inet6AddrStrLen) with bracketed | ⟨same, _⟩
    · have inner := congrArg List.length bracketed
      rw [length, List.length_append, List.length_cons, List.length_singleton] at inner
      refine absurd ⟨hostBuffer host, host.drop inet6AddrStrLen, ?_, ?_, ?_, accepts⟩ ends
      · rw [hostBuffer, List.append_cons, ← bracketed, List.take_append_drop]
      · exact List.ne_nil_of_length_pos (by rw [List.length_drop]; omega)
      · rw [hostBuffer]
        omega
    · rw [hostBuffer, same, length] at short
      exact absurd short (lt_irrefl _)
  · rw [hostBuffer, List.take_of_length_le fits]
    exact isHost_unbracket host

/-- The accepted host of a text that is not cut off reaches `inet_pton`. -/
theorem hostBuffer_of_isHost (limited : inet.Limited) (is_host : IsHost host t) (accepts : inet.Accepts t)
    (keeps : ¬LosesBracket inet host) : hostBuffer host = t := by
  have short := limited.length t accepts
  have fits : host.length ≤ inet6AddrStrLen := by
    by_contra long
    rcases is_host with rfl | bracketed
    · omega
    · have length := congrArg List.length bracketed
      rw [List.length_append, List.length_cons, List.length_singleton] at length
      exact keeps ⟨t, bracketed, by omega, accepts⟩
  rw [hostBuffer, List.take_of_length_le fits]
  exact (is_host.eq_unbracket limited accepts).symm

/-- Of a text that goes on, something is accepted that is not the whole. -/
theorem GoesOn.hostBuffer (limited : inet.Limited) (goes_on : GoesOn inet host) :
    inet.Accepts (hostBuffer host) ∧ ∀ t, IsHost host t → ¬inet.Accepts t := by
  obtain ⟨t, rest, rfl, more, length, accepts⟩ := goes_on
  have pieces : openBracket :: t ++ closeBracket :: rest = (openBracket :: t ++ [closeBracket]) ++ rest :=
    List.append_cons ..
  have whole : (openBracket :: t ++ [closeBracket]).length = inet6AddrStrLen := by
    rw [List.length_append, List.length_cons, List.length_singleton, length]
    rfl
  constructor
  · rw [Sockets.hostBuffer, pieces, List.take_left' whole, unbracket_bracketed]
    exact accepts
  · rintro u (rfl | bracketed) accepted
    · exact (limited.brackets _ accepted).1 List.mem_cons_self
    · -- the rest is the closing bracket alone, so the first one is inside
      have inner := List.cons.inj (bracketed.trans (List.cons_append ..))
      rcases List.eq_nil_or_concat rest with rfl | ⟨before, last, rfl⟩
      · exact more rfl
      · have same : t ++ closeBracket :: before ++ [last] = u ++ [closeBracket] := by
          rw [← inner.2]
          simp
        obtain ⟨rfl, _⟩ := List.append_inj' same rfl
        exact (limited.brackets _ accepted).2 (by simp)

theorem GoesOn.length_lt (goes_on : GoesOn inet host) : inet6AddrStrLen < host.length := by
  obtain ⟨t, rest, rfl, more, length, _⟩ := goes_on
  have positive := List.length_pos_of_ne_nil more
  rw [List.length_append, List.length_cons, List.length_cons, length, inet6AddrStrLen]
  omega

theorem LosesBracket.length_lt (loses : LosesBracket inet host) : inet6AddrStrLen < host.length := by
  obtain ⟨t, rfl, length, _⟩ := loses
  rw [List.length_append, List.length_cons, List.length_singleton, length, inet6AddrStrLen]
  omega

/-- A bracketed address of the greatest length does not reach `inet_pton`. -/
theorem LosesBracket.hostBuffer (limited : inet.Limited) (loses : LosesBracket inet host) :
    ¬inet.Accepts (hostBuffer host) := by
  obtain ⟨t, rfl, length, accepts⟩ := loses
  have opened : (openBracket :: t).length = inet6AddrStrLen := by
    rw [List.length_cons, length]
    rfl
  have closed : closeBracket ∉ t := (limited.brackets t accepts).2
  intro accepted
  have kept : Sockets.hostBuffer (openBracket :: t ++ [closeBracket]) = unbracket (openBracket :: t) := by
    rw [Sockets.hostBuffer, List.take_left' opened]
  rw [kept] at accepted
  rcases unbracket_cases (openBracket :: t) with bracketed | ⟨same, _⟩
  · have last : closeBracket ∈ openBracket :: t := by
      rw [bracketed]
      simp
    rcases List.mem_cons.mp last with equal | inside
    · exact absurd equal (by decide)
    · exact closed inside
  · rw [same] at accepted
    exact (limited.brackets _ accepted).1 List.mem_cons_self

/-- `eo_parse_addr` gives what the whole text stands for, unless it goes on behind a bracketed address of
44 characters or is a bracketed address of 45. -/
theorem parses_whole_iff (limited : inet.Limited) (s : List (BitVec 8)) (port : BitVec 16) (dest : Addr) :
    ParsesWhole inet s port dest ↔ ¬GoesOn inet s ∧ ¬LosesBracket inet s := by
  have zero : (eoParseAddr inet s port dest).1 = 0 ↔ inet.Accepts (hostBuffer s) := by
    rw [eoParseAddr, eoParseAddrLimited_zero_iff le_rfl, List.take_length]
  rw [ParsesWhole, zero]
  constructor
  · rintro ⟨exact_, _⟩
    constructor
    · intro goes_on
      obtain ⟨accepted, none⟩ := goes_on.hostBuffer limited
      obtain ⟨t, is_host, accepts⟩ := exact_.mp accepted
      exact none t is_host accepts
    · intro loses
      have refused := loses.hostBuffer limited
      obtain ⟨t, bracketed, _, accepts⟩ := loses
      exact refused (exact_.mpr ⟨t, .inr bracketed, accepts⟩)
  · rintro ⟨ends, keeps⟩
    refine ⟨⟨fun accepted => ⟨_, isHost_hostBuffer limited accepted ends, accepted⟩, ?_⟩, ?_⟩
    · rintro ⟨t, is_host, accepts⟩
      rw [hostBuffer_of_isHost limited is_host accepts keeps]
      exact accepts
    · intro accepted
      have returned : (eoParseAddrLimited inet s s.length port dest).1 = 0 := zero.mpr accepted
      have holds := eoParseAddrLimited_holds le_rfl returned
      rw [List.take_length] at holds
      exact ⟨_, isHost_hostBuffer limited accepted ends, holds⟩

/-- The characters of a text. -/
def characters (text : String) : List (BitVec 8) := text.toList.map fun c => BitVec.ofNat 8 c.toNat

/-- Conversions that know one text of an IPv6 address only. -/
def literalInet (text : List (BitVec 8)) (address : BitVec 128) : Inet where
  ntop4 _ := []
  ntop6 _ := []
  pton4 _ := none
  pton6 t := if t = text then some address else none

theorem literalInet_limited {text : List (BitVec 8)} {address : BitVec 128}
    (short : text.length < inet6AddrStrLen) (plain : openBracket ∉ text ∧ closeBracket ∉ text) :
    (literalInet text address).Limited := by
  have only (t : List (BitVec 8)) (accepts : (literalInet text address).Accepts t) : t = text := by
    by_contra other
    simp [Inet.Accepts, literalInet, other] at accepts
  constructor
  · intro t accepts
    exact only t accepts ▸ short
  · intro t accepts
    exact only t accepts ▸ plain

/-- The loopback address in brackets is parsed. -/
theorem parses_whole_loopback :
    ParsesWhole (literalInet (characters "::1") 1) (characters "[::1]") 80 ⟨0, 0, 0, 0⟩ := by
  have limited : (literalInet (characters "::1") 1).Limited :=
    literalInet_limited (by decide) (by decide)
  have short : ¬inet6AddrStrLen < (characters "[::1]").length := by decide
  exact (parses_whole_iff limited _ _ _).mpr
    ⟨fun goes_on => short goes_on.length_lt, fun loses => short loses.length_lt⟩

/-- The longest text of an address, and in brackets. -/
def longestText : List (BitVec 8) := characters "ffff:ffff:ffff:ffff:ffff:ffff:255.255.255.255"

/-- In brackets the longest text of an address is refused, and one that is shorter by one character is
accepted with anything behind it. -/
theorem parses_cut :
    (literalInet longestText (BitVec.allOnes 128)).Limited ∧
    ¬ParsesWhole (literalInet longestText (BitVec.allOnes 128))
      (openBracket :: longestText ++ [closeBracket]) 80 ⟨0, 0, 0, 0⟩ ∧
    (literalInet longestText.dropLast (BitVec.allOnes 128)).Limited ∧
    ¬ParsesWhole (literalInet longestText.dropLast (BitVec.allOnes 128))
      (openBracket :: longestText.dropLast ++ closeBracket :: characters "junk") 80 ⟨0, 0, 0, 0⟩ := by
  refine ⟨literalInet_limited (by decide) (by decide), ?_, literalInet_limited (by decide) (by decide), ?_⟩
  · rintro ⟨exact_, _⟩
    have accepts : (literalInet longestText (BitVec.allOnes 128)).Accepts longestText := by
      simp [Inet.Accepts, literalInet]
    exact absurd (exact_.mpr ⟨longestText, .inr rfl, accepts⟩) (by decide)
  · rintro ⟨exact_, _⟩
    obtain ⟨t, is_host, accepts⟩ := exact_.mp (by decide)
    obtain rfl : t = longestText.dropLast := by
      by_contra other
      simp [Inet.Accepts, literalInet, other] at accepts
    rcases is_host with same | bracketed
    · exact absurd same (by decide)
    · exact absurd bracketed (by decide)

end Hseos.Sockets
