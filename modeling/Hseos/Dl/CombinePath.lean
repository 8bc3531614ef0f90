import Hseos.Lib.CString

/-! # The path of a module

`combine_path` puts a directory, a slash if there is none at its end, and the name of an entry into an array of
`PATH_MAX` bytes. Each part is copied behind what is already there, and nothing checks whether it fits.
-/

namespace Hseos.Dl

open CString

def pathMax : ℕ := 4096

/-- `'/'`. -/
def slash : BitVec 8 := 47

/-- `combine_path`. -/
def combinePath (a b dst : List (BitVec 8)) : Except Fault (List (BitVec 8)) := do
  let dst ← strcpy dst 0 a
  let length ← strlen dst
  let last ← load dst (wordSub 64 length 1)
  let dst ← (if last ≠ slash then strlen dst >>= fun length => strcpy dst length [slash] else .ok dst)
  strlen dst >>= fun length => strcpy dst length b

/-- The directory with the slash that it ends with or gets. -/
def directory (a : List (BitVec 8)) : List (BitVec 8) := a ++ if a.getLast? = some slash then [] else [slash]

/-- The array holds the directory, a slash and the name, with a NUL behind them. -/
def HoldsPath (a b dst : List (BitVec 8)) : Prop := directory a ++ b ++ [0] <+: dst

variable {a b dst : List (BitVec 8)}

theorem clean_directory (clean : 0 ∉ a) : 0 ∉ directory a := by
  have other : (0 : BitVec 8) ≠ slash := by decide
  rw [directory, List.mem_append, not_or]
  refine ⟨clean, ?_⟩
  split_ifs
  · exact List.not_mem_nil
  · exact fun member => other (List.mem_singleton.mp member)

/-- The last byte of the directory decides whether a slash is added. -/
theorem combinePath_eq (nonempty : a ≠ []) (clean : 0 ∉ a) (fits : a.length < dst.length)
    (word : dst.length < 2 ^ 64) :
    ∃ after, (a ++ 0 :: after).length = dst.length ∧ combinePath a b dst =
      (if a.getLast? = some slash then .ok (a ++ 0 :: after)
        else strlen (a ++ 0 :: after) >>= fun length => strcpy (a ++ 0 :: after) length [slash]) >>=
      fun dst => strlen dst >>= fun length => strcpy dst length b := by
  refine ⟨dst.drop (a.length + 1), ?_, ?_⟩
  · rw [List.length_append, List.length_cons, List.length_drop]
    omega
  obtain ⟨front, c, rfl⟩ := List.eq_nil_or_concat' a |>.resolve_left nonempty
  have length : (front ++ [c]).length = front.length + 1 := by rw [List.length_append, List.length_singleton]
  have index : wordSub 64 (front ++ [c]).length 1 = front.length := by
    rw [wordSub_of_le (by omega) (by omega), length, Nat.add_sub_cancel]
  have last : load (front ++ [c] ++ 0 :: dst.drop ((front ++ [c]).length + 1)) front.length = .ok c := by
    rw [List.append_assoc, List.singleton_append]
    exact load_middle _ _ _
  have same : (front ++ [c]).getLast? = some slash ↔ c = slash := by rw [List.getLast?_concat, Option.some_inj]
  rw [combinePath, strcpy_start fits, ok_bind, strlen_of_string clean, ok_bind, index, last, ok_bind]
  by_cases ends : c = slash
  · rw [if_neg (not_not.mpr ends), if_pos (same.mpr ends)]
  · rw [if_pos ends, if_neg fun other => ends (same.mp other)]

/-- The slash is added if there is room for it. -/
theorem slash_fits {after : List (BitVec 8)} (clean : 0 ∉ a)
    (fits : (directory a).length < (a ++ 0 :: after).length) :
    ∃ after', (directory a ++ 0 :: after').length = (a ++ 0 :: after).length ∧
      (if a.getLast? = some slash then .ok (a ++ 0 :: after)
        else strlen (a ++ 0 :: after) >>= fun length => strcpy (a ++ 0 :: after) length [slash]) =
      .ok (directory a ++ 0 :: after') := by
  rw [directory] at fits ⊢
  split_ifs at fits ⊢ with ends
  · rw [List.append_nil]
    exact ⟨after, rfl, rfl⟩
  · rw [List.length_append] at fits
    refine ⟨after.drop 1, ?_, append_fits clean fits⟩
    simp only [List.length_append, List.length_cons, List.length_nil, List.length_drop] at fits ⊢
    omega

theorem slash_beyond {after : List (BitVec 8)} (clean : 0 ∉ a)
    (beyond : (a ++ 0 :: after).length ≤ (directory a).length) :
    (if a.getLast? = some slash then .ok (a ++ 0 :: after)
      else strlen (a ++ 0 :: after) >>= fun length => strcpy (a ++ 0 :: after) length [slash]) =
    .error .outOfBounds := by
  rw [directory] at beyond
  split_ifs at beyond ⊢ with ends
  · simp only [List.length_append, List.length_cons, List.length_nil] at beyond
    omega
  · exact append_beyond clean (beyond.trans_eq List.length_append)

/-- The path is copied if it fits with its NUL, and otherwise written beyond the end of the array. -/
theorem combinePath_spec (nonempty : a ≠ []) (clean : 0 ∉ a) (fits : a.length < dst.length)
    (word : dst.length < 2 ^ 64) (b : List (BitVec 8)) :
    if (directory a).length + b.length < dst.length then
      ∃ after, combinePath a b dst = .ok (directory a ++ b ++ 0 :: after) ∧
        (directory a ++ b ++ 0 :: after).length = dst.length
    else combinePath a b dst = .error .outOfBounds := by
  obtain ⟨after, length, equal⟩ := combinePath_eq (b := b) nonempty clean fits word
  have clean' := clean_directory clean
  rw [equal, ← length]
  rcases Nat.lt_or_ge (directory a).length (a ++ 0 :: after).length with room | beyond
  · obtain ⟨after', length', added⟩ := slash_fits clean room
    rw [added, ok_bind, ← length']
    split_ifs with both
    · refine ⟨_, append_fits clean' both, ?_⟩
      simp only [List.length_append, List.length_cons, List.length_drop] at both ⊢
      omega
    · exact append_beyond clean' (Nat.not_lt.mp both)
  · rw [slash_beyond clean beyond, if_neg (by omega)]
    rfl

/-- For every directory that can be opened and every name: the array gets the path and nothing outside of it is
read or written if and only if the directory, the slash and the name are together shorter than `PATH_MAX`. -/
theorem combine_path_iff (a b dst : List (BitVec 8)) (size : dst.length = pathMax) (nonempty : 1 ≤ a.length)
    (opened : a.length ≤ pathMax - 1) (clean : 0 ∉ a) :
    (∃ dst', combinePath a b dst = .ok dst' ∧ dst'.length = pathMax ∧ HoldsPath a b dst') ↔
      a.length + (if a.getLast? = some slash then 0 else 1) + b.length < pathMax := by
  have bound : pathMax = 4096 := rfl
  have fits : a.length < dst.length := by omega
  have spec := combinePath_spec (List.length_pos_iff.mp nonempty) clean fits (by omega) b
  have total : (directory a).length = a.length + if a.getLast? = some slash then 0 else 1 := by
    rw [directory, List.length_append]
    split_ifs <;> rfl
  rw [← total, ← size]
  split_ifs at spec with fits
  · obtain ⟨after, copied, length⟩ := spec
    refine iff_of_true ⟨_, copied, length, after, ?_⟩ fits
    rw [List.append_assoc _ [0], List.singleton_append]
  · refine iff_of_false ?_ fits
    rintro ⟨dst', copied, _⟩
    cases spec.symm.trans copied

/-- The directory `.` and the module `m.so`. -/
theorem combine_path_dot : ∃ dst', combinePath [46] [109, 46, 115, 111] (List.replicate 4096 0) = .ok dst' ∧
    dst'.length = pathMax ∧ HoldsPath [46] [109, 46, 115, 111] dst' :=
  (combine_path_iff [46] [109, 46, 115, 111] (List.replicate 4096 0) List.length_replicate (by decide)
    (by decide) (by decide)).mpr (by decide)

/-- The current directory, with `n` times `./` before it. -/
def current (n : ℕ) : List (BitVec 8) := (List.replicate n [46, slash]).flatten ++ [46, slash]

theorem length_current (n : ℕ) : (current n).length = 2 * n + 2 := by
  rw [current, List.length_append, List.length_flatten, List.map_replicate, List.sum_replicate_nat,
    Nat.mul_comm]
  rfl

theorem clean_current (n : ℕ) : 0 ∉ current n := by
  intro member
  rw [current, List.mem_append, List.mem_flatten] at member
  rcases member with ⟨part, inside, member⟩ | member
  · rw [List.eq_of_mem_replicate inside] at member
    exact absurd member (by decide)
  · exact absurd member (by decide)

/-- The name `mm….so` of `n + 3` bytes. -/
def module (n : ℕ) : List (BitVec 8) := List.replicate n 109 ++ [46, 115, 111]

/-- If the name does not fit behind the directory, a byte is written behind the array. -/
theorem combinePath_current (n k : ℕ) (size : dst.length = pathMax) (fits : 2 * n + 2 < pathMax)
    (beyond : pathMax ≤ 2 * n + 2 + (k + 3)) :
    combinePath (current n) (module k) dst = .error .outOfBounds := by
  have bound : pathMax = 4096 := rfl
  have length := length_current n
  have name : (module k).length = k + 3 := by rw [module, List.length_append, List.length_replicate]; rfl
  have nonempty : current n ≠ [] := List.append_ne_nil_of_right_ne_nil _ (List.cons_ne_nil _ _)
  have ends : directory (current n) = current n := by
    rw [directory, if_pos (by rw [current, List.getLast?_append_of_ne_nil _ (List.cons_ne_nil _ _)]; rfl),
      List.append_nil]
  have room : (current n).length < dst.length := by omega
  have spec := combinePath_spec nonempty (clean_current n) room (by omega) (module k)
  rwa [ends, if_neg (by omega)] at spec

/-- A directory of 4000 bytes and a name of 96. -/
theorem combine_path_overflows : ¬∃ dst', combinePath (current 1999) (module 93) (List.replicate pathMax 0) =
    .ok dst' ∧ dst'.length = pathMax ∧ HoldsPath (current 1999) (module 93) dst' := by
  rintro ⟨dst', copied, _⟩
  rw [combinePath_current 1999 93 List.length_replicate (by decide) (by decide)] at copied
  cases copied

end Hseos.Dl
