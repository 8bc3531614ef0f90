import Hseos.Lib.Numeral

/-! # Buffered output

`printf` puts its text behind what a process has in its buffer, and some of the buffer goes out at once: all of it up
to a newline on a terminal, nothing as long as a file or a pipe leaves room. How much that is is for the schedule
to choose. The rest goes out with `fflush`, or when the process exits; a child has a copy of it.
-/

namespace Hseos.Stdio

abbrev Text := List (BitVec 8)

def ascii (text : String) : Text := text.toList.map fun c => BitVec.ofNat 8 c.toNat

/-- The format `%d`. -/
def decimal (n : ℤ) : Text :=
  if n < 0 then Numeral.minus :: Numeral.numeral 10 n.natAbs else Numeral.numeral 10 n.natAbs

/-- What has gone out after a `printf`, and what is in the buffer then. -/
def printf (early : ℕ) (out pending text : Text) : Text × Text :=
  (out ++ (pending ++ text).take early, (pending ++ text).drop early)

/-- The line that `check_result` prints when a call has failed. -/
def errorLine (call reason : String) : Text := ascii (call ++ " error: " ++ reason ++ "\n")

theorem printf_append (early : ℕ) (out pending text : Text) :
    (printf early out pending text).1 ++ (printf early out pending text).2 = out ++ pending ++ text := by
  rw [printf, List.append_assoc, List.take_append_drop, List.append_assoc]

end Hseos.Stdio
