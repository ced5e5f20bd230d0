import Mathlib.Tactic.Common
import Mathlib.Data.List.TakeWhile

/-!
# Paths

The last component of a path, and how it is found again behind a directory.
-/

namespace Paths

def baseName (path : List Char) : List Char :=
  (path.reverse.takeWhile (· ≠ '/')).reverse

variable {name : List Char}

private theorem takeWhile_plain (plain : '/' ∉ name) :
    ∀ char ∈ name.reverse, decide (char ≠ '/') = true := by
  intro char member
  rw [decide_eq_true_iff]
  rintro rfl
  exact plain (List.mem_reverse.mp member)

theorem baseName_slash (directory : List Char) (plain : '/' ∉ name) :
    baseName (directory ++ '/' :: name) = name := by
  rw [baseName, List.reverse_append, List.reverse_cons, List.append_assoc,
    List.takeWhile_append_of_pos (takeWhile_plain plain)]
  simp

theorem baseName_plain (plain : '/' ∉ name) : baseName name = name := by
  have whole := List.takeWhile_eq_self_iff.mpr (takeWhile_plain plain)
  rw [baseName, whole, List.reverse_reverse]

end Paths
