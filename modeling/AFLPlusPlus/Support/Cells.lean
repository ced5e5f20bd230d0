import AFLPlusPlus.Support.Stores

/-!
# Memories that are stored cell by cell

A memory of cells of one size, each of which has been stored up to some byte.
What has been stored does not depend on the memory before, and what has not been
stored is still the memory before.
-/

namespace Buffer

/-- The bytes that have been stored are the same. -/
def AgreesUpTo (size : Nat) (reach : Nat → Nat) (memory other : Buffer) :
    Prop :=
  ∀ cell i, i < size → i < reach cell →
    memory (size * cell + i) = other (size * cell + i)

/-- The bytes that have not been stored are those of before. -/
def KeepsFrom (size : Nat) (reach : Nat → Nat) (memory before : Buffer) :
    Prop :=
  ∀ cell i, i < size → reach cell ≤ i →
    memory (size * cell + i) = before (size * cell + i)

/-- A store from the start of a cell on. -/
def raise (reach : Nat → Nat) (cell len : Nat) : Nat → Nat :=
  Function.update reach cell (max (reach cell) len)

@[simp]
theorem raise_self (reach : Nat → Nat) (cell len : Nat) :
    raise reach cell len cell = max (reach cell) len := by
  simp [raise]

theorem raise_of_ne (reach : Nat → Nat) {cell other : Nat} (len : Nat)
    (different : other ≠ cell) : raise reach cell len other = reach other := by
  simp [raise, different]

theorem le_raise (reach : Nat → Nat) (cell len other : Nat) :
    reach other ≤ raise reach cell len other := by
  by_cases same : other = cell
  · subst same
    exact Nat.le_trans (Nat.le_max_left _ _)
      (Nat.le_of_eq (raise_self reach other len).symm)
  · exact Nat.le_of_eq (raise_of_ne reach len same).symm

variable {size : Nat} {reach : Nat → Nat} {memory other : Buffer}

variable {bytes : List (BitVec 8)}

theorem storeBytes_other_cell (memory : Buffer) (fits : bytes.length ≤ size)
    {cell here i : Nat} (inside : i < size) (different : here ≠ cell) :
    memory.storeBytes (size * cell) bytes (size * here + i) =
      memory (size * here + i) := by
  apply storeBytes_outside
  obtain before | behind := Nat.lt_or_gt_of_ne different
  · left
    have next : size * (here + 1) ≤ size * cell := Nat.mul_le_mul_left size before
    rw [Nat.mul_succ] at next
    omega
  · right
    have next : size * (cell + 1) ≤ size * here := Nat.mul_le_mul_left size behind
    rw [Nat.mul_succ] at next
    omega

theorem storeBytes_cell (memory : Buffer) (bytes : List (BitVec 8))
    (cell i : Nat) :
    memory.storeBytes (size * cell) bytes (size * cell + i) =
      (bytes[i]?).getD (memory (size * cell + i)) := by
  rw [storeBytes, if_pos (Nat.le_add_right _ _), Nat.add_sub_cancel_left]

theorem AgreesUpTo.storeBytes (agrees : AgreesUpTo size reach memory other)
    (fits : bytes.length ≤ size) (cell : Nat) :
    AgreesUpTo size (raise reach cell bytes.length)
      (memory.storeBytes (size * cell) bytes)
      (other.storeBytes (size * cell) bytes) := by
  intro here i inside stored
  by_cases same : here = cell
  · subst same
    rw [storeBytes_cell, storeBytes_cell]
    by_cases within : i < bytes.length
    · rw [List.getElem?_eq_getElem within]
      rfl
    · rw [raise_self] at stored
      rw [List.getElem?_eq_none (Nat.le_of_not_lt within)]
      exact agrees here i inside (by omega)
  · rw [raise_of_ne reach _ same] at stored
    rw [storeBytes_other_cell memory fits inside same,
      storeBytes_other_cell other fits inside same]
    exact agrees here i inside stored

theorem KeepsFrom.storeBytes (keeps : KeepsFrom size reach memory other)
    (fits : bytes.length ≤ size) (cell : Nat) :
    KeepsFrom size (raise reach cell bytes.length)
      (memory.storeBytes (size * cell) bytes) other := by
  intro here i inside fresh
  have earlier := keeps here i inside
    (Nat.le_trans (le_raise reach cell bytes.length here) fresh)
  by_cases same : here = cell
  · subst same
    rw [raise_self] at fresh
    rw [storeBytes_cell, List.getElem?_eq_none (by omega)]
    exact earlier
  · rwa [storeBytes_other_cell memory fits inside same]

end Buffer
