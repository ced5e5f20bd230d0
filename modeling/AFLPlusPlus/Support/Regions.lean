import Mathlib.Tactic.Common

/-!
# Regions of memory

An allocated region as the list of its elements.  Reading and writing a range
fails when an element of the range lies outside the region; a range without
elements may start anywhere.
-/

namespace Region

variable {α : Type}

def splice (memory : List α) (pos : Nat) (values : List α) : List α :=
  memory.take pos ++ values ++ memory.drop (pos + values.length)

def read (memory : List α) (pos len : Nat) : Option (List α) :=
  if len = 0 then some []
  else if pos + len ≤ memory.length then some ((memory.drop pos).take len)
  else none

def write (memory : List α) (pos : Nat) (values : List α) : Option (List α) :=
  if values.length = 0 then some memory
  else if pos + values.length ≤ memory.length then
    some (splice memory pos values)
  else none

/-- `memcpy` between two regions. -/
def memcpy (dst : List α) (dstPos : Nat) (src : List α) (srcPos len : Nat) :
    Option (List α) :=
  (read src srcPos len).bind (write dst dstPos)

def memset (memory : List α) (pos : Nat) (value : α) (len : Nat) : Option (List α) :=
  write memory pos (List.replicate len value)

@[simp] theorem splice_nil (memory : List α) (pos : Nat) :
    splice memory pos [] = memory := by
  simp [splice]

variable {memory values : List α} {pos : Nat}

theorem length_splice (inside : pos + values.length ≤ memory.length) :
    (splice memory pos values).length = memory.length := by
  simp only [splice, List.length_append, List.length_take, List.length_drop]
  omega

theorem splice_whole (whole : values.length = memory.length) :
    splice memory 0 values = values := by
  rw [splice, List.take_zero, List.nil_append, Nat.zero_add, whole,
    List.drop_length, List.append_nil]

theorem take_splice {len : Nat} (inside : pos + values.length ≤ len)
    (bounded : len ≤ memory.length) :
    (splice memory pos values).take len = splice (memory.take len) pos values := by
  have start : (memory.take pos ++ values).length = pos + values.length := by
    simp only [List.length_append, List.length_take]
    omega
  rw [splice, splice, List.take_append, start,
    List.take_of_length_le (by omega), List.take_take, List.drop_take,
    Nat.min_eq_left (by omega)]

theorem take_splice_end {memory values : List α} {pos : Nat}
    (bounded : pos ≤ memory.length) :
    (splice memory pos values).take (pos + values.length) =
      memory.take pos ++ values := by
  have start : (memory.take pos ++ values).length = pos + values.length := by
    simp only [List.length_append, List.length_take]
    omega
  rw [splice, List.take_append_of_le_length (Nat.le_of_eq start.symm),
    List.take_of_length_le (Nat.le_of_eq start)]

theorem splice_singleton (value : α) (inside : pos < memory.length) :
    splice memory pos [value] = memory.set pos value := by
  rw [splice, List.set_eq_take_append_cons_drop, if_pos inside, List.append_assoc]
  rfl

theorem read_eq {len : Nat} (inside : pos + len ≤ memory.length) :
    read memory pos len = some ((memory.drop pos).take len) := by
  unfold read
  split
  · rename_i empty
    rw [empty, List.take_zero]
  · rfl

theorem write_eq (inside : pos + values.length ≤ memory.length) :
    write memory pos values = some (splice memory pos values) := by
  unfold write
  split
  · rename_i empty
    rw [List.length_eq_zero_iff.mp empty, splice_nil]
  · rfl

/-- A copy, and what is seen of its target up to the end of the copy. -/
theorem memcpy_some {dst src : List α} {dstPos srcPos len : Nat}
    (bounded : dstPos ≤ dst.length)
    (inside : 0 < len → dstPos + len ≤ dst.length ∧ srcPos + len ≤ src.length) :
    ∃ out, memcpy dst dstPos src srcPos len = some out ∧ out.length = dst.length ∧
      out.take (dstPos + len) = dst.take dstPos ++ (src.drop srcPos).take len := by
  rcases Nat.eq_zero_or_pos len with rfl | positive
  · exact ⟨dst, by simp [memcpy, read, write], rfl, by simp⟩
  · obtain ⟨target, source⟩ := inside positive
    have length : ((src.drop srcPos).take len).length = len := by
      rw [List.length_take, List.length_drop]
      omega
    have seen : (splice dst dstPos ((src.drop srcPos).take len)).take
        (dstPos + ((src.drop srcPos).take len).length) = _ :=
      take_splice_end bounded
    rw [length] at seen
    refine ⟨_, ?_, length_splice (by omega), seen⟩
    rw [memcpy, read_eq source, Option.bind_some, write_eq (by omega)]

theorem memcpy_start {dst src : List α} {len : Nat} (target : len ≤ dst.length)
    (source : len ≤ src.length) :
    ∃ out, memcpy dst 0 src 0 len = some out ∧ out.length = dst.length ∧
      out.take len = src.take len := by
  obtain ⟨out, copied, length, seen⟩ :=
    @memcpy_some _ dst src 0 0 len (Nat.zero_le _) fun _ => by omega
  rw [Nat.zero_add] at seen
  exact ⟨out, copied, length, seen⟩

theorem write_some {memory values : List α} {pos len : Nat}
    (inside : pos + values.length ≤ len) (bounded : len ≤ memory.length) :
    ∃ out, write memory pos values = some out ∧ out.length = memory.length ∧
      out.take len = splice (memory.take len) pos values :=
  ⟨_, write_eq (by omega), length_splice (by omega), take_splice inside bounded⟩

theorem memset_some {memory : List α} {pos count len : Nat} (value : α)
    (inside : pos + count ≤ len) (bounded : len ≤ memory.length) :
    ∃ out, memset memory pos value count = some out ∧ out.length = memory.length ∧
      out.take len = splice (memory.take len) pos (List.replicate count value) :=
  write_some (by rwa [List.length_replicate]) bounded

end Region
