import Mathlib.Tactic.Common

/-!
# Reading lines into a buffer of fixed size

A read ends behind a newline, at the end of the text or when the buffer is full.
The reads are the lines of the text as long as the lines fit into the buffer.
-/

namespace BoundedLines

variable {α : Type} [DecidableEq α] (newline : α) (limit : Nat)

/-- The reads of at most `limit` items each; `started` is what the read that has
begun got so far. -/
def reads (started : List α) : List α → List (List α)
  | [] => if started = [] then [] else [started]
  | item :: rest =>
      if item = newline ∨ started.length + 1 = limit then
        (started ++ [item]) :: reads [] rest
      else reads (started ++ [item]) rest

/-- The lines, each with its newline; `started` is what the line that has begun
has so far. -/
def lines (started : List α) : List α → List (List α)
  | [] => if started = [] then [] else [started]
  | item :: rest =>
      if item = newline then (started ++ [item]) :: lines [] rest
      else lines (started ++ [item]) rest

theorem flatten_reads (started text : List α) :
    (reads newline limit started text).flatten = started ++ text := by
  induction text generalizing started with
  | nil =>
      unfold reads
      split
      · rename_i none
        simp [none]
      · simp
  | cons item rest induction =>
      unfold reads
      split
      · simp [induction]
      · simp [induction]

theorem ne_nil_of_mem_reads {started text read : List α}
    (member : read ∈ reads newline limit started text) : read ≠ [] := by
  induction text generalizing started with
  | nil =>
      unfold reads at member
      split at member
      · exact absurd member List.not_mem_nil
      · rename_i some
        exact List.mem_singleton.mp member ▸ some
  | cons item rest induction =>
      unfold reads at member
      split at member
      · rcases List.mem_cons.mp member with rfl | later
        · simp
        · exact induction later
      · exact induction member

theorem exists_line_of_started {started rest : List α} {item : α}
    (some : started ≠ []) : ∃ line ∈ lines newline started (item :: rest),
      started.length < line.length := by
  induction rest generalizing started item with
  | nil =>
      refine ⟨started ++ [item], ?_, by simp⟩
      unfold lines
      split <;> simp [lines]
  | cons next rest induction =>
      unfold lines
      split
      · exact ⟨started ++ [item], List.mem_cons_self, by simp⟩
      · obtain ⟨line, member, longer⟩ := @induction (started ++ [item]) next (by simp)
        refine ⟨line, member, ?_⟩
        rw [List.length_append] at longer
        exact Nat.lt_of_le_of_lt (Nat.le_add_right _ _) longer

theorem reads_eq_lines {started text : List α}
    (fits : ∀ line ∈ lines newline started text, line.length ≤ limit) :
    reads newline limit started text = lines newline started text := by
  induction text generalizing started with
  | nil => rfl
  | cons item rest induction =>
      unfold reads
      unfold lines at fits ⊢
      by_cases ends : item = newline
      · rw [if_pos (.inl ends), if_pos ends]
        rw [if_pos ends] at fits
        rw [induction fun line member =>
          fits line (List.mem_cons_of_mem _ member)]
      · rw [if_neg ends] at fits ⊢
        by_cases full : started.length + 1 = limit
        · rw [if_pos (.inr full)]
          cases rest with
          | nil => simp [reads, lines]
          | cons next rest =>
              obtain ⟨line, member, longer⟩ :=
                @exists_line_of_started _ _ newline (started ++ [item]) rest
                  next (by simp)
              have short := fits line member
              rw [List.length_append, List.length_singleton] at longer
              omega
        · rw [if_neg (by simp [ends, full])]
          exact induction fits

theorem ends_of_lines {started text line next : List α}
    {earlier after : List (List α)}
    (split : lines newline started text = earlier ++ line :: next :: after) :
    line.getLast? = some newline := by
  induction text generalizing started earlier with
  | nil =>
      have length := congrArg List.length split
      have atMostOne : (lines newline started []).length ≤ 1 := by
        unfold lines
        split <;> simp
      simp only [List.length_append, List.length_cons] at length
      omega
  | cons item rest induction =>
      unfold lines at split
      split at split
      · rename_i ends
        cases earlier with
        | nil =>
            obtain ⟨rfl, _⟩ := List.cons.inj split
            rw [List.getLast?_concat, ends]
        | cons first earlier => exact induction (List.cons.inj split).2
      · exact induction split

section Read

variable {newline limit} {started items rest : List α}
  (noNewline : newline ∉ items)
include noNewline

theorem reads_line (short : started.length + items.length < limit) :
    reads newline limit started (items ++ newline :: rest) =
      (started ++ items ++ [newline]) :: reads newline limit [] rest := by
  induction items generalizing started with
  | nil => simp [reads]
  | cons item items induction =>
      rw [List.mem_cons, not_or] at noNewline
      rw [List.length_cons] at short
      have goesOn : ¬(item = newline ∨ started.length + 1 = limit) := by
        rintro (ends | full)
        · exact noNewline.1 ends.symm
        · omega
      rw [List.cons_append, reads, if_neg goesOn, induction noNewline.2 (by
        rw [List.length_append, List.length_singleton]
        omega)]
      simp

theorem reads_full (some : items ≠ [])
    (full : started.length + items.length = limit) :
    reads newline limit started (items ++ rest) =
      (started ++ items) :: reads newline limit [] rest := by
  induction items generalizing started with
  | nil => exact absurd rfl some
  | cons item items induction =>
      rw [List.mem_cons, not_or] at noNewline
      rw [List.length_cons] at full
      rw [List.cons_append, reads]
      cases items with
      | nil =>
          rw [if_pos (.inr full)]
          rfl
      | cons next items =>
          have goesOn : ¬(item = newline ∨ started.length + 1 = limit) := by
            rintro (ends | isFull)
            · exact noNewline.1 ends.symm
            · rw [List.length_cons] at full
              omega
          rw [if_neg goesOn, induction noNewline.2 (List.cons_ne_nil _ _) (by
            rw [List.length_append, List.length_singleton]
            omega)]
          simp

end Read

end BoundedLines
