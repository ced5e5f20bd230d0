import AFLPlusPlus.Trim.Delivery

/-!
# Rewriting the file of a trimmed case

`trim_case` brings the file of a queue entry up to date.  The file is unlinked
and created anew; with `no_unlink` it is cut to nothing and written by calls of
`write` until as many bytes as the case has are written.
-/

namespace AFLPlusPlus.Trim

/-- The loop of calls of `write` with what they return, an error or the number
of bytes that the system is ready to take of those it is given.  There is no
result if the calls end before the loop does. -/
def rewriteInPlace (inBuf : List (BitVec 8)) :
    List Int → Nat → List (BitVec 8) → Option (List (BitVec 8))
  | [], written, file => if written < inBuf.length then none else some file
  | result :: results, written, file =>
      if written < inBuf.length then
        if 0 < result then
          -- every call is given `in_buf` itself
          let taken := min result.toNat (inBuf.length - written)
          rewriteInPlace inBuf results (written + taken)
            (file ++ inBuf.take taken)
        else rewriteInPlace inBuf results written file
      else some file

/-- The file is created anew, or opened with `O_TRUNC`. -/
def rewriteFile (noUnlink : Bool) (opens : Bool) (results : List Int)
    (inBuf : List (BitVec 8)) : Option (List (BitVec 8)) :=
  if opens = false then none
  else if noUnlink then rewriteInPlace inBuf results 0 []
  else (ckWrite inBuf ⟨[], 0⟩).map OutFd.content

/-- How many bytes each call takes of the `remaining` ones. -/
def parts : List Int → Nat → List Nat
  | [], _ => []
  | result :: results, remaining =>
      if 0 < result ∧ 0 < remaining then
        min result.toNat remaining ::
          parts results (remaining - min result.toNat remaining)
      else parts results remaining

/-- Wherever a call begins, the bytes of the case that are due are those at its
start. -/
def Repeating (inBuf : List (BitVec 8)) : Nat → List Nat → Prop
  | _, [] => True
  | written, part :: parts =>
      (inBuf.drop written).take part = inBuf.take part ∧
        Repeating inBuf (written + part) parts

def written (inBuf : List (BitVec 8)) (parts : List Nat) : List (BitVec 8) :=
  (parts.map inBuf.take).flatten

theorem sum_parts_le (results : List Int) (remaining : Nat) :
    (parts results remaining).sum ≤ remaining := by
  induction results generalizing remaining with
  | nil => exact Nat.zero_le _
  | cons result results induction =>
      rw [parts]
      split
      · have rest := induction (remaining - min result.toNat remaining)
        rw [List.sum_cons]
        omega
      · exact induction remaining

theorem parts_zero (results : List Int) : parts results 0 = [] := by
  induction results with
  | nil => rfl
  | cons result results induction =>
      rw [parts, if_neg fun both => absurd both.2 (Nat.lt_irrefl 0)]
      exact induction

theorem parts_of_sum {results : List Int}
    (positive : ∀ result ∈ results, 0 < result) :
    parts results (results.map Int.toNat).sum = results.map Int.toNat := by
  induction results with
  | nil => rfl
  | cons result results induction =>
      have first := positive result List.mem_cons_self
      have rest := induction fun other member =>
        positive other (List.mem_cons_of_mem _ member)
      rw [List.map_cons, List.sum_cons, parts, if_pos ⟨first, by omega⟩,
        Nat.min_eq_left (Nat.le_add_right _ _), Nat.add_sub_cancel_left, rest]

theorem length_written {inBuf : List (BitVec 8)} {parts : List Nat}
    (inside : parts.sum ≤ inBuf.length) :
    (written inBuf parts).length = parts.sum := by
  induction parts with
  | nil => rfl
  | cons part parts induction =>
      rw [List.sum_cons] at inside ⊢
      rw [written, List.map_cons, List.flatten_cons, List.length_append,
        List.length_take_of_le (by omega)]
      exact congrArg (part + ·) (induction (by omega))

theorem rewriteInPlace_eq (inBuf : List (BitVec 8)) (results : List Int)
    (start : Nat) (file : List (BitVec 8)) :
    rewriteInPlace inBuf results start file =
      if inBuf.length ≤ start + (parts results (inBuf.length - start)).sum then
        some (file ++ written inBuf (parts results (inBuf.length - start)))
      else none := by
  induction results generalizing start file with
  | nil =>
      rw [rewriteInPlace, parts, List.sum_nil, Nat.add_zero]
      split
      · rename_i before
        rw [if_neg (Nat.not_le.mpr before)]
      · rename_i finished
        rw [if_pos (Nat.le_of_not_lt finished)]
        exact congrArg some (List.append_nil file).symm
  | cons result results induction =>
      rw [rewriteInPlace]
      by_cases before : start < inBuf.length
      · rw [if_pos before]
        by_cases positive : 0 < result
        · have taking : parts (result :: results) (inBuf.length - start) =
              min result.toNat (inBuf.length - start) ::
                parts results (inBuf.length - start -
                  min result.toNat (inBuf.length - start)) :=
            if_pos ⟨positive, Nat.sub_pos_of_lt before⟩
          rw [if_pos positive, induction, taking, List.sum_cons,
            ← Nat.add_assoc, Nat.sub_sub, written, written, List.map_cons,
            List.flatten_cons, List.append_assoc]
        · have skipping : parts (result :: results) (inBuf.length - start) =
              parts results (inBuf.length - start) :=
            if_neg fun both => positive both.1
          rw [if_neg positive, induction, skipping]
      · rw [if_neg before, Nat.sub_eq_zero_of_le (Nat.le_of_not_lt before),
          parts_zero, if_pos (Nat.le_add_right_of_le (Nat.le_of_not_lt before))]
        exact congrArg some (List.append_nil file).symm

theorem written_eq_drop_iff {inBuf : List (BitVec 8)} {parts : List Nat}
    {start : Nat} (whole : start + parts.sum = inBuf.length) :
    written inBuf parts = inBuf.drop start ↔ Repeating inBuf start parts := by
  induction parts generalizing start with
  | nil =>
      rw [List.sum_nil, Nat.add_zero] at whole
      rw [whole, List.drop_length]
      exact iff_of_true rfl trivial
  | cons part parts induction =>
      rw [List.sum_cons] at whole
      have split : inBuf.drop start =
          (inBuf.drop start).take part ++ inBuf.drop (start + part) := by
        rw [← List.drop_drop, List.take_append_drop]
      have sameLength : (inBuf.take part).length =
          ((inBuf.drop start).take part).length := by
        rw [List.length_take, List.length_take, List.length_drop]
        omega
      rw [written, List.map_cons, List.flatten_cons, split, Repeating]
      have rest : written inBuf parts = inBuf.drop (start + part) ↔ _ :=
        induction (by omega)
      rw [← rest]
      constructor
      · intro same
        obtain ⟨first, others⟩ := List.append_inj same sameLength
        exact ⟨first.symm, others⟩
      · rintro ⟨first, others⟩
        exact congrArg₂ (· ++ ·) first.symm others

/-- What a rewritten file holds has the length of the case, and is the case
unless some part does not repeat its start. -/
theorem rewriteFile_spec {noUnlink opens : Bool} {results : List Int}
    {inBuf file : List (BitVec 8)}
    (rewritten : rewriteFile noUnlink opens results inBuf = some file) :
    file.length = inBuf.length ∧
      (file = inBuf ↔ noUnlink = true →
        Repeating inBuf 0 (parts results inBuf.length)) := by
  unfold rewriteFile at rewritten
  split at rewritten
  · cases rewritten
  · split at rewritten
    · rename_i inPlace
      have bounded := sum_parts_le results inBuf.length
      rw [rewriteInPlace_eq, Nat.sub_zero, Nat.zero_add, List.nil_append] at rewritten
      split at rewritten
      · rename_i whole
        obtain rfl := Option.some.inj rewritten
        have iff := @written_eq_drop_iff inBuf (parts results inBuf.length) 0
          (by omega)
        rw [List.drop_zero] at iff
        refine ⟨?_, iff.trans ⟨fun repeating _ => repeating,
          fun repeating => repeating inPlace⟩⟩
        rw [length_written bounded]
        omega
      · cases rewritten
    · rename_i anew
      rw [ckWrite] at rewritten
      split at rewritten
      · have same : file = inBuf := by
          have content := Option.some.inj rewritten
          simpa [Region.splice] using content.symm
        exact ⟨congrArg List.length same,
          iff_of_true same fun inPlace => absurd inPlace anew⟩
      · cases rewritten

/-- In which cases `trim_case` rewrites a file with the case. -/
theorem rewriteFile_eq_iff (inBuf : List (BitVec 8)) {results : List Int}
    (positive : ∀ result ∈ results, 0 < result)
    (whole : (results.map Int.toNat).sum = inBuf.length) :
    rewriteFile true true results inBuf = some inBuf ↔
      Repeating inBuf 0 (results.map Int.toNat) := by
  have isParts : parts results inBuf.length = results.map Int.toNat :=
    whole ▸ parts_of_sum positive
  have iff := @written_eq_drop_iff inBuf (results.map Int.toNat) 0 (by omega)
  have inPlace : rewriteFile true true results inBuf =
      rewriteInPlace inBuf results 0 [] := rfl
  rw [inPlace, rewriteInPlace_eq, Nat.sub_zero, isParts, Nat.zero_add,
    if_pos (by omega), List.nil_append, Option.some_inj, ← iff, List.drop_zero]

theorem rewriteFile_eq_iff_whole :
    rewriteFile true true [2] [1#8, 2#8] = some [1#8, 2#8] ↔
      Repeating [1#8, 2#8] 0 [2] :=
  rewriteFile_eq_iff [1#8, 2#8] (by decide) rfl

/-- The second call writes the first byte again. -/
theorem rewriteFile_split :
    (∀ result ∈ [1, 1], (0 : Int) < result) ∧
      ([1, 1].map Int.toNat).sum = [1#8, 2#8].length ∧
      rewriteFile true true [1, 1] [1#8, 2#8] = some [1#8, 1#8] :=
  ⟨by decide, rfl, rfl⟩

end AFLPlusPlus.Trim
