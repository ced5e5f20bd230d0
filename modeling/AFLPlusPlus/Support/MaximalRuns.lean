import Mathlib.Data.List.Basic

/-!
# Maximal runs

The positions of a sequence fall into runs of one value.  A run is maximal if it
cannot be made longer at either end.
-/

namespace MaximalRuns

variable {Value : Type} [DecidableEq Value] (values : Nat → Value)

/-- From `first` to `last` stands one value, and another one, or nothing, before
and behind. -/
def MaximalRun (count first last : Nat) : Prop :=
  first ≤ last ∧ last < count ∧
    (∀ position ≤ last, first ≤ position → values position = values first) ∧
    (first = 0 ∨ values (first - 1) ≠ values first) ∧
    (last + 1 = count ∨ values (last + 1) ≠ values last)

instance (count first last : Nat) : Decidable (MaximalRun values count first last) :=
  inferInstanceAs (Decidable (_ ∧ _))

def runStart : Nat → Nat
  | 0 => 0
  | position + 1 =>
      if values (position + 1) = values position then runStart position
      else position + 1

theorem runStart_le (position : Nat) : runStart values position ≤ position := by
  induction position with
  | zero => exact Nat.le_refl 0
  | succ position induction =>
      unfold runStart
      split
      · exact Nat.le_succ_of_le induction
      · exact Nat.le_refl _

theorem values_runStart (last : Nat) :
    ∀ position ≤ last, runStart values last ≤ position →
      values position = values (runStart values last) := by
  induction last with
  | zero =>
      intro position small _
      rw [Nat.le_zero.mp small]
      rfl
  | succ last induction =>
      unfold runStart
      split
      · rename_i same
        intro position small inside
        rcases Nat.lt_or_eq_of_le small with less | rfl
        · exact induction position (Nat.le_of_lt_succ less) inside
        · rw [same]
          exact induction last (Nat.le_refl last) (runStart_le values last)
      · intro position small inside
        rw [Nat.le_antisymm small inside]

theorem before_runStart (last : Nat) :
    runStart values last = 0 ∨
      values (runStart values last - 1) ≠ values (runStart values last) := by
  induction last with
  | zero => exact .inl rfl
  | succ last induction =>
      unfold runStart
      split
      · exact induction
      · rename_i different
        exact .inr (Ne.symm different)

variable {values}

theorem maximalRun_iff {count first last : Nat} :
    MaximalRun values count first last ↔
      last < count ∧ first = runStart values last ∧
        (last + 1 = count ∨ values (last + 1) ≠ values last) := by
  have start := runStart_le values last
  have same := values_runStart values last
  constructor
  · rintro ⟨ordered, inside, equal, before, behind⟩
    refine ⟨inside, ?_, behind⟩
    have left := same first ordered
    rcases Nat.lt_trichotomy first (runStart values last) with
      less | is | greater
    · rcases before_runStart values last with zero | different
      · omega
      · exfalso
        apply different
        rw [equal (runStart values last - 1) (by omega) (by omega),
          equal (runStart values last) start (by omega)]
    · exact is
    · rcases before with zero | different
      · omega
      · exfalso
        apply different
        rw [same (first - 1) (by omega) (by omega), same first ordered (by omega)]
  · rintro ⟨inside, rfl, behind⟩
    exact ⟨start, inside, same, before_runStart values last, behind⟩

/-- Among the starts up to a position only one is that of its run. -/
theorem filterMap_range_eq {Result : Type} (result : Nat → Result)
    {holds : Nat → Prop} [DecidablePred holds] {start last : Nat}
    (small : start ≤ last) (only : ∀ first, holds first → first = start) :
    ((List.range (last + 1)).filterMap fun first =>
      if holds first then some (result first) else none) =
        if holds start then [result start] else [] := by
  have none : ∀ {count : Nat}, count ≤ start →
      ((List.range count).filterMap fun first =>
        if holds first then some (result first) else none) = [] := by
    intro count few
    refine List.filterMap_eq_nil_iff.mpr fun first member => ?_
    have less := List.mem_range.mp member
    rw [if_neg]
    intro yes
    have is := only first yes
    omega
  induction last with
  | zero =>
      obtain rfl := Nat.le_zero.mp small
      simp only [Nat.zero_add, List.range_one, List.filterMap_cons, List.filterMap_nil]
      split <;> simp_all
  | succ last induction =>
      rw [List.range_succ, List.filterMap_append]
      rcases Nat.lt_or_eq_of_le small with less | rfl
      · rw [induction (Nat.le_of_lt_succ less)]
        have missing : ¬holds (last + 1) := by
          intro yes
          have is := only _ yes
          omega
        simp [missing]
      · rw [none (Nat.le_refl _), List.nil_append]
        simp only [List.filterMap_cons, List.filterMap_nil]
        split <;> simp_all

end MaximalRuns
