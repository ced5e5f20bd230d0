import Mathlib.Algebra.BigOperators.Group.Finset.Basic
import Mathlib.Data.Nat.Count

/-!
# Counting below a bound

How the number of indices with a property, or the sum of a number for each index,
changes when one index changes, and how the number of items with a property
changes when one item is replaced.
-/

namespace Counting

variable {before after : Nat → Prop} [DecidablePred before]
  [DecidablePred after]

variable {bound changed : Nat}

theorem count_congr (same : ∀ index < bound, (before index ↔ after index)) :
    Nat.count before bound = Nat.count after bound := by
  induction bound with
  | zero => simp
  | succ bound induction =>
      rw [Nat.count_succ, Nat.count_succ,
        induction fun index inside => same index (by omega)]
      simp only [same bound (Nat.lt_succ_self bound)]

/-- Two properties that agree apart from one index. -/
theorem count_change {bound changed : Nat} (inside : changed < bound)
    (same : ∀ index < bound, index ≠ changed → (before index ↔ after index)) :
    Nat.count after bound + (if before changed then 1 else 0) =
      Nat.count before bound + (if after changed then 1 else 0) := by
  induction bound with
  | zero => omega
  | succ bound induction =>
      rw [Nat.count_succ, Nat.count_succ]
      by_cases last : changed = bound
      · subst changed
        rw [count_congr fun index below => same index (by omega) (by omega)]
        omega
      · have earlier := induction (by omega)
          fun index below other => same index (by omega) other
        simp only [same bound (Nat.lt_succ_self bound) (Ne.symm last)]
        omega

theorem count_add {bound changed : Nat} (inside : changed < bound)
    (same : ∀ index < bound, index ≠ changed → (before index ↔ after index))
    (absent : ¬before changed) (present : after changed) :
    Nat.count after bound = Nat.count before bound + 1 := by
  have change := count_change inside same
  rw [if_neg absent, if_pos present] at change
  omega

theorem count_remove (inside : changed < bound) (same : ∀ index < bound, index ≠ changed →
      (before index ↔ after index)) (present : before changed) (absent : ¬after changed) :
    Nat.count before bound = Nat.count after bound + 1 := by
  have change := count_change inside same
  rw [if_neg absent, if_pos present] at change
  omega

theorem count_keep (same : ∀ index < bound, index ≠ changed →
      (before index ↔ after index))
    (kept : changed < bound → (before changed ↔ after changed)) :
    Nat.count before bound = Nat.count after bound := by
  apply count_congr
  intro index inside
  by_cases isChanged : index = changed
  · subst changed
    exact kept inside
  · exact same index inside isChanged

theorem count_extend {wider : Nat} (le : bound ≤ wider)
    (absent : ∀ index, bound ≤ index → index < wider → ¬before index) :
    Nat.count before wider = Nat.count before bound := by
  induction wider, le using Nat.le_induction with
  | base => rfl
  | succ wider le induction =>
      rw [Nat.count_succ, if_neg (absent wider le (Nat.lt_succ_self wider)),
        Nat.add_zero]
      exact induction fun index above below => absent index above (by omega)

theorem exists_absent (fewer : Nat.count before bound < bound) :
    ∃ index < bound, ¬before index := by
  by_contra none
  have all : Nat.count before bound = bound := by
    rw [Nat.count_iff_forall]
    intro index inside
    by_contra absent
    exact none ⟨index, inside, absent⟩
  omega

/-- Two summands that agree apart from one index. -/
theorem sum_change (first second : Nat → Nat) (inside : changed < bound)
    (same : ∀ index < bound, index ≠ changed → second index = first index) :
    ∑ index ∈ Finset.range bound, second index + first changed =
      ∑ index ∈ Finset.range bound, first index + second changed := by
  induction bound with
  | zero => omega
  | succ bound induction =>
      rw [Finset.sum_range_succ, Finset.sum_range_succ]
      by_cases last : changed = bound
      · subst changed
        have rest : ∑ index ∈ Finset.range bound, second index =
            ∑ index ∈ Finset.range bound, first index := by
          apply Finset.sum_congr rfl
          intro index below
          have lower := Finset.mem_range.mp below
          exact same index (by omega) (by omega)
        omega
      · have earlier := induction (by omega)
          fun index below other => same index (by omega) other
        have unchanged := same bound (Nat.lt_succ_self bound) (Ne.symm last)
        omega

theorem countP_replaced {Item : Type} {items : List Item} {index : Nat}
    {old : Item} (current : items[index]? = some old) (new : Item)
    (counts : Item → Bool) :
    (items.set index new).countP counts + (if counts old then 1 else 0) =
      items.countP counts + if counts new then 1 else 0 := by
  obtain ⟨inside, found⟩ := List.getElem?_eq_some_iff.mp current
  have least := @List.boole_getElem_le_countP _ counts items index inside
  rw [List.countP_set inside, found]
  rw [found] at least
  omega

end Counting
