import Mathlib.Order.Basic

/-!
# Cascades of thresholds

A cascade tries its tests one after another and takes the value of the first
that holds.  It is monotone if the tests which become true give the greatest
values first, and the tests which become false give the least values first.
-/

namespace AFLPlusPlus

namespace Cascade

variable {α : Type*} [Preorder α] {value rest rest' : α} {p p' : Prop}
  [Decidable p] [Decidable p']

theorem le_of_rising (rises : p → p') (above : rest ≤ value)
    (follows : rest ≤ rest') :
    (if p then value else rest) ≤ if p' then value else rest' := by
  by_cases holds : p
  · simp [holds, rises holds]
  · by_cases holds' : p'
    · simp [holds, holds', above]
    · simp [holds, holds', follows]

theorem le_of_falling (falls : p' → p) (below : value ≤ rest')
    (follows : rest ≤ rest') :
    (if p then value else rest) ≤ if p' then value else rest' := by
  by_cases holds' : p'
  · simp [holds', falls holds']
  · by_cases holds : p
    · simp [holds, holds', below]
    · simp [holds, holds', follows]

theorem ite_le {bound : α} (first : value ≤ bound) (others : rest ≤ bound) :
    (if p then value else rest) ≤ bound := by
  by_cases holds : p
  · simpa [holds] using first
  · simpa [holds] using others

theorem le_ite {bound : α} (first : bound ≤ value) (others : bound ≤ rest) :
    bound ≤ if p then value else rest := by
  by_cases holds : p
  · simpa [holds] using first
  · simpa [holds] using others

end Cascade

end AFLPlusPlus
