import Mathlib.Algebra.Order.Floor.Semiring
import Mathlib.Algebra.Order.Field.Basic
import Mathlib.Data.List.Range
import Mathlib.Tactic.Linarith

/-!
# Draws from a cumulative table

The running sums of positive shares divide an interval.  A drawn value selects
the first sum above it, and equidistant draws reach every part that is as wide
as their distance.
-/

namespace AFLPlusPlus

namespace Cumulative

section Search

variable {α : Type*} [LinearOrder α]

/-- The first of `n` values above the drawn one, or `n`. -/
def firstAbove (sums : Nat → α) (drawn : α) (n : Nat) : Nat :=
  ((List.range n).find? fun i => drawn < sums i).getD n

variable {sums : Nat → α} {drawn : α} {n i : Nat}

theorem firstAbove_eq_iff (inside : i < n) :
    firstAbove sums drawn n = i ↔ drawn < sums i ∧ ∀ j < i, sums j ≤ drawn := by
  have found : (List.range n).find? (fun i => drawn < sums i) = some i ↔
      drawn < sums i ∧ ∀ j < i, sums j ≤ drawn := by
    simp [List.find?_range_eq_some, inside]
  rw [← found, firstAbove]
  cases result : (List.range n).find? fun i => drawn < sums i with
  | none => simpa using Nat.ne_of_gt inside
  | some j => simp

theorem firstAbove_eq_of_between
    (grows : ∀ j, j + 1 < n → sums j ≤ sums (j + 1)) (inside : i < n)
    (below : drawn < sums i) (above : ∀ j, j + 1 = i → sums j ≤ drawn) :
    firstAbove sums drawn n = i := by
  refine (firstAbove_eq_iff inside).mpr ⟨below, ?_⟩
  have descends : ∀ k j, j + k + 1 = i → sums j ≤ drawn := by
    intro k
    induction k with
    | zero => exact fun j last => above j last
    | succ k induction =>
        intro j earlier
        exact (grows j (by omega)).trans (induction (j + 1) (by omega))
  intro j before
  exact descends (i - j - 1) j (by omega)

theorem firstAbove_le_of_lt (inside : i < n) (below : drawn < sums i) :
    firstAbove sums drawn n ≤ i := by
  unfold firstAbove
  cases result : (List.range n).find? fun i => drawn < sums i with
  | none =>
      have none := List.find?_eq_none.mp result i (List.mem_range.mpr inside)
      simp [below] at none
  | some j =>
      obtain ⟨_, _, first⟩ := List.find?_range_eq_some.mp result
      by_contra later
      have notYet := first i (Nat.lt_of_not_le later)
      simp [below] at notYet

end Search

section Sums

variable {K : Type*} [Field K]

def runningSum (share : Nat → K) : Nat → K
  | 0 => share 0
  | i + 1 => runningSum share i + share (i + 1)

theorem runningSum_div (share : Nat → K) (whole : K) (i : Nat) :
    runningSum (fun j => share j / whole) i = runningSum share i / whole := by
  induction i with
  | zero => rfl
  | succ i induction => rw [runningSum, runningSum, induction, ← add_div]

variable [LinearOrder K] [IsStrictOrderedRing K]

theorem runningSum_le {share : Nat → K} {most : K}
    (bounded : ∀ i, share i ≤ most) (i : Nat) :
    runningSum share i ≤ (i + 1) * most := by
  induction i with
  | zero => simpa [runningSum] using bounded 0
  | succ i induction =>
      have next := bounded (i + 1)
      rw [runningSum]
      push_cast
      linarith

theorem exists_multiple [FloorSemiring K] {step low high : K}
    (positive : 0 < step) (nonneg : 0 ≤ low) (wide : low + step ≤ high) :
    ∃ k : Nat, low ≤ k * step ∧ k * step < high := by
  refine ⟨⌈low / step⌉₊, ?_, ?_⟩
  · exact (div_le_iff₀ positive).mp (Nat.le_ceil _)
  · have next := Nat.ceil_lt_add_one (div_nonneg nonneg positive.le)
    calc (⌈low / step⌉₊ : K) * step
        < (low / step + 1) * step := mul_lt_mul_of_pos_right next positive
      _ = low + step := by
        rw [add_mul, div_mul_cancel₀ _ positive.ne', one_mul]
      _ ≤ high := wide

end Sums

section Draws

variable {K : Type*} [Field K] {share : Nat → K}

def before (share : Nat → K) (i : Nat) : K :=
  if i = 0 then 0 else runningSum share (i - 1)

theorem runningSum_eq_before_add (i : Nat) :
    runningSum share i = before share i + share i := by
  cases i with
  | zero => simp [runningSum, before]
  | succ i => simp [runningSum, before]

variable [LinearOrder K] [IsStrictOrderedRing K]

theorem runningSum_lt_succ (i : Nat) (positive : ∀ i, 0 < share i) :
    runningSum share i < runningSum share (i + 1) :=
  lt_add_of_pos_right _ (positive (i + 1))

theorem runningSum_strictMono (positive : ∀ i, 0 < share i) :
    StrictMono (runningSum share) :=
  strictMono_nat_of_lt_succ fun i => runningSum_lt_succ i positive

theorem runningSum_pos (positive : ∀ i, 0 < share i) (i : Nat) :
    0 < runningSum share i :=
  (positive 0).trans_le
    ((runningSum_strictMono positive).monotone (Nat.zero_le i))

theorem before_nonneg (positive : ∀ i, 0 < share i) (i : Nat) :
    0 ≤ before share i := by
  cases i with
  | zero => simp [before]
  | succ i => simpa [before] using (runningSum_pos positive i).le

theorem firstAbove_eq_of_inside (positive : ∀ i, 0 < share i) {drawn : K}
    {n i : Nat} (inside : i < n) (above : before share i ≤ drawn)
    (below : drawn < runningSum share i) :
    firstAbove (runningSum share) drawn n = i := by
  refine firstAbove_eq_of_between
    (fun j _ => (runningSum_lt_succ j positive).le) inside below ?_
  rintro j rfl
  simpa [before] using above

/-- Equidistant draws from the first sums reach each of their parts. -/
theorem exists_draw [FloorSemiring K] (positive : ∀ i, 0 < share i)
    {count last n i : Nat} (many : 0 < count)
    (wide : runningSum share last / count ≤ share i)
    (within : i ≤ last) (inside : i < n) :
    ∃ draw < count, firstAbove (runningSum share)
      (draw * (runningSum share last / count)) n = i := by
  have counted : (0 : K) < count := Nat.cast_pos.mpr many
  have step := div_pos (runningSum_pos positive last) counted
  have reached : before share i + runningSum share last / count ≤
      runningSum share i := by
    rw [runningSum_eq_before_add i]
    exact add_le_add_right wide _
  obtain ⟨draw, above, below⟩ :=
    exists_multiple step (before_nonneg positive i) reached
  refine ⟨draw, ?_, firstAbove_eq_of_inside positive inside above below⟩
  have bounded : draw * (runningSum share last / count) <
      count * (runningSum share last / count) := by
    rw [mul_div_cancel₀ _ counted.ne']
    exact below.trans_le ((runningSum_strictMono positive).monotone within)
  exact Nat.cast_lt.mp (lt_of_mul_lt_mul_right bounded step.le)

end Draws

end Cumulative

end AFLPlusPlus
