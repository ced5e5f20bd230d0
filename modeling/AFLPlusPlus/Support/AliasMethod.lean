import Mathlib.MeasureTheory.Measure.Lebesgue.Basic

/-!
# The alias method

A table with a probability and a second index for each column picks an index
from a column and a number between 0 and 1.  It is filled one column at a time:
a column takes what is left for its own index and is topped up by another one.
-/

namespace AliasMethod

/-- The columns of the method. -/
structure Table (K : Type) where
  probability : Nat → K
  second : Nat → Nat

section Filling

variable {K : Type} [Field K] [LinearOrder K] [IsStrictOrderedRing K]

/-- The part of a column that is for an index. -/
def Table.share (t : Table K) (i s : Nat) : K :=
  (if s = i then t.probability s else 0) +
    if t.second s = i then 1 - t.probability s else 0

/-- The columns in `done` are filled.  With what is left in `rest` for those
that are `pending`, every index has its target. -/
structure Filling (target : Nat → K) (done pending : List Nat) (rest : Nat → K)
    (t : Table K) : Prop where
  distinct : (pending ++ done).Nodup
  bounded : ∀ s ∈ done, 0 ≤ t.probability s ∧ t.probability s ≤ 1
  shares : ∀ i, target i =
    (pending.map fun s => if s = i then rest s else 0).sum + (done.map (t.share i)).sum
  total : (pending.map rest).sum = pending.length

variable {target rest : Nat → K} {done pending : List Nat} {t : Table K}

namespace Filling

omit [IsStrictOrderedRing K] in
theorem perm (filling : Filling target done pending rest t)
    {other : List Nat} (same : pending.Perm other) :
    Filling target done other rest t where
  distinct := (same.append_right done).nodup_iff.mp filling.distinct
  bounded := filling.bounded
  shares := by
    intro i
    rw [filling.shares i]
    exact congrArg (· + _) (same.map _).sum_eq
  total := by
    rw [← (same.map rest).sum_eq, filling.total, same.length_eq]

/-- Column `a` takes what is left for its index, and column `g` gives it the
rest. -/
theorem fill {a g : Nat} {others : List Nat}
    (filling : Filling target done (a :: g :: others) rest t)
    (positive : 0 ≤ rest a) (small : rest a ≤ 1) :
    Filling target (a :: done) (g :: others)
      (Function.update rest g (rest g + rest a - 1))
      ⟨Function.update t.probability a (rest a), Function.update t.second a g⟩ := by
  have distinct := filling.distinct
  simp only [List.cons_append, List.nodup_cons, List.mem_cons, not_or,
    List.mem_append] at distinct
  obtain ⟨⟨different, aOthers, aDone⟩, ⟨gOthers, gDone⟩, nodup⟩ := distinct
  have othersSame : ∀ f : Nat → K → K,
      (others.map fun s => f s (Function.update rest g
        (rest g + rest a - 1) s)) = others.map fun s => f s (rest s) := by
    intro f
    apply List.map_congr_left
    intro s member
    rw [Function.update_of_ne (ne_of_mem_of_not_mem member gOthers)]
  constructor
  · have moved : (g :: others ++ a :: done).Perm (a :: (g :: others ++ done)) :=
      List.perm_middle
    exact moved.nodup_iff.mpr filling.distinct
  · intro s member
    rcases List.mem_cons.mp member with same | before
    · subst same
      dsimp only
      rw [Function.update_self]
      exact ⟨positive, small⟩
    · dsimp only
      rw [Function.update_of_ne (ne_of_mem_of_not_mem before aDone)]
      exact filling.bounded s before
  · intro i
    have doneSame : done.map (Table.share ⟨Function.update t.probability a
        (rest a), Function.update t.second a g⟩ i) = done.map (t.share i) := by
      apply List.map_congr_left
      intro s member
      have other := ne_of_mem_of_not_mem member aDone
      simp only [Table.share, Function.update_of_ne other]
    have rests := othersSame fun s value => if s = i then value else 0
    rw [filling.shares i, List.map_cons, List.map_cons, List.map_cons,
      List.map_cons, doneSame, rests]
    simp only [List.sum_cons, Table.share, Function.update_self]
    by_cases isG : g = i
    · have notA : a ≠ i := fun same => different (same.trans isG.symm)
      simp only [isG, notA, if_true, if_false]
      ring
    · by_cases isA : a = i
      · simp only [isG, isA, if_true, if_false]
        ring
      · simp only [isG, isA, if_false]
        ring
  · have rests := othersSame fun _ value => value
    have total := filling.total
    simp only [List.map_cons, List.sum_cons, List.length_cons] at total ⊢
    rw [rests, Function.update_self]
    push_cast at total ⊢
    linarith

theorem rest_eq_one (filling : Filling target done pending rest t)
    (large : ∀ s ∈ pending, 1 ≤ rest s) : ∀ s ∈ pending, rest s = 1 := by
  have all : ∀ columns : List Nat, (∀ s ∈ columns, 1 ≤ rest s) →
      (columns.length : K) ≤ (columns.map rest).sum ∧
        ((columns.map rest).sum = columns.length → ∀ s ∈ columns, rest s = 1) := by
    intro columns
    induction columns with
    | nil => exact fun _ => ⟨by simp, fun _ s member => by cases member⟩
    | cons s columns induction =>
        intro large
        rw [List.forall_mem_cons] at large
        obtain ⟨least, whole⟩ := induction large.2
        rw [List.map_cons, List.sum_cons, List.length_cons]
        push_cast
        constructor
        · linarith [large.1]
        · intro total
          rw [List.forall_mem_cons]
          constructor
          · linarith [large.1]
          · apply whole
            linarith [large.1]
  exact (all pending large).2 filling.total

theorem pending_eq_nil (filling : Filling target done pending rest t)
    (small : ∀ s ∈ pending, rest s < 1) : pending = [] := by
  have all : ∀ columns : List Nat, (∀ s ∈ columns, rest s < 1) →
      (columns.map rest).sum ≤ columns.length ∧
        ((columns.map rest).sum = columns.length → columns = []) := by
    intro columns
    induction columns with
    | nil => exact fun _ => ⟨by simp, fun _ => rfl⟩
    | cons s columns induction =>
        intro small
        rw [List.forall_mem_cons] at small
        have most := (induction small.2).1
        rw [List.map_cons, List.sum_cons, List.length_cons]
        push_cast
        constructor
        · linarith [small.1]
        · intro total
          exfalso
          linarith [small.1]
  exact (all pending small).2 filling.total

/-- The columns that are left are for their own indices. -/
theorem finish (filling : Filling target done pending rest t)
    (whole : ∀ s ∈ pending, rest s = 1) {filled : Table K}
    (ones : ∀ s ∈ pending, filled.probability s = 1)
    (kept : ∀ s ∈ done, filled.probability s = t.probability s ∧
      filled.second s = t.second s) :
    (∀ s ∈ pending ++ done, 0 ≤ filled.probability s ∧ filled.probability s ≤ 1) ∧
      ∀ i, target i = ((pending ++ done).map (filled.share i)).sum := by
  constructor
  · intro s member
    rcases List.mem_append.mp member with left | before
    · rw [ones s left]
      exact ⟨zero_le_one, le_refl 1⟩
    · rw [(kept s before).1]
      exact filling.bounded s before
  · intro i
    have wholes : (pending.map fun s => if s = i then rest s else 0) =
        pending.map (filled.share i) := by
      apply List.map_congr_left
      intro s member
      rw [Table.share, ones s member, whole s member, sub_self, ite_self, add_zero]
    have sames : done.map (t.share i) = done.map (filled.share i) := by
      apply List.map_congr_left
      intro s member
      rw [Table.share, Table.share, (kept s member).1, (kept s member).2]
    rw [filling.shares i, wholes, sames, List.map_append, List.sum_append]

end Filling

end Filling

noncomputable section Chance

open MeasureTheory

def Table.cast (t : Table ℚ) : Table ℝ := ⟨fun s => t.probability s, t.second⟩

theorem Table.cast_share (t : Table ℚ) (i s : Nat) :
    t.cast.share i s = (t.share i s : ℝ) := by
  unfold share cast
  rw [Rat.cast_add, apply_ite (Rat.cast : ℚ → ℝ), apply_ite (Rat.cast : ℚ → ℝ),
    Rat.cast_sub, Rat.cast_zero, Rat.cast_one]

/-- The index that column `s` picks for a number. -/
def Table.pick (t : Table ℝ) (s : Nat) (p : ℝ) : Nat :=
  if p < t.probability s then s else t.second s

/-- The chance of an index, for a column and a number that are uniform. -/
def Table.chance (t : Table ℝ) (n i : Nat) : ℝ :=
  (∑ s ∈ Finset.range n, volume.real {p | p ∈ Set.Ico (0 : ℝ) 1 ∧ t.pick s p = i}) / n

theorem pick_eq_iff (t : Table ℝ) (s i : Nat) (p : ℝ) :
    t.pick s p = i ↔
      s = i ∧ p < t.probability s ∨ t.second s = i ∧ t.probability s ≤ p := by
  unfold Table.pick
  split
  · rename_i below
    rw [and_iff_left below, or_iff_left fun both => not_le.mpr below both.2]
  · rename_i above
    rw [and_iff_left (not_lt.mp above), or_iff_right fun both => above both.2]

theorem volume_pick {t : Table ℝ} {s : Nat} (positive : 0 ≤ t.probability s)
    (small : t.probability s ≤ 1) (i : Nat) :
    volume.real {p | p ∈ Set.Ico (0 : ℝ) 1 ∧ t.pick s p = i} = t.share i s := by
  have picks : {p | p ∈ Set.Ico (0 : ℝ) 1 ∧ t.pick s p = i} =
      (if s = i then Set.Ico 0 (t.probability s) else ∅) ∪
        if t.second s = i then Set.Ico (t.probability s) 1 else ∅ := by
    ext p
    constructor
    · rintro ⟨⟨nonneg, below⟩, picked⟩
      rcases (pick_eq_iff t s i p).mp picked with ⟨own, less⟩ | ⟨other, most⟩
      · rw [if_pos own]
        exact .inl ⟨nonneg, less⟩
      · rw [if_pos other]
        exact .inr ⟨most, below⟩
    · rintro (member | member)
      · split at member
        · rename_i own
          exact ⟨⟨member.1, lt_of_lt_of_le member.2 small⟩,
            (pick_eq_iff t s i p).mpr (.inl ⟨own, member.2⟩)⟩
        · cases member
      · split at member
        · rename_i other
          exact ⟨⟨le_trans positive member.1, member.2⟩,
            (pick_eq_iff t s i p).mpr (.inr ⟨other, member.1⟩)⟩
        · cases member
  rw [picks, Table.share]
  by_cases own : s = i
  · by_cases other : t.second s = i
    · rw [if_pos own, if_pos other, if_pos own, if_pos other,
        Set.Ico_union_Ico_eq_Ico positive small,
        Real.volume_real_Ico_of_le zero_le_one]
      ring
    · rw [if_pos own, if_neg other, if_pos own, if_neg other, Set.union_empty,
        Real.volume_real_Ico_of_le positive]
      ring
  · by_cases other : t.second s = i
    · rw [if_neg own, if_pos other, if_neg own, if_pos other, Set.empty_union,
        Real.volume_real_Ico_of_le small]
      ring
    · rw [if_neg own, if_neg other, if_neg own, if_neg other, Set.union_empty,
        Measure.real, measure_empty, ENNReal.toReal_zero, add_zero]

/-- The columns have the targets of all indices. -/
structure Filled (t : Table ℝ) (n : Nat) (target : Nat → ℝ) : Prop where
  bounded : ∀ s < n, 0 ≤ t.probability s ∧ t.probability s ≤ 1
  shares : ∀ i, target i = ∑ s ∈ Finset.range n, t.share i s

namespace Filled

variable {t : Table ℝ} {n : Nat} {target : Nat → ℝ}

theorem chance_eq (filled : Filled t n target) (i : Nat) :
    t.chance n i = target i / n := by
  rw [Table.chance, filled.shares i]
  congr 1
  apply Finset.sum_congr rfl
  intro s member
  have bounded := filled.bounded s (Finset.mem_range.mp member)
  exact volume_pick bounded.1 bounded.2 i

theorem share_nonneg (filled : Filled t n target) (i : Nat) {s : Nat}
    (inside : s < n) : 0 ≤ t.share i s := by
  obtain ⟨positive, small⟩ := filled.bounded s inside
  unfold Table.share
  split_ifs
  · linarith
  · linarith
  · linarith
  · linarith

theorem pick_ne (filled : Filled t n target) {i : Nat} (none : target i = 0)
    {s : Nat} (inside : s < n) {p : ℝ} (positive : 0 ≤ p) (small : p < 1) :
    t.pick s p ≠ i := by
  have zero : t.share i s = 0 := by
    have total := (filled.shares i).symm.trans none
    have nonneg : ∀ s ∈ Finset.range n, 0 ≤ t.share i s :=
      fun s member => filled.share_nonneg i (Finset.mem_range.mp member)
    exact (Finset.sum_eq_zero_iff_of_nonneg nonneg).mp total s
      (Finset.mem_range.mpr inside)
  obtain ⟨_, bounded⟩ := filled.bounded s inside
  unfold Table.share at zero
  intro picked
  rcases (pick_eq_iff t s i p).mp picked with ⟨own, below⟩ | ⟨other, above⟩
  · rw [if_pos own] at zero
    split at zero
    · linarith
    · linarith
  · rw [if_pos other] at zero
    split at zero
    · linarith
    · linarith

end Filled

end Chance

end AliasMethod
