import Mathlib.Data.List.Perm.Basic

/-!
# Sorting with a comparison function

`qsort` sorts a list when its comparison function orders the items of the list.
What such a function returns is an integer whose sign is looked at.
-/

namespace Qsort

variable {Item : Type} {compare : Item → Item → Int} {items : List Item}

/-- A comparison function that orders the items of a list. -/
structure Consistent (compare : Item → Item → Int) (items : List Item) : Prop where
  antisymm : ∀ a ∈ items, ∀ b ∈ items, 0 < compare a b ↔ compare b a < 0
  trans : ∀ a ∈ items, ∀ b ∈ items, ∀ c ∈ items,
    compare a b ≤ 0 → compare b c ≤ 0 → compare a c ≤ 0

/-- What is promised of `qsort`. -/
def Sorts (qsort : (Item → Item → Int) → List Item → List Item) : Prop :=
  ∀ compare items, Consistent compare items →
    (qsort compare items).Perm items ∧
      (qsort compare items).Pairwise fun a b => compare a b ≤ 0

/-- The items are only moved, whatever the comparison function. -/
def Permutes (qsort : (Item → Item → Int) → List Item → List Item) : Prop :=
  ∀ compare items, (qsort compare items).Perm items

theorem Consistent.total (consistent : Consistent compare items) {a b : Item}
    (first : a ∈ items) (second : b ∈ items) :
    compare a b ≤ 0 ∨ compare b a ≤ 0 := by
  by_cases greater : 0 < compare a b
  · exact .inr (Int.le_of_lt ((consistent.antisymm a first b second).mp greater))
  · exact .inl (Int.not_lt.mp greater)

theorem Consistent.subset (consistent : Consistent compare items)
    {fewer : List Item} (subset : fewer ⊆ items) :
    Consistent compare fewer where
  antisymm a first b second := consistent.antisymm a (subset first) b (subset second)
  trans a first b second c third :=
    consistent.trans a (subset first) b (subset second) c (subset third)

theorem consistent_of_difference (key : Item → Int)
    (difference : ∀ a ∈ items, ∀ b ∈ items, compare a b = key a - key b) :
    Consistent compare items where
  antisymm a first b second := by
    rw [difference a first b second, difference b second a first]
    omega
  trans a first b second c third := by
    rw [difference a first b second, difference b second c third,
      difference a first c third]
    omega

/-- Insertion behind the items that are less. -/
def insertItem (compare : Item → Item → Int) (item : Item) : List Item → List Item
  | [] => [item]
  | next :: items =>
      if compare item next ≤ 0 then item :: next :: items
      else next :: insertItem compare item items

def insertionSort (compare : Item → Item → Int) (items : List Item) : List Item :=
  items.foldr (insertItem compare) []

theorem insertItem_perm (compare : Item → Item → Int) (item : Item)
    (items : List Item) :
    (insertItem compare item items).Perm (item :: items) := by
  induction items with
  | nil => exact .refl _
  | cons next items induction =>
      rw [insertItem]
      split
      · exact .refl _
      · exact (induction.cons next).trans (.swap item next items)

theorem insertItem_sorted {item : Item}
    (consistent : Consistent compare (item :: items))
    (sorted : items.Pairwise fun a b => compare a b ≤ 0) :
    (insertItem compare item items).Pairwise
      fun a b => compare a b ≤ 0 := by
  induction items with
  | nil => exact List.pairwise_singleton _ _
  | cons next items induction =>
      have here : item ∈ item :: next :: items := List.mem_cons_self
      have there : next ∈ item :: next :: items :=
        List.mem_cons_of_mem _ List.mem_cons_self
      rw [List.pairwise_cons] at sorted
      rw [insertItem]
      split
      · rename_i less
        refine List.pairwise_cons.mpr ⟨?_, List.pairwise_cons.mpr sorted⟩
        refine List.forall_mem_cons.mpr ⟨less, fun later mem => ?_⟩
        exact consistent.trans _ here _ there _
          (List.mem_cons_of_mem _ (List.mem_cons_of_mem _ mem)) less
          (sorted.1 later mem)
      · rename_i greater
        have rest : item :: items ⊆ item :: next :: items :=
          List.cons_subset_cons _ (List.subset_cons_self _ _)
        refine List.pairwise_cons.mpr
          ⟨?_, induction (consistent.subset rest) sorted.2⟩
        intro later mem
        rcases List.mem_cons.mp
          ((insertItem_perm compare item items).subset mem) with same | mem
        · rw [same]
          exact (consistent.total here there).resolve_left greater
        · exact sorted.1 later mem

theorem insertionSort_perm (compare : Item → Item → Int)
    (items : List Item) : (insertionSort compare items).Perm items := by
  induction items with
  | nil => exact .nil
  | cons item items induction =>
      exact (insertItem_perm compare item _).trans (induction.cons item)

theorem insertionSort_sorts : Sorts (@insertionSort Item) := by
  intro compare items consistent
  refine ⟨insertionSort_perm compare items, ?_⟩
  induction items with
  | nil => exact .nil
  | cons item items induction =>
      have sorted := induction (consistent.subset (List.subset_cons_self _ _))
      exact insertItem_sorted (consistent.subset
        ((insertionSort_perm compare items).cons item).subset) sorted

end Qsort
