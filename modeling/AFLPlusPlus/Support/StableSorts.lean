import AFLPlusPlus.Support.Qsort
import Mathlib.Data.List.Pairwise

/-!
# Stable sorts

What a stable sort does to any two items, one behind the other, is known when
its comparison function orders the items.  When it does not, the items may end
in any order.
-/

namespace Qsort

variable {Item : Type} {compare : Item → Item → Int} {items : List Item}
  {a b : Item}

/-- The items are only moved; they are sorted if the comparison function orders
them, and those that compare equal stay in order. -/
structure SortsStably
    (sort : (Item → Item → Int) → List Item → List Item) : Prop where
  permutes : Permutes sort
  sorts : Sorts sort
  stable : ∀ compare items, Consistent compare items → ∀ item ∈ items,
    (sort compare items).filter (fun other => compare item other = 0) =
      items.filter fun other => compare item other = 0

theorem Consistent.self (consistent : Consistent compare items)
    (member : a ∈ items) : compare a a = 0 := by
  have antisymm := consistent.antisymm a member a member
  omega

theorem Consistent.perm (consistent : Consistent compare items)
    {other : List Item} (perm : other.Perm items) :
    Consistent compare other :=
  consistent.subset perm.subset

theorem pair_sublist (first : a ∈ items) (second : b ∈ items)
    (different : a ≠ b) : [a, b].Sublist items ∨ [b, a].Sublist items := by
  induction items with
  | nil => cases first
  | cons item items induction =>
      cases first with
      | head =>
          cases second with
          | head => exact absurd rfl different
          | tail _ second =>
              exact .inl ((List.singleton_sublist.mpr second).cons_cons a)
      | tail _ first =>
          cases second with
          | head =>
              exact .inr ((List.singleton_sublist.mpr first).cons_cons b)
          | tail _ second =>
              exact (induction first second).imp (.cons item) (.cons item)

theorem pair_mem (pair : [a, b].Sublist items) : a ∈ items ∧ b ∈ items :=
  ⟨pair.subset List.mem_cons_self,
    pair.subset (List.mem_cons_of_mem _ List.mem_cons_self)⟩

theorem related_of_pair {Related : Item → Item → Prop}
    (pairwise : items.Pairwise Related) (pair : [a, b].Sublist items) :
    Related a b :=
  List.pairwise_iff_forall_sublist.mp pairwise pair

theorem pair_of_append {behind : List Item}
    (pair : [a, b].Sublist (items ++ behind)) :
    [a, b].Sublist items ∨ (a ∈ items ∧ [b].Sublist behind) ∨
      [a, b].Sublist behind := by
  obtain ⟨front, back, parts, inItems, inBehind⟩ := List.sublist_append_iff.mp pair
  cases front with
  | nil =>
      rw [List.nil_append] at parts
      rw [parts]
      exact .inr (.inr inBehind)
  | cons item front =>
      obtain ⟨rfl, rest⟩ := List.cons.inj parts
      cases front with
      | nil =>
          have alone : back = [b] := rest.symm
          rw [alone] at inBehind
          exact .inr (.inl ⟨List.singleton_sublist.mp inItems, inBehind⟩)
      | cons next front =>
          obtain ⟨rfl, empty⟩ := List.cons.inj rest
          obtain ⟨rfl, _⟩ := List.append_eq_nil_iff.mp empty.symm
          exact .inl inItems

section Pairs

variable {sort : (Item → Item → Int) → List Item → List Item}

section

variable (sorts : SortsStably sort) (consistent : Consistent compare items)
include sorts consistent

theorem SortsStably.keeps (pair : [a, b].Sublist items) (order : compare a b ≤ 0) :
    [a, b].Sublist (sort compare items) := by
  obtain ⟨first, second⟩ := pair_mem pair
  have self := consistent.self first
  by_cases tie : compare a b = 0
  · have kept := pair.filter fun other => compare a other = 0
    rw [← sorts.stable compare items consistent a first] at kept
    have whole : [a, b].filter (fun other => compare a other = 0) = [a, b] := by
      simp [self, tie]
    rw [whole] at kept
    exact kept.trans List.filter_sublist
  · have perm := sorts.permutes compare items
    have different : a ≠ b := by
      intro same
      rw [← same] at tie
      exact tie self
    cases pair_sublist (perm.mem_iff.mpr first) (perm.mem_iff.mpr second)
      different with
    | inl kept => exact kept
    | inr turned =>
        have sorted := (sorts.sorts compare items consistent).2
        have back := related_of_pair sorted turned
        have antisymm := consistent.antisymm b second a first
        omega

theorem SortsStably.turns (pair : [a, b].Sublist items) (disorder : 0 < compare a b) :
    [b, a].Sublist (sort compare items) := by
  obtain ⟨first, second⟩ := pair_mem pair
  have perm := sorts.permutes compare items
  have different : a ≠ b := by
    intro same
    have self := consistent.self first
    rw [← same] at disorder
    omega
  cases pair_sublist (perm.mem_iff.mpr first) (perm.mem_iff.mpr second)
    different with
  | inl kept =>
      have sorted := (sorts.sorts compare items consistent).2
      have order := related_of_pair sorted kept
      omega
  | inr turned => exact turned

theorem SortsStably.origin (pair : [a, b].Sublist (sort compare items)) :
    compare a b ≤ 0 ∧ ([a, b].Sublist items ∨
      ([b, a].Sublist items ∧ 0 < compare b a)) := by
  have perm := sorts.permutes compare items
  have sorted := (sorts.sorts compare items consistent).2
  have order := related_of_pair sorted pair
  refine ⟨order, ?_⟩
  obtain ⟨inSorted, inSorted'⟩ := pair_mem pair
  have first := perm.mem_iff.mp inSorted
  have second := perm.mem_iff.mp inSorted'
  have self := consistent.self first
  by_cases tie : compare a b = 0
  · have kept := pair.filter fun other => compare a other = 0
    rw [sorts.stable compare items consistent a first] at kept
    have whole : [a, b].filter (fun other => compare a other = 0) = [a, b] := by
      simp [self, tie]
    rw [whole] at kept
    exact .inl (kept.trans List.filter_sublist)
  · have different : a ≠ b := by
      intro same
      rw [← same] at tie
      exact tie self
    have antisymm := consistent.antisymm b second a first
    exact (pair_sublist first second different).imp_right fun turned =>
      ⟨turned, by omega⟩

end

end Pairs

theorem insertItem_filter {item : Item} {passes : Item → Bool}
    (before : ∀ next ∈ items, passes item = true → passes next = true →
      compare item next ≤ 0) :
    (insertItem compare item items).filter passes = (item :: items).filter passes := by
  induction items with
  | nil => rfl
  | cons next items induction =>
      have rest := induction fun other member =>
        before other (List.mem_cons_of_mem _ member)
      rw [insertItem]
      split
      · rfl
      · rename_i greater
        rw [List.filter_cons, rest]
        by_cases first : passes item = true
        · have second : passes next ≠ true := by
            intro second
            exact greater (before next List.mem_cons_self first second)
          simp [first, second]
        · simp [first, List.filter_cons]

theorem insertionSort_stable : SortsStably (@insertionSort Item) where
  permutes := insertionSort_perm
  sorts := insertionSort_sorts
  stable := by
    intro compare items consistent tied member
    -- the items behind are sorted first, whether the tied one is among them
    have stable : ∀ rest : List Item, rest ⊆ items →
        (insertionSort compare rest).filter
            (fun other => compare tied other = 0) =
          rest.filter fun other => compare tied other = 0 := by
      intro rest subset
      induction rest with
      | nil => rfl
      | cons item rest induction =>
          have here : item ∈ items := subset List.mem_cons_self
          have inside : ∀ next ∈ insertionSort compare rest, next ∈ items := by
            intro next isNext
            exact subset (List.mem_cons_of_mem _
              ((insertionSort_perm compare rest).subset isNext))
          rw [insertionSort, List.foldr_cons]
          refine (insertItem_filter ?_).trans ?_
          · intro next isNext first second
            have antisymm := consistent.antisymm tied member item here
            have antisymm' := consistent.antisymm item here tied member
            simp only [decide_eq_true_eq] at first second
            exact consistent.trans item here tied member next
              (inside next isNext) (by omega) (by omega)
          · have tail := induction fun next isNext =>
              subset (List.mem_cons_of_mem _ isNext)
            rw [insertionSort] at tail
            rw [List.filter_cons, List.filter_cons, tail]
    exact stable items fun _ => id

section Arbitrary

open Classical in
/-- A sort that returns what it likes where the comparison function does not
order the items. -/
noncomputable def arbitrarySort (other : List Item → List Item)
    (compare : Item → Item → Int) (items : List Item) : List Item :=
  if Consistent compare items then insertionSort compare items else other items

theorem arbitrarySort_stable {other : List Item → List Item}
    (permutes : ∀ items, (other items).Perm items) :
    SortsStably (arbitrarySort other) where
  permutes := by
    intro compare items
    rw [arbitrarySort]
    split
    · exact insertionSort_perm compare items
    · exact permutes items
  sorts := by
    intro compare items consistent
    rw [arbitrarySort, if_pos consistent]
    exact insertionSort_sorts compare items consistent
  stable := by
    intro compare items consistent
    rw [arbitrarySort, if_pos consistent]
    exact insertionSort_stable.stable compare items consistent

end Arbitrary

end Qsort
