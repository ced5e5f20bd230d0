import Mathlib.Data.List.Cycle

/-!
# Circular lists

Elements with a pointer to the next and to the previous one.  An element that is
put between the last and the first one of a circle, or taken out of there, leaves a
circle.
-/

namespace CircularLists

variable {α : Type} {next prev : α → Option α} {element first : α} {rest : List α}

/-- `after` is next to `before`, in both directions. -/
def Joined (next prev : α → Option α) (before after : α) : Prop :=
  next before = some after ∧ prev after = some before

/-- The pointers lead once around the elements. -/
def Circle (next prev : α → Option α) (elements : List α) : Prop :=
  elements.Nodup ∧ Cycle.Chain (Joined next prev) elements

theorem Circle.rotate {front back : List α} (circle : Circle next prev (front ++ back)) :
    Circle next prev (back ++ front) := by
  have rotated : front ++ back ~r back ++ front := List.isRotated_append
  refine ⟨rotated.nodup_iff.mp circle.1, ?_⟩
  rw [← Cycle.coe_eq_coe.mpr rotated]
  exact circle.2

/-- The last element of a list that is not empty. -/
abbrev lastOf (first : α) (rest : List α) : α :=
  (first :: rest).getLast (List.cons_ne_nil first rest)

theorem lastOf_cons : lastOf element (first :: rest) = lastOf first rest :=
  List.getLast_cons (List.cons_ne_nil first rest)

theorem circle_iff :
    Circle next prev (first :: rest) ↔ (first :: rest).Nodup ∧
      Joined next prev (lastOf first rest) first ∧
      (first :: rest).IsChain (Joined next prev) := by
  rw [Circle, Cycle.chain_ne_nil _ (List.cons_ne_nil first rest),
    List.isChain_cons_cons]

theorem Circle.next_eq (circle : Circle next prev (first :: rest)) :
    next first = (rest ++ [first]).head? := by
  obtain ⟨-, joined, chain⟩ := circle_iff.mp circle
  cases rest with
  | nil => exact joined.1
  | cons second rest => exact (List.isChain_cons_cons.mp chain).1.1

variable [DecidableEq α]

/-- The pointers between the last and the first element are no part of the chain. -/
theorem isChain_update (after before : Option α) (distinct : (first :: rest).Nodup)
    (chain : (first :: rest).IsChain (Joined next prev)) :
    (first :: rest).IsChain (Joined (Function.update next (lastOf first rest) after)
      (Function.update prev first before)) := by
  rw [List.isChain_iff_forall_rel_of_append_cons_cons] at chain ⊢
  intro left right front back is
  obtain ⟨forward, backward⟩ := chain is
  have isLast : lastOf first rest ∈ right :: back := by
    have last : (first :: rest).getLast? = some (lastOf first rest) :=
      List.getLast?_eq_some_getLast _
    rw [is, List.append_cons, List.getLast?_append_cons] at last
    exact List.mem_of_getLast? last
  have isFirst : first ∈ front ++ [left] := by
    have head : (first :: rest).head? = some first := rfl
    rw [is, List.append_cons, List.head?_append_of_ne_nil _ (by simp)] at head
    exact List.mem_of_mem_head? head
  rw [is, List.append_cons, List.nodup_append] at distinct
  refine ⟨?_, ?_⟩
  · rw [Function.update_of_ne (distinct.2.2 left (by simp) _ isLast), forward]
  · rw [Function.update_of_ne (distinct.2.2 first isFirst right (by simp)).symm, backward]

/-- `element` is put between the last and the first element. -/
theorem Circle.insert (circle : Circle next prev (first :: rest))
    (new : element ∉ first :: rest) :
    prev first = some (lastOf first rest) ∧ Circle
      (Function.update (Function.update next element (some first))
        (lastOf first rest) (some element))
      (Function.update (Function.update prev element (some (lastOf first rest)))
        first (some element)) (element :: first :: rest) := by
  obtain ⟨distinct, joined, chain⟩ := circle_iff.mp circle
  have isLast : lastOf first rest ∈ first :: rest := List.getLast_mem _
  have other : ∀ {member}, member ∈ first :: rest → member ≠ element :=
    fun member => ne_of_mem_of_not_mem member new
  refine ⟨joined.2, circle_iff.mpr ⟨List.nodup_cons.mpr ⟨new, distinct⟩, ?_, ?_⟩⟩
  · rw [lastOf_cons]
    refine ⟨Function.update_self .., ?_⟩
    rw [Function.update_of_ne (other List.mem_cons_self).symm, Function.update_self]
  · refine List.isChain_cons_cons.mpr ⟨⟨?_, Function.update_self ..⟩, ?_⟩
    · rw [Function.update_of_ne (other isLast).symm, Function.update_self]
    · apply isChain_update _ _ distinct
      refine chain.imp_of_mem_imp fun left right leftIn rightIn both => ⟨?_, ?_⟩
      · rw [Function.update_of_ne (other leftIn), both.1]
      · rw [Function.update_of_ne (other rightIn), both.2]

/-- `element` is taken out between the last and the first of the others. -/
theorem Circle.unlink (circle : Circle next prev (element :: first :: rest)) :
    prev element = some (lastOf first rest) ∧ next element = some first ∧ Circle
      (Function.update next (lastOf first rest) (some first))
      (Function.update prev first (some (lastOf first rest))) (first :: rest) := by
  obtain ⟨distinct, joined, chain⟩ := circle_iff.mp circle
  rw [List.isChain_cons_cons] at chain
  have others := (List.nodup_cons.mp distinct).2
  rw [lastOf_cons] at joined
  exact ⟨joined.2, chain.1.1, circle_iff.mpr ⟨others,
    ⟨Function.update_self .., Function.update_self ..⟩,
    isChain_update _ _ others chain.2⟩⟩

end CircularLists
