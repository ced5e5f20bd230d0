import AFLPlusPlus.Support.Regions
import Mathlib.Data.List.Infix

/-!
# Reducing a list by trials

A reducer proposes candidates for its list and adopts those that are kept.  Its
candidates have a block of the list removed, or some of its elements replaced
by a plain one, and so weigh less than the list.
-/

namespace Reduction

variable {α : Type}

abbrev History (α : Type) := List (List α × Bool)

def lastKept (history : History α) : Option (List α) := (history.find? (·.2)).map (·.1)

def current (original : List α) (history : History α) : List α :=
  (lastKept history).getD original

theorem current_cons (original candidate : List α) (kept : Bool)
    (history : History α) :
    current original ((candidate, kept) :: history) =
      if kept then candidate else current original history := by
  cases kept <;> rfl

theorem current_append (original : List α) (newer older : History α) :
    current original (newer ++ older) = current (current original older) newer := by
  induction newer with
  | nil => rfl
  | cons trial newer induction =>
      rw [List.cons_append, current_cons, current_cons, induction]

def removeBlock (pos len : Nat) (xs : List α) : List α :=
  xs.take pos ++ xs.drop (pos + len)

theorem removeBlock_sublist (pos len : Nat) (xs : List α) :
    (removeBlock pos len xs).Sublist xs := by
  have tail : (xs.drop (pos + len)).Sublist (xs.drop pos) := by
    rw [← List.drop_drop]
    exact List.drop_sublist len _
  have both := (List.Sublist.refl (xs.take pos)).append tail
  rwa [List.take_append_drop] at both

theorem length_removeBlock (pos len : Nat) (xs : List α) :
    (removeBlock pos len xs).length = min pos xs.length + (xs.length - pos - len) := by
  rw [removeBlock, List.length_append, List.length_take, List.length_drop]
  omega

theorem removeBlock_one (pos : Nat) (xs : List α) :
    removeBlock pos 1 xs = xs.eraseIdx pos :=
  (List.eraseIdx_eq_take_drop_succ xs pos).symm

theorem eraseIdx_of_eq_next (xs : List α) (pos : Nat)
    (same : xs[pos]? = xs[pos + 1]?) :
    xs.eraseIdx pos = xs.eraseIdx (pos + 1) := by
  apply List.ext_getElem?
  intro index
  rw [List.getElem?_eraseIdx, List.getElem?_eraseIdx]
  by_cases before : index < pos
  · rw [if_pos before, if_pos (by omega)]
  · by_cases here : index = pos
    · subst here
      rw [if_neg before, if_pos (by omega), same]
    · rw [if_neg before, if_neg (by omega)]

section Weight

variable [DecidableEq α] (plain : α)

def weight (xs : List α) : Nat := xs.length + xs.countP (· ≠ plain)

theorem weight_lt_of_sublist {xs ys : List α} (sublist : xs.Sublist ys)
    (shorter : xs.length < ys.length) : weight plain xs < weight plain ys := by
  have count := sublist.countP_le (p := fun x => decide (x ≠ plain))
  unfold weight
  omega

theorem weight_splice_replicate {xs : List α} {pos len : Nat}
    (inside : pos + len ≤ xs.length)
    (mixed : ∃ x ∈ (xs.drop pos).take len, x ≠ plain) :
    weight plain (Region.splice xs pos (List.replicate len plain)) <
      weight plain xs := by
  have length : (Region.splice xs pos (List.replicate len plain)).length = xs.length :=
    Region.length_splice (by rwa [List.length_replicate])
  obtain ⟨x, member, other⟩ := mixed
  have positive : 0 < ((xs.drop pos).take len).countP (· ≠ plain) :=
    List.countP_pos_iff.mpr ⟨x, member, decide_eq_true other⟩
  have parts : xs.countP (· ≠ plain) =
      (xs.take pos).countP (· ≠ plain) +
        (((xs.drop pos).take len).countP (· ≠ plain) +
          (xs.drop (pos + len)).countP (· ≠ plain)) := by
    conv_lhs => rw [← List.take_append_drop pos xs, List.countP_append,
      ← List.take_append_drop len (xs.drop pos), List.countP_append,
      List.drop_drop]
  have blank : (List.replicate len plain).countP (· ≠ plain) = 0 := by
    rw [List.countP_replicate]
    simp
  unfold weight
  rw [length, parts, Region.splice, List.countP_append, List.countP_append,
    blank, List.length_replicate]
  omega

theorem weight_map_replace {xs : List α} {symbol : α} (member : symbol ∈ xs)
    (other : symbol ≠ plain) :
    weight plain (xs.map fun x => if x = symbol then plain else x) <
      weight plain xs := by
  have never : ∀ ys : List α,
      (ys.map fun x => if x = symbol then plain else x).countP (· ≠ plain) ≤
        ys.countP (· ≠ plain) := by
    intro ys
    rw [List.countP_map]
    apply List.countP_mono_left
    intro x _ kept
    by_cases same : x = symbol
    · rw [same]
      exact decide_eq_true other
    · simpa [same] using kept
  obtain ⟨before, after, rfl⟩ := List.append_of_mem member
  have first := never before
  have last := never after
  unfold weight
  rw [List.length_map, List.map_append, List.map_cons, if_pos rfl,
    List.countP_append, List.countP_append, List.countP_cons_of_neg (by simp),
    List.countP_cons_of_pos (by simpa using other)]
  omega

end Weight

end Reduction
