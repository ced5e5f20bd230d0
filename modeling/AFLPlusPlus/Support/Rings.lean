import Mathlib.Data.List.DropRight

/-!
# Rings

A fixed number of slots that are written one after the other, over and over.
Read from the slot that is written next, they are the last values that were
written, oldest first.
-/

namespace List

variable {α : Type} {size : Nat}

theorem rtake_append (size : Nat) (first second : List α) :
    (first ++ second).rtake size =
      first.rtake (size - second.length) ++ second.rtake size := by
  simp only [List.rtake, List.length_append, List.drop_append]
  have back : first.length + second.length - size - first.length =
      second.length - size := by omega
  rw [back]
  congr 1
  by_cases fits : second.length ≤ size
  · congr 1
    omega
  · rw [List.drop_of_length_le (by omega), List.drop_of_length_le (by omega)]

variable {items : List α}

theorem rtake_of_length_le (short : items.length ≤ size) :
    items.rtake size = items := by
  rw [List.rtake, Nat.sub_eq_zero_of_le short, List.drop_zero]

theorem rtake_rtake_concat (items : List α) (item : α) :
    (items.rtake size ++ [item]).rtake size = (items ++ [item]).rtake size := by
  cases size with
  | zero => simp
  | succ size =>
      rw [List.rtake_concat_succ, List.rtake_concat_succ]
      congr 1
      simp only [List.rtake, List.length_drop, List.drop_drop]
      congr 1
      omega

theorem rtake_concat_full (positive : 0 < size) (full : items.length = size) (item : α) :
    (items ++ [item]).rtake size = items.tail ++ [item] := by
  obtain ⟨before, rfl⟩ := Nat.exists_eq_add_of_le' positive
  rw [List.rtake_concat_succ, List.rtake, full, Nat.add_sub_cancel_left, List.drop_one]

theorem rdrop_append_rtake (items : List α) (size : Nat) :
    items.rdrop size ++ items.rtake size = items :=
  List.take_append_drop _ _

theorem length_rtake (items : List α) (size : Nat) :
    (items.rtake size).length = min size items.length := by
  rw [List.rtake, List.length_drop]
  omega

/-- The last of the items that pass a test are the last items, as far as they
pass it: all of the last items do, or none before them. -/
theorem filter_rtake {keep : α → Bool}
    (clear : (∀ item ∈ items.rtake size, keep item = true) ∨
      ∀ item ∈ items.rdrop size, keep item = false) :
    (items.rtake size).filter keep =
      (items.filter keep).rtake (min size items.length) := by
  have parts := congrArg (List.filter keep) (rdrop_append_rtake items size)
  rw [List.filter_append] at parts
  rw [← parts]
  have length := length_rtake items size
  cases clear with
  | inl all =>
      rw [List.filter_eq_self.mpr all, rtake_append, length, Nat.sub_self,
        List.rtake_zero, List.nil_append,
        rtake_of_length_le (Nat.le_of_eq length)]
  | inr none =>
      have before : (items.rdrop size).filter keep = [] := by
        apply List.filter_eq_nil_iff.mpr
        intro item member
        simp [none item member]
      have fewer := List.length_filter_le keep (items.rtake size)
      rw [length] at fewer
      rw [before, List.nil_append]
      exact (rtake_of_length_le fewer).symm

theorem filter_rtake_append {keep : α → Bool} {before : List α}
    (fails : ∀ item ∈ before, keep item = false) (items : List α) :
    ((before ++ items).rtake size).filter keep = (items.rtake size).filter keep := by
  rw [rtake_append, List.filter_append]
  have none : (before.rtake (size - items.length)).filter keep = [] := by
    apply List.filter_eq_nil_iff.mpr
    intro item member
    simp [fails item (List.mem_of_mem_drop member)]
  rw [none, List.nil_append]

end List

/-- Some slots, and the one that is written next. -/
structure SlotRing (α : Type) where
  slots : Nat → α
  next : Nat

namespace SlotRing

/-- The slot that stands `i` places behind another one. -/
def position (size start i : Nat) : Nat := (i + start) % size

def following (size slot : Nat) : Nat :=
  if size ≤ slot + 1 then 0 else slot + 1

def preceding (size slot : Nat) : Nat :=
  if slot = 0 then size - 1 else slot - 1

section Positions

variable {size start i : Nat}

theorem following_lt (positive : 0 < size) (slot : Nat) :
    following size slot < size := by
  simp only [following]
  split <;> omega

section

variable (inside : start < size)
include inside

theorem position_eq (below : i < size) :
    position size start i =
      if i + start < size then i + start else i + start - size := by
  rw [position]
  split
  · rename_i first
    exact Nat.mod_eq_of_lt first
  · rename_i wrapped
    rw [Nat.mod_eq_sub_mod (Nat.le_of_not_lt wrapped), Nat.mod_eq_of_lt (by omega)]

theorem position_following (below : i + 1 < size) :
    position size (following size start) i = position size start (i + 1) := by
  have next := following_lt (Nat.zero_lt_of_lt inside) start
  rw [position_eq next (by omega), position_eq inside below]
  grind [following]

theorem position_following_last :
    position size (following size start) (size - 1) = start := by
  have next := following_lt (Nat.zero_lt_of_lt inside) start
  rw [position_eq next (by omega)]
  grind [following]

theorem position_ne_start (below : i + 1 < size) :
    position size start (i + 1) ≠ start := by
  rw [position_eq inside below]
  grind

theorem position_last : position size start (size - 1) = preceding size start := by
  rw [position_eq inside (by omega)]
  grind [preceding]

theorem position_ne_preceding (below : i + 1 < size) :
    position size start i ≠ preceding size start := by
  rw [position_eq inside (by omega)]
  grind [preceding]

end

end Positions

variable {α : Type} (size : Nat)

/-- The slots, from the one that is written next on. -/
def window (ring : SlotRing α) : List α :=
  (List.range size).map fun i => ring.slots (position size ring.next i)

def push (ring : SlotRing α) (value : α) : SlotRing α where
  slots := Function.update ring.slots ring.next value
  next := following size ring.next

def latest (ring : SlotRing α) : α := ring.slots (preceding size ring.next)

/-- Blank all the slots but the one that was written last. -/
def keepLatest (ring : SlotRing α) (blank : α) : SlotRing α where
  slots := fun slot =>
    if slot = preceding size ring.next then ring.slots slot else blank
  next := ring.next

variable {size} {ring : SlotRing α}

@[simp] theorem length_window : (ring.window size).length = size := by
  simp [window]

theorem getElem_window {i : Nat} (below : i < size) :
    (ring.window size)[i]? = some (ring.slots (position size ring.next i)) := by
  simp only [window, List.getElem?_map, List.getElem?_range below, Option.map_some]

/-- A window is known by its last value and the others. -/
theorem window_eq_concat {others : List α} {last : α}
    (length : others.length + 1 = size)
    (before : ∀ i, i + 1 < size →
      others[i]? = some (ring.slots (position size ring.next i)))
    (final : ring.slots (position size ring.next (size - 1)) = last) :
    ring.window size = others ++ [last] := by
  apply List.ext_getElem?
  intro i
  by_cases below : i < size
  · rw [getElem_window below]
    by_cases notLast : i + 1 < size
    · rw [List.getElem?_append_left (by omega), before i notLast]
    · obtain rfl : i = others.length := by omega
      rw [List.getElem?_concat_length, ← final, ← length, Nat.add_sub_cancel]
  · rw [List.getElem?_eq_none (by simpa using below),
      List.getElem?_eq_none (by simp; omega)]

theorem window_push (inside : ring.next < size) (value : α) :
    (ring.push size value).window size = (ring.window size ++ [value]).rtake size := by
  rw [List.rtake_concat_full (Nat.zero_lt_of_lt inside) length_window]
  apply window_eq_concat
  · simp
    omega
  · intro i below
    have tail : (ring.window size).tail[i]? = (ring.window size)[i + 1]? := by
      simp
    rw [tail, getElem_window below]
    simp only [push]
    rw [position_following inside below,
      Function.update_of_ne (position_ne_start inside below)]
  · simp only [push]
    rw [position_following_last inside, Function.update_self]

theorem window_keepLatest (inside : ring.next < size) (blank : α) :
    (ring.keepLatest size blank).window size =
      List.replicate (size - 1) blank ++ [ring.latest size] := by
  apply window_eq_concat
  · simp
    omega
  · intro i below
    simp only [keepLatest]
    rw [if_neg (position_ne_preceding inside below),
      List.getElem?_replicate, if_pos (by omega)]
  · simp only [keepLatest]
    rw [position_last inside, if_pos rfl]
    rfl

theorem latest_push (inside : ring.next < size) (value : α) :
    (ring.push size value).latest size = value := by
  have next : (ring.push size value).next < size :=
    following_lt (Nat.zero_lt_of_lt inside) _
  rw [latest, ← position_last next]
  simp only [push]
  rw [position_following_last inside, Function.update_self]

end SlotRing
