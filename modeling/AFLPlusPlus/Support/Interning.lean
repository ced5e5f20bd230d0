import Mathlib.Data.List.Nodup

/-!
# Numbering keys in the order of their first occurrence

A table of keys grows at its end, and the number of a key is its place in the
table, so that numbers handed out before stay what they are.
-/

namespace Interning

variable {Key : Type} [DecidableEq Key]

def add (table : List Key) (key : Key) : List Key :=
  if key ∈ table then table else table ++ [key]

/-- The table after all of `keys`. -/
def addAll (table keys : List Key) : List Key := keys.foldl add table

theorem mem_add (table : List Key) (key other : Key) :
    other ∈ add table key ↔ other ∈ table ∨ other = key := by
  unfold add
  split
  · rename_i known
    constructor
    · exact .inl
    · rintro (isKnown | rfl)
      · exact isKnown
      · exact known
  · simp

theorem prefix_add (table : List Key) (key : Key) : table <+: add table key := by
  unfold add
  split
  · exact List.prefix_refl table
  · exact List.prefix_append table [key]

theorem nodup_add {table : List Key} (distinct : table.Nodup) (key : Key) :
    (add table key).Nodup := by
  unfold add
  split
  · exact distinct
  · rename_i unknown
    rw [← List.concat_eq_append]
    exact distinct.concat unknown

theorem mem_addAll (table keys : List Key) (other : Key) :
    other ∈ addAll table keys ↔ other ∈ table ∨ other ∈ keys := by
  induction keys generalizing table with
  | nil => simp [addAll]
  | cons key keys induction =>
      have rest := induction (add table key)
      rw [mem_add, or_assoc] at rest
      rw [List.mem_cons]
      exact rest

theorem prefix_addAll (table keys : List Key) : table <+: addAll table keys := by
  induction keys generalizing table with
  | nil => exact List.prefix_refl table
  | cons key keys induction =>
      exact (prefix_add table key).trans (induction (add table key))

theorem nodup_addAll {table : List Key} (distinct : table.Nodup)
    (keys : List Key) : (addAll table keys).Nodup := by
  induction keys generalizing table with
  | nil => exact distinct
  | cons key keys induction => exact induction (nodup_add distinct key)

theorem addAll_append (table first second : List Key) :
    addAll table (first ++ second) = addAll (addAll table first) second :=
  List.foldl_append

theorem idxOf_of_grows {table longer : List Key} (grows : table <+: longer)
    {key : Key} (known : key ∈ table) :
    longer.idxOf key = table.idxOf key := by
  obtain ⟨rest, rfl⟩ := grows
  exact List.idxOf_append_of_mem known

end Interning
