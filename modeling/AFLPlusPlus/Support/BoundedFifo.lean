import Mathlib.Algebra.Order.Ring.Nat
import Mathlib.Data.List.Induction

/-!
# Bounded queues

A queue of items with weights that stays below a limit.  Before an item is
queued the oldest ones are released until it fits; an item that reaches the
limit on its own is released at once.
-/

/-- The items that are queued, oldest first, and those released so far. -/
structure BoundedFifo (α : Type) where
  queue : List α
  released : List α

namespace BoundedFifo

variable {α : Type} (weight : α → Nat) (limit : Nat)

def load (items : List α) : Nat := (items.map weight).sum

/-- Release the oldest items until there is room for a weight. -/
def makeRoom (size : Nat) : List α → List α → BoundedFifo α
  | [], released => ⟨[], released⟩
  | oldest :: queue, released =>
      if limit ≤ size + load weight (oldest :: queue) then
        makeRoom size queue (released ++ [oldest])
      else ⟨oldest :: queue, released⟩

def offer (fifo : BoundedFifo α) (item : α) : BoundedFifo α :=
  if limit ≤ weight item then
    { fifo with released := fifo.released ++ [item] }
  else
    let room := makeRoom weight limit (weight item) fifo.queue fifo.released
    { room with queue := room.queue ++ [item] }

def offers (items : List α) : BoundedFifo α :=
  items.foldl (offer weight limit) ⟨[], []⟩

theorem offers_append (items : List α) (item : α) :
    offers weight limit (items ++ [item]) =
      offer weight limit (offers weight limit items) item := by
  rw [offers, List.foldl_append]
  rfl

theorem makeRoom_append (size : Nat) (queue released : List α) :
    (makeRoom weight limit size queue released).released ++
        (makeRoom weight limit size queue released).queue =
      released ++ queue ∧
      (makeRoom weight limit size queue released).queue <:+ queue := by
  induction queue generalizing released with
  | nil => exact ⟨rfl, List.suffix_rfl⟩
  | cons oldest queue induction =>
      rw [makeRoom]
      split
      · obtain ⟨same, suffix⟩ := induction (released ++ [oldest])
        refine ⟨?_, suffix.trans (List.suffix_cons _ _)⟩
        rw [same, List.append_assoc]
        rfl
      · exact ⟨rfl, List.suffix_rfl⟩

variable {weight limit}

theorem offers_perm (items : List α) :
    ((offers weight limit items).released ++
      (offers weight limit items).queue).Perm items := by
  induction items using List.reverseRecOn with
  | nil => exact .refl _
  | append_singleton items item induction =>
      rw [offers_append, offer]
      split
      · rw [List.append_assoc]
        refine (List.Perm.append_left _ List.perm_append_comm).trans ?_
        rw [← List.append_assoc]
        exact induction.append_right [item]
      · rw [← List.append_assoc, (makeRoom_append _ _ _ _ _).1]
        exact induction.append_right [item]

theorem offers_large {items : List α}
    (large : ∀ item ∈ items, limit ≤ weight item) :
    offers weight limit items = ⟨[], items⟩ := by
  induction items using List.reverseRecOn with
  | nil => rfl
  | append_singleton items item induction =>
      rw [offers_append, offer, if_pos (large item (by simp)),
        induction fun item member => large item (by simp [member])]

theorem queue_ne_nil {items : List α}
    (small : ∃ item ∈ items, weight item < limit) :
    (offers weight limit items).queue ≠ [] := by
  induction items using List.reverseRecOn with
  | nil =>
      obtain ⟨item, member, _⟩ := small
      cases member
  | append_singleton items item induction =>
      rw [offers_append, offer]
      split
      · rename_i large
        apply induction
        obtain ⟨found, member, fits⟩ := small
        rcases List.mem_append.mp member with older | last
        · exact ⟨found, older, fits⟩
        · rw [List.mem_singleton.mp last] at fits
          omega
      · exact List.append_ne_nil_of_right_ne_nil _ (List.cons_ne_nil _ _)

end BoundedFifo
