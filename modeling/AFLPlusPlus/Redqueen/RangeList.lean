import AFLPlusPlus.Redqueen.ColorSearch
import AFLPlusPlus.Support.LinkedList

/-!
# The linked list of ranges

`colorization` keeps its ranges in a doubly linked list that is changed while
the ranges are tested.  Whatever addresses are allocated, no access is invalid,
and the list is that of the search.
-/

namespace AFLPlusPlus.Redqueen

/-- The links of the ranges, and the variable `ranges`. -/
structure RangeList where
  heap : LinkHeap Range
  ranges : Option Nat

namespace RangeList

/-- `add_range`, where `new` is allocated and the rest of it is not set. -/
def addRange (list : RangeList) (new : Nat) (unset : Option Nat)
    (start stop : Nat) : Option RangeList :=
  (list.heap.push list.ranges new unset ⟨start, stop, 0⟩).map fun heap =>
    { heap, ranges := some new }

/-- The loop of `pop_biggest_range`, of at most `fuel` rounds. -/
def popBiggestFrom (list : RangeList) :
    Nat → Option Nat → Nat → Option Nat → Option (Option Nat)
  | _, none, _, rmax => some rmax
  | 0, some _, _, _ => none
  | fuel + 1, some r, maxSize, rmax => do
      let link ← list.heap r
      if link.item.ok = 0 ∧ maxSize ≤ link.item.size then
        popBiggestFrom list fuel link.next link.item.size (some r)
      else popBiggestFrom list fuel link.next maxSize rmax

def popBiggestRange (list : RangeList) (fuel : Nat) : Option (Option Nat) :=
  list.popBiggestFrom fuel list.ranges 0 none

/-- `rng->ok = 1` -/
def setOk (list : RangeList) (rng : Nat) : Option RangeList :=
  (list.heap.change rng fun link =>
    { link with item := { link.item with ok := 1 } }).map fun heap =>
      { list with heap }

def addHalves (list : RangeList) (rng : Range) (new : Nat × Nat)
    (unset : Option Nat × Option Nat) : Option RangeList :=
  if 1 < rng.size then do
    let list ← list.addRange new.1 unset.1 rng.start
      (rng.start + rng.size / 2 - 1)
    list.addRange new.2 unset.2 (rng.start + rng.size / 2) rng.stop
  else some list

/-- A range is split, taken out of the list and freed. -/
def discard (list : RangeList) (rng : Nat) (new : Nat × Nat)
    (unset : Option Nat × Option Nat) : Option RangeList := do
  let link ← list.heap rng
  let list ← list.addHalves link.item new unset
  let (heap, ranges) ← list.heap.unlink list.ranges rng
  some { heap := LinkHeap.free heap rng, ranges }

def Holds (list : RangeList) (items : List (Nat × Range)) : Prop :=
  list.heap.Represents list.ranges items

variable {list : RangeList} {items before rest : List (Nat × Range)}
  {entry : Nat × Range}

theorem Holds.addRange (holds : list.Holds items) {new : Nat}
    (isFree : list.heap new = none) (unset : Option Nat) (start stop : Nat) :
    ∃ next, list.addRange new unset start stop = some next ∧
      next.Holds ((new, ⟨start, stop, 0⟩) :: items) := by
  obtain ⟨heap, pushed, represents⟩ :=
    LinkHeap.Represents.push holds isFree unset ⟨start, stop, 0⟩
  refine ⟨{ heap, ranges := some new }, ?_, represents⟩
  rw [RangeList.addRange, pushed]
  rfl

def address (items : List (Nat × Range)) (found : Nat × Range) : Option Nat :=
  items[found.1]?.map Prod.fst

theorem popBiggestFrom_eq {behind head : Option Nat} {fuel maxSize : Nat}
    {rmax : Option (Nat × Range)}
    (chained : list.heap.Chained behind head rest)
    (enough : rest.length ≤ fuel) :
    list.popBiggestFrom fuel head maxSize
        (rmax.bind (address (before ++ rest))) =
      some ((Redqueen.popBiggestFrom (rest.map Prod.snd) before.length maxSize
        rmax).bind (address (before ++ rest))) := by
  induction rest generalizing before behind head fuel maxSize rmax with
  | nil =>
      have isNone : head = none := chained
      subst isNone
      unfold RangeList.popBiggestFrom
      rfl
  | cons entry rest induction =>
      obtain ⟨isHead, link, here, isItem, _, onward⟩ := chained
      subst isHead
      cases fuel with
      | zero => cases enough
      | succ fuel =>
          have split : before ++ entry :: rest = (before ++ [entry]) ++ rest :=
            by rw [List.append_assoc, List.singleton_append]
          have length : (before ++ [entry]).length = before.length + 1 :=
            List.length_append
          have found : address (before ++ entry :: rest)
              (before.length, link.item) = some entry.1 := by
            unfold address
            rw [List.getElem?_append_right (Nat.le_refl _), Nat.sub_self]
            rfl
          have next := fun maxSize rmax => @induction (before ++ [entry])
            (some entry.1) link.next fuel maxSize rmax onward
            (Nat.le_of_succ_le_succ enough)
          rw [← split, length] at next
          rw [RangeList.popBiggestFrom, List.map_cons, Redqueen.popBiggestFrom,
            here, ← isItem]
          dsimp only [Option.bind_eq_bind, Option.bind_some]
          split
          · rw [← next, Option.bind_some, found]
          · exact next _ _

theorem popBiggestFrom_of_le {head : Option Nat} {fuel more maxSize : Nat}
    {rmax popped : Option Nat} (le : fuel ≤ more)
    (pops : list.popBiggestFrom fuel head maxSize rmax = some popped) :
    list.popBiggestFrom more head maxSize rmax = some popped := by
  induction fuel generalizing more head maxSize rmax with
  | zero =>
      cases head with
      | none =>
          unfold RangeList.popBiggestFrom at pops ⊢
          exact pops
      | some r => cases pops
  | succ fuel induction =>
      cases head with
      | none =>
          unfold RangeList.popBiggestFrom at pops ⊢
          exact pops
      | some r =>
          obtain ⟨more, rfl⟩ :=
            Nat.exists_eq_add_of_lt (Nat.lt_of_lt_of_le (Nat.lt_succ_self _) le)
          have onward : fuel ≤ fuel + more := Nat.le_add_right _ _
          rw [RangeList.popBiggestFrom] at pops ⊢
          obtain ⟨link, here, rest⟩ := Option.bind_eq_some_iff.mp pops
          refine Option.bind_eq_some_iff.mpr ⟨link, here, ?_⟩
          split at rest
          · rename_i larger
            rw [if_pos larger]
            exact induction onward rest
          · rename_i smaller
            rw [if_neg smaller]
            exact induction onward rest

theorem Holds.popBiggestRange (holds : list.Holds items) {fuel : Nat}
    (enough : items.length ≤ fuel) :
    list.popBiggestRange fuel =
      some ((Redqueen.popBiggestRange (items.map Prod.snd)).bind (address items)) :=
  @popBiggestFrom_eq list [] items none list.ranges fuel 0 none holds.chained
    enough

theorem Holds.setOk (holds : list.Holds (before ++ entry :: rest)) :
    ∃ next, list.setOk entry.1 = some next ∧
      next.Holds (before ++ (entry.1, { entry.2 with ok := 1 }) :: rest) := by
  obtain ⟨link, here, isItem⟩ :=
    holds.chained.found (List.mem_append_right before List.mem_cons_self)
  have changed := LinkHeap.change_eq here fun link =>
    { link with item := { link.item with ok := 1 } }
  have marked := holds.setItem here { entry.2 with ok := 1 }
  rw [isItem] at changed
  refine ⟨{ list with heap := _ }, ?_, marked⟩
  rw [RangeList.setOk, changed]
  rfl

/-- The addresses that are allocated for the halves of a range. -/
structure Free (list : RangeList) (new : Nat × Nat) : Prop where
  first : list.heap new.1 = none
  second : list.heap new.2 = none
  apart : new.2 ≠ new.1

theorem Holds.addHalves (holds : list.Holds items) {new : Nat × Nat}
    (isFree : list.Free new) (unset : Option Nat × Option Nat) (rng : Range) :
    ∃ next halves, list.addHalves rng new unset = some next ∧
      next.Holds (halves ++ items) ∧ halves.map Prod.snd = rng.halves := by
  unfold RangeList.addHalves Range.halves
  split
  · obtain ⟨lower, added, holds⟩ := holds.addRange isFree.first unset.1
      rng.start (rng.start + rng.size / 2 - 1)
    have stillFree : lower.heap new.2 = none := by
      obtain ⟨heap, pushed, rfl⟩ := Option.map_eq_some_iff.mp added
      exact LinkHeap.push_free pushed isFree.second isFree.apart
    obtain ⟨upper, addedToo, holds⟩ := holds.addRange stillFree unset.2
      (rng.start + rng.size / 2) rng.stop
    refine ⟨upper, [(new.2, ⟨rng.start + rng.size / 2, rng.stop, 0⟩),
      (new.1, ⟨rng.start, rng.start + rng.size / 2 - 1, 0⟩)], ?_, holds, rfl⟩
    rw [added]
    exact addedToo
  · exact ⟨list, [], rfl, holds, rfl⟩

theorem Holds.discard (holds : list.Holds (before ++ entry :: rest))
    {new : Nat × Nat} (isFree : list.Free new)
    (unset : Option Nat × Option Nat) :
    ∃ next halves, list.discard entry.1 new unset = some next ∧
      next.Holds (halves ++ (before ++ rest)) ∧
      halves.map Prod.snd = entry.2.halves := by
  obtain ⟨link, here, isItem⟩ :=
    holds.chained.found (List.mem_append_right before List.mem_cons_self)
  obtain ⟨longer, halves, added, holds, areHalves⟩ :=
    holds.addHalves isFree unset entry.2
  unfold Holds at holds
  rw [← List.append_assoc] at holds
  obtain ⟨heap, ranges, unlinks, fewer⟩ := holds.unlink
  rw [List.append_assoc] at fewer
  refine ⟨{ heap := LinkHeap.free heap entry.1, ranges }, halves, ?_, fewer, areHalves⟩
  simp only [RangeList.discard, here, isItem, added, unlinks,
    Option.bind_eq_bind, Option.bind_some]

end RangeList

end AFLPlusPlus.Redqueen
