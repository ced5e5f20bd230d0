import AFLPlusPlus.Support.CircularLists
import Mathlib.Data.List.FinRange

/-!
# The list and its preallocated elements

The elements of a `list_t` come from an array in the list, of which the first is
the head, and from `malloc` when the array is used up.  `none` is a run that ends
in `FATAL`, follows a null pointer or uses up its fuel.
-/

namespace AFLPlusPlus

open CircularLists

/-- An element of `element_prealloc_buf`, or one that `malloc` gave. -/
inductive ElementPtr where
  | preallocBuf (i : Fin 64)
  | malloc (address : Nat)
  deriving DecidableEq

inductive PreStatus where
  | unused
  | used
  | malloc
  deriving DecidableEq

/-- The status of an element that is handed out. -/
def ElementPtr.statusInUse : ElementPtr → PreStatus
  | preallocBuf _ => .used
  | malloc _ => .malloc

/-- The bookkeeping of `afl-prealloc.h`, with what is allocated of `malloc`. -/
structure Prealloc where
  preStatus : ElementPtr → PreStatus
  elementPreallocCount : Int
  allocated : Nat → Bool

structure ListT extends Prealloc where
  next : ElementPtr → Option ElementPtr
  prev : ElementPtr → Option ElementPtr
  data : ElementPtr → BitVec 64

namespace Prealloc

def setStatus (pool : Prealloc) (el : ElementPtr) (status : PreStatus) : Prealloc :=
  { pool with preStatus := Function.update pool.preStatus el status }

/-- `malloc` is what `malloc` returns, if it is called. -/
def preAlloc (pool : Prealloc) (malloc : Option Nat) : Option (ElementPtr × Prealloc) :=
  if 64 ≤ pool.elementPreallocCount then
    malloc.map fun address =>
      (.malloc address, { pool.setStatus (.malloc address) .malloc with
        allocated := Function.update pool.allocated address true })
  else
    match (List.finRange 64).find? fun i =>
      pool.preStatus (.preallocBuf i) = .unused with
    | some i => some (.preallocBuf i, { pool.setStatus (.preallocBuf i) .used with
        elementPreallocCount := pool.elementPreallocCount + 1 })
    -- the loop ends with the last element, which is handed out as it is
    | none => some (.preallocBuf 63, pool)

def preAllocForce (pool : Prealloc) (el : ElementPtr) : Option Prealloc :=
  if pool.preStatus el ≠ .unused then none
  else some { pool.setStatus el .used with
    elementPreallocCount := pool.elementPreallocCount + 1 }

def preFree (pool : Prealloc) (el : ElementPtr) : Option Prealloc :=
  match pool.preStatus el with
  | .used =>
      let pool := { pool.setStatus el .unused with
        elementPreallocCount := pool.elementPreallocCount - 1 }
      if pool.elementPreallocCount < 0 then none else some pool
  | .malloc =>
      let pool := pool.setStatus el .unused
      match el with
      | .malloc address => some { pool with
          allocated := Function.update pool.allocated address false }
      | .preallocBuf _ => some pool
  | .unused => none

end Prealloc

namespace ListT

/-- The first element is the head. -/
def getHead : ElementPtr := .preallocBuf 0

/-- A list of which every byte is 0. -/
def zeroed : ListT where
  preStatus := fun _ => .unused
  elementPreallocCount := 0
  allocated := fun _ => false
  next := fun _ => none
  prev := fun _ => none
  data := fun _ => 0

def listFreeEl (list : ListT) (el : ElementPtr) : Option ListT :=
  (list.preFree el).map fun pool => { list with toPrealloc := pool }

/-- `memset` clears what lies in the list, not what `malloc` gave. -/
def memset (list : ListT) : ListT :=
  let clear {Value : Type} (zero : Value) (old : ElementPtr → Value) :
      ElementPtr → Value
    | .preallocBuf _ => zero
    | el => old el
  { preStatus := clear .unused list.preStatus
    elementPreallocCount := 0
    allocated := list.allocated
    next := clear none list.next
    prev := clear none list.prev
    data := clear 0 list.data }

/-- What `list_append` starts with. -/
def initHead (list : ListT) : Option ListT :=
  if list.next getHead = none then do
    let list := list.memset
    let pool ← list.preAllocForce getHead
    some { list with
      toPrealloc := pool
      next := Function.update list.next getHead (some getHead)
      prev := Function.update list.prev getHead (some getHead) }
  else some list

def listAppend (list : ListT) (malloc : Option Nat) (el : BitVec 64) :
    Option ListT := do
  let list ← list.initHead
  let (elBox, pool) ← list.preAlloc malloc
  let list := { list with
    toPrealloc := pool
    data := Function.update list.data elBox el
    next := Function.update list.next elBox (some getHead)
    prev := Function.update list.prev elBox (list.prev getHead) }
  let last ← list.prev getHead
  some { list with
    next := Function.update list.next last (some elBox)
    prev := Function.update list.prev getHead (some elBox) }

/-- What a block of `LIST_FOREACH` does in its n-th round, with whether it
returns. -/
abbrev Block := Nat → ElementPtr → Option ElementPtr → ListT → Option (Bool × ListT)

/-- The loop of `LIST_FOREACH`, with the elements it comes to and their data. -/
def foreachLoop (block : Block) : Nat → Nat → Option ElementPtr → ListT →
    Option (List (ElementPtr × BitVec 64) × Bool × ListT)
  | 0, _, _, _ => none
  | _ + 1, _, none, _ => none
  | fuel + 1, round, some elBox, list =>
      if elBox = getHead then some ([], false, list)
      else do
        let el := list.data elBox
        let next := list.next elBox
        let (returns, list) ← block round elBox next list
        if returns then some ([(elBox, el)], true, list)
        else
          let (visited, rest) ← foreachLoop block fuel (round + 1) next list
          some ((elBox, el) :: visited, rest)

def listForeach (fuel : Nat) (block : Block) (list : ListT) :
    Option (List (ElementPtr × BitVec 64) × Bool × ListT) := do
  let first ← list.next getHead
  foreachLoop block fuel 0 (some first) list

/-- `el_box->prev->next = next; el_box->next->prev = el_box->prev`. -/
def unlink (list : ListT) (elBox : ElementPtr) (next : Option ElementPtr) :
    Option ListT := do
  let before ← list.prev elBox
  let list := { list with next := Function.update list.next before next }
  let after ← list.next elBox
  some { list with prev := Function.update list.prev after (list.prev elBox) }

/-- A block that removes the current element in some of its rounds. -/
def listRemoveCurrentElInForeach (removes : Nat → Bool) : Block :=
  fun round elBox next list =>
    if removes round then do
      let list ← list.unlink elBox next
      let list ← list.listFreeEl elBox
      some (false, list)
    else some (false, list)

/-- The block of `list_remove`. -/
def removeBlock (removeMe : BitVec 64) : Block := fun _ elBox _ list =>
  if list.data elBox = removeMe then do
    let list ← list.unlink elBox (list.next elBox)
    let list := { list with data := Function.update list.data elBox 0 }
    let list ← list.listFreeEl elBox
    some (true, list)
  else some (false, list)

def listRemove (fuel : Nat) (list : ListT) (removeMe : BitVec 64) : Option ListT := do
  let (_, returned, list) ← list.listForeach fuel (removeBlock removeMe)
  if returned then some list else none

end ListT

namespace Prealloc

variable {pool after : Prealloc} {inUse : List ElementPtr} {el : ElementPtr}

/-- The elements that are handed out, and no others. -/
structure Owns (pool : Prealloc) (inUse : List ElementPtr) : Prop where
  distinct : inUse.Nodup
  status : ∀ el ∈ inUse, pool.preStatus el = el.statusInUse
  unused : ∀ i, .preallocBuf i ∉ inUse → pool.preStatus (.preallocBuf i) = .unused
  allocated : ∀ address, pool.allocated address = true ↔ .malloc address ∈ inUse
  count : pool.elementPreallocCount = inUse.countP (·.statusInUse = .used)

theorem Owns.perm {other : List ElementPtr} (owns : pool.Owns inUse)
    (perm : inUse.Perm other) : pool.Owns other where
  distinct := perm.nodup_iff.mp owns.distinct
  status el member := owns.status el (perm.mem_iff.mpr member)
  unused i absent := owns.unused i fun member => absent (perm.mem_iff.mp member)
  allocated address := (owns.allocated address).trans perm.mem_iff
  count := by rw [owns.count, perm.countP_eq]

theorem Owns.push (owns : pool.Owns inUse) (fresh : el ∉ inUse)
    (status : after.preStatus = Function.update pool.preStatus el el.statusInUse)
    (allocated : ∀ address, after.allocated address = true ↔
      .malloc address = el ∨ pool.allocated address = true)
    (count : after.elementPreallocCount = pool.elementPreallocCount +
      if el.statusInUse = .used then 1 else 0) : after.Owns (el :: inUse) where
  distinct := List.nodup_cons.mpr ⟨fresh, owns.distinct⟩
  status other member := by
    rw [status]
    by_cases same : other = el
    · rw [same, Function.update_self]
    · rw [Function.update_of_ne same]
      exact owns.status other ((List.mem_cons.mp member).resolve_left same)
  unused i absent := by
    rw [List.mem_cons, not_or] at absent
    rw [status, Function.update_of_ne absent.1, owns.unused i absent.2]
  allocated address := by rw [allocated, owns.allocated, List.mem_cons]
  count := by
    rw [count, owns.count, List.countP_cons]
    simp only [decide_eq_true_eq]
    split <;> omega

theorem Owns.drop (owns : pool.Owns (el :: inUse))
    (status : after.preStatus = Function.update pool.preStatus el .unused)
    (allocated : ∀ address, after.allocated address = true ↔
      .malloc address ≠ el ∧ pool.allocated address = true)
    (count : after.elementPreallocCount = pool.elementPreallocCount -
      if el.statusInUse = .used then 1 else 0) : after.Owns inUse := by
  obtain ⟨apart, distinct⟩ := List.nodup_cons.mp owns.distinct
  have other : ∀ {member}, member ∈ inUse → member ≠ el :=
    fun member => ne_of_mem_of_not_mem member apart
  refine ⟨distinct, fun member isIn => ?_, fun i absent => ?_, fun address => ?_, ?_⟩
  · rw [status, Function.update_of_ne (other isIn)]
    exact owns.status member (List.mem_cons_of_mem _ isIn)
  · rw [status]
    by_cases same : .preallocBuf i = el
    · rw [same, Function.update_self]
    · rw [Function.update_of_ne same]
      exact owns.unused i (by simp [same, absent])
  · rw [allocated, owns.allocated, List.mem_cons]
    exact ⟨fun both => both.2.resolve_left both.1, fun isIn => ⟨other isIn, .inr isIn⟩⟩
  · rw [count, owns.count, List.countP_cons]
    simp only [decide_eq_true_eq]
    split <;> omega

/-- No element is handed out while it is in use. -/
theorem Owns.preAlloc (owns : pool.Owns inUse) {malloc : Option Nat}
    (honest : ∀ address ∈ malloc, pool.allocated address = false) :
    if 64 ≤ pool.elementPreallocCount ∧ malloc = none then pool.preAlloc malloc = none
    else ∃ el after, pool.preAlloc malloc = some (el, after) ∧ el ∉ inUse ∧
      after.Owns (el :: inUse) := by
  unfold Prealloc.preAlloc
  by_cases full : 64 ≤ pool.elementPreallocCount
  · rw [if_pos full]
    cases malloc with
    | none => rw [if_pos ⟨full, rfl⟩, Option.map_none]
    | some address =>
        rw [if_neg (by simp)]
        have fresh : .malloc address ∉ inUse := by
          rw [← owns.allocated, honest address rfl]
          simp
        refine ⟨_, _, rfl, fresh, owns.push fresh rfl (fun other => ?_) (add_zero _).symm⟩
        by_cases same : other = address <;> simp [same]
  · rw [if_neg full, if_neg fun both => full both.1]
    split
    · rename_i i found
      have unused := List.find?_some found
      have fresh : .preallocBuf i ∉ inUse := fun member => by
        rw [owns.status _ member] at unused
        cases unused
      exact ⟨_, _, rfl, fresh, owns.push fresh rfl (by simp [setStatus]) rfl⟩
    · rename_i none
      -- all the array is in use, so the counter is not below its length
      have all : (List.finRange 64).map ElementPtr.preallocBuf ⊆
          inUse.filter (·.statusInUse = .used) := by
        intro el member
        obtain ⟨i, isIn, rfl⟩ := List.mem_map.mp member
        refine List.mem_filter.mpr ⟨?_, rfl⟩
        by_contra absent
        exact List.find?_eq_none.mp none i isIn (decide_eq_true (owns.unused i absent))
      have distinct : ((List.finRange 64).map ElementPtr.preallocBuf).Nodup :=
        (List.nodup_finRange 64).map fun _ _ => ElementPtr.preallocBuf.inj
      have least := (List.subperm_of_subset distinct all).length_le
      rw [List.length_map, List.length_finRange, ← List.countP_eq_length_filter] at least
      rw [owns.count] at full
      omega

theorem Owns.preFree (owns : pool.Owns (el :: inUse)) :
    ∃ after, pool.preFree el = some after ∧ after.Owns inUse := by
  unfold Prealloc.preFree
  rw [owns.status el List.mem_cons_self]
  cases el with
  | preallocBuf i =>
      have count := owns.count
      rw [List.countP_cons_of_pos rfl] at count
      exact ⟨_, if_neg (by simp only; omega), owns.drop rfl (by simp [setStatus]) rfl⟩
  | malloc address =>
      refine ⟨_, rfl, owns.drop rfl (fun other => ?_) (sub_zero _).symm⟩
      by_cases same : other = address <;> simp [setStatus, same]

end Prealloc

namespace ListT

variable {list : ListT} {entries before rest : List (ElementPtr × BitVec 64)}
    {entry : ElementPtr × BitVec 64} {inUse : List ElementPtr}
    {sequence : Option (List (BitVec 64))}

/-- The entries in a circle with the head, while other elements may be in use. -/
structure Holding (list : ListT) (entries : List (ElementPtr × BitVec 64))
    (inUse : List ElementPtr) : Prop where
  circle : Circle list.next list.prev (getHead :: entries.map Prod.fst)
  data : ∀ entry ∈ entries, list.data entry.1 = entry.2
  owns : list.Owns inUse

/-- Between two calls all that is in use is in the circle. -/
abbrev Holds (list : ListT) (entries : List (ElementPtr × BitVec 64)) : Prop :=
  list.Holding entries (getHead :: entries.map Prod.fst)

theorem Holding.setData (holding : list.Holding entries inUse) {el : ElementPtr}
    (apart : el ∉ entries.map Prod.fst) (value : BitVec 64) :
    Holding { list with data := Function.update list.data el value } entries inUse where
  circle := holding.circle
  data entry member := by
    have other := ne_of_mem_of_not_mem (List.mem_map_of_mem member) apart
    exact (Function.update_of_ne other _ _).trans (holding.data entry member)
  owns := holding.owns

theorem Holding.listFreeEl {el : ElementPtr}
    (holding : list.Holding entries (el :: inUse)) :
    ∃ after, list.listFreeEl el = some after ∧ after.Holding entries inUse := by
  obtain ⟨pool, freed, owns⟩ := holding.owns.preFree
  rw [ListT.listFreeEl, freed]
  exact ⟨_, rfl, holding.circle, holding.data, owns⟩

section

variable (holds : list.Holds (before ++ entry :: rest))
include holds

/-- The circle, seen from one of its entries. -/
theorem Holds.from : Circle list.next list.prev
    (entry.1 :: (rest.map Prod.fst ++ getHead :: before.map Prod.fst)) := by
  have circle := holds.circle
  rw [List.map_append, List.map_cons, ← List.cons_append] at circle
  exact circle.rotate

theorem Holds.next_eq :
    list.next entry.1 = (rest.map Prod.fst ++ [getHead]).head? := by
  rw [holds.from.next_eq]
  cases rest <;> rfl

theorem Holds.unlink :
    ∃ unlinked, list.unlink entry.1 (list.next entry.1) = some unlinked ∧
      unlinked.Holding (before ++ rest)
        (entry.1 :: getHead :: (before ++ rest).map Prod.fst) := by
  have circle := holds.from
  obtain ⟨first, others, is⟩ := List.exists_cons_of_ne_nil
    (List.append_ne_nil_of_right_ne_nil (rest.map Prod.fst)
      (List.cons_ne_nil getHead (before.map Prod.fst)))
  rw [is] at circle
  obtain ⟨isPrev, isNext, removed⟩ := circle.unlink
  have apart : entry.1 ≠ lastOf first others :=
    (ne_of_mem_of_not_mem (List.getLast_mem _) (List.nodup_cons.mp circle.1).1).symm
  simp only [ListT.unlink, isPrev, isNext, Option.bind_eq_bind, Option.bind_some,
    Function.update_of_ne apart]
  refine ⟨_, rfl, ?_, fun other member => holds.data other ?_, holds.owns.perm ?_⟩
  · rw [← is] at removed
    simpa using removed.rotate
  · simp only [List.mem_append, List.mem_cons] at member ⊢
    exact member.imp_right .inr
  · rw [List.map_append, List.map_append, List.map_cons, ← List.cons_append]
    exact List.perm_middle

end

/-- What a pass comes to, whether it returns, and what it leaves. -/
def passOver (removes returns : Nat → BitVec 64 → Bool) :
    Nat → List (ElementPtr × BitVec 64) →
      List (ElementPtr × BitVec 64) × Bool × List (ElementPtr × BitVec 64)
  | _, [] => ([], false, [])
  | round, entry :: rest =>
      let kept := if removes round entry.2 then [] else [entry]
      if returns round entry.2 then ([entry], true, kept ++ rest)
      else
        let (visited, returned, left) := passOver removes returns (round + 1) rest
        (entry :: visited, returned, kept ++ left)

/-- The block removes the current element in some rounds, and returns in some. -/
def Decides (block : Block) (removes returns : Nat → BitVec 64 → Bool) : Prop :=
  ∀ round list before entry rest, Holds list (before ++ entry :: rest) →
    ∃ after, block round entry.1 (list.next entry.1) list =
        some (returns round entry.2, after) ∧
      after.Holds (before ++ ((if removes round entry.2 then [] else [entry]) ++ rest))

section

variable {removes returns : Nat → BitVec 64 → Bool} {block : Block}
    (decides : Decides block removes returns)
include decides

theorem Decides.loop (holds : list.Holds (before ++ rest)) {fuel : Nat}
    (enough : rest.length < fuel) (round : Nat) :
    let passes := passOver removes returns round rest
    ∃ after, foreachLoop block fuel round
        (rest.map Prod.fst ++ [getHead]).head? list = some (passes.1, passes.2.1, after) ∧
      after.Holds (before ++ passes.2.2) := by
  induction rest generalizing list before fuel round with
  | nil =>
      obtain ⟨fuel, rfl⟩ := Nat.exists_eq_add_of_lt enough
      exact ⟨list, by simp [foreachLoop, passOver], holds⟩
  | cons entry rest induction =>
      obtain ⟨fuel, rfl⟩ : ∃ less, fuel = less + 1 := ⟨fuel - 1, by omega⟩
      have member : entry ∈ before ++ entry :: rest := by simp
      have isEntry : (entry.1, list.data entry.1) = entry := by
        rw [holds.data entry member]
      have apart : entry.1 ≠ getHead := ne_of_mem_of_not_mem
        (List.mem_map_of_mem member) (List.nodup_cons.mp holds.circle.1).1
      obtain ⟨after, ran, left⟩ := decides round list before entry rest holds
      simp only [List.map_cons, List.cons_append, List.head?_cons, foreachLoop,
        if_neg apart, isEntry, passOver, ran, Option.bind_eq_bind, Option.bind_some]
      split
      · exact ⟨after, rfl, left⟩
      · rw [← List.append_assoc] at left
        obtain ⟨last, ended, holdsLast⟩ :=
          induction left (Nat.lt_of_succ_lt_succ enough) (round + 1)
        rw [holds.next_eq, ended]
        exact ⟨last, rfl, by simpa using holdsLast⟩

theorem Decides.foreach (holds : list.Holds entries) {fuel : Nat}
    (enough : entries.length < fuel) :
    let passes := passOver removes returns 0 entries
    ∃ after, list.listForeach fuel block = some (passes.1, passes.2.1, after) ∧
      after.Holds passes.2.2 := by
  have whole : list.Holds ([] ++ entries) := holds
  obtain ⟨after, loop, left⟩ := decides.loop whole enough 0
  refine ⟨after, ?_, left⟩
  rw [← loop, listForeach, holds.circle.next_eq]
  cases entries <;> rfl

end

theorem decides_removeCurrent (removes : Nat → Bool) :
    Decides (listRemoveCurrentElInForeach removes) (fun round _ => removes round)
      fun _ _ => false := by
  intro round list before entry rest holds
  unfold listRemoveCurrentElInForeach
  by_cases removed : removes round = true
  · obtain ⟨unlinked, unlinks, holding⟩ := holds.unlink
    obtain ⟨freed, frees, left⟩ := holding.listFreeEl
    refine ⟨freed, ?_, by rwa [if_pos removed]⟩
    rw [if_pos removed, unlinks, Option.bind_eq_bind, Option.bind_some, frees]
    rfl
  · exact ⟨list, if_neg removed, by rwa [if_neg removed]⟩

theorem decides_removeBlock (removeMe : BitVec 64) :
    Decides (removeBlock removeMe) (fun _ el => el = removeMe)
      fun _ el => el = removeMe := by
  intro round list before entry rest holds
  unfold removeBlock
  rw [holds.data entry (by simp)]
  by_cases found : entry.2 = removeMe
  · obtain ⟨unlinked, unlinks, holding⟩ := holds.unlink
    have apart := (List.nodup_cons.mp holding.owns.distinct).1
    obtain ⟨freed, frees, left⟩ :=
      (holding.setData (fun member => apart (.tail _ member)) 0).listFreeEl
    refine ⟨freed, ?_, by rwa [if_pos (decide_eq_true found)]⟩
    simp only [unlinks, Option.bind_eq_bind, Option.bind_some, frees, found, decide_true,
      if_true]
  · exact ⟨list, by simp [found], by rwa [if_neg (by simpa using found)]⟩

/-- What a pass leaves of the elements that it comes to. -/
def remaining (removes : Nat → Bool) : Nat → List (BitVec 64) → List (BitVec 64)
  | _, [] => []
  | round, element :: rest =>
      if removes round then remaining removes (round + 1) rest
      else element :: remaining removes (round + 1) rest

theorem passOver_removing (removes : Nat → Bool) (round : Nat) :
    ∃ left, passOver (fun round _ => removes round) (fun _ _ => false) round entries =
        (entries, false, left) ∧
      left.map Prod.snd = remaining removes round (entries.map Prod.snd) := by
  induction entries generalizing round with
  | nil => exact ⟨[], rfl, rfl⟩
  | cons entry rest induction =>
      obtain ⟨left, passes, same⟩ := induction (round + 1)
      simp only [passOver, passes, List.map_cons, remaining]
      exact ⟨_, rfl, by split <;> simp [same]⟩

theorem passOver_remove (removeMe : BitVec 64) (round : Nat) :
    ∃ visited left, passOver (fun _ el => el = removeMe) (fun _ el => el = removeMe)
        round entries = (visited, decide (removeMe ∈ entries.map Prod.snd), left) ∧
      left.map Prod.snd = (entries.map Prod.snd).erase removeMe := by
  induction entries generalizing round with
  | nil => exact ⟨[], [], rfl, rfl⟩
  | cons entry rest induction =>
      obtain ⟨visited, left, passes, same⟩ := induction (round + 1)
      by_cases found : entry.2 = removeMe
      · exact ⟨[entry], rest, by simp [passOver, found], by simp [found]⟩
      · exact ⟨entry :: visited, entry :: left,
          by simp [passOver, found, passes, Ne.symm found], by simp [found, same]⟩

/-- The list is the sequence, which the first `list_append` begins. -/
def Represents (list : ListT) : Option (List (BitVec 64)) → Prop
  | none => list = zeroed
  | some elements => ∃ entries, list.Holds entries ∧ entries.map Prod.snd = elements

theorem Represents.initHead (represents : list.Represents sequence) :
    ∃ start entries, list.initHead = some start ∧ start.Holds entries ∧
      entries.map Prod.snd = sequence.getD [] ∧
      (64 ≤ start.elementPreallocCount ↔ 64 ≤ list.elementPreallocCount) ∧
      start.allocated = list.allocated := by
  cases sequence with
  | none =>
      cases represents
      have none : zeroed.Owns [] := ⟨.nil, by simp, fun _ _ => rfl, by simp [zeroed], rfl⟩
      have cleared : zeroed.memset = zeroed := by
        simp only [memset, zeroed, ListT.mk.injEq, Prealloc.mk.injEq]
        refine ⟨⟨?_, trivial, trivial⟩, ?_, ?_, ?_⟩ <;> funext el <;> cases el <;> rfl
      rw [ListT.initHead, cleared]
      exact ⟨_, [], rfl, ⟨circle_iff.mpr ⟨by simp, ⟨rfl, rfl⟩, .singleton _⟩, by simp,
        none.push List.not_mem_nil rfl (fun _ => ⟨nofun, nofun⟩) rfl⟩, rfl, by decide, rfl⟩
  | some elements =>
      obtain ⟨entries, holds, same⟩ := represents
      refine ⟨list, entries, ?_, holds, same, .rfl, rfl⟩
      rw [ListT.initHead, holds.circle.next_eq, if_neg]
      cases entries <;> simp

theorem Holds.append (holds : list.Holds entries) {malloc : Option Nat}
    (honest : ∀ address ∈ malloc, list.allocated address = false) {start : ListT}
    (starts : start.initHead = some list) (el : BitVec 64) :
    if 64 ≤ list.elementPreallocCount ∧ malloc = none then
      start.listAppend malloc el = none
    else ∃ elBox after, start.listAppend malloc el = some after ∧
      after.Holds (entries ++ [(elBox, el)]) := by
  have given := holds.owns.preAlloc honest
  simp only [listAppend, starts, Option.bind_eq_bind, Option.bind_some]
  split at given
  · rw [if_pos ‹_›, given]
    rfl
  · rw [if_neg ‹_›]
    obtain ⟨elBox, pool, allocates, fresh, owns⟩ := given
    obtain ⟨isLast, circle⟩ := holds.circle.insert fresh
    have apart : elBox ≠ getHead := fun is => fresh (is ▸ List.mem_cons_self)
    have others : elBox ∉ entries.map Prod.fst := fun member => fresh (.tail _ member)
    have perm : (elBox :: getHead :: entries.map Prod.fst).Perm
        (getHead :: (entries ++ [(elBox, el)]).map Prod.fst) := by
      rw [List.map_append]
      exact (List.perm_append_singleton elBox (getHead :: entries.map Prod.fst)).symm
    simp only [allocates, Option.bind_some, Function.update_of_ne apart.symm, isLast]
    refine ⟨elBox, _, rfl, ?_, fun entry member => ?_, owns.perm perm⟩
    · rw [List.map_append]
      exact @Circle.rotate _ _ _ [elBox] _ circle
    · rcases List.mem_append.mp member with old | new
      · have other := ne_of_mem_of_not_mem (List.mem_map_of_mem old) others
        exact (Function.update_of_ne other _ _).trans (holds.data entry old)
      · rw [List.mem_singleton.mp new]
        exact Function.update_self ..

inductive ListCall where
  | append (el : BitVec 64) (malloc : Option Nat)
  | remove (removeMe : BitVec 64)
  | foreach (removes : Nat → Bool)

/-- A call, with what a pass comes to. -/
def ListCall.run (fuel : Nat) (list : ListT) :
    ListCall → Option (List (ElementPtr × BitVec 64) × ListT)
  | append el malloc => (list.listAppend malloc el).map ([], ·)
  | remove removeMe => (list.listRemove fuel removeMe).map ([], ·)
  | foreach removes => do
      let (visited, _, list) ← list.listForeach fuel
        (listRemoveCurrentElInForeach removes)
      some (visited, list)

/-- What a call means for a sequence, which the first `list_append` begins. -/
def ListCall.expected (list : ListT) : ListCall → Option (List (BitVec 64)) →
    Option (List (BitVec 64) × List (BitVec 64))
  | append el malloc, sequence =>
      if 64 ≤ list.elementPreallocCount ∧ malloc = none then none
      else some ([], sequence.getD [] ++ [el])
  | remove removeMe, sequence => do
      let elements ← sequence
      if removeMe ∈ elements then some ([], elements.erase removeMe) else none
  | foreach removes, sequence => do
      let elements ← sequence
      some (elements, remaining removes 0 elements)

/-- `malloc` gives nothing that is in use. -/
def ListCall.Honest (list : ListT) : ListCall → Prop
  | append _ malloc => ∀ address ∈ malloc, list.allocated address = false
  | _ => True

/-- A call has the meaning that it has for the sequence, and a pass comes to every
entry of the circle. -/
def ListCall.Answers (call : ListCall) (list : ListT)
    (sequence : Option (List (BitVec 64))) (fuel : Nat) : Prop :=
  match call.run fuel list, call.expected list sequence with
  | some (visited, after), some (elements, later) =>
      visited.map Prod.snd = elements ∧ after.Represents (some later) ∧
        ∀ removes, call = .foreach removes → list.Holds visited
  | none, none => True
  | _, _ => False

theorem Represents.answers (represents : list.Represents sequence) {call : ListCall}
    (honest : call.Honest list) {fuel : Nat}
    (enough : (sequence.getD []).length < fuel) : call.Answers list sequence fuel := by
  cases call with
  | append el malloc =>
      obtain ⟨start, entries, starts, holds, same, isFull, allocated⟩ :=
        represents.initHead
      have honestAfter : ∀ address ∈ malloc, start.allocated address = false :=
        allocated ▸ honest
      have appended := holds.append honestAfter starts el
      simp only [ListCall.Answers, ListCall.run, ListCall.expected, ← isFull]
      split at appended
      · rw [if_pos ‹_›, appended]
        trivial
      · obtain ⟨elBox, after, ran, left⟩ := appended
        rw [if_neg ‹_›, ran]
        exact ⟨rfl, ⟨_, left, by rw [List.map_append, same]; rfl⟩, nofun⟩
  | remove removeMe =>
      cases sequence with
      | none =>
          cases represents
          trivial
      | some elements =>
          obtain ⟨entries, holds, rfl⟩ := represents
          obtain ⟨after, ran, left⟩ := (decides_removeBlock removeMe).foreach holds
            (by simpa using enough)
          obtain ⟨visited, rest, passes, erased⟩ := passOver_remove removeMe 0
          rw [passes] at ran left
          simp only [ListCall.Answers, ListCall.run, listRemove, ran, ListCall.expected,
            Option.bind_eq_bind, Option.bind_some]
          by_cases found : removeMe ∈ entries.map Prod.snd
          · simp only [found, decide_true, if_true, Option.map_some]
            exact ⟨rfl, ⟨rest, left, erased⟩, nofun⟩
          · simp [found]
  | foreach removes =>
      cases sequence with
      | none =>
          cases represents
          trivial
      | some elements =>
          obtain ⟨entries, holds, rfl⟩ := represents
          obtain ⟨after, ran, left⟩ := (decides_removeCurrent removes).foreach holds
            (by simpa using enough)
          obtain ⟨rest, passes, remains⟩ := passOver_removing removes 0
          rw [passes] at ran left
          simp only [ListCall.Answers, ListCall.run, ran, ListCall.expected,
            Option.bind_eq_bind, Option.bind_some]
          exact ⟨trivial, ⟨rest, left, remains⟩, fun _ _ => holds⟩

/-- A list that calls lead to, with the sequence that they lead to. -/
inductive Reached : ListT → Option (List (BitVec 64)) → Prop
  | zeroed : Reached zeroed none
  | call {list after : ListT} {sequence} {call : ListCall} {fuel visited elements later}
      (reached : Reached list sequence) (honest : call.Honest list)
      (enough : (sequence.getD []).length < fuel)
      (ran : call.run fuel list = some (visited, after))
      (expected : call.expected list sequence = some (elements, later)) :
      Reached after (some later)

theorem Reached.represents (reached : Reached list sequence) :
    list.Represents sequence := by
  induction reached with
  | zeroed => rfl
  | call reached honest enough ran expected induction =>
      have answers := induction.answers honest enough
      rw [ListCall.Answers, ran, expected] at answers
      exact answers.2.1

/-- The list is the sequence at any time, no element that is in it is handed out,
and a call does to it what it does to the sequence. -/
theorem list_implements_sequence (reached : Reached list sequence) :
    list.Represents sequence ∧
      (∀ entries, list.Holds entries → ∀ malloc,
        (∀ address ∈ malloc, list.allocated address = false) →
          ∀ el ∈ list.preAlloc malloc, el.1 ∉ getHead :: entries.map Prod.fst) ∧
      ∀ call : ListCall, call.Honest list → ∀ fuel > (sequence.getD []).length,
        call.Answers list sequence fuel := by
  have represents := reached.represents
  refine ⟨represents, fun entries holds malloc honest el given => ?_,
    fun call honest fuel enough => represents.answers honest enough⟩
  have answers := holds.owns.preAlloc honest
  split at answers
  · rw [answers] at given
    cases given
  · obtain ⟨other, after, allocates, fresh, -⟩ := answers
    rw [allocates] at given
    cases given
    exact fresh

theorem list_implements_sequence_one : ∃ list, Represents list (some [7#64]) := by
  have honest : ListCall.Honest zeroed (.append 7#64 none) := nofun
  have reached := Reached.call .zeroed honest (by decide : 0 < 1) rfl rfl
  exact ⟨_, (list_implements_sequence reached).1⟩

end ListT

end AFLPlusPlus
