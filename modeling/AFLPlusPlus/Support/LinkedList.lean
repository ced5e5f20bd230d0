import Mathlib.Data.List.Nodup

/-!
# Doubly linked lists

Links lie in a heap and point to each other.  An access to an address where
nothing is allocated is invalid.  A chain of links stands for a list of items
with their addresses.
-/

structure Link (Item : Type) where
  item : Item
  next : Option Nat
  prev : Option Nat

abbrev LinkHeap (Item : Type) := Nat → Option (Link Item)

namespace LinkHeap

variable {Item : Type}

def change (heap : LinkHeap Item) (address : Nat)
    (changed : Link Item → Link Item) : Option (LinkHeap Item) :=
  (heap address).map fun link =>
    Function.update heap address (some (changed link))

variable {link : Link Item} {before : List (Nat × Item)} {address : Nat}
    {last : Nat × Item}

theorem change_eq {heap : LinkHeap Item} (here : heap address = some link)
    (changed : Link Item → Link Item) :
    heap.change address changed =
      some (Function.update heap address (some (changed link))) := by
  unfold change
  rw [here]
  rfl

def free (heap : LinkHeap Item) (address : Nat) : LinkHeap Item :=
  Function.update heap address none

/-- A new link comes to the front.  Its pointer to the link before it is not
set. -/
def push (heap : LinkHeap Item) (head : Option Nat) (new : Nat)
    (unset : Option Nat) (item : Item) : Option (LinkHeap Item) :=
  let added := Function.update heap new
    (some { item, next := head, prev := unset })
  match head with
  | none => some added
  | some first => LinkHeap.change added first fun link =>
      { link with prev := some new }

def unlink (heap : LinkHeap Item) (head : Option Nat) (address : Nat) :
    Option (LinkHeap Item × Option Nat) := do
  let link ← heap address
  if head = some address then
    match link.next with
    | none => some (heap, none)
    | some next =>
        let heap ← heap.change next fun link => { link with prev := none }
        some (heap, some next)
  else
    match link.next with
    | some next =>
        let previous ← link.prev
        let heap ← heap.change previous fun link =>
          { link with next := some next }
        let heap ← LinkHeap.change heap next fun link =>
          { link with prev := some previous }
        some (heap, head)
    | none =>
        match link.prev with
        | some previous =>
            let heap ← heap.change previous fun link =>
              { link with next := none }
            some (heap, head)
        | none => some (heap, head)

/-- Links that point to each other in the order of a list of addresses and
items.  `behind` is the address before the list, if there is one. -/
def Chained (heap : LinkHeap Item) : Option Nat → Option Nat → List (Nat × Item) → Prop
  | _, head, [] => head = none
  | behind, head, entry :: rest =>
      head = some entry.1 ∧ ∃ link, heap entry.1 = some link ∧
        link.item = entry.2 ∧ (behind ≠ none → link.prev = behind) ∧
        Chained heap (some entry.1) link.next rest

/-- A list in the heap, where the first link may point to anything before it. -/
structure Represents (heap : LinkHeap Item) (head : Option Nat)
    (items : List (Nat × Item)) : Prop where
  chained : Chained heap none head items
  distinct : (items.map Prod.fst).Nodup

variable {heap other : LinkHeap Item} {behind head : Option Nat}
  {items rest : List (Nat × Item)} {entry : Nat × Item}

section

variable (chained : Chained heap behind head items)
include chained

theorem Chained.congr (same : ∀ entry ∈ items, other entry.1 = heap entry.1) :
    Chained other behind head items := by
  induction items generalizing behind head with
  | nil => exact chained
  | cons entry rest induction =>
      obtain ⟨isHead, link, here, isItem, back, onward⟩ := chained
      refine ⟨isHead, link, ?_, isItem, back, induction onward ?_⟩
      · rw [same entry List.mem_cons_self]
        exact here
      · intro entry member
        exact same entry (List.mem_cons_of_mem _ member)

theorem Chained.allocated (member : entry ∈ items) : heap entry.1 ≠ none := by
  induction items generalizing behind head with
  | nil => cases member
  | cons front rest induction =>
      obtain ⟨_, link, here, _, _, onward⟩ := chained
      rcases List.mem_cons.mp member with rfl | member
      · rw [here]
        exact Option.some_ne_none link
      · exact induction onward member

theorem Chained.ne_of_free (isFree : heap address = none) (member : entry ∈ items) :
    entry.1 ≠ address := by
  intro same
  apply chained.allocated member
  rw [same]
  exact isFree

end

theorem Chained.from (chained : Chained heap behind head (before ++ entry :: rest)) :
    ∃ behind, Chained heap behind (some entry.1) (entry :: rest) := by
  induction before generalizing behind head with
  | nil =>
      have isHead := chained.1
      subst isHead
      exact ⟨behind, chained⟩
  | cons front before induction =>
      obtain ⟨_, link, _, _, _, onward⟩ := chained
      exact induction onward

theorem Chained.found (chained : Chained heap behind head items)
    (member : entry ∈ items) :
    ∃ link, heap entry.1 = some link ∧ link.item = entry.2 := by
  obtain ⟨before, rest, rfl⟩ := List.append_of_mem member
  obtain ⟨_, _, link, here, isItem, _⟩ := chained.from
  exact ⟨link, here, isItem⟩

theorem Represents.empty (heap : LinkHeap Item) : Represents heap none [] :=
  ⟨rfl, List.nodup_nil⟩

theorem Represents.push (represents : Represents heap head items) {new : Nat}
    (isFree : heap new = none) (unset : Option Nat) (item : Item) :
    ∃ next, heap.push head new unset item = some next ∧
      Represents next (some new) ((new, item) :: items) := by
  obtain ⟨chained, distinct⟩ := represents
  have others : ∀ entry ∈ items, entry.1 ≠ new :=
    fun entry member => chained.ne_of_free isFree member
  have allDistinct : (((new, item) :: items).map Prod.fst).Nodup := by
    refine List.nodup_cons.mpr ⟨?_, distinct⟩
    intro member
    obtain ⟨entry, member, same⟩ := List.mem_map.mp member
    exact others entry member same
  cases items with
  | nil =>
      have isNone : head = none := chained
      subst isNone
      exact ⟨_, rfl, ⟨rfl, _, Function.update_self .., rfl,
        fun isSome => absurd rfl isSome, rfl⟩, allDistinct⟩
  | cons front rest =>
      obtain ⟨isHead, link, here, isItem, _, onward⟩ := chained
      subst isHead
      have apart : front.1 ≠ new := others front List.mem_cons_self
      have stays : Function.update heap new
          (some { item, next := some front.1, prev := unset }) front.1 =
            some link := by
        rw [Function.update_of_ne apart]
        exact here
      refine ⟨_, change_eq stays _,
        ⟨rfl, { item, next := some front.1, prev := unset }, ?_, rfl,
          fun isSome => absurd rfl isSome, rfl, _, Function.update_self ..,
          isItem, fun _ => rfl, ?_⟩, allDistinct⟩
      · rw [Function.update_of_ne (Ne.symm apart)]
        exact Function.update_self ..
      · apply onward.congr
        intro entry member
        have notFront : entry.1 ≠ front.1 := by
          intro same
          apply (List.nodup_cons.mp distinct).1
          exact List.mem_map.mpr ⟨entry, member, same⟩
        rw [Function.update_of_ne notFront, Function.update_of_ne
          (others entry (List.mem_cons_of_mem _ member))]

theorem push_free {next : LinkHeap Item} {new : Nat} {unset : Option Nat} {item : Item}
    (pushed : heap.push head new unset item = some next) (isFree : heap address = none)
    (apart : address ≠ new) :
    next address = none := by
  have stillFree : Function.update heap new
      (some { item, next := head, prev := unset }) address = none := by
    rw [Function.update_of_ne apart]
    exact isFree
  cases head with
  | none =>
      rw [← Option.some.inj pushed]
      exact stillFree
  | some first =>
      obtain ⟨link, atFirst, changed⟩ := Option.map_eq_some_iff.mp pushed
      rw [← changed, Function.update_of_ne]
      · exact stillFree
      · intro same
        subst same
        rw [stillFree] at atFirst
        cases atFirst

/-- What becomes of the links of a list when the one behind `last` is taken out
of it. -/
structure Bypassed (heap other : LinkHeap Item) (last entry : Nat × Item)
    (rest : List (Nat × Item)) : Prop where
  atLast : ∀ link, heap last.1 = some link →
    other last.1 = some { link with next := rest.head?.map Prod.fst }
  atNext : ∀ next ∈ rest.head?, ∀ link, heap next.1 = some link →
    other next.1 = some { link with prev := some last.1 }
  same : ∀ address, address ≠ last.1 →
    (∀ next ∈ rest.head?, address ≠ next.1) → other address = heap address

theorem Chained.behind_bypassed (chained : Chained heap (some entry.1) head rest)
    (bypassed : Bypassed heap other last entry rest)
    (distinct : ((last :: rest).map Prod.fst).Nodup) :
    Chained other (some last.1) (rest.head?.map Prod.fst) rest := by
  cases rest with
  | nil => rfl
  | cons next rest =>
      obtain ⟨_, link, here, isItem, _, onward⟩ := chained
      refine ⟨rfl, _, bypassed.atNext next rfl link here, isItem, fun _ => rfl,
        onward.congr ?_⟩
      obtain ⟨notLast, distinct⟩ := List.nodup_cons.mp distinct
      obtain ⟨notNext, _⟩ := List.nodup_cons.mp distinct
      intro later member
      apply bypassed.same
      · intro same
        exact notLast (List.mem_cons_of_mem _ (List.mem_map.mpr ⟨later, member, same⟩))
      · intro first isFirst same
        obtain rfl := Option.some.inj isFirst
        exact notNext (List.mem_map.mpr ⟨later, member, same⟩)

/-- A link that is not the first one is taken out. -/
theorem Chained.bypass
    (chained : Chained heap behind head (before ++ last :: entry :: rest))
    (bypassed : Bypassed heap other last entry rest)
    (distinct : ((before ++ last :: entry :: rest).map Prod.fst).Nodup) :
    Chained other behind head (before ++ last :: rest) := by
  induction before generalizing behind head with
  | nil =>
      obtain ⟨isHead, link, here, isItem, back, _, _, _, _, _, onward⟩ := chained
      refine ⟨isHead, _, bypassed.atLast link here, isItem, back,
        onward.behind_bypassed bypassed ?_⟩
      exact List.Nodup.sublist
        (((List.sublist_cons_self _ _).cons_cons _).map _) distinct
  | cons front before induction =>
      obtain ⟨isHead, link, here, isItem, back, onward⟩ := chained
      obtain ⟨notFront, distinct⟩ := List.nodup_cons.mp distinct
      have others : ∀ later ∈ before ++ last :: entry :: rest, front.1 ≠ later.1 := by
        intro later member same
        exact notFront (List.mem_map.mpr ⟨later, member, same.symm⟩)
      refine ⟨isHead, link, ?_, isItem, back, induction onward distinct⟩
      rw [bypassed.same front.1 (others last (by simp))]
      · exact here
      · intro next isFirst
        apply others
        have member := List.mem_of_mem_head? isFirst
        simp [member]

theorem Represents.free (represents : Represents heap head items)
    (outside : ∀ entry ∈ items, entry.1 ≠ address) :
    Represents (heap.free address) head items := by
  refine ⟨represents.chained.congr ?_, represents.distinct⟩
  intro entry member
  exact Function.update_of_ne (outside entry member) ..

theorem Represents.apart {before : List (Nat × Item)}
    (represents : Represents heap head (before ++ entry :: rest)) :
    ∀ other ∈ before ++ rest, other.1 ≠ entry.1 := by
  have distinct := represents.distinct
  rw [List.map_append, List.map_cons] at distinct
  have notThere := (List.nodup_cons.mp (List.nodup_middle.mp distinct)).1
  intro other member same
  apply notThere
  rw [← List.map_append]
  exact List.mem_map.mpr ⟨other, member, same⟩

theorem Represents.unlink_first
    (represents : Represents heap head (entry :: rest)) :
    ∃ next newHead, heap.unlink head entry.1 = some (next, newHead) ∧
      Represents (next.free entry.1) newHead rest := by
  have apart := @Represents.apart _ heap head rest entry [] represents
  obtain ⟨⟨isHead, link, here, isItem, _, onward⟩, distinct⟩ := represents
  obtain ⟨_, distinct⟩ := List.nodup_cons.mp distinct
  subst isHead
  cases rest with
  | nil =>
      have last : link.next = none := onward
      refine ⟨heap, none, ?_, rfl, distinct⟩
      simp only [unlink, here, last, if_true, Option.bind_eq_bind, Option.bind_some]
  | cons second rest =>
      obtain ⟨isNext, nextLink, there, isSecond, _, later⟩ := onward
      have changed := change_eq there fun link => { link with prev := none }
      refine ⟨Function.update heap second.1
        (some { nextLink with prev := none }), some second.1, ?_, ?_⟩
      · simp only [unlink, here, isNext, if_true, Option.bind_eq_bind,
          Option.bind_some, changed]
      · apply Represents.free _ apart
        refine ⟨⟨rfl, _, Function.update_self .., isSecond,
          fun isSome => absurd rfl isSome, later.congr ?_⟩, distinct⟩
        intro other member
        apply Function.update_of_ne
        intro same
        apply (List.nodup_cons.mp distinct).1
        exact List.mem_map.mpr ⟨other, member, same⟩

theorem bypassed_last {lastLink : Link Item} (atLast : heap last.1 = some lastLink) :
    Bypassed heap
      (Function.update heap last.1 (some { lastLink with next := none })) last
      entry [] where
  atLast other found := by
    rw [atLast] at found
    obtain rfl := Option.some.inj found
    exact Function.update_self ..
  atNext _ isFirst := absurd isFirst (Option.not_mem_none _)
  same _ apart _ := Function.update_of_ne apart ..

theorem bypassed_between {second : Nat × Item} {lastLink nextLink : Link Item}
    (atLast : heap last.1 = some lastLink) (there : heap second.1 = some nextLink)
    (notLast : second.1 ≠ last.1) :
    Bypassed heap
      (Function.update (Function.update heap last.1
        (some { lastLink with next := some second.1 })) second.1
          (some { nextLink with prev := some last.1 })) last entry
      (second :: rest) where
  atLast other found := by
    rw [atLast] at found
    obtain rfl := Option.some.inj found
    rw [Function.update_of_ne (Ne.symm notLast)]
    exact Function.update_self ..
  atNext first isFirst other found := by
    obtain rfl := Option.some.inj isFirst
    rw [there] at found
    obtain rfl := Option.some.inj found
    exact Function.update_self ..
  same _ apart apart' := by
    rw [Function.update_of_ne (apart' second rfl), Function.update_of_ne apart]

theorem Chained.head_ne (chained : Chained heap behind head (before ++ last :: rest))
    (apart : ∀ other ∈ before ++ [last], other.1 ≠ address) :
    head ≠ some address := by
  intro isHead
  subst isHead
  cases before with
  | nil => exact apart last List.mem_cons_self (Option.some.inj chained.1).symm
  | cons front before =>
      exact apart front List.mem_cons_self (Option.some.inj chained.1).symm

theorem Represents.unlink_behind
    (represents : Represents heap head (before ++ last :: entry :: rest)) :
    ∃ next, heap.unlink head entry.1 = some (next, head) ∧
      Represents (next.free entry.1) head (before ++ last :: rest) := by
  have split : before ++ last :: entry :: rest =
      (before ++ [last]) ++ entry :: rest := by
    rw [List.append_assoc, List.singleton_append]
  have apart : ∀ other ∈ before ++ last :: rest, other.1 ≠ entry.1 := by
    rw [split] at represents
    intro other member
    apply represents.apart
    rw [List.append_assoc, List.singleton_append]
    exact member
  obtain ⟨chained, distinct⟩ := represents
  obtain ⟨_, _, lastLink, atLast, _, _, isEntry, link, here, _, back, onward⟩ :=
    chained.from
  have isBack : link.prev = some last.1 := back (Option.some_ne_none _)
  have notHead : head ≠ some entry.1 := by
    apply chained.head_ne
    intro other member
    apply apart
    rcases List.mem_append.mp member with front | isLast
    · exact List.mem_append_left _ front
    · rw [List.mem_singleton.mp isLast]
      exact List.mem_append_right _ List.mem_cons_self
  have fewer : ((before ++ last :: rest).map Prod.fst).Nodup := by
    refine List.Nodup.sublist (List.Sublist.map _ ?_) distinct
    exact (List.Sublist.refl before).append
      ((List.sublist_cons_self _ _).cons_cons _)
  have done : ∀ other, Bypassed heap other last entry rest →
      Represents (LinkHeap.free other entry.1) head (before ++ last :: rest) :=
    fun other bypassed => Represents.free
      ⟨chained.bypass bypassed distinct, fewer⟩ apart
  have distinctTail : ((last :: rest).map Prod.fst).Nodup := by
    rw [List.map_append] at fewer
    exact fewer.of_append_right
  cases rest with
  | nil =>
      have isLast : link.next = none := onward
      have changed := change_eq atLast fun link => { link with next := none }
      refine ⟨_, ?_, done _ (bypassed_last atLast)⟩
      simp only [unlink, here, isLast, isBack, notHead, if_false,
        Option.bind_eq_bind, Option.bind_some, changed]
  | cons second rest =>
      obtain ⟨isNext, nextLink, there, _, _, _⟩ := onward
      have notLast : second.1 ≠ last.1 := by
        intro same
        apply (List.nodup_cons.mp distinctTail).1
        rw [List.map_cons, same]
        exact List.mem_cons_self
      have changed := change_eq atLast fun link =>
        { link with next := some second.1 }
      have stays : Function.update heap last.1
          (some { lastLink with next := some second.1 }) second.1 = some nextLink := by
        rw [Function.update_of_ne notLast]
        exact there
      have changedNext := change_eq stays fun link =>
        { link with prev := some last.1 }
      refine ⟨_, ?_, done _ (bypassed_between atLast there notLast)⟩
      simp only [unlink, here, isNext, isBack, notHead, if_false,
        Option.bind_eq_bind, Option.bind_some, changed, changedNext]

theorem Represents.unlink (represents : Represents heap head (before ++ entry :: rest)) :
    ∃ next newHead, heap.unlink head entry.1 = some (next, newHead) ∧
      Represents (next.free entry.1) newHead (before ++ rest) := by
  rcases before.eq_nil_or_concat with rfl | ⟨earlier, last, rfl⟩
  · exact represents.unlink_first
  · rw [List.concat_eq_append, List.append_assoc, List.singleton_append]
      at represents
    obtain ⟨next, unlinks, fewer⟩ := represents.unlink_behind
    refine ⟨next, head, unlinks, ?_⟩
    rw [List.concat_eq_append, List.append_assoc, List.singleton_append]
    exact fewer

theorem Chained.setItem (chained : Chained heap behind head (before ++ entry :: rest))
    (distinct : ((before ++ entry :: rest).map Prod.fst).Nodup)
    (here : heap entry.1 = some link) (item : Item) :
    Chained (Function.update heap entry.1 (some { link with item })) behind head
      (before ++ (entry.1, item) :: rest) := by
  induction before generalizing behind head with
  | nil =>
      obtain ⟨isHead, found, atEntry, _, back, onward⟩ := chained
      rw [here] at atEntry
      obtain rfl := Option.some.inj atEntry
      refine ⟨isHead, _, Function.update_self .., rfl, back, onward.congr ?_⟩
      intro other member
      apply Function.update_of_ne
      intro same
      apply (List.nodup_cons.mp distinct).1
      exact List.mem_map.mpr ⟨other, member, same⟩
  | cons front before induction =>
      obtain ⟨isHead, found, atFront, isItem, back, onward⟩ := chained
      obtain ⟨notFront, distinct⟩ := List.nodup_cons.mp distinct
      refine ⟨isHead, found, ?_, isItem, back, induction onward distinct⟩
      rw [Function.update_of_ne]
      · exact atFront
      · intro same
        apply notFront
        rw [same]
        exact List.mem_map.mpr ⟨entry, by simp, rfl⟩

theorem Represents.setItem (represents : Represents heap head (before ++ entry :: rest))
    (here : heap entry.1 = some link) (item : Item) :
    Represents (Function.update heap entry.1 (some { link with item })) head
      (before ++ (entry.1, item) :: rest) := by
  refine ⟨represents.chained.setItem represents.distinct here item, ?_⟩
  have distinct := represents.distinct
  rw [List.map_append, List.map_cons] at distinct ⊢
  exact distinct

end LinkHeap
