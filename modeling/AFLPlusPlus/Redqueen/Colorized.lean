import AFLPlusPlus.Redqueen.RangeList

/-!
# Colorization is correct

The loop over the linked list of ranges makes the tests of a search.  What
`colorization` returns has the checksum of the original, and the taint is where
the bytes differ from it.
-/

namespace AFLPlusPlus.Redqueen

/-- The variables of the loop, with the tests that were made. -/
structure ColorLoop where
  tests : List ColorTest
  list : RangeList
  buf : List (BitVec 8)

/-- How a round ends: there is no range left, an execution ends the stage, or
the loop goes on. -/
inductive ColorRound where
  | done
  | aborted
  | goesOn (next : ColorLoop)

/-- A round of the loop, where the halves of a range are allocated at `new`.
There is no result if an access is invalid. -/
def ColorLoop.round (environment : ColorEnvironment) (execCksum : BitVec 64)
    (backup changed : List (BitVec 8)) (fuel : Nat) (new : Nat × Nat)
    (unset : Option Nat × Option Nat) (loop : ColorLoop) :
    Option ColorRound := do
  match ← loop.list.popBiggestRange fuel with
  | none => some .done
  | some rng =>
      let link ← loop.list.heap rng
      let replaced := link.item.copy loop.buf changed
      let run := environment.run (loop.tests.length + 1) replaced
      if run.aborts then some .aborted
      else if run.cksum ≠ execCksum ∨ run.tooSlow = true then
        let list ← loop.list.discard rng new unset
        some (.goesOn
          { tests := loop.tests ++ [⟨link.item, false⟩]
            list
            buf := link.item.copy replaced backup })
      else
        let list ← loop.list.setOk rng
        some (.goesOn
          { tests := loop.tests ++ [⟨link.item, true⟩]
            list
            buf := replaced })

/-- More rounds of the search for a range do not matter. -/
theorem ColorLoop.round_of_le {environment : ColorEnvironment}
    {execCksum : BitVec 64} {backup changed : List (BitVec 8)}
    {fuel more : Nat} {new : Nat × Nat} {unset : Option Nat × Option Nat}
    {loop : ColorLoop} {ended : ColorRound} (le : fuel ≤ more)
    (returns : loop.round environment execCksum backup changed fuel new unset =
      some ended) :
    loop.round environment execCksum backup changed more new unset =
      some ended := by
  obtain ⟨popped, pops, rest⟩ := Option.bind_eq_some_iff.mp returns
  exact Option.bind_eq_some_iff.mpr
    ⟨popped, RangeList.popBiggestFrom_of_le le pops, rest⟩

/-- What the loop may come to, whatever addresses are free when they are
allocated. -/
inductive ColorLoop.Reached (environment : ColorEnvironment)
    (execCksum : BitVec 64) (orig changed : List (BitVec 8)) :
    ColorLoop → Prop where
  | start {heap : LinkHeap Range} {new : Nat} {list : RangeList}
      (isFree : heap new = none) (unset : Option Nat)
      (added : RangeList.addRange { heap, ranges := none } new unset 0
        (orig.length - 1) = some list) :
      Reached environment execCksum orig changed
        { tests := [], list, buf := orig }
  | round {loop next : ColorLoop} {fuel : Nat} {new : Nat × Nat}
      {unset : Option Nat × Option Nat}
      (reached : Reached environment execCksum orig changed loop)
      (isFree : loop.list.Free new)
      (goesOn : loop.round environment execCksum orig changed fuel new unset =
        some (.goesOn next)) :
      Reached environment execCksum orig changed next

variable {environment : ColorEnvironment} {execCksum : BitVec 64}
  {orig changed buf : List (BitVec 8)} {loop : ColorLoop}
  {items : List (Nat × Range)}

/-- The loop has made the tests of a search, and its list holds the ranges. -/
structure ColorLoop.Follows (environment : ColorEnvironment)
    (execCksum : BitVec 64) (orig changed : List (BitVec 8))
    (loop : ColorLoop) (items : List (Nat × Range)) : Prop where
  holds : loop.list.Holds items
  search : ColorSearch environment execCksum orig changed loop.tests
    (items.map Prod.snd) loop.buf

/-- The end of a round that is right. -/
def ColorRound.Right (environment : ColorEnvironment) (execCksum : BitVec 64)
    (orig changed : List (BitVec 8)) (items : List (Nat × Range)) :
    ColorRound → Prop
  | .done => popBiggestRange (items.map Prod.snd) = none
  | .aborted => True
  | .goesOn next => ∃ items,
      next.Follows environment execCksum orig changed items

theorem found_split {index : Nat} {rng : Range}
    (found : (items.map Prod.snd)[index]? = some rng) :
    ∃ address before rest, items = before ++ (address, rng) :: rest ∧
      before.length = index := by
  rw [List.getElem?_map] at found
  obtain ⟨entry, here, rfl⟩ := Option.map_eq_some_iff.mp found
  obtain ⟨inside, isEntry⟩ := List.getElem?_eq_some_iff.mp here
  refine ⟨entry.1, items.take index, items.drop (index + 1), ?_,
    List.length_take_of_le (Nat.le_of_lt inside)⟩
  rw [← isEntry, ← List.drop_eq_getElem_cons inside, List.take_append_drop]

/-- No access of a round is invalid, and it makes the next test of the
search. -/
theorem ColorLoop.Follows.round
    (follows : loop.Follows environment execCksum orig changed items)
    {fuel : Nat} (enough : items.length ≤ fuel) {new : Nat × Nat}
    (isFree : loop.list.Free new) (unset : Option Nat × Option Nat) :
    ∃ ended, loop.round environment execCksum orig changed fuel new unset =
        some ended ∧
      ended.Right environment execCksum orig changed items := by
  obtain ⟨holds, search⟩ := follows
  unfold ColorLoop.round
  rw [holds.popBiggestRange enough]
  cases pops : popBiggestRange (items.map Prod.snd) with
  | none => exact ⟨.done, rfl, pops⟩
  | some popped =>
      obtain ⟨index, rng⟩ := popped
      obtain ⟨found, fresh⟩ := popBiggestRange_some pops
      obtain ⟨place, before, rest, rfl, rfl⟩ := found_split found
      have isPlace : RangeList.address (before ++ (place, rng) :: rest)
          (before.length, rng) = some place := by
        unfold RangeList.address
        rw [List.getElem?_append_right (Nat.le_refl _), Nat.sub_self]
        rfl
      obtain ⟨link, here, rfl⟩ :=
        holds.chained.found (List.mem_append_right before List.mem_cons_self)
      simp only [Option.bind_some, isPlace, here, Option.bind_eq_bind]
      have ranges : (before ++ (place, link.item) :: rest).map Prod.snd =
          before.map Prod.snd ++ link.item :: rest.map Prod.snd :=
        List.map_append
      have length : (before.map Prod.snd).length = before.length :=
        List.length_map _
      split
      · exact ⟨.aborted, rfl, trivial⟩
      · rename_i goesOn
        have goesOn := Bool.eq_false_of_not_eq_true goesOn
        split
        · rename_i differs
          obtain ⟨next, halves, discarded, holds, areHalves⟩ :=
            holds.discard isFree unset
          refine ⟨.goesOn
            { tests := loop.tests ++ [⟨link.item, false⟩]
              list := next
              buf := link.item.copy (link.item.copy loop.buf changed) orig },
            ?_, halves ++ (before ++ rest), holds, ?_⟩
          · rw [discarded]
            rfl
          have searched := search.discard pops goesOn fun same =>
            differs.elim (fun cksum => cksum same.1)
              fun slow => Bool.false_ne_true (same.2.symm.trans slow)
          rw [ranges, List.eraseIdx_append_of_length_le length.le, length,
            Nat.sub_self, ← areHalves] at searched
          rw [List.map_append, List.map_append]
          exact searched
        · rename_i differs
          obtain ⟨same, fast⟩ := not_or.mp differs
          obtain ⟨next, marked, holds⟩ := holds.setOk
          refine ⟨.goesOn
            { tests := loop.tests ++ [⟨link.item, true⟩]
              list := next
              buf := link.item.copy loop.buf changed },
            ?_, _, holds, ?_⟩
          · rw [marked]
            rfl
          have searched := search.replace pops goesOn
            ⟨not_not.mp same, Bool.eq_false_of_not_eq_true fast⟩
          rw [ranges, List.set_append_right _ _ length.le, length,
            Nat.sub_self] at searched
          rw [List.map_append]
          exact searched

theorem ColorLoop.Reached.follows
    (reached : loop.Reached environment execCksum orig changed) :
    ∃ items, loop.Follows environment execCksum orig changed items := by
  induction reached with
  | @start heap new list isFree unset added =>
      have empty : RangeList.Holds { heap, ranges := none } [] :=
        LinkHeap.Represents.empty heap
      obtain ⟨next, added', holds⟩ :=
        empty.addRange isFree unset 0 (orig.length - 1)
      rw [added] at added'
      obtain rfl := Option.some.inj added'
      exact ⟨_, holds, ColorSearch.start⟩
  | @round loop next fuel new unset _ isFree goesOn induction =>
      obtain ⟨items, follows⟩ := induction
      obtain ⟨ended, returns, right⟩ := follows.round
        (Nat.le_max_right fuel items.length) isFree unset
      have same := ColorLoop.round_of_le
        (Nat.le_max_left fuel items.length) goesOn
      rw [returns] at same
      obtain rfl := Option.some.inj same
      exact right

variable {ranges : List Range}

variable {tests : List ColorTest} {random : List Nat}

theorem Colored.differs_iff (colored : Colored orig changed ranges buf)
    (replaces : typeReplace orig random = some changed) (i : Nat) :
    buf[i]? ≠ orig[i]? ↔ Replaced ranges i := by
  constructor
  · intro differs
    by_contra kept
    exact differs (colored.kept i kept)
  · intro isReplaced
    have new := colored.replaced i isReplaced
    obtain ⟨rng, member, _, contains⟩ := isReplaced
    have inside := (colored.inside rng member).2
    rw [new]
    exact typeReplace_ne replaces (Nat.lt_of_le_of_lt contains.2 inside)

/-- A taint in descending order, without elements that overlap or touch, of the
positions where the bytes differ. -/
structure TaintOf (orig buf : List (BitVec 8)) (taint : List Tainted) :
    Prop where
  descending : taint.Pairwise fun t lower => lower.pos + lower.len < t.pos
  within : ∀ t ∈ taint, 0 < t.len ∧ t.pos + t.len ≤ orig.length
  differs : ∀ i, buf[i]? ≠ orig[i]? ↔ InTaint taint i

theorem Searched.reporting (searched : Searched orig changed tests ranges buf) :
    Reporting orig.length ranges [] where
  apart := searched.partition.apart
  inside := searched.partition.inside
  descending := List.Pairwise.nil
  within := fun _ member => absurd member List.not_mem_nil
  reported := by
    intro i
    constructor
    · rintro ⟨t, member, _⟩
      cases member
    · rintro ⟨rng, member, isReported, _⟩
      have known := searched.partition.known rng member
      omega
  waiting := fun _ none => nomatch none

/-- All ranges that were replaced are in the taint. -/
theorem Searched.taintOf (short : orig.length < 2 ^ 32)
    (searched : Searched orig changed tests ranges buf)
    (replaces : typeReplace orig random = some changed) :
    TaintOf orig buf (collectTaint ranges.length ranges [] 0).1 := by
  have reports := @collectTaint_reports orig.length ranges [] short
    ranges.length 0 searched.reporting List.countP_le_length
  refine ⟨reports.descending, reports.within, fun i => ?_⟩
  rw [searched.colored.differs_iff replaces, reports.covers]
  constructor
  · rintro ⟨rng, member, isOk, contains⟩
    exact ⟨rng, member, .inl isOk, contains⟩
  · rintro ⟨rng, member, isOk, contains⟩
    have known := searched.partition.known rng member
    exact ⟨rng, member, by omega, contains⟩

/-- What holds of the loop in every round: it stays below its bound, its list is
a partition of the positions that are not explored, and no access of the next
round is invalid. -/
structure ColorLoop.Sound (environment : ColorEnvironment)
    (execCksum : BitVec 64) (orig changed : List (BitVec 8))
    (loop : ColorLoop) : Prop where
  bounded : loop.tests.length < 2 * orig.length
  listed : ∃ items, loop.list.Holds items ∧
    Partition orig.length loop.tests (items.map Prod.snd) ∧
      ∀ fuel new unset, items.length ≤ fuel → loop.list.Free new →
        loop.round environment execCksum orig changed fuel new unset ≠ none

theorem ColorLoop.Reached.sound (positive : 0 < orig.length)
    (sameLength : changed.length = orig.length)
    (reached : loop.Reached environment execCksum orig changed) :
    loop.Sound environment execCksum orig changed := by
  obtain ⟨items, follows⟩ := reached.follows
  have searched := follows.search.searched positive sameLength
  refine ⟨Nat.lt_of_le_of_lt (Nat.le_add_right _ _) searched.bounded, items,
    follows.holds, searched.partition, ?_⟩
  intro fuel new unset enough isFree invalid
  obtain ⟨ended, returns, _⟩ := follows.round enough isFree unset
  rw [invalid] at returns
  cases returns

/-- The loop ends with a search of no more tests than its bound. If the bound is
not cut off to 32 bits, then all positions are explored. -/
structure Ended (environment : ColorEnvironment) (execCksum : BitVec 64)
    (orig changed : List (BitVec 8)) (ranges : List Range)
    (buf : List (BitVec 8)) : Prop where
  searched : ∃ tests, ColorSearch environment execCksum orig changed tests
    ranges buf ∧ tests.length ≤ orig.length * 2 % 2 ^ 32
  explored : orig.length < 2 ^ 31 → popBiggestRange ranges = none

theorem colorRounds_ended (positive : 0 < orig.length)
    (sameLength : changed.length = orig.length)
    (returns : colorRounds environment execCksum orig changed
      (orig.length * 2 % 2 ^ 32) 1 [⟨0, orig.length - 1, 0⟩] orig =
        .ok (ranges, buf)) :
    Ended environment execCksum orig changed ranges buf := by
  obtain ⟨tests, search, most, ends⟩ := ColorSearch.start.rounds returns
  rw [List.length_nil, Nat.zero_add] at most ends
  refine ⟨⟨tests, search, most⟩, fun small => ?_⟩
  have bounded := (search.searched positive sameLength).bounded
  exact ends.resolve_right (by omega)

/-- For a checksum that depends on nothing but the case, what is returned has
that of the original, and the taint is where it differs.  The loop is sound in
every round, and it ends within its bound. -/
theorem colorization_correct {hash : List (BitVec 8) → BitVec 64}
    (deterministic : ∀ n bytes, (environment.run n bytes).cksum = hash bytes)
    (nonempty : orig ≠ []) (short : orig.length < 2 ^ 32) :
    (∀ afl buf taint positions, colorization environment afl orig =
        some (.finished buf taint positions) →
      hash buf = hash orig ∧ (taint ≠ [] → TaintOf orig buf taint)) ∧
    ∀ changed, typeReplace orig environment.random = some changed →
      (∀ loop, ColorLoop.Reached environment (hash orig) orig changed loop →
        loop.Sound environment (hash orig) orig changed) ∧
      ∀ ranges buf, colorRounds environment (hash orig) orig changed
          (orig.length * 2 % 2 ^ 32) 1 [⟨0, orig.length - 1, 0⟩] orig =
            .ok (ranges, buf) →
        Ended environment (hash orig) orig changed ranges buf := by
  have positive := List.length_pos_of_ne_nil nonempty
  refine ⟨?_, fun changed replaces => ?_⟩
  · intro afl buf taint positions finished
    obtain ⟨changed, ranges, reached⟩ := colorization_finished finished
    have sameLength := typeReplace_length reached.replaces
    have rounds := reached.rounds
    rw [deterministic] at rounds
    obtain ⟨tests, search, _⟩ :=
      (colorRounds_ended positive sameLength rounds).searched
    refine ⟨search.cksum deterministic positive sameLength, fun some_ => ?_⟩
    have handedOver := reached.handedOver
    split at handedOver
    · exact absurd handedOver some_
    · rw [handedOver]
      exact (search.searched positive sameLength).taintOf short reached.replaces
  · have sameLength := typeReplace_length replaces
    exact ⟨fun _ reached => reached.sound positive sameLength,
      fun _ _ returns => colorRounds_ended positive sameLength returns⟩

/-- Runs that are all alike. -/
def steadyRuns : ColorEnvironment where
  run := fun _ _ => { aborts := false, cksum := 0, tooSlow := false }
  random := [0, 0]

theorem colorization_correct_pair :
    ∃ taint, colorization steadyRuns
        { cmplogLvl := 1, activePaths := 1, colorizeSuccess := 0 }
        [0x30#8, 0x20#8] = some (.finished [0x31#8, 0x09#8] taint 2) ∧
      TaintOf [0x30#8, 0x20#8] [0x31#8, 0x09#8] taint := by
  refine ⟨[⟨0, 2⟩], rfl, ?_⟩
  have correct := (@colorization_correct steadyRuns [0x30#8, 0x20#8]
    (fun _ => 0) (fun _ _ => rfl) (by decide) (by decide)).1
  exact (correct { cmplogLvl := 1, activePaths := 1, colorizeSuccess := 0 }
    _ [⟨0, 2⟩] 2 rfl).2 (List.cons_ne_nil _ _)

end AFLPlusPlus.Redqueen
