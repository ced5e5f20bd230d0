import AFLPlusPlus.Havoc.Runs

/-!
# What splicing builds

`locate_diffs` finds the first and the last byte in which two test cases differ.
The tail of the spliced input is copied from the start of the other test case,
not from the split point on.
-/

namespace AFLPlusPlus

open EarlyExit

namespace HavocSetting

variable (afl : HavocSetting)

/-- The loop from `retry_splicing` on, with the stage that it starts again. -/
def retrySplicingWith (stage : Havoc Unit) : Nat → Havoc Unit
  | 0 => pure ()
  | left + 1 => do
      let state ← get
      onlyIf (afl.useSplicing = true ∧ 1 < state.readyForSplicingCount ∧
          4 ≤ afl.origIn.length) do
        Havoc.setInBuf afl.origIn
        let newBuf ← afl.pickPartner
        match locateDiffs afl.origIn newBuf
          (min afl.origIn.length newBuf.length) with
        | none => retrySplicingWith stage left
        | some (fDiff, lDiff) =>
            if lDiff < 2 ∨ fDiff = lDiff then retrySplicingWith stage left
            else
              let drawn ← afl.randBelow (minus lDiff fDiff)
              spliceAt newBuf (fDiff + drawn)
              stage
              retrySplicingWith stage left

/-- From `retry_splicing_puppet` on: the same lines in `mopt_common_fuzzing`, with
`SPLICE_CYCLES_puppet` and the stage from `havoc_stage_puppet` on. -/
def retrySplicingPuppet (havocStagePuppet : Havoc Unit)
    (spliceCyclesPuppet : Nat) : Havoc Unit :=
  afl.retrySplicingWith havocStagePuppet spliceCyclesPuppet

theorem retrySplicing_eq (rounds stageMax perfScore left : Nat) :
    afl.retrySplicing rounds stageMax perfScore left =
      afl.retrySplicingWith (afl.havocStage rounds stageMax perfScore)
        left := by
  induction left with
  | zero => rfl
  | succ left induction =>
      unfold retrySplicing retrySplicingWith
      simp only [induction]
      all_goals rfl

/-- The first and the last offset below `len` at which two test cases differ, if
there is one. -/
def AreDiffs (one other : List (BitVec 8)) (len : Nat) : Option (Nat × Nat) → Prop
  | none => ∀ pos < len, one[pos]? = other[pos]?
  | some (first, last) =>
      first ≤ last ∧ last < len ∧ one[first]? ≠ other[first]? ∧
        one[last]? ≠ other[last]? ∧
        (∀ pos < first, one[pos]? = other[pos]?) ∧
        ∀ pos, last < pos → pos < len → one[pos]? = other[pos]?

theorem locateDiffs_exact (one other : List (BitVec 8)) (len : Nat) :
    AreDiffs one other len (locateDiffs one other len) := by
  unfold locateDiffs
  refine forRange_invariant _ (fun count found =>
    AreDiffs one other count found) none ?_ len ?_
  · exact fun pos below => absurd below (Nat.not_lt_zero pos)
  · intro pos _ found earlier
    by_cases same : one[pos]? = other[pos]?
    · rw [if_neg (not_not.mpr same)]
      cases found with
      | none =>
          intro before below
          rcases Nat.lt_succ_iff_lt_or_eq.mp below with less | rfl
          · exact earlier before less
          · exact same
      | some diffs =>
          obtain ⟨ordered, below, first, last, head, tail⟩ := earlier
          refine ⟨ordered, Nat.lt_succ_of_lt below, first, last, head, ?_⟩
          intro between after below'
          rcases Nat.lt_succ_iff_lt_or_eq.mp below' with less | rfl
          · exact tail between after less
          · exact same
    · rw [if_pos same]
      cases found with
      | none =>
          refine ⟨Nat.le_refl pos, Nat.lt_succ_self pos, same, same, earlier, ?_⟩
          intro between after below
          omega
      | some diffs =>
          obtain ⟨ordered, below, first, last, head, tail⟩ := earlier
          refine ⟨Nat.le_of_lt (Nat.lt_of_le_of_lt ordered below),
            Nat.lt_succ_self pos, first, same, head, ?_⟩
          intro between after below
          omega

/-- What `splice_at` leaves: the head of one test case, and behind it the other
one from its start. -/
def spliced (one other : List (BitVec 8)) (splitAt : Nat) : List (BitVec 8) :=
  one.take splitAt ++ other.take (other.length - splitAt)

/-- The bytes that the input is put together of so far. -/
structure Written (one : List (BitVec 8)) (room : Nat)
    (written : List (BitVec 8)) (state : HavocState) : Prop where
  input : state.inBuf = one
  room : room ≤ state.inScratchBuf.room
  spells : state.inScratchBuf.bytes.Spells 0 written

/-- The input and the buffer for the stage hold these bytes. -/
structure Handed (buffer : List (BitVec 8)) (state : HavocState) : Prop where
  input : state.inBuf = buffer
  room : buffer.length ≤ state.outBuf.room
  output : state.outBuf.bytes.loadBytes 0 buffer.length = buffer

section Splice

variable {left : HavocState → Prop} {one other written bytes : List (BitVec 8)}
  {room : Nat}

theorem triple_exactPart {before : HavocState → Prop} {start count : Nat}
    (inside : start + count ≤ bytes.length) :
    Triple before (Havoc.part bytes start count)
      (fun part state => before state ∧ part = (bytes.drop start).take count)
      left := by
  apply (triple_inside inside).bind
  intro _
  exact Triple.pure _ fun _ holds => ⟨holds, rfl⟩

theorem triple_written (fits : written.length + bytes.length ≤ room) :
    Triple (Written one room written)
      (Havoc.writeInScratch written.length bytes)
      (fun _ => Written one room (written ++ bytes)) left := by
  apply Triple.get.bind
  intro looked state holds
  obtain ⟨same, begun⟩ := holds
  subst same
  have stored : Triple (Written one room written)
      (modify fun state =>
        { state with
          inScratchBuf :=
            { state.inScratchBuf with
              bytes := state.inScratchBuf.bytes.storeBytes written.length
                bytes } } : Havoc PUnit)
      (fun _ => Written one room (written ++ bytes)) left := by
    apply Triple.modify
    intro state begun
    have next := begun.spells.storeBytes_next bytes
    rw [Nat.zero_add] at next
    exact ⟨begun.input, begun.room, next⟩
  exact (triple_inside (fits.trans begun.room)).bind (fun _ => stored)
    looked begun

/-- The input takes the place of the old one and is copied for the stage. -/
theorem triple_handed (small : written.length ≤ maxFile) :
    Triple (Written one room written)
      (do
        Havoc.takeInScratch written.length
        Havoc.reallocOut written.length
        let state ← get
        Havoc.writeOut 0 state.inBuf : Havoc Unit)
      (fun _ => Handed written) left := by
  have bound := maxFile_lt
  have taken : Triple (Written one room written)
      (Havoc.takeInScratch written.length)
      (fun _ state => state.inBuf = written) left := by
    apply Triple.modify
    intro state begun
    exact begun.spells.loadBytes_eq
  apply taken.bind
  intro _
  have grown : Triple (fun state => state.inBuf = written)
      (Havoc.reallocOut written.length)
      (fun _ state => state.inBuf = written ∧
        written.length ≤ state.outBuf.room) left := by
    apply Triple.modify
    intro state input
    exact ⟨input, AflBuf.le_room_realloc _ (by omega)⟩
  apply grown.bind
  intro _
  apply Triple.get.bind
  intro looked state holds
  obtain ⟨same, input, fits⟩ := holds
  subst same
  rw [input]
  have copied : Triple (fun state => state.inBuf = written ∧
        written.length ≤ state.outBuf.room)
      (modify fun state =>
        { state with
          outBuf :=
            { state.outBuf with
              bytes := state.outBuf.bytes.storeBytes 0 written } } :
        Havoc PUnit)
      (fun _ => Handed written) left := by
    apply Triple.modify
    intro state holds
    exact ⟨holds.1, holds.2,
      (Buffer.spells_storeBytes state.outBuf.bytes 0 written).loadBytes_eq⟩
  have inside : 0 + written.length ≤ looked.outBuf.room := by omega
  have look : Triple (fun state => looked = state)
      (Havoc.writeOut 0 written) (fun _ => Handed written) left := by
    apply Triple.get.bind
    intro again state holds
    obtain ⟨same, same'⟩ := holds
    subst same same'
    exact (triple_inside inside).bind (fun _ => copied) looked ⟨input, fits⟩
  exact look looked rfl

theorem triple_spliced {splitAt : Nat} (inOne : splitAt ≤ one.length)
    (inOther : splitAt ≤ other.length) (small : other.length ≤ maxFile) :
    Triple (fun state => state.inBuf = one) (spliceAt other splitAt)
      (fun _ => Handed (spliced one other splitAt)) left := by
  have bound := maxFile_lt
  apply Triple.get.bind
  intro looked state holds
  obtain ⟨same, input⟩ := holds
  subst same
  rw [input]
  have recorded : Triple (fun state => state.inBuf = one)
      (Havoc.record (.split splitAt one.length other.length))
      (fun _ state => state.inBuf = one) left := by
    apply Triple.modify
    exact fun _ same => same
  have grown : Triple (fun state => state.inBuf = one)
      (Havoc.reallocInScratch other.length)
      (fun _ => Written one other.length []) left := by
    apply Triple.modify
    intro state same
    refine ⟨same, AflBuf.le_room_realloc _ (by omega), ?_⟩
    intro i byte found
    cases found
  have head : (one.take splitAt).length = splitAt := by
    rw [List.length_take]
    omega
  have tail : (other.take (other.length - splitAt)).length =
      other.length - splitAt := by
    rw [List.length_take]
    omega
  have whole : (spliced one other splitAt).length = other.length := by
    rw [spliced, List.length_append, head, tail]
    omega
  refine recorded.bind (fun _ => grown.bind fun _ => ?_) looked input
  apply (triple_exactPart (by omega)).bind
  intro part
  apply Triple.given
  intro isHead
  rw [List.drop_zero] at isHead
  subst isHead
  apply (triple_written (by
    rw [List.length_nil, head]
    omega)).bind
  intro _
  rw [minus_eq (by omega) (by omega), List.nil_append]
  apply (triple_exactPart (by omega)).bind
  intro part
  apply Triple.given
  intro isTail
  rw [List.drop_zero] at isTail
  subst isTail
  have second := @triple_written left one (one.take splitAt)
    (other.take (other.length - splitAt)) other.length (by omega)
  rw [head] at second
  apply second.bind
  intro _
  have last := @triple_handed left one (spliced one other splitAt)
    other.length (whole.trans_le small)
  rw [whole] at last
  exact last

end Splice

/-- A buffer is the one test case up to the split point and the other one from
there on, and is neither of the two. -/
structure Recombined (one other : List (BitVec 8)) (splitAt : Nat)
    (buffer : List (BitVec 8)) : Prop where
  length : buffer.length = other.length
  head : buffer.take splitAt = one.take splitAt
  tail : buffer.drop splitAt = other.drop splitAt
  notOne : buffer ≠ one
  notOther : buffer ≠ other

section Recombination

variable {one other : List (BitVec 8)} {fDiff lDiff drawn : Nat}

/-- For a split point between the differences, a buffer with that head and tail
is neither test case. -/
theorem recombined_of_parts {splitAt : Nat} {buffer : List (BitVec 8)}
    (diffs : AreDiffs one other (min one.length other.length) (some (fDiff, lDiff)))
    (after : fDiff < splitAt) (before : splitAt ≤ lDiff)
    (length : buffer.length = other.length)
    (head : buffer.take splitAt = one.take splitAt)
    (tail : buffer.drop splitAt = other.drop splitAt) :
    Recombined one other splitAt buffer := by
  obtain ⟨_, _, first, last, _, _⟩ := diffs
  refine ⟨length, head, tail, ?_, ?_⟩
  · rintro rfl
    apply last
    have here := congrArg (fun bytes => bytes[lDiff - splitAt]?) tail
    simp only [List.getElem?_drop, Nat.add_sub_of_le before] at here
    exact here
  · rintro rfl
    apply first
    have here := congrArg (fun bytes => bytes[fDiff]?) head
    simp only [List.getElem?_take, if_pos after] at here
    exact here.symm

theorem spliced_recombined_iff
    (diffs : AreDiffs one other (min one.length other.length) (some (fDiff, lDiff)))
    (below : drawn < lDiff - fDiff) :
    Recombined one other (fDiff + drawn)
        (spliced one other (fDiff + drawn)) ↔
      drawn ≠ 0 ∧ other.take (other.length - (fDiff + drawn)) =
        other.drop (fDiff + drawn) := by
  have inside := diffs.2.1
  have headLength : (one.take (fDiff + drawn)).length = fDiff + drawn := by
    rw [List.length_take]
    omega
  have head : (spliced one other (fDiff + drawn)).take (fDiff + drawn) =
      one.take (fDiff + drawn) := List.take_left' headLength
  have tail : (spliced one other (fDiff + drawn)).drop (fDiff + drawn) =
      other.take (other.length - (fDiff + drawn)) := List.drop_left' headLength
  constructor
  · intro recombined
    have repeated := tail.symm.trans recombined.tail
    refine ⟨?_, repeated⟩
    rintro rfl
    -- Up to the first difference the other test case begins like the one.
    have same : one.take fDiff = other.take fDiff := by
      apply List.ext_getElem?
      intro pos
      by_cases early : pos < fDiff
      · rw [List.getElem?_take, List.getElem?_take, if_pos early, if_pos early]
        exact diffs.2.2.2.2.1 pos early
      · rw [List.getElem?_take, List.getElem?_take, if_neg early, if_neg early]
    apply recombined.notOther
    rw [spliced, repeated, Nat.add_zero, same]
    exact List.take_append_drop fDiff other
  · rintro ⟨positive, repeated⟩
    refine recombined_of_parts diffs (by omega) (by omega) ?_ head
      (tail.trans repeated)
    rw [spliced, List.length_append, headLength, List.length_take]
    omega

/-- The copies end, with the buffer for the stage. -/
theorem run_spliceAt {state : HavocState} {splitAt : Nat}
    (current : state.inBuf = one) (inOne : splitAt ≤ one.length)
    (inOther : splitAt ≤ other.length) (small : other.length ≤ maxFile) :
    ∃ next, (spliceAt other splitAt).run state = (some (), next) ∧
      Handed (spliced one other splitAt) next := by
  have ran := @triple_spliced (fun _ => False) one other splitAt inOne inOther
    small state current
  cases result : (spliceAt other splitAt).run state with
  | mk ended next =>
      rw [result] at ran
      cases ended with
      | none => exact absurd ran id
      | some value => exact ⟨next, rfl, ran⟩

/-- `locate_diffs` is exact, and the stage gets the test case that is meant just
if the split point is behind the first difference and the other test case goes on
from there with what it starts with. -/
theorem spliceAt_recombined_iff {state : HavocState}
    (current : state.inBuf = one) (small : other.length ≤ maxFile) :
    AreDiffs one other (min one.length other.length)
        (locateDiffs one other (min one.length other.length)) ∧
      ∀ fDiff lDiff drawn,
        locateDiffs one other (min one.length other.length) = some (fDiff, lDiff) →
        ¬(lDiff < 2 ∨ fDiff = lDiff) → drawn < lDiff - fDiff →
        ((∃ next buffer,
            (spliceAt other (fDiff + drawn)).run state = (some (), next) ∧
              Handed buffer next ∧
              Recombined one other (fDiff + drawn) buffer) ↔
          drawn ≠ 0 ∧ other.take (other.length - (fDiff + drawn)) =
            other.drop (fDiff + drawn)) := by
  have diffs := locateDiffs_exact one other (min one.length other.length)
  refine ⟨diffs, fun fDiff lDiff drawn located _ below => ?_⟩
  rw [located] at diffs
  have inside := diffs.2.1
  obtain ⟨next, ran, handed⟩ := @run_spliceAt one other state
    (fDiff + drawn) current (by omega) (by omega) small
  rw [← spliced_recombined_iff diffs below, ran]
  constructor
  · rintro ⟨next', buffer, same, handed', recombined⟩
    cases same
    obtain rfl := handed'.input.symm.trans handed.input
    exact recombined
  · exact fun recombined => ⟨next, _, rfl, handed, recombined⟩

end Recombination

/-- A stage that begins with this input, and with no buffer. -/
def spliceStart (input : List (BitVec 8)) : HavocState where
  inBuf := input
  outBuf := ⟨0, fun _ => 0#8⟩
  outScratchBuf := ⟨0, fun _ => 0#8⟩
  inScratchBuf := ⟨0, fun _ => 0#8⟩
  savedInBuf := ⟨0, fun _ => 0#8⟩
  tempLen := input.length
  draws := 0
  execs := 0
  queue := []
  readyForSplicingCount := 2
  events := []
  fault := none

/-- A test case that is the same everywhere is put behind the split point. -/
theorem spliceAt_recombined_constant : ∃ next buffer,
    (spliceAt [5#8, 5#8, 5#8, 5#8] (0 + 1)).run
        (spliceStart [1#8, 2#8, 3#8, 4#8]) = (some (), next) ∧
      Handed buffer next ∧ Recombined [1#8, 2#8, 3#8, 4#8]
        [5#8, 5#8, 5#8, 5#8] (0 + 1) buffer :=
  ((spliceAt_recombined_iff rfl (by decide)).2 0 3 1 (by decide) (by decide)
    (by decide)).mpr ⟨by decide, by decide⟩

/-- Behind the first byte stands the start of the other test case, not its
rest. -/
theorem spliceAt_repeats :
    locateDiffs [1#8, 2#8, 3#8, 4#8] [5#8, 6#8, 7#8, 8#8] 4 = some (0, 3) ∧
      (∃ next, (spliceAt [5#8, 6#8, 7#8, 8#8] 1).run
          (spliceStart [1#8, 2#8, 3#8, 4#8]) = (some (), next) ∧
        Handed [1#8, 5#8, 6#8, 7#8] next) ∧
      ¬Recombined [1#8, 2#8, 3#8, 4#8] [5#8, 6#8, 7#8, 8#8] 1
        [1#8, 5#8, 6#8, 7#8] := by
  refine ⟨by decide, run_spliceAt rfl (by decide) (by decide) (by decide), ?_⟩
  intro recombined
  have tail := recombined.tail
  revert tail
  decide

end HavocSetting

end AFLPlusPlus
