import AFLPlusPlus.Havoc.Soundness

/-!
# Runs of havoc and splicing

From a queue that is counted right, a run of the havoc stage and of splicing is
sound in every step, whichever way it ends.  The counter of the entries that are
ready for splicing is right as long as the fuzzer is not stopped.
-/

namespace AFLPlusPlus

open EarlyExit

namespace HavocSetting

variable {afl : HavocSetting} {needed : Prop} {left : HavocState → Prop}
  {begun state : HavocState}

theorem triple_draw_going (limit : Nat) :
    Triple (afl.Going begun needed) (afl.randBelow limit)
      (fun drawn state => afl.Going begun needed state ∧
        (0 < limit → drawn < limit)) left := by
  apply triple_randBelow
  intro state draws going
  exact going.changed rfl going.sound.fits

/-- What a custom mutator has made takes the place of the buffer. -/
theorem triple_adopt {mutated : List (BitVec 8)}
    (nonempty : mutated ≠ []) (small : mutated.length ≤ maxFile) :
    Triple (afl.Going begun needed)
      (do
        Havoc.setTempLen mutated.length
        Havoc.reallocOut mutated.length
        Havoc.writeOut 0 mutated : Havoc Unit)
      (fun _ => afl.Going begun needed) left := by
  have bound := maxFile_lt
  have positive := List.length_pos_iff.mpr nonempty
  have shortened : Triple (afl.Going begun needed)
      (Havoc.setTempLen mutated.length)
      (fun _ state => ∃ before, afl.Going begun needed before ∧
        state = { before with tempLen := mutated.length }) left :=
    Triple.modify fun state going => ⟨state, going, rfl⟩
  apply shortened.bind
  intro _
  have grown : Triple
      (fun state => ∃ before, afl.Going begun needed before ∧
        state = { before with tempLen := mutated.length })
      (Havoc.reallocOut mutated.length)
      (fun _ => afl.Within begun needed mutated.length mutated.length 0)
      left := by
    apply Triple.modify
    intro state holds
    obtain ⟨before, going, same⟩ := holds
    subst same
    have room := AflBuf.le_room_realloc before.outBuf
      (show mutated.length < 2 ^ 32 by omega)
    exact ⟨⟨{ going.sound with positive, bounded := small, fits := room },
      going.partnered⟩, rfl, room, Nat.zero_le _⟩
  apply grown.bind
  intro _
  exact triple_going (triple_writeOut (by omega))

theorem triple_customHavoc (customs : List StackedCustom) :
    Triple (afl.Going begun needed) (afl.customHavoc customs)
      (fun _ => afl.Going begun needed) left := by
  induction customs with
  | nil => exact Triple.pure () fun _ going => going
  | cons custom customs induction =>
      apply (triple_draw_going 100).bind
      intro drawn
      apply Triple.given
      intro _
      have mutates : Triple (afl.Going begun needed)
          (onlyIf (drawn < custom.prob) do
            let state ← get
            let bytes ← Havoc.readOut 0 state.tempLen
            let mutated := custom.mutation state.draws bytes
            onlyIf (mutated ≠ []) do
              Havoc.setTempLen mutated.length
              Havoc.reallocOut mutated.length
              Havoc.writeOut 0 mutated)
          (fun _ => afl.Going begun needed) left := by
        apply Triple.onlyIf fun _ going => going
        intro _
        apply Going.look
        intro state _ _
        apply Within.readOut (by omega)
        intro bytes _
        apply Triple.onlyIf fun _ within => within.going
        intro nonempty
        exact (triple_adopt nonempty (custom.bounded _ _)).starting
          fun _ within => within.going
      apply mutates.bind
      intro _
      exact induction

theorem Going.record {event : HavocEvent} (going : afl.Going begun needed state)
    (sound : event.Sound) :
    afl.Going begun needed
      { state with events := state.events ++ [event] } := by
  refine ⟨{ going.sound with events := ?_ }, going.partnered⟩
  intro other member
  rcases List.mem_append.mp member with before | last
  · exact going.sound.events other before
  · rw [List.mem_singleton.mp last]
    exact sound

variable (afl) in
/-- The numbers of the cases without splicing. -/
def listed : Nat :=
  maxHavocEntry + 1 + (if afl.extras ≠ [] then 4 else 0) +
    if afl.aExtras ≠ [] then 4 else 0

variable {buffer : List (BitVec 8)} {len rMax : Nat}

theorem triple_havocStep (most : afl.listed ≤ rMax) :
    Triple (afl.Going begun (afl.listed < rMax)) (afl.havocStep rMax)
      (fun _ => afl.Going begun (afl.listed < rMax)) (Sound begun) := by
  apply (triple_customHavoc afl.stackedCustoms).bind
  intro _
  apply (triple_draw_going rMax).bind
  intro r
  apply Triple.given
  intro below
  have positive : 0 < afl.listed := by
    unfold listed
    omega
  have chosen : r < afl.listed ∨ afl.listed < rMax := by
    have less := below (by omega)
    omega
  apply (triple_mutate chosen).bind
  intro _
  apply Triple.get.bind
  intro looked
  apply Triple.modify
  intro state holds
  obtain ⟨same, going⟩ := holds
  subst same
  exact going.record ⟨going.sound.positive, going.sound.bounded⟩

theorem longer_append (queue : List (List (BitVec 8)))
    (entry : List (BitVec 8)) :
    longer (queue ++ [entry]) = longer queue + if 4 < entry.length then 1 else 0 := by
  rw [longer, longer, List.countP_append, List.countP_singleton]
  simp only [decide_eq_true_eq]

theorem Partnered.append (partnered : afl.Partnered needed state)
    {next : HavocState} {entry : List (BitVec 8)}
    (queue : next.queue = state.queue ++ [entry]) :
    afl.Partnered needed next := by
  intro necessary
  obtain ⟨tid, inside, other, long⟩ := partnered necessary
  refine ⟨tid, ?_, other, ?_⟩
  · rw [queue, List.length_append]
    omega
  · rw [queue, List.getD_eq_getElem?_getD, List.getElem?_append_left inside,
      ← List.getD_eq_getElem?_getD]
    exact long

theorem Going.executed (going : afl.Going begun needed state)
    (length : buffer.length = state.tempLen) :
    afl.Going begun needed (afl.executed buffer state) := by
  unfold HavocSetting.executed
  split
  · refine ⟨{ going.sound with entries := ?_, counted := ?_, grown := ?_ },
      going.partnered.append rfl⟩
    · intro entry member
      rcases List.mem_append.mp member with before | last
      · exact going.sound.entries entry before
      · rw [List.mem_singleton.mp last, length]
        exact ⟨going.sound.positive, going.sound.bounded⟩
    · rw [longer_append]
      exact Nat.add_le_add_right going.sound.counted _
    · obtain ⟨added, queue, ready⟩ := going.sound.grown
      refine ⟨added ++ [buffer], ?_, ?_⟩
      · rw [← List.append_assoc, ← queue]
      · rw [longer_append, ← Nat.add_assoc, ← ready]
  · exact going.changed rfl going.sound.fits

theorem triple_execute {n out scratch : Nat} (length : buffer.length = n) :
    Triple (afl.Within begun needed n out scratch) (afl.execute buffer)
      (fun _ => afl.Going begun needed) (Sound begun) := by
  intro state within
  have going := within.going.executed (length.trans within.length.symm)
  by_cases abandons : (afl.outcome state.execs buffer).abandons = true
  · have ran : (afl.execute buffer).run state =
        (none, afl.executed buffer state) := Prod.ext (if_pos abandons) rfl
    rw [ran]
    exact going.sound
  · have ran : (afl.execute buffer).run state =
        (some (), afl.executed buffer state) := Prod.ext (if_neg abandons) rfl
    rw [ran]
    exact going

theorem triple_commonFuzzStuff :
    Triple (afl.Going begun needed) afl.commonFuzzStuff
      (fun _ => afl.Going begun needed) (Sound begun) := by
  apply Going.look
  intro state _ _
  apply Within.readOut (by omega)
  intro buffer length
  exact triple_execute length

theorem triple_modify_known {fact : Prop} {known : HavocState}
    {change : HavocState → HavocState} :
    Triple (fun state => fact ∧ state = known)
      (modify change : Havoc PUnit)
      (fun _ state => fact ∧ state = change known) left := by
  apply Triple.modify
  intro state holds
  exact ⟨holds.1, congrArg change holds.2⟩

theorem triple_writeOut_known {fact : Prop} {known : HavocState} {start : Nat}
    {bytes : List (BitVec 8)}
    (fits : fact → start + bytes.length ≤ known.outBuf.room) :
    Triple (fun state => fact ∧ state = known) (Havoc.writeOut start bytes)
      (fun _ state => fact ∧ state =
        { known with
          outBuf :=
            { known.outBuf with
              bytes := known.outBuf.bytes.storeBytes start bytes } })
      left := by
  apply Triple.get.bind
  intro looked state holds
  obtain ⟨same, holds, isKnown⟩ := holds
  subst same
  subst isKnown
  exact (triple_inside (fits holds)).bind (fun _ => triple_modify_known) looked
    ⟨holds, rfl⟩

/-- The state after the buffer got back its size and shape. -/
def restored (state : HavocState) : HavocState :=
  { state with
    outBuf :=
      { state.outBuf.realloc state.inBuf.length with
        bytes :=
          (state.outBuf.realloc state.inBuf.length).bytes.storeBytes 0
            state.inBuf }
    tempLen := state.inBuf.length }

theorem Going.restored (going : afl.Going begun needed state) :
    afl.Going begun needed (restored state) := by
  have bound := maxFile_lt
  have small := going.sound.inBounded
  have room := AflBuf.le_room_realloc state.outBuf
    (show state.inBuf.length < 2 ^ 32 by omega)
  exact ⟨{ going.sound with
    positive := going.sound.inPositive, bounded := small, fits := room },
    going.partnered⟩

theorem triple_restore :
    Triple (afl.Going begun needed) restore
      (fun _ => afl.Going begun needed) left := by
  have bound := maxFile_lt
  apply Triple.get.bind
  intro looked
  have start : ∀ state, looked = state ∧ afl.Going begun needed state →
      afl.Going begun needed looked ∧ state = looked := by
    intro state holds
    obtain ⟨same, going⟩ := holds
    subst same
    exact ⟨going, rfl⟩
  apply (triple_modify_known.starting start).bind
  intro _
  apply triple_modify_known.bind
  intro _
  apply (triple_writeOut_known _).bind
  · intro _
    apply Triple.get.bind
    intro next
    apply Triple.modify
    intro state holds
    obtain ⟨same, going, isRestored⟩ := holds
    subst same
    have whole : next = HavocSetting.restored looked := isRestored
    have contents := (Buffer.spells_storeBytes
      (looked.outBuf.realloc looked.inBuf.length).bytes 0
      looked.inBuf).loadBytes_eq
    rw [whole]
    exact going.restored.record contents
  · intro going
    have small := going.sound.inBounded
    have room := AflBuf.le_room_realloc looked.outBuf
      (show looked.inBuf.length < 2 ^ 32 by omega)
    dsimp only
    omega

theorem triple_havocRound (most : afl.listed ≤ rMax) :
    Triple (afl.Going begun (afl.listed < rMax)) (afl.havocRound rMax)
      (fun _ => afl.Going begun (afl.listed < rMax)) (Sound begun) := by
  apply (triple_draw_going afl.havocStackPow2).bind
  intro power
  apply Triple.given
  intro _
  have stacked : Triple (afl.Going begun (afl.listed < rMax))
      (forFrom (fun _ (_ : Unit) => do
        afl.havocStep rMax
        pure (.yield ())) 0 (1 <<< (1 + power)) ())
      (fun _ => afl.Going begun (afl.listed < rMax)) (Sound begun) := by
    apply Triple.forFrom _ fun _ going => going
    intro _ _
    apply (triple_havocStep most).bind
    intro _
    exact Triple.pure _ fun _ going => going
  apply stacked.bind
  intro _
  apply triple_commonFuzzStuff.bind
  intro _
  exact triple_restore

theorem triple_havocRounds (most : afl.listed ≤ rMax)
    (rounds stageCur stageMax perfScore havocQueued : Nat) :
    Triple (afl.Going begun (afl.listed < rMax))
      (afl.havocRounds rMax rounds stageCur stageMax perfScore havocQueued)
      (fun _ => afl.Going begun (afl.listed < rMax)) (Sound begun) := by
  induction rounds generalizing stageCur stageMax perfScore havocQueued with
  | zero => exact Triple.pure () fun _ going => going
  | succ rounds induction =>
      apply Triple.onlyIf fun _ going => going
      intro _
      apply (triple_havocRound most).bind
      intro _
      apply Triple.get.bind
      intro looked
      apply Triple.starting _ fun _ holds => holds.2
      exact Triple.ite (fun _ => induction _ _ _ _) fun _ => induction _ _ _ _

theorem partner_of_longer {queue : List (List (BitVec 8))}
    (several : 1 < longer queue) :
    ∃ tid < queue.length, afl.Partner queue tid := by
  have others : 0 < (queue.eraseIdx afl.currentEntry).countP
      fun entry => 4 < entry.length := by
    by_cases inside : afl.currentEntry < queue.length
    · rw [longer, ← List.take_append_drop afl.currentEntry queue,
        List.drop_eq_getElem_cons inside, List.countP_append,
        List.countP_cons] at several
      rw [List.eraseIdx_eq_take_drop_succ, List.countP_append]
      split at several
      · omega
      · omega
    · rw [List.eraseIdx_of_length_le (Nat.le_of_not_lt inside)]
      exact Nat.zero_lt_of_lt several
  obtain ⟨entry, member, long⟩ := List.countP_pos_iff.mp others
  obtain ⟨tid, inside, other, found⟩ := List.mem_eraseIdx_iff_getElem.mp member
  refine ⟨tid, inside, other, ?_⟩
  rw [List.getD_eq_getElem?_getD, List.getElem?_eq_getElem inside, found]
  exact Nat.le_of_lt (of_decide_eq_true long)

/-- The stage can begin. -/
structure Ready (afl : HavocSetting) (begun state : HavocState) : Prop where
  going : afl.Going begun False state
  room : state.inBuf.length ≤ state.outBuf.room

theorem Going.partnered_of (going : afl.Going begun False state)
    (several : needed → 1 < state.readyForSplicingCount) :
    afl.Going begun needed state :=
  ⟨going.sound, fun necessary => partner_of_longer
    (Nat.lt_of_lt_of_le (several necessary) going.sound.counted)⟩

theorem Going.any (going : afl.Going begun needed state) :
    afl.Going begun False state :=
  ⟨going.sound, False.elim⟩

theorem triple_havocStage (rounds stageMax perfScore : Nat) :
    Triple (afl.Ready begun) (afl.havocStage rounds stageMax perfScore)
      (fun _ => afl.Going begun False) (Sound begun) := by
  apply Triple.get.bind
  intro looked
  have most : afl.listed ≤ afl.rMax looked := by
    unfold listed HavocSetting.rMax
    omega
  have several : afl.listed < afl.rMax looked → 1 < looked.readyForSplicingCount := by
    intro more
    by_contra few
    have unexpanded : ¬(afl.expandHavoc looked.execs = true ∧
        1 < looked.readyForSplicingCount) := fun both => few both.2
    have recent : ¬(afl.nothingFoundFor5s looked.execs = true ∧
        1 < looked.readyForSplicingCount) := fun both => few both.2
    unfold listed HavocSetting.rMax at more
    rw [if_neg unexpanded, if_neg recent] at more
    omega
  have begun : Triple (fun state => looked = state ∧ afl.Ready begun state)
      (Havoc.setTempLen looked.inBuf.length)
      (fun _ => afl.Going begun (afl.listed < afl.rMax looked))
      (Sound begun) := by
    apply Triple.modify
    intro state holds
    obtain ⟨same, ready⟩ := holds
    subst same
    have going := ready.going.partnered_of several
    exact ⟨{ going.sound with
      positive := going.sound.inPositive, bounded := going.sound.inBounded
      fits := ready.room }, going.partnered⟩
  apply begun.bind
  intro _
  exact (triple_havocRounds most _ _ _ _ _).ending fun _ _ going => going.any

theorem locateDiffs_spec {one other : List (BitVec 8)} {fDiff lDiff : Nat}
    (located : locateDiffs one other len = some (fDiff, lDiff)) :
    fDiff ≤ lDiff ∧ lDiff < len := by
  have between := forRange_invariant
    (fun pos found =>
      if one[pos]? ≠ other[pos]? then
        some ((found.map Prod.fst).getD pos, pos)
      else found)
    (fun pos found => ∀ fDiff lDiff, found = some (fDiff, lDiff) →
      fDiff ≤ lDiff ∧ lDiff < pos)
    none (fun _ _ none => nomatch none) len
  apply between _ _ _ located
  intro pos _ found earlier fDiff lDiff now
  split at now
  · cases now
    cases found with
    | none => exact ⟨Nat.le_refl pos, Nat.lt_succ_self pos⟩
    | some diffs =>
        have before := earlier diffs.1 diffs.2 rfl
        exact ⟨before.1.trans (Nat.le_of_lt before.2), Nat.lt_succ_self pos⟩
  · have before := earlier fDiff lDiff now
    exact ⟨before.1, Nat.lt_succ_of_lt before.2⟩

/-- A sound state with some room in the buffer that the input is put together
in. -/
structure Joining (afl : HavocSetting) (begun : HavocState) (room : Nat)
    (state : HavocState) : Prop where
  going : afl.Going begun False state
  joined : room ≤ state.inScratchBuf.room

theorem triple_writeInScratch {room start : Nat} {bytes : List (BitVec 8)}
    (fits : start + bytes.length ≤ room) :
    Triple (afl.Joining begun room) (Havoc.writeInScratch start bytes)
      (fun _ => afl.Joining begun room) left := by
  apply Triple.get.bind
  intro looked state holds
  obtain ⟨same, joining⟩ := holds
  subst same
  have written : Triple (afl.Joining begun room)
      (modify fun state =>
        { state with
          inScratchBuf :=
            { state.inScratchBuf with
              bytes := state.inScratchBuf.bytes.storeBytes start bytes } } :
        Havoc PUnit)
      (fun _ => afl.Joining begun room) left := by
    apply Triple.modify
    intro state joining
    exact ⟨joining.going.changed rfl joining.going.sound.fits, joining.joined⟩
  exact (triple_inside (fits.trans joining.joined)).bind (fun _ => written)
    looked joining

/-- The joined input takes the place of the old one, and the buffer gets room
for it. -/
theorem triple_takeJoined (positive : 0 < len) (small : len ≤ maxFile) :
    Triple (afl.Joining begun len)
      (do
        Havoc.takeInScratch len
        Havoc.reallocOut len
        let state ← get
        Havoc.writeOut 0 state.inBuf : Havoc Unit)
      (fun _ => afl.Ready begun) left := by
  have bound := maxFile_lt
  have taken : Triple (afl.Joining begun len) (Havoc.takeInScratch len)
      (fun _ state => afl.Going begun False state ∧ state.inBuf.length = len)
      left := by
    apply Triple.modify
    intro state joining
    have sound := joining.going.sound
    have length := Buffer.length_loadBytes state.inScratchBuf.bytes 0 len
    refine ⟨⟨{ sound with inPositive := ?_, inBounded := ?_ }, False.elim⟩, length⟩
    · exact positive.trans_eq length.symm
    · exact length.le.trans small
  apply taken.bind
  intro _
  have grown : Triple
      (fun state => afl.Going begun False state ∧ state.inBuf.length = len)
      (Havoc.reallocOut len) (fun _ => afl.Ready begun) left := by
    apply Triple.modify
    intro state holds
    obtain ⟨going, length⟩ := holds
    refine ⟨going.changed rfl ?_, ?_⟩
    · exact going.sound.fits.trans
        (AflBuf.room_le_realloc _ (show len < 2 ^ 32 by omega))
    · exact length.le.trans
        (AflBuf.le_room_realloc _ (show len < 2 ^ 32 by omega))
  apply grown.bind
  intro _
  apply Triple.get.bind
  intro looked state holds
  obtain ⟨same, ready⟩ := holds
  subst same
  have written := @triple_writeOut_known left (afl.Ready begun looked) looked 0
    looked.inBuf fun ready => (Nat.zero_add _).trans_le ready.room
  apply written.ending _ looked ⟨ready, rfl⟩
  intro _ state holds
  obtain ⟨ready, same⟩ := holds
  subst same
  exact ⟨ready.going.changed rfl ready.going.sound.fits, ready.room⟩

theorem triple_spliceAt {newBuf : List (BitVec 8)} {splitAt : Nat}
    (below : splitAt < min afl.origIn.length newBuf.length)
    (small : newBuf.length ≤ maxFile) :
    Triple (afl.Given begun False afl.origIn) (spliceAt newBuf splitAt)
      (fun _ => afl.Ready begun) left := by
  have bound := maxFile_lt
  apply Triple.get.bind
  intro looked
  have known : ∀ state,
      looked = state ∧ afl.Given begun False afl.origIn state →
        afl.Given begun False afl.origIn state ∧ looked.inBuf = afl.origIn := by
    intro state holds
    obtain ⟨same, given⟩ := holds
    subst same
    exact ⟨given, given.input⟩
  apply Triple.starting _ known
  apply Triple.given
  intro input
  have recorded : Triple (afl.Given begun False afl.origIn)
      (Havoc.record (.split splitAt looked.inBuf.length newBuf.length))
      (fun _ => afl.Going begun False) left := by
    apply Triple.modify
    intro state given
    apply given.going.record
    rw [input]
    exact below
  apply recorded.bind
  intro _
  have grown : Triple (afl.Going begun False)
      (Havoc.reallocInScratch newBuf.length)
      (fun _ => afl.Joining begun newBuf.length) left := by
    apply Triple.modify
    intro state going
    exact ⟨going.changed rfl going.sound.fits, AflBuf.le_room_realloc _ (by omega)⟩
  apply grown.bind
  intro _
  rw [input]
  apply (triple_part (by omega)).bind
  intro head
  apply Triple.given
  intro headLength
  apply (triple_writeInScratch (by omega)).bind
  intro _
  rw [minus_eq (by omega) (by omega)]
  apply (triple_part (by omega)).bind
  intro tail
  apply Triple.given
  intro tailLength
  apply (triple_writeInScratch (by omega)).bind
  intro _
  exact triple_takeJoined (by omega) small

theorem triple_setOrigIn (long : 0 < afl.origIn.length)
    (small : afl.origIn.length ≤ maxFile) :
    Triple (afl.Going begun True) (Havoc.setInBuf afl.origIn)
      (fun _ => afl.Given begun True afl.origIn) left := by
  apply Triple.modify
  intro state going
  have sound := going.sound
  exact ⟨⟨{ sound with inPositive := long, inBounded := small },
    going.partnered⟩, rfl⟩

theorem triple_retrySplicing (small : afl.origIn.length ≤ maxFile)
    (rounds stageMax perfScore cycles : Nat) :
    Triple (afl.Going begun False)
      (afl.retrySplicing rounds stageMax perfScore cycles)
      (fun _ => afl.Going begun False) (Sound begun) := by
  have bound := maxFile_lt
  induction cycles with
  | zero => exact Triple.pure () fun _ going => going
  | succ cycles induction =>
      apply Triple.get.bind
      intro looked
      apply Triple.onlyIf fun _ holds => holds.2
      intro condition
      obtain ⟨_, several, long⟩ := condition
      have partnered : ∀ state, looked = state ∧ afl.Going begun False state →
          afl.Going begun True state := by
        intro state holds
        obtain ⟨same, going⟩ := holds
        subst same
        exact going.partnered_of fun _ => several
      apply Triple.starting _ partnered
      apply (triple_setOrigIn (by omega) small).bind
      intro _
      apply (triple_pickPartner trivial).bind
      intro newBuf
      apply Triple.given
      intro lengths
      have again : Triple (afl.Given begun True afl.origIn)
          (afl.retrySplicing rounds stageMax perfScore cycles)
          (fun _ => afl.Going begun False) (Sound begun) :=
        induction.starting fun _ given => given.going.any
      cases located : locateDiffs afl.origIn newBuf
        (min afl.origIn.length newBuf.length) with
      | none => exact again
      | some diffs =>
          obtain ⟨fDiff, lDiff⟩ := diffs
          have between := locateDiffs_spec located
          apply Triple.ite fun _ => again
          intro apart
          have different := (not_or.mp apart).2
          rw [minus_eq between.1 (by omega)]
          have drawn : Triple (afl.Given begun True afl.origIn)
              (afl.randBelow (lDiff - fDiff))
              (fun drawn state => afl.Given begun False afl.origIn state ∧
                (0 < lDiff - fDiff → drawn < lDiff - fDiff))
              (Sound begun) := by
            apply (triple_randBelow _ _).ending
            · intro drawn state holds
              exact ⟨⟨holds.1.going.any, holds.1.input⟩, holds.2⟩
            · intro state draws given
              exact ⟨given.going.changed rfl given.going.sound.fits, given.input⟩
          apply drawn.bind
          intro drawn
          apply Triple.given
          intro less
          apply (triple_spliceAt (by omega) lengths.2).bind
          intro _
          apply (triple_havocStage rounds stageMax perfScore).bind
          intro _
          exact induction

theorem triple_havocAndSplicing (small : afl.origIn.length ≤ maxFile)
    (rounds stageMax spliceMax perfScore : Nat) :
    Triple (afl.Ready begun)
      (afl.havocAndSplicing rounds stageMax spliceMax perfScore)
      (fun _ => Sound begun) (Sound begun) := by
  apply (triple_havocStage rounds stageMax perfScore).bind
  intro _
  apply (triple_retrySplicing small _ _ _ _).ending
  intro _ state going
  exact going.sound

end HavocSetting

end AFLPlusPlus
