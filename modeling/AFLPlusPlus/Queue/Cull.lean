import AFLPlusPlus.Queue.TopRated

/-!
# Choosing the favored entries

`cull_queue` walks the map upwards and takes the winner of every byte that no
entry taken before has in its packed trace.  What it computes is described by
the indices at which it takes a winner.
-/

namespace AFLPlusPlus

/-- Why an operation on the queue does not return: a NULL `trace_mini` is read,
or `FATAL`. -/
inductive QueueFailure where
  | nullTraceMini
  | fatal
  deriving DecidableEq, Repr

/-- `row[i >> 3] & (1 << (i & 7))` -/
def rowBit (row : Buffer) (i : Nat) : Bool :=
  decide (row (i >>> 3) &&& 1#8 <<< (i &&& 7) ≠ 0#8)

/-- One round of `while (j--)`, which runs downwards. -/
def clearRowRound (len : Nat) (traceMini : Buffer) (round : Nat)
    (temp : Buffer) : Buffer :=
  let j := len - 1 - round
  if traceMini j ≠ 0#8 then
    Function.update temp j (temp j &&& ~~~(traceMini j))
  else temp

/-- Remove all bits belonging to the current entry from `temp_v`. -/
def clearRow (len : Nat) (traceMini temp : Buffer) : Buffer :=
  forRange (clearRowRound len traceMini) len temp

namespace QueueState

/-- The favored entries that count as pending in `cull_queue`. -/
def pendingEntry (entry : QueueEntry) : Bool :=
  entry.favored &&
    (decide (entry.fuzzLevel = 0#32) || !entry.wasFuzzed)

/-- Mark an entry as favored and count it. -/
def favor (afl : QueueState) (id : Nat) : QueueState :=
  if (afl.queueBuf id).favored then afl
  else
    { afl.modify id fun entry => { entry with favored := true } with
      queuedFavored := afl.queuedFavored + 1
      pendingFavored :=
        if (afl.queueBuf id).fuzzLevel = 0#32 ∨
            (afl.queueBuf id).wasFuzzed = false then
          afl.pendingFavored + 1
        else afl.pendingFavored }

/-- One index of the main loop of `cull_queue`. -/
def cullQueueRound (i : Nat) (state : Buffer × QueueState) :
    Except QueueFailure (Buffer × QueueState) :=
  match state.2.topRated i with
  | none => .ok state
  | some topRated =>
      if rowBit state.1 i then
        match (state.2.queueBuf topRated).traceMini with
        | none => .error .nullTraceMini
        | some traceMini =>
            .ok (clearRow (state.2.mapSize >>> 3) traceMini state.1,
              state.2.favor topRated)
      else .ok state

/-- `mark_as_redundant`, the marker file left out. -/
def markAsRedundant (afl : QueueState) (id : Nat) (state : Bool) :
    QueueState :=
  if state = (afl.queueBuf id).fsRedundant then afl
  else afl.modify id fun entry => { entry with fsRedundant := state }

/-- One entry of the last loop of `cull_queue`. -/
def markRound (id : Nat) (afl : QueueState) : QueueState :=
  if (afl.queueBuf id).disabled then afl
  else afl.markAsRedundant id !(afl.queueBuf id).favored

/-- The counters and the favored marks before the main loop. -/
def resetFavored (afl : QueueState) : QueueState :=
  forRange (fun id afl => afl.modify id fun entry =>
      { entry with favored := false }) afl.queuedPaths
    { afl with scoreChanged := false, queuedFavored := 0, pendingFavored := 0 }

def cullQueue (afl : QueueState) : Except QueueFailure QueueState :=
  if afl.scoreChanged = false ∨ afl.nonInstrumentedMode = true then .ok afl
  else do
    let culled ← forRangeM cullQueueRound afl.mapSize
      ((fun _ => 0xff#8), afl.resetFavored)
    .ok (forRange markRound afl.queuedPaths culled.2)

/-- The winner of an index has a bit in its packed trace. -/
def winnerHas (afl : QueueState) (index bit : Nat) : Bool :=
  match afl.topRated index with
  | none => false
  | some topRated =>
      match (afl.queueBuf topRated).traceMini with
      | none => false
      | some traceMini => rowBit traceMini bit

/-- The indices below `count` at which a winner is taken: those with a winner
which none of the winners taken before has in its trace. -/
def picks (afl : QueueState) : Nat → List Nat
  | 0 => []
  | count + 1 =>
      let earlier := afl.picks count
      if (afl.topRated count).isSome &&
          !earlier.any fun index => afl.winnerHas index count then
        earlier ++ [count]
      else earlier

/-- An entry which the next pass takes as the winner of some index. -/
def Picked (afl : QueueState) (id : Nat) : Prop :=
  ∃ index ∈ afl.picks afl.mapSize, afl.topRated index = some id

end QueueState

theorem rowBit_eq (row : Buffer) (i : Nat) :
    rowBit row i = (row (i / 8)).getLsbD (i % 8) := by
  have single : ∀ k < 8, ∀ value : BitVec 8,
      decide (value &&& 1#8 <<< k ≠ 0#8) = value.getLsbD k := by
    decide +revert
  have low : i &&& 7 = i % 8 := Nat.and_two_pow_sub_one_eq_mod i 3
  rw [rowBit, Nat.shiftRight_eq_div_pow, low]
  exact single (i % 8) (Nat.mod_lt i (by decide)) (row (i / 8))

theorem clearRowRound_eq (len : Nat) (traceMini : Buffer) (round : Nat)
    (temp : Buffer) (j : Nat) :
    clearRowRound len traceMini round temp j =
      if j = len - 1 - round then temp j &&& ~~~(traceMini j) else temp j := by
  unfold clearRowRound
  by_cases here : j = len - 1 - round
  · rw [if_pos here, ← here]
    by_cases zero : traceMini j = 0#8
    · simp [zero]
    · simp [zero]
  · rw [if_neg here]
    split
    · rw [Function.update_of_ne here]
    · rfl

theorem clearRow_eq (len : Nat) (traceMini temp : Buffer) (j : Nat) :
    clearRow len traceMini temp j =
      if j < len then temp j &&& ~~~(traceMini j) else temp j := by
  have loop := forRange_invariant
    (clearRowRound len traceMini)
    (fun round current => ∀ j, current j =
      if len - round ≤ j ∧ j < len then temp j &&& ~~~(traceMini j)
      else temp j)
    temp
    (by
      intro j
      rw [if_neg]
      omega)
    len
    (by
      intro round inside current reached j
      rw [clearRowRound_eq, reached]
      by_cases here : j = len - 1 - round
      · rw [if_pos here, if_neg (by omega), if_pos (by omega)]
      · rw [if_neg here]
        by_cases earlier : len - round ≤ j ∧ j < len
        · rw [if_pos earlier, if_pos (by omega)]
        · rw [if_neg earlier, if_neg (by omega)])
  have final := loop j
  simp only [Nat.sub_self, Nat.zero_le, true_and] at final
  exact final

theorem rowBit_clearRow {mapSize i : Nat} (aligned : 8 ∣ mapSize)
    (inside : i < mapSize) (traceMini temp : Buffer) :
    rowBit (clearRow (mapSize >>> 3) traceMini temp) i =
      (rowBit temp i && !rowBit traceMini i) := by
  have byteInside : i / 8 < mapSize >>> 3 := by
    rw [Nat.shiftRight_eq_div_pow]
    omega
  have low : i % 8 < 8 := Nat.mod_lt i (by decide)
  rw [rowBit_eq, rowBit_eq, rowBit_eq, clearRow_eq, if_pos byteInside,
    BitVec.getLsbD_and, BitVec.getLsbD_not]
  simp [low]

namespace QueueState

/-- Only marks of entries and the two counters of favored entries differ. -/
structure MarksOnly (before after : QueueState) : Prop where
  mapSize : after.mapSize = before.mapSize
  topRated : after.topRated = before.topRated
  queuedPaths : after.queuedPaths = before.queuedPaths
  activePaths : after.activePaths = before.activePaths
  pendingNotFuzzed : after.pendingNotFuzzed = before.pendingNotFuzzed
  entries : ∀ id, { after.queueBuf id with
      favored := (before.queueBuf id).favored
      fsRedundant := (before.queueBuf id).fsRedundant } = before.queueBuf id

theorem MarksOnly.refl (afl : QueueState) : MarksOnly afl afl := by
  constructor <;> simp

theorem MarksOnly.trans {first second third : QueueState}
    (step : MarksOnly first second) (rest : MarksOnly second third) :
    MarksOnly first third := by
  constructor
  · rw [rest.mapSize, step.mapSize]
  · rw [rest.topRated, step.topRated]
  · rw [rest.queuedPaths, step.queuedPaths]
  · rw [rest.activePaths, step.activePaths]
  · rw [rest.pendingNotFuzzed, step.pendingNotFuzzed]
  · intro id
    rw [← step.entries id, ← rest.entries id]

theorem marksOnly_modify (afl : QueueState) (id : Nat)
    (change : QueueEntry → QueueEntry)
    (marks : { change (afl.queueBuf id) with
      favored := (afl.queueBuf id).favored
      fsRedundant := (afl.queueBuf id).fsRedundant } = afl.queueBuf id) :
    MarksOnly afl (afl.modify id change) := by
  constructor <;> try rfl
  intro other
  rw [modify_queueBuf]
  by_cases same : other = id
  · subst other
    rw [if_pos rfl]
    exact marks
  · rw [if_neg same]

section Entries

variable {before after : QueueState} (same : MarksOnly before after) (id : Nat)
include same

theorem MarksOnly.traceMini :
    (after.queueBuf id).traceMini = (before.queueBuf id).traceMini := by
  rw [← same.entries id]

theorem MarksOnly.tcRef : (after.queueBuf id).tcRef = (before.queueBuf id).tcRef := by
  rw [← same.entries id]

theorem MarksOnly.wasFuzzed :
    (after.queueBuf id).wasFuzzed = (before.queueBuf id).wasFuzzed := by
  rw [← same.entries id]

theorem MarksOnly.fuzzLevel :
    (after.queueBuf id).fuzzLevel = (before.queueBuf id).fuzzLevel := by
  rw [← same.entries id]

theorem MarksOnly.disabled :
    (after.queueBuf id).disabled = (before.queueBuf id).disabled := by
  rw [← same.entries id]

end Entries

theorem RatedInvariant.of_marksOnly {before after : QueueState}
    (invariant : before.RatedInvariant) (same : MarksOnly before after) :
    after.RatedInvariant :=
  invariant.of_same same.mapSize same.topRated
    (Nat.le_of_eq same.queuedPaths.symm) same.tcRef same.traceMini

theorem resetFavored_spec (afl : QueueState) :
    MarksOnly afl afl.resetFavored ∧ afl.resetFavored.queuedFavored = 0 ∧
      afl.resetFavored.pendingFavored = 0 ∧
      ∀ id < afl.queuedPaths, (afl.resetFavored.queueBuf id).favored = false := by
  let start : QueueState :=
    { afl with
      scoreChanged := false, queuedFavored := 0, pendingFavored := 0 }
  have loop := forRange_invariant
    (fun id (afl : QueueState) => afl.modify id fun entry =>
      { entry with favored := false })
    (fun count current => MarksOnly afl current ∧
      current.queuedFavored = 0 ∧ current.pendingFavored = 0 ∧
      ∀ id < count, (current.queueBuf id).favored = false)
    start
    ⟨by constructor <;> intros <;> rfl, rfl, rfl, by intro id none; omega⟩
    afl.queuedPaths
    (by
      rintro index _ current ⟨marks, queued, pending, reset⟩
      refine ⟨marks.trans (marksOnly_modify _ _ _ rfl), queued, pending, ?_⟩
      intro id inside
      rw [modify_queueBuf]
      split
      · rfl
      · exact reset id (by omega))
  exact loop

/-- The state of the main loop before an index: a bit of `temp_v` is left when
no winner taken so far has it, and the favored entries are these winners. -/
structure Culled (afl : QueueState) (count : Nat)
    (state : Buffer × QueueState) : Prop where
  marks : MarksOnly afl state.2
  left : ∀ bit < afl.mapSize, rowBit state.1 bit =
    !(afl.picks count).any fun index => afl.winnerHas index bit
  favored : ∀ id < afl.queuedPaths,
    (state.2.queueBuf id).favored = true ↔
      ∃ index ∈ afl.picks count, afl.topRated index = some id
  queuedFavored : state.2.queuedFavored = state.2.countEntries QueueEntry.favored
  pendingFavored : state.2.pendingFavored = state.2.countEntries pendingEntry

theorem favor_favored (afl : QueueState) (id : Nat) (other : Nat) :
    ((afl.favor id).queueBuf other).favored =
      ((afl.queueBuf other).favored || decide (other = id)) := by
  unfold favor
  split
  · rename_i already
    by_cases same : other = id
    · subst other
      simp [already]
    · simp [same]
  · by_cases same : other = id
    · subst other
      simp [modify]
    · simp [modify, same]

theorem favor_marksOnly (afl : QueueState) (id : Nat) :
    MarksOnly afl (afl.favor id) := by
  unfold favor
  split
  · exact MarksOnly.refl afl
  · have marks := marksOnly_modify afl id
      (fun entry => { entry with favored := true }) rfl
    exact { marks with }

theorem favor_queueBuf_of_ne (afl : QueueState) {id other : Nat}
    (different : other ≠ id) :
    (afl.favor id).queueBuf other = afl.queueBuf other := by
  unfold favor
  split
  · rfl
  · simp [modify, different]

/-- The counters stay the numbers of favored entries, and of those among them
that count as pending. -/
theorem favor_counts {afl : QueueState} (id : Nat)
    (queued : id < afl.queuedPaths)
    (queuedFavored : afl.queuedFavored = afl.countEntries QueueEntry.favored)
    (pendingFavored : afl.pendingFavored = afl.countEntries pendingEntry) :
    (afl.favor id).queuedFavored = (afl.favor id).countEntries QueueEntry.favored ∧
      (afl.favor id).pendingFavored = (afl.favor id).countEntries pendingEntry := by
  have marks := favor_marksOnly afl id
  have change := countEntries_change queued marks.queuedPaths
    fun other _ different => favor_queueBuf_of_ne afl different
  have now : ((afl.favor id).queueBuf id).favored = true := by
    rw [favor_favored]
    simp
  by_cases already : (afl.queueBuf id).favored = true
  · have unchanged : afl.favor id = afl := by
      unfold favor
      rw [if_pos already]
    rw [unchanged]
    exact ⟨queuedFavored, pendingFavored⟩
  · have favoredCount := change QueueEntry.favored
    have pendingCount := change pendingEntry
    have counters : (afl.favor id).queuedFavored = afl.queuedFavored + 1 ∧
        (afl.favor id).pendingFavored =
          if (afl.queueBuf id).fuzzLevel = 0#32 ∨
            (afl.queueBuf id).wasFuzzed = false then afl.pendingFavored + 1
          else afl.pendingFavored := by
      unfold favor
      rw [if_neg already]
      exact ⟨rfl, rfl⟩
    have notPending : pendingEntry (afl.queueBuf id) = false := by
      simp [pendingEntry, already]
    have pending : pendingEntry ((afl.favor id).queueBuf id) = true ↔
        (afl.queueBuf id).fuzzLevel = 0#32 ∨ (afl.queueBuf id).wasFuzzed = false := by
      simp [pendingEntry, now, marks.fuzzLevel, marks.wasFuzzed]
    rw [if_neg already, if_pos now] at favoredCount
    rw [notPending, if_neg Bool.false_ne_true] at pendingCount
    simp only [pending] at pendingCount
    rw [counters.1, counters.2, queuedFavored, pendingFavored]
    constructor
    · omega
    · split at pendingCount <;> rename_i counted
      · rw [if_pos counted]
        omega
      · rw [if_neg counted]
        omega

variable {afl : QueueState}

theorem RatedInvariant.winner_traceMini (invariant : afl.RatedInvariant)
    {i topRated : Nat} (winner : afl.topRated i = some topRated) :
    ∃ row, (afl.queueBuf topRated).traceMini = some row := by
  rw [← Option.isSome_iff_exists, invariant.traceMini, ratedCount]
  exact Nat.pos_of_ne_zero (Nat.count_ne_iff_exists.mpr
    ⟨i, (invariant.rated i topRated winner).1, winner⟩)

/-- One index of the main loop: no NULL is read, and the picks grow by an index
whose winner none of the earlier picks covers. -/
theorem cullQueueRound_culled (invariant : afl.RatedInvariant) {i : Nat}
    (inside : i < afl.mapSize) {state : Buffer × QueueState}
    (culled : Culled afl i state) :
    Yields (fun _ => False) (Culled afl (i + 1)) (cullQueueRound i state) := by
  obtain ⟨marks, left, favored, queuedFavored, pendingFavored⟩ := culled
  have bit := left i inside
  unfold cullQueueRound
  rw [marks.topRated]
  cases winner : afl.topRated i with
  | none =>
      have same : afl.picks (i + 1) = afl.picks i := by
        simp [picks, winner]
      exact ⟨marks, by rw [same]; exact left, by rw [same]; exact favored,
        queuedFavored, pendingFavored⟩
  | some topRated =>
      dsimp only
      by_cases remaining : rowBit state.1 i = true
      · rw [if_pos remaining]
        obtain ⟨row, hasRow⟩ := invariant.winner_traceMini winner
        have queued := (invariant.rated i topRated winner).2
        have same : afl.picks (i + 1) = afl.picks i ++ [i] := by
          rw [bit] at remaining
          simp only [picks, winner]
          simp at remaining ⊢
          exact remaining
        have covers : ∀ bit, afl.winnerHas i bit = rowBit row bit := by
          intro bit
          simp only [winnerHas, winner, hasRow]
        have counts := favor_counts topRated
          (by rw [marks.queuedPaths]; exact queued) queuedFavored
          pendingFavored
        rw [marks.traceMini, hasRow]
        refine ⟨marks.trans (favor_marksOnly _ _), ?_, ?_, counts.1, counts.2⟩
        · intro bit bitInside
          rw [marks.mapSize, rowBit_clearRow afl.aligned bitInside, same,
            left bit bitInside, List.any_append, ← covers]
          simp
        · intro id idQueued
          rw [favor_favored, same, Bool.or_eq_true, favored id idQueued,
            decide_eq_true_eq]
          constructor
          · rintro (⟨index, picked, rated⟩ | rfl)
            · exact ⟨index, List.mem_append_left _ picked, rated⟩
            · exact ⟨i, by simp, winner⟩
          · rintro ⟨index, picked, rated⟩
            rcases List.mem_append.mp picked with earlier | last
            · exact .inl ⟨index, earlier, rated⟩
            · obtain rfl := List.mem_singleton.mp last
              rw [winner] at rated
              exact .inr (Option.some.inj rated).symm
      · rw [if_neg remaining]
        have same : afl.picks (i + 1) = afl.picks i := by
          rw [bit] at remaining
          simp only [picks, winner]
          simp at remaining ⊢
          exact remaining
        exact ⟨marks, by rw [same]; exact left, by rw [same]; exact favored,
          queuedFavored, pendingFavored⟩

theorem markRound_spec (id : Nat) (afl : QueueState) :
    MarksOnly afl (markRound id afl) ∧
      (markRound id afl).queuedFavored = afl.queuedFavored ∧
      (markRound id afl).pendingFavored = afl.pendingFavored ∧
      ∀ other, (markRound id afl).queueBuf other =
        if other = id ∧ (afl.queueBuf id).disabled = false then
          { afl.queueBuf id with
            fsRedundant := !(afl.queueBuf id).favored }
        else afl.queueBuf other := by
  unfold markRound markAsRedundant
  cases disabled : (afl.queueBuf id).disabled with
  | true => simp [MarksOnly.refl]
  | false =>
      by_cases already : (!(afl.queueBuf id).favored) = (afl.queueBuf id).fsRedundant
      · refine ⟨?_, ?_, ?_, ?_⟩
        all_goals simp [already, MarksOnly.refl]
      · rw [if_neg Bool.false_ne_true, if_neg already]
        refine ⟨marksOnly_modify _ _ _ rfl, rfl, rfl, ?_⟩
        intro other
        rw [modify_queueBuf]
        simp

/-- What an effective pass leaves behind. -/
structure CullResult (afl culled : QueueState) : Prop where
  marks : MarksOnly afl culled
  favored : ∀ id < afl.queuedPaths, (culled.queueBuf id).favored = true ↔ afl.Picked id
  redundant : ∀ id < afl.queuedPaths,
    (culled.queueBuf id).disabled = false →
      (culled.queueBuf id).fsRedundant = !(culled.queueBuf id).favored
  queuedFavored : culled.queuedFavored = culled.countEntries QueueEntry.favored
  pendingFavored : culled.pendingFavored = culled.countEntries pendingEntry

theorem resetFavored_culled (afl : QueueState) :
    Culled afl 0 ((fun _ => 0xff#8), afl.resetFavored) := by
  obtain ⟨marks, queued, pending, reset⟩ := afl.resetFavored_spec
  have none : ∀ property : QueueEntry → Bool,
      (∀ entry, entry.favored = false → property entry = false) →
      afl.resetFavored.countEntries property = 0 := by
    intro property implies
    unfold countEntries
    rw [Nat.count_iff_forall_not]
    intro id inside
    rw [marks.queuedPaths] at inside
    rw [implies _ (reset id inside)]
    exact Bool.false_ne_true
  refine ⟨marks, ?_, ?_, ?_, ?_⟩
  · intro bit _
    rw [rowBit_eq]
    have low : bit % 8 < 8 := Nat.mod_lt bit (by decide)
    have ones : ∀ k < 8, (0xff#8).getLsbD k = true := by decide
    rw [ones _ low]
    rfl
  · intro id inside
    rw [reset id inside]
    simp [picks]
  · rw [queued, none _ fun _ => id]
    rfl
  · rw [pending, none]
    · rfl
    · intro entry notFavored
      simp [pendingEntry, notFavored]

/-- `cull_queue` reads no NULL and computes the picks. -/
theorem cullQueue_spec (invariant : afl.RatedInvariant)
    (changed : afl.scoreChanged = true)
    (instrumented : afl.nonInstrumentedMode = false) :
    ∃ culled, afl.cullQueue = .ok culled ∧ CullResult afl culled := by
  obtain ⟨state, run, main⟩ := (forRangeM_yields
    cullQueueRound (fun i state => Culled afl i state)
    ((fun _ => 0xff#8), afl.resetFavored)
    (resetFavored_culled afl) afl.mapSize
    (fun i inside _ culled => cullQueueRound_culled invariant inside culled)
    ).returns
  obtain ⟨marks, _, favored, queuedFavored, pendingFavored⟩ := main
  have marking := forRange_invariant markRound
    (fun count current => MarksOnly state.2 current ∧
      current.queuedFavored = state.2.queuedFavored ∧
      current.pendingFavored = state.2.pendingFavored ∧
      (∀ id, (current.queueBuf id).favored = (state.2.queueBuf id).favored) ∧
      ∀ id < count, (current.queueBuf id).disabled = false →
        (current.queueBuf id).fsRedundant = !(current.queueBuf id).favored)
    state.2
    ⟨MarksOnly.refl _, rfl, rfl, fun _ => rfl, by intro id none; omega⟩
    afl.queuedPaths
    (by
      rintro index inside current ⟨kept, queued, pending, same, redundant⟩
      obtain ⟨step, queuedStep, pendingStep, entries⟩ := markRound_spec index current
      refine ⟨kept.trans step, by rw [queuedStep, queued],
        by rw [pendingStep, pending], ?_, ?_⟩
      · intro id
        rw [entries]
        split
        · rename_i here
          rw [here.1]
          exact same index
        · exact same id
      · intro id idInside enabled
        rw [entries] at enabled ⊢
        split at enabled
        · rename_i here
          rw [if_pos here]
        · rename_i here
          rw [if_neg here]
          refine redundant id ?_ enabled
          by_contra outside
          have isIndex : id = index := by omega
          subst id
          exact here ⟨rfl, enabled⟩)
  obtain ⟨kept, queued, pending, same, redundant⟩ := marking
  refine ⟨forRange markRound afl.queuedPaths state.2, ?_, ?_⟩
  · unfold cullQueue
    rw [if_neg, run]
    · rfl
    · simp [changed, instrumented]
  · refine ⟨marks.trans kept, ?_, redundant, ?_, ?_⟩
    · intro id inside
      rw [same, favored id inside]
      rfl
    · rw [queued, queuedFavored]
      exact congrArg _ (countEntries_congr kept.queuedPaths fun id _ => same id).symm
    · rw [pending, pendingFavored]
      refine congrArg _ (countEntries_congr kept.queuedPaths fun id _ => ?_).symm
      unfold pendingEntry
      rw [same, kept.fuzzLevel, kept.wasFuzzed]

theorem picks_cover (count : Nat) :
    ∀ i < count, (afl.topRated i).isSome = true →
      i ∈ afl.picks count ∨
        ∃ index ∈ afl.picks count, afl.winnerHas index i = true := by
  induction count with
  | zero => intro i inside; omega
  | succ count induction =>
      intro i inside rated
      unfold picks
      dsimp only
      by_cases last : i = count
      · subst i
        split
        · exact .inl (by simp)
        · rename_i covered
          simp [rated] at covered
          obtain ⟨index, picked, has⟩ := covered
          exact .inr ⟨index, picked, has⟩
      · have earlier := induction i (by omega) rated
        split
        · rcases earlier with picked | ⟨index, picked, has⟩
          · exact .inl (List.mem_append_left _ picked)
          · exact .inr ⟨index, List.mem_append_left _ picked, has⟩
        · exact earlier

end QueueState

end AFLPlusPlus
