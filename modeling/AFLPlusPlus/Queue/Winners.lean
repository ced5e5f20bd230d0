import AFLPlusPlus.Queue.Operations

/-!
# The winners over whole runs

No operation on the queue breaks the bookkeeping of `top_rated`, so culling
reads a packed trace of every winner, and the entries it favors cover the map.
-/

namespace AFLPlusPlus

namespace QueueState

variable {afl : QueueState}

section

variable (invariant : afl.RatedInvariant)
include invariant

/-- Other fields of the state have no part in the invariant, and neither have
fields of an entry other than its trace and its count. -/
theorem RatedInvariant.of_modify (q : Nat) (change : QueueEntry → QueueEntry)
    {after : QueueState} (tcRef : ∀ entry, (change entry).tcRef = entry.tcRef)
    (traceMini : ∀ entry, (change entry).traceMini = entry.traceMini)
    (mapSize : after.mapSize = afl.mapSize) (topRated : after.topRated = afl.topRated)
    (queuedPaths : after.queuedPaths = afl.queuedPaths)
    (queueBuf : after.queueBuf = (afl.modify q change).queueBuf) :
    after.RatedInvariant := by
  refine RatedInvariant.of_same invariant mapSize topRated
    (Nat.le_of_eq queuedPaths.symm) ?_ ?_
  · intro id
    rw [queueBuf, modify_queueBuf]
    split
    · rename_i same
      rw [tcRef, same]
    · rfl
  · intro id
    rw [queueBuf, modify_queueBuf]
    split
    · rename_i same
      rw [traceMini, same]
    · rfl

theorem RatedInvariant.modify (q : Nat) (change : QueueEntry → QueueEntry)
    (tcRef : ∀ entry, (change entry).tcRef = entry.tcRef)
    (traceMini : ∀ entry, (change entry).traceMini = entry.traceMini) :
    (afl.modify q change).RatedInvariant :=
  invariant.of_modify q change tcRef traceMini rfl rfl rfl rfl

theorem RatedInvariant.addToQueue (len : BitVec 32) (passedDet : Bool) :
    (afl.addToQueue len passedDet).RatedInvariant := by
  have unrated : afl.ratedCount afl.queuedPaths = 0 := by
    unfold ratedCount
    rw [Nat.count_iff_forall_not]
    intro i _ rated
    exact Nat.lt_irrefl _ (invariant.rated i _ rated).2
  have tcRef := invariant.tcRef afl.queuedPaths
  have traceMini := invariant.traceMini afl.queuedPaths
  rw [unrated] at tcRef traceMini
  refine RatedInvariant.of_same invariant ?_ ?_ (Nat.le_succ _) ?_ ?_
  · rfl
  · rfl
  · intro id
    by_cases new : id = afl.queuedPaths
    · subst id
      rw [tcRef]
      simp [QueueState.addToQueue, blankEntry]
    · simp [QueueState.addToQueue, new]
  · intro id
    by_cases new : id = afl.queuedPaths
    · subst id
      have none : (afl.queueBuf afl.queuedPaths).traceMini = none := by
        simpa using traceMini
      rw [none]
      simp [QueueState.addToQueue, blankEntry]
    · simp [QueueState.addToQueue, new]

theorem RatedInvariant.calibrateCase {q : Nat} (queued : q < afl.queuedPaths)
    (calibration : Calibration) :
    (afl.calibrateCase q calibration).RatedInvariant := by
  have executed : (afl.executeCase q calibration).RatedInvariant :=
    invariant.of_modify q (fun entry =>
      { entry with
        calFailed := entry.calFailed + 1#8
        execCksum := calibration.execCksum })
      (fun _ => rfl) (fun _ => rfl) rfl rfl rfl rfl
  unfold QueueState.calibrateCase
  dsimp only
  split
  · have timed := executed.modify q (fun entry =>
      { entry with execUs := calibration.execUs, calFailed := 0#8 })
      (fun _ => rfl) fun _ => rfl
    exact timed.updateBitmapScore queued
  · exact executed

theorem RatedInvariant.shortenCase (q : Nat) (len : BitVec 32) (trace : Buffer) :
    (afl.shortenCase q len trace).RatedInvariant :=
  invariant.of_modify q (fun entry => { entry with len })
    (fun _ => rfl) (fun _ => rfl) rfl rfl rfl rfl

theorem RatedInvariant.trimCase {q : Nat} (queued : q < afl.queuedPaths) (len : BitVec 32)
    (trace : Buffer) : (afl.trimCase q len trace).RatedInvariant :=
  (invariant.shortenCase q len trace).updateBitmapScore queued

theorem RatedInvariant.disableEntry (q : Nat) : (afl.disableEntry q).RatedInvariant :=
  invariant.of_modify q (fun entry =>
      { entry with wasFuzzed := true, disabled := true })
    (fun _ => rfl) (fun _ => rfl) rfl rfl rfl rfl

theorem RatedInvariant.abandonEntry (queueCur : Nat) (stopSoon : Bool) :
    (afl.abandonEntry queueCur stopSoon).RatedInvariant := by
  have marked : (afl.markFuzzed queueCur).RatedInvariant :=
    invariant.of_modify queueCur (fun entry => { entry with wasFuzzed := true })
      (fun _ => rfl) (fun _ => rfl) rfl rfl rfl rfl
  unfold QueueState.abandonEntry
  apply RatedInvariant.modify
  · split
    · split
      · exact marked
      · exact invariant
    · exact invariant
  · exact fun _ => rfl
  · exact fun _ => rfl

theorem RatedInvariant.cycleSchedules : afl.cycleSchedules.RatedInvariant := by
  have loop := forRange_invariant cycleRound
    (fun _ current => current.RatedInvariant ∧ current.queuedPaths = afl.queuedPaths)
    { afl with schedule := nextSchedule afl.schedule }
    ⟨RatedInvariant.of_same invariant rfl rfl (Nat.le_refl _) (fun _ => rfl)
      fun _ => rfl, rfl⟩
    afl.queuedPaths
    (by
      rintro index inside current ⟨holds, length⟩
      unfold cycleRound
      split
      · exact ⟨holds, length⟩
      · exact ⟨holds.updateBitmapScore (by rw [length]; exact inside),
          (updateBitmapScore_sameQueue _ _).queuedPaths.trans length⟩)
  exact loop.1

theorem RatedInvariant.performDryRun (run : DryRun) :
    Yields (fun failure => failure = .fatal) RatedInvariant
      (afl.performDryRun run) :=
  performDryRun_rule RatedInvariant
    (fun _ _ holds queued => holds.calibrateCase queued _)
    (fun _ q holds => holds.modify q _ (fun _ => rfl) fun _ => rfl)
    (fun _ q holds _ _ _ => holds.disableEntry q) invariant

theorem RatedInvariant.cullQueue :
    ∃ culled, afl.cullQueue = .ok culled ∧ culled.RatedInvariant := by
  by_cases idle : afl.scoreChanged = false ∨ afl.nonInstrumentedMode = true
  · refine ⟨afl, ?_, invariant⟩
    unfold QueueState.cullQueue
    rw [if_pos idle]
  · rw [not_or, Bool.not_eq_false, Bool.not_eq_true] at idle
    obtain ⟨culled, run, result⟩ := cullQueue_spec invariant idle.1 idle.2
    exact ⟨culled, run, invariant.of_marksOnly result.marks⟩

theorem RatedInvariant.onEntry (q : Nat) {change : QueueState → QueueState}
    (keeps : q < afl.queuedPaths → (change afl).RatedInvariant) :
    (afl.onEntry q change).RatedInvariant := by
  unfold QueueState.onEntry
  split
  · rename_i queued
    exact keeps queued
  · exact invariant

theorem RatedInvariant.step (op : QueueOp) :
    Yields (fun failure => failure = .fatal) RatedInvariant
      (afl.step op) := by
  cases op with
  | addToQueue len passedDet => exact invariant.addToQueue len passedDet
  | execute trace =>
      exact RatedInvariant.of_same invariant rfl rfl (Nat.le_refl _)
        (fun _ => rfl) fun _ => rfl
  | updateBitmapScore q =>
      exact invariant.onEntry q fun queued =>
        invariant.updateBitmapScore queued
  | calibrateCase q calibration =>
      exact invariant.onEntry q fun queued =>
        invariant.calibrateCase queued calibration
  | trimCase q len trace =>
      exact invariant.onEntry q fun queued =>
        invariant.trimCase queued len trace
  | countFuzz slot value =>
      exact RatedInvariant.of_same invariant rfl rfl (Nat.le_refl _)
        (fun _ => rfl) fun _ => rfl
  | assignNFuzzEntry q slot =>
      exact invariant.onEntry q fun _ => invariant.modify q
        (fun entry => { entry with nFuzzEntry := slot }) (fun _ => rfl)
        fun _ => rfl
  | cycleSchedules => exact invariant.cycleSchedules
  | performDryRun run => exact invariant.performDryRun run
  | cullQueue =>
      obtain ⟨culled, run, holds⟩ := invariant.cullQueue
      rw [QueueState.step, run]
      exact holds
  | abandonEntry queueCur stopSoon =>
      exact invariant.onEntry queueCur fun _ =>
        invariant.abandonEntry queueCur stopSoon

theorem RatedInvariant.run (ops : List QueueOp) :
    Yields (fun failure => failure = .fatal) RatedInvariant (afl.run ops) := by
  induction ops generalizing afl with
  | nil => exact invariant
  | cons op ops induction =>
      exact (invariant.step op).bind fun next holds => induction holds

end

theorem start_ratedInvariant (settings : QueueSettings) :
    settings.start.RatedInvariant := by
  have none : ∀ id, settings.start.ratedCount id = 0 := by
    intro id
    unfold ratedCount
    rw [Nat.count_iff_forall_not]
    intro i _ rated
    cases rated
  constructor
  · intro i id rated
    cases rated
  · intro id
    rw [none]
    rfl
  · intro id
    rw [none]
    exact iff_of_false (by simp [QueueSettings.start, blankEntry]) (by simp)

/-- After every sequence of operations `tc_ref` counts the indices an entry has
won, `trace_mini` is there exactly for the entries with a count, and culling
returns.  A run that ends early ends with `FATAL`, not with a NULL. -/
theorem run_topRated (settings : QueueSettings) (ops : List QueueOp) :
    match settings.start.run ops with
    | .error failure => failure = .fatal
    | .ok afl =>
        (∀ id < afl.queuedPaths,
          (afl.queueBuf id).tcRef.toNat = afl.ratedCount id ∧
            ((afl.queueBuf id).traceMini.isSome = true ↔
              0 < (afl.queueBuf id).tcRef.toNat)) ∧
          ∃ culled, afl.cullQueue = .ok culled := by
  have reached := (start_ratedInvariant settings).run ops
  cases result : settings.start.run ops with
  | error failure =>
      rw [result] at reached
      exact reached
  | ok afl =>
      rw [result] at reached
      have invariant : afl.RatedInvariant := reached
      constructor
      · intro id _
        have count : (afl.queueBuf id).tcRef.toNat = afl.ratedCount id := by
          rw [invariant.tcRef, BitVec.toNat_ofNat,
            Nat.mod_eq_of_lt (afl.ratedCount_bounded id)]
        rw [count]
        exact ⟨rfl, invariant.traceMini id⟩
      · obtain ⟨culled, culls, _⟩ := invariant.cullQueue
        exact ⟨culled, culls⟩

/-- What a culling pass is for: the favored entries are winners and cover every
index that has a winner. -/
structure FavoredCover (afl : QueueState) : Prop where
  covered : ∀ i < afl.mapSize, ∀ topRated, afl.topRated i = some topRated →
    (afl.queueBuf topRated).favored = true ∨
      ∃ id < afl.queuedPaths, (afl.queueBuf id).favored = true ∧
        ∃ row, (afl.queueBuf id).traceMini = some row ∧ rowBit row i = true
  winners : ∀ id < afl.queuedPaths, (afl.queueBuf id).favored = true →
    ∃ i < afl.mapSize, afl.topRated i = some id
  queuedFavored : afl.queuedFavored = afl.countEntries QueueEntry.favored
  redundant : ∀ id < afl.queuedPaths, (afl.queueBuf id).disabled = false →
    ((afl.queueBuf id).fsRedundant = true ↔ (afl.queueBuf id).favored = false)

theorem picks_lt (count : Nat) : ∀ index ∈ afl.picks count, index < count := by
  induction count with
  | zero => intro index none; cases none
  | succ count induction =>
      intro index picked
      unfold picks at picked
      dsimp only at picked
      split at picked
      · rcases List.mem_append.mp picked with earlier | last
        · exact Nat.lt_succ_of_lt (induction index earlier)
        · obtain rfl := List.mem_singleton.mp last
          exact Nat.lt_succ_self _
      · exact Nat.lt_succ_of_lt (induction index picked)

theorem exists_row_of_winnerHas {index bit : Nat}
    (has : afl.winnerHas index bit = true) :
    ∃ id row, afl.topRated index = some id ∧
      (afl.queueBuf id).traceMini = some row ∧ rowBit row bit = true := by
  unfold winnerHas at has
  split at has
  · cases has
  · rename_i id winner
    split at has
    · cases has
    · rename_i row hasRow
      exact ⟨id, row, winner, hasRow, has⟩

theorem CullResult.favoredCover (invariant : afl.RatedInvariant)
    {culled : QueueState} (result : CullResult afl culled) :
    culled.FavoredCover := by
  obtain ⟨marks, favored, redundant, queuedFavored, _⟩ := result
  constructor
  · intro i inside topRated winner
    rw [marks.mapSize] at inside
    rw [marks.topRated] at winner
    rcases picks_cover afl.mapSize i inside (by rw [winner]; rfl) with
      picked | ⟨index, picked, has⟩
    · have queued := (invariant.rated i topRated winner).2
      exact .inl ((favored topRated queued).mpr ⟨i, picked, winner⟩)
    · obtain ⟨id, row, rated, hasRow, bit⟩ := exists_row_of_winnerHas has
      have queued := (invariant.rated index id rated).2
      refine .inr ⟨id, ?_, (favored id queued).mpr ⟨index, picked, rated⟩,
        row, ?_, bit⟩
      · rw [marks.queuedPaths]
        exact queued
      · rw [marks.traceMini]
        exact hasRow
  · intro id queued isFavored
    rw [marks.queuedPaths] at queued
    obtain ⟨index, picked, rated⟩ := (favored id queued).mp isFavored
    refine ⟨index, ?_, ?_⟩
    · rw [marks.mapSize]
      exact picks_lt afl.mapSize index picked
    · rw [marks.topRated]
      exact rated
  · exact queuedFavored
  · intro id queued enabled
    rw [marks.queuedPaths] at queued
    rw [redundant id queued enabled]
    cases (culled.queueBuf id).favored <;> simp

/-- From every reachable table of winners an effective pass computes a
cover. -/
theorem run_cullQueue_favoredCover (settings : QueueSettings)
    (ops : List QueueOp) (reached : QueueState)
    (runs : settings.start.run ops = .ok reached)
    (changed : reached.scoreChanged = true)
    (instrumented : reached.nonInstrumentedMode = false) :
    ∃ culled, reached.cullQueue = .ok culled ∧ culled.FavoredCover := by
  have invariant := (start_ratedInvariant settings).run ops
  rw [runs] at invariant
  obtain ⟨culled, culls, result⟩ := cullQueue_spec invariant changed instrumented
  exact ⟨culled, culls, result.favoredCover invariant⟩

/-- Two executed entries, of which the second one is the faster. -/
def twoEntries : List QueueOp :=
  [.addToQueue 4#32 false, .addToQueue 3#32 false,
    .calibrateCase 0 ⟨fun i => if i < 2 then 1#8 else 0#8, 7#64, 9#64, true⟩,
    .calibrateCase 1 ⟨fun i => if i = 1 then 1#8 else 0#8, 8#64, 2#64, true⟩]

/-- A map of 64 bytes under the schedule `fast`. -/
def smallMap : QueueSettings :=
  { mapSize := 64
    aligned := by decide
    bounded := by decide
    schedule := .fast
    fixedSeed := false
    nonInstrumentedMode := false }

set_option maxRecDepth 20000 in
theorem run_cullQueue_favoredCover_twoEntries :
    ∃ reached, smallMap.start.run twoEntries = .ok reached ∧
      reached.scoreChanged = true ∧ reached.nonInstrumentedMode = false ∧
      ∃ culled, reached.cullQueue = .ok culled ∧ culled.FavoredCover := by
  refine ⟨_, rfl, ?_, ?_, ?_⟩
  · decide
  · decide
  · exact run_cullQueue_favoredCover smallMap twoEntries _ rfl (by decide)
      (by decide)

end QueueState

end AFLPlusPlus
