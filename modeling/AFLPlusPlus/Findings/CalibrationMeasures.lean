import AFLPlusPlus.Findings.CalibrationAccount

/-!
# What a calibration measures

Only a calibration that is not aborted writes the execution time and the size of
the map, and only to its own entry.
-/

namespace AFLPlusPlus

namespace CalibrateCase

variable {settings : Settings} {call : Call} {q : Nat} {before : State} {outcome : Outcome}

theorem compareRun_traceBits (settings : Settings) (q : Nat) (loop : Loop) :
    (compareRun settings q loop).afl.maps.traceBits =
      bucketed loop.afl.maps.mapSize loop.afl.maps.traceBits := by
  have compared := compare_traceBits (loop.afl.classify settings.flavour)
    settings.flavour
  rcases compareRun_cases settings q loop with
    ⟨_, same⟩ | ⟨_, newBits, first⟩ | ⟨_, newBits, varied⟩
  · rw [same, classify_maps]
  · rw [first]
    exact compared.trans (by rw [classify_maps])
  · rw [varied]
    exact compared.trans (by rw [classify_maps])

/-- The trace of the last run is in the map. -/
def Traced (call : Call) (before : State) (loop : Loop) : Prop :=
  loop.aborted = false → 0 < loop.afl.stageCur.toNat →
    loop.afl.maps.traceBits =
      call.bucket before.maps.mapSize (loop.afl.stageCur.toNat - 1)

theorem Traced.round {rounds : Nat} {loop : Loop}
    (running : Running settings call q before rounds loop)
    (traced : Traced call before loop) :
    Traced call before (calibrationRound settings call q loop) := by
  rcases calibrationRound_cases settings call q loop with
    ⟨_, idle⟩ | ⟨_, _, _, fault, aborts⟩ | ⟨_, left, _, goesOn⟩
  · rwa [idle]
  · rw [aborts]
    intro goes
    cases goes
  · rw [goesOn]
    intro _ _
    let ran := { loop with
      afl := loop.afl.receive (call.run loop.afl.stageCur.toNat).trace
      fault := (call.run loop.afl.stageCur.toNat).fault }
    have ranFrame : Frame q before ran.afl := running.frame.same_queue rfl rfl rfl
    have ranMarks : Marked before ran.afl :=
      running.marked.keep rfl fun _ blind => blind
    obtain ⟨_, _, _, stageCur, _⟩ :=
      compareRun_running settings ranFrame ranMarks running.stageMax
    have next : ((compareRun settings q ran).afl.stageCur + 1#32).toNat =
        loop.afl.stageCur.toNat + 1 := by
      rw [stageCur]
      exact toNat_next left
    change (compareRun settings q ran).afl.maps.traceBits = _
    rw [compareRun_traceBits, next, Nat.add_sub_cancel]
    exact congrArg (fun size => call.bucket size loop.afl.stageCur.toNat)
      running.frame.mapSize

theorem calibrationLoop_traced (settings : Settings) (call : Call) (q : Nat)
    (before : State) :
    Traced call before (calibrationLoop settings call q before) := by
  refine (forRange_invariant (fun _ => calibrationRound settings call q)
    (fun rounds loop => Running settings call q before rounds loop ∧
      Traced call before loop) _ ?_ calCyclesLong ?_).2
  · refine ⟨openCalibration_running settings call q before, ?_⟩
    intro _ positive
    have none : (openCalibration settings q before).afl.stageCur = 0#32 := rfl
    rw [none] at positive
    exact absurd positive (Nat.lt_irrefl 0)
  · intro rounds _ loop both
    exact ⟨both.1.round, both.2.round both.1⟩

/-- What a calibration leaves in the fields that it measures. -/
structure Measures (settings : Settings) (call : Call) (q : Nat)
    (before : State) (outcome : Outcome) : Prop where
  queuedPaths : outcome.afl.queue.queuedPaths = before.queue.queuedPaths
  disabled : ∀ id, (outcome.afl.queue.queueBuf id).disabled =
    (before.queue.queueBuf id).disabled
  others : ∀ other, other ≠ q →
    (outcome.afl.queue.queueBuf other).execUs = (before.queue.queueBuf other).execUs ∧
      (outcome.afl.marks other).bitmapSize = (before.marks other).bitmapSize
  aborted : outcome.aborted = true →
    (outcome.afl.queue.queueBuf q).execUs = (before.queue.queueBuf q).execUs ∧
      (outcome.afl.marks q).bitmapSize = (before.marks q).bitmapSize ∧
      outcome.afl.totalCalCycles = before.totalCalCycles ∧
      outcome.afl.totalBitmapEntries = before.totalBitmapEntries
  whole : outcome.aborted = false →
    let last := (calibrationLoop settings call q before).afl
    (outcome.afl.queue.queueBuf q).execUs =
        diffUs call last / last.stageMax.setWidth 64 ∧
      (outcome.afl.marks q).bitmapSize =
        countBytes before.maps.mapSize last.maps.traceBits ∧
      outcome.afl.totalCalCycles = before.totalCalCycles + last.stageMax.setWidth 64 ∧
      outcome.afl.totalBitmapEntries = before.totalBitmapEntries + 1

theorem markNewCov_bitmapSize (q newBits : Nat) (afl : State) (id : Nat) :
    ((markNewCov q newBits afl).marks id).bitmapSize = (afl.marks id).bitmapSize := by
  unfold markNewCov
  split
  · by_cases same : id = q
    · subst same
      simp
    · simp [same]
  · rfl

theorem markVariable_bitmapSize {varDetected : Bool} {afl marked : State}
    (result : markVariable call q varDetected afl = some marked) (id : Nat) :
    (marked.marks id).bitmapSize = (afl.marks id).bitmapSize := by
  unfold markVariable at result
  dsimp only at result
  split_ifs at result
  · cases result
    by_cases same : id = q
    · subst same
      simp
    · simp [same]
  · cases result
    rfl
  · cases result
    rfl

theorem calibrateCase_execUs (queue : QueueState) (q id : Nat)
    (calibration : Calibration) :
    ((queue.calibrateCase q calibration).queueBuf id).disabled =
        (queue.queueBuf id).disabled ∧
      ((queue.calibrateCase q calibration).queueBuf id).execUs =
        if id = q ∧ calibration.completed = true then calibration.execUs
        else (queue.queueBuf id).execUs := by
  have competes : ∀ current : QueueState,
      ((current.updateBitmapScore q).queueBuf id).disabled =
          (current.queueBuf id).disabled ∧
        ((current.updateBitmapScore q).queueBuf id).execUs =
          (current.queueBuf id).execUs := by
    intro current
    have entries := (QueueState.updateBitmapScore_sameQueue current q).entries id
    constructor <;> rw [← entries]
  unfold QueueState.calibrateCase
  by_cases same : id = q
  · subst same
    cases completed : calibration.completed with
    | true =>
        simp [(competes _).1, (competes _).2, QueueState.executeCase]
    | false => simp [QueueState.executeCase]
  · cases completed : calibration.completed with
    | true =>
        simp [(competes _).1, (competes _).2, QueueState.executeCase,
          QueueState.modify, same]
    | false => simp [QueueState.executeCase, QueueState.modify, same]

theorem calibrateCase_measures
    (result : calibrateCase settings call q before = some outcome) :
    Measures settings call q before outcome := by
  obtain ⟨aborted, completed, marked, isMarked, closes⟩ := calibrateCase_eq_some result
  have running := calibrationLoop_running settings call q before
  generalize isLoop : calibrationLoop settings call q before = loop at *
  obtain ⟨rest, _, _⟩ := markVariable_spec closes
  have coveredRest := markNewCov_rest q loop.newBits (bookLoop call q loop)
  have account := running.frame.account
  have marks : ∀ id, (outcome.afl.marks id).bitmapSize =
      ((bookLoop call q loop).marks id).bitmapSize := by
    intro id
    rw [isMarked]
    exact (markVariable_bitmapSize closes id).trans
      (markNewCov_bitmapSize _ _ _ _)
  have others : outcome.afl.queue = (bookLoop call q loop).queue ∧
      outcome.afl.totalCalCycles = (bookLoop call q loop).totalCalCycles ∧
      outcome.afl.totalBitmapEntries = (bookLoop call q loop).totalBitmapEntries := by
    rw [isMarked, restoreStage, rest, coveredRest]
    exact ⟨rfl, rfl, rfl⟩
  obtain ⟨finalQueue, cycles, entries⟩ := others
  have queue := bookLoop_queue call running.frame
  have entry := fun id =>
    calibrateCase_execUs before.queue q id (loop.calibration call q)
  have length := (queue_calibrateCase before.queue q (loop.calibration call q)).2.1
  rw [← queue, ← finalQueue] at length
  simp only [← queue, ← finalQueue] at entry
  have marksBefore : loop.afl.marks = before.marks := congrArg Account.marks account
  constructor
  · exact length
  · exact fun id => (entry id).1
  · intro other different
    refine ⟨?_, ?_⟩
    · rw [(entry other).2, if_neg fun both => different both.1]
    · rw [marks, bookLoop]
      split
      · rw [marksBefore]
      · simp [bookCalibration, different, marksBefore]
  · intro ended
    rw [aborted] at ended
    have jumps : bookLoop call q loop = loop.afl := by
      rw [bookLoop, ended, if_pos rfl]
    rw [marks, cycles, entries, (entry q).2, jumps, marksBefore]
    refine ⟨?_, rfl, congrArg Account.totalCalCycles account,
      congrArg Account.totalBitmapEntries account⟩
    rw [if_neg]
    rintro ⟨_, whole⟩
    simp [Loop.calibration, ended] at whole
  · intro ended
    rw [aborted] at ended
    have books : bookLoop call q loop = bookCalibration call q loop.afl := by
      rw [bookLoop, ended, if_neg Bool.false_ne_true]
    have whole : (loop.calibration call q).completed = true := by
      simp [Loop.calibration, ended]
    intro last
    have isLast : last = loop.afl := congrArg Loop.afl isLoop
    rw [marks, cycles, entries, (entry q).2, books, isLast, if_pos ⟨rfl, whole⟩]
    refine ⟨rfl, ?_, ?_, ?_⟩
    · simp [bookCalibration, running.frame.mapSize]
    · change loop.afl.totalCalCycles + _ = _
      rw [show loop.afl.totalCalCycles = before.totalCalCycles from
        congrArg Account.totalCalCycles account]
    · change loop.afl.totalBitmapEntries + 1 = _
      rw [show loop.afl.totalBitmapEntries = before.totalBitmapEntries from
        congrArg Account.totalBitmapEntries account]

theorem markVariable_returns (linkMade : call.linkMade = true)
    (varDetected : Bool) (afl : State) :
    ∃ marked, markVariable call q varDetected afl = some marked := by
  simp only [markVariable, linkMade, if_true]
  split_ifs
  · exact ⟨_, rfl⟩
  · exact ⟨_, rfl⟩
  · exact ⟨_, rfl⟩

theorem calibrateCase_returns (settings : Settings) (q : Nat) (before : State)
    (forkServer : call.forkServer = true) (linkMade : call.linkMade = true) :
    ∃ outcome, calibrateCase settings call q before = some outcome := by
  have running := calibrationLoop_running settings call q before
  have stageMax : (calibrationLoop settings call q before).afl.stageMax ≠ 0#32 := by
    intro zero
    have length := congrArg BitVec.toNat (running.stageMax.symm.trans zero)
    rw [toNat_cycles] at length
    exact Nat.ne_of_gt (cycles_pos _ _) length
  obtain ⟨marked, isMarked⟩ := markVariable_returns (q := q) linkMade
    (calibrationLoop settings call q before).varDetected
    (markNewCov q (calibrationLoop settings call q before).newBits
      (bookLoop call q (calibrationLoop settings call q before)))
  simp only [calibrateCase, forkServer, stageMax, isMarked, Bool.true_eq_false,
    false_and, and_false, if_false, Option.map_some]
  exact ⟨_, rfl⟩

theorem whole_of_completes (completes : ∀ number, call.Completes settings
      before.queue.nonInstrumentedMode before.maps.mapSize number)
    (result : calibrateCase settings call q before = some outcome) :
    outcome.aborted = false := by
  have running := calibrationLoop_running settings call q before
  obtain ⟨same, _⟩ := calibrateCase_eq_some result
  rw [same]
  by_contra aborted
  exact running.cut (by simpa using aborted) (completes _)

theorem aborted_of_first (cut : ¬call.Completes settings before.queue.nonInstrumentedMode
      before.maps.mapSize 0)
    (result : calibrateCase settings call q before = some outcome) :
    outcome.aborted = true := by
  have running := calibrationLoop_running settings call q before
  have finished := calibrationLoop_finished settings call q before
  obtain ⟨same, _⟩ := calibrateCase_eq_some result
  rw [same]
  by_contra whole
  refine cut (running.completes 0 ?_)
  rw [finished (by simpa using whole)]
  exact cycles_pos _ _

end CalibrateCase

end AFLPlusPlus
