import AFLPlusPlus.Config
import AFLPlusPlus.Queue.Cull

/-!
# The dry run

`perform_dry_run` calibrates the initial corpus, rejects the cases that crash or
time out, and removes all but one of the entries with one checksum.  Which
entries it may disable is told from the queue before it.
-/

namespace AFLPlusPlus

/-- The outcome of a calibration: the last trace, the checksum and, unless it
was aborted, the execution time. -/
structure Calibration where
  trace : Buffer
  execCksum : BitVec 64
  execUs : BitVec 64
  completed : Bool

/-- `fsrv_run_result_t` -/
inductive RunResult where
  | ok
  | tmout
  | crash
  | error
  | noinst
  | nobits
  deriving DecidableEq, Repr

/-- What the dry run meets at one entry. -/
structure DryRunCase where
  calibration : Calibration
  res : RunResult
  stopSoon : Bool

/-- A dry run: the settings it looks at and the outcomes of its cases. -/
structure DryRun where
  crashMode : Bool
  timeoutGiven : Bool
  exitOnSeedIssues : Bool
  cases : Nat → DryRunCase

namespace QueueState

/-- The executions of `calibrate_case`. -/
def executeCase (afl : QueueState) (q : Nat) (calibration : Calibration) :
    QueueState :=
  { afl.modify q fun entry =>
      { entry with
        calFailed := entry.calFailed + 1#8
        execCksum := calibration.execCksum } with
    traceBits := calibration.trace }

/-- `calibrate_case`: only a completed calibration competes for the map. -/
def calibrateCase (afl : QueueState) (q : Nat) (calibration : Calibration) :
    QueueState :=
  let executed := afl.executeCase q calibration
  if calibration.completed then
    (executed.modify q fun entry =>
      { entry with
        execUs := calibration.execUs
        calFailed := 0#8 }).updateBitmapScore q
  else executed

/-- Remove an entry from fuzzing: as in `perform_dry_run`, the counters change
only for an entry that counts as unfuzzed. -/
def disableEntry (afl : QueueState) (q : Nat) : QueueState :=
  { afl.modify q fun entry =>
      { entry with wasFuzzed := true, disabled := true } with
    pendingNotFuzzed :=
      if (afl.queueBuf q).wasFuzzed = false then afl.pendingNotFuzzed - 1
      else afl.pendingNotFuzzed
    activePaths :=
      if (afl.queueBuf q).wasFuzzed = false then afl.activePaths - 1
      else afl.activePaths }

/-- The switch over the result of one case. -/
def dryRunSwitch (run : DryRun) (q : Nat) (res : RunResult)
    (calFailures : Nat) (afl : QueueState) :
    Except QueueFailure (QueueState × Nat) :=
  match res with
  | .ok => if run.crashMode then .error .fatal else .ok (afl, calFailures)
  | .tmout =>
      if run.timeoutGiven && !run.exitOnSeedIssues then
        .ok ((afl.modify q fun entry =>
          { entry with calFailed := calChances }).disableEntry q,
          calFailures + 1)
      else .error .fatal
  | .crash =>
      if run.crashMode then .ok (afl, calFailures)
      else if run.exitOnSeedIssues then .error .fatal
      else .ok (afl.disableEntry q, calFailures)
  | .error => .error .fatal
  | .noinst => .error .fatal
  | .nobits => .ok (afl, calFailures)

/-- The loop of the dry run, with the count of failed calibrations and whether
it was told to stop. -/
structure DryRunState where
  afl : QueueState
  calFailures : Nat
  stopped : Bool

def dryRunRound (run : DryRun) (idx : Nat) (state : DryRunState) :
    Except QueueFailure DryRunState :=
  if state.stopped then .ok state
  else if (state.afl.queueBuf idx).disabled then .ok state
  else if (state.afl.queueBuf idx).len = 0#32 then .ok state
  else
    let calibrated := state.afl.calibrateCase idx (run.cases idx).calibration
    if (run.cases idx).stopSoon then
      .ok { state with afl := calibrated, stopped := true }
    else do
      let result ← dryRunSwitch run idx (run.cases idx).res
        state.calFailures calibrated
      .ok { afl := result.1, calFailures := result.2, stopped := false }

/-- Entries that take part in the removal of duplicates. -/
def comparable (entry : QueueEntry) : Bool :=
  !entry.disabled && decide (entry.calFailed = 0#8) &&
    decide (entry.execCksum ≠ 0#64)

/-- An entry against a later one, with the flag `done`: the shorter file of two
with one checksum is kept. -/
def duplicateRound (idx : Nat) (round : Nat) (state : QueueState × Bool) :
    QueueState × Bool :=
  let i := idx + 1 + round
  let q := state.1.queueBuf idx
  let p := state.1.queueBuf i
  if state.2 || !comparable p then state
  else if p.execCksum = q.execCksum then
    if q.len ≤ p.len then (state.1.disableEntry i, false)
    else (state.1.disableEntry idx, true)
  else state

/-- All later entries against one. -/
def duplicatesOf (idx : Nat) (afl : QueueState) : QueueState :=
  if comparable (afl.queueBuf idx) then
    (forRange (duplicateRound idx) (afl.queuedPaths - (idx + 1)) (afl, false)).1
  else afl

def performDryRun (afl : QueueState) (run : DryRun) :
    Except QueueFailure QueueState := do
  let state ← forRangeM (dryRunRound run) afl.queuedPaths
    { afl, calFailures := 0, stopped := false }
  if state.stopped then .ok state.afl
  else if state.calFailures ≠ 0 ∧ state.calFailures = state.afl.queuedPaths then
    .error .fatal
  else .ok (forRange duplicatesOf state.afl.queuedPaths state.afl)

/-- The fields which the counters of the queue depend on, and the counters. -/
structure SameProgress (before after : QueueState) : Prop where
  queuedPaths : after.queuedPaths = before.queuedPaths
  activePaths : after.activePaths = before.activePaths
  pendingNotFuzzed : after.pendingNotFuzzed = before.pendingNotFuzzed
  pendingFavored : after.pendingFavored = before.pendingFavored
  wasFuzzed : ∀ id, (after.queueBuf id).wasFuzzed = (before.queueBuf id).wasFuzzed
  favored : ∀ id, (after.queueBuf id).favored = (before.queueBuf id).favored
  disabled : ∀ id, (after.queueBuf id).disabled = (before.queueBuf id).disabled

theorem SameProgress.trans {first second third : QueueState}
    (step : SameProgress first second) (rest : SameProgress second third) :
    SameProgress first third := by
  constructor
  · rw [rest.queuedPaths, step.queuedPaths]
  · rw [rest.activePaths, step.activePaths]
  · rw [rest.pendingNotFuzzed, step.pendingNotFuzzed]
  · rw [rest.pendingFavored, step.pendingFavored]
  · intro id
    rw [rest.wasFuzzed, step.wasFuzzed]
  · intro id
    rw [rest.favored, step.favored]
  · intro id
    rw [rest.disabled, step.disabled]

/-- Assignments to one entry that leave its progress alone. -/
theorem sameProgress_modify {before after : QueueState} (q : Nat)
    (change : QueueEntry → QueueEntry)
    (keeps : ∀ entry, (change entry).wasFuzzed = entry.wasFuzzed ∧
      (change entry).favored = entry.favored ∧
      (change entry).disabled = entry.disabled)
    (queuedPaths : after.queuedPaths = before.queuedPaths)
    (activePaths : after.activePaths = before.activePaths)
    (pendingNotFuzzed : after.pendingNotFuzzed = before.pendingNotFuzzed)
    (pendingFavored : after.pendingFavored = before.pendingFavored)
    (queueBuf : after.queueBuf = (before.modify q change).queueBuf) :
    SameProgress before after := by
  have entries : ∀ id,
      (after.queueBuf id).wasFuzzed = (before.queueBuf id).wasFuzzed ∧
        (after.queueBuf id).favored = (before.queueBuf id).favored ∧
        (after.queueBuf id).disabled = (before.queueBuf id).disabled := by
    intro id
    rw [queueBuf, modify_queueBuf]
    split
    · rename_i same
      rw [same]
      exact keeps _
    · exact ⟨rfl, rfl, rfl⟩
  exact ⟨queuedPaths, activePaths, pendingNotFuzzed, pendingFavored,
    fun id => (entries id).1, fun id => (entries id).2.1,
    fun id => (entries id).2.2⟩

theorem SameQueue.sameProgress {before after : QueueState}
    (same : SameQueue before after) : SameProgress before after := by
  have entries := same.entries
  refine ⟨same.queuedPaths, same.activePaths, same.pendingNotFuzzed,
    same.pendingFavored, ?_, ?_, ?_⟩
  all_goals
    intro id
    rw [← entries id]

theorem calibrateCase_sameProgress (afl : QueueState) (q : Nat)
    (calibration : Calibration) :
    SameProgress afl (afl.calibrateCase q calibration) := by
  have executed : SameProgress afl (afl.executeCase q calibration) :=
    sameProgress_modify q (fun entry =>
      { entry with
        calFailed := entry.calFailed + 1#8
        execCksum := calibration.execCksum })
      (fun _ => ⟨rfl, rfl, rfl⟩) rfl rfl rfl rfl rfl
  unfold calibrateCase
  dsimp only
  split
  · have timed : SameProgress (afl.executeCase q calibration)
        ((afl.executeCase q calibration).modify q fun entry =>
          { entry with execUs := calibration.execUs, calFailed := 0#8 }) :=
      sameProgress_modify q (fun entry =>
        { entry with execUs := calibration.execUs, calFailed := 0#8 })
        (fun _ => ⟨rfl, rfl, rfl⟩) rfl rfl rfl rfl rfl
    exact executed.trans
      (timed.trans (updateBitmapScore_sameQueue _ q).sameProgress)
  · exact executed

def executes (entry : QueueEntry) : Bool :=
  !entry.disabled && decide (entry.len ≠ 0#32)

end QueueState

/-- No case before `count` makes the dry run stop. -/
def DryRun.Reaches (run : DryRun) (afl : QueueState) (count : Nat) : Prop :=
  ∀ idx < count, QueueState.executes (afl.queueBuf idx) = true →
    (run.cases idx).stopSoon = false

/-- A case that is disabled for its result. -/
def DryRun.rejects (run : DryRun) (id : Nat) : Bool :=
  match (run.cases id).res with
  | .tmout => true
  | .crash => !run.crashMode
  | _ => false

/-- An entry as the removal of duplicates compares it. -/
def DryRun.caseEntry (run : DryRun) (afl : QueueState) (id : Nat) :
    QueueEntry :=
  let entry := afl.queueBuf id
  let calibration := (run.cases id).calibration
  if QueueState.executes entry then
    { entry with
      execCksum := calibration.execCksum
      calFailed :=
        if calibration.completed then 0#8 else entry.calFailed + 1#8
      disabled := run.rejects id }
  else entry

/-- Another entry with the checksum of this one is shorter, or comes first
among entries of one length. -/
def DryRun.Duplicate (run : DryRun) (afl : QueueState) (id : Nat) : Prop :=
  ∃ other < afl.queuedPaths,
    QueueState.comparable (run.caseEntry afl other) = true ∧
      QueueState.comparable (run.caseEntry afl id) = true ∧
      (run.caseEntry afl other).execCksum = (run.caseEntry afl id).execCksum ∧
      ((afl.queueBuf other).len < (afl.queueBuf id).len ∨
        (afl.queueBuf other).len = (afl.queueBuf id).len ∧ other < id)

/-- The entries that a dry run disables, told from the state before it. -/
def DryRun.Disables (run : DryRun) (afl : QueueState) (id : Nat) : Prop :=
  (run.Reaches afl (id + 1) ∧ QueueState.executes (afl.queueBuf id) = true ∧
      run.rejects id = true) ∨
    (run.Reaches afl afl.queuedPaths ∧ run.Duplicate afl id)

variable {id idx : Nat}

namespace QueueState

/-- Two entries that the dry run treats alike. -/
structure SameCase (before after : QueueEntry) : Prop where
  len : after.len = before.len
  calFailed : after.calFailed = before.calFailed
  execCksum : after.execCksum = before.execCksum
  disabled : after.disabled = before.disabled

theorem SameCase.refl (entry : QueueEntry) : SameCase entry entry :=
  ⟨rfl, rfl, rfl, rfl⟩

theorem SameCase.trans {first second third : QueueEntry}
    (step : SameCase first second) (rest : SameCase second third) :
    SameCase first third :=
  ⟨rest.len.trans step.len, rest.calFailed.trans step.calFailed,
    rest.execCksum.trans step.execCksum, rest.disabled.trans step.disabled⟩

theorem SameCase.comparable {before after : QueueEntry}
    (same : SameCase before after) :
    QueueState.comparable after = QueueState.comparable before := by
  simp only [QueueState.comparable, same.calFailed, same.execCksum, same.disabled]

theorem updateBitmapScore_sameCase (afl : QueueState) (q id : Nat) :
    SameCase (afl.queueBuf id) ((afl.updateBitmapScore q).queueBuf id) := by
  have entries := (updateBitmapScore_sameQueue afl q).entries id
  constructor
  all_goals rw [← entries]

section

variable {q : Nat} (afl : QueueState) (different : id ≠ q)
include afl different

theorem executeCase_queueBuf_of_ne (calibration : Calibration) :
    (afl.executeCase q calibration).queueBuf id = afl.queueBuf id := by
  simp [executeCase, modify, different]

theorem disableEntry_queueBuf_of_ne :
    (afl.disableEntry q).queueBuf id = afl.queueBuf id := by
  simp [disableEntry, modify, different]

theorem calibrateCase_sameCase (calibration : Calibration) :
    SameCase (afl.queueBuf id)
      ((afl.calibrateCase q calibration).queueBuf id) := by
  have executed : (afl.executeCase q calibration).queueBuf id =
      afl.queueBuf id := executeCase_queueBuf_of_ne afl different calibration
  unfold calibrateCase
  dsimp only
  split
  · rw [← executed, ← modify_queueBuf_of_ne (afl.executeCase q calibration) q
      (fun entry =>
        { entry with execUs := calibration.execUs, calFailed := 0#8 })
      different]
    exact updateBitmapScore_sameCase _ q id
  · rw [executed]
    exact SameCase.refl _

end

theorem calibrateCase_self (afl : QueueState) (q : Nat)
    (calibration : Calibration) :
    SameCase
      { afl.queueBuf q with
        execCksum := calibration.execCksum
        calFailed :=
          if calibration.completed then 0#8
          else (afl.queueBuf q).calFailed + 1#8 }
      ((afl.calibrateCase q calibration).queueBuf q) := by
  unfold calibrateCase
  dsimp only
  split
  · refine SameCase.trans ?_ (updateBitmapScore_sameCase _ q q)
    rw [modify_queueBuf_self]
    constructor <;> simp [executeCase]
  · constructor <;> simp [executeCase]

/-- What an entry that still takes part in comparisons has in common with
the case it comes from. -/
def Tracked (run : DryRun) (before : QueueState) (id : Nat)
    (entry : QueueEntry) : Prop :=
  comparable entry = true →
    comparable (run.caseEntry before id) = true ∧
      entry.execCksum = (run.caseEntry before id).execCksum ∧
      entry.len = (before.queueBuf id).len

theorem Tracked.of_sameCase {run : DryRun} {before : QueueState}
    {entry after : QueueEntry} (tracked : Tracked run before id entry)
    (same : SameCase entry after) : Tracked run before id after := by
  intro candidate
  rw [same.comparable] at candidate
  obtain ⟨compared, execCksum, len⟩ := tracked candidate
  exact ⟨compared, same.execCksum.trans execCksum, same.len.trans len⟩

theorem comparable_enabled {entry : QueueEntry}
    (candidate : comparable entry = true) : entry.disabled = false := by
  simp [comparable] at candidate
  exact candidate.1.1

theorem tracked_of_disabled {run : DryRun} {before : QueueState} {entry : QueueEntry}
    (disabled : entry.disabled = true) :
    Tracked run before id entry := by
  intro candidate
  rw [comparable_enabled candidate] at disabled
  cases disabled

theorem Tracked.disableEntry {run : DryRun} {before afl : QueueState}
    (tracked : Tracked run before id (afl.queueBuf id)) (q : Nat) :
    Tracked run before id ((afl.disableEntry q).queueBuf id) := by
  by_cases same : id = q
  · subst id
    exact tracked_of_disabled (by simp [QueueState.disableEntry])
  · rw [disableEntry_queueBuf_of_ne afl same]
    exact tracked

/-- The state of the dry run before a case, against the queue before it. -/
structure CasesDone (run : DryRun) (before : QueueState) (idx : Nat)
    (state : DryRunState) : Prop where
  queuedPaths : state.afl.queuedPaths = before.queuedPaths
  reaches : state.stopped = false → run.Reaches before idx
  later : ∀ id, idx ≤ id → SameCase (before.queueBuf id) (state.afl.queueBuf id)
  earlier : state.stopped = false → ∀ id < idx,
    Tracked run before id (state.afl.queueBuf id)

section DryRunRule

variable {property : QueueState → Prop} {run : DryRun} {before : QueueState}
  (calibrate : ∀ afl q, property afl → q < afl.queuedPaths →
    property (afl.calibrateCase q (run.cases q).calibration))
  (giveUp : ∀ afl q, property afl → property (afl.modify q fun entry =>
    { entry with calFailed := calChances }))
  (disable : ∀ afl q, property afl → q < afl.queuedPaths →
    (afl.queueBuf q).disabled = false → run.Disables before q →
    property (afl.disableEntry q))

include giveUp disable in
/-- A case is disabled only for its result. -/
theorem dryRunSwitch_rule {afl : QueueState} (calFailures : Nat) (holds : property afl)
    (inside : idx < afl.queuedPaths) (enabled : (afl.queueBuf idx).disabled = false)
    (reached : run.Reaches before (idx + 1))
    (executed : executes (before.queueBuf idx) = true) :
    Yields (fun failure => failure = .fatal)
      (fun result => property result.1 ∧ result.1.queuedPaths = afl.queuedPaths ∧
        (∀ id ≠ idx, result.1.queueBuf id = afl.queueBuf id) ∧
        ((result.1.queueBuf idx).disabled = true ∨
          result.1.queueBuf idx = afl.queueBuf idx ∧ run.rejects idx = false))
      (dryRunSwitch run idx (run.cases idx).res calFailures afl) := by
  have disables : run.rejects idx = true → run.Disables before idx :=
    fun rejected => .inl ⟨reached, executed, rejected⟩
  have unchanged : run.rejects idx = false →
      property afl ∧ afl.queuedPaths = afl.queuedPaths ∧
        (∀ id ≠ idx, afl.queueBuf id = afl.queueBuf id) ∧
        ((afl.queueBuf idx).disabled = true ∨
          afl.queueBuf idx = afl.queueBuf idx ∧ run.rejects idx = false) :=
    fun accepted => ⟨holds, rfl, fun _ _ => rfl, .inr ⟨rfl, accepted⟩⟩
  unfold dryRunSwitch
  split
  · rename_i res
    split
    · exact rfl
    · exact unchanged (by simp [DryRun.rejects, res])
  · rename_i res
    split
    · refine ⟨disable _ _ (giveUp _ idx holds) inside ?_
        (disables (by simp [DryRun.rejects, res])), rfl, ?_, ?_⟩
      · rw [modify_queueBuf_self]
        exact enabled
      · intro id different
        simp [disableEntry, modify, different]
      · exact .inl (by simp [disableEntry])
    · exact rfl
  · rename_i res
    split
    · rename_i crashMode
      exact unchanged (by simp [DryRun.rejects, res, crashMode])
    split
    · exact rfl
    · rename_i crashMode _
      refine ⟨disable _ _ holds inside enabled
        (disables (by simp [DryRun.rejects, res, crashMode])), rfl, ?_, ?_⟩
      · intro id different
        exact disableEntry_queueBuf_of_ne afl different
      · exact .inl (by simp [disableEntry])
  · exact rfl
  · exact rfl
  · rename_i res
    exact unchanged (by simp [DryRun.rejects, res])

include calibrate giveUp disable in
theorem dryRunRound_rule {state : DryRunState} (holds : property state.afl)
    (inside : idx < state.afl.queuedPaths) (done : CasesDone run before idx state) :
    Yields (fun failure => failure = .fatal)
      (fun next => property next.afl ∧ CasesDone run before (idx + 1) next)
      (dryRunRound run idx state) := by
  obtain ⟨queuedPaths, reaches, later, earlier⟩ := done
  have current := later idx (Nat.le_refl idx)
  have skipped : executes (before.queueBuf idx) = false →
      CasesDone run before (idx + 1) state := by
    intro notExecuted
    refine ⟨queuedPaths, ?_, fun id above => later id (by omega), ?_⟩
    · intro running id below executed
      by_cases last : id = idx
      · subst id
        rw [notExecuted] at executed
        cases executed
      · exact reaches running id (by omega) executed
    · intro running id below
      by_cases last : id = idx
      · subst id
        have same : run.caseEntry before idx = before.queueBuf idx := by
          simp [DryRun.caseEntry, notExecuted]
        have tracked : Tracked run before idx (before.queueBuf idx) := by
          intro candidate
          rw [same]
          exact ⟨candidate, rfl, rfl⟩
        exact tracked.of_sameCase current
      · exact earlier running id (by omega)
  unfold dryRunRound
  split
  · rename_i stopped
    refine ⟨holds, queuedPaths, ?_, fun id above => later id (by omega), ?_⟩
    all_goals
      intro running
      rw [stopped] at running
      cases running
  rename_i running
  rw [Bool.not_eq_true] at running
  split
  · rename_i disabled
    rw [current.disabled] at disabled
    exact ⟨holds, skipped (by simp [executes, disabled])⟩
  split
  · rename_i empty
    rw [current.len] at empty
    exact ⟨holds, skipped (by simp [executes, empty])⟩
  rename_i enabled nonempty
  rw [current.disabled, Bool.not_eq_true] at enabled
  rw [current.len] at nonempty
  have executed : executes (before.queueBuf idx) = true := by
    simp [executes, enabled, nonempty]
  have progress := calibrateCase_sameProgress state.afl idx
    (run.cases idx).calibration
  have calibrated := calibrate state.afl idx holds inside
  have others : ∀ id ≠ idx, SameCase (state.afl.queueBuf id)
      ((state.afl.calibrateCase idx (run.cases idx).calibration).queueBuf
        id) := fun id different =>
    calibrateCase_sameCase state.afl different (run.cases idx).calibration
  dsimp only
  split
  · refine ⟨calibrated, progress.queuedPaths.trans queuedPaths, ?_, ?_, ?_⟩
    · intro none
      cases none
    · intro id above
      exact (later id (by omega)).trans (others id (by omega))
    · intro none
      cases none
  · rename_i continues
    rw [Bool.not_eq_true] at continues
    have reached : run.Reaches before (idx + 1) := by
      intro id below wasExecuted
      by_cases last : id = idx
      · subst id
        exact continues
      · exact reaches running id (by omega) wasExecuted
    have stillEnabled := progress.disabled idx
    rw [current.disabled, enabled] at stillEnabled
    refine (dryRunSwitch_rule giveUp disable state.calFailures calibrated
      (by rw [progress.queuedPaths]; exact inside) stillEnabled reached
      executed).bind ?_
    rintro ⟨result, failures⟩ ⟨resultHolds, length, kept, outcome⟩
    dsimp only at resultHolds length kept outcome
    refine ⟨resultHolds, (length.trans progress.queuedPaths).trans queuedPaths,
      fun _ => reached, ?_, ?_⟩
    · intro id above
      have different : id ≠ idx := by omega
      rw [kept id different]
      exact (later id (by omega)).trans (others id different)
    · intro _ id below
      by_cases last : id = idx
      · subst id
        rcases outcome with disabled | ⟨same, accepted⟩
        · exact tracked_of_disabled disabled
        · have own := calibrateCase_self state.afl idx
            (run.cases idx).calibration
          have case : SameCase (run.caseEntry before idx)
              ((state.afl.calibrateCase idx
                (run.cases idx).calibration).queueBuf idx) := by
            simp only [DryRun.caseEntry, executed, if_true, accepted]
            refine ⟨own.len.trans current.len, ?_, own.execCksum, stillEnabled⟩
            rw [own.calFailed, current.calFailed]
          have len : (run.caseEntry before idx).len = (before.queueBuf idx).len := by
            simp [DryRun.caseEntry, executed]
          have tracked : Tracked run before idx (run.caseEntry before idx) :=
            fun candidate => ⟨candidate, rfl, len⟩
          rw [same]
          exact tracked.of_sameCase case
      · rw [kept id last]
        exact (earlier running id (by omega)).of_sameCase (others id last)

include disable in
/-- One entry against the later ones.  Until the loop is done, the entry itself
takes part in comparisons. -/
theorem duplicatesOf_rule {afl : QueueState} (holds : property afl)
    (length : afl.queuedPaths = before.queuedPaths) (inside : idx < afl.queuedPaths)
    (reached : run.Reaches before before.queuedPaths)
    (tracked : ∀ id < before.queuedPaths, Tracked run before id (afl.queueBuf id)) :
    property (duplicatesOf idx afl) ∧
      (duplicatesOf idx afl).queuedPaths = before.queuedPaths ∧
      ∀ id < before.queuedPaths,
        Tracked run before id ((duplicatesOf idx afl).queueBuf id) := by
  unfold duplicatesOf
  split
  · rename_i candidate
    have loop := forRange_invariant (duplicateRound idx)
      (fun _ state => (property state.1 ∧ state.1.queuedPaths = before.queuedPaths ∧
        ∀ id < before.queuedPaths, Tracked run before id (state.1.queueBuf id)) ∧
        (state.2 = false → comparable (state.1.queueBuf idx) = true))
      (afl, false)
      ⟨⟨holds, length, tracked⟩, fun _ => candidate⟩
      (afl.queuedPaths - (idx + 1))
      (by
        rintro round roundInside state ⟨⟨current, sameLength, entries⟩, takes⟩
        unfold duplicateRound
        dsimp only
        split
        · exact ⟨⟨current, sameLength, entries⟩, takes⟩
        rename_i active
        rw [Bool.or_eq_true, not_or, Bool.not_eq_true, Bool.not_eq_true,
          Bool.not_eq_false'] at active
        obtain ⟨running, other⟩ := active
        have own := takes running
        split
        · rename_i sameCksum
          obtain ⟨ownCase, ownCksum, ownLen⟩ := entries idx (by omega) own
          obtain ⟨otherCase, otherCksum, otherLen⟩ :=
            entries (idx + 1 + round) (by omega) other
          rw [ownCksum, otherCksum] at sameCksum
          rw [ownLen, otherLen]
          split
          · rename_i notLonger
            have disables : run.Disables before (idx + 1 + round) := by
              refine .inr ⟨reached, idx, by omega, ownCase, otherCase,
                sameCksum.symm, ?_⟩
              by_cases equal : (before.queueBuf idx).len =
                  (before.queueBuf (idx + 1 + round)).len
              · exact .inr ⟨equal, by omega⟩
              · exact .inl (BitVec.lt_of_le_ne notLonger equal)
            refine ⟨⟨disable _ _ current (by omega)
              (comparable_enabled other) disables, sameLength,
              fun id below => (entries id below).disableEntry _⟩, fun _ => ?_⟩
            have different : idx ≠ idx + 1 + round := by omega
            rw [disableEntry_queueBuf_of_ne state.1 different]
            exact own
          · rename_i longer
            have disables : run.Disables before idx :=
              .inr ⟨reached, idx + 1 + round, by omega, otherCase, ownCase,
                sameCksum, .inl (BitVec.not_le.mp longer)⟩
            refine ⟨⟨disable _ _ current (by omega)
              (comparable_enabled own) disables, sameLength,
              fun id below => (entries id below).disableEntry _⟩, ?_⟩
            intro none
            cases none
        · exact ⟨⟨current, sameLength, entries⟩, takes⟩)
    exact loop.1
  · exact ⟨holds, length, tracked⟩

end DryRunRule

/-- What calibrating entries keeps, and disabling those that are rejected or
duplicates, the dry run keeps. -/
theorem performDryRun_rule (property : QueueState → Prop) {run : DryRun}
    {afl : QueueState}
    (calibrate : ∀ afl q, property afl → q < afl.queuedPaths →
      property (afl.calibrateCase q (run.cases q).calibration))
    (giveUp : ∀ afl q, property afl → property (afl.modify q fun entry =>
      { entry with calFailed := calChances }))
    (disable : ∀ current q, property current → q < current.queuedPaths →
      (current.queueBuf q).disabled = false → run.Disables afl q →
      property (current.disableEntry q))
    (holds : property afl) :
    Yields (fun failure => failure = .fatal) property
      (afl.performDryRun run) := by
  have cases := @forRangeM_yields _ _ (fun failure => failure = .fatal)
    (dryRunRound run)
    (fun idx state => property state.afl ∧ CasesDone run afl idx state)
    { afl, calFailures := 0, stopped := false }
    ⟨holds, rfl, fun _ _ none => by omega, fun _ _ => SameCase.refl _,
      fun _ _ none => by omega⟩
    afl.queuedPaths
    (by
      rintro idx inside state ⟨current, done⟩
      exact dryRunRound_rule calibrate giveUp disable current
        (by rw [done.queuedPaths]; exact inside) done)
  refine cases.bind ?_
  rintro state ⟨current, done⟩
  split
  · exact current
  rename_i running
  rw [Bool.not_eq_true] at running
  split
  · exact rfl
  · have loop := forRange_invariant duplicatesOf
      (fun _ next => property next ∧ next.queuedPaths = afl.queuedPaths ∧
        ∀ id < afl.queuedPaths, Tracked run afl id (next.queueBuf id))
      state.afl
      ⟨current, done.queuedPaths, done.earlier running⟩
      state.afl.queuedPaths
      (by
        rintro idx inside next ⟨nextHolds, nextLength, tracked⟩
        rw [done.queuedPaths, ← nextLength] at inside
        exact duplicatesOf_rule disable nextHolds nextLength inside
          (done.reaches running) tracked)
    exact loop.1

end QueueState

end AFLPlusPlus
