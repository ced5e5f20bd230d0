import AFLPlusPlus.Findings.Calibration
import AFLPlusPlus.Queue.Winners
import AFLPlusPlus.Support.Transitions
import Mathlib.Algebra.Order.Ring.Nat

/-!
# Whose trace the winners are chosen by

`update_bitmap_score` takes what `trace_bits` holds for the trace of the entry
it is given.  Here the queue is run together with the inputs of its entries and
a deterministic target, so that the trace at each call is known.
-/

namespace AFLPlusPlus

/-- The content of a test case.  Its length and the offsets of the trimmer are
of the type `u32`; at this size they do not wrap. -/
structure CaseInput where
  bytes : List (BitVec 8)
  bounded : bytes.length < 2 ^ 31

namespace CaseInput

def len (input : CaseInput) : BitVec 32 := BitVec.ofNat 32 input.bytes.length

/-- The case that `write_with_gap` writes. -/
def withGap (input : CaseInput) (skipAt skipLen : Nat) : CaseInput where
  bytes := input.bytes.take skipAt ++ input.bytes.drop (skipAt + skipLen)
  bounded := by
    have bounded := input.bounded
    rw [List.length_append, List.length_take, List.length_drop]
    omega

/-- `next_pow2` of the length. -/
def lenP2 (input : CaseInput) : Nat :=
  (nextPow2 (BitVec.ofNat 64 input.bytes.length)).toNat

end CaseInput

/-- A target whose trace depends on the case only, and `hash64` of a trace with
`HASH_CONST` as its seed. -/
structure DeterministicTarget where
  trace : CaseInput → Buffer
  hash64 : Buffer → Nat → BitVec 64

namespace DeterministicTarget

variable (target : DeterministicTarget)

/-- The trace of a case after `classify_counts`. -/
def classified (mapSize : Nat) (input : CaseInput) : Buffer :=
  bucketed mapSize (target.trace input)

/-! ## Calibration -/

/-- What calibrating depends on besides the entry and its input. -/
structure CalibrationSetting where
  cmplogMode : Bool
  nonInstrumentedMode : Bool
  aflCalFast : Bool
  /-- `stop_soon`, or a fault other than `crash_mode`, after execution number
  `stage_cur` -/
  stops : Nat → Bool
  execUs : BitVec 64

/-- The variables of the calibration loop. -/
structure CalibrationLoop where
  execCksum : BitVec 64
  trace : Buffer
  stageMax : Nat
  aborted : Bool

/-- One execution of the calibration loop, if `stage_cur` is still below
`stage_max`. -/
def calibrationRound (mapSize : Nat) (setting : CalibrationSetting)
    (input : CaseInput) (stageCur : Nat) (loop : CalibrationLoop) :
    CalibrationLoop :=
  if loop.aborted ∨ ¬stageCur < loop.stageMax then loop
  else if setting.stops stageCur then
    { loop with trace := target.trace input, aborted := true }
  else if setting.nonInstrumentedMode = false ∧ stageCur = 0 ∧
      (List.range mapSize).all fun i => target.trace input i = 0#8 then
    { loop with trace := target.trace input, aborted := true }
  else
    let trace := target.classified mapSize input
    let cksum := target.hash64 trace mapSize
    if loop.execCksum = cksum then { loop with trace }
    else if loop.execCksum = 0#64 then { loop with trace, execCksum := cksum }
    else
      { loop with
        trace
        stageMax :=
          if setting.aflCalFast then calCycles else calCyclesLong }

/-- What `calibrate_case` leaves in the entry and in `trace_bits`. -/
def calibration (mapSize : Nat) (setting : CalibrationSetting)
    (execCksum : BitVec 64) (traceBits : Buffer) (input : CaseInput) :
    Calibration :=
  let loop := forRange (target.calibrationRound mapSize setting input)
    calCyclesLong
    { execCksum := if setting.cmplogMode then 0#64 else execCksum
      trace := traceBits
      stageMax := if setting.aflCalFast then 3 else calCycles
      aborted := false }
  { trace := loop.trace
    execCksum := loop.execCksum
    execUs := setting.execUs
    completed := !loop.aborted }

/-! ## Trimming -/

/-- The variables of `trim_case`; `needs_write` is set together with
`clean_trace`. -/
structure Trimming where
  inBuf : CaseInput
  cleanTrace : Option Buffer
  traceBits : Buffer
  trimExec : Nat
  aborted : Bool

variable (mapSize : Nat) (execCksum : BitVec 64) (stops : Nat → Bool)

/-- A candidate with the checksum of the entry becomes its content. -/
def trimAccept (trimming : Trimming) (candidate : CaseInput) : Trimming :=
  { trimming with
    inBuf := candidate
    cleanTrace :=
      match trimming.cleanTrace with
      | some cleanTrace => some cleanTrace
      | none => some (target.classified mapSize candidate)
    traceBits := target.classified mapSize candidate
    trimExec := trimming.trimExec + 1 }

/-- The inner loop of `trim_case`. -/
def trimPass {removeLen : Nat} (positive : 0 < removeLen) (removePos : Nat)
    (trimming : Trimming) : Trimming :=
  if _inside : removePos < trimming.inBuf.bytes.length then
    let trimAvail := min removeLen (trimming.inBuf.bytes.length - removePos)
    let candidate := trimming.inBuf.withGap removePos trimAvail
    if stops trimming.trimExec then
      { trimming with traceBits := target.trace candidate, aborted := true }
    else if target.hash64 (target.classified mapSize candidate) mapSize =
        execCksum then
      trimPass positive removePos
        (target.trimAccept mapSize trimming candidate)
    else
      trimPass positive (removePos + removeLen)
        { trimming with
          traceBits := target.classified mapSize candidate
          trimExec := trimming.trimExec + 1 }
  else trimming
termination_by trimming.inBuf.bytes.length - removePos
decreasing_by
  · simp only [trimAccept, CaseInput.withGap, List.length_append,
      List.length_take, List.length_drop]
    omega
  · omega

/-- The outer loop of `trim_case`. -/
def trimLoop (removeLen : Nat) (trimming : Trimming) : Trimming :=
  if continues : max (trimming.inBuf.lenP2 / trimEndSteps) trimMinBytes ≤
      removeLen then
    have positive : 0 < removeLen :=
      Nat.lt_of_lt_of_le (by decide : 0 < trimMinBytes)
        (Nat.le_trans (Nat.le_max_right _ _) continues)
    let passed := target.trimPass mapSize execCksum stops positive removeLen
      trimming
    if passed.aborted then passed else trimLoop (removeLen >>> 1) passed
  else trimming
termination_by removeLen
decreasing_by
  rw [Nat.shiftRight_eq_div_pow]
  omega

/-- One case that a custom trimmer returns, and whether its execution ends the
trimming. -/
structure TrimProposal where
  retbuf : CaseInput
  stops : Bool

/-- The variables of `trim_case_custom`. -/
structure CustomTrimming where
  outBuf : Option CaseInput
  cleanTraceCustom : Buffer
  traceBits : Buffer
  aborted : Bool

/-- One round of `trim_case_custom`.  An empty case is not executed. -/
def trimCustomRound (trimming : CustomTrimming) (proposal : TrimProposal) :
    CustomTrimming :=
  if trimming.aborted ∨ proposal.retbuf.bytes = [] then trimming
  else if proposal.stops then
    { trimming with
      traceBits := target.trace proposal.retbuf
      aborted := true }
  else
    let trace := target.classified mapSize proposal.retbuf
    if target.hash64 trace mapSize = execCksum then
      { trimming with
        outBuf := some proposal.retbuf
        cleanTraceCustom :=
          if trimming.outBuf.isNone then trace
          else trimming.cleanTraceCustom
        traceBits := trace }
    else { trimming with traceBits := trace }

end DeterministicTarget

/-! ## The corpus -/

/-- The queue and the content of its entries. -/
structure Corpus where
  afl : QueueState
  input : Nat → CaseInput

/-- A dry run: the settings it looks at and the outcomes of its cases. -/
structure CorpusDryRun where
  crashMode : Bool
  timeoutGiven : Bool
  exitOnSeedIssues : Bool
  setting : Nat → DeterministicTarget.CalibrationSetting
  res : Nat → RunResult
  stopSoon : Nat → Bool

/-- What the fuzzer does to its corpus. -/
inductive CorpusMove where
  | readTestcase (input : CaseInput) (passedDet : Bool)
  | performDryRun (run : CorpusDryRun)
  | cullQueue
  /-- executions whose cases are not kept, and `simplify_trace` -/
  | execute (trace : Buffer)
  | saveIfInteresting (mem : CaseInput)
      (setting : DeterministicTarget.CalibrationSetting)
  | calibrateCase (q : Nat) (setting : DeterministicTarget.CalibrationSetting)
  | trimCase (q : Nat) (stops : Nat → Bool)
  | trimCaseCustom (q : Nat)
      (proposals : List DeterministicTarget.TrimProposal)
  | countFuzz (slot value : BitVec 32)
  | assignNFuzzEntry (q : Nat) (slot : BitVec 32)
  | abandonEntry (queueCur : Nat) (stopSoon : Bool)
  | cycleSchedules

namespace Corpus

/-- The corpus before `read_testcases`. -/
def start (settings : QueueSettings) : Corpus where
  afl := settings.start
  input := fun _ => ⟨[], by decide⟩

variable (target : DeterministicTarget) (corpus : Corpus)

/-- `add_to_queue` for a file with this content. -/
def addToQueue (input : CaseInput) (passedDet : Bool) : Corpus where
  afl := corpus.afl.addToQueue input.len passedDet
  input := Function.update corpus.input corpus.afl.queuedPaths input

/-- `calibrate_case` with the content of the entry. -/
def calibrateCase (q : Nat)
    (setting : DeterministicTarget.CalibrationSetting) : Corpus :=
  { corpus with
    afl := corpus.afl.calibrateCase q
      (target.calibration corpus.afl.mapSize setting
        (corpus.afl.queueBuf q).execCksum corpus.afl.traceBits
        (corpus.input q)) }

/-- The outcomes of a dry run; each entry is calibrated at most once. -/
def dryRun (run : CorpusDryRun) : DryRun where
  crashMode := run.crashMode
  timeoutGiven := run.timeoutGiven
  exitOnSeedIssues := run.exitOnSeedIssues
  cases := fun idx =>
    { calibration := target.calibration corpus.afl.mapSize (run.setting idx)
        (corpus.afl.queueBuf idx).execCksum corpus.afl.traceBits
        (corpus.input idx)
      res := run.res idx
      stopSoon := run.stopSoon idx }

def performDryRun (run : CorpusDryRun) : Option Corpus :=
  match corpus.afl.performDryRun (corpus.dryRun target run) with
  | .ok afl => some { corpus with afl }
  | .error _ => none

/-- `save_if_interesting` for a case that is added: its execution, the new
entry with the checksum of its trace, and the calibration. -/
def saveIfInteresting (mem : CaseInput)
    (setting : DeterministicTarget.CalibrationSetting) : Corpus :=
  let trace := target.classified corpus.afl.mapSize mem
  let added := corpus.addToQueue mem false
  let hashed := { added with
    afl := { added.afl.modify corpus.afl.queuedPaths fun entry =>
      { entry with execCksum := target.hash64 trace corpus.afl.mapSize } with
      traceBits := trace } }
  hashed.calibrateCase target corpus.afl.queuedPaths setting

/-- `trim_case` without custom trimmers. -/
def trimCase (q : Nat) (stops : Nat → Bool) : Corpus :=
  let inBuf := corpus.input q
  if inBuf.bytes.length < 5 then corpus
  else
    let trimmed := target.trimLoop corpus.afl.mapSize
      (corpus.afl.queueBuf q).execCksum stops
      (max (inBuf.lenP2 / trimStartSteps) trimMinBytes)
      { inBuf
        cleanTrace := none
        traceBits := corpus.afl.traceBits
        trimExec := 0
        aborted := false }
    { afl :=
        match trimmed.cleanTrace, trimmed.aborted with
        | some cleanTrace, false =>
            corpus.afl.trimCase q trimmed.inBuf.len cleanTrace
        | _, _ =>
            corpus.afl.shortenCase q trimmed.inBuf.len trimmed.traceBits
      input := Function.update corpus.input q trimmed.inBuf }

def trimCaseCustom (q : Nat)
    (proposals : List DeterministicTarget.TrimProposal) : Corpus :=
  let trimmed := proposals.foldl
    (target.trimCustomRound corpus.afl.mapSize (corpus.afl.queueBuf q).execCksum)
    { outBuf := none
      cleanTraceCustom := corpus.afl.traceBits
      traceBits := corpus.afl.traceBits
      aborted := false }
  match trimmed.outBuf, trimmed.aborted with
  | some outBuf, false =>
      { afl := corpus.afl.trimCase q outBuf.len trimmed.cleanTraceCustom
        input := Function.update corpus.input q outBuf }
  | _, _ =>
      { corpus with
        afl := { corpus.afl with traceBits := trimmed.traceBits } }

/-- One move; `none` where the fuzzer ends or there is no such entry. -/
def step : CorpusMove → Corpus → Option Corpus
  | .readTestcase input passedDet, corpus =>
      some (corpus.addToQueue input passedDet)
  | .performDryRun run, corpus => corpus.performDryRun target run
  | .cullQueue, corpus =>
      match corpus.afl.cullQueue with
      | .ok afl => some { corpus with afl }
      | .error _ => none
  | .execute trace, corpus =>
      some { corpus with afl := { corpus.afl with traceBits := trace } }
  | .saveIfInteresting mem setting, corpus =>
      some (corpus.saveIfInteresting target mem setting)
  | .calibrateCase q setting, corpus =>
      if q < corpus.afl.queuedPaths then
        some (corpus.calibrateCase target q setting)
      else none
  | .trimCase q stops, corpus =>
      if q < corpus.afl.queuedPaths then
        some (corpus.trimCase target q stops)
      else none
  | .trimCaseCustom q proposals, corpus =>
      if q < corpus.afl.queuedPaths then
        some (corpus.trimCaseCustom target q proposals)
      else none
  | .countFuzz slot value, corpus =>
      some { corpus with
        afl := { corpus.afl with
          nFuzz := Function.update corpus.afl.nFuzz slot value } }
  | .assignNFuzzEntry q slot, corpus =>
      some { corpus with
        afl := corpus.afl.modify q fun entry =>
          { entry with nFuzzEntry := slot } }
  | .abandonEntry queueCur stopSoon, corpus =>
      some { corpus with afl := corpus.afl.abandonEntry queueCur stopSoon }
  | .cycleSchedules, corpus =>
      some { corpus with afl := corpus.afl.cycleSchedules }

end Corpus

/-! ## Packed traces -/

theorem rowBit_minimizeBitsRound (src dst : Buffer) (index i : Nat) :
    rowBit (minimizeBitsRound src index dst) i = true →
      rowBit dst i = true ∨ i = index ∧ src i ≠ 0#8 := by
  unfold minimizeBitsRound
  split
  · rename_i set
    intro bit
    rw [rowBit_eq] at bit ⊢
    rw [Nat.shiftRight_eq_div_pow,
      show index &&& 7 = index % 8 from Nat.and_two_pow_sub_one_eq_mod index 3]
      at bit
    by_cases sameByte : i / 8 = index / 2 ^ 3
    · rw [sameByte, Function.update_self, BitVec.getLsbD_or, Bool.or_eq_true] at bit
      rcases bit with old | new
      · rw [sameByte]
        exact .inl old
      · have position : i % 8 = index % 8 := by
          simp at new
          omega
        have same : i = index := by omega
        exact .inr ⟨same, same ▸ set⟩
    · rw [Function.update_of_ne sameByte] at bit
      exact .inl bit
  · exact .inl

variable {i q : Nat}

theorem rowBit_minimizeBits {mapSize : Nat} {src : Buffer}
    (bit : rowBit (minimizeBits mapSize (fun _ => 0#8) src) i = true) :
    i < mapSize ∧ src i ≠ 0#8 := by
  have packed := forRange_invariant (minimizeBitsRound src)
    (fun _ dst => rowBit dst i = true → i < mapSize ∧ src i ≠ 0#8)
    (fun _ => 0#8) (by simp [rowBit]) mapSize
    (fun index inside dst holds set =>
      (rowBit_minimizeBitsRound src dst index i set).elim holds fun new =>
        ⟨new.1 ▸ inside, new.2⟩)
  exact packed bit

/-! ## Winners cover their indices -/

namespace QueueState

/-- Winners set the bytes they have won, and packed traces hold only bytes that
their entries set. -/
structure Attributed (sets : Nat → Nat → Prop) (afl : QueueState) : Prop where
  topRated : ∀ i id, afl.topRated i = some id → sets id i
  traceMini : ∀ id mini, (afl.queueBuf id).traceMini = some mini →
    ∀ i, rowBit mini i = true → sets id i

variable {sets : Nat → Nat → Prop} {afl : QueueState}

theorem Attributed.of_same {before after : QueueState}
    (attributed : Attributed sets before)
    (topRated : after.topRated = before.topRated)
    (traceMini : ∀ id,
      (after.queueBuf id).traceMini = (before.queueBuf id).traceMini) :
    Attributed sets after := by
  constructor
  · intro i id winner
    rw [topRated] at winner
    exact attributed.topRated i id winner
  · intro id mini packed
    rw [traceMini] at packed
    exact attributed.traceMini id mini packed

section

variable (attributed : Attributed sets afl)
include attributed

theorem Attributed.of_modify (q : Nat) (change : QueueEntry → QueueEntry)
    {after : QueueState} (traceMini : ∀ entry, (change entry).traceMini = entry.traceMini)
    (topRated : after.topRated = afl.topRated)
    (queueBuf : after.queueBuf = (afl.modify q change).queueBuf) :
    Attributed sets after := by
  refine attributed.of_same topRated fun id => ?_
  rw [queueBuf, modify_queueBuf]
  split
  · rename_i same
    rw [traceMini, same]
  · rfl

theorem Attributed.releaseWinner (topRated : Nat) :
    Attributed sets (afl.releaseWinner topRated) := by
  refine ⟨attributed.topRated, ?_⟩
  intro id mini packed
  apply attributed.traceMini id mini
  unfold QueueState.releaseWinner at packed
  rw [modify_queueBuf] at packed
  split at packed
  · rename_i same
    dsimp only at packed
    split at packed
    · cases packed
    · rw [same]
      exact packed
  · exact packed

section

variable (own : ∀ i < afl.mapSize, afl.traceBits i ≠ 0#8 → sets q i)
include own

theorem Attributed.insertWinner (inside : i < afl.mapSize) (set : afl.traceBits i ≠ 0#8) :
    Attributed sets (afl.insertWinner q i) := by
  constructor
  · intro index id winner
    by_cases same : index = i
    · subst index
      have isQ : q = id := by simpa [QueueState.insertWinner] using winner
      subst id
      exact own i inside set
    · apply attributed.topRated index id
      simpa [QueueState.insertWinner, same] using winner
  · intro id mini packed
    by_cases same : id = q
    · subst id
      simp only [QueueState.insertWinner, modify_queueBuf_self] at packed
      split at packed
      · rename_i old
        rw [← Option.some.inj packed]
        exact attributed.traceMini q _ old
      · unfold ckAlloc at packed
        split at packed
        · cases packed
        · obtain rfl := Option.some.inj packed
          intro bit isSet
          have traced := rowBit_minimizeBits isSet
          exact own bit traced.1 traced.2
    · apply attributed.traceMini id mini
      simpa [QueueState.insertWinner, modify_queueBuf, same] using packed

theorem Attributed.updateBitmapScore : Attributed sets (afl.updateBitmapScore q) := by
  have loop := forRange_invariant
    (updateBitmapScoreRound q (afl.fuzzP2 (afl.queueBuf q))
      (afl.favFactor (afl.queueBuf q)))
    (fun _ current => Attributed sets current ∧
      current.mapSize = afl.mapSize ∧ current.traceBits = afl.traceBits)
    afl ⟨attributed, rfl, rfl⟩ afl.mapSize
    (by
      rintro index inside current ⟨holds, mapSize, traceBits⟩
      rw [← mapSize] at inside
      have currentOwn : ∀ i < current.mapSize,
          current.traceBits i ≠ 0#8 → sets q i := by
        rw [mapSize, traceBits]
        exact own
      unfold updateBitmapScoreRound
      split
      · exact ⟨holds, mapSize, traceBits⟩
      · rename_i set
        split
        · exact ⟨holds.insertWinner currentOwn inside set, mapSize, traceBits⟩
        · rename_i topRated _
          split
          · exact ⟨holds, mapSize, traceBits⟩
          · exact ⟨(holds.releaseWinner topRated).insertWinner currentOwn
              inside set, mapSize, traceBits⟩)
  exact loop.1

end

end

theorem updateBitmapScore_traceBits (afl : QueueState) (q : Nat) :
    (afl.updateBitmapScore q).traceBits = afl.traceBits := by
  refine forRange_invariant _
    (fun _ current => current.traceBits = afl.traceBits) afl rfl afl.mapSize ?_
  intro index _ current same
  rw [← same]
  unfold updateBitmapScoreRound
  split
  · rfl
  · split
    · rfl
    · split <;> rfl

section

variable (attributed : Attributed sets afl)
include attributed

theorem Attributed.calibrateCase {calibration : Calibration}
    (own : calibration.completed = true → ∀ i < afl.mapSize,
      calibration.trace i ≠ 0#8 → sets q i) :
    Attributed sets (afl.calibrateCase q calibration) := by
  have executed : Attributed sets (afl.executeCase q calibration) :=
    attributed.of_modify q (fun entry =>
      { entry with
        calFailed := entry.calFailed + 1#8
        execCksum := calibration.execCksum }) (fun _ => rfl) rfl rfl
  unfold QueueState.calibrateCase
  dsimp only
  split
  · rename_i completed
    have timed : Attributed sets
        ((afl.executeCase q calibration).modify q fun entry =>
          { entry with execUs := calibration.execUs, calFailed := 0#8 }) :=
      executed.of_modify q (fun entry =>
        { entry with execUs := calibration.execUs, calFailed := 0#8 })
        (fun _ => rfl) rfl rfl
    exact timed.updateBitmapScore (own completed)
  · exact executed

theorem Attributed.shortenCase (q : Nat) (len : BitVec 32) (trace : Buffer) :
    Attributed sets (afl.shortenCase q len trace) :=
  attributed.of_modify q (fun entry => { entry with len }) (fun _ => rfl) rfl
    rfl

theorem Attributed.trimCase (len : BitVec 32) {trace : Buffer}
    (own : ∀ i < afl.mapSize, trace i ≠ 0#8 → sets q i) :
    Attributed sets (afl.trimCase q len trace) :=
  (attributed.shortenCase q len trace).updateBitmapScore own

theorem Attributed.cycleSchedules
    (own : ∀ id < afl.queuedPaths, (afl.queueBuf id).disabled = false →
      ∀ i < afl.mapSize, afl.traceBits i ≠ 0#8 → sets id i) :
    Attributed sets afl.cycleSchedules := by
  have loop := forRange_invariant cycleRound
    (fun _ current => Attributed sets current ∧
      SameQueue afl current ∧ current.traceBits = afl.traceBits)
    { afl with schedule := nextSchedule afl.schedule }
    ⟨attributed.of_same rfl fun _ => rfl, by constructor <;> intros <;> rfl, rfl⟩
    afl.queuedPaths
    (by
      rintro index inside current ⟨holds, same, traceBits⟩
      unfold cycleRound
      split
      · exact ⟨holds, same, traceBits⟩
      · rename_i enabled
        have wasEnabled : (afl.queueBuf index).disabled = false := by
          rw [← same.entries index]
          simpa using enabled
        refine ⟨holds.updateBitmapScore ?_,
          same.trans (updateBitmapScore_sameQueue _ _),
          (updateBitmapScore_traceBits _ _).trans traceBits⟩
        rw [same.mapSize, traceBits]
        exact own index inside wasEnabled)
  exact loop.1

end

theorem cycleSchedules_mapSize (afl : QueueState) :
    afl.cycleSchedules.mapSize = afl.mapSize := by
  refine forRange_invariant cycleRound
    (fun _ current => current.mapSize = afl.mapSize)
    { afl with schedule := nextSchedule afl.schedule } rfl afl.queuedPaths ?_
  intro index _ current same
  unfold cycleRound
  split
  · exact same
  · exact (updateBitmapScore_sameQueue _ _).mapSize.trans same

theorem Attributed.disableEntry (attributed : Attributed sets afl)
    (q : Nat) : Attributed sets (afl.disableEntry q) :=
  attributed.of_modify q (fun entry =>
    { entry with wasFuzzed := true, disabled := true }) (fun _ => rfl) rfl rfl

theorem calibrateCase_mapSize (afl : QueueState) (q : Nat)
    (calibration : Calibration) :
    (afl.calibrateCase q calibration).mapSize = afl.mapSize := by
  unfold QueueState.calibrateCase
  dsimp only
  split
  · exact (updateBitmapScore_sameQueue _ q).mapSize
  · rfl

theorem Attributed.performDryRun (attributed : Attributed sets afl)
    {run : DryRun}
    (own : ∀ q, (run.cases q).calibration.completed = true →
      ∀ i < afl.mapSize, (run.cases q).calibration.trace i ≠ 0#8 → sets q i) :
    Yields (fun failure => failure = .fatal)
      (fun next => Attributed sets next ∧ next.mapSize = afl.mapSize)
      (afl.performDryRun run) := by
  refine performDryRun_rule
    (fun next => Attributed sets next ∧ next.mapSize = afl.mapSize)
    ?_ ?_ ?_ ⟨attributed, rfl⟩
  · rintro current q ⟨holds, mapSize⟩ _
    refine ⟨holds.calibrateCase ?_, ?_⟩
    · rw [mapSize]
      exact own q
    · rw [← mapSize]
      exact calibrateCase_mapSize current q _
  · rintro current q ⟨holds, mapSize⟩
    exact ⟨holds.of_modify q (fun entry => { entry with calFailed := calChances })
      (fun _ => rfl) rfl rfl, mapSize⟩
  · rintro current q ⟨holds, mapSize⟩ _ _ _
    exact ⟨holds.disableEntry q, mapSize⟩

theorem Attributed.abandonEntry (attributed : Attributed sets afl)
    (queueCur : Nat) (stopSoon : Bool) :
    Attributed sets (afl.abandonEntry queueCur stopSoon) := by
  have marked : Attributed sets (afl.markFuzzed queueCur) :=
    attributed.of_modify queueCur (fun entry => { entry with wasFuzzed := true })
      (fun _ => rfl) rfl rfl
  have count : ∀ {counted : QueueState}, Attributed sets counted →
      Attributed sets (counted.modify queueCur fun entry =>
        { entry with fuzzLevel := entry.fuzzLevel + 1#32 }) :=
    fun holds => holds.of_modify queueCur (fun entry =>
      { entry with fuzzLevel := entry.fuzzLevel + 1#32 }) (fun _ => rfl) rfl rfl
  unfold QueueState.abandonEntry
  refine count ?_
  split
  · split
    · exact marked
    · exact attributed
  · exact attributed

theorem Attributed.cullQueue (invariant : afl.RatedInvariant)
    (attributed : Attributed sets afl) {culled : QueueState}
    (culls : afl.cullQueue = .ok culled) :
    Attributed sets culled ∧ culled.mapSize = afl.mapSize := by
  by_cases idle : afl.scoreChanged = false ∨ afl.nonInstrumentedMode = true
  · unfold QueueState.cullQueue at culls
    rw [if_pos idle] at culls
    obtain rfl := Except.ok.inj culls
    exact ⟨attributed, rfl⟩
  · rw [not_or, Bool.not_eq_false, Bool.not_eq_true] at idle
    obtain ⟨result, run, spec⟩ := cullQueue_spec invariant idle.1 idle.2
    rw [culls] at run
    obtain rfl := Except.ok.inj run
    exact ⟨attributed.of_same spec.marks.topRated spec.marks.traceMini,
      spec.marks.mapSize⟩

end QueueState

/-! ## The trace of a deterministic target -/

namespace DeterministicTarget

variable {target : DeterministicTarget} {mapSize : Nat} {trimming : Trimming}

/-- A byte of the map that executing a case sets, after `classify_counts`. -/
def Sets (target : DeterministicTarget) (mapSize : Nat) (input : CaseInput)
    (i : Nat) : Prop :=
  i < mapSize ∧ target.classified mapSize input i ≠ 0#8

/-- Two cases that set the same bytes of the map. -/
def SameBytes (target : DeterministicTarget) (mapSize : Nat)
    (first second : CaseInput) : Prop :=
  ∀ i, target.Sets mapSize first i ↔ target.Sets mapSize second i

theorem Sets.traced {input : CaseInput} (set : target.Sets mapSize input i) :
    target.trace input i ≠ 0#8 := by
  obtain ⟨inside, classified⟩ := set
  intro zero
  apply classified
  rw [DeterministicTarget.classified, bucketed, if_pos inside, zero,
    countClassLookup8_zero]

/-- A completed calibration leaves the trace of the case it was given. -/
theorem calibration_trace {setting : CalibrationSetting}
    {execCksum : BitVec 64} {traceBits : Buffer} {input : CaseInput}
    (completed : (target.calibration mapSize setting execCksum traceBits
      input).completed = true) :
    (target.calibration mapSize setting execCksum traceBits input).trace =
      target.classified mapSize input := by
  have looped := forRange_invariant
    (target.calibrationRound mapSize setting input)
    (fun count loop => 0 < loop.stageMax ∧ (0 < count →
      loop.aborted = false → loop.trace = target.classified mapSize input))
    { execCksum := if setting.cmplogMode then 0#64 else execCksum
      trace := traceBits
      stageMax := if setting.aflCalFast then 3 else calCycles
      aborted := false }
    (by
      refine ⟨?_, fun none => absurd none (Nat.lt_irrefl 0)⟩
      dsimp only
      split <;> decide)
    calCyclesLong
    (by
      rintro stageCur _ loop ⟨positive, traced⟩
      unfold calibrationRound
      split
      · rename_i ended
        refine ⟨positive, fun _ running => ?_⟩
        rcases ended with aborted | finished
        · rw [running] at aborted
          cases aborted
        · exact traced (by omega) running
      · split
        · exact ⟨positive, fun _ running => by cases running⟩
        · split
          · exact ⟨positive, fun _ running => by cases running⟩
          · dsimp only
            split
            · exact ⟨positive, fun _ _ => rfl⟩
            · split
              · exact ⟨positive, fun _ _ => rfl⟩
              · refine ⟨?_, fun _ _ => rfl⟩
                dsimp only
                split <;> decide)
  refine looped.2 (by decide) ?_
  simpa [calibration] using completed

/-- No candidate with the checksum of an entry sets other bytes than its
content does. -/
def NoCollision (target : DeterministicTarget) (mapSize : Nat)
    (execCksum : BitVec 64) (original candidate : CaseInput) : Prop :=
  target.hash64 (target.classified mapSize candidate) mapSize = execCksum →
    target.SameBytes mapSize candidate original

/-- What trimming keeps: the content is still a part of the original and sets
the same bytes, and the clean trace sets no others. -/
structure Trimmed (target : DeterministicTarget) (mapSize : Nat)
    (original : CaseInput) (trimming : Trimming) : Prop where
  sublist : trimming.inBuf.bytes.Sublist original.bytes
  sameBytes : target.SameBytes mapSize trimming.inBuf original
  cleanTrace : ∀ cleanTrace, trimming.cleanTrace = some cleanTrace →
    ∀ i < mapSize, cleanTrace i ≠ 0#8 → target.Sets mapSize original i

theorem withGap_sublist (input : CaseInput) (skipAt skipLen : Nat) :
    (input.withGap skipAt skipLen).bytes.Sublist input.bytes := by
  have parts : input.bytes.take skipAt ++ input.bytes.drop skipAt =
      input.bytes := List.take_append_drop skipAt input.bytes
  have fewer : (input.bytes.drop (skipAt + skipLen)).Sublist
      (input.bytes.drop skipAt) := by
    rw [← List.drop_drop]
    exact List.drop_sublist _ _
  have joined := (List.Sublist.refl (input.bytes.take skipAt)).append fewer
  rw [parts] at joined
  exact joined

section Trim

variable {original : CaseInput} {execCksum : BitVec 64}
  (distinct : ∀ candidate : CaseInput,
    candidate.bytes.Sublist original.bytes →
      target.NoCollision mapSize execCksum original candidate)
include distinct

theorem Trimmed.accept {candidate : CaseInput}
    (trimmed : Trimmed target mapSize original trimming)
    (sublist : candidate.bytes.Sublist trimming.inBuf.bytes)
    (accepted : target.hash64 (target.classified mapSize candidate) mapSize =
      execCksum) :
    Trimmed target mapSize original
      (target.trimAccept mapSize trimming candidate) := by
  have within := sublist.trans trimmed.sublist
  have same := distinct candidate within accepted
  refine ⟨within, same, ?_⟩
  intro cleanTrace clean i inside set
  simp only [trimAccept] at clean
  split at clean
  · rename_i old
    exact trimmed.cleanTrace cleanTrace (old.trans clean) i inside set
  · rw [← Option.some.inj clean] at set
    exact (same i).mp ⟨inside, set⟩

theorem Trimmed.trimPass {stops : Nat → Bool} {removeLen : Nat} (positive : 0 < removeLen)
    {removePos : Nat} (trimmed : Trimmed target mapSize original trimming) :
    Trimmed target mapSize original
      (target.trimPass mapSize execCksum stops positive removePos trimming) := by
  fun_induction target.trimPass mapSize execCksum stops positive removePos
    trimming with
  | case1 removePos trimming =>
      exact ⟨trimmed.sublist, trimmed.sameBytes, trimmed.cleanTrace⟩
  | case2 removePos trimming inside trimAvail candidate _ accepted induction =>
      exact induction
        (trimmed.accept distinct (withGap_sublist _ _ _) accepted)
  | case3 removePos trimming inside trimAvail candidate _ _ induction =>
      exact induction ⟨trimmed.sublist, trimmed.sameBytes, trimmed.cleanTrace⟩
  | case4 => exact trimmed

theorem Trimmed.trimLoop {stops : Nat → Bool} {removeLen : Nat}
    (trimmed : Trimmed target mapSize original trimming) :
    Trimmed target mapSize original
      (target.trimLoop mapSize execCksum stops removeLen trimming) := by
  fun_induction target.trimLoop mapSize execCksum stops removeLen trimming with
  | case1 removeLen trimming _ positive passed =>
      exact trimmed.trimPass distinct positive
  | case2 removeLen trimming _ positive passed _ induction =>
      exact induction (trimmed.trimPass distinct positive)
  | case3 => exact trimmed

end Trim

/-- What custom trimming has accepted sets the same bytes as the original, and
its clean trace sets no others. -/
def CustomTrimmed (target : DeterministicTarget) (mapSize : Nat)
    (original : CaseInput) (trimming : CustomTrimming) : Prop :=
  ∀ outBuf, trimming.outBuf = some outBuf →
    target.SameBytes mapSize outBuf original ∧
      ∀ i < mapSize, trimming.cleanTraceCustom i ≠ 0#8 → target.Sets mapSize original i

theorem CustomTrimmed.round {original : CaseInput} {execCksum : BitVec 64}
    {trimming : CustomTrimming} {proposal : TrimProposal}
    (trimmed : CustomTrimmed target mapSize original trimming)
    (distinct : target.NoCollision mapSize execCksum original proposal.retbuf) :
    CustomTrimmed target mapSize original
      (target.trimCustomRound mapSize execCksum trimming proposal) := by
  unfold trimCustomRound
  split
  · exact trimmed
  · split
    · exact trimmed
    · dsimp only
      split
      · rename_i accepted
        have same := distinct accepted
        rintro outBuf found
        obtain rfl := Option.some.inj found
        refine ⟨same, fun i inside set => ?_⟩
        dsimp only at set
        split at set
        · exact (same i).mp ⟨inside, set⟩
        · rename_i another
          rw [Option.isNone_iff_eq_none] at another
          obtain ⟨earlier, wasFound⟩ := Option.ne_none_iff_exists'.mp another
          exact (trimmed earlier wasFound).2 i inside set
      · exact trimmed

theorem CustomTrimmed.rounds {original : CaseInput} {execCksum : BitVec 64}
    {proposals : List TrimProposal} {trimming : CustomTrimming}
    (trimmed : CustomTrimmed target mapSize original trimming)
    (distinct : ∀ proposal ∈ proposals,
      target.NoCollision mapSize execCksum original proposal.retbuf) :
    CustomTrimmed target mapSize original
      (proposals.foldl (target.trimCustomRound mapSize execCksum) trimming) := by
  induction proposals generalizing trimming with
  | nil => exact trimmed
  | cons proposal proposals induction =>
      exact induction
        (trimmed.round (distinct proposal List.mem_cons_self))
        fun other member => distinct other (List.mem_cons_of_mem _ member)

end DeterministicTarget

/-! ## Runs -/

namespace Corpus

open DeterministicTarget QueueState

variable {target : DeterministicTarget} {corpus : Corpus}

/-- A move whose uses of `update_bitmap_score` find the trace they are meant
for: the schedule changes only when the trace left over sets nothing that some
enabled entry does not set, and no candidate of the trimmer collides. -/
def Fitting (target : DeterministicTarget) (corpus : Corpus) : CorpusMove → Prop
  | .cycleSchedules =>
      ∀ id < corpus.afl.queuedPaths,
        (corpus.afl.queueBuf id).disabled = false →
          ∀ i < corpus.afl.mapSize, corpus.afl.traceBits i ≠ 0#8 →
            target.Sets corpus.afl.mapSize (corpus.input id) i
  | .trimCase q _ =>
      ∀ candidate : CaseInput,
        candidate.bytes.Sublist (corpus.input q).bytes →
          target.NoCollision corpus.afl.mapSize
            (corpus.afl.queueBuf q).execCksum (corpus.input q) candidate
  | .trimCaseCustom q proposals =>
      ∀ proposal ∈ proposals,
        target.NoCollision corpus.afl.mapSize
          (corpus.afl.queueBuf q).execCksum (corpus.input q) proposal.retbuf
  | _ => True

/-- The invariant: the table of winners is consistent, and winners set what
they have won. -/
structure Attributed (target : DeterministicTarget) (mapSize : Nat)
    (corpus : Corpus) : Prop where
  sized : corpus.afl.mapSize = mapSize
  rated : corpus.afl.RatedInvariant
  attributed : QueueState.Attributed
    (fun id => target.Sets mapSize (corpus.input id)) corpus.afl

/-- The content of one entry changes to one that sets the same bytes. -/
theorem attributed_update {mapSize : Nat} {input : Nat → CaseInput}
    {replacement : CaseInput} {afl : QueueState}
    (same : target.SameBytes mapSize replacement (input q))
    (attributed : QueueState.Attributed
      (fun id => target.Sets mapSize (input id)) afl) :
    QueueState.Attributed (fun id => target.Sets mapSize
      (Function.update input q replacement id)) afl := by
  have sets : ∀ id i, target.Sets mapSize (input id) i →
      target.Sets mapSize (Function.update input q replacement id) i := by
    intro id i set
    by_cases here : id = q
    · subst id
      rw [Function.update_self]
      exact (same i).mpr set
    · rw [Function.update_of_ne here]
      exact set
  exact ⟨fun i id winner => sets id i (attributed.topRated i id winner),
    fun id mini packed i bit =>
      sets id i (attributed.traceMini id mini packed i bit)⟩

section

variable {mapSize : Nat} (holds : Attributed target mapSize corpus)
include holds

theorem Attributed.addToQueue (input : CaseInput) (passedDet : Bool) :
    Attributed target mapSize (corpus.addToQueue input passedDet) := by
  have others : ∀ id, id ≠ corpus.afl.queuedPaths →
      Function.update corpus.input corpus.afl.queuedPaths input id =
        corpus.input id := fun id different =>
    Function.update_of_ne different _ _
  refine ⟨holds.sized, holds.rated.addToQueue input.len passedDet, ?_, ?_⟩
  · intro i id winner
    have queued := (holds.rated.rated i id winner).2
    simp only [Corpus.addToQueue, others id (Nat.ne_of_lt queued)]
    exact holds.attributed.topRated i id winner
  · intro id mini packed
    by_cases new : id = corpus.afl.queuedPaths
    · subst id
      simp [Corpus.addToQueue, QueueState.addToQueue, blankEntry] at packed
    · intro i bit
      simp only [Corpus.addToQueue, others id new]
      refine holds.attributed.traceMini id mini ?_ i bit
      simpa [Corpus.addToQueue, QueueState.addToQueue, new] using packed

theorem Attributed.calibrateCase (queued : q < corpus.afl.queuedPaths)
    (setting : CalibrationSetting) :
    Attributed target mapSize (corpus.calibrateCase target q setting) := by
  refine ⟨?_, holds.rated.calibrateCase queued _, ?_⟩
  · rw [← holds.sized]
    exact calibrateCase_mapSize _ _ _
  · refine holds.attributed.calibrateCase fun completed i inside set => ?_
    rw [calibration_trace completed, holds.sized] at set
    rw [holds.sized] at inside
    exact ⟨inside, set⟩

theorem Attributed.saveIfInteresting (mem : CaseInput) (setting : CalibrationSetting) :
    Attributed target mapSize
      (corpus.saveIfInteresting target mem setting) := by
  have added := holds.addToQueue mem false
  let trace := target.classified corpus.afl.mapSize mem
  let hashed : Corpus := { corpus.addToQueue mem false with
    afl := { (corpus.addToQueue mem false).afl.modify corpus.afl.queuedPaths
      fun entry =>
        { entry with
          execCksum := target.hash64 trace corpus.afl.mapSize } with
      traceBits := trace } }
  have checked : Attributed target mapSize hashed := by
    refine ⟨added.sized, ?_, ?_⟩
    · exact added.rated.of_modify corpus.afl.queuedPaths (fun entry =>
        { entry with execCksum := target.hash64 trace corpus.afl.mapSize })
        (fun _ => rfl) (fun _ => rfl) rfl rfl rfl rfl
    · exact added.attributed.of_modify corpus.afl.queuedPaths (fun entry =>
        { entry with execCksum := target.hash64 trace corpus.afl.mapSize })
        (fun _ => rfl) rfl rfl
  exact checked.calibrateCase (Nat.lt_succ_self _) setting

end

/-- A trimmed entry competes with a trace that its new content sets too. -/
theorem Attributed.replace {mapSize q : Nat} {outBuf : CaseInput}
    {cleanTrace : Buffer} (holds : Attributed target mapSize corpus)
    (queued : q < corpus.afl.queuedPaths)
    (same : target.SameBytes mapSize outBuf (corpus.input q))
    (own : ∀ i < mapSize, cleanTrace i ≠ 0#8 →
      target.Sets mapSize (corpus.input q) i) :
    Attributed target mapSize
      { afl := corpus.afl.trimCase q outBuf.len cleanTrace
        input := Function.update corpus.input q outBuf } := by
  refine ⟨?_, holds.rated.trimCase queued _ _, ?_⟩
  · rw [← holds.sized]
    exact (updateBitmapScore_sameQueue _ q).mapSize
  · refine attributed_update same (holds.attributed.trimCase _ ?_)
    rw [holds.sized]
    exact own

section

variable {mapSize : Nat} (holds : Attributed target mapSize corpus)
include holds

theorem Attributed.trimCase (queued : q < corpus.afl.queuedPaths) (stops : Nat → Bool)
    (fitting : corpus.Fitting target (.trimCase q stops)) :
    Attributed target mapSize (corpus.trimCase target q stops) := by
  unfold Corpus.trimCase
  dsimp only
  split
  · exact holds
  · have untrimmed : Trimmed target mapSize (corpus.input q)
        { inBuf := corpus.input q
          cleanTrace := none
          traceBits := corpus.afl.traceBits
          trimExec := 0
          aborted := false } :=
      ⟨.refl _, fun _ => Iff.rfl, fun _ none => by cases none⟩
    have distinct : ∀ candidate : CaseInput,
        candidate.bytes.Sublist (corpus.input q).bytes →
          target.NoCollision mapSize (corpus.afl.queueBuf q).execCksum
            (corpus.input q) candidate := by
      rw [← holds.sized]
      exact fitting
    rw [holds.sized]
    have trimmed : Trimmed target _ _ (target.trimLoop _ _ stops
        (max ((corpus.input q).lenP2 / trimStartSteps) trimMinBytes) _) :=
      untrimmed.trimLoop distinct
    split
    · rename_i cleanTrace clean _
      exact holds.replace queued trimmed.sameBytes
        (trimmed.cleanTrace cleanTrace clean)
    · refine ⟨holds.sized, ?_, ?_⟩
      · exact holds.rated.shortenCase q _ _
      · exact attributed_update trimmed.sameBytes
          (holds.attributed.shortenCase q _ _)

theorem Attributed.trimCaseCustom (queued : q < corpus.afl.queuedPaths)
    {proposals : List TrimProposal}
    (fitting : corpus.Fitting target (.trimCaseCustom q proposals)) :
    Attributed target mapSize
      (corpus.trimCaseCustom target q proposals) := by
  have sized := holds.sized
  subst sized
  have untrimmed : CustomTrimmed target corpus.afl.mapSize (corpus.input q)
      { outBuf := none
        cleanTraceCustom := corpus.afl.traceBits
        traceBits := corpus.afl.traceBits
        aborted := false } := fun _ none => by cases none
  have trimmed := untrimmed.rounds fitting
  unfold Corpus.trimCaseCustom
  dsimp only
  split
  · rename_i outBuf found _
    exact holds.replace queued (trimmed outBuf found).1
      (trimmed outBuf found).2
  · exact ⟨rfl, holds.rated.of_same rfl rfl (Nat.le_refl _)
      (fun _ => rfl) fun _ => rfl, holds.attributed.of_same rfl fun _ => rfl⟩

theorem Attributed.performDryRun {run : CorpusDryRun} {next : Corpus}
    (runs : corpus.performDryRun target run = some next) :
    Attributed target mapSize next := by
  have sized := holds.sized
  subst sized
  unfold Corpus.performDryRun at runs
  split at runs
  · rename_i afl ran
    obtain rfl := Option.some.inj runs
    have rated := holds.rated.performDryRun (corpus.dryRun target run)
    rw [ran] at rated
    have own : ∀ q, ((corpus.dryRun target run).cases q).calibration.completed = true →
        ∀ i < corpus.afl.mapSize,
          ((corpus.dryRun target run).cases q).calibration.trace i ≠ 0#8 →
          target.Sets corpus.afl.mapSize (corpus.input q) i := by
      intro q completed i inside set
      simp only [Corpus.dryRun] at completed set
      rw [calibration_trace completed] at set
      exact ⟨inside, set⟩
    have kept := holds.attributed.performDryRun own
    rw [ran] at kept
    exact ⟨kept.2, rated, kept.1⟩
  · cases runs

theorem Attributed.cullQueue {culled : QueueState}
    (culls : corpus.afl.cullQueue = .ok culled) :
    Attributed target mapSize { corpus with afl := culled } := by
  obtain ⟨result, run, rated⟩ := holds.rated.cullQueue
  rw [culls] at run
  obtain rfl := Except.ok.inj run
  have kept := QueueState.Attributed.cullQueue holds.rated holds.attributed
    culls
  exact ⟨kept.2.trans holds.sized, rated, kept.1⟩

theorem Attributed.step {move : CorpusMove} {next : Corpus}
    (fitting : corpus.Fitting target move)
    (stepped : step target move corpus = some next) :
    Attributed target mapSize next := by
  cases move with
  | readTestcase input passedDet =>
      obtain rfl := Option.some.inj stepped
      exact holds.addToQueue input passedDet
  | performDryRun run => exact holds.performDryRun stepped
  | cullQueue =>
      simp only [Corpus.step] at stepped
      split at stepped
      · rename_i culled culls
        obtain rfl := Option.some.inj stepped
        exact holds.cullQueue culls
      · cases stepped
  | execute trace =>
      obtain rfl := Option.some.inj stepped
      exact ⟨holds.sized, holds.rated.of_same rfl rfl (Nat.le_refl _)
        (fun _ => rfl) fun _ => rfl, holds.attributed.of_same rfl fun _ => rfl⟩
  | saveIfInteresting mem setting =>
      obtain rfl := Option.some.inj stepped
      exact holds.saveIfInteresting mem setting
  | calibrateCase q setting =>
      simp only [Corpus.step] at stepped
      split at stepped
      · rename_i queued
        obtain rfl := Option.some.inj stepped
        exact holds.calibrateCase queued setting
      · cases stepped
  | trimCase q stops =>
      simp only [Corpus.step] at stepped
      split at stepped
      · rename_i queued
        obtain rfl := Option.some.inj stepped
        exact holds.trimCase queued stops fitting
      · cases stepped
  | trimCaseCustom q proposals =>
      simp only [Corpus.step] at stepped
      split at stepped
      · rename_i queued
        obtain rfl := Option.some.inj stepped
        exact holds.trimCaseCustom queued fitting
      · cases stepped
  | countFuzz slot value =>
      obtain rfl := Option.some.inj stepped
      exact ⟨holds.sized, holds.rated.of_same rfl rfl (Nat.le_refl _)
        (fun _ => rfl) fun _ => rfl, holds.attributed.of_same rfl fun _ => rfl⟩
  | assignNFuzzEntry q slot =>
      obtain rfl := Option.some.inj stepped
      exact ⟨holds.sized,
        holds.rated.modify q (fun entry => { entry with nFuzzEntry := slot })
          (fun _ => rfl) fun _ => rfl,
        holds.attributed.of_modify q
          (fun entry => { entry with nFuzzEntry := slot }) (fun _ => rfl) rfl
          rfl⟩
  | abandonEntry queueCur stopSoon =>
      obtain rfl := Option.some.inj stepped
      have kept := holds.attributed.abandonEntry queueCur stopSoon
      refine ⟨?_, holds.rated.abandonEntry queueCur stopSoon, kept⟩
      rw [← holds.sized]
      simp only [QueueState.abandonEntry, modify_mapSize]
      split
      · split <;> rfl
      · rfl
  | cycleSchedules =>
      obtain rfl := Option.some.inj stepped
      have sized := holds.sized
      subst sized
      exact ⟨cycleSchedules_mapSize corpus.afl, holds.rated.cycleSchedules,
        holds.attributed.cycleSchedules fitting⟩

end

def calibrated (execUs : BitVec 64) : DeterministicTarget.CalibrationSetting where
  cmplogMode := false
  nonInstrumentedMode := false
  aflCalFast := true
  stops := fun _ => false
  execUs := execUs

end Corpus

end AFLPlusPlus
