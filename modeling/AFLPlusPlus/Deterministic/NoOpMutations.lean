import AFLPlusPlus.Deterministic.AutoCollect
import AFLPlusPlus.Deterministic.EffectorMap
import AFLPlusPlus.Findings.CalibrationRuns
import AFLPlusPlus.Findings.Deduplication

/-!
# Mutations without an effect

The stages that flip bits and bytes compare the checksum of the trace that
`common_fuzz_stuff` has left behind with the one that the entry got in its
calibration.  The latter is taken over the bucketed trace.
-/

namespace AFLPlusPlus

/-! ## The checksum of a calibrated entry -/

namespace CalibrateCase

open CoverageMaps

variable {settings : Settings} {call : Call} {q : Nat} {before afl : State}
  {trace : Buffer}

/-- The checksum of an entry whose executions all leave this trace. -/
def Settings.cksumOf (settings : Settings) (size : Nat) (trace : Buffer) : BitVec 64 :=
  settings.hash64 (bucketed size trace) size

/-- After a completed run the entry has its checksum. -/
def HasCksum (settings : Settings) (q : Nat) (before : State)
    (trace : Buffer) (loop : Loop) : Prop :=
  loop.afl.execCksum q = settings.cksumOf before.maps.mapSize trace ∨
    loop.afl.execCksum q = 0#64 ∧ loop.afl.stageCur = 0#32

theorem compareRun_cksum {loop : Loop}
    (mapSize : loop.afl.maps.mapSize = before.maps.mapSize)
    (isTrace : loop.afl.maps.traceBits = trace)
    (known : loop.afl.execCksum q = settings.cksumOf before.maps.mapSize trace ∨
      loop.afl.execCksum q = 0#64) :
    (compareRun settings q loop).afl.execCksum q =
      settings.cksumOf before.maps.mapSize trace := by
  have classified : settings.hash64
      (loop.afl.classify settings.flavour).maps.traceBits
      (loop.afl.classify settings.flavour).maps.mapSize =
        settings.cksumOf before.maps.mapSize trace := by
    rw [classify_maps, mapSize, isTrace]
    rfl
  rcases compareRun_cases settings q loop with
    ⟨same, result⟩ | ⟨_, _, result⟩ | ⟨nonzero, _, result⟩
  · rw [result]
    exact same.trans classified
  · rw [result, ← classified]
    exact execCksum_setCksum _ q _
  · rw [result]
    exact known.resolve_right nonzero

theorem HasCksum.round {rounds : Nat} {loop : Loop}
    (same : ∀ number, (call.run number).trace = trace)
    (running : Running settings call q before rounds loop)
    (known : HasCksum settings q before trace loop) :
    HasCksum settings q before trace
      (calibrationRound settings call q loop) := by
  rcases calibrationRound_cases settings call q loop with
    ⟨_, idle⟩ | ⟨_, _, _, fault, aborts⟩ | ⟨_, _, _, goesOn⟩
  · rw [idle]
    exact known
  · rw [aborts]
    exact known
  · rw [goesOn]
    exact .inl (compareRun_cksum running.frame.mapSize (same _)
      (known.imp_right And.left))

theorem openCalibration_cksum
    (brought : before.execCksum q = 0#64 ∨ before.execCksum q =
      settings.cksumOf before.maps.mapSize trace) :
    HasCksum settings q before trace (openCalibration settings q before) := by
  have entered : (enterStage settings q (resetCksum settings q before)).execCksum q =
      (resetCksum settings q before).execCksum q := by
    simp [enterStage, State.execCksum]
  have opened : (openCalibration settings q before).afl.execCksum q =
      (resetCksum settings q before).execCksum q := by
    rw [← entered]
    unfold openCalibration
    dsimp only
    split <;> rfl
  have reset : (resetCksum settings q before).execCksum q = 0#64 ∨
      (resetCksum settings q before).execCksum q =
        settings.cksumOf before.maps.mapSize trace := by
    unfold resetCksum
    split
    · exact .inl (execCksum_setCksum before q 0#64)
    · exact brought
  rcases reset with none | former
  · exact .inr ⟨opened.trans none, rfl⟩
  · exact .inl (opened.trans former)

section

variable (same : ∀ number, (call.run number).trace = trace)
    (brought : before.execCksum q = 0#64 ∨ before.execCksum q = settings.cksumOf before.maps.mapSize trace)
include same brought

theorem calibrationLoop_cksum
    (finished : (calibrationLoop settings call q before).aborted = false) :
    (calibrationLoop settings call q before).afl.execCksum q =
      settings.cksumOf before.maps.mapSize trace := by
  have known : HasCksum settings q before trace
      (calibrationLoop settings call q before) :=
    (forRange_invariant (fun _ => calibrationRound settings call q)
      (fun rounds loop => Running settings call q before rounds loop ∧
        HasCksum settings q before trace loop) _
      ⟨openCalibration_running settings call q before,
        openCalibration_cksum brought⟩ calCyclesLong
      fun _ _ _ both => ⟨both.1.round, both.2.round same both.1⟩).2
  refine known.resolve_right fun fresh => ?_
  have ended := calibrationLoop_finished settings call q before finished
  rw [fresh.2] at ended
  have some := cycles_pos settings
    (calibrationLoop settings call q before).varDetected
  exact absurd ended (Nat.ne_of_lt some)

/-- A calibration that is not aborted, of an entry all of whose executions leave
one trace, gives it the checksum of this trace. -/
theorem calibrateCase_cksum {outcome : Outcome}
    (result : calibrateCase settings call q before = some outcome)
    (whole : outcome.aborted = false) :
    outcome.afl.execCksum q = settings.cksumOf before.maps.mapSize trace := by
  obtain ⟨aborted, _, marked, isMarked, closes⟩ := calibrateCase_eq_some result
  have finished := aborted.symm.trans whole
  have cksum := calibrationLoop_cksum same brought finished
  generalize calibrationLoop settings call q before = loop at *
  have rest := (markVariable_spec closes).1
  have coveredRest := markNewCov_rest q loop.newBits (bookLoop call q loop)
  have finalQueue : outcome.afl.queue = (bookLoop call q loop).queue := by
    rw [isMarked, restoreStage, rest, coveredRest]
  have booked : (bookLoop call q loop).queue =
      (bookCalibration call q loop.afl).queue := by
    rw [bookLoop, finished, if_neg Bool.false_ne_true]
  rw [← cksum, State.execCksum, finalQueue, booked]
  refine (congrArg QueueEntry.execCksum
    ((QueueState.updateBitmapScore_sameQueue _ q).entries q) :).trans ?_
  rw [QueueState.modify_queueBuf_self]
  rfl

end

/-- A calibration of runs that all complete is not aborted. -/
theorem calibrateCase_whole
    (completes : ∀ number, call.Completes settings
      before.queue.nonInstrumentedMode before.maps.mapSize number)
    (forkServer : call.forkServer = true) (linkMade : call.linkMade = true) :
    ∃ outcome, calibrateCase settings call q before = some outcome ∧
      outcome.aborted = false := by
  have running := calibrationLoop_running settings call q before
  have finished : (calibrationLoop settings call q before).aborted = false :=
    Bool.eq_false_iff.mpr fun aborted => running.cut aborted (completes _)
  have stageMax : (calibrationLoop settings call q before).afl.stageMax ≠ 0#32 := by
    intro zero
    have number := congrArg BitVec.toNat (running.stageMax.symm.trans zero)
    rw [toNat_cycles] at number
    exact Nat.ne_of_gt (cycles_pos settings _) number
  unfold calibrateCase
  rw [if_neg fun closed => absurd (closed.1.symm.trans forkServer) Bool.false_ne_true]
  dsimp only
  rw [if_neg fun empty => stageMax empty.2]
  generalize calibrationLoop settings call q before = loop at *
  have marks : ∃ marked, markVariable call q loop.varDetected
      (markNewCov q loop.newBits (bookLoop call q loop)) = some marked := by
    unfold markVariable
    rw [linkMade]
    split
    · dsimp only
      rw [if_pos rfl]
      split <;> exact ⟨_, rfl⟩
    · exact ⟨_, rfl⟩
  obtain ⟨marked, closes⟩ := marks
  rw [closes]
  exact ⟨_, rfl, finished⟩

end CalibrateCase


/-! ## What `save_if_interesting` leaves behind -/

/-- The trace that is left in `trace_bits`, by how it came there. -/
inductive Left where
  /-- as the target wrote it -/
  | raw
  | bucketed
  /-- simplified without being bucketed -/
  | simplifiedRaw
  | simplified
  /-- from another execution -/
  | again (trace : Buffer)

def Left.trace (size : Nat) (trace : Buffer) : Left → Buffer
  | .raw => trace
  | .bucketed => AFLPlusPlus.bucketed size trace
  | .simplifiedRaw => hitOrNot size trace
  | .simplified => hitOrNot size (AFLPlusPlus.bucketed size trace)
  | .again other => other

namespace FuzzState

open CoverageMaps

variable (campaign : Campaign) (afl : FuzzState)

/-- Something in the trace is new to `virgin_bits`. -/
def BringsNew (trace : Buffer) : Prop :=
  ∃ address < afl.maps.mapSize,
    countClassLookup8 (trace address) &&& afl.maps.virginBits address ≠ 0#8

instance (trace : Buffer) : Decidable (afl.BringsNew trace) :=
  inferInstanceAs (Decidable (∃ address < _, _))

/-- The simplified trace is new among the timeouts. -/
def BringsHang (trace : Buffer) : Prop :=
  newBitsVerdict afl.maps.mapSize
    (hitOrNot afl.maps.mapSize (bucketed afl.maps.mapSize trace))
    afl.maps.virginTmout ≠ 0

instance (trace : Buffer) : Decidable (afl.BringsHang trace) :=
  inferInstanceAs (Decidable (_ ≠ _))

/-- `stage_max` of a calibration in which nothing varies. -/
def calibrationRuns : Nat :=
  if campaign.aflCalFast then 3 else calCycles

/-- `stop_soon` is set while a calibration goes on. -/
def Interrupted : Prop :=
  ∃ round < calibrationRuns campaign,
    (campaign.target (afl.execs + round)).stopSoon = true

instance : Decidable (afl.Interrupted campaign) :=
  inferInstanceAs (Decidable (∃ round < _, _))

def leftByCrash (full below : Left) : Left :=
  if keepUniqueCrash ≤ afl.uniqueCrashes then full else below

/-- The trace after a timeout. -/
def leftByTmout (trace : Buffer) : Left :=
  let size := afl.maps.mapSize
  let ran := campaign.target afl.execs
  if keepUniqueHang ≤ afl.uniqueHangs then .raw
  else if ¬afl.BringsHang trace ∨
      campaign.hangTmout ≤ campaign.execTmout then .simplified
  else
    let again := bucketed size ran.trace
    if ran.stopSoon = false ∧ ran.fault = .crash then
      afl.leftByCrash (.again again) (.again (hitOrNot size again))
    else .again again

/-- The trace after a fault that the campaign does not collect. -/
def leftByFault (trace : Buffer) : RunResult → Left
  | .crash => afl.leftByCrash .raw .simplified
  | .tmout => afl.leftByTmout campaign trace
  | _ => .raw

/-- The trace after a case that was kept. -/
def leftByKeeping (fault : RunResult) : Left :=
  if afl.Interrupted campaign then
    if fault = .crash then afl.leftByCrash .raw .simplifiedRaw else .raw
  else
    if fault = .crash then afl.leftByCrash .bucketed .simplified
    else .bucketed

/-- What is left of the trace of an execution. -/
def left (run : TargetRun) : Left :=
  if run.fault = campaign.crashMode then
    if afl.BringsNew run.trace then afl.leftByKeeping campaign run.fault
    else .raw
  else afl.leftByFault campaign run.trace run.fault

variable {campaign : Campaign} {afl before after : FuzzState}
  {trace : Buffer}

section

variable (instrumented : campaign.nonInstrumentedMode = false)
include instrumented

theorem judge_compares (kind : VirginMap) (classified : Bool) :
    let bucketed := if classified then afl else afl.classifyTrace campaign
    let compared := (bucketed.simplify campaign).compareTrace campaign kind
    ∃ (unique : Bool) (finding : Finding),
      (afl.judge campaign kind classified).2 =
        (if unique then compared.2.countUnique kind
          else compared.2).noteFinding finding := by
  unfold FuzzState.judge
  simp only [instrumented, Bool.false_eq_true, if_false]
  exact ⟨_, _, rfl⟩

theorem judge_trace (kind : VirginMap) (classified : Bool) :
    let after := (afl.judge campaign kind classified).2
    after.maps.traceBits = hitOrNot afl.maps.mapSize
        (if classified then afl.maps.traceBits
          else bucketed afl.maps.mapSize afl.maps.traceBits) ∧
      after.maps.mapSize = afl.maps.mapSize ∧ after.execs = afl.execs := by
  obtain ⟨unique, finding, result⟩ :=
    @judge_compares campaign afl instrumented kind classified
  have maps : (afl.judge campaign kind classified).2.maps =
      (hasNewBits campaign.variant.flavour
        (simplifyTrace campaign.variant.flavour
          (if classified then afl else afl.classifyTrace campaign).maps)
        kind).2 := by
    rw [result]
    cases unique with
    | false => rfl
    | true => exact maps_countUnique _ kind
  have bucketedMaps : (if classified then afl
      else afl.classifyTrace campaign).maps = { afl.maps with
        traceBits := if classified then afl.maps.traceBits
          else bucketed afl.maps.mapSize afl.maps.traceBits } := by
    cases classified with
    | true => rfl
    | false => exact classifyCounts_eq campaign.variant.flavour afl.maps
  refine ⟨?_, ?_, ?_⟩
  · rw [maps, hasNewBits_traceBits, simplifyTrace_eq, bucketedMaps]
  · rw [maps, hasNewBits_mapSize, simplifyTrace_eq, bucketedMaps]
  · rw [result]
    cases unique <;> cases classified <;> cases kind <;> rfl

/-- The label `keep_as_crash` simplifies the trace, below its limit. -/
theorem keepAsCrash_trace (classified : Bool) :
    (afl.keepAsCrash campaign classified).maps.traceBits =
        (if keepUniqueCrash ≤ afl.uniqueCrashes then afl.maps.traceBits
          else hitOrNot afl.maps.mapSize
            (if classified then afl.maps.traceBits
              else bucketed afl.maps.mapSize afl.maps.traceBits)) ∧
      (afl.keepAsCrash campaign classified).maps.mapSize = afl.maps.mapSize := by
  unfold keepAsCrash
  dsimp only
  split
  · exact ⟨rfl, rfl⟩
  · have judged := @judge_trace campaign
      { afl with totalCrashes := afl.totalCrashes + 1 } instrumented .crash
      classified
    exact ⟨judged.1, judged.2.1⟩

theorem judge_verdict (kind : VirginMap) (classified : Bool) :
    (afl.judge campaign kind classified).1 =
      decide (newBitsVerdict afl.maps.mapSize
        (hitOrNot afl.maps.mapSize
          (if classified then afl.maps.traceBits
            else bucketed afl.maps.mapSize afl.maps.traceBits))
        (afl.maps.virgin kind) ≠ 0) := by
  have verdict := (compare_simplified campaign afl kind classified _ rfl).1
  unfold FuzzState.judge
  simp only [instrumented, Bool.false_eq_true, if_false]
  rw [verdict]

theorem judge_uniqueCrashes (classified : Bool) :
    (afl.judge campaign .tmout classified).2.uniqueCrashes = afl.uniqueCrashes := by
  obtain ⟨unique, finding, result⟩ :=
    @judge_compares campaign afl instrumented .tmout classified
  rw [result]
  cases unique <;> cases classified <;> rfl

theorem saveTmout_trace :
    (afl.saveTmout campaign false).maps.traceBits =
        (afl.leftByTmout campaign afl.maps.traceBits).trace
          afl.maps.mapSize afl.maps.traceBits ∧
      (afl.saveTmout campaign false).maps.mapSize = afl.maps.mapSize := by
  unfold saveTmout leftByTmout
  dsimp only
  by_cases full : keepUniqueHang ≤ afl.uniqueHangs
  · rw [if_pos full, if_pos full]
    exact ⟨rfl, rfl⟩
  · rw [if_neg full, if_neg full]
    let total := { afl with totalTmouts := afl.totalTmouts + 1 }
    have verdict := @judge_verdict campaign total instrumented .tmout false
    have crashes := @judge_uniqueCrashes campaign total instrumented false
    obtain ⟨judgedTrace, judgedSize, judgedExecs⟩ :=
      @judge_trace campaign total instrumented .tmout false
    generalize total.judge campaign .tmout false = judged at *
    have verdict : judged.1 = decide (afl.BringsHang afl.maps.traceBits) := verdict
    by_cases hang : afl.BringsHang afl.maps.traceBits
    · rw [verdict, decide_eq_true hang, if_neg (by decide)]
      by_cases generous : campaign.execTmout < campaign.hangTmout
      · rw [if_pos generous, if_neg (not_or.mpr
          ⟨not_not.mpr hang, Nat.not_le.mpr generous⟩)]
        have ran : (judged.2.fuzzRunTarget campaign).1 =
            campaign.target afl.execs := by
          rw [← show judged.2.execs = afl.execs from judgedExecs]
          rfl
        have again : ((judged.2.fuzzRunTarget campaign).2.classifyTrace
            campaign).maps = { judged.2.maps with
              traceBits := bucketed afl.maps.mapSize
                (campaign.target afl.execs).trace } := by
          change classifyCounts _ _ = _
          rw [classifyCounts_eq, ← ran,
            ← show judged.2.maps.mapSize = afl.maps.mapSize from judgedSize]
          rfl
        have againCrashes : ((judged.2.fuzzRunTarget campaign).2.classifyTrace
            campaign).uniqueCrashes = afl.uniqueCrashes := crashes
        rw [ran]
        generalize (judged.2.fuzzRunTarget campaign).2.classifyTrace
          campaign = state at *
        have size : state.maps.mapSize = afl.maps.mapSize := by
          rw [again]
          exact judgedSize
        have kept : state.maps.traceBits = bucketed afl.maps.mapSize
            (campaign.target afl.execs).trace := by
          rw [again]
        split
        · obtain ⟨crashTrace, crashSize⟩ :=
            @keepAsCrash_trace campaign state instrumented
              (false || !campaign.nonInstrumentedMode)
          rw [againCrashes, size, kept] at crashTrace
          refine ⟨crashTrace.trans ?_, crashSize.trans size⟩
          rw [instrumented]
          unfold leftByCrash
          split <;> rfl
        · split
          · exact ⟨kept, size⟩
          · exact ⟨kept, size⟩
      · rw [if_neg generous, if_pos (.inr (Nat.not_lt.mp generous))]
        exact ⟨judgedTrace, judgedSize⟩
    · rw [verdict, decide_eq_false hang, if_pos rfl, if_pos (.inl hang)]
      exact ⟨judgedTrace, judgedSize⟩

end

/-! ### The calibration of a new entry -/

/-- Every execution of the case is as the first one. -/
structure Repeats (campaign : Campaign) (trace : Buffer) : Prop where
  trace : ∀ number, (campaign.target number).trace = trace
  fault : ∀ number, (campaign.target number).fault = campaign.crashMode

/-- The calibration loop before a round. -/
structure Repeating (campaign : Campaign) (before : FuzzState) (trace : Buffer)
    (round : Nat) (loop : Calibrating) : Prop where
  mapSize : loop.afl.maps.mapSize = before.maps.mapSize
  uniqueCrashes : loop.afl.uniqueCrashes = before.uniqueCrashes
  stageMax : loop.stageMax = calibrationRuns campaign
  cksum : loop.q.execCksum = 0#64 ∨ loop.q.execCksum =
    campaign.hash64 (bucketed before.maps.mapSize trace) before.maps.mapSize
  goes : loop.aborted = false →
    loop.afl.execs = before.execs + min round (calibrationRuns campaign) ∧
      (∀ earlier < min round (calibrationRuns campaign),
        (campaign.target (before.execs + earlier)).stopSoon = false) ∧
      (0 < round → loop.afl.maps.traceBits = bucketed before.maps.mapSize trace)
  stops : loop.aborted = true →
    loop.afl.maps.traceBits = trace ∧ before.Interrupted campaign

theorem calibrationRuns_pos (campaign : Campaign) : 0 < calibrationRuns campaign := by
  unfold calibrationRuns
  split <;> decide

theorem calibrationRuns_le (campaign : Campaign) :
    calibrationRuns campaign ≤ calCyclesLong := by
  unfold calibrationRuns
  split <;> decide

theorem calibrationStart_repeating {q : FoundEntry}
    (cksum : q.execCksum = campaign.hash64
      (bucketed afl.maps.mapSize trace) afl.maps.mapSize) :
    Repeating campaign afl trace 0 (afl.calibrationStart campaign q) := by
  have start : ∀ compared : Nat × FuzzState,
      compared.2.maps.mapSize = afl.maps.mapSize →
      compared.2.uniqueCrashes = afl.uniqueCrashes →
      compared.2.execs = afl.execs → ∀ entry : FoundEntry,
      entry.execCksum = 0#64 ∨ entry.execCksum = campaign.hash64
        (bucketed afl.maps.mapSize trace) afl.maps.mapSize →
      Repeating campaign afl trace 0
        { afl := compared.2
          q := entry
          stageMax := calibrationRuns campaign
          fault := .ok
          newBits := compared.1
          varDetected := false
          aborted := false } := by
    intro compared mapSize uniqueCrashes execs entry known
    refine ⟨mapSize, uniqueCrashes, rfl, known, fun _ => ⟨?_, ?_, ?_⟩, ?_⟩
    · rw [Nat.zero_min]
      exact execs
    · intro earlier below
      rw [Nat.zero_min] at below
      exact absurd below (Nat.not_lt_zero earlier)
    · exact fun positive => absurd positive (Nat.lt_irrefl 0)
    · exact fun aborted => absurd aborted Bool.false_ne_true
  unfold calibrationStart
  dsimp only
  have known : (if campaign.cmplogMode then { q with execCksum := 0#64 }
      else q).execCksum = 0#64 ∨
      (if campaign.cmplogMode then { q with execCksum := 0#64 }
        else q).execCksum = campaign.hash64
          (bucketed afl.maps.mapSize trace) afl.maps.mapSize := by
    split
    · exact .inl rfl
    · exact .inr cksum
  generalize (if campaign.cmplogMode then { q with execCksum := 0#64 }
    else q) = entry at *
  split
  · refine start (compareTrace campaign
      { afl with firstTrace := afl.maps.traceBits } .bits) ?_ rfl rfl _ known
    exact hasNewBits_mapSize campaign.variant.flavour afl.maps .bits
  · exact start (0, afl) rfl rfl rfl _ known

theorem Repeating.round
    (repeats : Repeats campaign trace)
    (hits : ∃ address < before.maps.mapSize, trace address ≠ 0#8)
    {round : Nat} {loop : Calibrating}
    (repeating : Repeating campaign before trace round loop) :
    Repeating campaign before trace (round + 1)
      (calibrationRound campaign round loop) := by
  unfold calibrationRound
  by_cases rests : loop.aborted = true ∨ ¬round < loop.stageMax
  · rw [if_pos rests]
    refine { repeating with goes := fun going => ?_ }
    obtain ⟨execs, unstopped, left⟩ := repeating.goes going
    have done := rests.resolve_left (by simp [going])
    rw [repeating.stageMax] at done
    have runs := calibrationRuns_pos campaign
    rw [Nat.min_eq_right (Nat.not_lt.mp done)] at execs unstopped
    rw [Nat.min_eq_right (Nat.le_succ_of_le (Nat.not_lt.mp done))]
    exact ⟨execs, unstopped, fun _ =>
      left (Nat.lt_of_lt_of_le runs (Nat.not_lt.mp done))⟩
  · rw [if_neg rests]
    obtain ⟨going, inside⟩ := not_or.mp rests
    have going : loop.aborted = false := Bool.eq_false_iff.mpr going
    have inside : round < calibrationRuns campaign := by
      rw [← repeating.stageMax]
      exact not_not.mp inside
    obtain ⟨execs, unstopped, _⟩ := repeating.goes going
    rw [Nat.min_eq_left (Nat.le_of_lt inside)] at execs unstopped
    have ran : (loop.afl.fuzzRunTarget campaign).1 =
        campaign.target (before.execs + round) := by
      rw [← execs]
      rfl
    have received : (loop.afl.fuzzRunTarget campaign).2.maps =
        { loop.afl.maps with traceBits := trace } := by
      rw [← repeats.trace loop.afl.execs]
      rfl
    have counted : (loop.afl.fuzzRunTarget campaign).2.execs =
        before.execs + min (round + 1) (calibrationRuns campaign) := by
      rw [Nat.min_eq_left (by omega), ← Nat.add_assoc, ← execs]
      rfl
    have crashes : (loop.afl.fuzzRunTarget campaign).2.uniqueCrashes =
        before.uniqueCrashes := repeating.uniqueCrashes
    dsimp only
    rw [ran]
    generalize (loop.afl.fuzzRunTarget campaign).2 = after at *
    have size : after.maps.mapSize = before.maps.mapSize := by
      rw [received]
      exact repeating.mapSize
    by_cases stopped : (campaign.target (before.execs + round)).stopSoon = true
    · rw [if_pos (.inl stopped)]
      refine ⟨size, crashes, repeating.stageMax, repeating.cksum, ?_, ?_⟩
      · exact fun isFalse => absurd isFalse.symm Bool.false_ne_true
      · exact fun _ => ⟨by rw [received], round, inside, stopped⟩
    · rw [if_neg (not_or.mpr
        ⟨stopped, not_not.mpr (repeats.fault (before.execs + round))⟩)]
      have some : after.countBytes ≠ 0 := by
        obtain ⟨address, below, hit⟩ := hits
        refine Nat.ne_of_gt (List.countP_pos_iff.mpr
          ⟨address, List.mem_range.mpr (by rwa [size]), ?_⟩)
        rw [received]
        exact decide_eq_true hit
      rw [if_neg fun empty => some empty.2.2]
      have classifiedSize : (after.classifyTrace campaign).maps.mapSize =
          before.maps.mapSize := by
        change (classifyCounts _ _).mapSize = _
        rw [classifyCounts_eq]
        exact size
      have classified : (after.classifyTrace campaign).maps.traceBits =
          bucketed before.maps.mapSize trace := by
        change (classifyCounts _ _).traceBits = _
        rw [classifyCounts_eq]
        dsimp only
        rw [size, received]
      have hashed : ((after.classifyTrace campaign).hashTrace campaign).1 =
          campaign.hash64 (bucketed before.maps.mapSize trace)
            before.maps.mapSize := by
        change campaign.hash64 (after.classifyTrace campaign).maps.traceBits
          (after.classifyTrace campaign).maps.mapSize = _
        rw [classified, classifiedSize]
      have unstoppedNow : ∀ earlier < min (round + 1)
          (calibrationRuns campaign),
          (campaign.target (before.execs + earlier)).stopSoon = false := by
        intro earlier below
        rw [Nat.min_eq_left (by omega)] at below
        rcases Nat.lt_succ_iff_lt_or_eq.mp below with former | now
        · exact unstopped earlier former
        · rw [now]
          exact Bool.eq_false_iff.mpr stopped
      by_cases differs : loop.q.execCksum ≠
          ((after.classifyTrace campaign).hashTrace campaign).1
      · have unknown : loop.q.execCksum = 0#64 :=
          repeating.cksum.resolve_right fun known =>
            differs (known.trans hashed.symm)
        rw [if_pos differs, if_neg (not_not.mpr unknown)]
        refine ⟨?_, crashes, repeating.stageMax, .inr hashed,
          fun _ => ⟨counted, unstoppedNow, fun _ => ?_⟩,
          fun isTrue => absurd (going.symm.trans isTrue) Bool.false_ne_true⟩
        · exact (hasNewBits_mapSize campaign.variant.flavour
            (after.classifyTrace campaign).maps .bits).trans classifiedSize
        · exact (hasNewBits_traceBits campaign.variant.flavour
            (after.classifyTrace campaign).maps .bits).trans classified
      · rw [if_neg differs]
        exact ⟨classifiedSize, crashes, repeating.stageMax, repeating.cksum,
          fun _ => ⟨counted, unstoppedNow, fun _ => classified⟩,
          fun isTrue => absurd (going.symm.trans isTrue) Bool.false_ne_true⟩

/-- The calibration of a case whose executions all leave one trace leaves this
trace bucketed, unless it is stopped. -/
theorem calibrateCase_trace
    (repeats : Repeats campaign trace)
    (hits : ∃ address < afl.maps.mapSize, trace address ≠ 0#8)
    {q : FoundEntry} (cksum : q.execCksum = campaign.hash64
      (bucketed afl.maps.mapSize trace) afl.maps.mapSize) :
    let after := (afl.calibrateCase campaign q).2.1
    after.maps.traceBits =
        (if afl.Interrupted campaign then trace
          else bucketed afl.maps.mapSize trace) ∧
      after.maps.mapSize = afl.maps.mapSize ∧
      after.uniqueCrashes = afl.uniqueCrashes := by
  have repeating : Repeating campaign afl trace calCyclesLong _ :=
    forRange_invariant (calibrationRound campaign)
      (Repeating campaign afl trace) _ (calibrationStart_repeating cksum)
      calCyclesLong fun _ _ _ before => before.round repeats hits
  refine ⟨?_, repeating.mapSize, repeating.uniqueCrashes⟩
  have runs := calibrationRuns_le campaign
  change (forRange (calibrationRound campaign) calCyclesLong
    (afl.calibrationStart campaign q)).afl.maps.traceBits = _
  generalize forRange (calibrationRound campaign) calCyclesLong
    (afl.calibrationStart campaign q) = loop at *
  cases aborted : loop.aborted with
  | true =>
      obtain ⟨left, interrupted⟩ := repeating.stops aborted
      rw [if_pos interrupted]
      exact left
  | false =>
      obtain ⟨_, unstopped, left⟩ := repeating.goes aborted
      rw [if_neg]
      · exact left (by decide)
      · rintro ⟨round, below, stopped⟩
        have not := unstopped round (by rwa [Nat.min_eq_right runs])
        exact absurd (not.symm.trans stopped) Bool.false_ne_true

/-! ### The whole call -/

theorem BringsNew.hits (new : afl.BringsNew trace) :
    ∃ address < afl.maps.mapSize, trace address ≠ 0#8 := by
  obtain ⟨address, inside, bits⟩ := new
  refine ⟨address, inside, fun zero => bits ?_⟩
  rw [zero, countClassLookup8_zero]
  exact BitVec.zero_and

/-- What stays the same when path frequencies are counted and new bits are
looked for. -/
structure Untouched (before after : FuzzState) : Prop where
  mapSize : after.maps.mapSize = before.maps.mapSize
  execs : after.execs = before.execs
  uniqueCrashes : after.uniqueCrashes = before.uniqueCrashes

/-- `has_new_bits_unclassified` only buckets a trace that brings something
new. -/
theorem compareUnclassified_trace {result : Nat × FuzzState}
    (compares : afl.compareUnclassified campaign .bits = some result) :
    Untouched afl result.2 ∧
      if afl.BringsNew afl.maps.traceBits then
        result.1 ≠ 0 ∧ result.2.maps.traceBits =
          bucketed afl.maps.mapSize afl.maps.traceBits
      else
        result.1 = 0 ∧ result.2.maps.traceBits = afl.maps.traceBits := by
  have scan := skim_eq campaign.variant afl.maps.virginBits
    afl.maps.traceBits afl.maps.aligned
  have zero := hasNewBits_classifyCounts_zero campaign.variant.flavour
    afl.maps .bits
  unfold compareUnclassified at compares
  by_cases new : afl.BringsNew afl.maps.traceBits
  · rw [show skim campaign.variant (afl.maps.virgin .bits) _ _ = some 1 from
      scan.trans (congrArg some (if_pos new))] at compares
    cases compares
    rw [if_pos new]
    have size : (classifyCounts campaign.variant.flavour
        afl.maps).mapSize = afl.maps.mapSize := by
      rw [classifyCounts_eq]
    have left : (classifyCounts campaign.variant.flavour
        afl.maps).traceBits = bucketed afl.maps.mapSize afl.maps.traceBits := by
      rw [classifyCounts_eq]
    refine ⟨⟨?_, rfl, rfl⟩, fun none => zero.mp none new, ?_⟩
    · exact (hasNewBits_mapSize campaign.variant.flavour _ .bits).trans size
    · exact (hasNewBits_traceBits campaign.variant.flavour _ .bits).trans left
  · rw [show skim campaign.variant (afl.maps.virgin .bits) _ _ = some 0 from
      scan.trans (congrArg some (if_neg new))] at compares
    cases compares
    rw [if_neg new]
    exact ⟨⟨rfl, rfl, rfl⟩, rfl, rfl⟩

theorem keepInteresting_trace
    (repeats : Repeats campaign trace)
    (hits : ∃ address < afl.maps.mapSize, trace address ≠ 0#8)
    (isBucketed : afl.maps.traceBits = bucketed afl.maps.mapSize trace)
    {len newBits : Nat} {cksum : BitVec 64}
    (kept : afl.keepInteresting campaign len newBits cksum = some after) :
    after.maps.traceBits =
        (if afl.Interrupted campaign then trace
          else bucketed afl.maps.mapSize trace) ∧
      after.maps.mapSize = afl.maps.mapSize ∧
      after.uniqueCrashes = afl.uniqueCrashes := by
  unfold keepInteresting at kept
  extract_lets slot queued hashed calibrated at kept
  have calibration := @calibrateCase_trace campaign hashed.2 trace
    repeats hits
    { len := len
      hasNewCov := decide (newBits = 2)
      varBehavior := false
      execCksum := hashed.1
      nFuzzEntry := if cksum ≠ 0#64 then slot else 0 } (by
        change campaign.hash64 afl.maps.traceBits afl.maps.mapSize = _
        rw [isBucketed]
        rfl)
  split at kept
  · cases kept
  · rw [← Option.some.inj kept]
    exact calibration

section

variable (instrumented : campaign.nonInstrumentedMode = false)
include instrumented

/-- The cases of the switch for a trace as the target wrote it. -/
theorem saveFault_trace {fault : RunResult}
    (saves : afl.saveFault campaign false fault = some after) :
    after.maps.traceBits =
        (afl.leftByFault campaign afl.maps.traceBits fault).trace
          afl.maps.mapSize afl.maps.traceBits ∧
      after.maps.mapSize = afl.maps.mapSize := by
  cases fault with
  | tmout =>
      cases saves
      exact saveTmout_trace instrumented
  | crash =>
      cases saves
      obtain ⟨crashTrace, crashSize⟩ :=
        @keepAsCrash_trace campaign afl instrumented false
      refine ⟨crashTrace.trans ?_, crashSize⟩
      unfold leftByFault leftByCrash
      split <;> rfl
  | error => cases saves
  | ok =>
      cases saves
      exact ⟨rfl, rfl⟩
  | noinst =>
      cases saves
      exact ⟨rfl, rfl⟩
  | nobits =>
      cases saves
      exact ⟨rfl, rfl⟩

/-- Only a crash is looked at again after its case was kept. -/
theorem saveFault_kept {fault : RunResult} (notTmout : fault ≠ .tmout)
    (saves : afl.saveFault campaign true fault = some after) :
    after.maps.traceBits =
        (if fault = .crash then
          if keepUniqueCrash ≤ afl.uniqueCrashes then afl.maps.traceBits
          else hitOrNot afl.maps.mapSize afl.maps.traceBits
        else afl.maps.traceBits) ∧
      after.maps.mapSize = afl.maps.mapSize := by
  cases fault with
  | tmout => exact absurd rfl notTmout
  | crash =>
      cases saves
      exact @keepAsCrash_trace campaign afl instrumented true
  | error => cases saves
  | ok =>
      cases saves
      exact ⟨rfl, rfl⟩
  | noinst =>
      cases saves
      exact ⟨rfl, rfl⟩
  | nobits =>
      cases saves
      exact ⟨rfl, rfl⟩

/-- The trace that `save_if_interesting` leaves behind. -/
theorem saveIfInteresting_trace (mode : campaign.crashMode ≠ .tmout) {run : TargetRun}
    {len : Nat} (nonempty : 0 < len) (received : afl.maps.traceBits = run.trace)
    (repeats : run.fault = campaign.crashMode →
      Repeats campaign run.trace) {keeping : Bool}
    (saved : afl.saveIfInteresting campaign len run.fault = some (keeping, after)) :
    after.maps.traceBits = (afl.left campaign run).trace afl.maps.mapSize run.trace ∧
      after.maps.mapSize = afl.maps.mapSize := by
  have maps : (afl.updateFrequency campaign).2.maps = afl.maps :=
    (updateFrequency_calm campaign afl).2.2
  have frequent : (afl.updateFrequency campaign).2.left campaign run =
      afl.left campaign run := by
    unfold updateFrequency
    split <;> rfl
  unfold saveIfInteresting at saved
  rw [if_neg (Nat.ne_of_gt nonempty)] at saved
  dsimp only at saved
  generalize afl.updateFrequency campaign = updated at *
  rw [← frequent, ← maps]
  rw [← maps] at received
  generalize updated.2 = state at *
  clear frequent maps
  unfold left
  by_cases collects : run.fault = campaign.crashMode
  · rw [if_pos collects] at saved ⊢
    have repeats := repeats collects
    cases compares : state.compareUnclassified campaign .bits with
    | none =>
        rw [compares] at saved
        cases saved
    | some result =>
        rw [compares] at saved
        obtain ⟨untouched, found⟩ := compareUnclassified_trace compares
        rw [received] at found
        by_cases new : state.BringsNew run.trace
        · rw [if_pos new] at found
          rw [if_pos new]
          obtain ⟨kept, keeps, saved⟩ :=
            Option.bind_eq_some_iff.mp (by simpa [found.1] using saved)
          obtain ⟨final, saves, saved⟩ := Option.bind_eq_some_iff.mp saved
          cases saved
          have keeping := keepInteresting_trace repeats
            (untouched.mapSize ▸ new.hits)
            (untouched.mapSize ▸ found.2) keeps
          rw [untouched.mapSize] at keeping
          have same : (result.2.Interrupted campaign ↔
              state.Interrupted campaign) := by
            unfold Interrupted
            rw [untouched.execs]
          obtain ⟨held, size, crashes⟩ := keeping
          have saved := saveFault_kept instrumented (collects ▸ mode) saves
          refine ⟨saved.1.trans ?_, saved.2.trans size⟩
          rw [held, size, crashes, untouched.uniqueCrashes]
          unfold leftByKeeping leftByCrash
          by_cases stopped : state.Interrupted campaign
          · rw [if_pos stopped, if_pos (same.mpr stopped)]
            split
            · split <;> rfl
            · rfl
          · rw [if_neg stopped, if_neg fun still => stopped (same.mp still)]
            split
            · split <;> rfl
            · rfl
        · rw [if_neg new] at found
          rw [if_neg new]
          obtain ⟨newBits, compared⟩ := result
          obtain ⟨isZero, left⟩ := found
          cases isZero
          cases saved
          exact ⟨left, untouched.mapSize⟩
  · rw [if_neg collects] at saved ⊢
    obtain ⟨final, saves, saved⟩ := Option.bind_eq_some_iff.mp saved
    cases saved
    rw [← received]
    exact saveFault_trace instrumented saves

end

/-! ## Recognized mutations -/

/-- What is left of a trace is the bucketed trace. -/
def Unspoilt (size : Nat) (trace : Buffer) : Left → Prop
  | .raw => ∀ address < size, trace address = 0#8 ∨ trace address = 1#8 ∨
      trace address = 2#8 ∨ trace address = 128#8
  | .bucketed => True
  | .simplifiedRaw => ∀ address < size,
      128 ≤ (trace address).toNat ∧ (trace address).toNat < 192
  | .simplified => ∀ address < size,
      128 ≤ (trace address).toNat ∧ (trace address).toNat < 192
  | .again other => other = bucketed size trace

/-- Two traces that the hash does not tell apart. -/
def Collide (campaign : Campaign) (size : Nat) (one other : Buffer) : Prop :=
  one ≠ other ∧ campaign.hash64 one size = campaign.hash64 other size

/-- What `save_if_interesting` leaves of the trace of the mutated input is the
bucketed trace, or the hash takes it for that. -/
def Recognized (campaign : Campaign) (afl : FuzzState) (run : TargetRun) :
    Prop :=
  let left := afl.left campaign run
  let size := afl.maps.mapSize
  Unspoilt size run.trace left ∨
    Collide campaign size (left.trace size run.trace)
      (bucketed size run.trace)

theorem countClassLookup8_fixed (count : BitVec 8) :
    count = countClassLookup8 count ↔
      count = 0#8 ∨ count = 1#8 ∨ count = 2#8 ∨ count = 128#8 := by
  have all : ∀ count < 256, BitVec.ofNat 8 count =
      countClassLookup8 (BitVec.ofNat 8 count) ↔
        BitVec.ofNat 8 count = 0#8 ∨ BitVec.ofNat 8 count = 1#8 ∨
          BitVec.ofNat 8 count = 2#8 ∨ BitVec.ofNat 8 count = 128#8 := by
    decide +kernel
  have one := all count.toNat count.isLt
  rwa [BitVec.ofNat_toNat, BitVec.setWidth_eq] at one

/-- A byte of the simplified trace is the bucketed hit count only in the highest
bucket. -/
theorem countClassLookup8_simplified (count : BitVec 8) :
    ((if countClassLookup8 count = 0#8 then 1#8 else 128#8) = countClassLookup8 count ↔
      128 ≤ count.toNat ∧ count.toNat < 192) ∧
    ((if count = 0#8 then 1#8 else 128#8) = countClassLookup8 count ↔
      128 ≤ count.toNat ∧ count.toNat < 192) := by
  have all : ∀ count < 256,
      ((if countClassLookup8 (BitVec.ofNat 8 count) = 0#8 then 1#8
          else 128#8) = countClassLookup8 (BitVec.ofNat 8 count) ↔
        128 ≤ (BitVec.ofNat 8 count).toNat ∧ (BitVec.ofNat 8 count).toNat < 192) ∧
      ((if BitVec.ofNat 8 count = 0#8 then 1#8 else 128#8) =
          countClassLookup8 (BitVec.ofNat 8 count) ↔
        128 ≤ (BitVec.ofNat 8 count).toNat ∧ (BitVec.ofNat 8 count).toNat < 192) := by
    decide +kernel
  have one := all count.toNat count.isLt
  rwa [BitVec.ofNat_toNat, BitVec.setWidth_eq] at one

theorem buffer_eq_iff {one other : Buffer} {size : Nat}
    (outside : ∀ address, ¬address < size → one address = other address) :
    one = other ↔ ∀ address < size, one address = other address := by
  refine ⟨fun same address _ => congrFun same address, fun inside => ?_⟩
  funext address
  by_cases below : address < size
  · exact inside address below
  · exact outside address below

theorem unspoilt_iff (size : Nat) (trace : Buffer) (left : Left) :
    Unspoilt size trace left ↔ left.trace size trace = bucketed size trace := by
  cases left with
  | raw =>
      refine Iff.trans ?_ (@buffer_eq_iff _ _ size ?_).symm
      · refine forall₂_congr fun address inside => ?_
        rw [bucketed, if_pos inside]
        exact (countClassLookup8_fixed (trace address)).symm
      · intro address beyond
        rw [bucketed, if_neg beyond]
        rfl
  | bucketed => exact iff_of_true trivial rfl
  | simplifiedRaw =>
      refine Iff.trans ?_ (@buffer_eq_iff _ _ size ?_).symm
      · refine forall₂_congr fun address inside => ?_
        rw [Left.trace, hitOrNot, if_pos inside, bucketed, if_pos inside]
        exact (countClassLookup8_simplified (trace address)).2.symm
      · intro address beyond
        rw [Left.trace, hitOrNot, if_neg beyond, bucketed, if_neg beyond]
  | simplified =>
      refine Iff.trans ?_ (@buffer_eq_iff _ _ size ?_).symm
      · refine forall₂_congr fun address inside => ?_
        rw [Left.trace, hitOrNot, if_pos inside, bucketed, if_pos inside]
        exact (countClassLookup8_simplified (trace address)).1.symm
      · intro address beyond
        rw [Left.trace, hitOrNot, if_neg beyond]
  | again other => exact Iff.rfl

theorem recognized_iff (campaign : Campaign) (afl : FuzzState)
    (run : TargetRun) :
    Recognized campaign afl run ↔
      campaign.hash64 ((afl.left campaign run).trace afl.maps.mapSize
          run.trace) afl.maps.mapSize =
        campaign.hash64 (bucketed afl.maps.mapSize run.trace)
          afl.maps.mapSize := by
  unfold Recognized Collide
  dsimp only
  rw [unspoilt_iff]
  refine ⟨fun either => ?_, fun same => ?_⟩
  · exact either.elim (fun isSame => by rw [isSame]) And.right
  · by_cases isSame : (afl.left campaign run).trace afl.maps.mapSize
        run.trace = bucketed afl.maps.mapSize run.trace
    · exact .inl isSame
    · exact .inr ⟨isSame, same⟩

end FuzzState

/-! ## The stages -/

def tmoutLimit : Nat := 250

/-- The state of the fuzzer in a stage. -/
structure Fuzzing where
  afl : FuzzState
  subseqTmouts : Nat
  skipRequested : Bool
  curSkippedPaths : Nat
  queuedDiscovered : Nat

namespace Fuzzing

variable (campaign : Campaign) (state : Fuzzing)

/-- `common_fuzz_stuff` for a case of `len` bytes: what it returns, and the
state after it, unless the process ends. -/
def commonFuzzStuff (len : Nat) (run : TargetRun) : Option (Bool × Fuzzing) :=
  let ran := { state with afl := state.afl.receive run.trace }
  let skipped := { ran with curSkippedPaths := ran.curSkippedPaths + 1 }
  if run.stopSoon then some (true, ran)
  else if run.fault = .tmout ∧ tmoutLimit < state.subseqTmouts then
    some (true, { skipped with subseqTmouts := state.subseqTmouts + 1 })
  else
    let subseqTmouts :=
      if run.fault = .tmout then state.subseqTmouts + 1 else 0
    if state.skipRequested then
      some (true, { skipped with
        subseqTmouts := subseqTmouts
        skipRequested := false })
    else
      (ran.afl.saveIfInteresting campaign len run.fault).map fun saved =>
        (false, { ran with
          afl := saved.2
          subseqTmouts := subseqTmouts
          queuedDiscovered := ran.queuedDiscovered + if saved.1 then 1 else 0 })

def cksum : BitVec 64 :=
  campaign.hash64 state.afl.maps.traceBits state.afl.maps.mapSize

variable {campaign state} {after : Fuzzing}

/-- If the stage goes on, the case went through `save_if_interesting`. -/
theorem commonFuzzStuff_saves {len : Nat} {run : TargetRun}
    (goes : state.commonFuzzStuff campaign len run = some (false, after)) :
    ∃ keeping, (state.afl.receive run.trace).saveIfInteresting campaign len
      run.fault = some (keeping, after.afl) := by
  unfold commonFuzzStuff at goes
  dsimp only at goes
  split at goes
  · cases goes
  · split at goes
    · cases goes
    · split at goes
      · cases goes
      · obtain ⟨saved, call, result⟩ := Option.map_eq_some_iff.mp goes
        cases result
        exact ⟨saved.1, call⟩

end Fuzzing

/-- An entry of a deterministic target with a whole calibration. -/
structure CalibratedEntry (settings : CalibrateCase.Settings)
    (call : CalibrateCase.Call) (q : Nat) (before : CalibrateCase.State)
    (outcome : CalibrateCase.Outcome) (trace : Buffer) : Prop where
  same : ∀ number, (call.run number).trace = trace
  /-- the entry is new, or has the checksum of an earlier execution -/
  brought : before.execCksum q = 0#64 ∨
    before.execCksum q = settings.cksumOf before.maps.mapSize trace
  calibrated : CalibrateCase.calibrateCase settings call q before = some outcome
  whole : outcome.aborted = false

/-- The part of the byte in the effector map after a checksum. -/
theorem learn_effMap {walk : WalkSetting} {walked : WalkState}
    (instrumented : walk.nonInstrumentedMode = false) {stageCur : Nat}
    (unflagged : walked.effMap (effApos stageCur) = 0#8) (cksum : BitVec 64) :
    (walk.learn stageCur cksum walked).effMap (effApos stageCur) = 0#8 ↔
      effMinLen ≤ walk.len ∧ cksum = walk.execCksum := by
  have inverse : ~~~walk.execCksum ≠ walk.execCksum := by
    intro same
    have bit := congrArg (BitVec.getLsbD · 0) same
    simp at bit
  have flagged : ∀ state : WalkState,
      (state.flag (effApos stageCur)).effMap (effApos stageCur) ≠ 0#8 := by
    intro state
    simp [WalkState.flag]
  unfold WalkSetting.learn
  rw [if_neg (not_not.mpr unflagged)]
  by_cases short : walk.TooShort
  · rw [if_pos short, if_pos inverse]
    refine iff_of_false (flagged walked) fun both => ?_
    exact short ⟨instrumented, both.1⟩
  · rw [if_neg short]
    have long := (not_not.mp short).2
    dsimp only
    by_cases differs : cksum ≠ walk.execCksum
    · rw [if_pos differs]
      exact iff_of_false (flagged _) fun both => differs both.2
    · rw [if_neg differs]
      exact iff_of_true unflagged ⟨long, not_not.mp differs⟩

/-- A mutated input of a stage whose execution leaves the very trace of the
entry gets the entry's checksum exactly if it is recognized.  Then its byte is
in no token, and the walking byte does not flag its block. -/
theorem commonFuzzStuff_recognizes_iff {campaign : Campaign}
    {state after : Fuzzing} {settings : CalibrateCase.Settings}
    {call : CalibrateCase.Call} {q len : Nat} {before : CalibrateCase.State}
    {outcome : CalibrateCase.Outcome} {run : TargetRun}
    (instrumented : campaign.nonInstrumentedMode = false)
    (mode : campaign.crashMode = .ok ∨ campaign.crashMode = .crash)
    (entry : CalibratedEntry settings call q before outcome run.trace)
    (sameHash : settings.hash64 = campaign.hash64)
    (sameSize : before.maps.mapSize = state.afl.maps.mapSize)
    (nonempty : 0 < len)
    (repeats : run.fault = campaign.crashMode → FuzzState.Repeats campaign run.trace)
    (goes : state.commonFuzzStuff campaign len run = some (false, after)) :
    let execCksum := outcome.afl.execCksum q
    let recognized := FuzzState.Recognized campaign state.afl run
    (after.cksum campaign = execCksum ↔ recognized) ∧
      (∀ (walk : WalkSetting) (walked : WalkState) (stageCur : Nat),
        walk.nonInstrumentedMode = false → walk.execCksum = execCksum →
        walked.effMap (effApos stageCur) = 0#8 →
          ((walk.learn stageCur (after.cksum campaign) walked).effMap
              (effApos stageCur) = 0#8 ↔
            effMinLen ≤ walk.len ∧ recognized)) ∧
      ∀ (collect : CollectSetting) (k : Nat), collect.execCksum = execCksum →
        collect.cksumAt k = after.cksum campaign → recognized →
        ∀ first last, collect.IsToken first last → ¬(first ≤ k ∧ k ≤ last) := by
  intro execCksum recognized
  have isCksum : execCksum = campaign.hash64
      (bucketed state.afl.maps.mapSize run.trace) state.afl.maps.mapSize := by
    have cksum := CalibrateCase.calibrateCase_cksum entry.same entry.brought
      entry.calibrated entry.whole
    rw [CalibrateCase.Settings.cksumOf, sameHash, sameSize] at cksum
    exact cksum
  obtain ⟨keeping, saved⟩ := Fuzzing.commonFuzzStuff_saves goes
  have notTmout : campaign.crashMode ≠ .tmout := by
    rcases mode with isOk | isCrash
    · rw [isOk]
      decide
    · rw [isCrash]
      decide
  obtain ⟨left, size⟩ := FuzzState.saveIfInteresting_trace instrumented
    notTmout nonempty rfl repeats saved
  have same : after.cksum campaign = execCksum ↔ recognized := by
    rw [isCksum, Fuzzing.cksum, left, size]
    exact (FuzzState.recognized_iff campaign state.afl run).symm
  refine ⟨same, ?_, ?_⟩
  · intro walk walked stageCur walks isExec unflagged
    rw [learn_effMap walks unflagged, isExec, same]
  · intro collect k isExec isAt isRecognized first last token inside
    obtain ⟨begins, ends⟩ := inside
    refine token.2.1 ?_
    rw [isExec, ← same.mpr isRecognized, ← isAt]
    exact (token.1.2.2.1 k ends begins).symm

/-! ## A trace with one hit count -/

def hitting (count : BitVec 8) : Buffer :=
  fun address => if address = 0 then count else 0#8

def hittingRun (count : BitVec 8) : TargetRun :=
  { fault := .ok
    trace := hitting count
    stopSoon := false }

def hittingCall (count : BitVec 8) : CalibrateCase.Call :=
  { CalibrateCase.emptyCall with target := fun _ _ => hittingRun count }

def hittingCampaign (count : BitVec 8) : Campaign :=
  { FuzzState.plainCampaign with
    hash64 := CalibrateCase.firstSettings.hash64
    target := fun _ => hittingRun count }

/-- Nothing is new any more. -/
def knownState : Fuzzing :=
  { afl :=
      { FuzzState.plainStart with
        maps := { FuzzState.plainStart.maps with
          virginBits := fun _ => 0#8 } }
    subseqTmouts := 0
    skipRequested := false
    curSkippedPaths := 0
    queuedDiscovered := 0 }

theorem hitting_entry {count : BitVec 8} (some : count ≠ 0#8) :
    ∃ outcome, CalibratedEntry CalibrateCase.firstSettings
      (hittingCall count) 0 (CalibrateCase.firstState.addToQueue 1#32 false)
      outcome (hitting count) := by
  have hit : CalibrateCase.countBytes 64 (hitting count) ≠ 0 :=
    Nat.ne_of_gt (List.countP_pos_iff.mpr
      ⟨0, List.mem_range.mpr (by decide), decide_eq_true some⟩)
  obtain ⟨outcome, calibrated, whole⟩ :=
    @CalibrateCase.calibrateCase_whole CalibrateCase.firstSettings
      (hittingCall count) 0 (CalibrateCase.firstState.addToQueue 1#32 false)
      (fun _ => ⟨rfl, rfl, fun _ _ => hit⟩) rfl rfl
  exact ⟨outcome, fun _ => rfl, .inl rfl, calibrated, whole⟩

theorem hitting_mutation (count : BitVec 8) :
    ∃ after, knownState.commonFuzzStuff (hittingCampaign count) 1
        (hittingRun count) = some (false, after) ∧
      after.cksum (hittingCampaign count) = count.setWidth 64 + 1#64 := by
  let received := knownState.afl.receive (hitting count)
  have known : ¬received.BringsNew (hitting count) := by
    rintro ⟨address, _, new⟩
    exact new BitVec.and_zero
  have forgotten : received.compareUnclassified (hittingCampaign count)
      .bits = some (0, received.use .compared 1) := by
    have scan := skim_eq .words64 (fun _ => 0#8) (hitting count)
      received.maps.aligned
    unfold FuzzState.compareUnclassified
    rw [show skim (hittingCampaign count).variant (received.maps.virgin .bits)
      received.maps.traceBits received.maps.mapSize = some 0 from
        scan.trans (congrArg some (if_neg known))]
    rfl
  have saved : received.saveIfInteresting (hittingCampaign count) 1 .ok =
      some (false, received.use .compared 1) := by
    unfold FuzzState.saveIfInteresting
    rw [if_neg (by decide)]
    dsimp only
    rw [if_pos (show RunResult.ok = (hittingCampaign count).crashMode from
      rfl), show received.updateFrequency (hittingCampaign count) =
        (0#64, received) from rfl, forgotten]
    rfl
  refine ⟨{ knownState with afl := received.use .compared 1 }, ?_, rfl⟩
  unfold Fuzzing.commonFuzzStuff
  exact congrArg (Option.map fun saved : Bool × FuzzState =>
    (false, ({ knownState with
      afl := saved.2
      queuedDiscovered := 0 + if saved.1 then 1 else 0 } : Fuzzing))) saved

theorem commonFuzzStuff_recognizes_oneHit :
    ∃ outcome after, CalibratedEntry CalibrateCase.firstSettings
        (hittingCall 1#8) 0 (CalibrateCase.firstState.addToQueue 1#32 false)
        outcome (hitting 1#8) ∧
      knownState.commonFuzzStuff (hittingCampaign 1#8) 1 (hittingRun 1#8) =
        some (false, after) ∧
      (after.cksum (hittingCampaign 1#8) = outcome.afl.execCksum 0 ↔
        FuzzState.Recognized (hittingCampaign 1#8) knownState.afl
          (hittingRun 1#8)) := by
  obtain ⟨outcome, entry⟩ := @hitting_entry 1#8 (by decide)
  obtain ⟨after, goes, _⟩ := hitting_mutation 1#8
  exact ⟨outcome, after, entry, goes,
    (commonFuzzStuff_recognizes_iff rfl (.inl rfl) entry rfl rfl
      Nat.zero_lt_one (fun _ => ⟨fun _ => rfl, fun _ => rfl⟩) goes).1⟩

/-- The entry hits byte 0 three times, and so does the mutated input, which
brings nothing new.  Its raw trace is hashed. -/
theorem commonFuzzStuff_misses_threeHits :
    ∃ outcome after, CalibratedEntry CalibrateCase.firstSettings
        (hittingCall 3#8) 0 (CalibrateCase.firstState.addToQueue 1#32 false)
        outcome (hitting 3#8) ∧
      knownState.commonFuzzStuff (hittingCampaign 3#8) 1 (hittingRun 3#8) =
        some (false, after) ∧
      after.cksum (hittingCampaign 3#8) ≠ outcome.afl.execCksum 0 := by
  obtain ⟨outcome, entry⟩ := @hitting_entry 3#8 (by decide)
  obtain ⟨after, goes, cksum⟩ := hitting_mutation 3#8
  refine ⟨outcome, after, entry, goes, ?_⟩
  have isExec := CalibrateCase.calibrateCase_cksum entry.same entry.brought
    entry.calibrated entry.whole
  rw [cksum, isExec]
  decide

end AFLPlusPlus
