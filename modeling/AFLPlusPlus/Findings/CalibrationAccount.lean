import AFLPlusPlus.Findings.CalibrateCase

/-!
# The account of a calibration

With a hash that tells the traces of a call apart, the variable bytes it notes
are those at which a completed run differs from the first trace.  Then the ways
out of a call: the statistics of a loop that was not aborted, the marks on the
entry, and the stage that is restored.
-/

namespace AFLPlusPlus

namespace CalibrateCase

open CoverageMaps

variable {settings : Settings} {call : Call} {q : Nat} {before afl : State}

/-- The first trace of a call: the one that belongs to the entry's checksum,
else that of the first run. -/
def firstTraceOf (settings : Settings) (call : Call) (q : Nat)
    (before : State) : Buffer :=
  if (resetCksum settings q before).execCksum q ≠ 0#64 then
    before.maps.traceBits
  else call.bucket before.maps.mapSize 0

/-- A trace that a call may meet. -/
def Met (call : Call) (before : State) (trace : Buffer) : Prop :=
  trace = before.maps.traceBits ∨
    ∃ number < calCyclesLong, trace = call.bucket before.maps.mapSize number

/-- The hash tells the traces of a call apart, and none has the value 0 that
stands for no checksum. -/
structure TellsApart (settings : Settings) (call : Call) (before : State) : Prop where
  injective : ∀ first second, Met call before first → Met call before second →
    settings.hash64 first before.maps.mapSize =
      settings.hash64 second before.maps.mapSize →
    ∀ address < before.maps.mapSize, first address = second address
  nonzero : ∀ trace, Met call before trace →
    settings.hash64 trace before.maps.mapSize ≠ 0#64

/-- The checksum of an entry, if it has one, is that of the trace at hand. -/
def Prepared (settings : Settings) (q : Nat) (afl : State) : Prop :=
  afl.execCksum q = 0#64 ∨ afl.execCksum q =
    settings.hash64 afl.maps.traceBits afl.maps.mapSize

/-- The loop after some rounds, with a hash that tells traces apart. -/
structure Noted (settings : Settings) (call : Call) (q : Nat) (before : State)
    (loop : Loop) : Prop where
  unknown : loop.afl.execCksum q = 0#64 → loop.afl.stageCur = 0#32 ∧
    (resetCksum settings q before).execCksum q = 0#64
  cksum : loop.afl.execCksum q ≠ 0#64 → loop.afl.execCksum q =
    settings.hash64 (firstTraceOf settings call q before) before.maps.mapSize
  copied : loop.afl.execCksum q ≠ 0#64 → ∀ address < before.maps.mapSize,
    loop.afl.firstTrace address = firstTraceOf settings call q before address
  noted : ∀ address, loop.afl.varBytes address ≠ 0#8 ↔
    before.varBytes address ≠ 0#8 ∨ (address < before.maps.mapSize ∧
      ∃ number < loop.afl.stageCur.toNat,
        call.bucket before.maps.mapSize number address ≠
          firstTraceOf settings call q before address)

theorem met_firstTraceOf (settings : Settings) (call : Call) (q : Nat)
    (before : State) :
    Met call before (firstTraceOf settings call q before) := by
  unfold firstTraceOf
  split
  · exact .inl rfl
  · exact .inr ⟨0, by decide, rfl⟩

theorem resetCksum_prepared (prepared : Prepared settings q before)
    (known : (resetCksum settings q before).execCksum q ≠ 0#64) :
    (resetCksum settings q before).execCksum q =
      settings.hash64 before.maps.traceBits before.maps.mapSize := by
  unfold resetCksum at known ⊢
  split at known
  · exact absurd (execCksum_setCksum before q 0#64) known
  · rename_i normal
    rw [if_neg normal]
    exact prepared.resolve_left known

theorem resetCksum_maps (settings : Settings) (q : Nat) (before : State) :
    (resetCksum settings q before).maps = before.maps ∧
      (resetCksum settings q before).varBytes = before.varBytes := by
  unfold resetCksum
  split <;> exact ⟨rfl, rfl⟩

theorem openCalibration_noted (call : Call)
    (prepared : Prepared settings q before) :
    Noted settings call q before (openCalibration settings q before) := by
  have cksum : (enterStage settings q (resetCksum settings q
      before)).execCksum q = (resetCksum settings q before).execCksum q := by
    simp [enterStage, State.execCksum]
  obtain ⟨maps, varBytes⟩ := resetCksum_maps settings q before
  have none : ∀ address, before.varBytes address ≠ 0#8 ↔
      before.varBytes address ≠ 0#8 ∨ (address < before.maps.mapSize ∧
        ∃ number < (0#32).toNat,
          call.bucket before.maps.mapSize number address ≠
            firstTraceOf settings call q before address) := by
    simp
  unfold openCalibration
  dsimp only
  rw [cksum]
  split
  · rename_i known
    refine ⟨fun unknown => absurd (cksum.symm.trans unknown) known,
      fun _ => ?_, fun _ address inside => ?_, fun address => ?_⟩
    · rw [firstTraceOf, if_pos known]
      exact cksum.trans (resetCksum_prepared prepared known)
    · rw [firstTraceOf, if_pos known, ← maps]
      rw [← maps] at inside
      exact if_pos inside
    · rw [← none address, ← varBytes]
      rfl
  · rename_i unknown
    have unknown := not_not.mp unknown
    refine ⟨fun _ => ⟨rfl, unknown⟩, fun known => ?_, fun known => ?_,
      fun address => ?_⟩
    · exact absurd (cksum.trans unknown) known
    · exact absurd (cksum.trans unknown) known
    · rw [← none address, ← varBytes]
      rfl

variable {loop : Loop} {outcome : Outcome}

/-- A completed run: with the first trace it changes nothing, otherwise its
differences are noted. -/
theorem compareRun_noted {number : Nat} (apart : TellsApart settings call before)
    (met : number < calCyclesLong) (mapSize : loop.afl.maps.mapSize = before.maps.mapSize)
    (trace : loop.afl.maps.traceBits = (call.run number).trace)
    (stageCur : loop.afl.stageCur.toNat = number)
    (noted : Noted settings call q before loop) :
    let compared := compareRun settings q loop
    compared.afl.execCksum q ≠ 0#64 ∧
      compared.afl.execCksum q = settings.hash64
        (firstTraceOf settings call q before) before.maps.mapSize ∧
      (∀ address < before.maps.mapSize, compared.afl.firstTrace address =
        firstTraceOf settings call q before address) ∧
      ∀ address, compared.afl.varBytes address ≠ 0#8 ↔
        before.varBytes address ≠ 0#8 ∨ (address < before.maps.mapSize ∧
          ∃ earlier < number + 1,
            call.bucket before.maps.mapSize earlier address ≠
              firstTraceOf settings call q before address) := by
  intro compared
  let bucket := call.bucket before.maps.mapSize number
  let first := firstTraceOf settings call q before
  have metBucket : Met call before bucket := .inr ⟨number, met, rfl⟩
  have classified : (loop.afl.classify settings.flavour).maps.traceBits =
      bucket := by
    rw [classify_maps]
    change bucketed loop.afl.maps.mapSize loop.afl.maps.traceBits = _
    rw [mapSize, trace]
    rfl
  have classifiedSize : (loop.afl.classify
      settings.flavour).maps.mapSize = before.maps.mapSize := by
    rw [classify_maps]
    exact mapSize
  have sameMarks : ∀ address, (loop.afl.varBytes address ≠ 0#8 ↔
      before.varBytes address ≠ 0#8 ∨ (address < before.maps.mapSize ∧
        ∃ earlier < number,
          call.bucket before.maps.mapSize earlier address ≠ first address)) := by
    intro address
    rw [← stageCur]
    exact noted.noted address
  have cases := compareRun_cases settings q loop
  dsimp only at cases
  rw [classified, classifiedSize] at cases
  rcases cases with
    ⟨same, result⟩ | ⟨unknown, newBits, result⟩ | ⟨known, newBits, result⟩
  · -- The checksum is that of the first trace, so the run shows that trace.
    have known : loop.afl.execCksum q ≠ 0#64 := by
      rw [same]
      exact apart.nonzero bucket metBucket
    have equal := apart.injective bucket first metBucket
      (met_firstTraceOf settings call q before)
      (same.symm.trans (noted.cksum known))
    have is : compared = _ := result
    rw [is]
    refine ⟨known, noted.cksum known, noted.copied known, fun address => ?_⟩
    refine (sameMarks address).trans ?_
    rw [Nat.exists_lt_succ_right]
    constructor
    · exact Or.imp_right fun ⟨inside, earlier⟩ => ⟨inside, .inl earlier⟩
    · refine Or.imp_right fun ⟨inside, either⟩ => ⟨inside, ?_⟩
      exact either.resolve_right fun differs =>
        differs (equal address inside)
  · -- The first run of an entry without a checksum.
    obtain ⟨start, reset⟩ := noted.unknown unknown
    have zero : number = 0 := by rw [← stageCur, start]; rfl
    have firstIs : first = bucket := by
      change firstTraceOf settings call q before =
        call.bucket before.maps.mapSize number
      rw [firstTraceOf, if_neg (not_not.mpr reset), zero]
    let seen := ((loop.afl.classify settings.flavour).compare settings.flavour).2
    have seenTrace : seen.maps.traceBits = bucket :=
      (compare_traceBits _ _).trans classified
    have seenSize : seen.maps.mapSize = before.maps.mapSize :=
      (compare_mapSize _ _).trans classifiedSize
    have is : compared = _ := result
    have cksum : compared.afl.execCksum q =
        settings.hash64 bucket before.maps.mapSize := by
      rw [is]
      exact execCksum_setCksum seen q _
    refine ⟨cksum ▸ apart.nonzero bucket metBucket, ?_, ?_, fun address => ?_⟩
    · rw [cksum, ← firstIs]
    · intro address inside
      rw [is]
      change (if address < seen.maps.mapSize then seen.maps.traceBits address
        else _) = first address
      rw [seenSize, if_pos inside, seenTrace, firstIs]
    · rw [is]
      refine (sameMarks address).trans ?_
      rw [Nat.exists_lt_succ_right, zero]
      constructor
      · exact Or.imp_right fun ⟨inside, earlier⟩ => ⟨inside, .inl earlier⟩
      · refine Or.imp_right fun ⟨inside, either⟩ => ⟨inside, ?_⟩
        refine either.resolve_right fun differs => differs ?_
        change call.bucket before.maps.mapSize 0 address = first address
        rw [firstIs, ← zero]
  · -- A run with another checksum.
    let seen := ((loop.afl.classify settings.flavour).compare settings.flavour).2
    have seenTrace : seen.maps.traceBits = bucket :=
      (compare_traceBits _ _).trans classified
    have seenSize : seen.maps.mapSize = before.maps.mapSize :=
      (compare_mapSize _ _).trans classifiedSize
    have is : compared = _ := result
    rw [is]
    refine ⟨known, noted.cksum known, noted.copied known, fun address => ?_⟩
    have marks : (seen.markVarBytes.varBytes address ≠ 0#8 ↔
        loop.afl.varBytes address ≠ 0#8 ∨ (address < before.maps.mapSize ∧
          bucket address ≠ first address)) := by
      change (if seen.varies address then 1#8
        else loop.afl.varBytes address) ≠ 0#8 ↔ _
      have varies : seen.varies address = true ↔
          address < before.maps.mapSize ∧ loop.afl.varBytes address = 0#8 ∧
            loop.afl.firstTrace address ≠ bucket address := by
        rw [State.varies, decide_eq_true_iff, seenSize, seenTrace]
        exact Iff.rfl
      by_cases inside : address < before.maps.mapSize
      · rw [noted.copied known address inside] at varies
        by_cases old : loop.afl.varBytes address = 0#8
        · by_cases differs : first address = bucket address
          · have still : ¬seen.varies address = true := fun new =>
              (varies.mp new).2.2 differs
            simp [still, old, differs]
          · have new := varies.mpr ⟨inside, old, differs⟩
            simp [new, inside, Ne.symm differs]
        · have still : ¬seen.varies address = true := fun new =>
            old (varies.mp new).2.1
          simp [still, old]
      · have still : ¬seen.varies address = true := fun new =>
          inside (varies.mp new).1
        simp [still, inside]
    refine marks.trans ?_
    rw [sameMarks address, Nat.exists_lt_succ_right, or_assoc, ← and_or_left]

theorem Noted.round {rounds : Nat} {loop : Loop}
    (apart : TellsApart settings call before)
    (running : Running settings call q before rounds loop)
    (noted : Noted settings call q before loop) :
    Noted settings call q before (calibrationRound settings call q loop) := by
  rcases calibrationRound_cases settings call q loop with
    ⟨_, idle⟩ | ⟨_, _, _, fault, aborts⟩ | ⟨_, left, _, goesOn⟩
  · rw [idle]
    exact noted
  · rw [aborts]
    exact { noted with }
  · let ran := { loop with
      afl := loop.afl.receive (call.run loop.afl.stageCur.toNat).trace
      fault := (call.run loop.afl.stageCur.toNat).fault }
    have met : loop.afl.stageCur.toNat < calCyclesLong :=
      Nat.lt_of_lt_of_le (running.left_iff.mp left)
        (cycles_le settings loop.varDetected)
    have ranFrame : Frame q before ran.afl := running.frame.same_queue rfl rfl rfl
    have ranNoted : Noted settings call q before ran :=
      { noted with }
    obtain ⟨known, cksum, copied, marks⟩ :=
      compareRun_noted apart met ranFrame.mapSize rfl rfl ranNoted
    have ranMarks : Marked before ran.afl :=
      running.marked.keep rfl fun _ blind => blind
    obtain ⟨_, _, _, stageCur, _⟩ :=
      compareRun_running settings ranFrame ranMarks running.stageMax
    have next : ((compareRun settings q ran).afl.stageCur + 1#32).toNat =
        loop.afl.stageCur.toNat + 1 := by
      rw [stageCur]
      exact toNat_next left
    rw [goesOn]
    refine ⟨fun unknown => absurd unknown known, fun _ => cksum,
      fun _ => copied, fun address => ?_⟩
    change (compareRun settings q ran).afl.varBytes address ≠ 0#8 ↔
      before.varBytes address ≠ 0#8 ∨ (address < before.maps.mapSize ∧
        ∃ number < ((compareRun settings q ran).afl.stageCur + 1#32).toNat,
          call.bucket before.maps.mapSize number address ≠
            firstTraceOf settings call q before address)
    rw [next]
    exact marks address

theorem calibrationLoop_noted (apart : TellsApart settings call before)
    (prepared : Prepared settings q before) :
    Noted settings call q before (calibrationLoop settings call q before) :=
  (forRange_invariant (fun _ => calibrationRound settings call q)
    (fun rounds loop => Running settings call q before rounds loop ∧
      Noted settings call q before loop) _
    ⟨openCalibration_running settings call q before,
      openCalibration_noted call prepared⟩ calCyclesLong
    fun _ _ _ both => ⟨both.1.round, both.2.round apart both.1⟩).2

/-- A mark is set on no other entry, is never taken back, and the counter goes
up with it. -/
structure CountedOnce (q : Nat) (mark : Marks → Bool) (before after : State)
    (countBefore countAfter : Nat) : Prop where
  counter : countAfter + (mark (before.marks q)).toNat =
    countBefore + (mark (after.marks q)).toNat
  kept : mark (before.marks q) = true → mark (after.marks q) = true
  others : ∀ other, other ≠ q → mark (after.marks other) = mark (before.marks other)

/-- The account that a call of `calibrate_case` leaves. -/
structure Accounted (settings : Settings) (call : Call) (q : Nat)
    (before : State) (outcome : Outcome) : Prop where
  stageName : outcome.afl.stageName = before.stageName
  stageCur : outcome.afl.stageCur = before.stageCur
  stageMax : outcome.afl.stageMax = before.stageMax
  /-- the runs that count as completed -/
  completes : ∀ number < outcome.completed, call.Completes settings
    before.queue.nonInstrumentedMode before.maps.mapSize number
  /-- the run behind them, if the call was aborted -/
  cut : outcome.aborted = true → ¬call.Completes settings
    before.queue.nonInstrumentedMode before.maps.mapSize outcome.completed
  cycles : outcome.aborted = false → ∃ varDetected,
    outcome.completed = settings.cycles varDetected
  marked : TellsApart settings call before → ∀ address,
    (before.varBytes address = 0#8 ∧ outcome.afl.varBytes address ≠ 0#8 ↔
      before.varBytes address = 0#8 ∧ address < before.maps.mapSize ∧
        ∃ number < outcome.completed,
          call.bucket before.maps.mapSize number address ≠
            firstTraceOf settings call q before address)
  kept : ∀ address, before.varBytes address ≠ 0#8 →
    outcome.afl.varBytes address = before.varBytes address
  blinded : ∀ address, before.varBytes address = 0#8 →
    outcome.afl.varBytes address ≠ 0#8 →
    outcome.afl.maps.virginBits address = 0#8
  covered : CountedOnce q Marks.hasNewCov before outcome.afl
    before.queuedWithCov outcome.afl.queuedWithCov
  varied : CountedOnce q Marks.varBehavior before outcome.afl
    before.queuedVariable outcome.afl.queuedVariable
  aborts : outcome.aborted = true →
    outcome.afl.totalCalUs = before.totalCalUs ∧
      outcome.afl.totalCalCycles = before.totalCalCycles ∧
      outcome.afl.totalBitmapSize = before.totalBitmapSize ∧
      outcome.afl.totalBitmapEntries = before.totalBitmapEntries ∧
      outcome.afl.queue.topRated = before.queue.topRated ∧
      (outcome.afl.queue.queueBuf q).calFailed =
        (before.queue.queueBuf q).calFailed + 1#8
  resets : outcome.aborted = false → (outcome.afl.queue.queueBuf q).calFailed = 0#8
  others : ∀ other, other ≠ q →
    (outcome.afl.queue.queueBuf other).calFailed =
        (before.queue.queueBuf other).calFailed ∧
      (outcome.afl.queue.queueBuf other).execCksum =
        (before.queue.queueBuf other).execCksum
  queuedPaths : outcome.afl.queue.queuedPaths = before.queue.queuedPaths

theorem markNewCov_rest (q newBits : Nat) (afl : State) :
    markNewCov q newBits afl = { afl with
      marks := (markNewCov q newBits afl).marks
      queuedWithCov := (markNewCov q newBits afl).queuedWithCov } := by
  unfold markNewCov
  split <;> rfl

theorem markNewCov_counts (q newBits : Nat) (afl : State) :
    CountedOnce q Marks.hasNewCov afl (markNewCov q newBits afl)
      afl.queuedWithCov (markNewCov q newBits afl).queuedWithCov := by
  unfold markNewCov
  split
  · rename_i new
    refine ⟨?_, fun old => ?_, fun other different => ?_⟩
    · simp [new.2]
    · exact absurd (new.2.symm.trans old) Bool.false_ne_true
    · simp [different]
  · exact ⟨rfl, id, fun _ _ => rfl⟩

theorem markNewCov_varBehavior (q newBits : Nat) (afl : State) (id : Nat) :
    ((markNewCov q newBits afl).marks id).varBehavior =
      (afl.marks id).varBehavior := by
  unfold markNewCov
  split
  · by_cases same : id = q
    · subst same
      simp
    · simp [same]
  · rfl

theorem markVariable_spec {varDetected : Bool} {afl marked : State}
    (result : markVariable call q varDetected afl = some marked) :
    marked = { afl with
      marks := marked.marks
      varByteCount := marked.varByteCount
      queuedVariable := marked.queuedVariable } ∧
    CountedOnce q Marks.varBehavior afl marked afl.queuedVariable
      marked.queuedVariable ∧
    ∀ id, (marked.marks id).hasNewCov = (afl.marks id).hasNewCov := by
  have unmarked : ∀ varByteCount,
      CountedOnce q Marks.varBehavior afl
        { afl with varByteCount := varByteCount } afl.queuedVariable
        afl.queuedVariable :=
    fun _ => ⟨rfl, id, fun _ _ => rfl⟩
  unfold markVariable at result
  cases varDetected with
  | false =>
      obtain rfl := Option.some.inj result
      exact ⟨rfl, unmarked afl.varByteCount, fun _ => rfl⟩
  | true =>
      dsimp only at result
      rw [if_pos rfl] at result
      by_cases new : (afl.marks q).varBehavior = false
      · rw [if_pos new] at result
        cases made : call.linkMade with
        | false =>
            rw [made, if_neg Bool.false_ne_true] at result
            cases result
        | true =>
            rw [made, if_pos rfl] at result
            obtain rfl := Option.some.inj result
            refine ⟨rfl, ⟨?_, fun old => ?_, fun other different => ?_⟩, fun id => ?_⟩
            · simp [new]
            · exact absurd (new.symm.trans old) Bool.false_ne_true
            · simp [different]
            · by_cases same : id = q
              · subst same
                simp
              · simp [same]
      · rw [if_neg new] at result
        obtain rfl := Option.some.inj result
        exact ⟨rfl, unmarked _, fun _ => rfl⟩

theorem bookLoop_marks (call : Call) (q : Nat) (loop : Loop) :
    let booked := bookLoop call q loop
    booked.maps = loop.afl.maps ∧ booked.varBytes = loop.afl.varBytes ∧
      booked.queuedWithCov = loop.afl.queuedWithCov ∧
      booked.queuedVariable = loop.afl.queuedVariable ∧
      ∀ id, (booked.marks id).hasNewCov = (loop.afl.marks id).hasNewCov ∧
        (booked.marks id).varBehavior = (loop.afl.marks id).varBehavior := by
  unfold bookLoop
  split
  · exact ⟨rfl, rfl, rfl, rfl, fun _ => ⟨rfl, rfl⟩⟩
  · refine ⟨rfl, rfl, rfl, rfl, fun id => ?_⟩
    by_cases same : id = q
    · subst same
      simp [bookCalibration]
    · simp [bookCalibration, same]

theorem calibrateCase_eq_some
    (result : calibrateCase settings call q before = some outcome) :
    let loop := calibrationLoop settings call q before
    outcome.aborted = loop.aborted ∧ outcome.completed = loop.afl.stageCur.toNat ∧
      ∃ marked, outcome.afl = restoreStage before marked ∧
        markVariable call q loop.varDetected
          (markNewCov q loop.newBits (bookLoop call q loop)) = some marked := by
  intro loop
  unfold calibrateCase at result
  split at result
  · cases result
  · dsimp only at result
    split at result
    · cases result
    · obtain ⟨marked, isMarked, is⟩ := Option.map_eq_some_iff.mp result
      rw [← is]
      exact ⟨rfl, rfl, marked, rfl, isMarked⟩

theorem updateBitmapScore_traceBits (queue : QueueState) (q : Nat) :
    (queue.updateBitmapScore q).traceBits = queue.traceBits := by
  refine forRange_invariant _
    (fun _ current => current.traceBits = queue.traceBits) queue rfl
    queue.mapSize ?_
  intro index _ current same
  rw [← same]
  unfold QueueState.updateBitmapScoreRound
  split
  · rfl
  · split
    · rfl
    · split <;> rfl

/-- The outcome of a calibration for the queue. -/
def Loop.calibration (call : Call) (q : Nat) (loop : Loop) : Calibration :=
  { trace := loop.afl.maps.traceBits
    execCksum := loop.afl.execCksum q
    execUs := diffUs call loop.afl / loop.afl.stageMax.setWidth 64
    completed := !loop.aborted }

theorem bookLoop_queue (call : Call) (frame : Frame q before loop.afl) :
    { (bookLoop call q loop).queue with
      traceBits := loop.afl.maps.traceBits } =
      before.queue.calibrateCase q (loop.calibration call q) := by
  have executed : { loop.afl.queue with
      traceBits := loop.afl.maps.traceBits } =
      before.queue.executeCase q (loop.calibration call q) := by
    rw [frame.queue]
    rfl
  unfold bookLoop QueueState.calibrateCase
  cases aborted : loop.aborted with
  | true =>
      simp only [Loop.calibration, aborted]
      exact executed
  | false =>
      have booked : (bookCalibration call q loop.afl).queue =
          ((before.queue.executeCase q (loop.calibration call q)).modify q
            fun entry => { entry with
              execUs := (loop.calibration call q).execUs
              calFailed := 0#8 }).updateBitmapScore q := by
        rw [← executed]
        rfl
      have trace : (bookCalibration call q loop.afl).queue.traceBits =
          loop.afl.maps.traceBits :=
        updateBitmapScore_traceBits _ _
      have completed : (loop.calibration call q).completed = true := by
        simp [Loop.calibration, aborted]
      simp only [completed, if_true, ← booked, ← trace]
      rfl

/-- What `calibrateCase` of the queue does to the entries. -/
theorem queue_calibrateCase (queue : QueueState) (q : Nat)
    (calibration : Calibration) :
    (∀ other, other ≠ q →
      ((queue.calibrateCase q calibration).queueBuf other).calFailed =
          (queue.queueBuf other).calFailed ∧
        ((queue.calibrateCase q calibration).queueBuf other).execCksum =
          (queue.queueBuf other).execCksum) ∧
    (queue.calibrateCase q calibration).queuedPaths = queue.queuedPaths ∧
    (calibration.completed = true →
      ((queue.calibrateCase q calibration).queueBuf q).calFailed = 0#8) ∧
    (calibration.completed = false →
      ((queue.calibrateCase q calibration).queueBuf q).calFailed =
          (queue.queueBuf q).calFailed + 1#8 ∧
        (queue.calibrateCase q calibration).topRated = queue.topRated) := by
  have executed : ∀ other, other ≠ q →
      (queue.executeCase q calibration).queueBuf other =
        queue.queueBuf other := fun other different => by
    simp [QueueState.executeCase, QueueState.modify, different]
  cases completed : calibration.completed with
  | false =>
      simp only [QueueState.calibrateCase, completed]
      refine ⟨fun other different => ?_, rfl,
        fun done => (Bool.false_ne_true done).elim, fun _ => ⟨?_, rfl⟩⟩
      · exact ⟨congrArg QueueEntry.calFailed (executed other different),
          congrArg QueueEntry.execCksum (executed other different)⟩
      · simp [QueueState.executeCase]
  | true =>
      simp only [QueueState.calibrateCase, completed, if_true]
      generalize is : (queue.executeCase q calibration).modify q _ = timed
      have same := QueueState.updateBitmapScore_sameQueue timed q
      have entries : ∀ id, ((timed.updateBitmapScore q).queueBuf id).calFailed =
          (timed.queueBuf id).calFailed ∧
          ((timed.updateBitmapScore q).queueBuf id).execCksum =
            (timed.queueBuf id).execCksum := fun id =>
        ⟨(congrArg QueueEntry.calFailed (same.entries id) :),
          (congrArg QueueEntry.execCksum (same.entries id) :)⟩
      refine ⟨fun other different => ?_, ?_, fun _ => ?_,
        fun going => (Bool.false_ne_true going.symm).elim⟩
      · have kept : timed.queueBuf other = queue.queueBuf other := by
          rw [← is, QueueState.modify_queueBuf_of_ne _ _ _ different,
            executed other different]
        rw [(entries other).1, (entries other).2, kept]
        exact ⟨rfl, rfl⟩
      · rw [same.queuedPaths, ← is]
        rfl
      · rw [(entries q).1, ← is, QueueState.modify_queueBuf_self]

/-- Only the marks and the counter matter. -/
theorem CountedOnce.of_same {mark : Marks → Bool}
    {before after first last : State} {countFirst countLast countBefore
      countAfter : Nat}
    (counted : CountedOnce q mark first last countFirst countLast)
    (marksBefore : ∀ id, mark (before.marks id) = mark (first.marks id))
    (marksAfter : ∀ id, mark (after.marks id) = mark (last.marks id))
    (sameBefore : countBefore = countFirst)
    (sameAfter : countAfter = countLast) :
    CountedOnce q mark before after countBefore countAfter where
  counter := by
    rw [sameBefore, sameAfter, marksBefore, marksAfter]
    exact counted.counter
  kept := by
    rw [marksBefore, marksAfter]
    exact counted.kept
  others other different := by
    rw [marksBefore, marksAfter]
    exact counted.others other different

theorem calibrateCase_accounted (prepared : Prepared settings q before)
    (result : calibrateCase settings call q before = some outcome) :
    Accounted settings call q before outcome := by
  obtain ⟨aborted, completed, marked, isMarked, closes⟩ := calibrateCase_eq_some result
  have running := calibrationLoop_running settings call q before
  have noted := fun apart : TellsApart settings call before =>
    calibrationLoop_noted apart prepared
  have finished := calibrationLoop_finished settings call q before
  generalize calibrationLoop settings call q before = loop at *
  obtain ⟨rest, variedCount, variedMarks⟩ := markVariable_spec closes
  have coveredRest := markNewCov_rest q loop.newBits (bookLoop call q loop)
  have coveredCount := markNewCov_counts q loop.newBits (bookLoop call q loop)
  have coveredMarks := markNewCov_varBehavior q loop.newBits (bookLoop call q loop)
  obtain ⟨maps, varBytes, withCov, withVar, marks⟩ := bookLoop_marks call q loop
  have account := running.frame.account
  have marksBefore : loop.afl.marks = before.marks := congrArg Account.marks account
  rw [marksBefore] at marks
  have finalMaps : outcome.afl.maps = loop.afl.maps := by
    rw [isMarked, restoreStage, rest, coveredRest]
    exact maps
  have finalBytes : outcome.afl.varBytes = loop.afl.varBytes := by
    rw [isMarked, restoreStage, rest, coveredRest]
    exact varBytes
  have finalQueue : outcome.afl.queue = (bookLoop call q loop).queue := by
    rw [isMarked, restoreStage, rest, coveredRest]
  have queue := bookLoop_queue call running.frame
  obtain ⟨entries, length, whole, cut⟩ :=
    queue_calibrateCase before.queue q (loop.calibration call q)
  rw [← queue, ← finalQueue] at entries length whole cut
  exact
    { stageName := by rw [isMarked]; rfl
      stageCur := by rw [isMarked]; exact BitVec.ofInt_toInt
      stageMax := by rw [isMarked]; exact BitVec.ofInt_toInt
      completes := by rw [completed]; exact running.completes
      cut := by rw [aborted, completed]; exact running.cut
      cycles := by
        rw [aborted, completed]
        exact fun ended => ⟨loop.varDetected, finished ended⟩
      marked := by
        intro apart address
        rw [finalBytes, completed]
        refine and_congr_right fun old => ?_
        rw [(noted apart).noted address]
        exact or_iff_right (not_not.mpr old)
      kept := by rw [finalBytes]; exact running.marked.kept
      blinded := by rw [finalBytes, finalMaps]; exact running.marked.blinded
      covered := by
        rw [isMarked]
        refine coveredCount.of_same (fun id => (marks id).1.symm)
          variedMarks ?_ (congrArg State.queuedWithCov rest :)
        exact (congrArg Account.queuedWithCov account).symm.trans
          withCov.symm
      varied := by
        rw [isMarked]
        refine variedCount.of_same
          (fun id => (marks id).2.symm.trans (coveredMarks id).symm)
          (fun _ => rfl) ?_ rfl
        rw [coveredRest]
        exact (congrArg Account.queuedVariable account).symm.trans
          withVar.symm
      aborts := by
        rw [aborted]
        intro ended
        obtain ⟨failed, topRated⟩ := cut (by simp [Loop.calibration, ended])
        have jumps : bookLoop call q loop = loop.afl := by
          rw [bookLoop, ended, if_pos rfl]
        rw [isMarked, restoreStage, rest, coveredRest, jumps]
        rw [isMarked, restoreStage, rest, coveredRest, jumps]
          at failed topRated
        exact ⟨congrArg Account.totalCalUs account,
          congrArg Account.totalCalCycles account,
          congrArg Account.totalBitmapSize account,
          congrArg Account.totalBitmapEntries account, topRated, failed⟩
      resets := by
        rw [aborted]
        exact fun ended => whole (by simp [Loop.calibration, ended])
      others := entries
      queuedPaths := length }

end CalibrateCase

end AFLPlusPlus
