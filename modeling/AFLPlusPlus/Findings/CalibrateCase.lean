import AFLPlusPlus.Findings.Calibration

/-!
# Calibrations

`calibrate_case` runs one entry of the queue several times and may leave at
several points.  This file follows its loop, run by run: what it leaves alone,
which runs it completes, and that it ends.
-/

namespace AFLPlusPlus

namespace CalibrateCase

open CoverageMaps

def calTmoutPerc : BitVec 32 := 125#32

def calTmoutAdd : BitVec 32 := 50#32

/-- The settings of the fuzzer that calibration looks at. -/
structure Settings where
  flavour : WordSize
  cmplogMode : Bool
  crashMode : RunResult
  aflCalFast : Bool
  /-- `hash64` of the trace, with `HASH_CONST` as its seed -/
  hash64 : Buffer → Nat → BitVec 64

/-- One call: its arguments, and what the target, the clock and the file
system do meanwhile. -/
structure Call where
  handicap : BitVec 32
  fromQueue : Bool
  resumingFuzz : Bool
  execTmout : BitVec 32
  /-- the executions of the test case under a timeout -/
  target : BitVec 32 → Nat → TargetRun
  startUs : BitVec 64
  stopUs : BitVec 64
  /-- `fsrv_pid` is set -/
  forkServer : Bool
  /-- there is a `cmplog_binary`, but `init_child_func` is not its own -/
  wrongChild : Bool
  /-- `mark_as_variable` can make its link or its file -/
  linkMade : Bool

/-- The fields of a queue entry that are written nowhere but in calibrations
and at its discovery. -/
structure Marks where
  hasNewCov : Bool
  varBehavior : Bool
  bitmapSize : Nat
  handicap : BitVec 32

/-- The part of `afl_state_t` that a calibration reads and writes. -/
structure State where
  maps : CoverageMaps
  queue : QueueState
  marks : Nat → Marks
  firstTrace : Buffer
  varBytes : Buffer
  varByteCount : Nat
  stageName : String
  stageCur : BitVec 32
  stageMax : BitVec 32
  queuedWithCov : Nat
  queuedVariable : Nat
  totalCalUs : BitVec 64
  totalCalCycles : BitVec 64
  totalBitmapSize : Nat
  totalBitmapEntries : Nat

def countBytes (size : Nat) (memory : Buffer) : Nat :=
  (List.range size).countP fun address => memory address ≠ 0#8

/-- `stage_max` of a calibration, without and with an instability. -/
def Settings.cycles (settings : Settings) : Bool → Nat
  | false => if settings.aflCalFast then 3 else calCycles
  | true => if settings.aflCalFast then calCycles else calCyclesLong

def Call.useTmout (call : Call) : BitVec 32 :=
  let added := call.execTmout + calTmoutAdd
  let scaled := call.execTmout * calTmoutPerc / 100#32
  if call.fromQueue = false ∨ call.resumingFuzz = true then
    if scaled < added then added else scaled
  else call.execTmout

def Call.run (call : Call) (number : Nat) : TargetRun :=
  call.target call.useTmout number

namespace State

variable (afl : State) (q : Nat)

/-- `q->exec_cksum` -/
def execCksum : BitVec 64 := (afl.queue.queueBuf q).execCksum

def setCksum (cksum : BitVec 64) : State :=
  { afl with
    queue := afl.queue.modify q fun entry =>
      { entry with execCksum := cksum } }

def receive (trace : Buffer) : State :=
  { afl with maps := { afl.maps with traceBits := trace } }

/-- `classify_counts` -/
def classify (flavour : WordSize) : State :=
  { afl with maps := classifyCounts flavour afl.maps }

/-- `has_new_bits` with `virgin_bits` -/
def compare (flavour : WordSize) : Nat × State :=
  ((hasNewBits flavour afl.maps .bits).1,
    { afl with maps := (hasNewBits flavour afl.maps .bits).2 })

/-- `memcpy` of the trace to `first_trace` -/
def copyTrace : State :=
  { afl with
    firstTrace := fun address =>
      if address < afl.maps.mapSize then afl.maps.traceBits address
      else afl.firstTrace address }

/-- The test in the loop over the map when a run differs from the first. -/
def varies (address : Nat) : Bool :=
  decide (address < afl.maps.mapSize ∧ afl.varBytes address = 0#8 ∧
    afl.firstTrace address ≠ afl.maps.traceBits address)

/-- The loop over the map: variable bytes are noted and taken as fully
discovered. -/
def markVarBytes : State :=
  { afl with
    varBytes := fun address =>
      if afl.varies address then 1#8 else afl.varBytes address
    maps := { afl.maps with
      virginBits := fun address =>
        if afl.varies address then 0#8 else afl.maps.virginBits address } }

end State

/-- The variables of `calibrate_case`. -/
structure Loop where
  afl : State
  fault : RunResult
  newBits : Nat
  varDetected : Bool
  /-- the loop was left for `abort_calibration` -/
  aborted : Bool

variable (settings : Settings) (call : Call) (q : Nat)

def resetCksum (afl : State) : State :=
  if settings.cmplogMode then afl.setCksum q 0#64 else afl

/-- The failure is noted first, and the stage is that of the calibration. -/
def enterStage (afl : State) : State :=
  { afl with
    queue := afl.queue.modify q fun entry =>
      { entry with calFailed := entry.calFailed + 1#8 }
    stageName := "calibration"
    stageMax := BitVec.ofNat 32 (settings.cycles false) }

def openCalibration (afl : State) : Loop :=
  let afl := enterStage settings q (resetCksum settings q afl)
  let compared :=
    if afl.execCksum q ≠ 0#64 then afl.copyTrace.compare settings.flavour
    else (0, afl)
  { afl := { compared.2 with stageCur := 0#32 }
    fault := .ok
    newBits := compared.1
    varDetected := false
    aborted := false }

/-- The rest of a round after an execution that need not be aborted. -/
def compareRun (loop : Loop) : Loop :=
  let afl := loop.afl.classify settings.flavour
  let cksum := settings.hash64 afl.maps.traceBits afl.maps.mapSize
  if afl.execCksum q ≠ cksum then
    let compared := afl.compare settings.flavour
    let newBits := max loop.newBits compared.1
    if afl.execCksum q ≠ 0#64 then
      { loop with
        afl := { compared.2.markVarBytes with
          stageMax := BitVec.ofNat 32 (settings.cycles true) }
        newBits := newBits
        varDetected := true }
    else
      { loop with
        afl := (compared.2.setCksum q cksum).copyTrace
        newBits := newBits }
  else { loop with afl := afl }

/-- One round of the loop, as long as there is one to go. -/
def calibrationRound (loop : Loop) : Loop :=
  if loop.aborted = true ∨ ¬loop.afl.stageCur < loop.afl.stageMax then loop
  else
    let run := call.run loop.afl.stageCur.toNat
    let ran := { loop with
      afl := loop.afl.receive run.trace
      fault := run.fault }
    if run.stopSoon = true ∨ run.fault ≠ settings.crashMode then
      { ran with aborted := true }
    else if loop.afl.queue.nonInstrumentedMode = false ∧ loop.afl.stageCur = 0#32 ∧
        countBytes loop.afl.maps.mapSize run.trace = 0 then
      { ran with fault := .noinst, aborted := true }
    else
      let compared := compareRun settings q ran
      { compared with
        afl := { compared.afl with
          stageCur := compared.afl.stageCur + 1#32 } }

/-- The loop.  `stage_max` is never above `CAL_CYCLES_LONG`. -/
def calibrationLoop (afl : State) : Loop :=
  forRange (fun _ => calibrationRound settings call q) calCyclesLong
    (openCalibration settings q afl)

def diffUs (afl : State) : BitVec 64 :=
  if afl.queue.fixedSeed then
    (call.execTmout - 1#32).setWidth 64 * afl.stageMax.setWidth 64
  else if call.stopUs - call.startUs = 0#64 then 1#64
  else call.stopUs - call.startUs

/-- The statistics after a loop that was not aborted. -/
def bookCalibration (afl : State) : State :=
  let bitmapSize := countBytes afl.maps.mapSize afl.maps.traceBits
  { afl with
    totalCalUs := afl.totalCalUs + diffUs call afl
    totalCalCycles := afl.totalCalCycles + afl.stageMax.setWidth 64
    totalBitmapSize := afl.totalBitmapSize + bitmapSize
    totalBitmapEntries := afl.totalBitmapEntries + 1
    marks := Function.update afl.marks q
      { afl.marks q with
        bitmapSize := bitmapSize
        handicap := call.handicap }
    queue := ({ afl.queue with
      traceBits := afl.maps.traceBits }.modify q fun entry =>
        { entry with
          execUs := diffUs call afl / afl.stageMax.setWidth 64
          calFailed := 0#8 }).updateBitmapScore q }

def bookLoop (loop : Loop) : State :=
  if loop.aborted then loop.afl else bookCalibration call q loop.afl

/-- New coverage, at the label `abort_calibration`. -/
def markNewCov (newBits : Nat) (afl : State) : State :=
  if newBits = 2 ∧ (afl.marks q).hasNewCov = false then
    { afl with
      marks := Function.update afl.marks q
        { afl.marks q with hasNewCov := true }
      queuedWithCov := afl.queuedWithCov + 1 }
  else afl

/-- Variable paths, at the label `abort_calibration`.  `mark_as_variable` ends
the process if it can make neither link nor file. -/
def markVariable (varDetected : Bool) (afl : State) : Option State :=
  if varDetected then
    let counted := { afl with
      varByteCount := countBytes afl.maps.mapSize afl.varBytes }
    if (afl.marks q).varBehavior = false then
      if call.linkMade then
        some { counted with
          marks := Function.update afl.marks q
            { afl.marks q with varBehavior := true }
          queuedVariable := afl.queuedVariable + 1 }
      else none
    else some counted
  else some afl

/-- The fields of the stage as they were.  `old_sc` and `old_sm` are of the
type `s32`. -/
def restoreStage (before afl : State) : State :=
  { afl with
    stageName := before.stageName
    stageCur := BitVec.ofInt 32 before.stageCur.toInt
    stageMax := BitVec.ofInt 32 before.stageMax.toInt }

/-- What a call returns and leaves behind, and how its loop ended. -/
structure Outcome where
  fault : RunResult
  afl : State
  aborted : Bool
  /-- the number of completed runs -/
  completed : Nat

/-- `calibrate_case`, undefined where it ends the process. -/
def calibrateCase (before : State) : Option Outcome :=
  if call.forkServer = false ∧ call.wrongChild = true then none
  else
    let loop := calibrationLoop settings call q before
    let start := openCalibration settings q before
    if loop.aborted = false ∧ loop.afl.stageMax = 0#32 then none
    else
      let fault :=
        if loop.aborted = false ∧ loop.afl.queue.nonInstrumentedMode = false ∧
            start.afl.execCksum q = 0#64 ∧ loop.fault = .ok ∧
            loop.newBits = 0 then .nobits
        else loop.fault
      (markVariable call q loop.varDetected
        (markNewCov q loop.newBits (bookLoop call q loop))).map fun marked =>
          { fault := fault
            afl := restoreStage before marked
            aborted := loop.aborted
            completed := loop.afl.stageCur.toNat }

/-- What a calibration books. -/
structure Account where
  marks : Nat → Marks
  varByteCount : Nat
  queuedWithCov : Nat
  queuedVariable : Nat
  totalCalUs : BitVec 64
  totalCalCycles : BitVec 64
  totalBitmapSize : Nat
  totalBitmapEntries : Nat

def State.account (afl : State) : Account :=
  { marks := afl.marks
    varByteCount := afl.varByteCount
    queuedWithCov := afl.queuedWithCov
    queuedVariable := afl.queuedVariable
    totalCalUs := afl.totalCalUs
    totalCalCycles := afl.totalCalCycles
    totalBitmapSize := afl.totalBitmapSize
    totalBitmapEntries := afl.totalBitmapEntries }

/-- The entry during its calibration. -/
def pendingEntry (cksum : BitVec 64) (entry : QueueEntry) : QueueEntry :=
  { entry with
    calFailed := entry.calFailed + 1#8
    execCksum := cksum }

/-- Nothing is booked, and the entry's checksum is all that changes in the
queue once its failure is noted. -/
structure Frame (q : Nat) (before afl : State) : Prop where
  mapSize : afl.maps.mapSize = before.maps.mapSize
  queue : afl.queue = before.queue.modify q (pendingEntry (afl.execCksum q))
  account : afl.account = before.account

/-- Variable bytes only become more, within the map, and nothing is looked for
in those that are new. -/
structure Marked (before afl : State) : Prop where
  kept : ∀ address, before.varBytes address ≠ 0#8 →
    afl.varBytes address = before.varBytes address
  outside : ∀ address, before.maps.mapSize ≤ address →
    afl.varBytes address = before.varBytes address
  blinded : ∀ address, before.varBytes address = 0#8 →
    afl.varBytes address ≠ 0#8 → afl.maps.virginBits address = 0#8

variable {settings call q} {before afl : State}

theorem modify_modify (queue : QueueState) (id : Nat)
    (first second : QueueEntry → QueueEntry) :
    (queue.modify id first).modify id second = queue.modify id (second ∘ first) := by
  simp [QueueState.modify]

theorem modify_congr {queue : QueueState} {id : Nat}
    {first second : QueueEntry → QueueEntry}
    (same : first (queue.queueBuf id) = second (queue.queueBuf id)) :
    queue.modify id first = queue.modify id second := by
  simp [QueueState.modify, same]

theorem execCksum_setCksum (afl : State) (q : Nat) (cksum : BitVec 64) :
    (afl.setCksum q cksum).execCksum q = cksum := by
  simp [State.setCksum, State.execCksum]

theorem Frame.setCksum (frame : Frame q before afl) (cksum : BitVec 64) :
    Frame q before (afl.setCksum q cksum) where
  mapSize := frame.mapSize
  queue := by
    rw [execCksum_setCksum, State.setCksum, frame.queue, modify_modify]
    rfl
  account := frame.account

theorem Frame.same_queue (frame : Frame q before afl) {next : State}
    (mapSize : next.maps.mapSize = afl.maps.mapSize)
    (queue : next.queue = afl.queue) (account : next.account = afl.account) :
    Frame q before next where
  mapSize := mapSize.trans frame.mapSize
  queue := by
    have cksum : next.execCksum q = afl.execCksum q := by
      rw [State.execCksum, queue, State.execCksum]
    rw [queue, cksum]
    exact frame.queue
  account := account.trans frame.account

theorem compare_mapSize (afl : State) (flavour : WordSize) :
    (afl.compare flavour).2.maps.mapSize = afl.maps.mapSize :=
  hasNewBits_mapSize flavour afl.maps .bits

theorem compare_traceBits (afl : State) (flavour : WordSize) :
    (afl.compare flavour).2.maps.traceBits = afl.maps.traceBits :=
  hasNewBits_traceBits flavour afl.maps .bits

theorem compare_blind (afl : State) (flavour : WordSize) {address : Nat}
    (blind : afl.maps.virginBits address = 0#8) :
    (afl.compare flavour).2.maps.virginBits address = 0#8 := by
  have cleared : (afl.compare flavour).2.maps.virginBits =
      clearSeen afl.maps.mapSize afl.maps.traceBits afl.maps.virginBits :=
    hasNewBits_virgin flavour afl.maps .bits
  rw [cleared]
  simp [clearSeen, blind]

theorem classify_maps (afl : State) (flavour : WordSize) :
    (afl.classify flavour).maps = { afl.maps with
      traceBits := bucketed afl.maps.mapSize afl.maps.traceBits } :=
  classifyCounts_eq flavour afl.maps

theorem Marked.refl (afl : State) : Marked afl afl :=
  ⟨fun _ _ => rfl, fun _ _ => rfl, fun _ zero marked => absurd zero marked⟩

theorem Marked.keep (marked : Marked before afl) {next : State}
    (varBytes : next.varBytes = afl.varBytes)
    (blind : ∀ address, afl.maps.virginBits address = 0#8 →
      next.maps.virginBits address = 0#8) : Marked before next where
  kept := by simpa [varBytes] using marked.kept
  outside := by simpa [varBytes] using marked.outside
  blinded address zero new :=
    blind address (marked.blinded address zero (by rwa [varBytes] at new))

theorem Marked.markVarBytes (marked : Marked before afl)
    (mapSize : afl.maps.mapSize = before.maps.mapSize) :
    Marked before afl.markVarBytes where
  kept address old := by
    have same := marked.kept address old
    have still : afl.varies address = false := by
      simp [State.varies, same, old]
    simp [State.markVarBytes, still, same]
  outside address beyond := by
    have still : afl.varies address = false := by
      simp [State.varies, mapSize, beyond]
    simp [State.markVarBytes, still, marked.outside address beyond]
  blinded address zero new := by
    by_cases varies : afl.varies address = true
    · simp [State.markVarBytes, varies]
    · simp only [State.markVarBytes, varies] at new ⊢
      exact marked.blinded address zero (by simpa using new)

def Call.bucket (call : Call) (size number : Nat) : Buffer :=
  bucketed size (call.run number).trace

/-- A run after which the calibration goes on. -/
structure Call.Completes (call : Call) (settings : Settings)
    (nonInstrumented : Bool) (size number : Nat) : Prop where
  going : (call.run number).stopSoon = false
  fault : (call.run number).fault = settings.crashMode
  instrumented : nonInstrumented = false → number = 0 →
    countBytes size (call.run number).trace ≠ 0

theorem compareRun_cases (settings : Settings) (q : Nat) (loop : Loop) :
    let classified := loop.afl.classify settings.flavour
    let cksum := settings.hash64 classified.maps.traceBits
      classified.maps.mapSize
    let compared := (classified.compare settings.flavour).2
    (loop.afl.execCksum q = cksum ∧
      compareRun settings q loop = { loop with afl := classified }) ∨
    (loop.afl.execCksum q = 0#64 ∧ ∃ newBits, compareRun settings q loop =
      { loop with
        afl := (compared.setCksum q cksum).copyTrace
        newBits := newBits }) ∨
    (loop.afl.execCksum q ≠ 0#64 ∧ ∃ newBits, compareRun settings q loop =
      { loop with
        afl := { compared.markVarBytes with
          stageMax := BitVec.ofNat 32 (settings.cycles true) }
        newBits := newBits
        varDetected := true }) := by
  intro classified cksum compared
  let newBits := max loop.newBits (classified.compare settings.flavour).1
  by_cases differs : loop.afl.execCksum q ≠ cksum
  · by_cases known : loop.afl.execCksum q ≠ 0#64
    · refine .inr (.inr ⟨known, newBits, ?_⟩)
      exact (if_pos differs).trans (if_pos known)
    · refine .inr (.inl ⟨not_not.mp known, newBits, ?_⟩)
      exact (if_pos differs).trans (if_neg known)
  · exact .inl ⟨not_not.mp differs, if_neg differs⟩

theorem calibrationRound_cases (settings : Settings) (call : Call) (q : Nat)
    (loop : Loop) :
    let run := call.run loop.afl.stageCur.toNat
    let ran := { loop with
      afl := loop.afl.receive run.trace
      fault := run.fault }
    let compared := compareRun settings q ran
    let completes := call.Completes settings
      loop.afl.queue.nonInstrumentedMode loop.afl.maps.mapSize
      loop.afl.stageCur.toNat
    ((loop.aborted = true ∨ ¬loop.afl.stageCur < loop.afl.stageMax) ∧
      calibrationRound settings call q loop = loop) ∨
    (loop.aborted = false ∧ loop.afl.stageCur < loop.afl.stageMax ∧
      ¬completes ∧ ∃ fault, calibrationRound settings call q loop =
        { ran with fault := fault, aborted := true }) ∨
    (loop.aborted = false ∧ loop.afl.stageCur < loop.afl.stageMax ∧
      completes ∧ calibrationRound settings call q loop =
        { compared with
          afl := { compared.afl with
            stageCur := compared.afl.stageCur + 1#32 } }) := by
  intro run ran compared completes
  unfold calibrationRound
  by_cases rests : loop.aborted = true ∨ ¬loop.afl.stageCur < loop.afl.stageMax
  · exact .inl ⟨rests, if_pos rests⟩
  · rw [if_neg rests]
    obtain ⟨going, left⟩ := not_or.mp rests
    have going : loop.aborted = false := Bool.eq_false_iff.mpr going
    have left : loop.afl.stageCur < loop.afl.stageMax := not_not.mp left
    by_cases fails : run.stopSoon = true ∨ run.fault ≠ settings.crashMode
    · refine .inr (.inl ⟨going, left, ?_, _, if_pos fails⟩)
      intro completed
      rcases fails with stopped | faulty
      · exact absurd (completed.going.symm.trans stopped) (by decide)
      · exact faulty completed.fault
    · dsimp only
      rw [if_neg fails]
      obtain ⟨running, fault⟩ := not_or.mp fails
      by_cases empty : loop.afl.queue.nonInstrumentedMode = false ∧
          loop.afl.stageCur = 0#32 ∧
          countBytes loop.afl.maps.mapSize run.trace = 0
      · refine .inr (.inl ⟨going, left, ?_, _, if_pos empty⟩)
        obtain ⟨instrumented, first, none⟩ := empty
        intro completed
        exact completed.instrumented instrumented (by rw [first]; rfl) none
      · refine .inr (.inr ⟨going, left, ?_, if_neg empty⟩)
        refine ⟨Bool.eq_false_iff.mpr running, not_not.mp fault, ?_⟩
        intro instrumented first none
        exact empty ⟨instrumented, BitVec.eq_of_toNat_eq first, none⟩

theorem cycles_pos (settings : Settings) (varDetected : Bool) :
    0 < settings.cycles varDetected := by
  cases varDetected <;> cases fast : settings.aflCalFast <;>
    simp [Settings.cycles, fast, calCycles, calCyclesLong]

theorem cycles_le (settings : Settings) (varDetected : Bool) :
    settings.cycles varDetected ≤ calCyclesLong := by
  cases varDetected <;> cases fast : settings.aflCalFast <;>
    simp [Settings.cycles, fast, calCycles, calCyclesLong]

theorem cycles_le_unstable (settings : Settings) (varDetected : Bool) :
    settings.cycles varDetected ≤ settings.cycles true := by
  cases varDetected <;> cases fast : settings.aflCalFast <;>
    simp [Settings.cycles, fast, calCycles, calCyclesLong]

theorem toNat_cycles (settings : Settings) (varDetected : Bool) :
    (BitVec.ofNat 32 (settings.cycles varDetected)).toNat =
      settings.cycles varDetected := by
  have bounded : settings.cycles varDetected ≤ 20 := cycles_le settings varDetected
  rw [BitVec.toNat_ofNat]
  exact Nat.mod_eq_of_lt (by omega)

theorem Frame.nonInstrumentedMode (frame : Frame q before afl) :
    afl.queue.nonInstrumentedMode = before.queue.nonInstrumentedMode := by
  rw [frame.queue]
  rfl

/-- The loop after some rounds, whatever the checksums say. -/
structure Running (settings : Settings) (call : Call) (q : Nat)
    (before : State) (rounds : Nat) (loop : Loop) : Prop where
  frame : Frame q before loop.afl
  marked : Marked before loop.afl
  stageMax : loop.afl.stageMax = BitVec.ofNat 32 (settings.cycles loop.varDetected)
  within : loop.afl.stageCur.toNat ≤ settings.cycles loop.varDetected
  completes : ∀ number < loop.afl.stageCur.toNat, call.Completes settings
    before.queue.nonInstrumentedMode before.maps.mapSize number
  cut : loop.aborted = true → ¬call.Completes settings
    before.queue.nonInstrumentedMode before.maps.mapSize
    loop.afl.stageCur.toNat
  counted : loop.aborted = false →
    loop.afl.stageCur.toNat < settings.cycles loop.varDetected →
    loop.afl.stageCur.toNat = rounds

theorem enterStage_frame (settings : Settings) (q : Nat) (afl : State) :
    Frame q afl (enterStage settings q afl) where
  mapSize := rfl
  queue := by
    have cksum : (enterStage settings q afl).execCksum q = afl.execCksum q := by
      simp [enterStage, State.execCksum]
    rw [cksum]
    change afl.queue.modify q (fun entry =>
      { entry with calFailed := entry.calFailed + 1#8 }) = _
    exact modify_congr rfl
  account := rfl

theorem Frame.of_setCksum {cksum : BitVec 64}
    (frame : Frame q (before.setCksum q cksum) afl) : Frame q before afl where
  mapSize := frame.mapSize
  queue := by
    rw [frame.queue, State.setCksum, modify_modify]
    rfl
  account := frame.account

theorem resetCksum_frame
    (frame : Frame q (resetCksum settings q before) afl) :
    Frame q before afl := by
  unfold resetCksum at frame
  split at frame
  · exact frame.of_setCksum
  · exact frame

theorem openCalibration_running (settings : Settings) (call : Call) (q : Nat)
    (before : State) :
    Running settings call q before 0 (openCalibration settings q before) := by
  have frame := resetCksum_frame
    (enterStage_frame settings q (resetCksum settings q before))
  have marked : Marked before
      (enterStage settings q (resetCksum settings q before)) := by
    unfold resetCksum
    split <;> exact (Marked.refl before).keep rfl fun _ blind => blind
  have outOf : ∀ next : State, next.stageMax =
      BitVec.ofNat 32 (settings.cycles false) → Frame q before next →
      Marked before next → ∀ newBits, Running settings call q before 0
        { afl := { next with stageCur := 0#32 }
          fault := .ok
          newBits := newBits
          varDetected := false
          aborted := false } := by
    intro next stageMax nextFrame nextMarked newBits
    exact
      { frame := nextFrame.same_queue rfl rfl rfl
        marked := nextMarked.keep rfl fun _ blind => blind
        stageMax := stageMax
        within := Nat.zero_le _
        completes := fun _ below => absurd below (Nat.not_lt_zero _)
        cut := fun aborted => (Bool.false_ne_true aborted).elim
        counted := fun _ _ => rfl }
  unfold openCalibration
  dsimp only
  split
  · exact outOf ((enterStage settings q
        (resetCksum settings q before)).copyTrace.compare settings.flavour).2
      rfl (frame.same_queue (compare_mapSize _ _) rfl rfl)
      (marked.keep rfl fun _ blind => compare_blind _ _ blind) _
  · exact outOf _ rfl frame marked _

theorem compareRun_running (settings : Settings) {loop : Loop} (frame : Frame q before loop.afl)
    (marked : Marked before loop.afl)
    (stageMax : loop.afl.stageMax =
      BitVec.ofNat 32 (settings.cycles loop.varDetected)) :
    let compared := compareRun settings q loop
    Frame q before compared.afl ∧ Marked before compared.afl ∧
      compared.afl.stageMax = BitVec.ofNat 32 (settings.cycles compared.varDetected) ∧
      compared.afl.stageCur = loop.afl.stageCur ∧
      compared.aborted = loop.aborted ∧
      settings.cycles loop.varDetected ≤ settings.cycles compared.varDetected := by
  intro compared
  have mapSize : (loop.afl.classify settings.flavour).maps.mapSize =
      loop.afl.maps.mapSize := by rw [classify_maps]
  have virginBits : (loop.afl.classify settings.flavour).maps.virginBits =
      loop.afl.maps.virginBits := by rw [classify_maps]
  have classified : Frame q before (loop.afl.classify settings.flavour) :=
    frame.same_queue mapSize rfl rfl
  have classifiedMarks : Marked before (loop.afl.classify settings.flavour) :=
    marked.keep rfl fun address blind => by rwa [virginBits]
  have seen := classified.same_queue
    (compare_mapSize (loop.afl.classify settings.flavour) settings.flavour)
    rfl rfl
  have seenMarks : Marked before ((loop.afl.classify
      settings.flavour).compare settings.flavour).2 :=
    classifiedMarks.keep rfl fun _ blind => compare_blind _ _ blind
  rcases compareRun_cases settings q loop with
    ⟨_, same⟩ | ⟨_, newBits, first⟩ | ⟨_, newBits, varied⟩
  · have is : compared = _ := same
    rw [is]
    exact ⟨classified, classifiedMarks, stageMax, rfl, rfl, Nat.le_refl _⟩
  · have is : compared = _ := first
    rw [is]
    exact ⟨(seen.setCksum _).same_queue rfl rfl rfl,
      seenMarks.keep rfl fun _ blind => blind, stageMax, rfl, rfl,
      Nat.le_refl _⟩
  · have is : compared = _ := varied
    rw [is]
    exact ⟨seen.same_queue rfl rfl rfl,
      (seenMarks.markVarBytes seen.mapSize).keep rfl fun _ blind => blind,
      rfl, rfl, rfl, cycles_le_unstable settings loop.varDetected⟩

theorem toNat_next {stageCur stageMax : BitVec 32}
    (left : stageCur < stageMax) :
    (stageCur + 1#32).toNat = stageCur.toNat + 1 := by
  have below := BitVec.lt_def.mp left
  have inside := stageMax.isLt
  rw [BitVec.toNat_add]
  exact Nat.mod_eq_of_lt (by simp only [BitVec.toNat_ofNat]; omega)

theorem Running.left_iff {rounds : Nat} {loop : Loop}
    (running : Running settings call q before rounds loop) :
    loop.afl.stageCur < loop.afl.stageMax ↔
      loop.afl.stageCur.toNat < settings.cycles loop.varDetected := by
  rw [BitVec.lt_def, running.stageMax, toNat_cycles]

theorem Running.round {rounds : Nat} {loop : Loop}
    (running : Running settings call q before rounds loop) :
    Running settings call q before (rounds + 1)
      (calibrationRound settings call q loop) := by
  rcases calibrationRound_cases settings call q loop with
    ⟨rests, idle⟩ | ⟨going, left, cut, fault, aborts⟩ |
    ⟨going, left, completes, goesOn⟩
  · rw [idle]
    refine { running with counted := ?_ }
    intro goes below
    rcases rests with aborted | done
    · exact absurd (goes.symm.trans aborted) Bool.false_ne_true
    · exact absurd (running.left_iff.mpr below) done
  · rw [running.frame.nonInstrumentedMode, running.frame.mapSize] at cut
    rw [aborts]
    exact { running with
      frame := running.frame.same_queue rfl rfl rfl
      marked := running.marked.keep rfl fun _ blind => blind
      cut := fun _ => cut
      counted := fun goes => absurd goes.symm Bool.false_ne_true }
  · rw [running.frame.nonInstrumentedMode, running.frame.mapSize] at completes
    let ran := { loop with
      afl := loop.afl.receive (call.run loop.afl.stageCur.toNat).trace
      fault := (call.run loop.afl.stageCur.toNat).fault }
    have ranFrame : Frame q before ran.afl := running.frame.same_queue rfl rfl rfl
    have ranMarks : Marked before ran.afl :=
      running.marked.keep rfl fun _ blind => blind
    obtain ⟨frame, marked, stageMax, stageCur, aborted, longer⟩ :=
      compareRun_running settings ranFrame ranMarks running.stageMax
    have below := running.left_iff.mp left
    have next : ((compareRun settings q ran).afl.stageCur + 1#32).toNat =
        loop.afl.stageCur.toNat + 1 := by
      rw [stageCur]
      exact toNat_next left
    rw [goesOn]
    exact
      { frame := frame.same_queue rfl rfl rfl
        marked := marked.keep rfl fun _ blind => blind
        stageMax := stageMax
        within := by
          change ((compareRun settings q ran).afl.stageCur + 1#32).toNat ≤ _
          rw [next]
          exact Nat.le_trans below longer
        completes := by
          intro number inside
          change number < ((compareRun settings q ran).afl.stageCur +
            1#32).toNat at inside
          rw [next] at inside
          rcases Nat.lt_succ_iff_lt_or_eq.mp inside with earlier | last
          · exact running.completes number earlier
          · rw [last]
            exact completes
        cut := fun cut =>
          absurd ((aborted.trans going).symm.trans cut) Bool.false_ne_true
        counted := by
          intro _ _
          change ((compareRun settings q ran).afl.stageCur + 1#32).toNat = _
          rw [next, running.counted going below] }

theorem calibrationLoop_running (settings : Settings) (call : Call) (q : Nat)
    (before : State) :
    Running settings call q before calCyclesLong
      (calibrationLoop settings call q before) :=
  forRange_invariant (fun _ => calibrationRound settings call q)
    (fun rounds loop => Running settings call q before rounds loop) _
    (openCalibration_running settings call q before) calCyclesLong
    fun _ _ _ running => running.round

theorem calibrationLoop_finished (settings : Settings) (call : Call) (q : Nat)
    (before : State)
    (finished : (calibrationLoop settings call q before).aborted = false) :
    (calibrationLoop settings call q before).afl.stageCur.toNat =
      settings.cycles
        (calibrationLoop settings call q before).varDetected := by
  have running := calibrationLoop_running settings call q before
  by_contra different
  have below := Nat.lt_of_le_of_ne running.within different
  have all := running.counted finished below
  have bounded := cycles_le settings
    (calibrationLoop settings call q before).varDetected
  omega

end CalibrateCase

end AFLPlusPlus
