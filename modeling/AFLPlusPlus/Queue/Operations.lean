import AFLPlusPlus.Queue.DryRun

/-!
# Operations on the queue

Everything the fuzzer does to its queue between two looks at it: adding and
calibrating entries, trimming them, the dry run over the initial corpus, culling,
and the end of `fuzz_one`.
-/

namespace AFLPlusPlus

/-- What the fuzzer is configured with. -/
structure QueueSettings where
  mapSize : Nat
  aligned : 8 ∣ mapSize
  bounded : mapSize < 2 ^ 32
  schedule : Schedule
  fixedSeed : Bool
  nonInstrumentedMode : Bool

/-- A queue entry fresh from `ck_alloc`. -/
def blankEntry : QueueEntry :=
  { len := 0#32
    calFailed := 0#8
    wasFuzzed := false
    passedDet := false
    favored := false
    fsRedundant := false
    disabled := false
    fuzzLevel := 0#32
    nFuzzEntry := 0#32
    execUs := 0#64
    execCksum := 0#64
    traceMini := none
    tcRef := 0#32 }

def QueueSettings.start (settings : QueueSettings) : QueueState :=
  { mapSize := settings.mapSize
    aligned := settings.aligned
    bounded := settings.bounded
    schedule := settings.schedule
    fixedSeed := settings.fixedSeed
    nonInstrumentedMode := settings.nonInstrumentedMode
    nFuzz := fun _ => 0#32
    traceBits := fun _ => 0#8
    topRated := fun _ => none
    scoreChanged := false
    queueBuf := fun _ => blankEntry
    queuedPaths := 0
    activePaths := 0
    pendingNotFuzzed := 0
    queuedFavored := 0
    pendingFavored := 0 }

namespace QueueState

def addToQueue (afl : QueueState) (len : BitVec 32) (passedDet : Bool) :
    QueueState :=
  { afl with
    queueBuf := Function.update afl.queueBuf afl.queuedPaths
      { blankEntry with len, passedDet }
    queuedPaths := afl.queuedPaths + 1
    activePaths := afl.activePaths + 1
    pendingNotFuzzed := afl.pendingNotFuzzed + 1 }

/-- The effect of a successful `trim_case`: the length and the trace change. -/
def shortenCase (afl : QueueState) (q : Nat) (len : BitVec 32)
    (trace : Buffer) : QueueState :=
  { afl.modify q fun entry => { entry with len } with traceBits := trace }

/-- The end of a successful `trim_case`. -/
def trimCase (afl : QueueState) (q : Nat) (len : BitVec 32) (trace : Buffer) :
    QueueState :=
  (afl.shortenCase q len trace).updateBitmapScore q

/-- The schedule after a cycle without finds, with `cycle_schedules`. -/
def nextSchedule : Schedule → Schedule
  | .explore => .exploit
  | .exploit => .mmopt
  | .mmopt => .seek
  | .seek => .explore
  | .fast => .coe
  | .coe => .lin
  | .lin => .quad
  | .quad => .rare
  | .rare => .fast

/-- An entry competes again after the schedule has changed. -/
def cycleRound (i : Nat) (afl : QueueState) : QueueState :=
  if (afl.queueBuf i).disabled then afl else afl.updateBitmapScore i

/-- The change of the schedule in the main loop, with `cycle_schedules`. -/
def cycleSchedules (afl : QueueState) : QueueState :=
  forRange cycleRound afl.queuedPaths
    { afl with schedule := nextSchedule afl.schedule }

/-- The bookkeeping for an entry that is fuzzed for the first time. -/
def markFuzzed (afl : QueueState) (queueCur : Nat) : QueueState :=
  { afl.modify queueCur fun entry => { entry with wasFuzzed := true } with
    pendingNotFuzzed := afl.pendingNotFuzzed - 1
    pendingFavored :=
      if (afl.queueBuf queueCur).favored then afl.pendingFavored - 1
      else afl.pendingFavored }

/-- The label `abandon_entry` of `fuzz_one_original`. -/
def abandonEntry (afl : QueueState) (queueCur : Nat) (stopSoon : Bool) :
    QueueState :=
  let entry := afl.queueBuf queueCur
  let counted :=
    if stopSoon = false ∧ entry.calFailed = 0#8 ∧
        (entry.wasFuzzed = false ∨ entry.fuzzLevel = 0#32) ∧
        entry.disabled = false then
      if entry.wasFuzzed = false then afl.markFuzzed queueCur else afl
    else afl
  counted.modify queueCur fun entry =>
    { entry with fuzzLevel := entry.fuzzLevel + 1#32 }

end QueueState

/-- One operation.  The numbers of executions in `n_fuzz`, by which some
schedules compare entries, may change at any time. -/
inductive QueueOp where
  | addToQueue (len : BitVec 32) (passedDet : Bool)
  | execute (trace : Buffer)
  | updateBitmapScore (q : Nat)
  | calibrateCase (q : Nat) (calibration : Calibration)
  | trimCase (q : Nat) (len : BitVec 32) (trace : Buffer)
  | countFuzz (slot value : BitVec 32)
  | assignNFuzzEntry (q : Nat) (slot : BitVec 32)
  | cycleSchedules
  | performDryRun (run : DryRun)
  | cullQueue
  | abandonEntry (queueCur : Nat) (stopSoon : Bool)

namespace QueueState

/-- An operation on an entry of the queue. -/
def onEntry (afl : QueueState) (q : Nat) (change : QueueState → QueueState) :
    QueueState :=
  if q < afl.queuedPaths then change afl else afl

def step : QueueOp → QueueState → Except QueueFailure QueueState
  | .addToQueue len passedDet, afl => .ok (afl.addToQueue len passedDet)
  | .execute trace, afl => .ok { afl with traceBits := trace }
  | .updateBitmapScore q, afl => .ok (afl.onEntry q (·.updateBitmapScore q))
  | .calibrateCase q calibration, afl =>
      .ok (afl.onEntry q (·.calibrateCase q calibration))
  | .trimCase q len trace, afl => .ok (afl.onEntry q (·.trimCase q len trace))
  | .countFuzz slot value, afl =>
      .ok { afl with nFuzz := Function.update afl.nFuzz slot value }
  | .assignNFuzzEntry q slot, afl =>
      .ok (afl.onEntry q (·.modify q fun entry =>
        { entry with nFuzzEntry := slot }))
  | .cycleSchedules, afl => .ok afl.cycleSchedules
  | .performDryRun run, afl => afl.performDryRun run
  | .cullQueue, afl => afl.cullQueue
  | .abandonEntry queueCur stopSoon, afl =>
      .ok (afl.onEntry queueCur (·.abandonEntry queueCur stopSoon))

/-- A sequence of operations, up to the first one that does not return. -/
def run (afl : QueueState) : List QueueOp → Except QueueFailure QueueState
  | [] => .ok afl
  | op :: ops => afl.step op >>= fun next => next.run ops

theorem trimCase_sameProgress (afl : QueueState) (q : Nat) (len : BitVec 32)
    (trace : Buffer) : SameProgress afl (afl.trimCase q len trace) := by
  have shortened : SameProgress afl (afl.shortenCase q len trace) :=
    sameProgress_modify q (fun entry => { entry with len })
      (fun _ => ⟨rfl, rfl, rfl⟩) rfl rfl rfl rfl rfl
  exact shortened.trans (updateBitmapScore_sameQueue _ q).sameProgress

theorem cycleSchedules_sameProgress (afl : QueueState) :
    SameProgress afl afl.cycleSchedules := by
  refine forRange_invariant cycleRound
    (fun _ current => SameProgress afl current) _ ?_ afl.queuedPaths ?_
  · constructor <;> intros <;> rfl
  · intro index _ current same
    unfold cycleRound
    split
    · exact same
    · exact same.trans (updateBitmapScore_sameQueue _ _).sameProgress

end QueueState

end AFLPlusPlus
