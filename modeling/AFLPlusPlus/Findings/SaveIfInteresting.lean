import AFLPlusPlus.Findings.Calibration

/-!
# Unique crashes and hangs

`save_if_interesting` keeps a case whose trace is new to the queue, and counts
a crash or a timeout as unique when its simplified trace is new to the virgin
map of its kind.  Bucketing is put off until a trace needs it, on several ways
to the comparison.
-/

namespace AFLPlusPlus

open CoverageMaps

def keepUniqueHang : Nat := 500

def keepUniqueCrash : Nat := 10000

namespace FuzzState

variable (campaign : Campaign) (afl : FuzzState)

/-- The schedules from `FAST` to `RARE` hash every trace, as it comes from the
target, and count how often they have met it. -/
def updateFrequency : BitVec 64 × FuzzState :=
  if Schedule.fast.number ≤ campaign.schedule.number ∧
      campaign.schedule.number ≤ Schedule.rare.number then
    let hashed := afl.hashTrace campaign
    let slot := hashed.1.toNat % nFuzzSize
    (hashed.1,
      { hashed.2 with
        nFuzz :=
          if afl.nFuzz slot < 0xffffffff#32 then
            Function.update afl.nFuzz slot (afl.nFuzz slot + 1)
          else afl.nFuzz })
  else (0#64, afl)

/-- Add a case with new coverage to the queue and calibrate it.  There is no
result when the target cannot be executed. -/
def keepInteresting (len newBits : Nat) (cksum : BitVec 64) : Option FuzzState :=
  let slot := cksum.toNat % nFuzzSize
  let queued :=
    { afl with
      queuedWithCov := afl.queuedWithCov + if newBits = 2 then 1 else 0
      nFuzz :=
        if cksum ≠ 0#64 then Function.update afl.nFuzz slot 1#32
        else afl.nFuzz }
  let hashed := queued.hashTrace campaign
  let calibrated := hashed.2.calibrateCase campaign
    { len := len
      hasNewCov := decide (newBits = 2)
      varBehavior := false
      execCksum := hashed.1
      nFuzzEntry := if cksum ≠ 0#64 then slot else 0 }
  if calibrated.1 = .error then none
  else
    some { calibrated.2.1 with
      queue := calibrated.2.2 :: calibrated.2.1.queue }

/-- Add one to the counter of a kind of finding. -/
def countUnique : VirginMap → FuzzState
  | .tmout => { afl with uniqueTmouts := afl.uniqueTmouts + 1 }
  | .crash => { afl with uniqueCrashes := afl.uniqueCrashes + 1 }
  | .bits => afl

def noteFinding (finding : Finding) : FuzzState :=
  { afl with findings := afl.findings ++ [finding] }

/-- The test for uniqueness, common to crashes and timeouts below their KEEP
limit: bucket the trace unless that was done, simplify it and compare it. -/
def judge (kind : VirginMap) (classified : Bool) : Bool × FuzzState :=
  let compared :=
    if campaign.nonInstrumentedMode then (1, afl)
    else
      let bucketed := if classified then afl else afl.classifyTrace campaign
      (bucketed.simplify campaign).compareTrace campaign kind
  let unique := decide (compared.1 ≠ 0)
  let counted := if unique then compared.2.countUnique kind else compared.2
  (unique, counted.noteFinding
    { kind := kind
      belowLimit := true
      held := afl.maps.traceBits
      classified := classified
      counted := unique })

/-- A crash or timeout above its KEEP limit. -/
def refuse (kind : VirginMap) (classified : Bool) : FuzzState :=
  afl.noteFinding
    { kind := kind
      belowLimit := false
      held := afl.maps.traceBits
      classified := classified
      counted := false }

/-- The label `keep_as_crash`. -/
def keepAsCrash (classified : Bool) : FuzzState :=
  let total := { afl with totalCrashes := afl.totalCrashes + 1 }
  if keepUniqueCrash ≤ total.uniqueCrashes then
    total.refuse .crash classified
  else (total.judge campaign .crash classified).2

/-- The case `FSRV_RUN_TMOUT`: before a unique timeout is saved as a hang, the
target runs again with a more generous timeout. -/
def saveTmout (classified : Bool) : FuzzState :=
  let total := { afl with totalTmouts := afl.totalTmouts + 1 }
  if keepUniqueHang ≤ total.uniqueHangs then total.refuse .tmout classified
  else
    let judged := total.judge campaign .tmout classified
    if judged.1 = false then judged.2
    else if campaign.execTmout < campaign.hangTmout then
      let ran := judged.2.fuzzRunTarget campaign
      let again := ran.2.classifyTrace campaign
      if ran.1.stopSoon = false ∧ ran.1.fault = .crash then
        again.keepAsCrash campaign
          (classified || !campaign.nonInstrumentedMode)
      else if ran.1.stopSoon ∨ ran.1.fault ≠ .tmout then again
      else { again with uniqueHangs := again.uniqueHangs + 1 }
    else { judged.2 with uniqueHangs := judged.2.uniqueHangs + 1 }

/-- The switch over `fault`. -/
def saveFault (classified : Bool) : RunResult → Option FuzzState
  | .tmout => some (afl.saveTmout campaign classified)
  | .crash => some (afl.keepAsCrash campaign classified)
  | .error => none
  | _ => some afl

/-- `save_if_interesting`: whether the case is kept, and the state after it.
There is no result when the program ends with an error. -/
def saveIfInteresting (len : Nat) (fault : RunResult) : Option (Bool × FuzzState) :=
  if len = 0 then some (false, afl)
  else
    let updated := afl.updateFrequency campaign
    if fault = campaign.crashMode then
      match updated.2.compareUnclassified campaign .bits with
      | none => none
      | some (0, compared) =>
          some (false,
            { compared with
              totalCrashes := compared.totalCrashes +
                if campaign.crashMode ≠ .ok then 1 else 0 })
      | some (newBits, compared) => do
          let kept ←
            compared.keepInteresting campaign len newBits updated.1
          let saved ← kept.saveFault campaign true fault
          some (true, saved)
    else do
      let saved ← updated.2.saveFault campaign false fault
      some (false, saved)

/-- An execution whose case, of `len` bytes, is handed to
`save_if_interesting`. -/
structure Handed where
  len : Nat
  run : TargetRun

def handle (handed : Handed) : Option FuzzState :=
  ((afl.receive handed.run.trace).saveIfInteresting campaign handed.len
    handed.run.fault).map Prod.snd

/-- Executions handed over one after the other. -/
def handleAll : List Handed → FuzzState → Option FuzzState
  | [], afl => some afl
  | handed :: later, afl => do
      let next ← afl.handle campaign handed
      handleAll later next

end FuzzState

end AFLPlusPlus
