import AFLPlusPlus.Coverage.Simplify
import AFLPlusPlus.Coverage.Skim
import AFLPlusPlus.Queue.DryRun

/-!
# Traces between an execution and its verdict

The part of `afl_state_t` that decides about the trace of an execution, with a
history of what happened to that trace: how often it has been bucketed since
the target wrote it, and the uses that were made of it.  `calibrate_case` runs
the target again and so replaces the trace.
-/

namespace AFLPlusPlus

open CoverageMaps

def calCycles : Nat := 8

def calCyclesLong : Nat := 20

def nFuzzSize : Nat := 1 <<< 21

/-- What one execution of the target leaves behind. -/
structure TargetRun where
  fault : RunResult
  trace : Buffer
  /-- `stop_soon`, looked at after the execution -/
  stopSoon : Bool

/-- The settings of a campaign and the target it runs. -/
structure Campaign where
  variant : SkimVariant
  crashMode : RunResult
  nonInstrumentedMode : Bool
  schedule : Schedule
  cmplogMode : Bool
  aflCalFast : Bool
  execTmout : Nat
  hangTmout : Nat
  /-- `hash64` of the trace, with `HASH_CONST` as its seed -/
  hash64 : Buffer → Nat → BitVec 64
  /-- the executions that the fuzzer starts on its own account -/
  target : Nat → TargetRun

/-- The fields of a queue entry that belong to its discovery. -/
structure FoundEntry where
  len : Nat
  hasNewCov : Bool
  varBehavior : Bool
  execCksum : BitVec 64
  nFuzzEntry : Nat

/-- What a trace is used for. -/
inductive TraceUse where
  | compared
  | hashed
  | simplified
  deriving DecidableEq, Repr

/-- A crash or a timeout at the check of its KEEP limit. -/
structure Finding where
  /-- the virgin map for this kind of finding -/
  kind : VirginMap
  /-- whether the limit lets it pass -/
  belowLimit : Bool
  /-- `trace_bits` at this point -/
  held : Buffer
  /-- `classified` at this point -/
  classified : Bool
  /-- whether it was then counted as unique -/
  counted : Bool

/-- The state of the fuzzer, with the history of its traces at the end. -/
structure FuzzState where
  maps : CoverageMaps
  firstTrace : Buffer
  varBytes : Buffer
  nFuzz : Nat → BitVec 32
  /-- the queue, `queue_top` first -/
  queue : List FoundEntry
  queuedWithCov : Nat
  queuedVariable : Nat
  totalCrashes : Nat
  totalTmouts : Nat
  uniqueCrashes : Nat
  uniqueTmouts : Nat
  uniqueHangs : Nat
  /-- executions taken from the target so far -/
  execs : Nat
  /-- how often `trace_bits` has been bucketed since the target wrote it -/
  bucketings : Nat
  uses : List (TraceUse × Nat)
  findings : List Finding

namespace FuzzState

variable (campaign : Campaign) (afl : FuzzState)

def receive (trace : Buffer) : FuzzState :=
  { afl with
    maps := { afl.maps with traceBits := trace }
    bucketings := 0 }

def fuzzRunTarget : TargetRun × FuzzState :=
  let run := campaign.target afl.execs
  (run, { afl.receive run.trace with execs := afl.execs + 1 })

/-- `classify_counts` on the trace. -/
def classifyTrace : FuzzState :=
  { afl with
    maps := classifyCounts campaign.variant.flavour afl.maps
    bucketings := afl.bucketings + 1 }

def use (action : TraceUse) (bucketings : Nat) : FuzzState :=
  { afl with uses := afl.uses ++ [(action, bucketings)] }

/-- `has_new_bits` on the trace. -/
def compareTrace (map : VirginMap) : Nat × FuzzState :=
  let compared := hasNewBits campaign.variant.flavour afl.maps map
  (compared.1, { afl with maps := compared.2 }.use .compared afl.bucketings)

/-- `has_new_bits_unclassified`: `skim` buckets each word before it compares
it, but leaves the trace alone. -/
def compareUnclassified (map : VirginMap) : Option (Nat × FuzzState) :=
  match skim campaign.variant (afl.maps.virgin map) afl.maps.traceBits
      afl.maps.mapSize with
  | none => none
  | some 0 => some (0, afl.use .compared (afl.bucketings + 1))
  | some _ =>
      some (((afl.use .compared (afl.bucketings + 1)).classifyTrace
        campaign).compareTrace campaign map)

/-- `hash64` on the trace. -/
def hashTrace : BitVec 64 × FuzzState :=
  (campaign.hash64 afl.maps.traceBits afl.maps.mapSize, afl.use .hashed afl.bucketings)

/-- `simplify_trace` on the trace. -/
def simplify : FuzzState :=
  { afl with
    maps := simplifyTrace campaign.variant.flavour afl.maps }.use .simplified
      afl.bucketings

/-- `count_bytes` of the trace. -/
def countBytes : Nat :=
  (List.range afl.maps.mapSize).countP fun address =>
    afl.maps.traceBits address ≠ 0#8

/-- The bytes that vary between two executions of one case are noted, and the
map no longer looks for anything in them. -/
def markVarBytes : FuzzState :=
  let varies := fun address =>
    decide (address < afl.maps.mapSize ∧ afl.varBytes address = 0#8 ∧
      afl.firstTrace address ≠ afl.maps.traceBits address)
  { afl with
    varBytes := fun address =>
      if varies address then 1#8 else afl.varBytes address
    maps := { afl.maps with
      virginBits := fun address =>
        if varies address then 0#8 else afl.maps.virginBits address } }

/-- The variables of the calibration loop. -/
structure Calibrating where
  afl : FuzzState
  q : FoundEntry
  stageMax : Nat
  fault : RunResult
  newBits : Nat
  varDetected : Bool
  aborted : Bool

/-- One execution of the calibration loop, if `stage_cur` is still below
`stage_max`. -/
def calibrationRound (stageCur : Nat) (loop : Calibrating) : Calibrating :=
  if loop.aborted ∨ ¬stageCur < loop.stageMax then loop
  else
    let ran := loop.afl.fuzzRunTarget campaign
    if ran.1.stopSoon ∨ ran.1.fault ≠ campaign.crashMode then
      { loop with afl := ran.2, fault := ran.1.fault, aborted := true }
    else if campaign.nonInstrumentedMode = false ∧ stageCur = 0 ∧
        ran.2.countBytes = 0 then
      { loop with afl := ran.2, fault := .noinst, aborted := true }
    else
      let hashed := (ran.2.classifyTrace campaign).hashTrace campaign
      if loop.q.execCksum ≠ hashed.1 then
        let compared := hashed.2.compareTrace campaign .bits
        let newBits := max compared.1 loop.newBits
        if loop.q.execCksum ≠ 0#64 then
          { loop with
            afl := compared.2.markVarBytes
            fault := ran.1.fault
            newBits := newBits
            varDetected := true
            stageMax :=
              if campaign.aflCalFast then calCycles else calCyclesLong }
        else
          { loop with
            afl := { compared.2 with
              firstTrace := compared.2.maps.traceBits }
            q := { loop.q with execCksum := hashed.1 }
            fault := ran.1.fault
            newBits := newBits }
      else { loop with afl := hashed.2, fault := ran.1.fault }

/-- What `calibrate_case` does before its loop. -/
def calibrationStart (q : FoundEntry) : Calibrating :=
  let q := if campaign.cmplogMode then { q with execCksum := 0#64 } else q
  let compared :=
    if q.execCksum ≠ 0#64 then
      { afl with firstTrace := afl.maps.traceBits }.compareTrace campaign .bits
    else (0, afl)
  { afl := compared.2
    q := q
    stageMax := if campaign.aflCalFast then 3 else calCycles
    fault := .ok
    newBits := compared.1
    varDetected := false
    aborted := false }

/-- `calibrate_case` for an entry that was just found.  `stage_max` never
exceeds `CAL_CYCLES_LONG`. -/
def calibrateCase (q : FoundEntry) : RunResult × FuzzState × FoundEntry :=
  let start := afl.calibrationStart campaign q
  let loop := forRange (calibrationRound campaign) calCyclesLong start
  let fault :=
    if loop.aborted = false ∧ campaign.nonInstrumentedMode = false ∧
        start.q.execCksum = 0#64 ∧ loop.fault = .ok ∧ loop.newBits = 0 then
      .nobits
    else loop.fault
  let newCov := loop.newBits = 2 ∧ loop.q.hasNewCov = false
  let newVar := loop.varDetected = true ∧ loop.q.varBehavior = false
  (fault,
    { loop.afl with
      queuedWithCov := loop.afl.queuedWithCov + if newCov then 1 else 0
      queuedVariable := loop.afl.queuedVariable + if newVar then 1 else 0 },
    { loop.q with
      hasNewCov := loop.q.hasNewCov || decide newCov
      varBehavior := loop.q.varBehavior || decide newVar })

/-- Nothing has happened to the findings, their counters and their virgin
maps. -/
structure SameFindings (before after : FuzzState) : Prop where
  mapSize : after.maps.mapSize = before.maps.mapSize
  virginTmout : after.maps.virginTmout = before.maps.virginTmout
  virginCrash : after.maps.virginCrash = before.maps.virginCrash
  findings : after.findings = before.findings
  uniqueCrashes : after.uniqueCrashes = before.uniqueCrashes
  uniqueTmouts : after.uniqueTmouts = before.uniqueTmouts

/-- No trace has been bucketed twice, the one in `trace_bits` included. -/
structure Disciplined (afl : FuzzState) : Prop where
  trace : afl.bucketings ≤ 1
  uses : ∀ use ∈ afl.uses, use.2 ≤ 1

variable {campaign : Campaign} {afl before middle after : FuzzState}

namespace SameFindings

theorem refl (afl : FuzzState) : SameFindings afl afl := ⟨rfl, rfl, rfl, rfl, rfl, rfl⟩

theorem trans (first : SameFindings before middle)
    (second : SameFindings middle after) : SameFindings before after where
  mapSize := second.mapSize.trans first.mapSize
  virginTmout := second.virginTmout.trans first.virginTmout
  virginCrash := second.virginCrash.trans first.virginCrash
  findings := second.findings.trans first.findings
  uniqueCrashes := second.uniqueCrashes.trans first.uniqueCrashes
  uniqueTmouts := second.uniqueTmouts.trans first.uniqueTmouts

theorem receive (afl : FuzzState) (trace : Buffer) :
    SameFindings afl (afl.receive trace) :=
  ⟨rfl, rfl, rfl, rfl, rfl, rfl⟩

theorem fuzzRunTarget (campaign : Campaign) (afl : FuzzState) :
    SameFindings afl (afl.fuzzRunTarget campaign).2 :=
  ⟨rfl, rfl, rfl, rfl, rfl, rfl⟩

theorem classifyTrace (campaign : Campaign) (afl : FuzzState) :
    SameFindings afl (afl.classifyTrace campaign) :=
  ⟨rfl, rfl, rfl, rfl, rfl, rfl⟩

theorem use (afl : FuzzState) (action : TraceUse) (bucketings : Nat) :
    SameFindings afl (afl.use action bucketings) :=
  ⟨rfl, rfl, rfl, rfl, rfl, rfl⟩

theorem hashTrace (campaign : Campaign) (afl : FuzzState) :
    SameFindings afl (afl.hashTrace campaign).2 :=
  ⟨rfl, rfl, rfl, rfl, rfl, rfl⟩

theorem markVarBytes (afl : FuzzState) : SameFindings afl afl.markVarBytes :=
  ⟨rfl, rfl, rfl, rfl, rfl, rfl⟩

theorem compareTrace (campaign : Campaign) (afl : FuzzState) :
    SameFindings afl (afl.compareTrace campaign .bits).2 where
  mapSize := hasNewBits_mapSize campaign.variant.flavour afl.maps .bits
  virginTmout := by
    change (hasNewBits _ _ _).2.virginTmout = _
    rw [hasNewBits_state]
    rfl
  virginCrash := by
    change (hasNewBits _ _ _).2.virginCrash = _
    rw [hasNewBits_state]
    rfl
  findings := rfl
  uniqueCrashes := rfl
  uniqueTmouts := rfl

end SameFindings

namespace Disciplined

theorem receive (holds : Disciplined afl) (trace : Buffer) :
    Disciplined (afl.receive trace) :=
  ⟨Nat.zero_le 1, holds.uses⟩

theorem fuzzRunTarget (holds : Disciplined afl) (campaign : Campaign) :
    Disciplined (afl.fuzzRunTarget campaign).2 :=
  ⟨Nat.zero_le 1, holds.uses⟩

theorem classifyTrace (holds : Disciplined afl) (raw : afl.bucketings = 0)
    (campaign : Campaign) : Disciplined (afl.classifyTrace campaign) :=
  ⟨by rw [FuzzState.classifyTrace, raw], holds.uses⟩

theorem use (holds : Disciplined afl) (action : TraceUse) {bucketings : Nat}
    (once : bucketings ≤ 1) : Disciplined (afl.use action bucketings) := by
  refine ⟨holds.trace, ?_⟩
  intro entry member
  rcases List.mem_append.mp member with old | new
  · exact holds.uses entry old
  · rw [List.mem_singleton.mp new]
    exact once

theorem compareTrace (holds : Disciplined afl) (campaign : Campaign)
    (map : VirginMap) : Disciplined (afl.compareTrace campaign map).2 := by
  have compared : Disciplined
      { afl with maps := (hasNewBits campaign.variant.flavour afl.maps map).2 } :=
    ⟨holds.trace, holds.uses⟩
  exact compared.use .compared holds.trace

theorem hashTrace (holds : Disciplined afl) (campaign : Campaign) :
    Disciplined (afl.hashTrace campaign).2 :=
  holds.use .hashed holds.trace

theorem simplify (holds : Disciplined afl) (campaign : Campaign) :
    Disciplined (afl.simplify campaign) := by
  have simplified : Disciplined
      { afl with
        maps := simplifyTrace campaign.variant.flavour afl.maps } :=
    ⟨holds.trace, holds.uses⟩
  exact simplified.use .simplified holds.trace

end Disciplined

/-- From `before` on, only the queue side of the state has changed, and no
trace has been bucketed twice if none was so before. -/
structure Calm (before after : FuzzState) : Prop where
  same : SameFindings before after
  disciplined : Disciplined before → Disciplined after

theorem Calm.trans (first : Calm before middle) (second : Calm middle after) :
    Calm before after :=
  ⟨first.same.trans second.same, fun holds =>
    second.disciplined (first.disciplined holds)⟩

theorem Calm.refl (afl : FuzzState) : Calm afl afl := ⟨.refl afl, id⟩

theorem compareTrace_calm (campaign : Campaign) (afl : FuzzState) :
    Calm afl (afl.compareTrace campaign .bits).2 :=
  ⟨.compareTrace campaign afl, fun holds => holds.compareTrace campaign .bits⟩

theorem hashTrace_calm (campaign : Campaign) (afl : FuzzState) :
    Calm afl (afl.hashTrace campaign).2 :=
  ⟨.hashTrace campaign afl, fun holds => holds.hashTrace campaign⟩

theorem fuzzRunTarget_calm (campaign : Campaign) (afl : FuzzState) :
    Calm afl (afl.fuzzRunTarget campaign).2 :=
  ⟨.fuzzRunTarget campaign afl, fun holds => holds.fuzzRunTarget campaign⟩

theorem classifyRun_calm (campaign : Campaign) (afl : FuzzState) :
    Calm afl ((afl.fuzzRunTarget campaign).2.classifyTrace campaign) where
  same := (SameFindings.fuzzRunTarget campaign afl).trans
    (.classifyTrace campaign _)
  disciplined := fun holds =>
    (holds.fuzzRunTarget campaign).classifyTrace rfl campaign

theorem calibrationRound_calm (campaign : Campaign) (stageCur : Nat)
    (loop : Calibrating) :
    Calm loop.afl (calibrationRound campaign stageCur loop).afl := by
  have ran := fuzzRunTarget_calm campaign loop.afl
  have hashed := (classifyRun_calm campaign loop.afl).trans
    (hashTrace_calm campaign _)
  have compared := hashed.trans (compareTrace_calm campaign _)
  unfold calibrationRound
  split
  · exact .refl loop.afl
  · dsimp only
    split
    · exact ran
    · split
      · exact ran
      · split
        · split
          · exact compared.trans ⟨.markVarBytes _, fun holds =>
              ⟨holds.trace, holds.uses⟩⟩
          · exact compared.trans ⟨⟨rfl, rfl, rfl, rfl, rfl, rfl⟩, fun holds =>
              ⟨holds.trace, holds.uses⟩⟩
        · exact hashed

theorem calibrationStart_calm (campaign : Campaign) (afl : FuzzState)
    (q : FoundEntry) : Calm afl (afl.calibrationStart campaign q).afl := by
  unfold calibrationStart
  dsimp only
  generalize (if campaign.cmplogMode = true then
    { q with execCksum := 0#64 } else q) = entry
  have noted : Calm afl { afl with firstTrace := afl.maps.traceBits } :=
    ⟨⟨rfl, rfl, rfl, rfl, rfl, rfl⟩, fun holds => ⟨holds.trace, holds.uses⟩⟩
  split
  · exact noted.trans (compareTrace_calm campaign _)
  · exact .refl afl

theorem calibrateCase_calm (campaign : Campaign) (afl : FuzzState)
    (q : FoundEntry) : Calm afl (afl.calibrateCase campaign q).2.1 := by
  have looped := forRange_invariant (calibrationRound campaign)
    (fun _ loop => Calm afl loop.afl) (afl.calibrationStart campaign q)
    (calibrationStart_calm campaign afl q) calCyclesLong
    (fun stageCur _ loop calm =>
      calm.trans (calibrationRound_calm campaign stageCur loop))
  exact looped.trans ⟨⟨rfl, rfl, rfl, rfl, rfl, rfl⟩, fun holds =>
    ⟨holds.trace, holds.uses⟩⟩

end FuzzState

end AFLPlusPlus
