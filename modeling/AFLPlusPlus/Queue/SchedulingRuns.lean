import AFLPlusPlus.Findings.CalibrationMeasures
import AFLPlusPlus.Findings.CalibrationRuns
import AFLPlusPlus.Queue.Scheduling

/-!
# Scheduling in a session

Entries are added, calibrated and disabled in any order, and the scheduler rates
whatever is active.  It divides safely if every active entry has gone through a
whole calibration that has measured something.
-/

namespace AFLPlusPlus

open CalibrateCase

/-- A session: the fuzzer, whether the dry run is over, and which entries have
gone through a whole calibration.  The last is not part of the program. -/
structure FuzzSession where
  afl : State
  started : Bool
  calibrated : Nat → Bool

/-- A step of a session. -/
inductive FuzzStep where
  | addToQueue (len : BitVec 32) (passedDet : Bool)
  /-- `calibrate_case`, for a caller that may set the checksum first -/
  | calibrate (q : Nat) (cksum : Option (BitVec 64)) (call : Call)
  /-- an entry that the dry run rejects -/
  | disable (q : Nat)
  /-- the checks after the dry run -/
  | start
  /-- `create_alias_table` with what it calls, or `input_to_state_stage` -/
  | schedule (view : ScoreView)
  /-- everything else: the state that it leaves, apart from the measures -/
  | elsewhere (world : State)

namespace CalibrateCase.State

theorem maps_aligned (afl : State) : 64 ∣ afl.maps.mapSize := afl.maps.aligned

theorem queue_aligned (afl : State) : 8 ∣ afl.queue.mapSize := afl.queue.aligned

theorem queue_bounded (afl : State) : afl.queue.mapSize < 2 ^ 32 := afl.queue.bounded

/-- What is no calibration and not the dry run leaves alone what calibrations
measure, and which entries are disabled. -/
def keepMeasures (world afl : State) : State :=
  { world with
    maps := { world.maps with
      mapSize := afl.maps.mapSize
      aligned := afl.maps_aligned }
    queue := { world.queue with
      mapSize := afl.queue.mapSize
      aligned := afl.queue_aligned
      bounded := afl.queue_bounded
      queuedPaths := afl.queue.queuedPaths
      queueBuf := fun id =>
        { world.queue.queueBuf id with
          execUs := (afl.queue.queueBuf id).execUs
          disabled := (afl.queue.queueBuf id).disabled } }
    marks := fun id =>
      { world.marks id with bitmapSize := (afl.marks id).bitmapSize }
    totalCalUs := afl.totalCalUs
    totalCalCycles := afl.totalCalCycles
    totalBitmapSize := afl.totalBitmapSize
    totalBitmapEntries := afl.totalBitmapEntries }

/-- The checksum that a caller sets before the calibration. -/
def prepare (afl : State) (q : Nat) : Option (BitVec 64) → State
  | none => afl
  | some cksum => afl.setCksum q cksum

/-- The handicaps after all active entries have been rated. -/
def ageHandicaps (afl : State) (view : ScoreView) : State :=
  { afl with
    marks := fun id =>
      if id ∈ afl.active then
        { afl.marks id with
          handicap := (afl.scoredEntry view id).handicapLeft.setWidth 32 }
      else afl.marks id }

end CalibrateCase.State

namespace FuzzSession

variable (settings : Settings)

def step (op : FuzzStep) (session : FuzzSession) : Option FuzzSession :=
  match op with
  | .addToQueue len passedDet =>
      some { session with afl := session.afl.addToQueue len passedDet }
  | .calibrate q cksum call =>
      if q < session.afl.queue.queuedPaths then
        (calibrateCase settings call q (session.afl.prepare q cksum)).map
          fun outcome => { session with
            afl := outcome.afl
            calibrated :=
              if outcome.aborted then session.calibrated
              else Function.update session.calibrated q true }
      else none
  | .disable q =>
      if session.started then none
      else some { session with
        afl := { session.afl with
          queue := session.afl.queue.disableEntry q } }
  | .start =>
      if session.afl.queue.pendingNotFuzzed = 0 ∨ session.afl.active = [] then
        none
      else some { session with started := true }
  | .schedule view =>
      some { session with afl := session.afl.ageHandicaps view }
  | .elsewhere world =>
      some { session with afl := State.keepMeasures world session.afl }

/-- A calibration that is not aborted takes a microsecond for each of its runs,
and its last run leaves a trace. -/
def Measuring (call : Call) (q : Nat) (before : State) : Prop :=
  let loop := calibrationLoop settings call q before
  loop.aborted = false →
    loop.afl.stageMax.setWidth 64 ≤ diffUs call loop.afl ∧
      countBytes before.maps.mapSize loop.afl.maps.traceBits ≠ 0

/-- The scheduler is called after the dry run, with calibrated entries only. -/
structure Ready (session : FuzzSession) (view : ScoreView) : Prop where
  started : session.started = true
  calibrated : ∀ id ∈ session.afl.active, session.calibrated id = true
  few : session.afl.totalBitmapEntries < 2 ^ 58
  fits : CanBeRated session.afl view

def Meets (session : FuzzSession) : FuzzStep → Prop
  | .calibrate q cksum call =>
      Measuring settings call q (session.afl.prepare q cksum)
  | .schedule view => session.Ready view
  | _ => True

/-- What holds between the steps. -/
structure Sound (session : FuzzSession) : Prop where
  queued : ∀ id, session.calibrated id = true → id < session.afl.queue.queuedPaths
  execUs : ∀ id, session.calibrated id = true →
    (session.afl.queue.queueBuf id).execUs ≠ 0#64
  bitmapSize : ∀ id, session.calibrated id = true →
    0 < (session.afl.marks id).bitmapSize
  counted : ∀ id, session.calibrated id = true → 0 < session.afl.totalBitmapEntries
  cycles : session.afl.totalBitmapEntries < 2 ^ 58 →
    session.afl.totalBitmapEntries ≤ session.afl.totalCalCycles.toNat ∧
      session.afl.totalCalCycles.toNat ≤ calCyclesLong * session.afl.totalBitmapEntries
  active : session.started = true → session.afl.active ≠ []

variable {settings} {session next : FuzzSession}

/-- Steps that keep the measures. -/
theorem Sound.of_same (sound : Sound session)
    (calibrated : next.calibrated = session.calibrated)
    (started : next.started = session.started)
    (queuedPaths : session.afl.queue.queuedPaths ≤ next.afl.queue.queuedPaths)
    (entries : ∀ id < session.afl.queue.queuedPaths,
      (next.afl.queue.queueBuf id).execUs = (session.afl.queue.queueBuf id).execUs ∧
        (next.afl.queue.queueBuf id).disabled =
          (session.afl.queue.queueBuf id).disabled ∧
        (next.afl.marks id).bitmapSize = (session.afl.marks id).bitmapSize)
    (totals : next.afl.totalCalCycles = session.afl.totalCalCycles ∧
      next.afl.totalBitmapEntries = session.afl.totalBitmapEntries) :
    Sound next := by
  obtain ⟨totalCycles, totalEntries⟩ := totals
  constructor
  · intro id done
    rw [calibrated] at done
    exact Nat.lt_of_lt_of_le (sound.queued id done) queuedPaths
  · intro id done
    rw [calibrated] at done
    rw [(entries id (sound.queued id done)).1]
    exact sound.execUs id done
  · intro id done
    rw [calibrated] at done
    rw [(entries id (sound.queued id done)).2.2]
    exact sound.bitmapSize id done
  · intro id done
    rw [calibrated] at done
    rw [totalEntries]
    exact sound.counted id done
  · rw [totalCycles, totalEntries]
    exact sound.cycles
  · intro isStarted
    rw [started] at isStarted
    obtain ⟨id, member⟩ := List.exists_mem_of_ne_nil _ (sound.active isStarted)
    obtain ⟨queued, enabled⟩ := State.mem_active.mp member
    refine List.ne_nil_of_mem (a := id) (State.mem_active.mpr ⟨?_, ?_⟩)
    · exact Nat.lt_of_lt_of_le queued queuedPaths
    · rw [(entries id queued).2.1]
      exact enabled

theorem prepare_same (afl : State) (q : Nat) (cksum : Option (BitVec 64)) :
    (afl.prepare q cksum).queue.queuedPaths = afl.queue.queuedPaths ∧
      (afl.prepare q cksum).marks = afl.marks ∧
      (afl.prepare q cksum).totalCalCycles = afl.totalCalCycles ∧
      (afl.prepare q cksum).totalBitmapEntries = afl.totalBitmapEntries ∧
      ∀ id, ((afl.prepare q cksum).queue.queueBuf id).execUs =
          (afl.queue.queueBuf id).execUs ∧
        ((afl.prepare q cksum).queue.queueBuf id).disabled =
          (afl.queue.queueBuf id).disabled := by
  cases cksum with
  | none => exact ⟨rfl, rfl, rfl, rfl, fun _ => ⟨rfl, rfl⟩⟩
  | some cksum =>
      refine ⟨rfl, rfl, rfl, rfl, fun id => ?_⟩
      by_cases same : id = q
      · subst same
        simp [State.prepare, State.setCksum]
      · simp [State.prepare, State.setCksum, QueueState.modify, same]

theorem stageMax_bounds (settings : Settings) (call : Call) (q : Nat)
    (before : State) :
    let last := (calibrationLoop settings call q before).afl
    0 < last.stageMax.toNat ∧ last.stageMax.toNat ≤ calCyclesLong := by
  intro last
  have running := calibrationLoop_running settings call q before
  have is : last.stageMax.toNat = _ :=
    (congrArg BitVec.toNat running.stageMax).trans (toNat_cycles _ _)
  rw [is]
  exact ⟨cycles_pos _ _, cycles_le _ _⟩

theorem udiv_ne_zero {dividend divisor : BitVec 64}
    (positive : 0 < divisor.toNat) (enough : divisor ≤ dividend) :
    dividend / divisor ≠ 0#64 := by
  intro zero
  have quotient := congrArg BitVec.toNat zero
  rw [BitVec.toNat_udiv] at quotient
  exact Nat.ne_of_gt (Nat.div_pos enough positive) quotient

theorem Sound.calibrate (sound : Sound session) {q : Nat}
    {cksum : Option (BitVec 64)} {call : Call} {outcome : Outcome}
    (queued : q < session.afl.queue.queuedPaths)
    (measuring : Measuring settings call q (session.afl.prepare q cksum))
    (result : calibrateCase settings call q (session.afl.prepare q cksum) =
      some outcome) :
    Sound { session with
      afl := outcome.afl
      calibrated :=
        if outcome.aborted then session.calibrated
        else Function.update session.calibrated q true } := by
  obtain ⟨length, marks, cycles, entries, fields⟩ := prepare_same session.afl q cksum
  have measures := calibrateCase_measures result
  have isLength := measures.queuedPaths.trans length
  have isDisabled := fun id => (measures.disabled id).trans (fields id).2
  cases aborted : outcome.aborted with
  | true =>
      obtain ⟨execUs, bitmapSize, sameCycles, sameEntries⟩ := measures.aborted aborted
      refine sound.of_same rfl rfl (Nat.le_of_eq isLength.symm)
        (fun id _ => ⟨?_, isDisabled id, ?_⟩)
        ⟨sameCycles.trans cycles, sameEntries.trans entries⟩
      · by_cases own : id = q
        · rw [own]
          exact execUs.trans (fields q).1
        · exact (measures.others id own).1.trans (fields id).1
      · by_cases own : id = q
        · rw [own]
          exact bitmapSize.trans (by rw [marks])
        · exact (measures.others id own).2.trans (by rw [marks])
  | false =>
      obtain ⟨execUs, bitmapSize, newCycles, newEntries⟩ := measures.whole aborted
      obtain ⟨whole, _⟩ := calibrateCase_eq_some result
      obtain ⟨enough, traced⟩ := measuring (whole.symm.trans aborted)
      obtain ⟨positive, bounded⟩ :=
        stageMax_bounds settings call q (session.afl.prepare q cksum)
      let last := (calibrationLoop settings call q (session.afl.prepare q cksum)).afl
      have width : (last.stageMax.setWidth 64).toNat = last.stageMax.toNat :=
        BitVec.toNat_setWidth_of_le (by decide)
      have before : ∀ id, id ≠ q →
          Function.update session.calibrated q true id = true →
          session.calibrated id = true := by
        intro id different done
        rwa [Function.update_of_ne different] at done
      have counts : outcome.afl.totalBitmapEntries =
          session.afl.totalBitmapEntries + 1 :=
        newEntries.trans (by rw [entries])
      refine ⟨fun id done => ?_, fun id done => ?_, fun id done => ?_,
        fun id _ => ?_, fun few => ?_, fun isStarted => ?_⟩
      · rw [isLength]
        by_cases own : id = q
        · exact own ▸ queued
        · exact sound.queued id (before id own done)
      · by_cases own : id = q
        · rw [own, execUs]
          exact udiv_ne_zero (by rw [width]; exact positive) enough
        · rw [(measures.others id own).1, (fields id).1]
          exact sound.execUs id (before id own done)
      · by_cases own : id = q
        · rw [own, bitmapSize]
          exact Nat.pos_of_ne_zero traced
        · rw [(measures.others id own).2, marks]
          exact sound.bitmapSize id (before id own done)
      · rw [counts]
        exact Nat.succ_pos _
      · rw [counts] at few ⊢
        obtain ⟨least, most⟩ := sound.cycles (by omega)
        have sum : outcome.afl.totalCalCycles.toNat =
            session.afl.totalCalCycles.toNat + last.stageMax.toNat := by
          rw [newCycles, cycles, BitVec.toNat_add, width]
          refine Nat.mod_eq_of_lt ?_
          have small : last.stageMax.toNat ≤ calCyclesLong := bounded
          unfold calCyclesLong at most small
          omega
        have some : 0 < last.stageMax.toNat := positive
        have small : last.stageMax.toNat ≤ calCyclesLong := bounded
        rw [sum]
        exact ⟨by omega, by rw [Nat.mul_succ]; omega⟩
      · obtain ⟨id, member⟩ := List.exists_mem_of_ne_nil _ (sound.active isStarted)
        obtain ⟨inside, enabled⟩ := State.mem_active.mp member
        refine List.ne_nil_of_mem (a := id) (State.mem_active.mpr ⟨?_, ?_⟩)
        · exact isLength.symm ▸ inside
        · exact (isDisabled id).trans enabled

theorem Sound.step (sound : Sound session) {op : FuzzStep}
    (meets : Meets settings session op)
    (stepped : step settings op session = some next) : Sound next := by
  cases op with
  | addToQueue len passedDet =>
      cases stepped
      refine sound.of_same rfl rfl (Nat.le_succ _) (fun id queued => ?_)
        ⟨rfl, rfl⟩
      have old : id ≠ session.afl.queue.queuedPaths := Nat.ne_of_lt queued
      simp [State.addToQueue, QueueState.addToQueue, old]
  | calibrate q cksum call =>
      simp only [FuzzSession.step] at stepped
      split_ifs at stepped with queued
      obtain ⟨outcome, result, is⟩ := Option.map_eq_some_iff.mp stepped
      cases is
      exact sound.calibrate queued meets result
  | disable q =>
      simp only [FuzzSession.step] at stepped
      split_ifs at stepped with started
      cases stepped
      have entries : ∀ id,
          ((session.afl.queue.disableEntry q).queueBuf id).execUs =
            (session.afl.queue.queueBuf id).execUs := by
        intro id
        by_cases same : id = q
        · subst same
          simp [QueueState.disableEntry]
        · simp [QueueState.disableEntry, QueueState.modify, same]
      exact
        { sound with
          execUs := fun id done => by
            rw [entries]
            exact sound.execUs id done
          active := fun isStarted => absurd isStarted started }
  | start =>
      simp only [FuzzSession.step] at stepped
      split_ifs at stepped with rejected
      cases stepped
      exact { sound with active := fun _ => (not_or.mp rejected).2 }
  | schedule view =>
      cases stepped
      refine sound.of_same rfl rfl le_rfl (fun id _ => ⟨rfl, rfl, ?_⟩)
        ⟨rfl, rfl⟩
      simp only [State.ageHandicaps]
      split <;> rfl
  | elsewhere world =>
      cases stepped
      exact sound.of_same rfl rfl le_rfl (fun _ _ => ⟨rfl, rfl, rfl⟩)
        ⟨rfl, rfl⟩

/-- The session begins without entries. -/
def begin (afl : State) : FuzzSession :=
  { afl := afl
    started := false
    calibrated := fun _ => false }

theorem sound_begin {afl : State} (entries : afl.totalBitmapEntries = 0)
    (cycles : afl.totalCalCycles = 0#64) : Sound (begin afl) := by
  refine ⟨?_, ?_, ?_, ?_, fun _ => ?_, ?_⟩
  · intro id done
    cases done
  · intro id done
    cases done
  · intro id done
    cases done
  · intro id done
    cases done
  · simp [begin, entries, cycles]
  · intro started
    cases started

theorem Sound.dividesSafely (sound : Sound session) {view : ScoreView}
    (ready : session.Ready view) (logarithms : Logarithms) :
    DividesSafely logarithms session.afl view := by
  obtain ⟨first, isFirst⟩ := List.exists_mem_of_ne_nil _ (sound.active ready.started)
  have positive := sound.counted first (ready.calibrated first isFirst)
  have few := ready.few
  obtain ⟨least, _⟩ := sound.cycles few
  have measured : session.afl.Measured :=
    { active := sound.active ready.started
      execUs := fun id member =>
        sound.execUs id (ready.calibrated id member)
      bitmapSize := fun id member =>
        sound.bitmapSize id (ready.calibrated id member) }
  refine dividesSafely_of_measured measured ?_ ?_ ready.fits
  · intro zero
    have none : session.afl.totalCalCycles.toNat = 0 := by
      rw [show session.afl.totalCalCycles = 0#64 from zero]
      rfl
    omega
  · intro zero
    have none := congrArg BitVec.toNat zero
    have wide : session.afl.totalBitmapEntries < 2 ^ 64 := by omega
    simp only [State.scoreState, BitVec.toNat_ofNat, Nat.zero_mod,
      Nat.mod_eq_of_lt wide] at none
    omega

/-- In every run in which the scheduler only meets entries that have been
calibrated, and every calibration measures something, it never divides by
zero. -/
theorem run_dividesSafely (settings : Settings) (logarithms : Logarithms)
    {afl : State} (entries : afl.totalBitmapEntries = 0)
    (cycles : afl.totalCalCycles = 0#64) {ops : List FuzzStep}
    {reached : FuzzSession} {view : ScoreView}
    (runs : runMoves (step settings) ops (begin afl) = some reached)
    (meets : MovesMeet (step settings) (Meets settings)
      (ops ++ [.schedule view]) (begin afl)) :
    DividesSafely logarithms reached.afl view := by
  obtain ⟨before, ready⟩ := movesMeet_append.mp meets
  have sound := runMoves_invariant_of_meets Sound
    (fun _ _ _ sound meets stepped => sound.step meets stepped)
    (sound_begin entries cycles) before runs
  exact sound.dividesSafely (ready reached runs).1 logarithms

/-- A target that hits one byte of the map and takes a while. -/
def hitCall : Call :=
  { emptyCall with
    target := fun _ _ =>
      { fault := .ok
        trace := fun address => if address = 0 then 1#8 else 0#8
        stopSoon := false }
    stopUs := 1000#64 }

/-- A target that takes too long. -/
def hungCall : Call :=
  { emptyCall with
    target := fun _ _ =>
      { fault := .tmout
        trace := fun _ => 0#8
        stopSoon := false } }

/-- The fuzzer between two calibrations. -/
def worldOf (schedule : Schedule) : State :=
  { firstState with
    queue := { firstState.queue with
      schedule := schedule
      pendingNotFuzzed := 1 } }

def firstView : ScoreView :=
  { depth := fun _ => 1#64
    maxDepth := 1#32
    limitTimeSig := 0#32
    totalExecs := 100#64
    log2OfZero := 0#32 }

theorem hitCall_completes (number : Nat) :
    hitCall.Completes firstSettings false 64 number := by
  refine ⟨rfl, rfl, fun _ _ => ?_⟩
  change countBytes 64 (fun address => if address = 0 then 1#8 else 0#8) ≠ 0
  decide

theorem hitCall_measuring {q : Nat} {before : State}
    (mapSize : before.maps.mapSize = 64)
    (fixedSeed : before.queue.fixedSeed = false) :
    Measuring firstSettings hitCall q before := by
  intro whole
  have bounds := stageMax_bounds firstSettings hitCall q before
  have running := calibrationLoop_running firstSettings hitCall q before
  have finished := calibrationLoop_finished firstSettings hitCall q before whole
  have traced := calibrationLoop_traced firstSettings hitCall q before whole
    (by rw [finished]; exact cycles_pos _ _)
  generalize calibrationLoop firstSettings hitCall q before = loop at *
  have notFixed : loop.afl.queue.fixedSeed = false := by
    rw [running.frame.queue]
    exact fixedSeed
  constructor
  · have time : diffUs hitCall loop.afl = 1000#64 := by
      rw [diffUs, notFixed, if_neg Bool.false_ne_true]
      exact if_neg (by decide)
    have width : (loop.afl.stageMax.setWidth 64).toNat =
        loop.afl.stageMax.toNat := BitVec.toNat_setWidth_of_le (by decide)
    have small : loop.afl.stageMax.toNat ≤ 20 := bounds.2
    rw [time, BitVec.le_def, width]
    exact Nat.le_trans small (by decide)
  · rw [traced, mapSize]
    change countBytes 64 (bucketed 64
      fun address => if address = 0 then 1#8 else 0#8) ≠ 0
    decide

/-- The first entry, once its calibration is over. -/
def seeded (schedule : Schedule) (outcome : Outcome) : FuzzSession :=
  { afl := State.keepMeasures (worldOf schedule) outcome.afl
    started := true
    calibrated := Function.update (fun _ => false) 0 true }

/-- One entry is loaded, calibrated and accepted. -/
def loadSeed (schedule : Schedule) : List FuzzStep :=
  [.addToQueue 5#32 false, .calibrate 0 none hitCall,
    .elsewhere (worldOf schedule), .start]

theorem loadSeed_runs (schedule : Schedule) :
    ∃ outcome, calibrateCase firstSettings hitCall 0
        (firstState.addToQueue 5#32 false) = some outcome ∧
      runMoves (step firstSettings) (loadSeed schedule) (begin firstState) =
        some (seeded schedule outcome) ∧
      (seeded schedule outcome).afl.queue.queuedPaths = 1 ∧
      (seeded schedule outcome).afl.active = [0] ∧
      (seeded schedule outcome).afl.totalBitmapEntries = 1 := by
  obtain ⟨outcome, result⟩ := @calibrateCase_returns hitCall firstSettings 0
    (firstState.addToQueue 5#32 false) rfl rfl
  have whole := whole_of_completes hitCall_completes result
  have measures := calibrateCase_measures result
  have length : (seeded schedule outcome).afl.queue.queuedPaths = 1 :=
    measures.queuedPaths
  have active : (seeded schedule outcome).afl.active = [0] := by
    have enabled : ((seeded schedule outcome).afl.queue.queueBuf 0).disabled =
        false := measures.disabled 0
    rw [State.active, length]
    simp [enabled]
  refine ⟨outcome, result, ?_, length, active, (measures.whole whole).2.2.2⟩
  have first : step firstSettings (.calibrate 0 none hitCall)
      { begin firstState with
        afl := firstState.addToQueue 5#32 false } = some
      { afl := outcome.afl
        started := false
        calibrated := Function.update (fun _ => false) 0 true } := by
    have inside : 0 < (firstState.addToQueue 5#32 false).queue.queuedPaths :=
      Nat.zero_lt_one
    simp only [step, inside, if_true, State.prepare, result, Option.map_some,
      whole, begin]
    rfl
  have accepted : ¬((seeded schedule outcome).afl.queue.pendingNotFuzzed = 0 ∨
      (seeded schedule outcome).afl.active = []) := by
    rw [active]
    simp [seeded, State.keepMeasures, worldOf]
  have second : step firstSettings (.elsewhere (worldOf schedule))
      { afl := outcome.afl
        started := false
        calibrated := Function.update (fun _ => false) 0 true } =
      some { seeded schedule outcome with started := false } := by
    simp only [step, seeded]
  have last : step firstSettings .start
      { seeded schedule outcome with started := false } =
      some (seeded schedule outcome) := by
    simp only [step]
    rw [if_neg accepted]
    simp only [seeded]
  have loaded : step firstSettings (.addToQueue 5#32 false)
      (begin firstState) = some { begin firstState with
        afl := firstState.addToQueue 5#32 false } := by
    simp only [step, begin]
  exact (runMoves_of_step loaded _).trans ((runMoves_of_step first _).trans
    ((runMoves_of_step second _).trans ((runMoves_of_step last _).trans rfl)))

theorem loadSeed_meets (schedule : Schedule) :
    MovesMeet (step firstSettings) (Meets firstSettings) (loadSeed schedule)
      (begin firstState) := by
  refine ⟨trivial, fun next stepped => ⟨?_, fun _ _ => ⟨trivial, fun _ _ =>
    ⟨trivial, fun _ _ => trivial⟩⟩⟩⟩
  simp only [step, Option.some.injEq] at stepped
  subst stepped
  exact hitCall_measuring rfl rfl

/-- Logarithms as floating point numbers, right for the powers of two. -/
def powerLogarithms : Logarithms where
  log n := Nat.log2 n * (6931471805599453 / 10000000000000000)
  log10 n := Nat.log2 n * (3010299956639812 / 10000000000000000)
  log_one := by
    rw [show Nat.log2 1 = 0 by decide]
    norm_num
  log_pos n more := by
    have positive : 0 < Nat.log2 n := (Nat.le_log2 (by omega)).mpr (by omega)
    have cast : (0 : ℚ) < Nat.log2 n := Nat.cast_pos.mpr positive
    positivity
  log10_nonneg n _ := by positivity

theorem run_dividesSafely_seek :
    ∃ reached,
      runMoves (step firstSettings) (loadSeed .seek) (begin firstState) =
        some reached ∧
      DividesSafely powerLogarithms reached.afl firstView := by
  obtain ⟨outcome, result, runs, _, active, entries⟩ := loadSeed_runs .seek
  have seek : (seeded .seek outcome).afl.queue.schedule = .seek := rfl
  have byScore : ¬(seeded .seek outcome).afl.ByWeight := by
    rw [State.ByWeight, seek]
    decide
  have ready : (seeded .seek outcome).Ready firstView :=
    { started := rfl
      calibrated := fun id member => by
        rw [active] at member
        cases List.mem_singleton.mp member
        rfl
      few := by
        rw [entries]
        decide
      fits :=
        { covered := fun byWeight => absurd byWeight byScore
          topped := fun byWeight => absurd byWeight byScore
          divisor := fun linear => by
            rw [seek] at linear
            simp at linear
          rare := fun rare => by
            rw [seek] at rare
            cases rare } }
  refine ⟨_, runs, @run_dividesSafely firstSettings powerLogarithms firstState
    rfl rfl (loadSeed .seek) _ firstView runs ?_⟩
  refine movesMeet_append.mpr ⟨loadSeed_meets .seek, fun reached others => ?_⟩
  cases runs.symm.trans others
  exact ⟨ready, fun _ _ => trivial⟩

/-- A find whose calibration is aborted stays active. -/
def addFind : List FuzzStep :=
  [.addToQueue 5#32 false, .calibrate 1 (some 7#64) hungCall,
    .elsewhere (worldOf .explore)]

/-- The time of such a find is zero when the alias table is made. -/
theorem schedule_divides_by_zero :
    ∃ reached,
      runMoves (step firstSettings) (loadSeed .explore ++ addFind)
        (begin firstState) = some reached ∧
      reached.started = true ∧ reached.afl.queue.schedule = .explore ∧
      1 ∈ reached.afl.active ∧
      (reached.afl.queue.queueBuf 1).execUs = 0#64 ∧
      ∀ logarithms view, ¬DividesSafely logarithms reached.afl view := by
  obtain ⟨seed, _, runs, length, _⟩ := loadSeed_runs .explore
  let found := (seeded .explore seed).afl.addToQueue 5#32 false
  have two : found.queue.queuedPaths = 2 := congrArg Nat.succ length
  have blank : (found.queue.queueBuf 1).execUs = 0#64 ∧
      (found.queue.queueBuf 1).disabled = false := by
    simp [found, State.addToQueue, QueueState.addToQueue, length, blankEntry]
  obtain ⟨outcome, result⟩ := @calibrateCase_returns hungCall firstSettings 1
    (found.prepare 1 (some 7#64)) rfl rfl
  have aborted := aborted_of_first
    (fun completes => by cases completes.fault) result
  have measures := calibrateCase_measures result
  obtain ⟨same, _, _, _, fields⟩ := prepare_same found 1 (some 7#64)
  let reached : FuzzSession :=
    { afl := State.keepMeasures (worldOf .explore) outcome.afl
      started := true
      calibrated := (seeded .explore seed).calibrated }
  have zero : (reached.afl.queue.queueBuf 1).execUs = 0#64 :=
    (measures.aborted aborted).1.trans ((fields 1).1.trans blank.1)
  have member : 1 ∈ reached.afl.active := by
    refine State.mem_active.mpr ⟨?_, ?_⟩
    · have queued := measures.queuedPaths.trans (same.trans two)
      exact Nat.lt_of_lt_of_eq Nat.one_lt_two queued.symm
    · exact (measures.disabled 1).trans ((fields 1).2.trans blank.2)
  refine ⟨reached, ?_, rfl, rfl, member, zero, fun _ _ safe =>
    safe.execUs 1 member zero⟩
  have added : step firstSettings (.addToQueue 5#32 false)
      (seeded .explore seed) =
      some { seeded .explore seed with afl := found } := by
    simp only [step, found]
  have calibrated : step firstSettings (.calibrate 1 (some 7#64) hungCall)
      { seeded .explore seed with afl := found } = some
      { seeded .explore seed with afl := outcome.afl } := by
    have inside : 1 < found.queue.queuedPaths := by
      rw [two]
      exact Nat.one_lt_two
    simp only [step, inside, if_true, result, Option.map_some, aborted]
  have later : step firstSettings (.elsewhere (worldOf .explore))
      { seeded .explore seed with afl := outcome.afl } = some reached := by
    simp only [step, reached, seeded]
  rw [runMoves_append, runs, Option.bind_some]
  exact (runMoves_of_step added _).trans ((runMoves_of_step calibrated _).trans
    ((runMoves_of_step later _).trans rfl))

end FuzzSession

end AFLPlusPlus
