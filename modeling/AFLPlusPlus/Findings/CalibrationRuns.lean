import AFLPlusPlus.Findings.CalibrationAccount
import AFLPlusPlus.Queue.Operations
import AFLPlusPlus.Support.Transitions
import Mathlib.Algebra.Order.Ring.Nat

/-!
# All calibrations of a session

`calibrate_case` has three kinds of callers: the dry run over the initial
corpus, `fuzz_one` for an entry whose calibration has failed before, and
`save_if_interesting` for a new find.  Whatever else the fuzzer does in between,
each entry is counted once.
-/

namespace AFLPlusPlus

namespace CalibrateCase

/-- A step of the fuzzer, as far as it concerns calibrations. -/
inductive Op where
  | addToQueue (len : BitVec 32) (passedDet : Bool)
  /-- one case of `perform_dry_run`, with whether a timeout is to be skipped -/
  | performDryRun (q : Nat) (call : Call) (skipsTimeout : Bool)
  | fuzzOne (q : Nat) (call : Call)
  /-- a new find, with what `has_new_bits` has said about it -/
  | saveIfInteresting (len : BitVec 32) (newBits : Nat) (call : Call)
  /-- everything else: the state that it leaves, apart from the account -/
  | elsewhere (world : State)

def blankMarks : Marks :=
  { hasNewCov := false
    varBehavior := false
    bitmapSize := 0
    handicap := 0#32 }

namespace State

def addToQueue (afl : State) (len : BitVec 32) (passedDet : Bool) : State :=
  { afl with
    queue := afl.queue.addToQueue len passedDet
    marks := Function.update afl.marks afl.queue.queuedPaths blankMarks }

/-- What is not a calibration leaves alone the entries' marks and checksums,
their counters, and the size of the map and of the queue. -/
def elsewhere (world afl : State) : State :=
  { world with
    maps := { world.maps with
      mapSize := afl.maps.mapSize
      aligned := afl.maps.aligned }
    queue := { world.queue with
      mapSize := afl.queue.mapSize
      aligned := afl.queue.aligned
      bounded := afl.queue.bounded
      queuedPaths := afl.queue.queuedPaths
      queueBuf := fun id =>
        { world.queue.queueBuf id with
          calFailed := (afl.queue.queueBuf id).calFailed
          execCksum := (afl.queue.queueBuf id).execCksum } }
    marks := afl.marks
    queuedWithCov := afl.queuedWithCov
    queuedVariable := afl.queuedVariable
    totalCalUs := afl.totalCalUs
    totalCalCycles := afl.totalCalCycles
    totalBitmapSize := afl.totalBitmapSize
    totalBitmapEntries := afl.totalBitmapEntries }

end State

variable (settings : Settings)

/-- The call of `calibrate_case` that a step makes: the entry, the call, and the
state in which it is made.  The dry run meets each entry as `add_to_queue` has
left it. -/
def callOf : Op → State → Option (Nat × Call × State)
  | .addToQueue _ _, _ => none
  | .performDryRun q call _, afl =>
      if q < afl.queue.queuedPaths ∧ afl.execCksum q = 0#64 ∧
          (afl.queue.queueBuf q).calFailed = 0#8 then
        some (q, call, afl)
      else none
  | .fuzzOne q call, afl =>
      if q < afl.queue.queuedPaths ∧ (afl.queue.queueBuf q).calFailed ≠ 0#8 ∧
          (afl.queue.queueBuf q).calFailed < calChances then
        some (q, call, afl.setCksum q 0#64)
      else none
  | .saveIfInteresting len newBits call, afl =>
      let q := afl.queue.queuedPaths
      let added := afl.addToQueue len false
      let covered :=
        if newBits = 2 then
          { added with
            marks := Function.update added.marks q
              { added.marks q with hasNewCov := true }
            queuedWithCov := added.queuedWithCov + 1 }
        else added
      some (q, call, covered.setCksum q
        (settings.hash64 covered.maps.traceBits covered.maps.mapSize))
  | .elsewhere _, _ => none

def afterCall (op : Op) (outcome : Outcome) : State :=
  match op with
  | .performDryRun q _ skipsTimeout =>
      if outcome.fault = .tmout ∧ skipsTimeout = true then
        { outcome.afl with
          queue := outcome.afl.queue.modify q fun entry =>
            { entry with calFailed := calChances } }
      else outcome.afl
  | _ => outcome.afl

def outcomeOf (op : Op) (afl : State) : Option (Nat × Call × State × Outcome) :=
  (callOf settings op afl).bind fun made =>
    (calibrateCase settings made.2.1 made.1 made.2.2).map fun outcome =>
      (made.1, made.2.1, made.2.2, outcome)

def step (op : Op) (afl : State) : Option State :=
  match op with
  | .addToQueue len passedDet => some (afl.addToQueue len passedDet)
  | .elsewhere world => some (State.elsewhere world afl)
  | op => (outcomeOf settings op afl).map fun made =>
      afterCall op made.2.2.2

/-- What calibrations count. -/
inductive Counter where
  | queuedWithCov
  | queuedVariable

def Counter.mark : Counter → Marks → Bool
  | .queuedWithCov, marks => marks.hasNewCov
  | .queuedVariable, marks => marks.varBehavior

def Counter.value : Counter → State → Nat
  | .queuedWithCov, afl => afl.queuedWithCov
  | .queuedVariable, afl => afl.queuedVariable

/-- How often an entry is counted by its calibrations in a run. -/
def timesCounted (counter : Counter) (id : Nat) : List Op → State → Nat
  | [], _ => 0
  | op :: ops, afl =>
      ((outcomeOf settings op afl).elim 0 fun made =>
        if made.1 = id then
          counter.value made.2.2.2.afl - counter.value made.2.2.1
        else 0) +
      (step settings op afl).elim 0 (timesCounted counter id ops)

/-- What holds between two steps. -/
structure Sound (afl : State) : Prop where
  calFailed : ∀ id < afl.queue.queuedPaths,
    (afl.queue.queueBuf id).calFailed ≤ calChances
  counted : ∀ counter : Counter, counter.value afl =
    Nat.count (fun id => counter.mark (afl.marks id) = true)
      afl.queue.queuedPaths

structure Empty (afl : State) : Prop where
  queuedPaths : afl.queue.queuedPaths = 0
  queuedWithCov : afl.queuedWithCov = 0
  queuedVariable : afl.queuedVariable = 0

variable {settings} {afl next prepared : State} {op : Op} {call : Call} {q : Nat}
  (counter : Counter) (id : Nat)

theorem outcomeOf_eq_some {outcome : Outcome}
    (made : outcomeOf settings op afl = some (q, call, prepared, outcome)) :
    callOf settings op afl = some (q, call, prepared) ∧
      calibrateCase settings call q prepared = some outcome := by
  obtain ⟨⟨id, arguments, before⟩, isCall, called⟩ := Option.bind_eq_some_iff.mp made
  obtain ⟨result, returned, same⟩ := Option.map_eq_some_iff.mp called
  cases same
  exact ⟨isCall, returned⟩

/-- A step adds an entry, calibrates one, or leaves the account alone. -/
theorem step_cases (stepped : step settings op afl = some next) :
    (outcomeOf settings op afl = none ∧
      ((∃ len passedDet, next = afl.addToQueue len passedDet) ∨
        ∃ world, next = State.elsewhere world afl)) ∨
    ∃ q call prepared outcome,
      outcomeOf settings op afl = some (q, call, prepared, outcome) ∧
        next = afterCall op outcome := by
  have calls : (outcomeOf settings op afl).map
      (fun made => afterCall op made.2.2.2) = some next →
      ∃ q call prepared outcome,
        outcomeOf settings op afl = some (q, call, prepared, outcome) ∧
          next = afterCall op outcome := by
    intro mapped
    obtain ⟨⟨q, call, prepared, outcome⟩, made, is⟩ := Option.map_eq_some_iff.mp mapped
    exact ⟨q, call, prepared, outcome, made, is.symm⟩
  cases op with
  | addToQueue len passedDet =>
      exact .inl ⟨rfl, .inl ⟨len, passedDet, (Option.some.inj stepped).symm⟩⟩
  | elsewhere world =>
      exact .inl ⟨rfl, .inr ⟨world, (Option.some.inj stepped).symm⟩⟩
  | performDryRun q call skipsTimeout => exact .inr (calls stepped)
  | fuzzOne q call => exact .inr (calls stepped)
  | saveIfInteresting len newBits call => exact .inr (calls stepped)

theorem afterCall_marks (op : Op) (outcome : Outcome) :
    (afterCall op outcome).marks = outcome.afl.marks ∧
      (afterCall op outcome).queue.queuedPaths = outcome.afl.queue.queuedPaths ∧
      ∀ counter : Counter, counter.value (afterCall op outcome) =
        counter.value outcome.afl := by
  unfold afterCall
  split
  · split
    · exact ⟨rfl, rfl, fun counter => by cases counter <;> rfl⟩
    · exact ⟨rfl, rfl, fun _ => rfl⟩
  · exact ⟨rfl, rfl, fun _ => rfl⟩

theorem Accounted.counted {outcome : Outcome}
    (accounted : Accounted settings call q afl outcome) (counter : Counter) :
    CountedOnce q counter.mark afl outcome.afl (counter.value afl)
      (counter.value outcome.afl) := by
  cases counter with
  | queuedWithCov => exact accounted.covered
  | queuedVariable => exact accounted.varied

theorem CountedOnce.value_eq {mark : Marks → Bool} {countBefore countAfter bound : Nat}
    (counted : CountedOnce q mark afl next countBefore countAfter) (queued : q < bound)
    (all : countBefore = Nat.count (fun id => mark (afl.marks id) = true) bound) :
    countAfter = Nat.count (fun id => mark (next.marks id) = true) bound := by
  have change := @Counting.count_change
    (fun id => mark (afl.marks id) = true)
    (fun id => mark (next.marks id) = true) _ _ _ _ queued
    (fun id _ different => by rw [counted.others id different])
  have counter := counted.counter
  have toNat : ∀ flag : Bool, flag.toNat = if flag = true then 1 else 0 := by
    decide
  rw [toNat, toNat] at counter
  omega

theorem Sound.addToQueue (sound : Sound afl) (len : BitVec 32)
    (passedDet : Bool) : Sound (afl.addToQueue len passedDet) where
  calFailed id queued := by
    have inside : id < afl.queue.queuedPaths + 1 := queued
    by_cases new : id = afl.queue.queuedPaths
    · subst new
      simp only [State.addToQueue, QueueState.addToQueue, blankEntry,
        Function.update_self]
      decide
    · have old : id < afl.queue.queuedPaths := by omega
      simpa [State.addToQueue, QueueState.addToQueue, new] using
        sound.calFailed id old
  counted counter := by
    have old := sound.counted counter
    have blank : counter.mark blankMarks = false := by cases counter <;> rfl
    have same : counter.value (afl.addToQueue len passedDet) =
        counter.value afl := by cases counter <;> rfl
    change _ = Nat.count _ (afl.queue.queuedPaths + 1)
    rw [same, old, Nat.count_succ]
    simp only [State.addToQueue, Function.update_self, blank,
      Bool.false_eq_true, if_false, Nat.add_zero]
    refine Counting.count_congr fun id inside => ?_
    rw [Function.update_of_ne (Nat.ne_of_lt inside)]

theorem Sound.setCksum (sound : Sound afl) (q : Nat) (cksum : BitVec 64) :
    Sound (afl.setCksum q cksum) where
  calFailed id queued := by
    have bounded := sound.calFailed id queued
    by_cases same : id = q
    · subst same
      simpa [State.setCksum] using bounded
    · simpa [State.setCksum, QueueState.modify, same] using bounded
  counted counter := by
    have counted := sound.counted counter
    cases counter <;> exact counted

theorem Sound.cover (sound : Sound afl) (queued : q < afl.queue.queuedPaths)
    (unmarked : (afl.marks q).hasNewCov = false) :
    Sound { afl with
      marks := Function.update afl.marks q
        { afl.marks q with hasNewCov := true }
      queuedWithCov := afl.queuedWithCov + 1 } where
  calFailed := sound.calFailed
  counted counter := by
    cases counter with
    | queuedWithCov =>
        have counts : CountedOnce q Marks.hasNewCov afl { afl with
            marks := Function.update afl.marks q
              { afl.marks q with hasNewCov := true }
            queuedWithCov := afl.queuedWithCov + 1 }
            afl.queuedWithCov (afl.queuedWithCov + 1) :=
          ⟨by simp [unmarked], fun old =>
            absurd (unmarked.symm.trans old) Bool.false_ne_true,
            fun other different => by simp [different]⟩
        exact counts.value_eq queued (sound.counted .queuedWithCov)
    | queuedVariable =>
        refine (sound.counted .queuedVariable).trans ?_
        refine Counting.count_congr fun id _ => ?_
        by_cases same : id = q
        · subst same
          simp [Counter.mark]
        · simp [Counter.mark, same]

/-- What the caller has seen to, for each of the callers. -/
theorem callOf_prepared (sound : Sound afl)
    (isCall : callOf settings op afl = some (q, call, prepared)) :
    Sound prepared ∧ Prepared settings q prepared ∧ q < prepared.queue.queuedPaths ∧
      (prepared.queue.queueBuf q).calFailed < calChances := by
  unfold callOf at isCall
  split at isCall
  · cases isCall
  · split at isCall
    · rename_i blank
      obtain ⟨queued, cksum, failed⟩ := blank
      cases isCall
      refine ⟨sound, .inl cksum, queued, ?_⟩
      rw [failed]
      decide
    · cases isCall
  · split at isCall
    · rename_i again
      obtain ⟨queued, _, failed⟩ := again
      cases isCall
      refine ⟨sound.setCksum _ _, .inl (execCksum_setCksum _ _ _), queued, ?_⟩
      simpa [State.setCksum] using failed
    · cases isCall
  · rename_i len newBits _
    have added := sound.addToQueue len false
    have queued : afl.queue.queuedPaths <
        (afl.addToQueue len false).queue.queuedPaths :=
      Nat.lt_succ_self _
    have blank : (afl.addToQueue len false).marks afl.queue.queuedPaths =
        blankMarks := by
      simp [State.addToQueue]
    have failed : ((afl.addToQueue len false).queue.queueBuf
        afl.queue.queuedPaths).calFailed = 0#8 := by
      simp [State.addToQueue, QueueState.addToQueue, blankEntry]
    cases isCall
    split
    · refine ⟨(added.cover queued ?_).setCksum _ _, .inr ?_, queued, ?_⟩
      · rw [blank]
        rfl
      · exact execCksum_setCksum _ _ _
      · simp only [State.setCksum, QueueState.modify_queueBuf_self, failed]
        decide
    · refine ⟨added.setCksum _ _, .inr ?_, queued, ?_⟩
      · exact execCksum_setCksum _ _ _
      · simp only [State.setCksum, QueueState.modify_queueBuf_self, failed]
        decide
  · cases isCall

/-- A failed calibration is one more, without overflow. -/
theorem Accounted.calFailed {outcome : Outcome}
    (accounted : Accounted settings call q afl outcome)
    (below : (afl.queue.queueBuf q).calFailed < calChances) :
    (outcome.aborted = true →
      (outcome.afl.queue.queueBuf q).calFailed.toNat =
        (afl.queue.queueBuf q).calFailed.toNat + 1) ∧
    (outcome.afl.queue.queueBuf q).calFailed ≤ calChances := by
  have bounded : ∀ failed : BitVec 8, failed < calChances →
      (failed + 1#8).toNat = failed.toNat + 1 ∧ failed + 1#8 ≤ calChances := by decide
  obtain ⟨next, inside⟩ := bounded _ below
  cases aborted : outcome.aborted with
  | true =>
      obtain ⟨_, _, _, _, _, failed⟩ := accounted.aborts aborted
      rw [failed]
      exact ⟨fun _ => next, inside⟩
  | false =>
      refine ⟨fun cut => absurd cut Bool.false_ne_true, ?_⟩
      rw [accounted.resets aborted]
      decide

theorem Sound.outcome {outcome : Outcome} (sound : Sound afl)
    (accounted : Accounted settings call q afl outcome)
    (queued : q < afl.queue.queuedPaths)
    (below : (afl.queue.queueBuf q).calFailed < calChances) :
    Sound outcome.afl where
  calFailed id inside := by
    rw [accounted.queuedPaths] at inside
    by_cases same : id = q
    · subst same
      exact (accounted.calFailed below).2
    · rw [(accounted.others id same).1]
      exact sound.calFailed id inside
  counted counter := by
    rw [accounted.queuedPaths]
    exact (accounted.counted counter).value_eq queued (sound.counted counter)

theorem Sound.afterCall (op : Op) {outcome : Outcome}
    (sound : Sound outcome.afl) : Sound (afterCall op outcome) where
  calFailed id inside := by
    unfold CalibrateCase.afterCall at inside ⊢
    split at inside
    · rename_i q _ _
      split at inside
      · rename_i timeout
        rw [if_pos timeout]
        by_cases same : id = q
        · subst same
          simp
        · simpa [QueueState.modify, same] using sound.calFailed id inside
      · rename_i other
        rw [if_neg other]
        exact sound.calFailed id inside
    · exact sound.calFailed id inside
  counted counter := by
    obtain ⟨marks, queuedPaths, value⟩ := afterCall_marks op outcome
    rw [value, marks, queuedPaths]
    exact sound.counted counter

theorem Sound.step (sound : Sound afl)
    (stepped : step settings op afl = some next) : Sound next := by
  rcases step_cases stepped with
    ⟨_, ⟨len, passedDet, is⟩ | ⟨world, is⟩⟩ |
    ⟨q, call, prepared, outcome, made, is⟩
  · rw [is]
    exact sound.addToQueue len passedDet
  · rw [is]
    exact ⟨sound.calFailed, fun counter => by
      have counted := sound.counted counter
      cases counter <;> exact counted⟩
  · obtain ⟨isCall, called⟩ := outcomeOf_eq_some made
    obtain ⟨ready, fits, queued, below⟩ := callOf_prepared sound isCall
    have accounted := calibrateCase_accounted fits called
    rw [is]
    exact (ready.outcome accounted queued below).afterCall op

/-- Whether an entry of the queue has the mark of a counter. -/
def markedIn (counter : Counter) (id : Nat) (afl : State) : Nat :=
  if id < afl.queue.queuedPaths ∧ counter.mark (afl.marks id) = true then 1
  else 0

theorem markedIn_le {id : Nat} (length : afl.queue.queuedPaths ≤ next.queue.queuedPaths)
    (kept : id < afl.queue.queuedPaths →
      counter.mark (afl.marks id) = counter.mark (next.marks id)) :
    markedIn counter id afl ≤ markedIn counter id next := by
  unfold markedIn
  split
  · rename_i both
    obtain ⟨queued, marked⟩ := both
    rw [if_pos ⟨Nat.lt_of_lt_of_le queued length, kept queued ▸ marked⟩]
  · exact Nat.zero_le _

theorem addToQueue_marked (afl : State) (len : BitVec 32) (passedDet : Bool) :
    markedIn counter id afl ≤ markedIn counter id (afl.addToQueue len passedDet) := by
  refine markedIn_le counter (Nat.le_succ _) fun queued => ?_
  simp [State.addToQueue, Nat.ne_of_lt queued]

theorem callOf_marked (isCall : callOf settings op afl = some (q, call, prepared)) :
    markedIn counter id afl ≤ markedIn counter id prepared := by
  unfold callOf at isCall
  split at isCall
  · cases isCall
  · split at isCall
    · cases isCall
      exact Nat.le_refl _
    · cases isCall
  · split at isCall
    · cases isCall
      exact Nat.le_refl _
    · cases isCall
  · rename_i len newBits _
    cases isCall
    split
    · refine markedIn_le counter (Nat.le_succ _) fun queued => ?_
      simp [State.setCksum, State.addToQueue, Nat.ne_of_lt queued]
    · exact addToQueue_marked counter id afl len false
  · cases isCall

/-- What a call counts is a mark that was not there. -/
theorem Accounted.marked_le {outcome : Outcome}
    (accounted : Accounted settings call q afl outcome)
    (queued : q < afl.queue.queuedPaths) (counter : Counter) (id : Nat) :
    (if q = id then counter.value outcome.afl - counter.value afl else 0) +
        markedIn counter id afl ≤
      markedIn counter id outcome.afl := by
  have counted := accounted.counted counter
  by_cases same : q = id
  · subst same
    have change := counted.counter
    have kept := counted.kept
    have inside : q < outcome.afl.queue.queuedPaths := by
      rw [accounted.queuedPaths]
      exact queued
    simp only [markedIn, queued, inside, true_and, if_true]
    cases old : counter.mark (afl.marks q) <;>
      cases new : counter.mark (outcome.afl.marks q) <;>
      simp [old, new] at change kept ⊢ <;> omega
  · rw [if_neg same, Nat.zero_add]
    refine markedIn_le counter (Nat.le_of_eq accounted.queuedPaths.symm)
      fun _ => (counted.others id (Ne.symm same)).symm

/-- One step: what it counts for an entry, the entry is marked with. -/
theorem step_marked (sound : Sound afl) (counter : Counter) (id : Nat)
    (stepped : step settings op afl = some next) :
    ((outcomeOf settings op afl).elim 0 fun made =>
      if made.1 = id then
        counter.value made.2.2.2.afl - counter.value made.2.2.1
      else 0) + markedIn counter id afl ≤ markedIn counter id next := by
  rcases step_cases stepped with
    ⟨none, ⟨len, passedDet, is⟩ | ⟨world, is⟩⟩ |
    ⟨q, call, prepared, outcome, made, is⟩
  · rw [none, is]
    simpa using addToQueue_marked counter id afl len passedDet
  · rw [none, is]
    simp only [Option.elim_none, Nat.zero_add]
    exact markedIn_le counter (Nat.le_refl _) fun _ => rfl
  · obtain ⟨isCall, called⟩ := outcomeOf_eq_some made
    obtain ⟨_, fits, queued, _⟩ := callOf_prepared sound isCall
    have accounted := calibrateCase_accounted fits called
    obtain ⟨marks, length, _⟩ := afterCall_marks op outcome
    have before := callOf_marked counter id isCall
    have during := accounted.marked_le queued counter id
    have after : markedIn counter id outcome.afl ≤
        markedIn counter id (afterCall op outcome) :=
      markedIn_le counter (Nat.le_of_eq length.symm) fun _ => by rw [marks]
    rw [made, is]
    simp only [Option.elim_some]
    omega

theorem timesCounted_le (ops : List Op) {afl : State} (sound : Sound afl) :
    timesCounted settings counter id ops afl + markedIn counter id afl ≤
      1 := by
  have marked_le : ∀ afl : State, markedIn counter id afl ≤ 1 := by
    intro afl
    unfold markedIn
    split <;> decide
  induction ops generalizing afl with
  | nil =>
      rw [timesCounted, Nat.zero_add]
      exact marked_le afl
  | cons op ops induction =>
      rw [timesCounted]
      cases stepped : step settings op afl with
      | none =>
          have none : outcomeOf settings op afl = none := by
            cases made : outcomeOf settings op afl with
            | none => rfl
            | some outcome =>
                cases op <;>
                  simp [step, made] at stepped
          rw [none]
          simpa using marked_le afl
      | some next =>
          have counted := step_marked sound counter id stepped
          have rest := induction (sound.step stepped)
          simp only [Option.elim_some]
          omega

theorem Empty.sound (empty : Empty afl) : Sound afl where
  calFailed id queued := by
    rw [empty.queuedPaths] at queued
    exact absurd queued (Nat.not_lt_zero id)
  counted counter := by
    rw [empty.queuedPaths, Nat.count_zero]
    cases counter with
    | queuedWithCov => exact empty.queuedWithCov
    | queuedVariable => exact empty.queuedVariable

/-- In a session each entry is counted at most once by each counter, and
every call of `calibrate_case` leaves its account, with a failure that is one
more where it is aborted. -/
theorem calibrations_accounted (settings : Settings) {ops : List Op}
    {start reached : State} (empty : Empty start)
    (runs : runMoves (step settings) ops start = some reached) :
    (∀ counter id, timesCounted settings counter id ops start ≤ 1) ∧
    ∀ op q call prepared outcome,
      outcomeOf settings op reached = some (q, call, prepared, outcome) →
      Accounted settings call q prepared outcome ∧
        (outcome.aborted = true →
          (outcome.afl.queue.queueBuf q).calFailed.toNat =
            (prepared.queue.queueBuf q).calFailed.toNat + 1) := by
  have sound : Sound reached :=
    runMoves_invariant Sound (fun _ _ _ holds stepped => holds.step stepped)
      empty.sound runs
  refine ⟨fun counter id => ?_, fun op q call prepared outcome made => ?_⟩
  · exact Nat.le_of_add_right_le (timesCounted_le counter id ops empty.sound)
  · obtain ⟨isCall, called⟩ := outcomeOf_eq_some made
    obtain ⟨_, fits, _, below⟩ := callOf_prepared sound isCall
    have accounted := calibrateCase_accounted fits called
    exact ⟨accounted, (accounted.calFailed below).1⟩

theorem firstMaps_aligned : 64 ∣ 64 := Nat.dvd_refl 64

theorem firstQueue_aligned : 8 ∣ 64 := ⟨8, rfl⟩

theorem firstQueue_bounded : 64 < 2 ^ 32 := by decide

/-- A map of 64 bytes and no entry. -/
def firstState : State :=
  { maps :=
      { mapSize := 64
        aligned := firstMaps_aligned
        traceBits := fun _ => 0#8
        virginBits := fun _ => 0xff#8
        virginTmout := fun _ => 0xff#8
        virginCrash := fun _ => 0xff#8
        bitmapChanged := false }
    queue := QueueSettings.start
      { mapSize := 64
        aligned := firstQueue_aligned
        bounded := firstQueue_bounded
        schedule := .explore
        fixedSeed := false
        nonInstrumentedMode := false }
    marks := fun _ => blankMarks
    firstTrace := fun _ => 0#8
    varBytes := fun _ => 0#8
    varByteCount := 0
    stageName := "init"
    stageCur := 0#32
    stageMax := 0#32
    queuedWithCov := 0
    queuedVariable := 0
    totalCalUs := 0#64
    totalCalCycles := 0#64
    totalBitmapSize := 0
    totalBitmapEntries := 0 }

def firstSettings : Settings :=
  { flavour := .word64
    cmplogMode := false
    crashMode := .ok
    aflCalFast := false
    hash64 := fun trace _ => (trace 0).setWidth 64 + 1#64 }

/-- A target without instrumentation. -/
def emptyCall : Call :=
  { handicap := 0#32
    fromQueue := true
    resumingFuzz := false
    execTmout := 1000#32
    target := fun _ _ =>
      { fault := .ok
        trace := fun _ => 0#8
        stopSoon := false }
    startUs := 0#64
    stopUs := 5#64
    forkServer := true
    wrongChild := false
    linkMade := true }

/-- The dry run calibrates an entry that is as `add_to_queue` has left it. -/
theorem outcomeOf_performDryRun {q : Nat} {call : Call} {skipsTimeout : Bool}
    {aborted : Bool} {completed : Nat}
    (ready : q < afl.queue.queuedPaths ∧ afl.execCksum q = 0#64 ∧
      (afl.queue.queueBuf q).calFailed = 0#8)
    (ended : ((calibrateCase settings call q afl).map fun outcome =>
      (outcome.aborted, outcome.completed)) = some (aborted, completed)) :
    ∃ outcome, outcomeOf settings (.performDryRun q call skipsTimeout) afl =
        some (q, call, afl, outcome) ∧
      outcome.aborted = aborted ∧ outcome.completed = completed := by
  obtain ⟨outcome, called, ends⟩ := Option.map_eq_some_iff.mp ended
  obtain ⟨isAborted, isCompleted⟩ := Prod.mk.inj ends
  refine ⟨outcome, ?_, isAborted, isCompleted⟩
  simp only [outcomeOf, callOf, if_pos ready, Option.bind_some, called,
    Option.map_some]

theorem calibrations_accounted_case :
    ∃ outcome,
      outcomeOf firstSettings (.performDryRun 0 emptyCall false)
        (firstState.addToQueue 1#32 false) =
          some (0, emptyCall, firstState.addToQueue 1#32 false, outcome) ∧
      Accounted firstSettings emptyCall 0
        (firstState.addToQueue 1#32 false) outcome ∧
      outcome.aborted = true ∧ outcome.completed = 0 ∧
      (outcome.afl.queue.queueBuf 0).calFailed.toNat = 1 := by
  have ended : ((calibrateCase firstSettings emptyCall 0
      (firstState.addToQueue 1#32 false)).map fun outcome =>
        (outcome.aborted, outcome.completed)) = some (true, 0) := by
    decide +kernel
  obtain ⟨outcome, made, aborted, completed⟩ :=
    @outcomeOf_performDryRun firstSettings _ 0 emptyCall false true 0
      ⟨Nat.zero_lt_one, rfl, rfl⟩ ended
  have runs : runMoves (step firstSettings) [.addToQueue 1#32 false]
      firstState = some (firstState.addToQueue 1#32 false) := by
    simp only [runMoves, step]
  have accounts := (calibrations_accounted firstSettings ⟨rfl, rfl, rfl⟩ runs).2
  obtain ⟨accounted, failed⟩ := accounts _ _ _ _ _ made
  exact ⟨outcome, made, accounted, aborted, completed, failed aborted⟩

end CalibrateCase

end AFLPlusPlus
