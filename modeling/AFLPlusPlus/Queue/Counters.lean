import AFLPlusPlus.Queue.Winners

/-!
# The counters of the queue

`active_paths`, `pending_not_fuzzed` and `pending_favored` are adjusted where
entries are added, disabled, favored and fuzzed.  They count what they are named
after as long as no entry is disabled after it was fuzzed or favored, and as long
as culling favors no entry that was marked as fuzzed without being fuzzed.
-/

namespace AFLPlusPlus

namespace QueueState

def enabledEntry (entry : QueueEntry) : Bool := !entry.disabled

/-- An entry that `fuzz_one` has not finished yet. -/
def unfuzzedEntry (entry : QueueEntry) : Bool := !entry.wasFuzzed

def waitingEntry (entry : QueueEntry) : Bool :=
  !entry.disabled && entry.favored && !entry.wasFuzzed

/-- The counters are the numbers of entries they stand for. -/
structure Counters (afl : QueueState) : Prop where
  activePaths : afl.activePaths = afl.countEntries enabledEntry
  pendingNotFuzzed : afl.pendingNotFuzzed = afl.countEntries unfuzzedEntry
  pendingFavored : afl.pendingFavored = afl.countEntries waitingEntry

/-- The counters, and that a disabled entry counts as fuzzed. -/
structure CountersInvariant (afl : QueueState) : Prop where
  counters : afl.Counters
  disabled : ∀ id < afl.queuedPaths, (afl.queueBuf id).disabled = true →
    (afl.queueBuf id).wasFuzzed = true

/-- The operations after which the counters can be off: culling when it favors
an entry that was marked as fuzzed and never fuzzed, and a dry run that disables
an entry already fuzzed or favored. -/
def StepMeets (afl : QueueState) : QueueOp → Prop
  | .cullQueue => afl.scoreChanged = true → afl.nonInstrumentedMode = false →
      ∀ id < afl.queuedPaths, afl.Picked id →
        (afl.queueBuf id).wasFuzzed = true → (afl.queueBuf id).fuzzLevel ≠ 0#32
  | .performDryRun run => ∀ id < afl.queuedPaths,
      (afl.queueBuf id).disabled = false → run.Disables afl id →
        (afl.queueBuf id).wasFuzzed = false ∧ (afl.queueBuf id).favored = false
  | _ => True

/-- Every operation of a run meets its condition. -/
def MeetsAll (afl : QueueState) : List QueueOp → Prop
  | [] => True
  | op :: ops => afl.StepMeets op ∧ ∀ next, afl.step op = .ok next → next.MeetsAll ops

variable {afl : QueueState}

variable {q queueCur : Nat} {after before current : QueueState}

theorem CountersInvariant.of_sameProgress (invariant : afl.CountersInvariant)
    (same : SameProgress afl after) :
    after.CountersInvariant := by
  obtain ⟨⟨activePaths, pendingNotFuzzed, pendingFavored⟩, disabled⟩ := invariant
  refine ⟨⟨?_, ?_, ?_⟩, ?_⟩
  · rw [same.activePaths, activePaths]
    refine congrArg _ (countEntries_congr same.queuedPaths fun id _ => ?_).symm
    simp only [enabledEntry, same.disabled]
  · rw [same.pendingNotFuzzed, pendingNotFuzzed]
    refine congrArg _ (countEntries_congr same.queuedPaths fun id _ => ?_).symm
    simp only [unfuzzedEntry, same.wasFuzzed]
  · rw [same.pendingFavored, pendingFavored]
    refine congrArg _ (countEntries_congr same.queuedPaths fun id _ => ?_).symm
    simp only [waitingEntry, same.disabled, same.favored, same.wasFuzzed]
  · intro id inside isDisabled
    rw [same.queuedPaths] at inside
    rw [same.disabled] at isDisabled
    rw [same.wasFuzzed]
    exact disabled id inside isDisabled

theorem countEntries_addToQueue (afl : QueueState) (len : BitVec 32) (passedDet : Bool)
    (property : QueueEntry → Bool) :
    (afl.addToQueue len passedDet).countEntries property =
      afl.countEntries property +
        if property { blankEntry with len, passedDet } then 1 else 0 := by
  unfold countEntries
  have length : (afl.addToQueue len passedDet).queuedPaths = afl.queuedPaths + 1 := rfl
  rw [length, Nat.count_succ]
  congr 1
  · apply Counting.count_congr
    intro id inside
    have old : id ≠ afl.queuedPaths := by omega
    simp [addToQueue, old]
  · simp [addToQueue]

theorem CountersInvariant.addToQueue (invariant : afl.CountersInvariant)
    (len : BitVec 32) (passedDet : Bool) :
    (afl.addToQueue len passedDet).CountersInvariant := by
  obtain ⟨⟨activePaths, pendingNotFuzzed, pendingFavored⟩, disabled⟩ := invariant
  have counts := fun property =>
    countEntries_addToQueue afl len passedDet property
  refine ⟨⟨?_, ?_, ?_⟩, ?_⟩
  · have count := counts enabledEntry
    rw [if_pos (by rfl)] at count
    rw [count]
    simp [QueueState.addToQueue, activePaths]
  · have count := counts unfuzzedEntry
    rw [if_pos (by rfl)] at count
    rw [count]
    simp [QueueState.addToQueue, pendingNotFuzzed]
  · have count := counts waitingEntry
    rw [if_neg (by simp [waitingEntry, blankEntry])] at count
    rw [count]
    simp [QueueState.addToQueue, pendingFavored]
  · intro id inside isDisabled
    have bound : id < afl.queuedPaths + 1 := inside
    by_cases new : id = afl.queuedPaths
    · subst id
      simp [QueueState.addToQueue, blankEntry] at isDisabled
    · simp only [QueueState.addToQueue, Function.update_of_ne new]
        at isDisabled ⊢
      exact disabled id (by omega) isDisabled

/-- A counter that follows the number of entries with a property. -/
theorem counter_of_count {counterBefore counterAfter : Int}
    {countBefore countAfter : Nat} {was now : Bool}
    (counter : counterAfter + (if was then 1 else 0) =
      counterBefore + (if now then 1 else 0))
    (count : countAfter + (if was then 1 else 0) =
      countBefore + (if now then 1 else 0))
    (counts : counterBefore = countBefore) : counterAfter = countAfter := by
  cases was <;> cases now <;> simp at counter count <;> omega

section

variable (invariant : afl.CountersInvariant)
include invariant

/-- Only one entry changes, and the counters change with it. -/
theorem CountersInvariant.of_entry (queued : q < afl.queuedPaths)
    (queuedPaths : after.queuedPaths = afl.queuedPaths)
    (others : ∀ id ≠ q, after.queueBuf id = afl.queueBuf id)
    (activePaths : after.activePaths +
        (if enabledEntry (afl.queueBuf q) then 1 else 0) =
      afl.activePaths + (if enabledEntry (after.queueBuf q) then 1 else 0))
    (pendingNotFuzzed : after.pendingNotFuzzed +
        (if unfuzzedEntry (afl.queueBuf q) then 1 else 0) =
      afl.pendingNotFuzzed + (if unfuzzedEntry (after.queueBuf q) then 1 else 0))
    (pendingFavored : after.pendingFavored +
        (if waitingEntry (afl.queueBuf q) then 1 else 0) =
      afl.pendingFavored + (if waitingEntry (after.queueBuf q) then 1 else 0))
    (disabled : (after.queueBuf q).disabled = true →
      (after.queueBuf q).wasFuzzed = true) :
    after.CountersInvariant := by
  obtain ⟨⟨active, unfuzzed, waiting⟩, wasDisabled⟩ := invariant
  have change := countEntries_change queued queuedPaths
    fun id _ different => others id different
  refine ⟨⟨?_, ?_, ?_⟩, ?_⟩
  · exact counter_of_count activePaths (change enabledEntry) active
  · exact counter_of_count pendingNotFuzzed (change unfuzzedEntry) unfuzzed
  · exact counter_of_count pendingFavored (change waitingEntry) waiting
  · intro id inside isDisabled
    by_cases same : id = q
    · subst id
      exact disabled isDisabled
    · rw [queuedPaths] at inside
      rw [others id same] at isDisabled ⊢
      exact wasDisabled id inside isDisabled

theorem CountersInvariant.disableEntry (queued : q < afl.queuedPaths)
    (enabled : (afl.queueBuf q).disabled = false)
    (unfuzzed : (afl.queueBuf q).wasFuzzed = false)
    (unfavored : (afl.queueBuf q).favored = false) :
    (afl.disableEntry q).CountersInvariant := by
  have entry : (afl.disableEntry q).queueBuf q =
      { afl.queueBuf q with wasFuzzed := true, disabled := true } := by
    simp [QueueState.disableEntry]
  refine invariant.of_entry queued rfl
    (fun id different => disableEntry_queueBuf_of_ne afl different) ?_ ?_ ?_ ?_
  · rw [entry]
    simp [QueueState.disableEntry, enabledEntry, enabled, unfuzzed]
  · rw [entry]
    simp [QueueState.disableEntry, unfuzzedEntry, unfuzzed]
  · rw [entry]
    simp [QueueState.disableEntry, waitingEntry, unfavored]
  · rw [entry]
    exact fun _ => rfl

theorem CountersInvariant.markFuzzed (queued : queueCur < afl.queuedPaths)
    (enabled : (afl.queueBuf queueCur).disabled = false)
    (unfuzzed : (afl.queueBuf queueCur).wasFuzzed = false) :
    (afl.markFuzzed queueCur).CountersInvariant := by
  have entry : (afl.markFuzzed queueCur).queueBuf queueCur =
      { afl.queueBuf queueCur with wasFuzzed := true } := by
    simp [QueueState.markFuzzed]
  refine invariant.of_entry queued rfl ?_ ?_ ?_ ?_ ?_
  · intro id different
    simp [QueueState.markFuzzed, modify, different]
  · rw [entry]
    simp [QueueState.markFuzzed, enabledEntry]
  · rw [entry]
    simp [QueueState.markFuzzed, unfuzzedEntry, unfuzzed]
  · rw [entry]
    cases favored : (afl.queueBuf queueCur).favored <;>
      simp [QueueState.markFuzzed, waitingEntry, enabled, unfuzzed, favored]
  · rw [entry]
    exact fun _ => rfl

theorem CountersInvariant.abandonEntry (queued : queueCur < afl.queuedPaths)
    (stopSoon : Bool) :
    (afl.abandonEntry queueCur stopSoon).CountersInvariant := by
  have counted : ∀ current : QueueState, current.CountersInvariant →
      (current.modify queueCur fun entry =>
        { entry with
          fuzzLevel := entry.fuzzLevel + 1#32 }).CountersInvariant :=
    fun _ holds => holds.of_sameProgress
      (sameProgress_modify queueCur
        (fun entry => { entry with fuzzLevel := entry.fuzzLevel + 1#32 })
        (fun _ => ⟨rfl, rfl, rfl⟩) rfl rfl rfl rfl rfl)
  unfold QueueState.abandonEntry
  apply counted
  split
  · rename_i finished
    split
    · rename_i unfuzzed
      exact invariant.markFuzzed queued finished.2.2.2 unfuzzed
    · exact invariant
  · exact invariant

end

/-- In the dry run entries are disabled and not changed otherwise, as far as
the counters go. -/
structure OnlyDisabled (before after : QueueState) : Prop where
  queuedPaths : after.queuedPaths = before.queuedPaths
  enabled : ∀ id, (after.queueBuf id).disabled = false →
    (before.queueBuf id).disabled = false ∧
      (after.queueBuf id).wasFuzzed = (before.queueBuf id).wasFuzzed ∧
      (after.queueBuf id).favored = (before.queueBuf id).favored

theorem OnlyDisabled.of_sameProgress (disabled : OnlyDisabled before current)
    (same : SameProgress current after) : OnlyDisabled before after := by
  refine ⟨same.queuedPaths.trans disabled.queuedPaths, ?_⟩
  intro id enabled
  rw [same.disabled] at enabled
  rw [same.wasFuzzed, same.favored]
  exact disabled.enabled id enabled

theorem OnlyDisabled.disableEntry (disabled : OnlyDisabled before current) (q : Nat) :
    OnlyDisabled before (current.disableEntry q) := by
  refine ⟨disabled.queuedPaths, ?_⟩
  intro id enabled
  by_cases same : id = q
  · subst id
    simp [QueueState.disableEntry] at enabled
  · rw [disableEntry_queueBuf_of_ne current same] at enabled ⊢
    exact disabled.enabled id enabled

section

variable (invariant : afl.CountersInvariant)
include invariant

theorem CountersInvariant.performDryRun {run : DryRun}
    (meets : afl.StepMeets (.performDryRun run)) :
    Yields (fun failure => failure = .fatal) CountersInvariant
      (afl.performDryRun run) := by
  refine (performDryRun_rule (fun current => current.CountersInvariant ∧
      OnlyDisabled afl current) ?_ ?_ ?_ ⟨invariant, rfl, ?_⟩).mono
    fun _ holds => holds.1
  · rintro current q ⟨holds, disabled⟩ _
    have same := calibrateCase_sameProgress current q
      (run.cases q).calibration
    exact ⟨holds.of_sameProgress same, disabled.of_sameProgress same⟩
  · rintro current q ⟨holds, disabled⟩
    have same : SameProgress current (current.modify q fun entry =>
        { entry with calFailed := calChances }) :=
      sameProgress_modify q (fun entry => { entry with calFailed := calChances })
        (fun _ => ⟨rfl, rfl, rfl⟩) rfl rfl rfl rfl rfl
    exact ⟨holds.of_sameProgress same, disabled.of_sameProgress same⟩
  · rintro current q ⟨holds, disabled⟩ queued enabled disables
    obtain ⟨wasEnabled, wasFuzzed, favored⟩ := disabled.enabled q enabled
    rw [disabled.queuedPaths] at queued
    obtain ⟨unfuzzed, unfavored⟩ := meets q queued wasEnabled disables
    refine ⟨holds.disableEntry ?_ enabled ?_ ?_, disabled.disableEntry q⟩
    · rw [disabled.queuedPaths]
      exact queued
    · rw [wasFuzzed, unfuzzed]
    · rw [favored, unfavored]
  · exact fun id enabled => ⟨enabled, rfl, rfl⟩

theorem CountersInvariant.cullQueue (rated : afl.RatedInvariant)
    (meets : afl.StepMeets .cullQueue) :
    ∃ culled, afl.cullQueue = .ok culled ∧ culled.CountersInvariant := by
  by_cases idle : afl.scoreChanged = false ∨ afl.nonInstrumentedMode = true
  · refine ⟨afl, ?_, invariant⟩
    unfold QueueState.cullQueue
    rw [if_pos idle]
  rw [not_or, Bool.not_eq_false, Bool.not_eq_true] at idle
  obtain ⟨culled, run, marks, favored, _, _, pendingFavored⟩ :=
    cullQueue_spec rated idle.1 idle.2
  obtain ⟨⟨activePaths, pendingNotFuzzed, _⟩, disabled⟩ := invariant
  refine ⟨culled, run, ⟨?_, ?_, ?_⟩, ?_⟩
  · rw [marks.activePaths, activePaths]
    refine congrArg _
      (countEntries_congr marks.queuedPaths fun id _ => ?_).symm
    simp only [enabledEntry, marks.disabled]
  · rw [marks.pendingNotFuzzed, pendingNotFuzzed]
    refine congrArg _
      (countEntries_congr marks.queuedPaths fun id _ => ?_).symm
    simp only [unfuzzedEntry, marks.wasFuzzed]
  · rw [pendingFavored]
    refine congrArg _ (countEntries_congr rfl fun id inside => ?_)
    rw [marks.queuedPaths] at inside
    have picked := favored id inside
    have fuzzed := meets idle.1 idle.2 id inside
    have marked := disabled id inside
    rw [← marks.wasFuzzed, ← marks.fuzzLevel] at fuzzed
    rw [← marks.disabled, ← marks.wasFuzzed] at marked
    -- A favored entry that was fuzzed has a level; a disabled one was fuzzed.
    unfold pendingEntry waitingEntry
    by_cases isFavored : (culled.queueBuf id).favored = true
    · have level := fuzzed (picked.mp isFavored)
      cases wasFuzzed : (culled.queueBuf id).wasFuzzed with
      | true => simp [isFavored, level wasFuzzed]
      | false =>
          have enabled : (culled.queueBuf id).disabled = false := by
            by_contra isDisabled
            rw [Bool.not_eq_false] at isDisabled
            rw [marked isDisabled] at wasFuzzed
            cases wasFuzzed
          simp [isFavored, enabled]
    · simp [isFavored]
  · intro id inside isDisabled
    rw [marks.queuedPaths] at inside
    rw [marks.disabled] at isDisabled
    rw [marks.wasFuzzed]
    exact disabled id inside isDisabled

theorem CountersInvariant.onEntry (q : Nat) {change : QueueState → QueueState}
    (keeps : q < afl.queuedPaths → (change afl).CountersInvariant) :
    (afl.onEntry q change).CountersInvariant := by
  unfold QueueState.onEntry
  split
  · rename_i queued
    exact keeps queued
  · exact invariant

theorem CountersInvariant.step (rated : afl.RatedInvariant) (op : QueueOp)
    (meets : afl.StepMeets op) :
    Yields (fun failure => failure = .fatal) CountersInvariant
      (afl.step op) := by
  cases op with
  | addToQueue len passedDet => exact invariant.addToQueue len passedDet
  | execute trace =>
      exact invariant.of_sameProgress
        ⟨rfl, rfl, rfl, rfl, fun _ => rfl, fun _ => rfl, fun _ => rfl⟩
  | updateBitmapScore q =>
      exact invariant.onEntry q fun _ => invariant.of_sameProgress
        (updateBitmapScore_sameQueue afl q).sameProgress
  | calibrateCase q calibration =>
      exact invariant.onEntry q fun _ => invariant.of_sameProgress
        (calibrateCase_sameProgress afl q calibration)
  | trimCase q len trace =>
      exact invariant.onEntry q fun _ => invariant.of_sameProgress
        (trimCase_sameProgress afl q len trace)
  | countFuzz slot value =>
      exact invariant.of_sameProgress
        ⟨rfl, rfl, rfl, rfl, fun _ => rfl, fun _ => rfl, fun _ => rfl⟩
  | assignNFuzzEntry q slot =>
      exact invariant.onEntry q fun _ => invariant.of_sameProgress
        (sameProgress_modify q (fun entry => { entry with nFuzzEntry := slot })
          (fun _ => ⟨rfl, rfl, rfl⟩) rfl rfl rfl rfl rfl)
  | cycleSchedules =>
      exact invariant.of_sameProgress (cycleSchedules_sameProgress afl)
  | performDryRun run => exact invariant.performDryRun meets
  | cullQueue =>
      obtain ⟨culled, run, holds⟩ := invariant.cullQueue rated meets
      rw [QueueState.step, run]
      exact holds
  | abandonEntry queueCur stopSoon =>
      exact invariant.onEntry queueCur fun queued =>
        invariant.abandonEntry queued stopSoon

theorem CountersInvariant.run (rated : afl.RatedInvariant) (ops : List QueueOp)
    (meets : afl.MeetsAll ops) :
    Yields (fun failure => failure = .fatal) CountersInvariant
      (afl.run ops) := by
  induction ops generalizing afl with
  | nil => exact invariant
  | cons op ops induction =>
      obtain ⟨first, rest⟩ := meets
      have counted := invariant.step rated op first
      have ratedNext := rated.step op
      unfold QueueState.run
      cases stepped : afl.step op with
      | error failure =>
          rw [stepped] at counted
          exact counted
      | ok next =>
          rw [stepped] at counted ratedNext
          exact induction counted ratedNext (rest next stepped)

end

theorem start_countersInvariant (settings : QueueSettings) :
    settings.start.CountersInvariant := by
  refine ⟨⟨rfl, rfl, rfl⟩, ?_⟩
  intro id none
  cases none

/-- In a run whose operations all meet their condition, the counters are right
in the state reached; no favored entry is pending once all enabled ones are
fuzzed. -/
theorem run_counters (settings : QueueSettings) (ops : List QueueOp)
    (reached : QueueState) (meets : settings.start.MeetsAll ops)
    (runs : settings.start.run ops = .ok reached) :
    reached.activePaths = reached.countEntries enabledEntry ∧
      reached.pendingNotFuzzed = reached.countEntries unfuzzedEntry ∧
      reached.pendingFavored = reached.countEntries waitingEntry ∧
      ((∀ id < reached.queuedPaths, (reached.queueBuf id).disabled = false →
          (reached.queueBuf id).favored = true →
            (reached.queueBuf id).wasFuzzed = true) →
        reached.pendingFavored = 0) := by
  have invariant := (start_countersInvariant settings).run
    (start_ratedInvariant settings) ops meets
  rw [runs] at invariant
  obtain ⟨⟨activePaths, pendingNotFuzzed, pendingFavored⟩, _⟩ := invariant
  refine ⟨activePaths, pendingNotFuzzed, pendingFavored, ?_⟩
  intro finished
  have none : reached.countEntries waitingEntry = 0 := by
    unfold countEntries
    rw [Nat.count_iff_forall_not]
    intro id inside waits
    simp only [waitingEntry, Bool.and_eq_true, Bool.not_eq_true'] at waits
    obtain ⟨⟨enabled, favored⟩, unfuzzed⟩ := waits
    rw [finished id inside enabled favored] at unfuzzed
    cases unfuzzed
  rw [pendingFavored, none]
  rfl

/-- A dry run over cases that all succeed, the first entry in a microsecond and
the others slower, with one trace and one checksum for all. -/
def alikeCases : DryRun :=
  { crashMode := false
    timeoutGiven := false
    exitOnSeedIssues := false
    cases := fun id =>
      { calibration :=
          { trace := fun i => if i = 0 then 1#8 else 0#8
            execCksum := 7#64
            execUs := if id = 0 then 1#64 else 100#64
            completed := true }
        res := .ok
        stopSoon := false } }

set_option maxRecDepth 20000 in
theorem run_counters_single :
    let ops := [QueueOp.addToQueue 4#32 false, .performDryRun alikeCases,
      .cullQueue, .abandonEntry 0 false]
    ∃ reached, smallMap.start.MeetsAll ops ∧ smallMap.start.run ops = .ok reached ∧
      reached.activePaths = reached.countEntries enabledEntry ∧
        reached.pendingNotFuzzed = reached.countEntries unfuzzedEntry ∧
        reached.pendingFavored = reached.countEntries waitingEntry ∧
        ((∀ id < reached.queuedPaths,
            (reached.queueBuf id).disabled = false →
              (reached.queueBuf id).favored = true →
                (reached.queueBuf id).wasFuzzed = true) →
          reached.pendingFavored = 0) := by
  intro ops
  have meets : smallMap.start.MeetsAll ops := by
    refine ⟨trivial, fun added first => ⟨?_, fun dried second => ⟨?_, ?_⟩⟩⟩
    · obtain rfl : _ = added := Except.ok.inj first
      intro id _ _ _
      have only : id = 0 := by
        have bound : id < 1 := by assumption
        omega
      subst id
      exact ⟨rfl, rfl⟩
    · obtain rfl : _ = added := Except.ok.inj first
      obtain rfl : _ = dried := Except.ok.inj second
      intro _ _ id bound _ fuzzed
      have only : id = 0 := by
        have inside : id < 1 := bound
        omega
      subst id
      exact absurd fuzzed (by decide)
    · exact fun _ _ => ⟨trivial, fun _ _ => trivial⟩
  refine ⟨_, meets, rfl, ?_⟩
  exact run_counters smallMap ops _ meets rfl

set_option maxRecDepth 20000 in
/-- The entry that is disabled for a slower but shorter duplicate stays the
winner of its index.  Culling favors it and counts it as pending, although no
enabled entry is favored. -/
theorem run_counters_fails_for_disabled_winner :
    ∃ reached,
      smallMap.start.run [.addToQueue 10#32 false, .addToQueue 9#32 false,
        .performDryRun alikeCases, .cullQueue] = .ok reached ∧
      reached.pendingFavored = 1 ∧ reached.countEntries waitingEntry = 0 ∧
      ∀ id < reached.queuedPaths, (reached.queueBuf id).disabled = false →
        (reached.queueBuf id).favored = false := by
  refine ⟨_, rfl, ?_, ?_, ?_⟩
  · decide
  · decide
  · intro id inside
    have bound : id < 2 := inside
    decide +revert

end QueueState

end AFLPlusPlus
