import AFLPlusPlus.Havoc.Runs

/-!
# Entries that are ready for splicing

The queue counts its entries of more than 4 bytes when they are added, when an
execution of the havoc stage adds one, and when trimming makes one too short.
As long as the fuzzer is not stopped there are that many, so that the runs of
havoc and splicing that begin in between are sound.
-/

namespace AFLPlusPlus

open EarlyExit

/-- An entry of the queue, as far as it is counted. -/
structure SplicingEntry where
  testcase : List (BitVec 8)
  trimDone : Bool

/-- The queue with `ready_for_splicing_count` and `stop_soon`. -/
structure SplicingQueue where
  entries : List SplicingEntry
  readyForSplicingCount : Nat
  stopSoon : Bool

/-- `--` of a `u32` -/
def decrement (count : Nat) : Nat := if count = 0 then 2 ^ 32 - 1 else count - 1

namespace SplicingQueue

def empty : SplicingQueue where
  entries := []
  readyForSplicingCount := 0
  stopSoon := false

def testcases (afl : SplicingQueue) : List (List (BitVec 8)) :=
  afl.entries.map SplicingEntry.testcase

def addToQueue (testcase : List (BitVec 8)) (afl : SplicingQueue) :
    SplicingQueue :=
  { afl with
    entries := afl.entries ++ [{ testcase, trimDone := false }]
    readyForSplicingCount :=
      afl.readyForSplicingCount + if 4 < testcase.length then 1 else 0 }

/-- What `fuzz_one` does with an entry that `trim_case` was called for. When the
fuzzer is stopped by then, the entry is abandoned before it is counted. -/
def trimmed (index : Nat) (entry : SplicingEntry) (testcase : List (BitVec 8))
    (stopSoon : Bool) (afl : SplicingQueue) : SplicingQueue :=
  if afl.stopSoon = true ∨ stopSoon = true then
    { afl with
      entries := afl.entries.set index { entry with testcase }
      stopSoon := true }
  else
    { afl with
      entries := afl.entries.set index { testcase, trimDone := true }
      readyForSplicingCount :=
        if testcase.length ≤ 4 ∧ 4 < entry.testcase.length then
          decrement afl.readyForSplicingCount
        else afl.readyForSplicingCount }

/-- The queue after a run of havoc and splicing. -/
def fuzzed (state : HavocState) (afl : SplicingQueue) : SplicingQueue :=
  { afl with
    entries := afl.entries ++
      (state.queue.drop afl.entries.length).map fun testcase =>
        { testcase, trimDone := false }
    readyForSplicingCount := state.readyForSplicingCount }

end SplicingQueue

/-- The havoc stage begins with an entry of the queue, and with a buffer that
has room for it. -/
structure HavocSetting.Begins (setting : HavocSetting) (afl : SplicingQueue)
    (state : HavocState) : Prop where
  current : afl.testcases[setting.currentEntry]? = some setting.origIn
  input : state.inBuf = setting.origIn
  room : setting.origIn.length ≤ state.outBuf.room
  length : state.tempLen = setting.origIn.length
  queue : state.queue = afl.testcases
  ready : state.readyForSplicingCount = afl.readyForSplicingCount
  unseen : state.events = []
  faultless : state.fault = none

/-- What happens to the queue. A test case has at least a byte and at most
`MAX_FILE` bytes, and trimming is done once. -/
inductive SplicingStep : SplicingQueue → SplicingQueue → Prop where
  | addToQueue {afl : SplicingQueue} (testcase : List (BitVec 8))
      (positive : 0 < testcase.length) (small : testcase.length ≤ maxFile) :
      SplicingStep afl (afl.addToQueue testcase)
  | trim {afl : SplicingQueue} {index : Nat} {entry : SplicingEntry}
      (testcase : List (BitVec 8)) (stopSoon : Bool)
      (current : afl.entries[index]? = some entry)
      (untrimmed : entry.trimDone = false)
      (positive : 0 < testcase.length) (small : testcase.length ≤ maxFile) :
      SplicingStep afl (afl.trimmed index entry testcase stopSoon)
  | fuzz {afl : SplicingQueue} {setting : HavocSetting} {state : HavocState}
      (begins : setting.Begins afl state)
      (rounds stageMax spliceMax perfScore : Nat) :
      SplicingStep afl (afl.fuzzed
        ((setting.havocAndSplicing rounds stageMax spliceMax perfScore).run state).2)
  | stop {afl : SplicingQueue} : SplicingStep afl { afl with stopSoon := true }

theorem decrement_eq {count : Nat} (positive : 0 < count) :
    decrement count = count - 1 :=
  if_neg (Nat.ne_of_gt positive)

namespace SplicingQueue

/-- The number of entries that are longer than 4 bytes and can be trimmed. -/
def untrimmed (afl : SplicingQueue) : Nat :=
  afl.entries.countP fun entry =>
    entry.trimDone = false ∧ 4 < entry.testcase.length

/-- What holds of the queue as long as the fuzzer is not stopped. A trimmed
entry may have become longer than 4 bytes, and then it is not counted. -/
structure Counted (afl : SplicingQueue) : Prop where
  entries : ∀ entry ∈ afl.entries,
    0 < entry.testcase.length ∧ entry.testcase.length ≤ maxFile
  most : afl.readyForSplicingCount ≤ longer afl.testcases
  least : afl.untrimmed ≤ afl.readyForSplicingCount

variable {afl : SplicingQueue}

theorem longer_testcases (afl : SplicingQueue) :
    longer afl.testcases =
      afl.entries.countP fun entry => 4 < entry.testcase.length := by
  rw [longer, testcases, List.countP_map]
  rfl

theorem Counted.empty : SplicingQueue.empty.Counted where
  entries := fun _ member => nomatch member
  most := Nat.le_refl 0
  least := Nat.le_refl 0

theorem Counted.addToQueue (counted : afl.Counted)
    {testcase : List (BitVec 8)} (positive : 0 < testcase.length)
    (small : testcase.length ≤ maxFile) :
    (afl.addToQueue testcase).Counted := by
  have most := counted.most
  have least := counted.least
  rw [longer_testcases] at most
  refine ⟨?_, ?_, ?_⟩
  · intro entry member
    rcases List.mem_append.mp member with before | last
    · exact counted.entries entry before
    · rw [List.mem_singleton.mp last]
      exact ⟨positive, small⟩
  · rw [longer_testcases, SplicingQueue.addToQueue, List.countP_append,
      List.countP_singleton]
    simp only [decide_eq_true_eq]
    exact Nat.add_le_add_right most _
  · rw [untrimmed, SplicingQueue.addToQueue, List.countP_append, List.countP_singleton]
    simp only [true_and, decide_eq_true_eq]
    exact Nat.add_le_add_right least _

theorem Counted.trimmed (counted : afl.Counted) {index : Nat}
    {entry : SplicingEntry} {testcase : List (BitVec 8)} {stopSoon : Bool}
    (current : afl.entries[index]? = some entry)
    (untrimmed : entry.trimDone = false)
    (positive : 0 < testcase.length) (small : testcase.length ≤ maxFile)
    (running : (afl.trimmed index entry testcase stopSoon).stopSoon = false) :
    (afl.trimmed index entry testcase stopSoon).Counted := by
  by_cases stops : afl.stopSoon = true ∨ stopSoon = true
  · rw [SplicingQueue.trimmed, if_pos stops] at running
    cases running
  · have most := counted.most
    have least := counted.least
    have long := Counting.countP_replaced current { testcase, trimDone := true }
      fun entry => decide (4 < entry.testcase.length)
    have waiting := Counting.countP_replaced current
      { testcase, trimDone := true } fun entry => decide (entry.trimDone = false ∧ 4 < entry.testcase.length)
    simp only [untrimmed, true_and, decide_eq_true_eq, reduceCtorEq,
      false_and, if_false] at long waiting
    rw [longer_testcases] at most
    unfold SplicingQueue.untrimmed at least
    rw [SplicingQueue.trimmed, if_neg stops]
    refine ⟨?_, ?_, ?_⟩
    · intro other member
      rcases List.mem_or_eq_of_mem_set member with before | new
      · exact counted.entries other before
      · rw [new]
        exact ⟨positive, small⟩
    · rw [longer_testcases]
      dsimp only
      by_cases shortened : testcase.length ≤ 4 ∧ 4 < entry.testcase.length
      · rw [if_pos shortened.2] at long waiting
        rw [if_pos shortened, decrement_eq (by omega)]
        omega
      · rw [if_neg shortened]
        by_cases was : 4 < entry.testcase.length
        · rw [if_pos was, if_pos (by omega)] at long
          omega
        · rw [if_neg was] at long
          omega
    · unfold SplicingQueue.untrimmed
      dsimp only
      by_cases shortened : testcase.length ≤ 4 ∧ 4 < entry.testcase.length
      · rw [if_pos shortened.2] at waiting
        rw [if_pos shortened, decrement_eq (by omega)]
        omega
      · rw [if_neg shortened]
        omega

theorem Counted.fuzzed (counted : afl.Counted) {begun state : HavocState}
    (queue : begun.queue = afl.testcases)
    (ready : begun.readyForSplicingCount = afl.readyForSplicingCount)
    (sound : HavocSetting.Sound begun state) :
    (afl.fuzzed state).Counted := by
  obtain ⟨added, extended, grown⟩ := sound.grown
  have length : afl.entries.length = begun.queue.length := by
    rw [queue, testcases, List.length_map]
  have new : state.queue.drop afl.entries.length = added := by
    rw [extended, length, List.drop_left]
  have same : (afl.fuzzed state).testcases = state.queue := by
    rw [testcases, SplicingQueue.fuzzed, List.map_append, new, List.map_map,
      extended, queue]
    exact congrArg _ (List.map_id added)
  refine ⟨?_, ?_, ?_⟩
  · intro entry member
    apply sound.entries
    rw [← same]
    exact List.mem_map_of_mem member
  · rw [same]
    exact sound.counted
  · have untrimmed : (afl.fuzzed state).untrimmed = afl.untrimmed + longer added := by
      rw [SplicingQueue.untrimmed, SplicingQueue.fuzzed, new,
        List.countP_append, List.countP_map]
      apply congrArg (afl.untrimmed + ·)
      apply List.countP_congr
      intro testcase _
      simp only [Function.comp_apply, true_and]
    rw [untrimmed]
    exact (Nat.add_le_add_right counted.least _).trans_eq
      (ready ▸ grown).symm

end SplicingQueue

namespace HavocSetting.Begins

variable {setting : HavocSetting} {afl : SplicingQueue} {state : HavocState}

section

variable (begins : setting.Begins afl state) (counted : afl.Counted)
include begins counted

theorem bounds : 0 < setting.origIn.length ∧ setting.origIn.length ≤ maxFile := by
  obtain ⟨entry, member, same⟩ := List.mem_map.mp (List.mem_of_getElem? begins.current)
  rw [← same]
  exact counted.entries entry member

theorem sound : Sound state state := by
  obtain ⟨positive, small⟩ := begins.bounds counted
  refine ⟨begins.faultless, ?_, ?_, ?_, ?_, ?_, ?_, ?_, ?_, ?_⟩
  · intro event member
    rw [begins.unseen] at member
    cases member
  · rw [begins.length]
    exact positive
  · rw [begins.length]
    exact small
  · rw [begins.length]
    exact begins.room
  · rw [begins.input]
    exact positive
  · rw [begins.input]
    exact small
  · intro testcase member
    rw [begins.queue] at member
    obtain ⟨entry, member, same⟩ := List.mem_map.mp member
    rw [← same]
    exact counted.entries entry member
  · rw [begins.ready, begins.queue]
    exact counted.most
  · exact ⟨[], (List.append_nil _).symm, rfl⟩

theorem runs (rounds stageMax spliceMax perfScore : Nat) :
    Sound state ((setting.havocAndSplicing rounds stageMax spliceMax
      perfScore).run state).2 := by
  have small := (begins.bounds counted).2
  apply (triple_havocAndSplicing small _ _ _ _).final
  refine ⟨⟨begins.sound counted, False.elim⟩, ?_⟩
  rw [begins.input]
  exact begins.room

end

end HavocSetting.Begins

theorem SplicingStep.counted {afl next : SplicingQueue}
    (steps : SplicingStep afl next)
    (counted : afl.stopSoon = false → afl.Counted)
    (running : next.stopSoon = false) : next.Counted := by
  cases steps with
  | addToQueue testcase positive small =>
      exact (counted running).addToQueue positive small
  | trim testcase stopSoon current untrimmed positive small =>
      apply (counted _).trimmed current untrimmed positive small running
      by_contra stopped
      rw [SplicingQueue.trimmed,
        if_pos (Or.inl (Bool.eq_true_of_not_eq_false stopped))] at running
      cases running
  | fuzz begins rounds stageMax spliceMax perfScore =>
      exact (counted running).fuzzed begins.queue begins.ready
        (begins.runs (counted running) _ _ _ _)
  | stop => cases running

theorem counted_of_run {afl : SplicingQueue}
    (run : Relation.ReflTransGen SplicingStep .empty afl)
    (running : afl.stopSoon = false) : afl.Counted := by
  induction run with
  | refl => exact SplicingQueue.Counted.empty
  | tail _ steps induction => exact steps.counted induction running

/-- In every run of a fuzzer that is not stopped the counter is right, and havoc
and splicing are sound whenever they begin. -/
theorem havocAndSplicing_sound {afl : SplicingQueue}
    (run : Relation.ReflTransGen SplicingStep .empty afl)
    (running : afl.stopSoon = false) :
    afl.readyForSplicingCount ≤ longer afl.testcases ∧
      ∀ (setting : HavocSetting) (state : HavocState), setting.Begins afl state →
        ∀ rounds stageMax spliceMax perfScore,
          HavocSetting.Sound state
            ((setting.havocAndSplicing rounds stageMax spliceMax perfScore).run
              state).2 := by
  have counted := counted_of_run run running
  exact ⟨counted.most, fun _ _ begins => begins.runs counted⟩

def splicingPair : SplicingQueue :=
  (SplicingQueue.empty.addToQueue [1, 2, 3, 4, 5]).addToQueue [6, 7, 8, 9, 10]

/-- Numbers that are always 1, and executions that find nothing. -/
def plainHavoc : HavocSetting where
  origIn := [1, 2, 3, 4, 5]
  currentEntry := 0
  extras := []
  aExtras := []
  stackedCustoms := []
  random := fun _ => 1
  patience := 1
  havocStackPow2 := 7
  queueCycle := 1
  runOver10m := fun _ => false
  expandHavoc := fun _ => true
  nothingFoundFor5s := fun _ => false
  useSplicing := true
  havocMaxMult := 64
  outcome := fun _ _ => { queued := false, abandons := false }

def plainHavocState : HavocState :=
  let unused : AflBuf := { completeSize := 0, bytes := fun _ => 0 }
  { inBuf := [1, 2, 3, 4, 5]
    outBuf :=
      { completeSize := 64
        bytes := Buffer.storeBytes (fun _ => 0) 0 [1, 2, 3, 4, 5] }
    outScratchBuf := unused
    inScratchBuf := unused
    savedInBuf := unused
    tempLen := 5
    draws := 0
    execs := 0
    queue := splicingPair.testcases
    readyForSplicingCount := 2
    events := []
    fault := none }

theorem havocAndSplicing_sound_pair :
    splicingPair.readyForSplicingCount ≤ longer splicingPair.testcases ∧
      HavocSetting.Sound plainHavocState
        ((plainHavoc.havocAndSplicing 256 256 32 100).run plainHavocState).2 := by
  have run : Relation.ReflTransGen SplicingStep .empty splicingPair :=
    (Relation.ReflTransGen.refl.tail
      (SplicingStep.addToQueue _ (by decide) (by decide))).tail
      (SplicingStep.addToQueue _ (by decide) (by decide))
  obtain ⟨counted, sound⟩ := havocAndSplicing_sound run rfl
  refine ⟨counted, sound plainHavoc plainHavocState ?_ _ _ _ _⟩
  exact ⟨rfl, rfl, by decide, rfl, rfl, rfl, rfl, rfl⟩

/-- An entry of 8 bytes is counted and then trimmed to 4 bytes, while the fuzzer
is stopped. -/
def stoppedInTrim : SplicingQueue :=
  (SplicingQueue.empty.addToQueue [1, 2, 3, 4, 5, 6, 7, 8]).trimmed 0
    { testcase := [1, 2, 3, 4, 5, 6, 7, 8], trimDone := false } [1, 2, 3, 4]
    true

theorem readyForSplicing_stopped :
    Relation.ReflTransGen SplicingStep .empty stoppedInTrim ∧
      longer stoppedInTrim.testcases < stoppedInTrim.readyForSplicingCount := by
  refine ⟨?_, by decide⟩
  apply (Relation.ReflTransGen.refl.tail (SplicingStep.addToQueue
    [1, 2, 3, 4, 5, 6, 7, 8] (by decide) (by decide))).tail
  exact SplicingStep.trim [1, 2, 3, 4] true rfl rfl (by decide) (by decide)

end AFLPlusPlus
