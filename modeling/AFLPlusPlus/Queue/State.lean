import AFLPlusPlus.Support.Buffer
import AFLPlusPlus.Support.Counting
import AFLPlusPlus.Support.Loops

/-!
# The queue of the fuzzer

The part of `afl_state_t` behind the choice of favored entries: the queue
itself, the table `top_rated` of winners, and the counters that go with them.
A pointer to a queue entry is its index in `queue_buf`.
-/

namespace AFLPlusPlus

/-- The power schedules, in the order of the enumeration. -/
inductive Schedule where
  | explore
  | mmopt
  | exploit
  | fast
  | coe
  | lin
  | quad
  | rare
  | seek
  deriving DecidableEq, Repr

/-- The position of a schedule, by which schedules are compared. -/
def Schedule.number : Schedule → Nat
  | explore => 0
  | mmopt => 1
  | exploit => 2
  | fast => 3
  | coe => 4
  | lin => 5
  | quad => 6
  | rare => 7
  | seek => 8

/-- `struct queue_entry` -/
structure QueueEntry where
  len : BitVec 32
  calFailed : BitVec 8
  wasFuzzed : Bool
  passedDet : Bool
  favored : Bool
  fsRedundant : Bool
  disabled : Bool
  fuzzLevel : BitVec 32
  /-- `n_fuzz_entry`, an offset in `n_fuzz` -/
  nFuzzEntry : BitVec 32
  execUs : BitVec 64
  execCksum : BitVec 64
  traceMini : Option Buffer
  tcRef : BitVec 32

/-- The queue, its winners and its counters. -/
structure QueueState where
  /-- `fsrv.map_size`, always a multiple of 64 -/
  mapSize : Nat
  aligned : 8 ∣ mapSize
  bounded : mapSize < 2 ^ 32
  schedule : Schedule
  fixedSeed : Bool
  nonInstrumentedMode : Bool
  nFuzz : BitVec 32 → BitVec 32
  traceBits : Buffer
  topRated : Nat → Option Nat
  scoreChanged : Bool
  queueBuf : Nat → QueueEntry
  queuedPaths : Nat
  activePaths : Int
  pendingNotFuzzed : Int
  queuedFavored : Int
  pendingFavored : Int

namespace QueueState

/-- An assignment to fields of one queue entry. -/
def modify (afl : QueueState) (id : Nat) (change : QueueEntry → QueueEntry) :
    QueueState :=
  { afl with
    queueBuf := Function.update afl.queueBuf id (change (afl.queueBuf id)) }

section Modify

variable (afl : QueueState) (id : Nat) (change : QueueEntry → QueueEntry)

@[simp] theorem modify_mapSize : (afl.modify id change).mapSize = afl.mapSize := rfl

@[simp] theorem modify_topRated : (afl.modify id change).topRated = afl.topRated := rfl

@[simp] theorem modify_traceBits :
    (afl.modify id change).traceBits = afl.traceBits := rfl

@[simp] theorem modify_queuedPaths :
    (afl.modify id change).queuedPaths = afl.queuedPaths := rfl

@[simp] theorem modify_activePaths :
    (afl.modify id change).activePaths = afl.activePaths := rfl

@[simp] theorem modify_pendingFavored :
    (afl.modify id change).pendingFavored = afl.pendingFavored := rfl

@[simp] theorem modify_queueBuf_self :
    (afl.modify id change).queueBuf id = change (afl.queueBuf id) := by
  simp [modify]

theorem modify_queueBuf_of_ne {other : Nat} (different : other ≠ id) :
    (afl.modify id change).queueBuf other = afl.queueBuf other := by
  simp [modify, different]

theorem modify_queueBuf (other : Nat) :
    (afl.modify id change).queueBuf other =
      if other = id then change (afl.queueBuf id) else afl.queueBuf other := by
  by_cases same : other = id
  · subst other
    simp
  · rw [if_neg same, modify_queueBuf_of_ne _ _ _ same]

end Modify

/-- The number of queue entries with a property. -/
def countEntries (afl : QueueState) (property : QueueEntry → Bool) : Nat :=
  Nat.count (fun id => property (afl.queueBuf id) = true) afl.queuedPaths

/-- The number of map indices which an entry has won. -/
def ratedCount (afl : QueueState) (id : Nat) : Nat :=
  Nat.count (fun index => afl.topRated index = some id) afl.mapSize

variable {after before : QueueState}

/-- Two queues of one length whose entries agree apart from one. -/
theorem countEntries_change {id : Nat} (queued : id < before.queuedPaths)
    (length : after.queuedPaths = before.queuedPaths)
    (same : ∀ other < before.queuedPaths, other ≠ id →
      after.queueBuf other = before.queueBuf other) (property : QueueEntry → Bool) :
    after.countEntries property + (if property (before.queueBuf id) then 1 else 0) =
      before.countEntries property +
        (if property (after.queueBuf id) then 1 else 0) := by
  unfold countEntries
  rw [length]
  refine @Counting.count_change (fun id => property (before.queueBuf id) = true)
    (fun id => property (after.queueBuf id) = true) _ _ _ _ queued
    fun other inside different => ?_
  rw [same other inside different]

/-- Two queues of one length whose entries agree about a property. -/
theorem countEntries_congr (length : after.queuedPaths = before.queuedPaths)
    {first second : QueueEntry → Bool} (same : ∀ id < before.queuedPaths,
      second (after.queueBuf id) = first (before.queueBuf id)) :
    after.countEntries second = before.countEntries first := by
  unfold countEntries
  rw [length]
  exact Counting.count_congr fun id inside => by rw [same id inside]

end QueueState

end AFLPlusPlus
