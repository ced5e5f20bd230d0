import AFLPlusPlus.Findings.CalibrateCase
import AFLPlusPlus.Queue.AliasTable
import AFLPlusPlus.Queue.EnergyBand

/-!
# The divisions of the scheduler

`create_alias_table` rates all entries by `compute_weight` and
`calculate_score`, and `input_to_state_stage` computes how often it updates the
screen.  All of them divide by what calibrations have measured.
-/

namespace AFLPlusPlus

/-- The logarithms of the C library, for the positive integers. -/
structure Logarithms where
  log : Nat → ℚ
  log10 : Nat → ℚ
  log_one : log 1 = 0
  log_pos : ∀ n, 2 ≤ n → 0 < log n
  log10_nonneg : ∀ n, 1 ≤ n → 0 ≤ log10 n

def divide (dividend divisor : ℚ) : Option ℚ :=
  if divisor = 0 then none else some (dividend / divisor)

def Logarithms.ofNat (logarithms : Logarithms) (n : Nat) : Option ℚ :=
  if n = 0 then none else some (logarithms.log n)

/-- What `calculate_score` reads apart from the queue and the statistics of the
calibrations. -/
structure ScoreView where
  depth : Nat → BitVec 64
  maxDepth : BitVec 32
  limitTimeSig : BitVec 32
  totalExecs : BitVec 64
  log2OfZero : BitVec 32

/-- The averages over the active entries. -/
structure Averages where
  execUs : ℚ
  bitmapSize : ℚ
  topSize : ℚ

namespace CalibrateCase.State

variable (logarithms : Logarithms) (afl : State) (view : ScoreView)

def scoredEntry (id : Nat) : ScoredEntry :=
  let q := afl.queue.queueBuf id
  { execUs := q.execUs
    bitmapSize := BitVec.ofNat 32 (afl.marks id).bitmapSize
    handicap := (afl.marks id).handicap.setWidth 64
    depth := view.depth id
    fuzzLevel := q.fuzzLevel
    nFuzzEntry := q.nFuzzEntry
    tcRef := q.tcRef
    favored := q.favored
    disabled := q.disabled }

def scoreState : ScoreState :=
  { schedule := afl.queue.schedule
    fixedSeed := afl.queue.fixedSeed
    totalCalUs := afl.totalCalUs
    totalCalCycles := afl.totalCalCycles
    totalBitmapSize := BitVec.ofNat 64 afl.totalBitmapSize
    totalBitmapEntries := BitVec.ofNat 64 afl.totalBitmapEntries
    limitTimeSig := view.limitTimeSig
    maxDepth := view.maxDepth
    nFuzz := afl.queue.nFuzz
    totalExecs := view.totalExecs
    queuedPaths := afl.queue.queuedPaths
    queueBuf := afl.scoredEntry view
    log2OfZero := view.log2OfZero }

/-- `afl->schedule < RARE` -/
def ByWeight : Prop := afl.queue.schedule.number < Schedule.rare.number

instance : Decidable afl.ByWeight := inferInstanceAs (Decidable (_ < _))

/-- The entries that are not disabled. -/
def active : List Nat :=
  (List.range afl.queue.queuedPaths).filter fun id =>
    (afl.queue.queueBuf id).disabled = false

def sumActive (value : Nat → ℚ) : ℚ := (afl.active.map value).sum

/-- The first loop of `create_alias_table`. -/
def averages : Option Averages :=
  if afl.active = [] ∨ ∃ id ∈ afl.active, (afl.marks id).bitmapSize = 0 then
    none
  else
    let count : ℚ := afl.active.length
    some
      { execUs := afl.sumActive
          (fun id => (afl.queue.queueBuf id).execUs.toNat) / count
        bitmapSize := afl.sumActive
          (fun id => logarithms.log (afl.marks id).bitmapSize) / count
        topSize := afl.sumActive
          (fun id => (afl.queue.queueBuf id).tcRef.toNat) / count }

/-- The factors for favored and for unfuzzed entries. -/
def boost (q : QueueEntry) (weight : ℚ) : ℚ :=
  let weight := if q.favored = true then weight * 5 else weight
  if q.wasFuzzed = false then weight * 2 else weight

def computeWeight (averages : Averages) (id : Nat) : Option ℚ := do
  let q := afl.queue.queueBuf id
  let hits := (afl.queue.nFuzz q.nFuzzEntry).toNat
  let weight : ℚ :=
    if Schedule.fast.number ≤ afl.queue.schedule.number ∧
        afl.queue.schedule.number ≤ Schedule.rare.number ∧ hits ≠ 0 then
      logarithms.log10 hits + 1
    else 1
  let weight ←
    if afl.ByWeight then
      (divide averages.execUs q.execUs.toNat).map fun speed => weight * speed
    else some weight
  let logarithm ← logarithms.ofNat (afl.marks id).bitmapSize
  let coverage ← divide logarithm averages.bitmapSize
  let top ← divide q.tcRef.toNat averages.topSize
  some (boost q (weight * coverage * (1 + top)))

/-- `calculate_score` for an entry of the queue. -/
def scoreOf (id : Nat) : Option Nat :=
  ((afl.scoreState view).calculateScore (afl.scoredEntry view id)
    .machine).map Scored.perfScore

/-- The weights of the entries, as far as they are used. -/
def weightsOf : Option (Nat → Option ℚ) :=
  if afl.ByWeight then
    (afl.averages logarithms).map fun averages =>
      afl.computeWeight logarithms averages
  else some fun _ => some 0

/-- The entries as the second loop of `create_alias_table` leaves them.  Those
that are disabled keep a weight and a score of zero. -/
def weighted (weights : Nat → Option ℚ) : WeightedQueue :=
  { schedule := afl.queue.schedule
    queuedPaths := afl.queue.queuedPaths
    queueBuf := fun id => ⟨(afl.queue.queueBuf id).disabled, 0, 0⟩
    computeWeight := fun id => (weights id).getD 0
    calculateScore := fun id => ((afl.scoreOf view id).getD 0 : Nat) }

/-- The second loop of `create_alias_table`. -/
def rated : Option WeightedQueue :=
  (afl.weightsOf logarithms).bind fun weights =>
    if ∀ id ∈ afl.active,
        (weights id).isSome = true ∧ (afl.scoreOf view id).isSome = true then
      some (afl.weighted view weights)
    else none

/-- `screen_update` in `input_to_state_stage`. -/
def screenUpdate (id : Nat) : Option (BitVec 64) :=
  if (afl.queue.queueBuf id).execUs = 0#64 then none
  else some (100000#64 / (afl.queue.queueBuf id).execUs)

end CalibrateCase.State

open CalibrateCase

/-- No division by zero: neither in the averages nor for an entry nor by the sum
of the weights. -/
structure DividesSafely (logarithms : Logarithms) (afl : State)
    (view : ScoreView) : Prop where
  cycles : (afl.scoreState view).totalCalCycles ≠ 0#64
  entries : (afl.scoreState view).totalBitmapEntries ≠ 0#64
  active : 0 < afl.active.length
  execUs : ∀ id ∈ afl.active, (afl.queue.queueBuf id).execUs ≠ 0#64
  bitmapSize : ∀ id ∈ afl.active, 0 < (afl.marks id).bitmapSize
  screenUpdate : ∀ id ∈ afl.active, (afl.screenUpdate id).isSome = true
  sum : ∃ rated, afl.rated logarithms view = some rated ∧ 0 < rated.sum

/-- What scheduling needs besides calibrated entries. -/
structure CanBeRated (afl : State) (view : ScoreView) : Prop where
  covered : afl.ByWeight → ∃ id ∈ afl.active, 2 ≤ (afl.marks id).bitmapSize
  topped : afl.ByWeight → ∃ id ∈ afl.active, (afl.queue.queueBuf id).tcRef ≠ 0#32
  divisor : afl.queue.schedule = .lin ∨ afl.queue.schedule = .quad →
    ∀ id ∈ afl.active, (afl.scoreState view).hits
      (afl.scoredEntry view id) + 1#32 ≠ 0#32
  rare : afl.queue.schedule = .rare → ∀ id ∈ afl.active,
    (afl.scoreState view).RareFits (afl.scoredEntry view id) ∧
      ((afl.scoreState view).MOptNear (afl.scoredEntry view id) →
        ¬(afl.scoreState view).Spent (afl.scoredEntry view id) ∧
        ((afl.scoreState view).rareScore (afl.scoredEntry view id) : ℚ) *
          (afl.scoreState view).otherPaths (afl.scoredEntry view id) < 2 ^ 31)

namespace ScoreState

variable (afl : ScoreState) (q : ScoredEntry)

theorem calculateScore_machine (other : afl.schedule ≠ .rare)
    (cycles : afl.totalCalCycles ≠ 0#64)
    (entries : afl.totalBitmapEntries ≠ 0#64)
    (schedulable : afl.Schedulable q (afl.baseScore q)) :
    ∃ scored, afl.calculateScore q .machine = some scored := by
  have raised : ∀ perfScore, ∃ result,
      afl.raise q .machine perfScore = some result := by
    intro perfScore
    simp only [raise, Assigning.whole]
    split_ifs
    · exact ⟨_, rfl⟩
    · exact ⟨_, rfl⟩
    · exact ⟨_, rfl⟩
  obtain ⟨result, raised⟩ := raised ⌊afl.energy q (afl.baseScore q)⌋₊
  rw [calculateScore_eq, if_neg (by simp [cycles, entries]),
    afl.applySchedule_eq q .machine (afl.baseScore_le q) other schedulable,
    Option.bind_some, raised]
  exact ⟨_, rfl⟩

end ScoreState

theorem divide_of_ne {dividend divisor : ℚ} (nonzero : divisor ≠ 0) :
    divide dividend divisor = some (dividend / divisor) :=
  if_neg nonzero

theorem Logarithms.log_nonneg (logarithms : Logarithms) {n : Nat}
    (positive : 0 < n) : 0 ≤ logarithms.log n := by
  rcases Nat.lt_or_ge n 2 with one | more
  · have is : n = 1 := by omega
    rw [is, logarithms.log_one]
  · exact (logarithms.log_pos n more).le

namespace CalibrateCase.State

variable {logarithms : Logarithms} {afl : State} {view : ScoreView}

theorem mem_active {id : Nat} :
    id ∈ afl.active ↔ id < afl.queue.queuedPaths ∧
      (afl.queue.queueBuf id).disabled = false := by
  simp [active]

theorem sumActive_pos {value : Nat → ℚ}
    (nonneg : ∀ id ∈ afl.active, 0 ≤ value id)
    (positive : ∃ id ∈ afl.active, 0 < value id) :
    0 < afl.sumActive value := by
  obtain ⟨id, member, more⟩ := positive
  refine lt_of_lt_of_le more ?_
  refine List.single_le_sum ?_ _ (List.mem_map_of_mem member)
  intro other isValue
  obtain ⟨of, member, rfl⟩ := List.mem_map.mp isValue
  exact nonneg of member

/-- The entries have been measured. -/
structure Measured (afl : State) : Prop where
  active : afl.active ≠ []
  execUs : ∀ id ∈ afl.active, (afl.queue.queueBuf id).execUs ≠ 0#64
  bitmapSize : ∀ id ∈ afl.active, 0 < (afl.marks id).bitmapSize

theorem toNat_cast_pos {w : Nat} {value : BitVec w} (nonzero : value ≠ 0#w) :
    (0 : ℚ) < value.toNat :=
  Nat.cast_pos.mpr (Nat.pos_of_ne_zero fun none =>
    nonzero (BitVec.eq_of_toNat_eq (by simpa using none)))

theorem Measured.averages (measured : Measured afl) (byWeight : afl.ByWeight)
    (fits : CanBeRated afl view) :
    ∃ averages, afl.averages logarithms = some averages ∧
      0 < averages.execUs ∧ 0 < averages.bitmapSize ∧ 0 < averages.topSize := by
  have covered : ¬(afl.active = [] ∨
      ∃ id ∈ afl.active, (afl.marks id).bitmapSize = 0) := by
    rintro (none | ⟨id, member, zero⟩)
    · exact measured.active none
    · exact Nat.ne_of_gt (measured.bitmapSize id member) zero
  have count : (0 : ℚ) < afl.active.length :=
    Nat.cast_pos.mpr (List.length_pos_iff.mpr measured.active)
  obtain ⟨first, isFirst⟩ := List.exists_mem_of_ne_nil _ measured.active
  refine ⟨_, if_neg covered, div_pos ?_ count, div_pos ?_ count, div_pos ?_ count⟩
  · exact sumActive_pos (fun _ _ => Nat.cast_nonneg _)
      ⟨first, isFirst, toNat_cast_pos (measured.execUs first isFirst)⟩
  · obtain ⟨id, member, more⟩ := fits.covered byWeight
    exact sumActive_pos
      (fun id member => logarithms.log_nonneg (measured.bitmapSize id member))
      ⟨id, member, logarithms.log_pos _ more⟩
  · obtain ⟨id, member, top⟩ := fits.topped byWeight
    exact sumActive_pos (fun _ _ => Nat.cast_nonneg _)
      ⟨id, member, toNat_cast_pos top⟩

theorem boost_nonneg (q : QueueEntry) {weight : ℚ} (nonneg : 0 ≤ weight) :
    0 ≤ boost q weight := by
  simp only [boost]
  split_ifs <;> positivity

theorem boost_pos (q : QueueEntry) {weight : ℚ} (positive : 0 < weight) :
    0 < boost q weight := by
  simp only [boost]
  split_ifs <;> positivity

/-- The weight of an entry, from positive averages. -/
theorem Measured.computeWeight (measured : Measured afl)
    (byWeight : afl.ByWeight) {averages : Averages}
    (execUs : 0 < averages.execUs) (bitmapSize : 0 < averages.bitmapSize)
    (topSize : 0 < averages.topSize) {id : Nat} (member : id ∈ afl.active) :
    ∃ weight, afl.computeWeight logarithms averages id = some weight ∧
      0 ≤ weight ∧ (2 ≤ (afl.marks id).bitmapSize → 0 < weight) := by
  have time := toNat_cast_pos (measured.execUs id member)
  have size := measured.bitmapSize id member
  have speed : 0 < averages.execUs /
      ((afl.queue.queueBuf id).execUs.toNat : ℚ) := div_pos execUs time
  have top : (0 : ℚ) < 1 +
      ((afl.queue.queueBuf id).tcRef.toNat : ℚ) / averages.topSize := by
    positivity
  have coverage : 0 ≤ logarithms.log (afl.marks id).bitmapSize /
      averages.bitmapSize :=
    div_nonneg (logarithms.log_nonneg size) bitmapSize.le
  let hits := (afl.queue.nFuzz (afl.queue.queueBuf id).nFuzzEntry).toNat
  have paths : (0 : ℚ) <
      if Schedule.fast.number ≤ afl.queue.schedule.number ∧
          afl.queue.schedule.number ≤ Schedule.rare.number ∧ hits ≠ 0 then
        logarithms.log10 hits + 1
      else 1 := by
    split_ifs with often
    · have := logarithms.log10_nonneg hits (Nat.pos_of_ne_zero often.2.2)
      linarith
    · exact zero_lt_one
  simp only [State.computeWeight, byWeight, if_true, divide_of_ne time.ne',
    divide_of_ne bitmapSize.ne', divide_of_ne topSize.ne', Logarithms.ofNat,
    Nat.ne_of_gt size, if_false, Option.map_some, Option.bind_eq_bind,
    Option.bind_some]
  refine ⟨_, rfl, ?_, fun more => ?_⟩
  · exact boost_nonneg _
      (mul_nonneg (mul_nonneg (mul_pos paths speed).le coverage) top.le)
  · exact boost_pos _ (mul_pos (mul_pos (mul_pos paths speed)
      (div_pos (logarithms.log_pos _ more) bitmapSize)) top)

/-- A score for every active entry, unless the schedule is `RARE`. -/
theorem Measured.scoreOf (measured : Measured afl)
    (cycles : (afl.scoreState view).totalCalCycles ≠ 0#64)
    (entries : (afl.scoreState view).totalBitmapEntries ≠ 0#64)
    (fits : CanBeRated afl view) (other : afl.queue.schedule ≠ .rare) {id : Nat}
    (member : id ∈ afl.active) :
    ∃ score, afl.scoreOf view id = some score := by
  have enabled : (afl.scoreState view).enabledHits ≠ [] := by
    obtain ⟨first, isFirst⟩ := List.exists_mem_of_ne_nil _ measured.active
    exact List.ne_nil_of_mem (List.mem_map_of_mem isFirst)
  have schedulable : (afl.scoreState view).Schedulable
      (afl.scoredEntry view id)
      ((afl.scoreState view).baseScore (afl.scoredEntry view id)) := by
    have divisor := fits.divisor
    have schedules : (afl.scoreState view).schedule = afl.queue.schedule := rfl
    cases schedule : afl.queue.schedule with
    | coe =>
        simp only [ScoreState.Schedulable, schedules, schedule]
        exact fun _ => enabled
    | lin =>
        simp only [ScoreState.Schedulable, schedules, schedule]
        exact divisor (.inl schedule) id member
    | quad =>
        simp only [ScoreState.Schedulable, schedules, schedule]
        exact divisor (.inr schedule) id member
    | rare => exact absurd schedule other
    | explore | mmopt | exploit | fast | seek =>
        simp only [ScoreState.Schedulable, schedules, schedule]
  obtain ⟨scored, is⟩ := (afl.scoreState view).calculateScore_machine
    (afl.scoredEntry view id) other cycles entries schedulable
  exact ⟨scored.perfScore, by rw [State.scoreOf, is]; rfl⟩

/-- A positive score for every active entry, if scores are the weights. -/
theorem scoreOf_pos
    (cycles : (afl.scoreState view).totalCalCycles ≠ 0#64)
    (entries : (afl.scoreState view).totalBitmapEntries ≠ 0#64)
    (fits : CanBeRated afl view) (byScore : ¬afl.ByWeight) {id : Nat}
    (member : id ∈ afl.active) :
    ∃ score, afl.scoreOf view id = some score ∧ 0 < score := by
  have schedules : (afl.scoreState view).schedule = afl.queue.schedule := rfl
  have cases : afl.queue.schedule = .rare ∨ afl.queue.schedule = .seek := by
    unfold ByWeight at byScore
    cases schedule : afl.queue.schedule with
    | rare => exact .inl rfl
    | seek => exact .inr rfl
    | explore | mmopt | exploit | fast | coe | lin | quad =>
        rw [schedule] at byScore
        exact absurd (by decide) byScore
  have banded : (afl.scoreState view).Banded (afl.scoredEntry view id) := by
    refine ⟨cycles, entries, ?_, fun rare => (fits.rare rare id member).1, ?_,
      fun near rare => ((fits.rare rare id member).2 near).2⟩
    · rw [schedules]
      rcases cases with rare | seek
      · simp [rare]
      · simp [seek]
    · intro near
      rcases cases with rare | seek
      · exact ((fits.rare rare id member).2 near).1
      · simp [ScoreState.Spent, schedules, seek]
  have other : (afl.scoreState view).schedule ≠ .coe := by
    rw [schedules]
    rcases cases with rare | seek
    · simp [rare]
    · simp [seek]
  obtain ⟨scored, is, _, positive, _⟩ :=
    (afl.scoreState view).inBand_of_banded _ other banded
  exact ⟨scored.perfScore, by rw [State.scoreOf, is]; rfl, positive⟩

end CalibrateCase.State

namespace WeightedQueue

theorem sum_pos {afl : WeightedQueue}
    (nonneg : ∀ i < afl.queuedPaths, 0 ≤ afl.weightOf i)
    (positive : ∃ i < afl.queuedPaths, (afl.queueBuf i).disabled = false ∧
      0 < afl.weightOf i) : 0 < afl.sum := by
  obtain ⟨i, queued, enabled, weighs⟩ := positive
  refine Finset.sum_pos' (fun j inside => ?_)
    ⟨i, Finset.mem_range.mpr queued, ?_⟩
  · exact Cascade.le_ite le_rfl (nonneg j (Finset.mem_range.mp inside))
  · rw [if_neg (by simp [enabled])]
    exact weighs

end WeightedQueue

namespace CalibrateCase.State

variable {logarithms : Logarithms} {afl : State} {view : ScoreView}

theorem weighted_weightOf (weights : Nat → Option ℚ) (id : Nat) :
    (afl.weighted view weights).weightOf id =
      if (afl.queue.queueBuf id).disabled = true then 0
      else if afl.ByWeight then (weights id).getD 0
      else ((afl.scoreOf view id).getD 0 : Nat) := by
  have same : (afl.weighted view weights).ByWeight ↔ afl.ByWeight := Iff.rfl
  cases disabled : (afl.queue.queueBuf id).disabled with
  | true =>
      simp [WeightedQueue.weightOf, WeightedQueue.rated, weighted, disabled]
  | false =>
      by_cases byWeight : afl.ByWeight
      · simp only [WeightedQueue.weightOf, WeightedQueue.rated, same, byWeight,
          if_true, Bool.false_eq_true, if_false]
        simp [weighted, disabled]
      · simp only [WeightedQueue.weightOf, WeightedQueue.rated, same, byWeight,
          Bool.false_eq_true, if_false]
        simp [weighted, disabled]

/-- The sum is positive if no weight is negative and one is positive. -/
theorem weighted_sum_pos {weights : Nat → Option ℚ} {value : Nat → ℚ}
    (is : ∀ id ∈ afl.active, (afl.weighted view weights).weightOf id = value id)
    (nonneg : ∀ id ∈ afl.active, 0 ≤ value id)
    (positive : ∃ id ∈ afl.active, 0 < value id) :
    0 < (afl.weighted view weights).sum := by
  refine WeightedQueue.sum_pos (fun id queued => ?_) ?_
  · cases enabled : (afl.queue.queueBuf id).disabled with
    | true => rw [weighted_weightOf, if_pos enabled]
    | false =>
        have member := mem_active.mpr ⟨queued, enabled⟩
        rw [is id member]
        exact nonneg id member
  · obtain ⟨id, member, more⟩ := positive
    obtain ⟨queued, enabled⟩ := mem_active.mp member
    exact ⟨id, queued, enabled, by rw [is id member]; exact more⟩

section

variable (measured : Measured afl) (cycles : (afl.scoreState view).totalCalCycles ≠ 0#64)
    (entries : (afl.scoreState view).totalBitmapEntries ≠ 0#64)
    (fits : CanBeRated afl view)
include measured cycles entries fits

/-- The sum of the weights, below `RARE`. -/
theorem Measured.rated_byWeight (byWeight : afl.ByWeight) :
    ∃ rated, afl.rated logarithms view = some rated ∧ 0 < rated.sum := by
  have other : afl.queue.schedule ≠ .rare := by
    intro rare
    rw [ByWeight, rare] at byWeight
    exact Nat.lt_irrefl _ byWeight
  obtain ⟨averages, is, execUs, bitmapSize, topSize⟩ :=
    @Measured.averages logarithms afl view measured byWeight fits
  have weights := fun id (member : id ∈ afl.active) =>
    @Measured.computeWeight logarithms afl measured byWeight averages execUs
      bitmapSize topSize id member
  have all : ∀ id ∈ afl.active,
      (afl.computeWeight logarithms averages id).isSome = true ∧
        (afl.scoreOf view id).isSome = true := by
    intro id member
    obtain ⟨weight, weighs, _⟩ := weights id member
    obtain ⟨score, scores⟩ := measured.scoreOf cycles entries fits other member
    exact ⟨by rw [weighs]; rfl, by rw [scores]; rfl⟩
  refine ⟨afl.weighted view (afl.computeWeight logarithms averages), ?_, ?_⟩
  · rw [rated, weightsOf, if_pos byWeight, is, Option.map_some,
      Option.bind_some, if_pos all]
  · refine @weighted_sum_pos afl view _
      (fun id => (afl.computeWeight logarithms averages id).getD 0) ?_ ?_ ?_
    · intro id member
      obtain ⟨_, enabled⟩ := mem_active.mp member
      rw [weighted_weightOf, if_neg (by simp [enabled]), if_pos byWeight]
    · intro id member
      obtain ⟨weight, weighs, nonneg, _⟩ := weights id member
      rwa [weighs]
    · obtain ⟨id, member, more⟩ := fits.covered byWeight
      obtain ⟨weight, weighs, _, positive⟩ := weights id member
      exact ⟨id, member, by rw [weighs]; exact positive more⟩

/-- The sum of the scores, from `RARE` on. -/
theorem Measured.rated_byScore (byScore : ¬afl.ByWeight) :
    ∃ rated, afl.rated logarithms view = some rated ∧ 0 < rated.sum := by
  have scores := fun id (member : id ∈ afl.active) =>
    @scoreOf_pos afl view cycles entries fits byScore id member
  have all : ∀ id ∈ afl.active, (some (0 : ℚ)).isSome = true ∧
      (afl.scoreOf view id).isSome = true := by
    intro id member
    obtain ⟨score, is, _⟩ := scores id member
    exact ⟨rfl, by rw [is]; rfl⟩
  refine ⟨afl.weighted view fun _ => some 0, ?_, ?_⟩
  · rw [rated, weightsOf, if_neg byScore, Option.bind_some, if_pos all]
  · refine @weighted_sum_pos afl view _
      (fun id => ((afl.scoreOf view id).getD 0 : Nat)) ?_
      (fun _ _ => Nat.cast_nonneg _) ?_
    · intro id member
      obtain ⟨_, enabled⟩ := mem_active.mp member
      rw [weighted_weightOf, if_neg (by simp [enabled]), if_neg byScore]
    · obtain ⟨first, isFirst⟩ := List.exists_mem_of_ne_nil _ measured.active
      obtain ⟨score, is, positive⟩ := scores first isFirst
      exact ⟨first, isFirst, by rw [is]; exact Nat.cast_pos.mpr positive⟩

end

end CalibrateCase.State

open CalibrateCase.State in
/-- Measured entries are rated without a division by zero. -/
theorem dividesSafely_of_measured {logarithms : Logarithms} {afl : State}
    {view : ScoreView} (measured : afl.Measured)
    (cycles : (afl.scoreState view).totalCalCycles ≠ 0#64)
    (entries : (afl.scoreState view).totalBitmapEntries ≠ 0#64)
    (fits : CanBeRated afl view) : DividesSafely logarithms afl view := by
  refine ⟨cycles, entries, List.length_pos_iff.mpr measured.active,
    measured.execUs, measured.bitmapSize, ?_, ?_⟩
  · intro id member
    simp [CalibrateCase.State.screenUpdate, measured.execUs id member]
  · by_cases byWeight : afl.ByWeight
    · exact measured.rated_byWeight cycles entries fits byWeight
    · exact measured.rated_byScore cycles entries fits byWeight

end AFLPlusPlus
