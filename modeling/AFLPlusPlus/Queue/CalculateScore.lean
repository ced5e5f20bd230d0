import AFLPlusPlus.Queue.State
import AFLPlusPlus.Support.Cascades
import Mathlib.Data.Rat.Floor
import Mathlib.Tactic.Positivity

/-!
# The performance score

`calculate_score` rates a queue entry by its speed, its coverage, its age and
its depth, each against a cascade of thresholds, and then by the power schedule.
Products and thresholds are rational numbers; the score itself is an integer, to
which every product is truncated.
-/

namespace AFLPlusPlus

/-- A queue entry, as far as its score depends on it. -/
structure ScoredEntry where
  execUs : BitVec 64
  bitmapSize : BitVec 32
  handicap : BitVec 64
  depth : BitVec 64
  fuzzLevel : BitVec 32
  /-- `n_fuzz_entry`, an offset in `n_fuzz` -/
  nFuzzEntry : BitVec 32
  tcRef : BitVec 32
  favored : Bool
  disabled : Bool

/-- The part of `afl_state_t` that `calculate_score` reads. -/
structure ScoreState where
  schedule : Schedule
  fixedSeed : Bool
  totalCalUs : BitVec 64
  totalCalCycles : BitVec 64
  totalBitmapSize : BitVec 64
  totalBitmapEntries : BitVec 64
  limitTimeSig : BitVec 32
  maxDepth : BitVec 32
  nFuzz : BitVec 32 → BitVec 32
  /-- `fsrv.total_execs` -/
  totalExecs : BitVec 64
  queuedPaths : Nat
  queueBuf : Nat → ScoredEntry
  /-- `(u32)log2(0)`, a conversion that C leaves open -/
  log2OfZero : BitVec 32

def maxFactor : ℚ := 32

def powerBeta : ℚ := 1

/-- `havoc_max_mult`, for which there are two constants of one value -/
def havocMaxMult : Nat := 64

/-- How what is assigned to `perf_score` becomes a `u32`. -/
inductive Assigning where
  /-- as in C: an integer wraps around, and a `double` has to fit -/
  | machine
  /-- without a largest value -/
  | exact
  /-- with an error if the value is negative or too large -/
  | checked
  deriving DecidableEq

namespace Assigning

def whole : Assigning → Nat → Option Nat
  | .machine, value => some (value % 2 ^ 32)
  | .exact, value => some value
  | .checked, value => if value < 2 ^ 32 then some value else none

/-- The assignment of a `double`, which is truncated. -/
def double : Assigning → ℚ → Option Nat
  | .machine, value =>
      if -1 < value ∧ value < 2 ^ 32 then some ⌊value⌋₊ else none
  | .exact, value => if -1 < value then some ⌊value⌋₊ else none
  | .checked, value =>
      if 0 ≤ value ∧ value < 2 ^ 32 then some ⌊value⌋₊ else none

end Assigning

inductive Multiplier where
  | whole (factor : Nat)
  | double (factor : ℚ)

def Multiplier.value : Multiplier → ℚ
  | .whole factor => factor
  | .double factor => factor

@[simp] theorem Multiplier.value_whole (factor : Nat) :
    (Multiplier.whole factor).value = factor := rfl

@[simp] theorem Multiplier.value_double (factor : ℚ) :
    (Multiplier.double factor).value = factor := rfl

/-- `perf_score *= factor` -/
def Assigning.times (assigning : Assigning) (perfScore : Nat) : Multiplier → Option Nat
  | .whole factor => assigning.whole (perfScore * factor)
  | .double factor => assigning.double (perfScore * factor)

namespace ScoredEntry

variable (q : ScoredEntry)

def bitmapMultiplier (avgBitmapSize : ℚ) : Multiplier :=
  let bitmapSize : ℚ := q.bitmapSize.toNat
  if bitmapSize * (3 / 10) > avgBitmapSize then .whole 3
  else if bitmapSize * (1 / 2) > avgBitmapSize then .whole 2
  else if bitmapSize * (3 / 4) > avgBitmapSize then .double (3 / 2)
  else if bitmapSize * 3 < avgBitmapSize then .double (1 / 4)
  else if bitmapSize * 2 < avgBitmapSize then .double (1 / 2)
  else if bitmapSize * (3 / 2) < avgBitmapSize then .double (3 / 4)
  else .whole 1

def handicapMultiplier : Nat :=
  if 4#64 ≤ q.handicap then 4 else if q.handicap ≠ 0#64 then 2 else 1

def handicapLeft : BitVec 64 :=
  if 4#64 ≤ q.handicap then q.handicap - 4#64
  else if q.handicap ≠ 0#64 then q.handicap - 1#64
  else q.handicap

def depthMultiplier : Nat :=
  if q.depth ≤ 3#64 then 1
  else if q.depth ≤ 7#64 then 2
  else if q.depth ≤ 13#64 then 3
  else if q.depth ≤ 25#64 then 4
  else 5

end ScoredEntry

namespace ScoreState

variable (afl : ScoreState) (q : ScoredEntry)

def avgExecUs : BitVec 32 := (afl.totalCalUs / afl.totalCalCycles).setWidth 32

def avgBitmapSize : BitVec 32 :=
  (afl.totalBitmapSize / afl.totalBitmapEntries).setWidth 32

def execScore : Nat :=
  let execUs : ℚ := q.execUs.toNat
  let avgExecUs : ℚ := afl.avgExecUs.toNat
  if afl.schedule.number < Schedule.rare.number ∧ afl.fixedSeed = false then
    if execUs * (1 / 10) > avgExecUs then 10
    else if execUs * (1 / 4) > avgExecUs then 25
    else if execUs * (1 / 2) > avgExecUs then 50
    else if execUs * (3 / 4) > avgExecUs then 75
    else if execUs * 4 < avgExecUs then 300
    else if execUs * 3 < avgExecUs then 200
    else if execUs * 2 < avgExecUs then 150
    else 100
  else 100

/-- `n_fuzz` of an entry. -/
def hits : BitVec 32 := afl.nFuzz q.nFuzzEntry

/-- `(u32)log2(..)` of the hits. -/
def log2Hits : Nat :=
  if afl.hits q = 0#32 then afl.log2OfZero.toNat
  else Nat.log2 (afl.hits q).toNat

/-- The factor of the schedule `FAST`. -/
def fastFactor : ℚ :=
  if q.fuzzLevel = 0#32 then 1
  else
    let factor :=
      if afl.log2Hits q ≤ 1 then 4
      else if afl.log2Hits q ≤ 3 then 3
      else if afl.log2Hits q = 4 then 2
      else if afl.log2Hits q = 5 then 1
      else if q.favored = true then 1
      else if afl.log2Hits q = 6 then 4 / 5
      else if afl.log2Hits q = 7 then 3 / 5
      else 2 / 5
    if q.favored = true then factor * (23 / 20) else factor

/-- The hits of all entries that take part. -/
def enabledHits : List Nat :=
  ((List.range afl.queuedPaths).filter fun i =>
    (afl.queueBuf i).disabled = false).map fun i =>
      (afl.hits (afl.queueBuf i)).toNat

/-- The test for a logarithm above the mean of all logarithms, or nothing if
there is no entry to take the mean of.  The logarithm of zero is below all. -/
def aboveMean : Option Bool :=
  if afl.enabledHits = [] then none
  else some (decide
    (afl.enabledHits.prod < (afl.hits q).toNat ^ afl.enabledHits.length))

/-- The division of two integers, undefined for zero. -/
def quotient (dividend divisor : BitVec 32) : Option ℚ :=
  if divisor = 0#32 then none else some (dividend / divisor).toNat

def factor : Option ℚ :=
  match afl.schedule with
  | .exploit => some maxFactor
  | .coe =>
      if q.fuzzLevel = 0#32 then some 1
      else (afl.aboveMean q).map fun above =>
        if above = true then if q.favored = true then 1 else 0
        else afl.fastFactor q
  | .fast => some (afl.fastFactor q)
  | .lin => quotient q.fuzzLevel (afl.hits q + 1#32)
  | .quad => quotient (q.fuzzLevel * q.fuzzLevel) (afl.hits q + 1#32)
  | _ => some 1

/-- `max_depth - depth` -/
def aboveDeepest : BitVec 64 := afl.maxDepth.setWidth 64 - q.depth

def otherPaths : ℚ := 1 - (afl.hits q).toNat / afl.totalExecs.toNat

/-- What the schedules do with the score by themselves. -/
def reschedule (assigning : Assigning) (perfScore : Nat) : Option Nat :=
  match afl.schedule with
  | .mmopt =>
      if afl.aboveDeepest q < 5#64 then assigning.whole (perfScore * 2)
      else some perfScore
  | .rare =>
      if afl.totalExecs = 0#64 then none
      else do
        let perfScore ← assigning.whole (perfScore + q.tcRef.toNat * 10)
        assigning.double (perfScore * afl.otherPaths q)
  | _ => some perfScore

/-- The schedules whose factor is used. -/
def ByFactor : Prop :=
  Schedule.exploit.number ≤ afl.schedule.number ∧
    afl.schedule.number ≤ Schedule.quad.number

instance : Decidable afl.ByFactor := inferInstanceAs (Decidable (_ ∧ _))

def applySchedule (assigning : Assigning) (perfScore : Nat) : Option Nat := do
  let factor ← afl.factor q
  let perfScore ← afl.reschedule q assigning perfScore
  if afl.ByFactor then
    assigning.double (perfScore * (min factor maxFactor / powerBeta))
  else some perfScore

def MOptNear : Prop := afl.limitTimeSig ≠ 0#32 ∧ afl.aboveDeepest q < 3#64

instance : Decidable (afl.MOptNear q) := inferInstanceAs (Decidable (_ ∧ _))

/-- The MOpt mode, or else the lower bound. -/
def raise (assigning : Assigning) (perfScore : Nat) : Option Nat :=
  if afl.MOptNear q then assigning.whole (perfScore * 2)
  else if afl.schedule ≠ .coe ∧ perfScore < 1 then some 1
  else some perfScore

def limit (perfScore : Nat) : Nat :=
  if perfScore > havocMaxMult * 100 then havocMaxMult * 100 else perfScore

end ScoreState

/-- What `calculate_score` returns, and the handicap that it leaves. -/
structure Scored where
  perfScore : Nat
  handicap : BitVec 64
  deriving DecidableEq

namespace ScoreState

variable (afl : ScoreState) (q : ScoredEntry)

/-- `calculate_score`, undefined where it ends the process. -/
def calculateScore (assigning : Assigning) : Option Scored :=
  if afl.totalCalCycles = 0#64 ∨ afl.totalBitmapEntries = 0#64 then none
  else do
    let perfScore ← assigning.times (afl.execScore q)
      (q.bitmapMultiplier afl.avgBitmapSize.toNat)
    let perfScore ← assigning.whole (perfScore * q.handicapMultiplier)
    let perfScore ← assigning.whole (perfScore * q.depthMultiplier)
    let perfScore ← afl.applySchedule q assigning perfScore
    let perfScore ← afl.raise q assigning perfScore
    some { perfScore := limit perfScore, handicap := q.handicapLeft }

end ScoreState

/-- The test in `fuzz_one` for entries which are not fuzzed. -/
def abandons (perfScore : Nat) : Bool := decide (perfScore ≤ 0)


variable {perfScore : Nat}

namespace Assigning

variable (assigning : Assigning)

theorem whole_of_lt {value : Nat} (fits : value < 2 ^ 32) :
    assigning.whole value = some value := by
  cases assigning with
  | machine => rw [whole, Nat.mod_eq_of_lt fits]
  | exact => rfl
  | checked => rw [whole, if_pos fits]

theorem double_of_lt {value : ℚ} (nonneg : 0 ≤ value)
    (fits : value < 2 ^ 32) : assigning.double value = some ⌊value⌋₊ := by
  have above : -1 < value := by linarith
  cases assigning with
  | machine => simp [double, above, fits]
  | exact => simp [double, above]
  | checked => simp [double, nonneg, fits]

theorem times_of_lt {multiplier : Multiplier} (nonneg : 0 ≤ multiplier.value)
    (fits : perfScore * multiplier.value < 2 ^ 32) :
    assigning.times perfScore multiplier = some ⌊perfScore * multiplier.value⌋₊ := by
  cases multiplier with
  | whole factor =>
      rw [Multiplier.value_whole, ← Nat.cast_mul] at fits ⊢
      rw [Nat.floor_natCast]
      exact assigning.whole_of_lt (by exact_mod_cast fits)
  | double factor =>
      exact assigning.double_of_lt
        (mul_nonneg (Nat.cast_nonneg _) nonneg) fits

end Assigning

theorem toNat_le_toNat {w : Nat} {x y : BitVec w} (less : x ≤ y) :
    (x.toNat : ℚ) ≤ y.toNat :=
  Nat.cast_le.mpr less

namespace ScoredEntry

variable (q : ScoredEntry)

theorem bitmapMultiplier_value (avg : ℚ) :
    (q.bitmapMultiplier avg).value =
      if (q.bitmapSize.toNat : ℚ) * (3 / 10) > avg then 3
      else if (q.bitmapSize.toNat : ℚ) * (1 / 2) > avg then 2
      else if (q.bitmapSize.toNat : ℚ) * (3 / 4) > avg then 3 / 2
      else if (q.bitmapSize.toNat : ℚ) * 3 < avg then 1 / 4
      else if (q.bitmapSize.toNat : ℚ) * 2 < avg then 1 / 2
      else if (q.bitmapSize.toNat : ℚ) * (3 / 2) < avg then 3 / 4
      else 1 := by
  simp only [bitmapMultiplier, apply_ite Multiplier.value,
    Multiplier.value_whole, Multiplier.value_double, Nat.cast_ofNat,
    Nat.cast_one]

theorem bitmapMultiplier_le (avg : ℚ) : (q.bitmapMultiplier avg).value ≤ 3 := by
  rw [bitmapMultiplier_value]
  split_ifs <;> norm_num

theorem le_bitmapMultiplier (avg : ℚ) : 1 / 4 ≤ (q.bitmapMultiplier avg).value := by
  rw [bitmapMultiplier_value]
  split_ifs <;> norm_num

theorem handicapMultiplier_le : q.handicapMultiplier ≤ 4 := by
  unfold handicapMultiplier
  split_ifs <;> norm_num

theorem one_le_handicapMultiplier : 1 ≤ q.handicapMultiplier := by
  unfold handicapMultiplier
  split_ifs <;> norm_num

theorem depthMultiplier_le : q.depthMultiplier ≤ 5 := by
  unfold depthMultiplier
  split_ifs <;> norm_num

theorem one_le_depthMultiplier : 1 ≤ q.depthMultiplier := by
  unfold depthMultiplier
  split_ifs <;> norm_num

/-- One entry is better than another in what its score depends on, and like it
in what the schedules look at. -/
structure Better (a b : ScoredEntry) : Prop where
  execUs : a.execUs ≤ b.execUs
  bitmapSize : b.bitmapSize ≤ a.bitmapSize
  handicap : b.handicap ≤ a.handicap
  depth : b.depth ≤ a.depth
  fuzzLevel : a.fuzzLevel = b.fuzzLevel
  nFuzzEntry : a.nFuzzEntry = b.nFuzzEntry
  tcRef : a.tcRef = b.tcRef
  favored : a.favored = b.favored
  disabled : a.disabled = b.disabled

variable {a b : ScoredEntry}

theorem Better.bitmapMultiplier_le (better : Better a b) (avg : ℚ) :
    (b.bitmapMultiplier avg).value ≤ (a.bitmapMultiplier avg).value := by
  have larger := toNat_le_toNat better.bitmapSize
  simp only [bitmapMultiplier_value, gt_iff_lt]
  refine Cascade.le_of_rising (fun _ => by linarith)
    (by split_ifs <;> norm_num) ?_
  refine Cascade.le_of_rising (fun _ => by linarith)
    (by split_ifs <;> norm_num) ?_
  refine Cascade.le_of_rising (fun _ => by linarith)
    (by split_ifs <;> norm_num) ?_
  refine Cascade.le_of_falling (fun _ => by linarith)
    (by split_ifs <;> norm_num) ?_
  refine Cascade.le_of_falling (fun _ => by linarith)
    (by split_ifs <;> norm_num) ?_
  exact Cascade.le_of_falling (fun _ => by linarith) (by norm_num) le_rfl

theorem Better.handicapMultiplier_le (better : Better a b) :
    b.handicapMultiplier ≤ a.handicapMultiplier := by
  have larger := better.handicap
  refine Cascade.le_of_rising (fun _ => BitVec.le_trans ‹_› larger)
    (by split_ifs <;> norm_num) ?_
  refine Cascade.le_of_rising (fun _ none => ?_) (by norm_num) le_rfl
  rw [none] at larger
  exact absurd (BitVec.le_zero_iff.mp larger) ‹_›

theorem Better.depthMultiplier_le (better : Better a b) :
    b.depthMultiplier ≤ a.depthMultiplier := by
  have deeper := better.depth
  refine Cascade.le_of_falling (fun _ => BitVec.le_trans deeper ‹_›)
    (by split_ifs <;> norm_num) ?_
  refine Cascade.le_of_falling (fun _ => BitVec.le_trans deeper ‹_›)
    (by split_ifs <;> norm_num) ?_
  refine Cascade.le_of_falling (fun _ => BitVec.le_trans deeper ‹_›)
    (by split_ifs <;> norm_num) ?_
  exact Cascade.le_of_falling (fun _ => BitVec.le_trans deeper ‹_›)
    (by norm_num) le_rfl

end ScoredEntry

namespace ScoreState

open ScoredEntry

variable (afl : ScoreState) (q : ScoredEntry)

theorem execScore_le : afl.execScore q ≤ 300 := by
  simp only [execScore]
  split_ifs <;> norm_num

theorem le_execScore : 10 ≤ afl.execScore q := by
  simp only [execScore]
  split_ifs <;> norm_num

theorem execScore_mono {a b : ScoredEntry} (better : Better a b) :
    afl.execScore b ≤ afl.execScore a := by
  have faster := toNat_le_toNat better.execUs
  have nonneg : (0 : ℚ) ≤ afl.avgExecUs.toNat := Nat.cast_nonneg _
  by_cases rated : afl.schedule.number < Schedule.rare.number ∧ afl.fixedSeed = false
  · simp only [execScore, rated, and_self, if_true, gt_iff_lt]
    refine Cascade.le_of_falling (fun _ => by linarith)
      (by split_ifs <;> norm_num) ?_
    refine Cascade.le_of_falling (fun _ => by linarith)
      (by split_ifs <;> norm_num) ?_
    refine Cascade.le_of_falling (fun _ => by linarith)
      (by split_ifs <;> norm_num) ?_
    refine Cascade.le_of_falling (fun _ => by linarith)
      (by split_ifs <;> norm_num) ?_
    refine Cascade.le_of_rising (fun _ => by linarith)
      (by split_ifs <;> norm_num) ?_
    refine Cascade.le_of_rising (fun _ => by linarith)
      (by split_ifs <;> norm_num) ?_
    exact Cascade.le_of_rising (fun _ => by linarith) (by norm_num) le_rfl
  · simp [execScore, rated]

def baseScore : Nat :=
  ⌊afl.execScore q *
      (q.bitmapMultiplier afl.avgBitmapSize.toNat).value⌋₊ *
    q.handicapMultiplier * q.depthMultiplier

theorem floor_le_nine_hundred :
    ⌊afl.execScore q *
      (q.bitmapMultiplier afl.avgBitmapSize.toNat).value⌋₊ ≤ 900 := by
  have score : (afl.execScore q : ℚ) ≤ 300 := by
    exact_mod_cast afl.execScore_le q
  have multiplier := q.bitmapMultiplier_le afl.avgBitmapSize.toNat
  have least := q.le_bitmapMultiplier afl.avgBitmapSize.toNat
  refine Nat.floor_le_of_le ?_
  calc (afl.execScore q : ℚ) *
        (q.bitmapMultiplier afl.avgBitmapSize.toNat).value
      ≤ 300 * 3 := mul_le_mul score multiplier (by linarith) (by norm_num)
    _ ≤ (900 : Nat) := by norm_num

theorem baseScore_le : afl.baseScore q ≤ 18000 :=
  Nat.mul_le_mul (Nat.mul_le_mul (afl.floor_le_nine_hundred q)
    q.handicapMultiplier_le) q.depthMultiplier_le

theorem two_le_floor :
    2 ≤ ⌊afl.execScore q *
      (q.bitmapMultiplier afl.avgBitmapSize.toNat).value⌋₊ := by
  have score : (10 : ℚ) ≤ afl.execScore q := by
    exact_mod_cast afl.le_execScore q
  have least := q.le_bitmapMultiplier afl.avgBitmapSize.toNat
  refine Nat.le_floor ?_
  calc ((2 : Nat) : ℚ) ≤ 10 * (1 / 4) := by norm_num
    _ ≤ afl.execScore q *
        (q.bitmapMultiplier afl.avgBitmapSize.toNat).value :=
      mul_le_mul score least (by norm_num) (by linarith)

theorem two_le_baseScore : 2 ≤ afl.baseScore q :=
  Nat.mul_le_mul (Nat.mul_le_mul (afl.two_le_floor q)
    q.one_le_handicapMultiplier) q.one_le_depthMultiplier

theorem baseScore_mono {a b : ScoredEntry} (better : Better a b) :
    afl.baseScore b ≤ afl.baseScore a := by
  have score : (afl.execScore b : ℚ) ≤ afl.execScore a :=
    Nat.cast_le.mpr (afl.execScore_mono better)
  have multiplier := better.bitmapMultiplier_le afl.avgBitmapSize.toNat
  have least := b.le_bitmapMultiplier afl.avgBitmapSize.toNat
  refine Nat.mul_le_mul (Nat.mul_le_mul (Nat.floor_mono ?_)
    better.handicapMultiplier_le) better.depthMultiplier_le
  exact mul_le_mul score multiplier (by linarith) (Nat.cast_nonneg _)

/-- Up to the schedule nothing overflows. -/
theorem calculateScore_eq (assigning : Assigning) :
    afl.calculateScore q assigning =
      if afl.totalCalCycles = 0#64 ∨ afl.totalBitmapEntries = 0#64 then none
      else
        (afl.applySchedule q assigning (afl.baseScore q)).bind fun perfScore =>
          (afl.raise q assigning perfScore).map fun perfScore =>
            { perfScore := limit perfScore, handicap := q.handicapLeft } := by
  have score : (afl.execScore q : ℚ) ≤ 300 := by
    exact_mod_cast afl.execScore_le q
  have multiplier := q.bitmapMultiplier_le afl.avgBitmapSize.toNat
  have least := q.le_bitmapMultiplier afl.avgBitmapSize.toNat
  have second := Nat.mul_le_mul (afl.floor_le_nine_hundred q)
    q.handicapMultiplier_le
  have third := afl.baseScore_le q
  have product : (afl.execScore q : ℚ) *
      (q.bitmapMultiplier afl.avgBitmapSize.toNat).value < 2 ^ 32 := by
    calc (afl.execScore q : ℚ) *
          (q.bitmapMultiplier afl.avgBitmapSize.toNat).value
        ≤ 300 * 3 := mul_le_mul score multiplier (by linarith) (by norm_num)
      _ < 2 ^ 32 := by norm_num
  have fits : afl.baseScore q < 2 ^ 32 := by omega
  rw [calculateScore, assigning.times_of_lt (by linarith) product]
  simp only [Option.bind_eq_bind, Option.bind_some]
  rw [assigning.whole_of_lt (by omega), Option.bind_some]
  unfold baseScore at fits
  rw [assigning.whole_of_lt fits, Option.bind_some]
  simp only [Option.map_eq_bind, Function.comp_def, baseScore]

/-- What a schedule makes of a score, before it is truncated. -/
def energy (perfScore : Nat) : ℚ :=
  match afl.schedule with
  | .explore => perfScore
  | .seek => perfScore
  | .mmopt =>
      if afl.aboveDeepest q < 5#64 then (perfScore * 2 : Nat) else perfScore
  | .rare => ((perfScore + q.tcRef.toNat * 10 : Nat) : ℚ) * afl.otherPaths q
  | _ => perfScore * min ((afl.factor q).getD 1) maxFactor

/-- The schedule has a result: it neither ends the process nor divides by zero
nor takes a value below zero for a score. -/
def Schedulable (perfScore : Nat) : Prop :=
  match afl.schedule with
  | .coe => q.fuzzLevel ≠ 0#32 → afl.enabledHits ≠ []
  | .lin => afl.hits q + 1#32 ≠ 0#32
  | .quad => afl.hits q + 1#32 ≠ 0#32
  | .rare => afl.totalExecs ≠ 0#64 ∧
      -1 < ((perfScore + q.tcRef.toNat * 10 : Nat) : ℚ) * afl.otherPaths q
  | _ => True

theorem zero_le_fastFactor : 0 ≤ afl.fastFactor q := by
  simp only [fastFactor]
  split_ifs <;> norm_num

theorem quotient_eq_none {dividend divisor : BitVec 32} :
    quotient dividend divisor = none ↔ divisor = 0#32 := by
  by_cases zero : divisor = 0#32 <;> simp [quotient, zero]

theorem zero_le_quotient {dividend divisor : BitVec 32} {factor : ℚ}
    (is : quotient dividend divisor = some factor) : 0 ≤ factor := by
  by_cases zero : divisor = 0#32
  · simp [quotient, zero] at is
  · rw [quotient, if_neg zero] at is
    rw [← Option.some.inj is]
    exact Nat.cast_nonneg _

theorem zero_le_coeFactor (above : Bool) :
    0 ≤ if above = true then if q.favored = true then 1 else 0
      else afl.fastFactor q :=
  Cascade.le_ite (Cascade.le_ite zero_le_one le_rfl) (afl.zero_le_fastFactor q)

theorem zero_le_of_factor {factor : ℚ} (is : afl.factor q = some factor) :
    0 ≤ factor := by
  cases schedule : afl.schedule with
  | coe =>
      by_cases unfuzzed : q.fuzzLevel = 0#32
      · simp [ScoreState.factor, schedule, unfuzzed] at is
        simp [← is]
      · simp only [ScoreState.factor, schedule, unfuzzed, if_false] at is
        obtain ⟨above, _, result⟩ := Option.map_eq_some_iff.mp is
        exact result ▸ afl.zero_le_coeFactor q above
  | fast =>
      simp only [ScoreState.factor, schedule, Option.some.injEq] at is
      exact is ▸ afl.zero_le_fastFactor q
  | lin =>
      simp only [ScoreState.factor, schedule] at is
      exact zero_le_quotient is
  | quad =>
      simp only [ScoreState.factor, schedule] at is
      exact zero_le_quotient is
  | exploit =>
      simp [ScoreState.factor, schedule, maxFactor] at is
      simp [← is]
  | explore | mmopt | rare | seek =>
      simp [ScoreState.factor, schedule] at is
      simp [← is]

theorem factor_eq_none_iff :
    afl.factor q = none ↔
      (afl.schedule = .coe ∧ q.fuzzLevel ≠ 0#32 ∧ afl.enabledHits = []) ∨
      ((afl.schedule = .lin ∨ afl.schedule = .quad) ∧ afl.hits q + 1#32 = 0#32) := by
  cases schedule : afl.schedule with
  | coe =>
      by_cases unfuzzed : q.fuzzLevel = 0#32
      · simp [ScoreState.factor, schedule, unfuzzed]
      · by_cases empty : afl.enabledHits = [] <;>
          simp [ScoreState.factor, schedule, unfuzzed, aboveMean, empty]
  | lin | quad =>
      simp [ScoreState.factor, schedule, quotient_eq_none]
  | explore | mmopt | exploit | fast | rare | seek =>
      simp [ScoreState.factor, schedule]

theorem applySchedule_byFactor {factor : ℚ} (assigning : Assigning)
    (byFactor : afl.ByFactor) (is : afl.factor q = some factor)
    (perfScore : Nat) :
    afl.applySchedule q assigning perfScore =
      assigning.double (perfScore * min factor maxFactor) := by
  have kept : afl.reschedule q assigning perfScore = some perfScore := by
    unfold reschedule
    split
    · rename_i schedule
      simp [ByFactor, schedule, Schedule.number] at byFactor
    · rename_i schedule
      simp [ByFactor, schedule, Schedule.number] at byFactor
    · rfl
  simp [applySchedule, is, kept, byFactor, powerBeta]

theorem applySchedule_not_byFactor (assigning : Assigning)
    (without : ¬afl.ByFactor) (perfScore : Nat) :
    afl.applySchedule q assigning perfScore =
      afl.reschedule q assigning perfScore := by
  obtain ⟨factor, is⟩ : ∃ factor, afl.factor q = some factor := by
    refine Option.ne_none_iff_exists'.mp fun none => without ?_
    rcases (afl.factor_eq_none_iff q).mp none with
      ⟨coe, _⟩ | ⟨lin | quad, _⟩
    · simp [ByFactor, coe, Schedule.number]
    · simp [ByFactor, lin, Schedule.number]
    · simp [ByFactor, quad, Schedule.number]
  simp [applySchedule, is, without]

theorem applySchedule_eq_none (assigning : Assigning) (other : afl.schedule ≠ .rare)
    (undefined : ¬afl.Schedulable q perfScore) :
    afl.applySchedule q assigning perfScore = none := by
  have none : afl.factor q = none := by
    refine (afl.factor_eq_none_iff q).mpr ?_
    cases schedule : afl.schedule with
    | coe => simpa [Schedulable, schedule] using undefined
    | lin | quad => simpa [Schedulable, schedule] using undefined
    | rare => exact absurd schedule other
    | explore | mmopt | exploit | fast | seek =>
        simp [Schedulable, schedule] at undefined
  simp [applySchedule, none]

theorem factor_of_schedulable (schedulable : afl.Schedulable q perfScore) :
    ∃ factor, afl.factor q = some factor := by
  refine Option.ne_none_iff_exists'.mp fun none => ?_
  rcases (afl.factor_eq_none_iff q).mp none with
    ⟨coe, fuzzed, empty⟩ | ⟨lin | quad, zero⟩
  · simp [Schedulable, coe, fuzzed, empty] at schedulable
  · simp [Schedulable, lin, zero] at schedulable
  · simp [Schedulable, quad, zero] at schedulable

theorem energy_byFactor {factor : ℚ} (byFactor : afl.ByFactor)
    (is : afl.factor q = some factor) (perfScore : Nat) :
    afl.energy q perfScore = perfScore * min factor maxFactor := by
  cases schedule : afl.schedule with
  | exploit | fast | coe | lin | quad => simp [energy, schedule, is]
  | explore | mmopt | rare | seek =>
      simp [ByFactor, schedule, Schedule.number] at byFactor

/-- Any schedule but `RARE`, for a score as it can be. -/
theorem applySchedule_eq (assigning : Assigning) (bounded : perfScore ≤ 18000)
    (other : afl.schedule ≠ .rare) (schedulable : afl.Schedulable q perfScore) :
    afl.applySchedule q assigning perfScore = some ⌊afl.energy q perfScore⌋₊ := by
  by_cases byFactor : afl.ByFactor
  · obtain ⟨factor, is⟩ := afl.factor_of_schedulable q schedulable
    have nonneg : 0 ≤ min factor maxFactor :=
      le_min (afl.zero_le_of_factor q is) (by norm_num [maxFactor])
    have cast : (perfScore : ℚ) ≤ 18000 := by exact_mod_cast bounded
    rw [afl.applySchedule_byFactor q assigning byFactor is,
      afl.energy_byFactor q byFactor is]
    refine assigning.double_of_lt (mul_nonneg (Nat.cast_nonneg _) nonneg) ?_
    calc (perfScore : ℚ) * min factor maxFactor
        ≤ 18000 * 32 := mul_le_mul cast (min_le_right _ _) nonneg (by norm_num)
      _ < 2 ^ 32 := by norm_num
  · rw [afl.applySchedule_not_byFactor q assigning byFactor]
    cases schedule : afl.schedule with
    | explore | seek => simp [reschedule, energy, schedule]
    | mmopt =>
        by_cases deep : afl.aboveDeepest q < 5#64
        · simp only [reschedule, energy, schedule, deep, if_true, Nat.floor_natCast]
          exact assigning.whole_of_lt (by omega)
        · simp [reschedule, energy, schedule, deep]
    | rare => exact absurd schedule other
    | exploit | fast | coe | lin | quad =>
        simp [ByFactor, schedule, Schedule.number] at byFactor

/-- The schedule `RARE`. -/
theorem applySchedule_rare (assigning : Assigning)
    (rare : afl.schedule = .rare) (perfScore : Nat) :
    afl.applySchedule q assigning perfScore =
      if afl.totalExecs = 0#64 then none
      else (assigning.whole (perfScore + q.tcRef.toNat * 10)).bind fun sum =>
        assigning.double (sum * afl.otherPaths q) := by
  have without : ¬afl.ByFactor := by
    simp [ByFactor, rare, Schedule.number]
  rw [afl.applySchedule_not_byFactor q assigning without]
  simp [reschedule, rare]

theorem energy_le (bounded : perfScore ≤ 18000) (other : afl.schedule ≠ .rare) :
    afl.energy q perfScore ≤ 18000 * 32 := by
  have cast : (perfScore : ℚ) ≤ 18000 := by exact_mod_cast bounded
  have nonneg : (0 : ℚ) ≤ perfScore := Nat.cast_nonneg _
  have product : (perfScore : ℚ) * min ((afl.factor q).getD 1) maxFactor ≤
      18000 * 32 :=
    (mul_le_mul_of_nonneg_left (min_le_right _ _) nonneg).trans
      (mul_le_mul_of_nonneg_right cast (by norm_num [maxFactor]))
  cases schedule : afl.schedule with
  | exploit | fast | coe | lin | quad =>
      simpa only [energy, schedule] using product
  | explore | seek =>
      simp only [energy, schedule]
      linarith
  | mmopt =>
      simp only [energy, schedule, Nat.cast_mul, Nat.cast_ofNat]
      exact Cascade.ite_le (by linarith) (by linarith)
  | rare => exact absurd schedule other

end ScoreState

end AFLPlusPlus
