import AFLPlusPlus.Queue.CalculateScore

/-!
# The order of the scores

Of two entries which are alike for the schedules, the one which is faster,
larger, later or deeper should get no less than the other.  The MOpt mode breaks
this, since it doubles a score of zero where others are raised to one.
-/

namespace AFLPlusPlus

variable {dividend divisor : BitVec 32} {less more : Nat} {factor : ℚ}

namespace ScoreState

open ScoredEntry

variable (afl : ScoreState) (q : ScoredEntry)

/-- The entry is slow and small, new and shallow enough for the least score. -/
def Least : Prop :=
  afl.fixedSeed = false ∧ (q.execUs.toNat : ℚ) * (1 / 10) > afl.avgExecUs.toNat ∧
    (q.bitmapSize.toNat : ℚ) * 3 < afl.avgBitmapSize.toNat ∧
    q.handicap = 0#64 ∧ q.depth ≤ 3#64

/-- The schedule takes the score of the entry below one. -/
def Spent : Prop :=
  match afl.schedule with
  | .fast => q.fuzzLevel ≠ 0#32 ∧ q.favored = false ∧ 8 ≤ afl.log2Hits q ∧ afl.Least q
  | .lin => q.fuzzLevel < afl.hits q + 1#32
  | .quad => q.fuzzLevel * q.fuzzLevel < afl.hits q + 1#32
  | .rare => ((afl.baseScore q + q.tcRef.toNat * 10 : Nat) : ℚ) *
      afl.otherPaths q < 1
  | _ => False

theorem fastFactor_lt_half_iff :
    afl.fastFactor q < 1 / 2 ↔
      q.fuzzLevel ≠ 0#32 ∧ q.favored = false ∧ 8 ≤ afl.log2Hits q := by
  by_cases unfuzzed : q.fuzzLevel = 0#32
  · simp only [fastFactor, unfuzzed, if_true]
    norm_num
  · cases favored : q.favored with
    | true =>
        simp only [fastFactor, unfuzzed, favored, if_false, if_true]
        constructor
        · intro small
          split_ifs at small <;> norm_num at small
        · rintro ⟨_, not, _⟩
          cases not
    | false =>
        simp only [fastFactor, unfuzzed, favored, if_false,
          Bool.false_eq_true, true_and]
        constructor
        · intro small
          split_ifs at small <;> norm_num at small
          exact ⟨unfuzzed, by omega⟩
        · rintro ⟨_, often⟩
          have others : ¬afl.log2Hits q ≤ 1 ∧ ¬afl.log2Hits q ≤ 3 ∧
              ¬afl.log2Hits q = 4 ∧ ¬afl.log2Hits q = 5 ∧
              ¬afl.log2Hits q = 6 ∧ ¬afl.log2Hits q = 7 := by omega
          simp only [others, if_false]
          norm_num

theorem fastFactor_le : afl.fastFactor q ≤ maxFactor := by
  simp only [fastFactor, maxFactor]
  split_ifs <;> norm_num

theorem two_fifths_le_fastFactor : 2 / 5 ≤ afl.fastFactor q := by
  simp only [fastFactor]
  split_ifs <;> norm_num

theorem execScore_lt_iff
    (rated : afl.schedule.number < Schedule.rare.number) :
    afl.execScore q < 25 ↔ afl.fixedSeed = false ∧
      (q.execUs.toNat : ℚ) * (1 / 10) > afl.avgExecUs.toNat := by
  constructor
  · intro small
    by_contra fast
    refine absurd small (not_lt.mpr ?_)
    simp only [execScore]
    split_ifs with timed slow
    · exact absurd ⟨timed.2, slow⟩ fast
    all_goals norm_num
  · rintro ⟨timed, slow⟩
    simp only [execScore, rated, timed, slow, and_self, if_true]
    norm_num

theorem bitmapMultiplier_lt_iff (avg : ℚ) :
    (q.bitmapMultiplier avg).value < 3 / 10 ↔ (q.bitmapSize.toNat : ℚ) * 3 < avg := by
  have nonneg : (0 : ℚ) ≤ q.bitmapSize.toNat := Nat.cast_nonneg _
  rw [q.bitmapMultiplier_value]
  constructor
  · intro small
    by_contra large
    simp only [large, if_false] at small
    split_ifs at small <;> norm_num at small
  · intro small
    rw [if_neg (by linarith), if_neg (by linarith), if_neg (by linarith), if_pos small]
    norm_num

theorem handicapMultiplier_lt_two_iff :
    q.handicapMultiplier < 2 ↔ q.handicap = 0#64 := by
  constructor
  · intro small
    by_contra late
    simp only [ScoredEntry.handicapMultiplier, late, ne_eq, not_false_eq_true,
      if_true] at small
    split_ifs at small <;> omega
  · intro none
    simp [ScoredEntry.handicapMultiplier, none]

theorem depthMultiplier_lt_two_iff : q.depthMultiplier < 2 ↔ q.depth ≤ 3#64 := by
  constructor
  · intro small
    by_contra deep
    simp only [ScoredEntry.depthMultiplier, deep, if_false] at small
    split_ifs at small <;> omega
  · intro shallow
    simp [ScoredEntry.depthMultiplier, shallow]

theorem baseScore_lt_three_iff
    (rated : afl.schedule.number < Schedule.rare.number) :
    afl.baseScore q < 3 ↔ afl.Least q := by
  have floor := afl.two_le_floor q
  have handicap := q.one_le_handicapMultiplier
  have depth := q.one_le_depthMultiplier
  constructor
  · intro small
    have new : q.handicapMultiplier < 2 := by
      by_contra late
      have product := Nat.mul_le_mul (Nat.mul_le_mul floor (not_lt.mp late))
        depth
      exact absurd (Nat.lt_of_le_of_lt product small) (by norm_num)
    have shallow : q.depthMultiplier < 2 := by
      by_contra deep
      have product := Nat.mul_le_mul (Nat.mul_le_mul floor handicap)
        (not_lt.mp deep)
      exact absurd (Nat.lt_of_le_of_lt product small) (by norm_num)
    have product : (afl.execScore q : ℚ) *
        (q.bitmapMultiplier afl.avgBitmapSize.toNat).value < 3 := by
      refine (Nat.floor_lt' (by norm_num)).mp ?_
      refine Nat.lt_of_le_of_lt ?_ small
      exact Nat.le_trans (Nat.le_mul_of_pos_right _ handicap)
        (Nat.le_mul_of_pos_right _ depth)
    have least := q.le_bitmapMultiplier afl.avgBitmapSize.toNat
    have ten : (10 : ℚ) ≤ afl.execScore q := by
      exact_mod_cast afl.le_execScore q
    have slow : afl.execScore q < 25 := by
      by_contra fast
      have cast : (25 : ℚ) ≤ afl.execScore q := by
        exact_mod_cast not_lt.mp fast
      nlinarith
    obtain ⟨timed, slow⟩ := (afl.execScore_lt_iff q rated).mp slow
    exact ⟨timed, slow, (bitmapMultiplier_lt_iff q _).mp (by nlinarith),
      (handicapMultiplier_lt_two_iff q).mp new,
      (depthMultiplier_lt_two_iff q).mp shallow⟩
  · rintro ⟨timed, slow, few, new, shallow⟩
    have ten : afl.execScore q = 10 := by
      simp only [execScore, rated, timed, slow, and_self, if_true]
    have quarter : (q.bitmapMultiplier afl.avgBitmapSize.toNat).value <
        3 / 10 := (bitmapMultiplier_lt_iff q _).mpr few
    have first := (handicapMultiplier_lt_two_iff q).mpr new
    have second := (depthMultiplier_lt_two_iff q).mpr shallow
    have ones : q.handicapMultiplier = 1 ∧ q.depthMultiplier = 1 := by omega
    rw [baseScore, ones.1, ones.2, Nat.mul_one, Nat.mul_one, ten]
    refine (Nat.floor_lt' (by norm_num)).mpr ?_
    push_cast
    linarith

theorem quotient_lt_one_iff (is : quotient dividend divisor = some factor) :
    factor < 1 ↔ dividend < divisor := by
  by_cases zero : divisor = 0#32
  · simp [quotient, zero] at is
  · rw [quotient, if_neg zero] at is
    rw [← Option.some.inj is, Nat.cast_lt_one, BitVec.toNat_udiv,
      Nat.div_eq_zero_iff_lt (Nat.pos_of_ne_zero fun none => zero ?_)]
    · rfl
    · exact BitVec.eq_of_toNat_eq none

theorem natCast_of_quotient (is : quotient dividend divisor = some factor) :
    ∃ n : Nat, factor = n := by
  by_cases zero : divisor = 0#32
  · simp [quotient, zero] at is
  · rw [quotient, if_neg zero] at is
    exact ⟨_, (Option.some.inj is).symm⟩

theorem mul_natCast_lt_one_iff {perfScore : Nat} (positive : 0 < perfScore)
    (integer : ∃ n : Nat, factor = n) :
    (perfScore : ℚ) * min factor maxFactor < 1 ↔ factor < 1 := by
  obtain ⟨n, rfl⟩ := integer
  have cast : (1 : ℚ) ≤ perfScore := by exact_mod_cast positive
  constructor
  · intro small
    by_contra large
    have least : 1 ≤ min (n : ℚ) maxFactor :=
      le_min (not_lt.mp large) (by norm_num [maxFactor])
    nlinarith
  · intro small
    have zero : n = 0 := by
      have : n < 1 := by exact_mod_cast small
      omega
    simp [zero, maxFactor]

theorem mul_quotient_lt_one_iff {perfScore : Nat} (positive : 0 < perfScore)
    (nonzero : divisor ≠ 0#32) :
    (perfScore : ℚ) *
        min ((quotient dividend divisor).getD 1) maxFactor < 1 ↔
      dividend < divisor := by
  obtain ⟨factor, is⟩ : ∃ factor, quotient dividend divisor = some factor :=
    Option.ne_none_iff_exists'.mp fun none =>
      nonzero (quotient_eq_none.mp none)
  rw [is, Option.getD_some, ← quotient_lt_one_iff is]
  exact mul_natCast_lt_one_iff positive (natCast_of_quotient is)

theorem mul_fastFactor_lt_one_iff
    (rated : afl.schedule.number < Schedule.rare.number) :
    (afl.baseScore q : ℚ) * min (afl.fastFactor q) maxFactor < 1 ↔
      q.fuzzLevel ≠ 0#32 ∧ q.favored = false ∧ 8 ≤ afl.log2Hits q ∧ afl.Least q := by
  have two : (2 : ℚ) ≤ afl.baseScore q := by
    exact_mod_cast afl.two_le_baseScore q
  have least := afl.two_fifths_le_fastFactor q
  rw [min_eq_left (afl.fastFactor_le q), ← afl.baseScore_lt_three_iff q rated]
  constructor
  · intro small
    obtain ⟨fuzzed, plain, often⟩ := (afl.fastFactor_lt_half_iff q).mp (by nlinarith)
    refine ⟨fuzzed, plain, often, ?_⟩
    have below : (afl.baseScore q : ℚ) < 3 := by nlinarith
    exact_mod_cast below
  · rintro ⟨fuzzed, plain, often, small⟩
    have half := (afl.fastFactor_lt_half_iff q).mpr ⟨fuzzed, plain, often⟩
    have is : (afl.baseScore q : ℚ) = 2 := by
      exact_mod_cast Nat.le_antisymm (Nat.le_of_lt_succ small)
        (afl.two_le_baseScore q)
    rw [is]
    linarith

theorem energy_lt_one_iff (other : afl.schedule ≠ .coe)
    (schedulable : afl.Schedulable q (afl.baseScore q)) :
    afl.energy q (afl.baseScore q) < 1 ↔ afl.Spent q := by
  have positive := afl.two_le_baseScore q
  have cast : (2 : ℚ) ≤ afl.baseScore q := by exact_mod_cast positive
  cases schedule : afl.schedule with
  | explore | seek =>
      simp only [energy, Spent, schedule, iff_false, not_lt]
      linarith
  | mmopt =>
      simp only [energy, Spent, schedule, iff_false, not_lt, Nat.cast_mul,
        Nat.cast_ofNat]
      exact Cascade.le_ite (by linarith) (by linarith)
  | exploit =>
      simp only [energy, Spent, schedule, iff_false, not_lt,
        ScoreState.factor, Option.getD_some, min_self, maxFactor]
      linarith
  | fast =>
      simp only [energy, Spent, schedule, ScoreState.factor, Option.getD_some]
      exact afl.mul_fastFactor_lt_one_iff q (by rw [schedule]; decide)
  | coe => exact absurd schedule other
  | lin =>
      simp only [Schedulable, schedule] at schedulable
      simp only [energy, Spent, schedule, ScoreState.factor]
      exact mul_quotient_lt_one_iff (by omega) schedulable
  | quad =>
      simp only [Schedulable, schedule] at schedulable
      simp only [energy, Spent, schedule, ScoreState.factor]
      exact mul_quotient_lt_one_iff (by omega) schedulable
  | rare => simp only [energy, Spent, schedule]

end ScoreState

namespace ScoredEntry.Better

open ScoreState

variable {a b : ScoredEntry} (better : Better a b) (afl : ScoreState)

include better

theorem hits_eq : afl.hits a = afl.hits b := congrArg afl.nFuzz better.nFuzzEntry

theorem fastFactor_eq : afl.fastFactor a = afl.fastFactor b := by
  unfold fastFactor log2Hits
  rw [better.hits_eq afl, better.fuzzLevel, better.favored]

theorem factor_eq : afl.factor a = afl.factor b := by
  unfold ScoreState.factor aboveMean
  rw [better.hits_eq afl, better.fastFactor_eq afl, better.fuzzLevel, better.favored]

theorem otherPaths_eq : afl.otherPaths a = afl.otherPaths b := by
  rw [otherPaths, better.hits_eq afl, otherPaths]

section

variable (deepest : a.depth ≤ afl.maxDepth.setWidth 64)
include deepest

theorem aboveDeepest_le : afl.aboveDeepest a ≤ afl.aboveDeepest b := by
  have deeper := better.depth
  simp only [aboveDeepest, BitVec.le_def, BitVec.toNat_sub] at *
  omega

theorem energy_le (scores : less ≤ more)
    (nonneg : afl.schedule = .rare → 0 ≤ afl.otherPaths a) :
    afl.energy b less ≤ afl.energy a more := by
  have cast : (less : ℚ) ≤ more := Nat.cast_le.mpr scores
  have near := better.aboveDeepest_le afl deepest
  have least : 0 ≤ min ((afl.factor a).getD 1) maxFactor := by
    refine le_min ?_ (by norm_num [maxFactor])
    cases is : afl.factor a with
    | none => exact zero_le_one
    | some factor => exact afl.zero_le_of_factor a is
  cases schedule : afl.schedule with
  | explore | seek => simpa only [energy, schedule] using cast
  | mmopt =>
      simp only [energy, schedule, Nat.cast_mul, Nat.cast_ofNat]
      have positive : (0 : ℚ) ≤ less := Nat.cast_nonneg _
      by_cases close : afl.aboveDeepest b < 5#64
      · have closer : afl.aboveDeepest a < 5#64 := Nat.lt_of_le_of_lt near close
        simp only [close, closer, if_true]
        linarith
      · simp only [close, if_false]
        exact Cascade.le_ite (by linarith) cast
  | rare =>
      simp only [energy, schedule, better.tcRef, better.otherPaths_eq afl] at *
      refine mul_le_mul_of_nonneg_right ?_ (nonneg trivial)
      exact_mod_cast Nat.add_le_add_right scores _
  | exploit | fast | coe | lin | quad =>
      simp only [energy, schedule, ← better.factor_eq afl]
      exact mul_le_mul_of_nonneg_right cast least

theorem mOptNear (near : afl.MOptNear b) : afl.MOptNear a :=
  ⟨near.1, Nat.lt_of_le_of_lt (better.aboveDeepest_le afl deepest) near.2⟩

end

end ScoredEntry.Better

namespace ScoreState

open ScoredEntry

variable (afl : ScoreState) (q : ScoredEntry)

/-- What the last steps make of a score. -/
def raised (perfScore : Nat) : Nat :=
  if afl.MOptNear q then perfScore * 2
  else if afl.schedule ≠ .coe ∧ perfScore < 1 then 1
  else perfScore

theorem raise_exact (perfScore : Nat) :
    afl.raise q .exact perfScore = some (afl.raised q perfScore) := by
  simp only [raise, raised, Assigning.whole]
  split_ifs <;> rfl

theorem limit_mono (scores : less ≤ more) : limit less ≤ limit more := by
  simp only [limit]
  split_ifs <;> omega

def Returns : Prop :=
  afl.totalCalCycles ≠ 0#64 ∧ afl.totalBitmapEntries ≠ 0#64 ∧
    afl.Schedulable q (afl.baseScore q)

theorem applySchedule_exact
    (schedulable : afl.Schedulable q (afl.baseScore q)) :
    afl.applySchedule q .exact (afl.baseScore q) =
      some ⌊afl.energy q (afl.baseScore q)⌋₊ := by
  by_cases rare : afl.schedule = .rare
  · rw [afl.applySchedule_rare q .exact rare]
    simp only [Schedulable, rare] at schedulable
    simp only [energy, rare, schedulable, Assigning.whole, Assigning.double,
      Option.bind_some, if_true, if_false]
  · exact afl.applySchedule_eq q .exact (afl.baseScore_le q) rare schedulable

theorem applySchedule_exact_none
    (undefined : ¬afl.Schedulable q (afl.baseScore q)) :
    afl.applySchedule q .exact (afl.baseScore q) = none := by
  by_cases rare : afl.schedule = .rare
  · rw [afl.applySchedule_rare q .exact rare]
    simp only [Schedulable, rare, not_and] at undefined
    by_cases none : afl.totalExecs = 0#64
    · rw [if_pos none]
    · rw [if_neg none]
      simp only [Assigning.whole, Assigning.double, Option.bind_some,
        undefined none, if_false]
  · exact afl.applySchedule_eq_none q .exact rare undefined

theorem calculateScore_exact (returns : afl.Returns q) :
    afl.calculateScore q .exact = some
      { perfScore := limit (afl.raised q ⌊afl.energy q (afl.baseScore q)⌋₊)
        handicap := q.handicapLeft } := by
  obtain ⟨cycles, entries, schedulable⟩ := returns
  rw [calculateScore_eq, if_neg (by simp [cycles, entries]),
    afl.applySchedule_exact q schedulable]
  simp only [Option.bind_some, raise_exact, Option.map_some]

theorem returns_of_calculateScore {scored : Scored}
    (is : afl.calculateScore q .exact = some scored) : afl.Returns q := by
  rw [calculateScore_eq] at is
  split_ifs at is with zero
  rw [not_or] at zero
  refine ⟨zero.1, zero.2, ?_⟩
  by_contra undefined
  rw [afl.applySchedule_exact_none q undefined] at is
  cases is

theorem Returns.of_better {a b : ScoredEntry} (better : Better a b)
    (returns : afl.Returns a) : afl.Returns b := by
  obtain ⟨cycles, entries, schedulable⟩ := returns
  refine ⟨cycles, entries, ?_⟩
  have scores := afl.baseScore_mono better
  cases schedule : afl.schedule with
  | explore | mmopt | exploit | fast | seek => simp [Schedulable, schedule]
  | coe | lin | quad =>
      simpa only [Schedulable, schedule, ← better.hits_eq afl,
        ← better.fuzzLevel] using schedulable
  | rare =>
      simp only [Schedulable, schedule, ← better.tcRef,
        ← better.otherPaths_eq afl] at schedulable ⊢
      refine ⟨schedulable.1, ?_⟩
      have cast : ((afl.baseScore b + a.tcRef.toNat * 10 : Nat) : ℚ) ≤
          (afl.baseScore a + a.tcRef.toNat * 10 : Nat) :=
        Nat.cast_le.mpr (Nat.add_le_add_right scores _)
      have nonneg : (0 : ℚ) ≤ (afl.baseScore b + a.tcRef.toNat * 10 : Nat) :=
        Nat.cast_nonneg _
      rcases le_total 0 (afl.otherPaths a) with others | others
      · nlinarith
      · nlinarith

/-- In MOpt mode, the deeper of two entries gets twice nothing, and the other
one the lower bound. -/
def LeftBehind (a b : ScoredEntry) : Prop :=
  afl.MOptNear a ∧ ¬afl.MOptNear b ∧ afl.Spent a

theorem Better.floor_le {a b : ScoredEntry} (better : Better a b)
    (deepest : a.depth ≤ afl.maxDepth.setWidth 64) :
    ⌊afl.energy b (afl.baseScore b)⌋₊ ≤ ⌊afl.energy a (afl.baseScore a)⌋₊ := by
  by_cases nonneg : afl.schedule = .rare → 0 ≤ afl.otherPaths a
  · exact Nat.floor_mono
      (better.energy_le afl deepest (afl.baseScore_mono better) nonneg)
  · obtain ⟨rare, negative⟩ := Classical.not_imp.mp nonneg
    refine (Nat.floor_of_nonpos ?_).trans_le (Nat.zero_le _)
    rw [better.otherPaths_eq afl] at negative
    simp only [energy, rare]
    exact mul_nonpos_of_nonneg_of_nonpos (Nat.cast_nonneg _)
      (le_of_lt (not_le.mp negative))

theorem ne_coe_of_spent (spent : afl.Spent q) : afl.schedule ≠ .coe := by
  intro coe
  simp only [Spent, coe] at spent

theorem floor_energy_eq_zero_iff (other : afl.schedule ≠ .coe)
    (returns : afl.Returns q) :
    ⌊afl.energy q (afl.baseScore q)⌋₊ = 0 ↔ afl.Spent q := by
  rw [Nat.floor_eq_zero]
  exact afl.energy_lt_one_iff q other returns.2.2

/-- The last steps keep the order, unless the better entry is left behind. -/
theorem raised_le {a b : ScoredEntry} (better : Better a b)
    (deepest : a.depth ≤ afl.maxDepth.setWidth 64) (scores : less ≤ more)
    (positive : afl.MOptNear a → ¬afl.MOptNear b → afl.schedule ≠ .coe → 0 < more) :
    afl.raised b less ≤ afl.raised a more := by
  simp only [raised]
  by_cases nearB : afl.MOptNear b
  · rw [if_pos nearB, if_pos (better.mOptNear afl deepest nearB)]
    omega
  · rw [if_neg nearB]
    by_cases nearA : afl.MOptNear a
    · rw [if_pos nearA]
      split_ifs with lowest
      · have := positive nearA nearB lowest.1
        omega
      · omega
    · rw [if_neg nearA]
      by_cases other : afl.schedule ≠ .coe
      · simp only [other, not_false_eq_true, ne_eq, true_and]
        split_ifs <;> omega
      · simp only [other, false_and, if_false]
        exact scores

/-- A better entry gets at least the score of the other, exactly if the call
returns and the better one is not left behind. -/
theorem better_gets_at_least_iff {a b : ScoredEntry} (better : Better a b)
    (deepest : a.depth ≤ afl.maxDepth.setWidth 64) :
    (∃ more less, afl.calculateScore a .exact = some more ∧
        afl.calculateScore b .exact = some less ∧
        less.perfScore ≤ more.perfScore) ↔
      afl.Returns a ∧ ¬afl.LeftBehind a b := by
  have scores := Better.floor_le afl better deepest
  constructor
  · rintro ⟨more, less, isMore, isLess, order⟩
    have returns := afl.returns_of_calculateScore a isMore
    refine ⟨returns, ?_⟩
    rintro ⟨nearA, nearB, spent⟩
    have other := afl.ne_coe_of_spent a spent
    have zero := (afl.floor_energy_eq_zero_iff a other returns).mpr spent
    rw [zero, Nat.le_zero] at scores
    rw [afl.calculateScore_exact a returns] at isMore
    rw [afl.calculateScore_exact b (returns.of_better afl better)] at isLess
    simp only [zero, scores, raised, nearA, nearB, if_true, if_false, other,
      ne_eq, not_false_eq_true, Nat.zero_mul, Nat.zero_lt_one, and_self]
      at isMore isLess
    cases isMore
    cases isLess
    simp [limit, havocMaxMult] at order
  · rintro ⟨returns, together⟩
    refine ⟨_, _, afl.calculateScore_exact a returns,
      afl.calculateScore_exact b (returns.of_better afl better), ?_⟩
    refine limit_mono (afl.raised_le better deepest scores ?_)
    intro nearA nearB other
    refine Nat.pos_of_ne_zero fun zero => together ⟨nearA, nearB, ?_⟩
    exact (afl.floor_energy_eq_zero_iff a other returns).mp zero

/-- A session in MOpt mode with the schedule `LIN`. -/
def linearMOpt : ScoreState where
  schedule := .lin
  fixedSeed := false
  totalCalUs := 8000#64
  totalCalCycles := 80#64
  totalBitmapSize := 100#64
  totalBitmapEntries := 10#64
  limitTimeSig := 0xFFFFFFFF#32
  maxDepth := 4#32
  nFuzz := fun _ => 1#32
  totalExecs := 1000#64
  queuedPaths := 0
  queueBuf := fun _ =>
    ⟨0#64, 0#32, 0#64, 0#64, 0#32, 0#32, 0#32, false, false⟩
  log2OfZero := 0#32

def unfuzzedAt (depth : BitVec 64) : ScoredEntry :=
  ⟨100#64, 10#32, 0#64, depth, 0#32, 0#32, 0#32, false, false⟩

theorem unfuzzedAt_better {a b : BitVec 64} (deeper : b ≤ a) :
    Better (unfuzzedAt a) (unfuzzedAt b) :=
  ⟨BitVec.le_refl _, BitVec.le_refl _, BitVec.le_refl _, deeper, rfl, rfl, rfl,
    rfl, rfl⟩

theorem better_gets_at_least_shallow :
    ∃ more less, linearMOpt.calculateScore (unfuzzedAt 1#64) .exact = some more ∧
      linearMOpt.calculateScore (unfuzzedAt 0#64) .exact = some less ∧
      less.perfScore ≤ more.perfScore := by
  have returns : linearMOpt.Returns (unfuzzedAt 1#64) := by
    refine ⟨by decide, by decide, ?_⟩
    change linearMOpt.hits (unfuzzedAt 1#64) + 1#32 ≠ 0#32
    decide
  exact (better_gets_at_least_iff linearMOpt (unfuzzedAt_better (by decide))
    (by decide)).mpr ⟨returns, fun behind => absurd behind.1 (by decide)⟩

/-- The deeper one of two entries that are like each other is not fuzzed. -/
theorem better_gets_less :
    Better (unfuzzedAt 4#64) (unfuzzedAt 1#64) ∧
      (unfuzzedAt 4#64).depth ≤ linearMOpt.maxDepth.setWidth 64 ∧
      ¬∃ more less, linearMOpt.calculateScore (unfuzzedAt 4#64) .exact = some more ∧
        linearMOpt.calculateScore (unfuzzedAt 1#64) .exact = some less ∧
        less.perfScore ≤ more.perfScore := by
  refine ⟨unfuzzedAt_better (by decide), by decide, ?_⟩
  rintro ⟨more, less, isMore, isLess, order⟩
  have nothing : linearMOpt.calculateScore (unfuzzedAt 4#64) .exact =
      some ⟨0, 0#64⟩ := by decide +kernel
  have one : linearMOpt.calculateScore (unfuzzedAt 1#64) .exact =
      some ⟨1, 0#64⟩ := by decide +kernel
  cases isMore.symm.trans nothing
  cases isLess.symm.trans one
  exact absurd order (by decide)

end ScoreState

end AFLPlusPlus
