import AFLPlusPlus.Queue.EnergyOrder

/-!
# The band of the scores

A score that `fuzz_one` acts on lies between one and the limit, so that only
`COE` takes entries out of the game.
-/

namespace AFLPlusPlus

variable {perfScore result : Nat}

namespace Assigning

theorem whole_of_checked (assigning : Assigning) {value : Nat}
    (fits : checked.whole value = some result) :
    assigning.whole value = some result := by
  by_cases small : value < 2 ^ 32
  · rwa [whole_of_lt _ small] at fits ⊢
  · rw [whole, if_neg small] at fits
    cases fits

theorem double_of_checked (assigning : Assigning) {value : ℚ}
    (fits : checked.double value = some result) :
    assigning.double value = some result := by
  by_cases small : 0 ≤ value ∧ value < 2 ^ 32
  · rwa [double_of_lt _ small.1 small.2] at fits ⊢
  · rw [double, if_neg small] at fits
    cases fits

end Assigning

namespace ScoreState

section Checked

variable (afl : ScoreState) (q : ScoredEntry) (assigning : Assigning)

theorem applySchedule_of_checked
    (fits : afl.applySchedule q .checked perfScore = some result) :
    afl.applySchedule q assigning perfScore = some result := by
  have reschedule : ∀ {result}, afl.reschedule q .checked perfScore = some result →
      afl.reschedule q assigning perfScore = some result := by
    intro result fits
    cases schedule : afl.schedule with
    | mmopt =>
        simp only [ScoreState.reschedule, schedule] at fits ⊢
        split_ifs at fits ⊢
        · exact assigning.whole_of_checked fits
        · exact fits
    | rare =>
        simp only [ScoreState.reschedule, schedule] at fits ⊢
        split_ifs at fits ⊢
        obtain ⟨sum, first, second⟩ := Option.bind_eq_some_iff.mp fits
        exact Option.bind_eq_some_iff.mpr
          ⟨sum, assigning.whole_of_checked first, assigning.double_of_checked second⟩
    | explore | exploit | fast | coe | lin | quad | seek =>
        simpa only [ScoreState.reschedule, schedule] using fits
  obtain ⟨factor, is, rest⟩ := Option.bind_eq_some_iff.mp fits
  obtain ⟨kept, first, second⟩ := Option.bind_eq_some_iff.mp rest
  refine Option.bind_eq_some_iff.mpr ⟨factor, is,
    Option.bind_eq_some_iff.mpr ⟨kept, reschedule first, ?_⟩⟩
  split_ifs at second ⊢
  · exact assigning.double_of_checked second
  · exact second

theorem raise_of_checked (fits : afl.raise q .checked perfScore = some result) :
    afl.raise q assigning perfScore = some result := by
  unfold raise at fits ⊢
  split_ifs at fits ⊢
  · exact assigning.whole_of_checked fits
  · exact fits
  · exact fits

theorem calculateScore_of_checked {scored : Scored}
    (fits : afl.calculateScore q .checked = some scored) :
    afl.calculateScore q assigning = some scored := by
  rw [calculateScore_eq] at fits ⊢
  split_ifs at fits ⊢
  obtain ⟨energy, first, rest⟩ := Option.bind_eq_some_iff.mp fits
  obtain ⟨result, second, same⟩ := Option.map_eq_some_iff.mp rest
  exact Option.bind_eq_some_iff.mpr
    ⟨energy, afl.applySchedule_of_checked q assigning first,
      Option.map_eq_some_iff.mpr
        ⟨result, afl.raise_of_checked q assigning second, same⟩⟩

end Checked

section Band

variable (afl : ScoreState) (q : ScoredEntry)

/-- The score before its share is taken, in the schedule `RARE`. -/
def rareScore : Nat := afl.baseScore q + q.tcRef.toNat * 10

/-- In the schedule `RARE`, what the map bytes add fits, and no path has been
taken more often than there were executions. -/
def RareFits : Prop :=
  afl.totalExecs ≠ 0#64 ∧ afl.rareScore q < 2 ^ 32 ∧
    (afl.hits q).toNat ≤ afl.totalExecs.toNat

structure Banded : Prop where
  cycles : afl.totalCalCycles ≠ 0#64
  entries : afl.totalBitmapEntries ≠ 0#64
  divisor : afl.schedule = .lin ∨ afl.schedule = .quad → afl.hits q + 1#32 ≠ 0#32
  rare : afl.schedule = .rare → afl.RareFits q
  unspent : afl.MOptNear q → ¬afl.Spent q
  doubled : afl.MOptNear q → afl.schedule = .rare →
    (afl.rareScore q : ℚ) * afl.otherPaths q < 2 ^ 31

theorem zero_le_otherPaths_iff (executed : afl.totalExecs ≠ 0#64) :
    0 ≤ afl.otherPaths q ↔ (afl.hits q).toNat ≤ afl.totalExecs.toNat := by
  have positive : (0 : ℚ) < afl.totalExecs.toNat :=
    Nat.cast_pos.mpr (Nat.pos_of_ne_zero fun none =>
      executed (BitVec.eq_of_toNat_eq none))
  rw [otherPaths, sub_nonneg, div_le_one positive, Nat.cast_le]

theorem otherPaths_le : afl.otherPaths q ≤ 1 := by
  have share : (0 : ℚ) ≤ (afl.hits q).toNat / afl.totalExecs.toNat :=
    div_nonneg (Nat.cast_nonneg _) (Nat.cast_nonneg _)
  rw [otherPaths]
  linarith

theorem zero_lt_rareScore : (0 : ℚ) < afl.rareScore q := by
  have base := afl.two_le_baseScore q
  have positive : 0 < afl.rareScore q :=
    Nat.lt_of_lt_of_le (by omega) (Nat.le_add_right _ _)
  exact_mod_cast positive

theorem energy_rare (rare : afl.schedule = .rare) :
    afl.energy q (afl.baseScore q) = afl.rareScore q * afl.otherPaths q := by
  simp only [energy, rare, rareScore]

theorem schedulable_iff (other : afl.schedule ≠ .coe)
    (plain : afl.schedule ≠ .rare) {perfScore : Nat} :
    afl.Schedulable q perfScore ↔
      (afl.schedule = .lin ∨ afl.schedule = .quad → afl.hits q + 1#32 ≠ 0#32) := by
  cases schedule : afl.schedule with
  | coe => exact absurd schedule other
  | rare => exact absurd schedule plain
  | lin | quad => simp [Schedulable, schedule]
  | explore | mmopt | exploit | fast | seek => simp [Schedulable, schedule]

theorem applySchedule_rare_checked (rare : afl.schedule = .rare) :
    afl.applySchedule q .checked (afl.baseScore q) = some result ↔
      afl.RareFits q ∧ ⌊afl.energy q (afl.baseScore q)⌋₊ = result := by
  have positive := afl.zero_lt_rareScore q
  rw [afl.applySchedule_rare q .checked rare, afl.energy_rare q rare, ← rareScore]
  by_cases executed : afl.totalExecs = 0#64
  · simp [RareFits, executed]
  by_cases fits : afl.rareScore q < 2 ^ 32
  · rw [if_neg executed, Assigning.whole_of_lt _ fits, Option.bind_some]
    by_cases others : 0 ≤ afl.otherPaths q
    · have cast : (afl.rareScore q : ℚ) < 2 ^ 32 := by exact_mod_cast fits
      have share := afl.otherPaths_le q
      rw [Assigning.double_of_lt _ (mul_nonneg positive.le others)
        (by nlinarith), Option.some.injEq]
      exact (and_iff_right ⟨executed, fits,
        (afl.zero_le_otherPaths_iff q executed).mp others⟩).symm
    · have negative : ¬0 ≤ (afl.rareScore q : ℚ) * afl.otherPaths q :=
        not_le.mpr (mul_neg_of_pos_of_neg positive (not_le.mp others))
      rw [Assigning.double, if_neg fun both => negative both.1]
      refine iff_of_false (by simp) fun both => others ?_
      exact (afl.zero_le_otherPaths_iff q executed).mpr both.1.2.2
  · rw [if_neg executed, Assigning.whole, if_neg fits]
    exact iff_of_false (by simp) fun both => fits both.1.2.1

theorem schedulable_of (other : afl.schedule ≠ .coe)
    (divisor : afl.schedule = .lin ∨ afl.schedule = .quad → afl.hits q + 1#32 ≠ 0#32)
    (rare : afl.schedule = .rare → afl.RareFits q) :
    afl.Schedulable q (afl.baseScore q) := by
  by_cases isRare : afl.schedule = .rare
  · obtain ⟨executed, _, often⟩ := rare isRare
    have others := (afl.zero_le_otherPaths_iff q executed).mpr often
    have product := mul_nonneg (afl.zero_lt_rareScore q).le others
    simp only [Schedulable, isRare]
    refine ⟨executed, ?_⟩
    rw [← rareScore]
    linarith
  · exact (afl.schedulable_iff q other isRare).mpr divisor

/-- Any schedule but `COE` without overflow. -/
theorem applySchedule_checked (other : afl.schedule ≠ .coe) :
    afl.applySchedule q .checked (afl.baseScore q) = some result ↔
      ((afl.schedule = .lin ∨ afl.schedule = .quad → afl.hits q + 1#32 ≠ 0#32) ∧
        (afl.schedule = .rare → afl.RareFits q)) ∧
      ⌊afl.energy q (afl.baseScore q)⌋₊ = result := by
  by_cases rare : afl.schedule = .rare
  · rw [afl.applySchedule_rare_checked q rare]
    simp [rare]
  · rw [← @schedulable_iff afl q other rare (afl.baseScore q)]
    by_cases schedulable : afl.Schedulable q (afl.baseScore q)
    · rw [afl.applySchedule_eq q .checked (afl.baseScore_le q) rare schedulable]
      simp [schedulable, rare]
    · rw [afl.applySchedule_eq_none q .checked rare schedulable]
      simp [schedulable]

theorem raise_checked :
    afl.raise q .checked perfScore = some result ↔
      (afl.MOptNear q → perfScore * 2 < 2 ^ 32) ∧ afl.raised q perfScore = result := by
  by_cases near : afl.MOptNear q
  · by_cases fits : perfScore * 2 < 2 ^ 32
    · simp only [raise, raised, near, if_true, fits, true_and, implies_true,
        Assigning.whole_of_lt _ fits, Option.some.injEq]
    · simp only [raise, near, if_true, Assigning.whole, fits, if_false,
        reduceCtorEq, forall_const, false_and]
  · simp only [raise, raised, near, if_false]
    split_ifs <;> simp

theorem one_le_limit_raised_iff (other : afl.schedule ≠ .coe)
    (perfScore : Nat) :
    1 ≤ limit (afl.raised q perfScore) ↔ (afl.MOptNear q → perfScore ≠ 0) := by
  have positive : ∀ score, 1 ≤ limit score ↔ 1 ≤ score := by
    intro score
    unfold limit havocMaxMult
    split_ifs <;> omega
  rw [positive]
  by_cases near : afl.MOptNear q
  · simp only [raised, near, if_true, forall_const]
    omega
  · simp only [raised, near, if_false, other, ne_eq, not_false_eq_true,
      true_and, IsEmpty.forall_iff, iff_true]
    split_ifs <;> omega

theorem limit_le (perfScore : Nat) : limit perfScore ≤ havocMaxMult * 100 := by
  simp only [limit]
  split_ifs <;> omega

theorem doubled_fits (banded : afl.Banded q) (near : afl.MOptNear q) :
    ⌊afl.energy q (afl.baseScore q)⌋₊ * 2 < 2 ^ 32 := by
  have half : afl.energy q (afl.baseScore q) < (2 ^ 31 : Nat) := by
    push_cast
    by_cases rare : afl.schedule = .rare
    · rw [afl.energy_rare q rare]
      exact banded.doubled near rare
    · have bound := afl.energy_le q (afl.baseScore_le q) rare
      linarith
  have small := (Nat.floor_lt' (by norm_num)).mpr half
  omega

/-- Under the condition, the score lies in its band. -/
theorem inBand_of_banded (other : afl.schedule ≠ .coe)
    (banded : afl.Banded q) :
    ∃ scored, afl.calculateScore q .machine = some scored ∧
      afl.calculateScore q .checked = some scored ∧
      1 ≤ scored.perfScore ∧ scored.perfScore ≤ havocMaxMult * 100 ∧
      abandons scored.perfScore = false := by
  have schedulable := afl.schedulable_of q other banded.divisor banded.rare
  have scheduled := (afl.applySchedule_checked q other).mpr
    ⟨⟨banded.divisor, banded.rare⟩, rfl⟩
  have doubled := afl.doubled_fits q banded
  have raised := (afl.raise_checked q).mpr ⟨doubled, rfl⟩
  have checked : afl.calculateScore q .checked = some
      { perfScore := limit (afl.raised q ⌊afl.energy q (afl.baseScore q)⌋₊)
        handicap := q.handicapLeft } := by
    rw [calculateScore_eq, if_neg (by simp [banded.cycles, banded.entries]),
      scheduled, Option.bind_some, raised, Option.map_some]
  have positive := (afl.one_le_limit_raised_iff q other
    ⌊afl.energy q (afl.baseScore q)⌋₊).mpr fun near zero =>
      banded.unspent near
        ((afl.energy_lt_one_iff q other schedulable).mp (Nat.floor_eq_zero.mp zero))
  refine ⟨_, afl.calculateScore_of_checked q .machine checked, checked,
    positive, limit_le _, ?_⟩
  exact decide_eq_false (Nat.not_le_of_lt positive)

/-- Without `COE`, the score lies in its band and nothing overflows on the way,
exactly under this condition. -/
theorem calculateScore_inBand_iff (other : afl.schedule ≠ .coe) :
    (∃ scored, afl.calculateScore q .machine = some scored ∧
        afl.calculateScore q .checked = some scored ∧
        1 ≤ scored.perfScore ∧ scored.perfScore ≤ havocMaxMult * 100 ∧
        abandons scored.perfScore = false) ↔
      afl.Banded q := by
  constructor
  · rintro ⟨scored, _, is, least, _, _⟩
    rw [calculateScore_eq] at is
    split_ifs at is with zero
    rw [not_or] at zero
    obtain ⟨perfScore, scheduled, rest⟩ := Option.bind_eq_some_iff.mp is
    obtain ⟨result, raised, rfl⟩ := Option.map_eq_some_iff.mp rest
    obtain ⟨⟨divisor, rare⟩, rfl⟩ := (afl.applySchedule_checked q other).mp scheduled
    obtain ⟨doubled, rfl⟩ := (afl.raise_checked q).mp raised
    have kept := (afl.one_le_limit_raised_iff q other _).mp least
    have schedulable := afl.schedulable_of q other divisor rare
    refine ⟨zero.1, zero.2, divisor, rare, fun near spent => ?_, fun near isRare => ?_⟩
    · refine kept near (Nat.floor_eq_zero.mpr ?_)
      exact (afl.energy_lt_one_iff q other schedulable).mpr spent
    · have half : ⌊afl.energy q (afl.baseScore q)⌋₊ < 2 ^ 31 := by
        have := doubled near
        omega
      have small := (Nat.floor_lt' (by norm_num)).mp half
      rw [afl.energy_rare q isRare] at small
      exact_mod_cast small
  · exact afl.inBand_of_banded q other

theorem calculateScore_inBand_shallow :
    ∃ scored, linearMOpt.calculateScore (unfuzzedAt 1#64) .machine = some scored ∧
      linearMOpt.calculateScore (unfuzzedAt 1#64) .checked = some scored ∧
      1 ≤ scored.perfScore ∧ scored.perfScore ≤ havocMaxMult * 100 ∧
      abandons scored.perfScore = false := by
  refine (calculateScore_inBand_iff linearMOpt _ (by decide)).mpr ?_
  have far : ¬linearMOpt.MOptNear (unfuzzedAt 1#64) := by decide
  exact ⟨by decide, by decide, fun _ => by decide,
    fun rare => absurd rare (by decide), fun near => absurd near far,
    fun near => absurd near far⟩

/-- In MOpt mode the schedule `LIN` gives up an entry that has not been
fuzzed. -/
theorem calculateScore_zero :
    linearMOpt.schedule ≠ .coe ∧
      linearMOpt.calculateScore (unfuzzedAt 4#64) .machine = some ⟨0, 0#64⟩ ∧
      abandons 0 = true ∧
      ¬∃ scored, linearMOpt.calculateScore (unfuzzedAt 4#64) .machine = some scored ∧
        linearMOpt.calculateScore (unfuzzedAt 4#64) .checked = some scored ∧
        1 ≤ scored.perfScore ∧ scored.perfScore ≤ havocMaxMult * 100 ∧
        abandons scored.perfScore = false := by
  have nothing : linearMOpt.calculateScore (unfuzzedAt 4#64) .machine =
      some ⟨0, 0#64⟩ := by decide +kernel
  refine ⟨by decide, nothing, by decide, ?_⟩
  rintro ⟨scored, is, _, least, _⟩
  cases is.symm.trans nothing
  exact absurd least (by decide)

end Band

end ScoreState

end AFLPlusPlus
