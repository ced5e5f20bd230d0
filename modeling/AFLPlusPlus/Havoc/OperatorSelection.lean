import AFLPlusPlus.Support.Cumulative
import Mathlib.Data.Rat.Floor

/-!
# The havoc operators of MOpt

`pso_updating` moves the swarms and turns their positions into cumulative
tables, and `select_algorithm` draws from the table of the current swarm.  The
bound that `mopt_common_fuzzing` passes is a number of operators, but the table
is indexed by it.
-/

namespace AFLPlusPlus

namespace MOpt

def operatorNum : Nat := 19

def swarmNum : Nat := 5

def wInit : ℚ := 9 / 10

def wEnd : ℚ := 3 / 10

def gMax : Int := 5000

def vMax : ℚ := 1

def vMin : ℚ := 1 / 20

/-- The fields of `afl_state_t` that the swarms use. -/
structure State where
  gNow : Int
  wNow : ℚ
  stageFindsPuppet : Nat → Nat → Nat
  operatorFindsPuppet : Nat → Nat
  coreOperatorFindsPuppet : Nat → Nat
  gBest : Nat → ℚ
  lBest : Nat → Nat → ℚ
  xNow : Nat → Nat → ℚ
  vNow : Nat → Nat → ℚ
  probabilityNow : Nat → Nat → ℚ
  swarmNow : Nat
  keyModule : Nat

/-- `RAND_C` for a value of `rand()` -/
def randC (value : Nat) : ℚ := (value % 1000 : Nat) / 1000

namespace State

/-- A round more, and the inertia that belongs to it. -/
def advanceRound (afl : State) : State :=
  let gNow := if gMax < afl.gNow + 1 then 0 else afl.gNow + 1
  { afl with
    gNow
    wNow := (wInit - wEnd) * (gMax - gNow) / gMax + wEnd }

/-- The finds of an operator in the core module and in all swarms. -/
def findsOf (afl : State) (i : Nat) : Nat :=
  afl.coreOperatorFindsPuppet i +
    ((List.range swarmNum).map fun j => afl.stageFindsPuppet j i).sum

def totalFinds (afl : State) : Nat := ((List.range operatorNum).map afl.findsOf).sum

/-- Operators without finds keep their best position. -/
def updateBest (afl : State) : State :=
  { afl with
    operatorFindsPuppet := afl.findsOf
    gBest := fun i =>
      if afl.findsOf i = 0 then afl.gBest i
      else afl.findsOf i / afl.totalFinds }

/-- `v_now` after a step; the two values are those of `rand()`. -/
def velocity (afl : State) (rand : Nat × Nat) (swarm i : Nat) : ℚ :=
  afl.wNow * afl.vNow swarm i + randC rand.1 * (afl.lBest swarm i - afl.xNow swarm i) +
    randC rand.2 * (afl.gBest i - afl.xNow swarm i)

def clampPosition (x : ℚ) : ℚ :=
  if vMax < x then vMax else if x < vMin then vMin else x

/-- `x_now` before the division by the sum of the swarm. -/
def position (afl : State) (rand : Nat → Nat → Nat × Nat)
    (swarm i : Nat) : ℚ :=
  clampPosition (afl.xNow swarm i + afl.velocity (rand swarm i) swarm i)

def share (afl : State) (rand : Nat → Nat → Nat × Nat)
    (swarm i : Nat) : ℚ :=
  afl.position rand swarm i /
    Cumulative.runningSum (afl.position rand swarm) (operatorNum - 1)

def moveSwarms (afl : State) (rand : Nat → Nat → Nat × Nat) : State :=
  { afl with
    vNow := fun swarm i => afl.velocity (rand swarm i) swarm i
    xNow := afl.share rand
    probabilityNow := fun swarm =>
      Cumulative.runningSum (afl.share rand swarm)
    swarmNow := 0
    keyModule := 0 }

/-- `ERROR probability` -/
def Unbalanced (afl : State) (swarm : Nat) : Prop :=
  afl.probabilityNow swarm (operatorNum - 1) < 99 / 100 ∨
    101 / 100 < afl.probabilityNow swarm (operatorNum - 1)

instance (afl : State) (swarm : Nat) : Decidable (afl.Unbalanced swarm) :=
  inferInstanceAs (Decidable (_ ∨ _))

/-- `pso_updating`, without a result where it ends the program. -/
def psoUpdating (afl : State) (rand : Nat → Nat → Nat × Nat) : Option State :=
  let moved := afl.advanceRound.updateBest.moveSwarms rand
  if ∃ swarm < swarmNum, moved.Unbalanced swarm then none else some moved

/-- The value that is looked up in the table. -/
def selected (afl : State) (maxAlgorithm draw : Nat) : ℚ :=
  draw * (1 / 10000) * afl.probabilityNow afl.swarmNow (maxAlgorithm - 1)

/-- `select_algorithm` for a draw below 10000, without a result where it ends
the program. -/
def selectAlgorithm (afl : State) (maxAlgorithm draw : Nat) : Option Nat :=
  let row := afl.probabilityNow afl.swarmNow
  let sele := afl.selected maxAlgorithm draw
  let iPuppet := Cumulative.firstAbove row sele operatorNum
  let jPuppet := iPuppet ≠ 0 ∧ iPuppet < operatorNum
  if (jPuppet ∧ sele < row (iPuppet - 1)) ∨
      (iPuppet + 1 < operatorNum ∧ row (iPuppet + 1) < sele) then none
  else some iPuppet

def CanReturn (afl : State) (maxAlgorithm i : Nat) : Prop :=
  ∃ draw < 10000, afl.selectAlgorithm maxAlgorithm draw = some i

end State

/-- What decides about the optional operators. -/
structure Options where
  extrasCnt : BitVec 32
  aExtrasCnt : BitVec 32
  expandHavoc : BitVec 8
  readyForSplicingCount : BitVec 32

namespace Options

def HasDictionary (options : Options) : Prop :=
  options.extrasCnt ≠ 0 ∨ options.aExtrasCnt ≠ 0

def Splices (options : Options) : Prop :=
  options.expandHavoc ≠ 0 ∧ 1 < options.readyForSplicingCount.toNat

instance (options : Options) : Decidable options.Splices :=
  inferInstanceAs (Decidable (_ ∧ _))

/-- `r_max` of `mopt_common_fuzzing` -/
def rMax (options : Options) : Nat :=
  15 + (if options.extrasCnt + options.aExtrasCnt ≠ 0 then 2 else 0) +
    if options.Splices then 1 else 0

/-- The operators whose `case` makes sense. -/
def Applicable (options : Options) (i : Nat) : Prop :=
  i < 16 ∨ ((i = 16 ∨ i = 17) ∧ options.HasDictionary) ∨ (i = 18 ∧ options.Splices)

theorem rMax_pos (options : Options) : 0 < options.rMax := by
  unfold rMax
  omega

theorem rMax_le (options : Options) : options.rMax ≤ 18 := by
  unfold rMax
  split <;> split <;> omega

end Options

/-- No draw ends the program, and the operators that have a draw are the
applicable ones. -/
structure DrawsApplicable (afl : State) (options : Options) : Prop where
  returns : ∀ draw < 10000, afl.selectAlgorithm options.rMax draw ≠ none
  applicable : ∀ i < operatorNum, afl.CanReturn options.rMax i ↔ options.Applicable i

namespace State

variable (afl : State) (rand : Nat → Nat → Nat × Nat)

theorem vMin_le_clampPosition (x : ℚ) : vMin ≤ clampPosition x := by
  unfold clampPosition
  split
  · norm_num [vMin, vMax]
  · split
    · exact le_rfl
    · exact le_of_not_gt ‹_›

theorem clampPosition_le_vMax (x : ℚ) : clampPosition x ≤ vMax := by
  unfold clampPosition
  split
  · exact le_rfl
  · split
    · norm_num [vMin, vMax]
    · exact le_of_not_gt ‹_›

theorem position_pos (swarm i : Nat) : 0 < afl.position rand swarm i :=
  (show (0 : ℚ) < vMin by norm_num [vMin]).trans_le
    (vMin_le_clampPosition _)

theorem positions_pos (swarm : Nat) :
    0 < Cumulative.runningSum (afl.position rand swarm) (operatorNum - 1) :=
  Cumulative.runningSum_pos (afl.position_pos rand swarm) _

theorem positions_le (swarm : Nat) :
    Cumulative.runningSum (afl.position rand swarm) (operatorNum - 1) ≤
      operatorNum := by
  have bounded := Cumulative.runningSum_le
    (fun i => clampPosition_le_vMax
      (afl.xNow swarm i + afl.velocity (rand swarm i) swarm i))
    (operatorNum - 1)
  norm_num [operatorNum, vMax] at bounded ⊢
  exact bounded

theorem distance_le_share (swarm i : Nat) : 1 / 10000 ≤ afl.share rand swarm i := by
  have sum := afl.positions_le rand swarm
  have least : vMin ≤ afl.position rand swarm i := vMin_le_clampPosition _
  rw [share, le_div_iff₀ (afl.positions_pos rand swarm)]
  norm_num [operatorNum, vMin] at sum least ⊢
  linarith

theorem shares_sum (swarm : Nat) :
    Cumulative.runningSum (afl.share rand swarm) (operatorNum - 1) = 1 := by
  have positive := afl.positions_pos rand swarm
  have divided := Cumulative.runningSum_div (afl.position rand swarm)
    (Cumulative.runningSum (afl.position rand swarm) (operatorNum - 1))
    (operatorNum - 1)
  rw [div_self positive.ne'] at divided
  exact divided

/-- The table that `pso_updating` leaves for each swarm. -/
structure Tabulated (afl : State) : Prop where
  sums : ∃ share : Nat → Nat → ℚ,
    (∀ swarm, afl.probabilityNow swarm = Cumulative.runningSum (share swarm)) ∧
    (∀ swarm i, 1 / 10000 ≤ share swarm i) ∧
    ∀ swarm, Cumulative.runningSum (share swarm) (operatorNum - 1) = 1

theorem moveSwarms_tabulated : (afl.moveSwarms rand).Tabulated :=
  ⟨afl.share rand, fun _ => rfl, afl.distance_le_share rand, afl.shares_sum rand⟩

theorem moveSwarms_balanced (swarm : Nat) :
    ¬ (afl.moveSwarms rand).Unbalanced swarm := by
  have sum : (afl.moveSwarms rand).probabilityNow swarm (operatorNum - 1) =
      1 := afl.shares_sum rand swarm
  rw [Unbalanced, sum]
  norm_num

theorem psoUpdating_returns :
    afl.psoUpdating rand = some (afl.advanceRound.updateBest.moveSwarms rand) := by
  have balanced : ¬ ∃ swarm < swarmNum,
      (afl.advanceRound.updateBest.moveSwarms rand).Unbalanced swarm :=
    fun ⟨swarm, _, unbalanced⟩ => moveSwarms_balanced _ rand swarm unbalanced
  simp [psoUpdating, balanced]

variable {afl} {rand}

theorem tabulated_of_psoUpdating {updated : State}
    (updates : afl.psoUpdating rand = some updated) : updated.Tabulated := by
  rw [psoUpdating_returns] at updates
  cases updates
  exact moveSwarms_tabulated _ rand

namespace Tabulated

variable {maxAlgorithm draw i : Nat}

theorem exists_table (table : afl.Tabulated) :
    ∃ share : Nat → ℚ, (∀ i, 0 < share i) ∧ (∀ i, 1 / 10000 ≤ share i) ∧
      (∀ i, i < operatorNum → Cumulative.runningSum share i ≤ 1) ∧
      afl.probabilityNow afl.swarmNow = Cumulative.runningSum share := by
  obtain ⟨share, sums, wide, whole⟩ := table.sums
  have positive : ∀ i, 0 < share afl.swarmNow i := fun i =>
    (by norm_num : (0 : ℚ) < 1 / 10000).trans_le (wide afl.swarmNow i)
  refine ⟨share afl.swarmNow, positive, wide afl.swarmNow, ?_, sums afl.swarmNow⟩
  intro i inside
  rw [← whole afl.swarmNow]
  exact (Cumulative.runningSum_strictMono positive).monotone
    (Nat.le_sub_one_of_lt inside)

theorem selected_lt (table : afl.Tabulated) (maxAlgorithm : Nat)
    (bounded : draw < 10000) :
    afl.selected maxAlgorithm draw <
      afl.probabilityNow afl.swarmNow (maxAlgorithm - 1) := by
  obtain ⟨share, positive, _, _, row⟩ := table.exists_table
  have part : (draw : ℚ) * (1 / 10000) < 1 := by
    have bound : (draw : ℚ) < 10000 := by exact_mod_cast bounded
    linarith
  have sum := Cumulative.runningSum_pos positive (maxAlgorithm - 1)
  rw [selected, row]
  exact mul_lt_of_lt_one_left sum part

theorem eq_firstAbove_of_selected
    (selects : afl.selectAlgorithm maxAlgorithm draw = some i) :
    Cumulative.firstAbove (afl.probabilityNow afl.swarmNow)
      (afl.selected maxAlgorithm draw) operatorNum = i := by
  simp only [selectAlgorithm] at selects
  split at selects
  · cases selects
  · exact Option.some.inj selects

section

variable (table : afl.Tabulated) (atLeastOne : 0 < maxAlgorithm)
    (most : maxAlgorithm ≤ operatorNum)
include table atLeastOne most

/-- The loop ends at one of the first operators and neither of the checks
fails. -/
theorem selectAlgorithm_lt (bounded : draw < 10000) :
    ∃ i < maxAlgorithm, afl.selectAlgorithm maxAlgorithm draw = .some i := by
  obtain ⟨share, positive, _, _, row⟩ := table.exists_table
  have below := table.selected_lt maxAlgorithm bounded
  have first := Cumulative.firstAbove_le_of_lt
    (show maxAlgorithm - 1 < operatorNum by omega) below
  have inside : Cumulative.firstAbove (afl.probabilityNow afl.swarmNow)
      (afl.selected maxAlgorithm draw) operatorNum < operatorNum := by omega
  obtain ⟨above, earlier⟩ := (Cumulative.firstAbove_eq_iff inside).mp rfl
  refine ⟨_, Nat.lt_of_le_pred atLeastOne first, ?_⟩
  have increasing := Cumulative.runningSum_lt_succ
    (Cumulative.firstAbove (afl.probabilityNow afl.swarmNow)
      (afl.selected maxAlgorithm draw) operatorNum) positive
  rw [← row] at increasing
  rw [selectAlgorithm, if_neg]
  rintro (⟨⟨notFirst, _⟩, below⟩ | ⟨_, beyond⟩)
  · exact (earlier _ (by omega)).not_gt below
  · exact (above.trans increasing).not_gt beyond

theorem canReturn_iff : afl.CanReturn maxAlgorithm i ↔ i < maxAlgorithm := by
  constructor
  · rintro ⟨draw, bounded, returned⟩
    obtain ⟨j, below, selected⟩ := table.selectAlgorithm_lt atLeastOne most bounded
    rw [selected] at returned
    cases returned
    exact below
  · intro below
    obtain ⟨share, positive, wide, within, row⟩ := table.exists_table
    have range := within (maxAlgorithm - 1) (by omega)
    have reached := Cumulative.exists_draw positive
      (show 0 < 10000 by omega)
      ((div_le_div_of_nonneg_right range (by norm_num)).trans (wide i))
      (Nat.le_sub_one_of_lt below)
      (show i < operatorNum by omega)
    obtain ⟨draw, bounded, found⟩ := reached
    have same : afl.selected maxAlgorithm draw =
        draw * (Cumulative.runningSum share (maxAlgorithm - 1) / (10000 : Nat)) := by
      rw [selected, row]
      push_cast
      ring
    rw [← same, ← row] at found
    obtain ⟨j, _, selected⟩ := table.selectAlgorithm_lt atLeastOne most bounded
    refine ⟨draw, bounded, selected.trans ?_⟩
    rw [← found]
    exact congrArg some (eq_firstAbove_of_selected selected).symm

end

end Tabulated

end State

namespace State

variable {afl : State} {options : Options}

theorem Tabulated.canReturn_rMax_iff (table : afl.Tabulated) (i : Nat) :
    afl.CanReturn options.rMax i ↔ i < options.rMax :=
  table.canReturn_iff options.rMax_pos
    (options.rMax_le.trans (by decide))

theorem exists_applicable_not_lt (options : Options) :
    ∃ i < operatorNum, options.Applicable i ∧ ¬ i < options.rMax := by
  by_cases splices : options.Splices
  · have bound := options.rMax_le
    exact ⟨18, by decide, .inr (.inr ⟨rfl, splices⟩), by omega⟩
  · by_cases dictionary : options.extrasCnt + options.aExtrasCnt = 0
    · have bound : options.rMax = 15 := by
        simp [Options.rMax, splices, dictionary]
      exact ⟨15, by decide, .inl (by omega), by omega⟩
    · have bound : options.rMax = 17 := by
        rw [Options.rMax, if_pos dictionary, if_neg splices]
      have given : options.HasDictionary := by
        by_contra missing
        simp only [Options.HasDictionary, not_or, not_not] at missing
        simp [missing.1, missing.2] at dictionary
      exact ⟨17, by decide, .inr (.inl ⟨.inr rfl, given⟩), by omega⟩

theorem Tabulated.not_drawsApplicable (table : afl.Tabulated) :
    ¬ DrawsApplicable afl options := by
  intro draws
  obtain ⟨i, numbered, applicable, excluded⟩ := exists_applicable_not_lt options
  exact excluded ((table.canReturn_rMax_iff i).mp
    ((draws.applicable i numbered).mpr applicable))

/-- `mopt_common_fuzzing` draws exactly the operators below its bound, and an
applicable operator is never among them. -/
theorem psoUpdating_leaves_out (afl updated : State)
    (rand : Nat → Nat → Nat × Nat) (swarm : Nat) (options : Options)
    (updates : afl.psoUpdating rand = some updated) (_ : swarm < swarmNum) :
    (∀ draw < 10000, State.selectAlgorithm
      { updated with swarmNow := swarm } options.rMax draw ≠ none) ∧
    (∀ i, State.CanReturn { updated with swarmNow := swarm } options.rMax i ↔
      i < options.rMax) ∧
    ¬ DrawsApplicable { updated with swarmNow := swarm } options := by
  have table : Tabulated { updated with swarmNow := swarm } :=
    ⟨(tabulated_of_psoUpdating updates).sums⟩
  refine ⟨?_, fun i => table.canReturn_rMax_iff i, table.not_drawsApplicable⟩
  intro draw bounded ends
  obtain ⟨i, _, returned⟩ := table.selectAlgorithm_lt options.rMax_pos
    (options.rMax_le.trans (by decide)) bounded
  rw [ends] at returned
  cases returned

/-- The swarms as `-L` sets them up, if all draws are the same. -/
def even : State :=
  moveSwarms
    { gNow := 0
      wNow := wInit
      stageFindsPuppet := fun _ _ => 0
      operatorFindsPuppet := fun _ => 0
      coreOperatorFindsPuppet := fun _ => 0
      gBest := fun _ => 1 / 2
      lBest := fun _ _ => 1 / 2
      xNow := fun _ _ => 1 / 19
      vNow := fun _ _ => 1 / 10
      probabilityNow := fun _ _ => 0
      swarmNow := 0
      keyModule := 0 } fun _ _ => (0, 0)

theorem psoUpdating_leaves_out_even :
    ∃ updated, even.psoUpdating (fun _ _ => (1, 2)) = some updated ∧
      ¬ DrawsApplicable { updated with swarmNow := 4 } ⟨0, 0, 0, 0⟩ := by
  refine ⟨_, psoUpdating_returns _ _, ?_⟩
  exact (psoUpdating_leaves_out even _ (fun _ _ => (1, 2)) 4 ⟨0, 0, 0, 0⟩
    (psoUpdating_returns _ _) (by decide)).2.2

/-- Without a dictionary and without splicing nothing draws operator 15. -/
theorem select_misses_overwrite :
    ∃ updated, even.psoUpdating (fun _ _ => (1, 2)) = some updated ∧
      (∀ draw < 10000, updated.selectAlgorithm
        (Options.rMax ⟨0, 0, 0, 0⟩) draw ≠ some 15) ∧
      ¬ DrawsApplicable updated ⟨0, 0, 0, 0⟩ := by
  refine ⟨_, psoUpdating_returns _ _, ?_, ?_⟩
  · have table := moveSwarms_tabulated even.advanceRound.updateBest
      fun _ _ => (1, 2)
    intro draw bounded returned
    exact absurd
      ((@Tabulated.canReturn_rMax_iff _ ⟨0, 0, 0, 0⟩ table 15).mp
        ⟨draw, bounded, returned⟩) (by decide)
  · exact (moveSwarms_tabulated _ _).not_drawsApplicable

end State

end MOpt

end AFLPlusPlus
