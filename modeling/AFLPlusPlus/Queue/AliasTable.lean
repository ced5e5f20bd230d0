import AFLPlusPlus.Queue.State
import AFLPlusPlus.Support.AliasMethod

/-!
# The alias table

`create_alias_table` turns the weights of the queue entries into a table from
which `select_next_queue_entry` picks an entry with two random numbers.  Columns
with less than the average are topped up by columns with more.  Weights are rational
numbers, and the counters of the loops do not overflow.
-/

namespace AFLPlusPlus

open AliasMethod

/-- What the table is made of: an entry of the queue, with its weight and its
performance score as they were left. -/
structure WeightedEntry where
  disabled : Bool
  weight : ℚ
  perfScore : ℚ

/-- The queue, with what `compute_weight` and `calculate_score` say about its
entries. -/
structure WeightedQueue where
  schedule : Schedule
  queuedPaths : Nat
  queueBuf : Nat → WeightedEntry
  computeWeight : Nat → ℚ
  calculateScore : Nat → ℚ

/-- The loops over the columns: what is left of each, the stacks of columns with
less than one and with one or more, and the table. -/
structure AliasState where
  P : Nat → ℚ
  S : List Nat
  L : List Nat
  table : Table ℚ

namespace WeightedQueue

variable (afl : WeightedQueue)

/-- `afl->schedule < RARE` -/
def ByWeight : Prop := afl.schedule.number < Schedule.rare.number

instance : Decidable afl.ByWeight := inferInstanceAs (Decidable (_ < _))

/-- The entries after they have been rated. -/
def rated (i : Nat) : WeightedEntry :=
  let q := afl.queueBuf i
  if q.disabled then q
  else if afl.ByWeight then
    { q with weight := afl.computeWeight i, perfScore := afl.calculateScore i }
  else { q with perfScore := afl.calculateScore i }

def weightOf (i : Nat) : ℚ :=
  if afl.ByWeight then (afl.rated i).weight else (afl.rated i).perfScore

/-- `sum`, to which disabled entries do not add their weight. -/
def sum : ℚ :=
  ∑ i ∈ Finset.range afl.queuedPaths,
    if afl.ByWeight ∧ (afl.queueBuf i).disabled = true then 0
    else afl.weightOf i

/-- `P` before the loop. -/
def column (i : Nat) : ℚ := afl.weightOf i * afl.queuedPaths / afl.sum

end WeightedQueue

namespace AliasState

/-- The columns below `n` in two stacks, the last one first. -/
def split (P : Nat → ℚ) (n : Nat) : List Nat × List Nat :=
  (List.range n).foldr (fun s both =>
    if P s < 1 then (s :: both.1, both.2) else (both.1, s :: both.2)) ([], [])

/-- A round of the loop, as long as both stacks have a column. -/
def round (state : AliasState) : Option AliasState :=
  match state.S, state.L with
  | a :: S, g :: L =>
      let left := state.P g + state.P a - 1
      let P := Function.update state.P g left
      let table : Table ℚ :=
        ⟨Function.update state.table.probability a (state.P a),
          Function.update state.table.second a g⟩
      some
        (if left < 1 then { P, S := g :: S, L, table }
        else { P, S, L := g :: L, table })
  | _, _ => none

theorem round_length {state next : AliasState}
    (goes : state.round = some next) :
    next.S.length + next.L.length < state.S.length + state.L.length := by
  unfold round at goes
  split at goes
  · rename_i small large
    rw [small, large]
    cases goes
    split
    · simp only [List.length_cons]
      omega
    · simp only [List.length_cons]
      omega
  · cases goes

def rounds (state : AliasState) : AliasState :=
  match _goes : state.round with
  | none => state
  | some next => rounds next
termination_by state.S.length + state.L.length
decreasing_by exact round_length _goes

/-- The loops that give the columns that are left to their own entries. -/
def close (state : AliasState) : Table ℚ :=
  (state.L ++ state.S).foldl (fun table s =>
    { table with probability := Function.update table.probability s 1 })
    state.table

end AliasState

namespace WeightedQueue

variable (afl : WeightedQueue)

/-- The state in which the loop begins, with the table zeroed. -/
def startAlias : AliasState where
  P := afl.column
  S := (AliasState.split afl.column afl.queuedPaths).1
  L := (AliasState.split afl.column afl.queuedPaths).2
  table := ⟨fun _ => 0, fun _ => 0⟩

def createAliasTable : Table ℚ := afl.startAlias.rounds.close

/-- `select_next_queue_entry`, with its two random numbers. -/
noncomputable def selectNextQueueEntry (s : Nat) (p : ℝ) : Nat :=
  if p < afl.createAliasTable.probability s then s
  else afl.createAliasTable.second s

/-- The chance of an entry, where `s` and `p` are uniform. -/
noncomputable def chance (i : Nat) : ℝ :=
  (∑ s ∈ Finset.range afl.queuedPaths, MeasureTheory.volume.real
    {p | p ∈ Set.Ico (0 : ℝ) 1 ∧ afl.selectNextQueueEntry s p = i}) /
    afl.queuedPaths

end WeightedQueue

namespace AliasState

/-- All columns that are stored or used are columns of the table, and the stacks
have room for them. -/
structure InRange (n : Nat) (state : AliasState) : Prop where
  room : state.S.length + state.L.length ≤ n
  small : ∀ s ∈ state.S, s < n
  large : ∀ s ∈ state.L, s < n
  table : ∀ s, state.table.second s < n

/-- The loop has filled the columns in `done`. -/
structure Fills (n : Nat) (target : Nat → ℚ) (done : List Nat)
    (state : AliasState) : Prop where
  filling : Filling target done (state.S ++ state.L) state.P state.table
  columns : (state.S ++ state.L ++ done).Perm (List.range n)
  small : ∀ s ∈ state.S, 0 ≤ state.P s ∧ state.P s < 1
  large : ∀ s ∈ state.L, 1 ≤ state.P s
  second : ∀ s, state.table.second s < n

variable {n : Nat} {target : Nat → ℚ} {done : List Nat}
  {state next : AliasState}

theorem Fills.inRange (fills : Fills n target done state) : InRange n state := by
  have below : ∀ s ∈ state.S ++ state.L ++ done, s < n := fun s member =>
    List.mem_range.mp (fills.columns.mem_iff.mp member)
  have length := fills.columns.length_eq
  rw [List.length_append, List.length_append, List.length_range] at length
  refine ⟨by omega, ?_, ?_, fills.second⟩
  · intro s member
    exact below s (List.mem_append_left _ (List.mem_append_left _ member))
  · intro s member
    exact below s (List.mem_append_left _ (List.mem_append_right _ member))

theorem Fills.round (fills : Fills n target done state)
    (goes : state.round = some next) :
    ∃ a, Fills n target (a :: done) next := by
  unfold AliasState.round at goes
  split at goes
  · rename_i a S g L isS isL
    have moved : (state.S ++ state.L).Perm (a :: g :: (S ++ L)) := by
      rw [isS, isL]
      exact List.Perm.cons a List.perm_middle
    obtain ⟨positive, less⟩ := fills.small a (isS ▸ List.mem_cons_self)
    have most := fills.large g (isL ▸ List.mem_cons_self)
    have filled := (fills.filling.perm moved).fill positive (le_of_lt less)
    have distinct := (fills.filling.perm moved).distinct
    simp only [List.cons_append, List.nodup_cons, List.mem_cons, not_or,
      List.mem_append] at distinct
    obtain ⟨_, ⟨⟨gS, gL⟩, _⟩, _⟩ := distinct
    have columns : (g :: (S ++ L) ++ a :: done).Perm (List.range n) := by
      have before := fills.columns
      have swapped : (g :: (S ++ L) ++ a :: done).Perm
          (a :: (g :: (S ++ L) ++ done)) := List.perm_middle
      exact swapped.trans ((moved.append_right done).symm.trans before)
    have small : ∀ s ∈ S, 0 ≤ Function.update state.P g
          (state.P g + state.P a - 1) s ∧
        Function.update state.P g (state.P g + state.P a - 1) s < 1 := by
      intro s member
      rw [Function.update_of_ne (ne_of_mem_of_not_mem member gS)]
      exact fills.small s (isS ▸ List.mem_cons_of_mem a member)
    have large : ∀ s ∈ L, 1 ≤ Function.update state.P g
        (state.P g + state.P a - 1) s := by
      intro s member
      rw [Function.update_of_ne (ne_of_mem_of_not_mem member gL)]
      exact fills.large s (isL ▸ List.mem_cons_of_mem g member)
    have second : ∀ s, Function.update state.table.second a g s < n := by
      intro s
      by_cases last : s = a
      · rw [last, Function.update_self]
        exact fills.inRange.large g (isL ▸ List.mem_cons_self)
      · rw [Function.update_of_ne last]
        exact fills.second s
    refine ⟨a, ?_⟩
    cases goes
    split
    · rename_i little
      refine ⟨filled, columns, ?_, large, second⟩
      intro s member
      rcases List.mem_cons.mp member with same | before
      · subst same
        dsimp only
        rw [Function.update_self]
        exact ⟨by linarith, little⟩
      · exact small s before
    · rename_i enough
      have order : (g :: (S ++ L)).Perm (S ++ g :: L) := List.perm_middle.symm
      refine ⟨filled.perm order, (order.symm.append_right _).trans columns,
        small, ?_, second⟩
      intro s member
      rcases List.mem_cons.mp member with same | before
      · subst same
        dsimp only
        rw [Function.update_self]
        exact not_lt.mp enough
      · exact large s before
  · cases goes

/-- The states that the loop comes to. -/
abbrev Reached : AliasState → AliasState → Prop :=
  Relation.ReflTransGen fun state next => state.round = some next

theorem Fills.reached (fills : Fills n target done state)
    (reached : Reached state next) : ∃ done, Fills n target done next := by
  induction reached with
  | refl => exact ⟨done, fills⟩
  | tail _ goes induction =>
      obtain ⟨done, fills⟩ := induction
      obtain ⟨a, fills⟩ := fills.round goes
      exact ⟨a :: done, fills⟩

theorem reached_rounds (state : AliasState) :
    Reached state state.rounds ∧ state.rounds.round = none := by
  induction state using AliasState.rounds.induct with
  | case1 state ends =>
      have same : state.rounds = state := by
        rw [rounds]
        split
        · rfl
        · rename_i next goes
          rw [ends] at goes
          cases goes
      rw [same]
      exact ⟨Relation.ReflTransGen.refl, ends⟩
  | case2 state next goes induction =>
      have same : state.rounds = next.rounds := by
        rw [rounds]
        split
        · rename_i ends
          rw [ends] at goes
          cases goes
        · rename_i other alsoGoes
          rw [goes] at alsoGoes
          cases alsoGoes
          rfl
      rw [same]
      exact ⟨Relation.ReflTransGen.head goes induction.1, induction.2⟩

theorem Fills.whole (fills : Fills n target done state)
    (ends : state.round = none) : ∀ s ∈ state.S ++ state.L, state.P s = 1 := by
  unfold AliasState.round at ends
  cases isS : state.S with
  | nil =>
      have large := fills.filling.rest_eq_one
      rw [isS] at large
      exact large fills.large
  | cons a S =>
      cases isL : state.L with
      | nil =>
          have small := fills.filling.pending_eq_nil
          rw [isL, List.append_nil] at small
          have none := small fun s member => (fills.small s member).2
          rw [isS] at none
          cases none
      | cons g L =>
          rw [isS, isL] at ends
          cases ends

theorem foldl_ones (columns : List Nat) (table : Table ℚ) :
    (∀ s, (columns.foldl (fun table s =>
        ({ table with probability := Function.update table.probability s 1 } :
          Table ℚ)) table).probability s =
      if s ∈ columns then 1 else table.probability s) ∧
      (columns.foldl (fun table s =>
        ({ table with probability := Function.update table.probability s 1 } :
          Table ℚ)) table).second = table.second := by
  induction columns generalizing table with
  | nil => exact ⟨fun s => (if_neg (List.not_mem_nil)).symm, rfl⟩
  | cons column columns induction =>
      obtain ⟨ones, second⟩ := induction
        { table with probability := Function.update table.probability column 1 }
      refine ⟨?_, second⟩
      intro s
      rw [List.foldl_cons, ones s]
      by_cases later : s ∈ columns
      · rw [if_pos later, if_pos (List.mem_cons_of_mem column later)]
      · rw [if_neg later]
        by_cases here : s = column
        · rw [here, if_pos List.mem_cons_self]
          exact Function.update_self ..
        · rw [if_neg fun member => (List.mem_cons.mp member).elim here later]
          exact Function.update_of_ne here ..

theorem Fills.close (fills : Fills n target done state)
    (ends : state.round = none) :
    (∀ s < n, 0 ≤ state.close.probability s ∧ state.close.probability s ≤ 1) ∧
      (∀ i, target i = ∑ s ∈ Finset.range n, state.close.share i s) ∧
      ∀ s, state.close.second s < n := by
  obtain ⟨ones, second⟩ := foldl_ones (state.L ++ state.S) state.table
  have distinct := List.nodup_append.mp fills.filling.distinct
  have finished := @Filling.finish _ _ _ _ _ _ _ _ _ fills.filling
    (fills.whole ends) state.close
    (by
      intro s member
      have left : s ∈ state.L ++ state.S := List.perm_append_comm.mem_iff.mp member
      exact (ones s).trans (if_pos left))
    (by
      intro s before
      have filled : s ∉ state.L ++ state.S := by
        intro left
        exact distinct.2.2 s (List.perm_append_comm.mem_iff.mp left) s before rfl
      exact ⟨(ones s).trans (if_neg filled), congrFun second s⟩)
  refine ⟨?_, ?_, ?_⟩
  · intro s below
    exact finished.1 s
      (fills.columns.mem_iff.mpr (List.mem_range.mpr below))
  · intro i
    rw [finished.2 i, (fills.columns.map _).sum_eq]
    rfl
  · intro s
    rw [show state.close.second = state.table.second from second]
    exact fills.second s

theorem split_spec (P : Nat → ℚ) (n : Nat) :
    ((split P n).1 ++ (split P n).2).Perm (List.range n) ∧
      (∀ s ∈ (split P n).1, P s < 1) ∧ ∀ s ∈ (split P n).2, 1 ≤ P s := by
  unfold split
  induction List.range n with
  | nil =>
      exact ⟨List.Perm.refl [], List.forall_mem_nil _, List.forall_mem_nil _⟩
  | cons s columns induction =>
      obtain ⟨same, small, large⟩ := induction
      rw [List.foldr_cons]
      by_cases little : P s < 1
      · rw [if_pos little, List.forall_mem_cons]
        exact ⟨same.cons s, ⟨little, small⟩, large⟩
      · rw [if_neg little, List.forall_mem_cons]
        exact ⟨List.perm_middle.trans (same.cons s), small, not_lt.mp little, large⟩

end AliasState

namespace WeightedQueue

variable {afl : WeightedQueue}

/-- The weights are not negative, not all zero, and zero for disabled
entries. -/
structure Weighted (afl : WeightedQueue) : Prop where
  nonneg : ∀ i < afl.queuedPaths, 0 ≤ afl.weightOf i
  positive : 0 < ∑ i ∈ Finset.range afl.queuedPaths, afl.weightOf i
  disabled : ∀ i < afl.queuedPaths, (afl.queueBuf i).disabled = true →
    afl.weightOf i = 0

theorem Weighted.sum_eq (weighted : afl.Weighted) :
    afl.sum = ∑ i ∈ Finset.range afl.queuedPaths, afl.weightOf i := by
  apply Finset.sum_congr rfl
  intro i member
  split
  · rename_i skipped
    exact (weighted.disabled i (Finset.mem_range.mp member) skipped.2).symm
  · rfl

def target (afl : WeightedQueue) (i : Nat) : ℚ :=
  if i < afl.queuedPaths then afl.column i else 0

theorem Weighted.fills_start (weighted : afl.Weighted) :
    AliasState.Fills afl.queuedPaths afl.target [] afl.startAlias := by
  obtain ⟨same, small, large⟩ := AliasState.split_spec afl.column afl.queuedPaths
  have positive : 0 < afl.sum := weighted.sum_eq ▸ weighted.positive
  have queued : 0 < afl.queuedPaths := by
    by_contra none
    have empty := weighted.positive
    rw [Nat.eq_zero_of_not_pos none, Finset.sum_range_zero] at empty
    exact lt_irrefl 0 empty
  have below : ∀ s ∈ (AliasState.split afl.column afl.queuedPaths).1,
      s < afl.queuedPaths := by
    intro s member
    exact List.mem_range.mp
      (same.mem_iff.mp (List.mem_append_left _ member))
  refine ⟨⟨?_, ?_, ?_, ?_⟩, ?_, ?_, large, fun _ => queued⟩
  · rw [List.append_nil]
    exact same.nodup_iff.mpr List.nodup_range
  · exact List.forall_mem_nil _
  · intro i
    rw [List.map_nil, List.sum_nil, add_zero]
    have shares : ((afl.startAlias.S ++ afl.startAlias.L).map fun s =>
        if s = i then afl.column s else 0).sum =
        ∑ s ∈ Finset.range afl.queuedPaths,
          if s = i then afl.column s else 0 :=
      (same.map _).sum_eq
    refine Eq.trans ?_ shares.symm
    rw [Finset.sum_ite_eq']
    simp only [target, Finset.mem_range]
  · have total : ((afl.startAlias.S ++ afl.startAlias.L).map afl.column).sum =
        ∑ s ∈ Finset.range afl.queuedPaths, afl.column s :=
      (same.map _).sum_eq
    have length : (afl.startAlias.S ++ afl.startAlias.L).length =
        afl.queuedPaths := same.length_eq.trans List.length_range
    refine total.trans ?_
    rw [length]
    unfold column
    rw [← Finset.sum_div, ← Finset.sum_mul, ← weighted.sum_eq]
    exact mul_div_cancel_left₀ _ (ne_of_gt positive)
  · rw [List.append_nil]
    exact same
  · intro s member
    refine ⟨?_, small s member⟩
    have nonneg := weighted.nonneg s (below s member)
    change 0 ≤ afl.weightOf s * afl.queuedPaths / afl.sum
    positivity

theorem Weighted.filled (weighted : afl.Weighted) :
    Filled (afl.createAliasTable.cast : Table ℝ) afl.queuedPaths
      fun i => (afl.target i : ℝ) := by
  obtain ⟨reached, ends⟩ := AliasState.reached_rounds afl.startAlias
  obtain ⟨_, fills⟩ := weighted.fills_start.reached reached
  obtain ⟨bounded, shares, _⟩ := fills.close ends
  constructor
  · intro s below
    obtain ⟨nonneg, small⟩ := bounded s below
    refine ⟨Rat.cast_nonneg.mpr nonneg, ?_⟩
    rw [← Rat.cast_one]
    exact Rat.cast_le.mpr small
  · intro i
    rw [shares i]
    push_cast
    apply Finset.sum_congr rfl
    intro s _
    exact (Table.cast_share _ i s).symm

theorem select_eq_pick (s : Nat) (p : ℝ) :
    afl.selectNextQueueEntry s p = afl.createAliasTable.cast.pick s p := rfl

theorem Weighted.chance_eq (weighted : afl.Weighted) {i : Nat}
    (queued : i < afl.queuedPaths) :
    afl.chance i = afl.weightOf i /
      ∑ other ∈ Finset.range afl.queuedPaths, (afl.weightOf other : ℝ) := by
  have length : (afl.queuedPaths : ℝ) ≠ 0 := by
    exact_mod_cast Nat.ne_of_gt (Nat.zero_lt_of_lt queued)
  have chance : afl.chance i = (afl.target i : ℝ) / afl.queuedPaths :=
    weighted.filled.chance_eq i
  rw [chance, target, if_pos queued, column, weighted.sum_eq]
  push_cast
  rw [div_right_comm, mul_div_cancel_right₀ _ length]

/-- The loop over the columns keeps every index in range and ends, and the table
picks every entry as often as its weight demands. -/
theorem createAliasTable_exact (afl : WeightedQueue)
    (weighted : afl.Weighted) :
    (∀ state, AliasState.Reached afl.startAlias state →
        state.InRange afl.queuedPaths) ∧
      (AliasState.Reached afl.startAlias afl.startAlias.rounds ∧
        afl.startAlias.rounds.round = none) ∧
      (∀ s < afl.queuedPaths, ∀ p, afl.selectNextQueueEntry s p < afl.queuedPaths) ∧
      (∀ i < afl.queuedPaths, afl.chance i = afl.weightOf i /
        ∑ other ∈ Finset.range afl.queuedPaths, (afl.weightOf other : ℝ)) ∧
      ∀ i < afl.queuedPaths, afl.weightOf i = 0 →
        ∀ s < afl.queuedPaths, ∀ p ∈ Set.Ico (0 : ℝ) 1,
          afl.selectNextQueueEntry s p ≠ i := by
  refine ⟨?_, AliasState.reached_rounds afl.startAlias, ?_, ?_, ?_⟩
  · intro state reached
    obtain ⟨_, fills⟩ := weighted.fills_start.reached reached
    exact fills.inRange
  · intro s below p
    obtain ⟨reached, ends⟩ := AliasState.reached_rounds afl.startAlias
    obtain ⟨_, fills⟩ := weighted.fills_start.reached reached
    unfold selectNextQueueEntry
    split
    · exact below
    · exact (fills.close ends).2.2 s
  · intro i queued
    exact weighted.chance_eq queued
  · intro i queued none s below p inside
    rw [select_eq_pick]
    apply weighted.filled.pick_ne _ below inside.1 inside.2
    rw [target, if_pos queued, column, none, zero_mul, zero_div, Rat.cast_zero]

/-- A queue of three entries, one of which is disabled. -/
def threeEntries : WeightedQueue where
  schedule := .explore
  queuedPaths := 3
  queueBuf := fun i => ⟨decide (i = 1), 0, 0⟩
  computeWeight := fun i => if i = 0 then 3 else 1
  calculateScore := fun _ => 100

theorem createAliasTable_exact_three :
    threeEntries.chance 0 = 3 / 4 ∧
      ∀ s < 3, ∀ p ∈ Set.Ico (0 : ℝ) 1, threeEntries.selectNextQueueEntry s p ≠ 1 := by
  have first : threeEntries.weightOf 0 = 3 := by decide +kernel
  have second : threeEntries.weightOf 1 = 0 := by decide +kernel
  have third : threeEntries.weightOf 2 = 1 := by decide +kernel
  have weighted : threeEntries.Weighted := by
    constructor
    · decide +kernel
    · change 0 < ∑ i ∈ Finset.range 3, threeEntries.weightOf i
      rw [Finset.sum_range_succ, Finset.sum_range_succ, Finset.sum_range_one,
        first, second, third]
      norm_num
    · decide +kernel
  obtain ⟨_, _, _, chances, zero⟩ := createAliasTable_exact threeEntries weighted
  refine ⟨?_, zero 1 (by decide) second⟩
  rw [chances 0 (by decide)]
  change _ / ∑ i ∈ Finset.range 3, (threeEntries.weightOf i : ℝ) = _
  rw [Finset.sum_range_succ, Finset.sum_range_succ, Finset.sum_range_one,
    first, second, third]
  norm_num

end WeightedQueue

end AFLPlusPlus
