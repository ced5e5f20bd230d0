import Mathlib.Tactic.Common

/-!
# Runs of a transition system

A transition system is given by a step function on labelled moves that is
undefined where a move is not possible.  What every move preserves holds after
every run.
-/

section Transitions

variable {Move State : Type} (step : Move → State → Option State)

/-- The state after a sequence of moves, if all of them are possible. -/
def runMoves : List Move → State → Option State
  | [], state => some state
  | move :: moves, state =>
      match step move state with
      | none => none
      | some next => runMoves moves next

/-- Every move of a run meets a condition on the state before it. -/
def MovesMeet (meets : State → Move → Prop) : List Move → State → Prop
  | [], _ => True
  | move :: moves, state => meets state move ∧
      ∀ next, step move state = some next → MovesMeet meets moves next

variable {step}

theorem runMoves_of_step {move : Move} {state next : State}
    (stepped : step move state = some next) (moves : List Move) :
    runMoves step (move :: moves) state = runMoves step moves next := by
  rw [runMoves, stepped]

theorem runMoves_append (moves later : List Move) (state : State) :
    runMoves step (moves ++ later) state =
      (runMoves step moves state).bind (runMoves step later) := by
  induction moves generalizing state with
  | nil => rfl
  | cons move moves induction =>
      rw [List.cons_append, runMoves, runMoves]
      cases step move state with
      | none => rfl
      | some next => exact induction next

/-- A condition on the moves of a run that goes on after its first part. -/
theorem movesMeet_append {meets : State → Move → Prop}
    {moves later : List Move} {state : State} :
    MovesMeet step meets (moves ++ later) state ↔
      MovesMeet step meets moves state ∧
        ∀ reached, runMoves step moves state = some reached →
          MovesMeet step meets later reached := by
  induction moves generalizing state with
  | nil =>
      constructor
      · intro meet
        refine ⟨trivial, fun reached runs => ?_⟩
        obtain rfl := Option.some.inj runs
        exact meet
      · intro meet
        exact meet.2 state rfl
  | cons move moves induction =>
      simp only [List.cons_append, MovesMeet, runMoves]
      cases step move state with
      | none => simp
      | some next =>
          simp only [Option.some.injEq, forall_eq', induction, and_assoc]

theorem runMoves_invariant_of_meets {meets : State → Move → Prop}
    (invariant : State → Prop)
    (preserved : ∀ move state next, invariant state → meets state move →
      step move state = some next → invariant next)
    {moves : List Move} {state reached : State} (start : invariant state)
    (allMeet : MovesMeet step meets moves state)
    (runs : runMoves step moves state = some reached) : invariant reached := by
  induction moves generalizing state with
  | nil =>
      obtain rfl := Option.some.inj runs
      exact start
  | cons move moves induction =>
      obtain ⟨first, rest⟩ := allMeet
      unfold runMoves at runs
      split at runs
      · cases runs
      · rename_i next stepped
        exact induction (preserved move state next start first stepped)
          (rest next stepped) runs

section

variable {state : State} (invariant : State → Prop)
    (preserved : ∀ move state next, invariant state → step move state = some next → invariant next)
include invariant preserved

theorem movesMeet_of_invariant {meets : State → Move → Prop}
    (implies : ∀ move state, invariant state → meets state move) (start : invariant state)
    (moves : List Move) :
    MovesMeet step meets moves state := by
  induction moves generalizing state with
  | nil => trivial
  | cons move moves induction =>
      exact ⟨implies move state start, fun next stepped =>
        induction (preserved move state next start stepped)⟩

/-- An invariant may be used where a condition on the moves is weakened. -/
theorem MovesMeet.of_invariant {meets weaker : State → Move → Prop}
    (implies : ∀ move state, invariant state → meets state move →
      weaker state move) {moves : List Move} (start : invariant state)
    (allMeet : MovesMeet step meets moves state) :
    MovesMeet step weaker moves state := by
  induction moves generalizing state with
  | nil => trivial
  | cons move moves induction =>
      exact ⟨implies move state start allMeet.1, fun next stepped =>
        induction (preserved move state next start stepped)
          (allMeet.2 next stepped)⟩

theorem runMoves_invariant {moves : List Move} {reached : State} (start : invariant state)
    (runs : runMoves step moves state = some reached) : invariant reached :=
  have free : MovesMeet step (fun _ _ => True) moves state :=
    movesMeet_of_invariant invariant preserved (fun _ _ _ => trivial) start
      moves
  runMoves_invariant_of_meets invariant
    (fun move state next holds _ => preserved move state next holds) start
    free runs

end

end Transitions

section Histories

variable {Event : Type}

/-- An event of a history that was extended by one is the last one or one of
the old history. -/
theorem history_split {history seen later : List Event} {last event : Event}
    (split : history ++ [last] = seen ++ event :: later) :
    (history = seen ∧ last = event) ∨ ∃ rest, history = seen ++ event :: rest := by
  rcases List.eq_nil_or_concat later with none | ⟨rest, final, rfl⟩
  · subst none
    exact .inl (List.append_inj' split rfl |>.imp id (by simp))
  · refine .inr ⟨rest, ?_⟩
    rw [List.concat_eq_append, ← List.cons_append, ← List.append_assoc]
      at split
    exact (List.append_inj' split rfl).1

end Histories
