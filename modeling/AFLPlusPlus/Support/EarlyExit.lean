import Mathlib.Tactic.Common

/-!
# Programs that leave early

A program with a state ends with a value or leaves early, as a function does
that returns as soon as one of its calls fails.  A triple has two conditions for
the state behind the program, one for each end.
-/

abbrev EarlyExit (State Value : Type) := OptionT (StateM State) Value

namespace EarlyExit

variable {State Value Result Local : Type}

/-- From a state with `before` a program ends with `after`, or it leaves early
with `left`. -/
def Triple (before : State → Prop) (program : EarlyExit State Value)
    (after : Value → State → Prop) (left : State → Prop) : Prop :=
  ∀ state, before state →
    match program.run state with
    | (some value, final) => after value final
    | (none, final) => left final

/-- A program keeps an invariant at both ends. -/
def Keeps (invariant : State → Prop) (program : EarlyExit State Value) : Prop :=
  Triple invariant program (fun _ => invariant) invariant

variable {before left : State → Prop} {after : Value → State → Prop}
  {program : EarlyExit State Value}

theorem run_bind (program : EarlyExit State Value)
    (rest : Value → EarlyExit State Result) (state : State) :
    (program >>= rest).run state =
      match program.run state with
      | (some value, next) => (rest value).run next
      | (none, next) => (none, next) := by
  rw [OptionT.run_bind, Option.elimM]
  change (match program.run state with
    | (value, next) =>
        (value.elim (Pure.pure none) fun value => (rest value).run :
          StateM State (Option Result)) next) = _
  match program.run state with
  | (some value, next) => rfl
  | (none, next) => rfl

variable {condition : Prop} {rest : Value → EarlyExit State Result}

namespace Triple

theorem pure (value : Value) (holds : ∀ state, before state → after value state) :
    Triple before (Pure.pure value) after left :=
  holds

theorem bind {middle : Value → State → Prop} {last : Result → State → Prop}
    (first : Triple before program middle left)
    (second : ∀ value, Triple (middle value) (rest value) last left) :
    Triple before (program >>= rest) last left := by
  intro state holds
  have reached := first state holds
  rw [run_bind]
  cases ended : program.run state with
  | mk value next =>
      rw [ended] at reached
      cases value with
      | none => exact reached
      | some value => exact second value next reached

theorem get : Triple before MonadState.get
    (fun value state => value = state ∧ before state) left :=
  fun _ holds => ⟨rfl, holds⟩

theorem modify {next : State → Prop} {change : State → State}
    (reaches : ∀ state, before state → next (change state)) :
    Triple before
      (modifyGet fun state => (PUnit.unit, change state) : EarlyExit State PUnit)
      (fun _ => next) left :=
  reaches

section

variable (triple : Triple before program after left)
include triple

theorem starting {stronger : State → Prop}
    (starts : ∀ state, stronger state → before state) :
    Triple stronger program after left :=
  fun state holds => triple state (starts state holds)

theorem ending {weaker : Value → State → Prop}
    (ends : ∀ value state, after value state → weaker value state) :
    Triple before program weaker left := by
  intro state holds
  have reached := triple state holds
  revert reached
  match program.run state with
  | (some value, final) => exact ends value final
  | (none, _) => exact id

theorem leaving {weaker : State → Prop} (leaves : ∀ state, left state → weaker state) :
    Triple before program after weaker := by
  intro state holds
  have reached := triple state holds
  revert reached
  match program.run state with
  | (some _, _) => exact id
  | (none, final) => exact leaves final

end

theorem given {fact : Prop}
    (triple : fact → Triple before program after left) :
    Triple (fun state => before state ∧ fact) program after left :=
  fun state holds => triple holds.2 state holds.1

theorem final {holds : State → Prop}
    (triple : Triple before program (fun _ => holds) holds) {state : State}
    (starts : before state) : holds (program.run state).2 := by
  have reached := triple state starts
  revert reached
  match program.run state with
  | (some _, _) => exact id
  | (none, _) => exact id

theorem ite [Decidable condition] {other : EarlyExit State Value}
    (positive : condition → Triple before program after left)
    (negative : ¬condition → Triple before other after left) :
    Triple before (if condition then program else other) after left := by
  split
  · rename_i holds
    exact positive holds
  · rename_i fails
    exact negative fails

end Triple

/-- A program that runs only under a condition. -/
def onlyIf (condition : Prop) [Decidable condition]
    (program : EarlyExit State Unit) : EarlyExit State Unit :=
  if condition then program else pure ()

theorem Triple.onlyIf [Decidable condition] {after : State → Prop}
    {program : EarlyExit State Unit} (skipped : ∀ state, before state → after state)
    (triple : condition → Triple before program (fun _ => after) left) :
    Triple before (EarlyExit.onlyIf condition program) (fun _ => after) left :=
  ite triple fun _ => pure () skipped

/-- From related states two programs end alike, in related states. -/
def Alike (related : State → State → Prop)
    (program other : EarlyExit State Value) : Prop :=
  ∀ state otherState, related state otherState →
    (program.run state).1 = (other.run otherState).1 ∧
      related (program.run state).2 (other.run otherState).2

namespace Alike

variable {related : State → State → Prop} {other : EarlyExit State Value}

theorem pure (value : Value) :
    Alike related (Pure.pure value : EarlyExit State Value)
      (Pure.pure value) :=
  fun _ _ same => ⟨rfl, same⟩

theorem bind {otherRest : Value → EarlyExit State Result}
    (first : Alike related program other)
    (second : ∀ value, Alike related (rest value) (otherRest value)) :
    Alike related (program >>= rest) (other >>= otherRest) := by
  intro state otherState same
  obtain ⟨ends, reached⟩ := first state otherState same
  rw [run_bind, run_bind]
  cases ended : program.run state with
  | mk value next =>
      cases otherEnded : other.run otherState with
      | mk otherValue otherNext =>
          rw [ended, otherEnded] at ends reached
          cases (show value = otherValue from ends)
          cases value with
          | none => exact ⟨rfl, reached⟩
          | some value => exact second value next otherNext reached

theorem look {rest otherRest : State → EarlyExit State Value}
    (second : ∀ state otherState, related state otherState →
      Alike related (rest state) (otherRest otherState)) :
    Alike related (MonadState.get >>= rest) (MonadState.get >>= otherRest) :=
  fun state otherState same =>
    second state otherState same state otherState same

end Alike

/-- The loop that counts from a number on, with variables of its own, and that
a round may break.  It ends with the number it has come to. -/
def forFrom (body : Nat → Local → EarlyExit State (ForInStep Local)) :
    Nat → Nat → Local → EarlyExit State Nat
  | i, 0, _ => pure i
  | i, count + 1, locals => do
      match ← body i locals with
      | .done _ => pure i
      | .yield next => forFrom body (i + 1) count next

/-- A loop whose body may be passed over runs for the numbers that fit. -/
theorem forFrom_onlyIf (condition : Nat → Prop)
    [DecidablePred condition] (program : Nat → EarlyExit State Unit)
    (i count : Nat) :
    (do
      let _ ← forFrom (fun i () => do
        onlyIf (condition i) (program i)
        pure (.yield ())) i count ()) =
      ((List.range' i count).filter fun i => condition i).forM program := by
  induction count generalizing i with
  | zero => simp [forFrom]
  | succ count induction =>
      rw [List.range'_succ, List.filter_cons]
      simp only [forFrom, bind_assoc, pure_bind]
      by_cases fits : condition i
      · rw [onlyIf, if_pos fits, if_pos (decide_eq_true fits), induction]
        rfl
      · rw [onlyIf, if_neg fits, if_neg (by simp [fits]), pure_bind, induction]

/-- What holds behind a round that goes on, and behind one that breaks. -/
def AfterRound (invariant stopped : State → Prop) : ForInStep Local → State → Prop
  | .done _ => stopped
  | .yield _ => invariant

theorem Triple.forFrom {invariant stopped : State → Prop}
    {body : Nat → Local → EarlyExit State (ForInStep Local)}
    (round : ∀ i locals, Triple invariant (body i locals)
      (AfterRound invariant stopped) left)
    (ends : ∀ state, invariant state → stopped state) (i count : Nat)
    (locals : Local) :
    Triple invariant (forFrom body i count locals) (fun _ => stopped) left := by
  induction count generalizing i locals with
  | zero => exact Triple.pure i ends
  | succ count induction =>
      apply Triple.bind (round i locals)
      intro next
      cases next with
      | done => exact Triple.pure i fun _ holds => holds
      | yield next => exact induction (i + 1) next

/-- What holds behind round `i`, where the invariant is one of the round and of
the variables. -/
def AfterRoundAt (invariant : Nat → Local → State → Prop)
    (stopped : Nat → State → Prop) (i : Nat) :
    ForInStep Local → State → Prop
  | .done _ => stopped i
  | .yield next => invariant (i + 1) next

/-- The loop ends with the round that it breaks in or with its last one. -/
theorem Triple.forFrom_upTo {invariant : Nat → Local → State → Prop}
    {stopped : Nat → State → Prop}
    {body : Nat → Local → EarlyExit State (ForInStep Local)} {bound : Nat}
    (round : ∀ i < bound, ∀ locals, Triple (invariant i locals) (body i locals)
      (AfterRoundAt invariant stopped i) left)
    (ends : ∀ locals state, invariant bound locals state →
      stopped bound state) (i count : Nat) (total : i + count = bound)
    (locals : Local) :
    Triple (invariant i locals) (EarlyExit.forFrom body i count locals)
      (fun last state => last ≤ bound ∧ stopped last state) left := by
  induction count generalizing i locals with
  | zero =>
      cases total
      exact Triple.pure i fun state holds =>
        ⟨Nat.le_refl i, ends locals state holds⟩
  | succ count induction =>
      have inside : i < bound := by omega
      apply Triple.bind (round i inside locals)
      intro next
      cases next with
      | done =>
          exact Triple.pure i fun _ holds => ⟨Nat.le_of_lt inside, holds⟩
      | yield next => exact induction (i + 1) (by omega) next

/-- A loop over the items of a list, with a variable of its own. -/
theorem Triple.foldlM {Item : Type}
    {invariant : List Item → Local → State → Prop}
    {body : Local → Item → EarlyExit State Local} {items : List Item}
    (round : ∀ done item rest, items = done ++ item :: rest → ∀ locals,
      Triple (invariant done locals) (body locals item)
        (invariant (done ++ [item])) left) (locals : Local) :
    Triple (invariant [] locals) (items.foldlM body locals)
      (invariant items) left := by
  have onward : ∀ rest done locals, items = done ++ rest →
      Triple (invariant done locals) (rest.foldlM body locals)
        (invariant items) left := by
    intro rest
    induction rest with
    | nil =>
        intro done locals all
        rw [List.append_nil] at all
        subst all
        exact Triple.pure locals fun _ holds => holds
    | cons item rest induction =>
        intro done locals all
        rw [List.foldlM_cons]
        apply (round done item rest all locals).bind
        intro next
        apply induction (done ++ [item]) next
        rw [all, List.append_assoc, List.singleton_append]
  exact onward items [] locals rfl

namespace Keeps

variable {invariant : State → Prop}

theorem run (keeps : Keeps invariant program) {state : State}
    (holds : invariant state) : invariant (program.run state).2 :=
  keeps.final holds

theorem pure (value : Value) :
    Keeps invariant (Pure.pure value : EarlyExit State Value) :=
  fun _ holds => holds

theorem bind (first : Keeps invariant program)
    (second : ∀ value, Keeps invariant (rest value)) :
    Keeps invariant (program >>= rest) :=
  Triple.bind first second

theorem get : Keeps invariant (MonadState.get : EarlyExit State State) :=
  fun _ holds => holds

theorem ite [Decidable condition] {other : EarlyExit State Value}
    (positive : condition → Keeps invariant program)
    (negative : ¬condition → Keeps invariant other) :
    Keeps invariant (if condition then program else other) :=
  Triple.ite positive negative

theorem onlyIf [Decidable condition] {program : EarlyExit State Unit}
    (keeps : condition → Keeps invariant program) :
    Keeps invariant (onlyIf condition program) :=
  ite keeps fun _ => pure ()

theorem forFrom {body : Nat → Local → EarlyExit State (ForInStep Local)}
    (round : ∀ i locals, Keeps invariant (body i locals)) (i count : Nat)
    (locals : Local) :
    Keeps invariant (forFrom body i count locals) := by
  apply Triple.forFrom _ fun _ holds => holds
  intro i locals
  apply (round i locals).ending
  intro next state holds
  cases next with
  | done => exact holds
  | yield => exact holds

end Keeps

end EarlyExit
