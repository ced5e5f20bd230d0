import AFLPlusPlus.Support.EarlyExit

/-!
# Programs that consult an oracle

What a program does depends on the answers of an oracle, one for every instant
of a clock that is a part of the state.  A program may come to what it comes to
with some answers from the beginning of its run to the end.  Those of two
programs that run one after the other can be chosen one after the other.
-/

namespace EarlyExit

variable {Answer State Value Result Local : Type}

/-- With some answers the program ends with a value and a state for which
`reached` holds. -/
def May (clock : State → Nat)
    (program : (Nat → Answer) → EarlyExit State Value) (state : State)
    (reached : Value → State → Prop) : Prop :=
  ∃ (oracle : Nat → Answer) (value : Value) (final : State),
    clock state ≤ clock final ∧ reached value final ∧
      ∀ other, (∀ time, clock state ≤ time → time < clock final →
          other time = oracle time) →
        (program other).run state = (some value, final)

namespace May

variable {clock : State → Nat} {state : State}
  {program : (Nat → Answer) → EarlyExit State Value}
  {reached : Value → State → Prop}

section

variable (may : May clock program state reached)
include may

theorem run :
    ∃ oracle value final, reached value final ∧
      (program oracle).run state = (some value, final) := by
  obtain ⟨oracle, value, final, _, reaches, runs⟩ := may
  exact ⟨oracle, value, final, reaches, runs oracle fun _ _ _ => rfl⟩

theorem ending {weaker : Value → State → Prop}
    (ends : ∀ value final, reached value final → weaker value final) :
    May clock program state weaker := by
  obtain ⟨oracle, value, final, later, reaches, runs⟩ := may
  exact ⟨oracle, value, final, later, ends value final reaches, runs⟩

/-- What holds with any answers holds with these. -/
theorem triple {before left : State → Prop} {after : Value → State → Prop}
    (triple : ∀ oracle, Triple before (program oracle) after left)
    (holds : before state) :
    May clock program state
      fun value final => reached value final ∧ after value final := by
  obtain ⟨oracle, value, final, later, reaches, runs⟩ := may
  have ended := triple oracle state holds
  rw [runs oracle fun _ _ _ => rfl] at ended
  exact ⟨oracle, value, final, later, ⟨reaches, ended⟩, runs⟩

end

theorem bind {first : (Nat → Answer) → EarlyExit State Value}
    {rest : (Nat → Answer) → Value → EarlyExit State Result}
    {last : Result → State → Prop}
    (may : May clock first state fun value next =>
      May clock (fun oracle => rest oracle value) next last) :
    May clock (fun oracle => first oracle >>= rest oracle) state last := by
  obtain ⟨front, value, next, later, second, runs⟩ := may
  obtain ⟨back, result, final, latest, reaches, ends⟩ := second
  refine ⟨fun time => if time < clock next then front time else back time,
    result, final, Nat.le_trans later latest, reaches, ?_⟩
  intro other same
  have goesOn := runs other fun time since before =>
    (same time since (Nat.lt_of_lt_of_le before latest)).trans (if_pos before)
  rw [run_bind, goesOn]
  apply ends
  intro time since before
  exact (same time (Nat.le_trans later since) before).trans
    (if_neg (Nat.not_lt.mpr since))

variable {other : (Nat → Answer) → EarlyExit State Value} {condition : Prop}

/-- A condition that does not depend on the answers. -/
theorem ite_same {condition : (Nat → Answer) → Prop}
    [∀ oracle, Decidable (condition oracle)]
    (same : ∀ oracle later, condition oracle ↔ condition later)
    (positive : (∀ oracle, condition oracle) → May clock program state reached)
    (negative : (∀ oracle, ¬condition oracle) → May clock other state reached) :
    May clock
      (fun oracle =>
        if condition oracle then program oracle else other oracle)
      state reached := by
  by_cases holds : ∀ oracle, condition oracle
  · simp only [if_pos (holds _)]
    exact positive holds
  · obtain ⟨oracle, fails⟩ := not_forall.mp holds
    have fails : ∀ later, ¬condition later :=
      fun later holds => fails ((same oracle later).mpr holds)
    simp only [if_neg (fails _)]
    exact negative fails

section Silent

variable [Inhabited Answer]

theorem pure (value : Value) (reaches : reached value state) :
    May clock (fun _ : Nat → Answer => Pure.pure value) state reached :=
  ⟨default, value, state, Nat.le_refl _, reaches, fun _ _ => rfl⟩

theorem get {reached : State → State → Prop} (reaches : reached state state) :
    May clock (fun _ : Nat → Answer => MonadState.get) state reached :=
  ⟨default, state, state, Nat.le_refl _, reaches, fun _ _ => rfl⟩

theorem modify {reached : PUnit → State → Prop} {change : State → State}
    (sameTime : clock (change state) = clock state)
    (reaches : reached ⟨⟩ (change state)) :
    May clock (fun _ : Nat → Answer =>
      modifyGet fun state => (PUnit.unit, change state)) state reached :=
  ⟨default, ⟨⟩, change state, Nat.le_of_eq sameTime.symm, reaches, fun _ _ => rfl⟩

theorem ite [Decidable condition] (positive : condition → May clock program state reached)
    (negative : ¬condition → May clock other state reached) :
    May clock
      (fun oracle => if condition then program oracle else other oracle) state
      reached :=
  ite_same (fun _ _ => Iff.rfl) (fun holds => positive (holds default))
    fun fails => negative (fails default)

theorem onlyIf [Decidable condition] {program : (Nat → Answer) → EarlyExit State Unit}
    {reached : State → Prop} (skipped : ¬condition → reached state)
    (may : condition → May clock program state fun _ => reached) :
    May clock (fun oracle => EarlyExit.onlyIf condition (program oracle)) state
      fun _ => reached :=
  ite may fun fails => pure () (skipped fails)

variable {body : (Nat → Answer) → Nat → Local → EarlyExit State (ForInStep Local)}

/-- A loop may end with what every round may keep. -/
theorem forFrom {invariant : State → Prop}
    (round : ∀ i locals state, invariant state →
      May clock (fun oracle => body oracle i locals) state
        fun _ => invariant) (i count : Nat) (locals : Local) (state : State)
    (holds : invariant state) :
    May clock (fun oracle => EarlyExit.forFrom (body oracle) i count locals)
      state fun _ => invariant := by
  induction count generalizing i locals state with
  | zero => exact pure i holds
  | succ count induction =>
      apply bind
      apply (round i locals state holds).ending
      intro step next kept
      cases step with
      | done => exact pure i kept
      | yield locals => exact induction (i + 1) locals next kept

/-- A loop may end with what its round `last` may break with, if the rounds
before may go on. -/
theorem forFrom_done {invariant : Nat → Local → State → Prop} {last : Nat}
    {stopped : State → Prop}
    (round : ∀ i < last, ∀ locals state, invariant i locals state →
      May clock (fun oracle => body oracle i locals) state fun step next =>
        ∃ locals, step = .yield locals ∧ invariant (i + 1) locals next)
    (breaks : ∀ locals state, invariant last locals state →
      May clock (fun oracle => body oracle last locals) state fun step next =>
        (∃ locals, step = .done locals) ∧ stopped next)
    (count i : Nat) (since : i ≤ last) (before : last < i + count)
    (locals : Local) (state : State) (holds : invariant i locals state) :
    May clock (fun oracle => EarlyExit.forFrom (body oracle) i count locals)
      state fun ended next => ended = last ∧ stopped next := by
  induction count generalizing i locals state with
  | zero => omega
  | succ count induction =>
      apply bind
      rcases Nat.lt_or_eq_of_le since with below | rfl
      · apply (round i below locals state holds).ending
        rintro _ next ⟨locals, rfl, kept⟩
        exact induction (i + 1) below (by omega) locals next kept
      · apply (breaks locals state holds).ending
        rintro _ next ⟨⟨_, rfl⟩, stops⟩
        exact pure i ⟨rfl, stops⟩

end Silent

end May

end EarlyExit
