import AFLPlusPlus.Ssa.Function

/-!
# Refinement between functions

A function refines another one if it does what the other one does, block by
block, in more registers and perhaps in more blocks.  A block may end in
another one than before, so that the label from which control comes is
translated.
-/

namespace Ssa

variable {Memory : Type}

/-- Two states that agree on the registers below `bound`, where `tail` is the
label from which control now comes. -/
structure State.Related (bound : Nat) (tail : Nat → Nat)
    (first second : State Memory) : Prop where
  prev : second.prev = tail first.prev
  cur : second.cur = first.cur
  env : Agree bound first.env second.env
  memory : second.memory = first.memory

def Outcome.Related (bound : Nat) (tail : Nat → Nat) :
    Outcome Memory → Outcome Memory → Prop
  | .goto first, .goto second => first.Related bound tail second
  | .done memory result, .done memory' result' =>
      memory' = memory ∧ result' = result
  | _, _ => False

/-- Every block of the first function is matched by one or more blocks of the
second one. -/
def Function.Simulates (tail : Nat → Nat)
    (first second : Function Memory) : Prop :=
  ∀ (state state' : State Memory) (outcome : Outcome Memory),
    state.Related first.nextReg tail state' →
    first.step state = some outcome →
    ∃ outcome', second.Reaches state' outcome' ∧
      outcome.Related first.nextReg tail outcome'

/-- The second function does what the first one does.  Its results, its memory
and the registers of the first function are the same. -/
structure Function.Refines (first second : Function Memory) : Prop where
  regs : first.nextReg ≤ second.nextReg
  simulates : ∃ tail, first.Simulates tail second

def Phi.translate (tail : Nat → Nat) (phi : Phi) : Phi :=
  { phi with
    incoming := phi.incoming.map fun entry => (tail entry.1, entry.2) }

def Block.translate (tail : Nat → Nat) (block : Block Memory) : Block Memory :=
  { block with phis := block.phis.map (Phi.translate tail) }

theorem Block.translate_id (block : Block Memory) : block.translate id = block := by
  have phis : block.phis.map (Phi.translate id) = block.phis := by
    apply List.map_id'' fun phi => ?_
    exact congrArg (fun incoming => { phi with incoming })
      (List.map_id phi.incoming)
  rw [Block.translate, phis]

theorem lookup_translate {tail : Nat → Nat}
    (injective : Function.Injective tail) {width : Nat}
    (incoming : List (Nat × Operand width)) (prev : Nat) :
    (incoming.map fun entry => (tail entry.1, entry.2)).lookup (tail prev) =
      incoming.lookup prev := by
  induction incoming with
  | nil => rfl
  | cons entry rest induction =>
      rw [List.map_cons, List.lookup_cons, List.lookup_cons, induction]
      have same : (tail prev == tail entry.1) = (prev == entry.1) := by
        rw [Bool.eq_iff_iff, beq_iff_eq, beq_iff_eq]
        exact ⟨@injective prev entry.1, congrArg tail⟩
      rw [same]

section Translate

variable {tail : Nat → Nat} {bound : Nat}

theorem execPhis_translate (injective : Function.Injective tail)
    {phis : List Phi} (below : ∀ phi ∈ phis, phi.Below bound) {prev : Nat}
    {old old' : Env} (agreeOld : Agree bound old old') {env env' out : Env}
    (agree : Agree bound env env')
    (run : execPhis prev old phis env = some out) :
    ∃ out', execPhis (tail prev) old' (phis.map (Phi.translate tail)) env' =
        some out' ∧ Agree bound out out' := by
  induction phis generalizing env env' with
  | nil =>
      obtain rfl := Option.some.inj run
      exact ⟨env', rfl, agree⟩
  | cons phi rest induction =>
      have here := below phi List.mem_cons_self
      rw [List.map_cons]
      unfold execPhis at run ⊢
      simp only [Phi.translate, lookup_translate injective]
      split at run
      · cases run
      · rename_i operand found
        obtain ⟨_, _, split, _⟩ := List.lookup_eq_some_iff.mp found
        have member : (prev, operand) ∈ phi.incoming := by
          rw [split]
          exact List.mem_append_right _ List.mem_cons_self
        rw [← Operand.eval_agree (here.2 _ member) agreeOld]
        exact induction
          (fun other inRest => below other (List.mem_cons_of_mem phi inRest))
          (agree.set phi.width phi.dest _) run

theorem Terminator.outcome_related {term : Terminator}
    (below : term.Below bound) {env env' : Env} (agree : Agree bound env env')
    {cur cur' : Nat} (translated : cur' = tail cur) (memory : Memory) :
    (term.outcome cur env memory).Related bound tail
      (term.outcome cur' env' memory) := by
  cases term with
  | br target => exact ⟨translated, rfl, agree, rfl⟩
  | condBr condition ifTrue ifFalse =>
      refine ⟨translated, ?_, agree, rfl⟩
      simp only [Operand.eval_agree below agree]
  | switch value cases default =>
      refine ⟨translated, ?_, agree, rfl⟩
      simp only [Operand.eval_agree below agree]
  | ret result =>
      refine ⟨rfl, ?_⟩
      cases result with
      | none => rfl
      | some operand =>
          simp only [Option.map_some, Operand.eval_agree below agree]

/-- A block whose label is not translated runs as before. -/
theorem Block.run_translate (injective : Function.Injective tail)
    {block : Block Memory} (below : block.Below bound)
    {state state' : State Memory} (same : tail state.cur = state.cur)
    (related : state.Related bound tail state') {outcome : Outcome Memory}
    (run : block.run state = some outcome) :
    ∃ outcome', (block.translate tail).run state' = some outcome' ∧
      outcome.Related bound tail outcome' := by
  obtain ⟨env, phis, rfl⟩ := Block.run_eq_some.mp run
  obtain ⟨env', phis', agree⟩ := execPhis_translate injective below.phis
    related.env related.env phis
  obtain ⟨agree', memory⟩ := exec_agree below.body agree state.memory
  refine ⟨_, Block.run_eq_some.mpr ⟨env', ?_, rfl⟩, ?_⟩
  · rw [related.prev]
    exact phis'
  · rw [related.memory, related.cur]
    rw [memory]
    exact Terminator.outcome_related below.term agree' same.symm _

end Translate

namespace Function

variable {first second third : Function Memory}

theorem Simulates.reaches {tail : Nat → Nat}
    (simulates : first.Simulates tail second) {state : State Memory}
    {outcome : Outcome Memory} (run : first.Reaches state outcome)
    {state' : State Memory} (related : state.Related first.nextReg tail state') :
    ∃ outcome', second.Reaches state' outcome' ∧
      outcome.Related first.nextReg tail outcome' := by
  induction run generalizing state' with
  | last step => exact simulates _ _ _ related step
  | more step _ induction =>
      obtain ⟨outcome', here, next⟩ := simulates _ _ _ related step
      cases outcome' with
      | goto middle =>
          obtain ⟨final, rest, finalRelated⟩ := induction next
          exact ⟨final, here.trans rest, finalRelated⟩
      | done memory result => exact next.elim

theorem Refines.refl {function : Function Memory}
    (below : ∀ label block, function.blocks label = some block →
      block.Below function.nextReg) : function.Refines function where
  regs := Nat.le_refl _
  simulates := by
    refine ⟨id, ?_⟩
    intro state state' outcome related step
    unfold Function.step at step
    split at step
    · cases step
    · rename_i block found
      obtain ⟨outcome', run, final⟩ := block.run_translate
        Function.injective_id (below _ _ found) rfl related step
      refine ⟨outcome', .last ?_, final⟩
      rw [Block.translate_id] at run
      rw [Function.step, related.cur, found]
      exact run

theorem Refines.trans (firstStep : first.Refines second)
    (secondStep : second.Refines third) : first.Refines third where
  regs := Nat.le_trans firstStep.regs secondStep.regs
  simulates := by
    obtain ⟨tail, simulates⟩ := firstStep.simulates
    obtain ⟨tail', simulates'⟩ := secondStep.simulates
    refine ⟨tail' ∘ tail, ?_⟩
    intro state state'' outcome related step
    -- The state between: its registers are already those of the third one.
    let state' : State Memory :=
      ⟨tail state.prev, state.cur, state''.env, state.memory⟩
    have before : state.Related first.nextReg tail state' :=
      ⟨rfl, rfl, related.env, rfl⟩
    have after : state'.Related second.nextReg tail' state'' :=
      ⟨related.prev, related.cur, Agree.refl _ _, related.memory⟩
    obtain ⟨outcome', run, here⟩ := simulates _ _ _ before step
    obtain ⟨outcome'', run', there⟩ := simulates'.reaches run after
    refine ⟨outcome'', run', ?_⟩
    cases outcome with
    | goto next =>
        cases outcome' with
        | goto next' =>
            cases outcome'' with
            | goto next'' =>
                exact ⟨there.prev.trans (congrArg tail' here.prev),
                  there.cur.trans here.cur,
                  here.env.trans (there.env.mono firstStep.regs),
                  there.memory.trans here.memory⟩
            | done memory result => exact there.elim
        | done memory result => exact here.elim
    | done memory result =>
        cases outcome' with
        | goto next' => exact here.elim
        | done memory' result' =>
            cases outcome'' with
            | goto next'' => exact there.elim
            | done memory'' result'' =>
                exact ⟨there.1.trans here.1, there.2.trans here.2⟩

end Function

end Ssa
