import AFLPlusPlus.Ssa.Expansion

/-!
# Added code and its value

Rules to derive which value the phi node gets from the code that a pass adds.
A derivation follows the branches of the added blocks.  It is enough for the
refinement, as the added code sets new registers only.
-/

namespace Ssa

variable {Memory : Type}

/-- From an outcome the added blocks lead to the phi node at the label `last`,
which takes this value. -/
inductive Expansion.Yields (expansion : Expansion Memory) (last : Nat) :
    Outcome Memory → BitVec 1 → Prop
  | phi {prev : Nat} {env : Env} {memory : Memory} {operand : Operand 1}
      {value : BitVec 1}
      (incoming : expansion.incoming.lookup prev = some operand)
      (same : operand.eval env = value) :
      Expansion.Yields expansion last (.goto ⟨prev, last, env, memory⟩) value
  | fragment {state : State Memory} {position : Nat} {block : Block Memory}
      {outcome : Outcome Memory} {value : BitVec 1}
      (here : state.cur = last + 1 + position)
      (found : expansion.fragments[position]? = some block)
      (run : block.run state = some outcome)
      (rest : Expansion.Yields expansion last outcome value) :
      Expansion.Yields expansion last (.goto state) value

variable {bound : Nat} {outcome : Outcome Memory}

namespace Expansion

variable {expansion : Expansion Memory} {last prev cur : Nat} {env : Env}
  {memory : Memory} {value : BitVec 1}

theorem Yields.body (position : Nat) {insts : List (Inst Memory)}
    {term : Terminator}
    (found : expansion.fragments[position]? = some ⟨[], insts, term⟩)
    (rest : expansion.Yields last
      (term.outcome (last + 1 + position) (exec insts env memory).1
        (exec insts env memory).2) value) :
    expansion.Yields last (.goto ⟨prev, last + 1 + position, env, memory⟩)
      value :=
  .fragment rfl found rfl rest

theorem Yields.branch {condition : Operand 1} {test : Bool}
    (decides : condition.eval env = BitVec.ofBool test) {ifTrue ifFalse : Nat}
    (whenTrue : test = true →
      expansion.Yields last (.goto ⟨cur, ifTrue, env, memory⟩) value)
    (whenFalse : test = false →
      expansion.Yields last (.goto ⟨cur, ifFalse, env, memory⟩) value) :
    expansion.Yields last
      ((Terminator.condBr condition ifTrue ifFalse).outcome cur env memory)
      value := by
  simp only [Terminator.outcome, decides]
  cases test with
  | true => exact whenTrue rfl
  | false => exact whenFalse rfl

theorem Yields.unique {value' : BitVec 1} (first : expansion.Yields last outcome value)
    (second : expansion.Yields last outcome value') : value = value' := by
  induction first with
  | phi incoming same =>
      cases second with
      | phi incoming' same' =>
          obtain rfl := Option.some.inj (incoming.symm.trans incoming')
          exact same.symm.trans same'
      | fragment here' found' run' rest' =>
          dsimp only at here'
          omega
  | fragment here found run rest induction =>
      cases second with
      | phi incoming' same' =>
          dsimp only at here
          omega
      | fragment here' found' run' rest' =>
          have same := Nat.add_left_cancel (here.symm.trans here')
          rw [← same] at found'
          obtain rfl := Option.some.inj (found.symm.trans found')
          obtain rfl := Option.some.inj (run.symm.trans run')
          exact induction rest'

theorem Yields.yields_iff {value' : BitVec 1}
    (yields : expansion.Yields last outcome value) :
    expansion.Yields last outcome value' ↔ value = value' := by
  constructor
  · exact yields.unique
  · intro same
    exact same ▸ yields

end Expansion

variable {dest width : Nat} {rhs : Rhs Memory 1}

theorem lookup_of_ne {prev label : Nat} (other : prev ≠ label) (operand : Operand width)
    (rest : List (Nat × Operand width)) :
    ((label, operand) :: rest).lookup prev = rest.lookup prev := by
  simp only [List.lookup_cons, beq_false_of_ne other]

/-- A register from `bound` on does not matter to an operand below it. -/
theorem Operand.Below.eval_set {operand : Operand width} (below : operand.Below bound)
    (env : Env) {size : Nat} (value : BitVec size) (fresh : bound ≤ dest) :
    operand.eval (env.set size dest value) = operand.eval env :=
  (Operand.eval_agree below ((Agree.refl bound env).setFresh value fresh)).symm

/-- Instructions that set registers from `bound` on and do not use the
memory. -/
def Local (bound : Nat) (body : List (Inst Memory)) : Prop :=
  ∀ inst ∈ body, bound ≤ inst.dest ∧
    ∀ env memory, (inst.rhs.eval env memory).1 = memory

theorem exec_local {body : List (Inst Memory)} (isLocal : Local bound body) (env : Env)
    (memory : Memory) :
    Agree bound env (exec body env memory).1 ∧ (exec body env memory).2 = memory := by
  induction body generalizing env memory with
  | nil => exact ⟨.refl bound env, rfl⟩
  | cons inst rest induction =>
      obtain ⟨fresh, pure⟩ := isLocal inst List.mem_cons_self
      obtain ⟨agree, same⟩ := induction
        (fun other member => isLocal other (List.mem_cons_of_mem inst member))
        (env.set inst.width inst.dest (inst.rhs.eval env memory).2)
        (inst.rhs.eval env memory).1
      exact ⟨((Agree.refl bound env).setFresh _ fresh).trans agree,
        same.trans (pure env memory)⟩

theorem execPhis_local {prev : Nat} {old : Env} {phis : List Phi}
    (fresh : ∀ phi ∈ phis, bound ≤ phi.dest) {env out : Env}
    (run : execPhis prev old phis env = some out) : Agree bound env out := by
  induction phis generalizing env with
  | nil =>
      obtain rfl := Option.some.inj run
      exact .refl bound env
  | cons phi rest induction =>
      unfold execPhis at run
      split at run
      · cases run
      · exact ((Agree.refl bound env).setFresh _
          (fresh phi List.mem_cons_self)).trans (induction
            (fun other member => fresh other (List.mem_cons_of_mem phi member))
            run)

/-- The registers below `bound` and the memory of an outcome. -/
def Outcome.Holds (bound : Nat) (env : Env) (memory : Memory) : Outcome Memory → Prop
  | .goto state => Agree bound env state.env ∧ state.memory = memory
  | .done _ _ => True

theorem Terminator.outcome_holds {env env' : Env} {memory memory' : Memory}
    (agree : Agree bound env env') (same : memory' = memory) (term : Terminator)
    (cur : Nat) :
    (term.outcome cur env' memory').Holds bound env memory := by
  cases term with
  | br target => exact ⟨agree, same⟩
  | condBr condition ifTrue ifFalse => exact ⟨agree, same⟩
  | switch value cases default => exact ⟨agree, same⟩
  | ret result => trivial

/-- Code that can be added to the function: it fits, and each of its
instructions sets a new register of its own. -/
structure Expansion.Addable (expansion : Expansion Memory)
    (function : Function Memory) : Prop where
  fits : expansion.Fits function
  distinct : (expansion.insts.map Inst.dest).Nodup
  isLocal : Local function.nextReg expansion.insts
  phis : ∀ block ∈ expansion.fragments, ∀ phi ∈ block.phis, function.nextReg ≤ phi.dest

/-- The added code computes `rhs` at the end of block `label`. -/
structure Expansion.Replaces (expansion : Expansion Memory)
    (function : Function Memory) (label : Nat) (rhs : Rhs Memory 1) :
    Prop where
  addable : expansion.Addable function
  pure : ∀ env memory, (rhs.eval env memory).1 = memory
  yields : ∀ env memory, expansion.Yields function.nextLabel
    (expansion.entry.outcome label (exec expansion.front env memory).1
      (exec expansion.front env memory).2) (rhs.eval env memory).2

section Replace

variable {function : Function Memory} {loc : Location Memory}
  {expansion : Expansion Memory}

theorem Function.arrives_of_yields (away : loc.label < function.nextLabel)
    (addable : expansion.Addable function) {env : Env} {memory : Memory}
    {value : BitVec 1} (yields : expansion.Yields function.nextLabel outcome value)
    (holds : outcome.Holds function.nextReg env memory) :
    ∃ prev env' operand,
      (function.expand loc expansion).Arrives outcome
        ⟨prev, function.nextLabel, env', memory⟩ ∧
      expansion.incoming.lookup prev = some operand ∧
      operand.eval env' = value ∧ Agree function.nextReg env env' := by
  induction yields with
  | @phi prev env' memory' operand value incoming same =>
      obtain ⟨agree, rfl⟩ := holds
      exact ⟨prev, env', operand, .inl rfl, incoming, same, agree⟩
  | @fragment state position block outcome value here found run rest
      induction =>
      have member := List.mem_of_getElem? found
      have step : (function.expand loc expansion).step state = some outcome := by
        rw [Function.step, here, Function.expand_fragment _ away, found]
        exact run
      obtain ⟨phiEnv, phis, rfl⟩ := Block.run_eq_some.mp run
      have agreePhis := execPhis_local (addable.phis block member) phis
      obtain ⟨agreeBody, sameMemory⟩ := exec_local
        (fun inst inBody => addable.isLocal inst (List.mem_append_right _
          (List.mem_flatMap.mpr ⟨block, member, inBody⟩))) phiEnv state.memory
      obtain ⟨prev, env', operand, arrives, final⟩ := induction
        (Terminator.outcome_holds ((holds.1.trans agreePhis).trans agreeBody)
          (sameMemory.trans holds.2) _ _)
      refine ⟨prev, env', operand, .inr ⟨state, rfl, ?_⟩, final⟩
      rcases arrives with direct | ⟨after, through, reaches⟩
      · rw [direct] at step
        exact .last step
      · rw [through] at step
        exact .more step reaches

theorem Expansion.Replaces.computes (replaces : expansion.Replaces function loc.label rhs)
    (away : loc.label < function.nextLabel) :
    expansion.Computes function loc rhs := by
  intro env memory
  obtain ⟨agreeFront, sameMemory⟩ := exec_local
    (fun inst inFront => replaces.addable.isLocal inst
      (List.mem_append_left _ inFront)) env memory
  obtain ⟨prev, env', operand, arrives, incoming, same, agree⟩ :=
    Function.arrives_of_yields away replaces.addable
      (replaces.yields env memory)
      (Terminator.outcome_holds agreeFront sameMemory _ _)
  exact ⟨prev, env', operand, arrives, incoming,
    Prod.ext (replaces.pure env memory) same.symm, agree⟩

/-- What is known of a function after its instruction `dest` was replaced. -/
structure Function.Replaced (function : Function Memory) (dest : Nat)
    (next : Function Memory) : Prop where
  wellFormed : next.WellFormed
  refines : function.Refines next
  keeps : ∀ inst, function.Defines inst → inst.dest ≠ dest → next.Defines inst

theorem Function.WellFormed.replaced_expand (wellFormed : function.WellFormed)
    (isBlock : function.blocks loc.label = some loc.block)
    (isInst : loc.inst = ⟨1, dest, rhs⟩)
    (replaces : expansion.Replaces function loc.label rhs) :
    function.Replaced dest (function.expand loc expansion) where
  wellFormed := wellFormed.expand isBlock replaces.addable.fits
  refines := Function.refines_expand wellFormed isBlock isInst
    (replaces.computes (wellFormed.labels loc.label loc.block isBlock))
  keeps := by
    intro inst defines other
    apply defines.expand wellFormed isBlock replaces.addable.fits
    rw [isInst]
    exact other

end Replace

end Ssa
