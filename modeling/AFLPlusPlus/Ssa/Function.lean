import AFLPlusPlus.Support.FloatFormat

/-!
# Functions in static single assignment form

Blocks of instructions with phi nodes at their start and a branch at their
end.  The label of a block is a number.  A register is a number together with
the width of its value, so that an instruction never finds a value of another
width.
-/

namespace Ssa

/-- A value of `width` bits that an instruction uses. -/
inductive Operand (width : Nat)
  | reg (id : Nat)
  | const (value : BitVec width)

inductive IcmpPredicate
  | eq | ne | ugt | uge | ult | ule | sgt | sge | slt | sle
  deriving DecidableEq

def IcmpPredicate.holds {width : Nat} (predicate : IcmpPredicate)
    (first second : BitVec width) : Bool :=
  match predicate with
  | .eq => decide (first = second)
  | .ne => decide (first ≠ second)
  | .ugt => decide (second < first)
  | .uge => decide (second ≤ first)
  | .ult => decide (first < second)
  | .ule => decide (first ≤ second)
  | .sgt => second.slt first
  | .sge => second.sle first
  | .slt => first.slt second
  | .sle => first.sle second

/-- The predicates on numbers, ordered and unordered. -/
inductive FcmpPredicate
  | oeq | ogt | oge | olt | ole | one
  | ueq | ugt | uge | ult | ule | une
  deriving DecidableEq

/-- The unordered predicates hold when there is no comparison. -/
def FcmpPredicate.holds (predicate : FcmpPredicate)
    (comparison : Option Ordering) : Bool :=
  match predicate with
  | .oeq => decide (comparison = some .eq)
  | .ogt => decide (comparison = some .gt)
  | .oge => decide (comparison = some .gt ∨ comparison = some .eq)
  | .olt => decide (comparison = some .lt)
  | .ole => decide (comparison = some .lt ∨ comparison = some .eq)
  | .one => decide (comparison = some .lt ∨ comparison = some .gt)
  | .ueq => decide (comparison = none ∨ comparison = some .eq)
  | .ugt => decide (comparison = none ∨ comparison = some .gt)
  | .uge => decide (comparison ≠ some .lt)
  | .ult => decide (comparison = none ∨ comparison = some .lt)
  | .ule => decide (comparison ≠ some .gt)
  | .une => decide (comparison ≠ some .eq)

/-- What an instruction computes. `other` stands for every instruction that
needs no name here; it may use the memory. -/
inductive Rhs (Memory : Type) : Nat → Type
  | icmp (predicate : IcmpPredicate) {width : Nat}
      (first second : Operand width) : Rhs Memory 1
  | fcmp (format : FloatFormat) (predicate : FcmpPredicate)
      (first second : Operand format.size) : Rhs Memory 1
  | lshr {width : Nat} (value : Operand width) (amount : Nat) : Rhs Memory width
  | and {width : Nat} (first second : Operand width) : Rhs Memory width
  | xor {width : Nat} (first second : Operand width) : Rhs Memory width
  | trunc {width narrow : Nat} (value : Operand width) : Rhs Memory narrow
  | bitcast {width : Nat} (value : Operand width) : Rhs Memory width
  | other {width : Nat} (arguments : List (Σ size, Operand size))
      (run : Memory → List (Σ size, BitVec size) → Memory × BitVec width) :
      Rhs Memory width

structure Inst (Memory : Type) where
  width : Nat
  dest : Nat
  rhs : Rhs Memory width

/-- A phi node takes the value that belongs to the block before. -/
structure Phi where
  width : Nat
  dest : Nat
  incoming : List (Nat × Operand width)

inductive Terminator
  | br (target : Nat)
  | condBr (condition : Operand 1) (ifTrue ifFalse : Nat)
  | switch {width : Nat} (value : Operand width)
      (cases : List (BitVec width × Nat)) (default : Nat)
  | ret (result : Option (Σ size, Operand size))

structure Block (Memory : Type) where
  phis : List Phi
  body : List (Inst Memory)
  term : Terminator

/-- The blocks, and the first label and register that are not in use. -/
structure Function (Memory : Type) where
  blocks : Nat → Option (Block Memory)
  nextLabel : Nat
  nextReg : Nat

abbrev Env := (width : Nat) → Nat → BitVec width

def Env.set (env : Env) (width dest : Nat) (value : BitVec width) : Env :=
  fun size id =>
    if same : size = width ∧ id = dest then value.cast same.1.symm
    else env size id

/-- Control at the start of block `cur`, coming from block `prev`. -/
structure State (Memory : Type) where
  prev : Nat
  cur : Nat
  env : Env
  memory : Memory

inductive Outcome (Memory : Type)
  | goto (state : State Memory)
  | done (memory : Memory) (result : Option (Σ size, BitVec size))

variable {Memory : Type}

def Operand.eval {width : Nat} (env : Env) : Operand width → BitVec width
  | .reg id => env width id
  | .const value => value

variable {width : Nat}

@[simp] theorem Operand.eval_reg (env : Env) (id : Nat) :
    (Operand.reg id : Operand width).eval env = env width id := rfl

@[simp] theorem Operand.eval_const (env : Env) (value : BitVec width) :
    (Operand.const value).eval env = value := rfl

def Rhs.eval (env : Env) (memory : Memory) {width : Nat} :
    Rhs Memory width → Memory × BitVec width
  | .icmp predicate first second =>
      (memory, BitVec.ofBool (predicate.holds (first.eval env) (second.eval env)))
  | .fcmp format predicate first second =>
      (memory, BitVec.ofBool (predicate.holds
        ((format.value (first.eval env)).compare (format.value (second.eval env)))))
  | .lshr value amount => (memory, value.eval env >>> amount)
  | .and first second => (memory, first.eval env &&& second.eval env)
  | .xor first second => (memory, first.eval env ^^^ second.eval env)
  | .trunc value => (memory, (value.eval env).setWidth width)
  | .bitcast value => (memory, value.eval env)
  | .other arguments run =>
      run memory (arguments.map fun argument =>
        ⟨argument.1, argument.2.eval env⟩)

def exec : List (Inst Memory) → Env → Memory → Env × Memory
  | [], env, memory => (env, memory)
  | inst :: rest, env, memory =>
      let result := inst.rhs.eval env memory
      exec rest (env.set inst.width inst.dest result.2) result.1

/-- All phi nodes of a block read the registers `old` before any is set. There
is no result when one has no value for the block before. -/
def execPhis (prev : Nat) (old : Env) : List Phi → Env → Option Env
  | [], env => some env
  | phi :: rest, env =>
      match phi.incoming.lookup prev with
      | none => none
      | some operand =>
          execPhis prev old rest
            (env.set phi.width phi.dest (operand.eval old))

def Terminator.outcome (cur : Nat) (env : Env) (memory : Memory) :
    Terminator → Outcome Memory
  | .br target => .goto ⟨cur, target, env, memory⟩
  | .condBr condition ifTrue ifFalse =>
      .goto ⟨cur, if condition.eval env = 1#1 then ifTrue else ifFalse, env, memory⟩
  | .switch value cases default =>
      .goto ⟨cur, (cases.lookup (value.eval env)).getD default, env, memory⟩
  | .ret result =>
      .done memory (result.map fun operand =>
        ⟨operand.1, operand.2.eval env⟩)

/-- Run the block of a state to its end. -/
def Block.run (block : Block Memory) (state : State Memory) :
    Option (Outcome Memory) :=
  match execPhis state.prev state.env block.phis state.env with
  | none => none
  | some env =>
      let result := exec block.body env state.memory
      some (block.term.outcome state.cur result.1 result.2)

def Function.step (function : Function Memory) (state : State Memory) :
    Option (Outcome Memory) :=
  match function.blocks state.cur with
  | none => none
  | some block => block.run state

/-- Some blocks, at least one, run from a state to an outcome. -/
inductive Function.Reaches (function : Function Memory) :
    State Memory → Outcome Memory → Prop
  | last {state : State Memory} {outcome : Outcome Memory}
      (step : function.step state = some outcome) :
      Function.Reaches function state outcome
  | more {state next : State Memory} {outcome : Outcome Memory}
      (step : function.step state = some (.goto next))
      (rest : Function.Reaches function next outcome) :
      Function.Reaches function state outcome

theorem Function.Reaches.trans {function : Function Memory}
    {state middle : State Memory} {outcome : Outcome Memory}
    (first : function.Reaches state (.goto middle))
    (second : function.Reaches middle outcome) :
    function.Reaches state outcome := by
  generalize isGoto : Outcome.goto middle = reached at first
  induction first with
  | last step =>
      subst isGoto
      exact .more step second
  | more step _ induction => exact .more step (induction isGoto)

theorem Block.run_eq_some {block : Block Memory} {state : State Memory}
    {outcome : Outcome Memory} :
    block.run state = some outcome ↔
      ∃ env, execPhis state.prev state.env block.phis state.env = some env ∧
        block.term.outcome state.cur (exec block.body env state.memory).1
          (exec block.body env state.memory).2 = outcome := by
  unfold Block.run
  split
  · rename_i stuck
    simp only [stuck, reduceCtorEq, false_and, exists_false]
  · rename_i env ran
    simp only [ran, Option.some.injEq, exists_eq_left']

@[simp] theorem Env.set_same (env : Env) (width dest : Nat)
    (value : BitVec width) : env.set width dest value width dest = value := by
  simp [Env.set]

theorem Env.set_of_ne (env : Env) {dest size id : Nat} (value : BitVec width)
    (other : id ≠ dest) :
    env.set width dest value size id = env size id := by
  simp [Env.set, other]

/-- The registers below `bound` have the same values. -/
def Agree (bound : Nat) (first second : Env) : Prop :=
  ∀ size id, id < bound → first size id = second size id

namespace Agree

variable {bound : Nat} {first second third : Env}

theorem refl (bound : Nat) (env : Env) : Agree bound env env := fun _ _ _ => rfl

section

variable (agree : Agree bound first second)
include agree

theorem trans (agree' : Agree bound second third) : Agree bound first third :=
  fun size id below => (agree size id below).trans (agree' size id below)

theorem mono {smaller : Nat} (less : smaller ≤ bound) : Agree smaller first second :=
  fun size id below => agree size id (by omega)

theorem set (width dest : Nat) (value : BitVec width) :
    Agree bound (first.set width dest value)
      (second.set width dest value) := by
  intro size id below
  unfold Env.set
  split
  · rfl
  · exact agree size id below

theorem setFresh {dest : Nat} (value : BitVec width) (fresh : bound ≤ dest) :
    Agree bound first (second.set width dest value) := by
  intro size id below
  rw [Env.set_of_ne _ _ (by omega : id ≠ dest)]
  exact agree size id below

end

end Agree

def Operand.Below (bound : Nat) {width : Nat} : Operand width → Prop
  | .reg id => id < bound
  | .const _ => True

@[simp] theorem Operand.below_reg {bound id : Nat} :
    (Operand.reg id : Operand width).Below bound ↔ id < bound := Iff.rfl

@[simp] theorem Operand.below_const {bound : Nat} {value : BitVec width} :
    (Operand.const value).Below bound := trivial

def Rhs.Below (bound : Nat) {width : Nat} : Rhs Memory width → Prop
  | .icmp _ first second => first.Below bound ∧ second.Below bound
  | .fcmp _ _ first second => first.Below bound ∧ second.Below bound
  | .lshr value _ => value.Below bound
  | .and first second => first.Below bound ∧ second.Below bound
  | .xor first second => first.Below bound ∧ second.Below bound
  | .trunc value => value.Below bound
  | .bitcast value => value.Below bound
  | .other arguments _ =>
      ∀ argument ∈ arguments, argument.2.Below bound

def Inst.Below (bound : Nat) (inst : Inst Memory) : Prop :=
  inst.dest < bound ∧ inst.rhs.Below bound

def Phi.Below (bound : Nat) (phi : Phi) : Prop :=
  phi.dest < bound ∧ ∀ entry ∈ phi.incoming, entry.2.Below bound

def Terminator.Below (bound : Nat) : Terminator → Prop
  | .br _ => True
  | .condBr condition _ _ => condition.Below bound
  | .switch value _ _ => value.Below bound
  | .ret none => True
  | .ret (some operand) => operand.2.Below bound

structure Block.Below (bound : Nat) (block : Block Memory) : Prop where
  phis : ∀ phi ∈ block.phis, phi.Below bound
  body : ∀ inst ∈ block.body, inst.Below bound
  term : block.term.Below bound

theorem Operand.eval_agree {bound : Nat} {operand : Operand width}
    (below : operand.Below bound) {first second : Env}
    (agree : Agree bound first second) :
    operand.eval first = operand.eval second := by
  cases operand with
  | reg id => exact agree width id below
  | const value => rfl

theorem Rhs.eval_agree {bound : Nat} {rhs : Rhs Memory width} (below : rhs.Below bound)
    {first second : Env} (agree : Agree bound first second) (memory : Memory) :
    rhs.eval first memory = rhs.eval second memory := by
  cases rhs with
  | icmp predicate left right =>
      simp only [Rhs.eval, Operand.eval_agree below.1 agree,
        Operand.eval_agree below.2 agree]
  | fcmp format predicate left right =>
      simp only [Rhs.eval, Operand.eval_agree below.1 agree,
        Operand.eval_agree below.2 agree]
  | lshr value amount => simp only [Rhs.eval, Operand.eval_agree below agree]
  | and left right =>
      simp only [Rhs.eval, Operand.eval_agree below.1 agree,
        Operand.eval_agree below.2 agree]
  | xor left right =>
      simp only [Rhs.eval, Operand.eval_agree below.1 agree,
        Operand.eval_agree below.2 agree]
  | trunc value => simp only [Rhs.eval, Operand.eval_agree below agree]
  | bitcast value => simp only [Rhs.eval, Operand.eval_agree below agree]
  | other arguments run =>
      simp only [Rhs.eval]
      congr 1
      apply List.map_congr_left
      intro argument member
      rw [Operand.eval_agree (below argument member) agree]

theorem exec_agree {bound : Nat} {body : List (Inst Memory)}
    (below : ∀ inst ∈ body, inst.Below bound) {first second : Env}
    (agree : Agree bound first second) (memory : Memory) :
    Agree bound (exec body first memory).1 (exec body second memory).1 ∧
      (exec body first memory).2 = (exec body second memory).2 := by
  induction body generalizing first second memory with
  | nil => exact ⟨agree, rfl⟩
  | cons inst rest induction =>
      have here := below inst List.mem_cons_self
      simp only [exec, Rhs.eval_agree here.2 agree memory]
      apply induction (fun other member =>
        below other (List.mem_cons_of_mem inst member))
      exact agree.set inst.width inst.dest _

theorem exec_append (first second : List (Inst Memory)) (env : Env)
    (memory : Memory) :
    exec (first ++ second) env memory =
      exec second (exec first env memory).1 (exec first env memory).2 := by
  induction first generalizing env memory with
  | nil => rfl
  | cons inst rest induction => exact induction _ _

end Ssa
