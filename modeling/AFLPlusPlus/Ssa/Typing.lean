import AFLPlusPlus.Ssa.AddedCode

/-!
# Widths of registers

A register has one width, that of the value its definition gives it.  A function
is well typed if every use of a register is one at its width.  Replacing an
instruction by well-typed code keeps a function well typed.
-/

namespace Ssa

variable {Memory : Type}

/-- The operands with their widths.  The amount of a shift is a constant of the
width of the shifted value. -/
def Rhs.operands {width : Nat} : Rhs Memory width → List (Σ size, Operand size)
  | .icmp _ first second => [⟨_, first⟩, ⟨_, second⟩]
  | .fcmp _ _ first second => [⟨_, first⟩, ⟨_, second⟩]
  | .lshr value amount => [⟨_, value⟩, ⟨width, .const (BitVec.ofNat _ amount)⟩]
  | .and first second => [⟨_, first⟩, ⟨_, second⟩]
  | .xor first second => [⟨_, first⟩, ⟨_, second⟩]
  | .trunc value => [⟨_, value⟩]
  | .bitcast value => [⟨_, value⟩]
  | .other arguments _ => arguments

def Terminator.operands : Terminator → List (Σ size, Operand size)
  | .br _ => []
  | .condBr condition _ _ => [⟨1, condition⟩]
  | .switch value _ _ => [⟨_, value⟩]
  | .ret result => result.toList

/-- The width of the value an operand stands for. -/
def Operand.widthIn (widths : Nat → Nat) {width : Nat} : Operand width → Nat
  | .reg id => widths id
  | .const _ => width

/-- An operand is used at the width of its value. -/
def Operand.Typed (widths : Nat → Nat) {width : Nat}
    (operand : Operand width) : Prop :=
  operand.widthIn widths = width

variable {inst : Inst Memory} {width : Nat}

variable {block : Block Memory} {id : Nat} {operand : Operand width} {phi : Phi}
    {term : Terminator}

@[simp] theorem Operand.typed_reg {widths : Nat → Nat} :
    (Operand.reg id : Operand width).Typed widths ↔ widths id = width := Iff.rfl

@[simp] theorem Operand.typed_const {widths : Nat → Nat} {value : BitVec width} :
    (Operand.const value).Typed widths := rfl

structure Inst.Typed (widths : Nat → Nat) (inst : Inst Memory) : Prop where
  dest : widths inst.dest = inst.width
  operands : ∀ operand ∈ inst.rhs.operands, operand.2.Typed widths

structure Phi.Typed (widths : Nat → Nat) (phi : Phi) : Prop where
  dest : widths phi.dest = phi.width
  incoming : ∀ entry ∈ phi.incoming, entry.2.Typed widths

def Terminator.Typed (widths : Nat → Nat) (term : Terminator) : Prop :=
  ∀ operand ∈ term.operands, operand.2.Typed widths

structure Block.Typed (widths : Nat → Nat) (block : Block Memory) : Prop where
  phis : ∀ phi ∈ block.phis, phi.Typed widths
  body : ∀ inst ∈ block.body, inst.Typed widths
  term : block.term.Typed widths

def Function.Typed (widths : Nat → Nat) (function : Function Memory) : Prop :=
  ∀ label block, function.blocks label = some block → block.Typed widths

theorem Rhs.Below.operands {bound : Nat} {rhs : Rhs Memory width}
    (below : rhs.Below bound) :
    ∀ operand ∈ rhs.operands, operand.2.Below bound := by
  cases rhs with
  | icmp predicate first second => simpa [Rhs.operands, Rhs.Below] using below
  | fcmp format predicate first second => simpa [Rhs.operands, Rhs.Below] using below
  | lshr value amount => simpa [Rhs.operands, Rhs.Below] using below
  | and first second => simpa [Rhs.operands, Rhs.Below] using below
  | xor first second => simpa [Rhs.operands, Rhs.Below] using below
  | trunc value => simpa [Rhs.operands, Rhs.Below] using below
  | bitcast value => simpa [Rhs.operands, Rhs.Below] using below
  | other arguments run => exact below

theorem Terminator.Below.operands {bound : Nat} (below : term.Below bound) :
    ∀ operand ∈ term.operands, operand.2.Below bound := by
  cases term with
  | br target => simp [Terminator.operands]
  | condBr condition ifTrue ifFalse =>
      simpa [Terminator.operands, Terminator.Below] using below
  | switch value cases default => simpa [Terminator.operands, Terminator.Below] using below
  | ret result =>
      cases result with
      | none => simp [Terminator.operands]
      | some operand => simpa [Terminator.operands, Terminator.Below] using below

section Congr

variable {bound : Nat} {widths widths' : Nat → Nat}
  (same : ∀ id < bound, widths' id = widths id)
include same

theorem Operand.widthIn_congr (below : operand.Below bound) :
    operand.widthIn widths' = operand.widthIn widths := by
  cases operand with
  | reg id => exact same id below
  | const value => rfl

theorem Operand.Typed.congr (below : operand.Below bound) (typed : operand.Typed widths) :
    operand.Typed widths' :=
  (Operand.widthIn_congr same below).trans typed

theorem Inst.Typed.congr (below : inst.Below bound) (typed : inst.Typed widths) :
    inst.Typed widths' where
  dest := (same _ below.1).trans typed.dest
  operands := fun operand member =>
    (typed.operands operand member).congr same (below.2.operands operand member)

theorem Phi.Typed.congr (below : phi.Below bound) (typed : phi.Typed widths) :
    phi.Typed widths' where
  dest := (same _ below.1).trans typed.dest
  incoming := fun entry member =>
    (typed.incoming entry member).congr same (below.2 entry member)

theorem Terminator.Typed.congr (below : term.Below bound) (typed : term.Typed widths) :
    term.Typed widths' :=
  fun operand member =>
    (typed operand member).congr same (below.operands operand member)

theorem Block.Typed.congr (below : block.Below bound) (typed : block.Typed widths) :
    block.Typed widths' where
  phis := fun phi member =>
    (typed.phis phi member).congr same (below.phis phi member)
  body := fun inst member =>
    (typed.body inst member).congr same (below.body inst member)
  term := typed.term.congr same below.term

end Congr

theorem Phi.Typed.translate {widths : Nat → Nat} (typed : phi.Typed widths)
    (labels : Nat → Nat) :
    (phi.translate labels).Typed widths := by
  refine ⟨typed.dest, fun entry member => ?_⟩
  obtain ⟨old, isOld, rfl⟩ := List.mem_map.mp member
  exact typed.incoming old isOld

theorem Block.Typed.translate {widths : Nat → Nat} (typed : block.Typed widths)
    (labels : Nat → Nat) :
    (block.translate labels).Typed widths := by
  refine ⟨fun phi member => ?_, typed.body, typed.term⟩
  obtain ⟨old, isOld, rfl⟩ := List.mem_map.mp member
  exact (typed.phis old isOld).translate labels

/-- The added code is well typed. -/
structure Expansion.Typed (widths : Nat → Nat)
    (expansion : Expansion Memory) : Prop where
  insts : ∀ inst ∈ expansion.insts, inst.Typed widths
  entry : expansion.entry.Typed widths
  phis : ∀ block ∈ expansion.fragments, ∀ phi ∈ block.phis, phi.Typed widths
  terms : ∀ block ∈ expansion.fragments, block.term.Typed widths
  incoming : ∀ entry ∈ expansion.incoming, entry.2.Typed widths

/-- The new registers get the widths of the instructions that set them. -/
def Expansion.widths (expansion : Expansion Memory) (widths : Nat → Nat) : Nat → Nat :=
  fun id =>
    ((expansion.insts.find? fun inst => inst.dest = id).map Inst.width).getD
      (widths id)

section Expand

variable {function : Function Memory} {expansion : Expansion Memory}
  {loc : Location Memory} {widths : Nat → Nat}

theorem Expansion.widths_old (addable : expansion.Addable function)
    (below : id < function.nextReg) : expansion.widths widths id = widths id := by
  have missing : expansion.insts.find? (fun inst => inst.dest = id) = none := by
    refine List.find?_eq_none.mpr fun inst member => ?_
    have fresh := addable.fits.fresh inst member
    simp only [decide_eq_true_eq]
    omega
  rw [Expansion.widths, missing]
  rfl

theorem Expansion.widths_new (addable : expansion.Addable function)
    (member : inst ∈ expansion.insts) :
    expansion.widths widths inst.dest = inst.width := by
  have found : ∃ other,
      expansion.insts.find? (fun other => other.dest = inst.dest) = some other := by
    refine Option.isSome_iff_exists.mp (List.find?_isSome.mpr ?_)
    exact ⟨inst, member, decide_eq_true rfl⟩
  obtain ⟨other, found⟩ := found
  have same := List.find?_some found
  rw [decide_eq_true_eq] at same
  have isInst : other = inst := List.inj_on_of_nodup_map addable.distinct
    (List.mem_of_find?_eq_some found) member same
  rw [Expansion.widths, found, isInst]
  rfl

/-- Every block of the new function is one of the old function, a half of the
block that was split, or an added one. -/
theorem Function.Typed.expand (typed : function.Typed widths)
    (wellFormed : function.WellFormed)
    (isBlock : function.blocks loc.label = some loc.block)
    (bit : loc.inst.width = 1) (addable : expansion.Addable function)
    (added : expansion.Typed (expansion.widths widths)) :
    (function.expand loc expansion).Typed (expansion.widths widths) := by
  have same : ∀ id < function.nextReg, expansion.widths widths id = widths id :=
    fun id below => Expansion.widths_old addable below
  have old : ∀ label block, function.blocks label = some block →
      block.Typed (expansion.widths widths) := fun label block found =>
    (typed label block found).congr same (wellFormed.below label block found)
  have here := old loc.label loc.block isBlock
  intro label block found
  rcases Function.expand_blocks found with
    ⟨_, rfl⟩ | ⟨_, rfl⟩ | ⟨member, _⟩ | ⟨_, before, isOld, rfl⟩
  · refine ⟨fun phi inPhis => ?_, fun inst inBody => ?_, added.entry⟩
    · obtain ⟨before, isBefore, rfl⟩ := List.mem_map.mp inPhis
      exact (here.phis before isBefore).translate _
    · rcases List.mem_append.mp inBody with inBefore | inFront
      · exact here.body inst (List.mem_append_left _ inBefore)
      · exact added.insts inst (List.mem_append_left _ inFront)
  · refine ⟨fun phi inPhis => ?_, fun inst inBody => ?_, here.term⟩
    · rw [List.mem_singleton.mp inPhis]
      refine ⟨?_, added.incoming⟩
      exact (here.body loc.inst
        (List.mem_append_right _ List.mem_cons_self)).dest.trans bit
    · exact here.body inst (List.mem_append_right _ (List.mem_cons_of_mem _ inBody))
  · refine ⟨added.phis block member, fun inst inBody => ?_, added.terms block member⟩
    exact added.insts inst (List.mem_append_right _
      (List.mem_flatMap.mpr ⟨block, member, inBody⟩))
  · exact (old label before isOld).translate _

end Expand

/-- An instruction on values of one width, and none of width 0. -/
structure Inst.Uniform (widths : Nat → Nat) (inst : Inst Memory) : Prop where
  width : inst.width ≠ 0
  positive : ∀ operand ∈ inst.rhs.operands, operand.2.widthIn widths ≠ 0
  same : ∀ operand ∈ inst.rhs.operands, ∀ other ∈ inst.rhs.operands,
    operand.2.widthIn widths = other.2.widthIn widths

/-- The widths at which an instruction is written are one width, not 0. -/
def Inst.OneSize (inst : Inst Memory) : Prop :=
  inst.width ≠ 0 ∧ ∀ operand ∈ inst.rhs.operands, operand.1 ≠ 0 ∧
    ∀ other ∈ inst.rhs.operands, operand.1 = other.1

theorem Inst.Typed.uniform {widths : Nat → Nat} (typed : inst.Typed widths)
    (sizes : inst.OneSize) :
    inst.Uniform widths := by
  refine ⟨sizes.1, fun operand member => ?_, fun operand member other member' => ?_⟩
  · rw [typed.operands operand member]
    exact (sizes.2 operand member).1
  · rw [typed.operands operand member, typed.operands other member']
    exact (sizes.2 operand member).2 other member'

def Function.HasPhi (function : Function Memory) (dest : Nat) : Prop :=
  ∃ label block, function.blocks label = some block ∧
    ∃ phi ∈ block.phis, phi.dest = dest

/-- The function `later` is well typed, with the widths that the old registers
have in `function`, and all that was added is on values of one width, which is
not 0. -/
structure Function.WellMade (function : Function Memory) (widths : Nat → Nat)
    (later : Function Memory) (newWidths : Nat → Nat) : Prop where
  old : ∀ id < function.nextReg, newWidths id = widths id
  typed : later.Typed newWidths
  insts : ∀ label block, later.blocks label = some block →
    ∀ inst ∈ block.body, function.nextReg ≤ inst.dest → inst.Uniform newWidths
  phis : ∀ label block, later.blocks label = some block →
    ∀ phi ∈ block.phis, ¬function.HasPhi phi.dest → phi.width ≠ 0 ∧
      ∀ entry ∈ phi.incoming, entry.2.widthIn newWidths = phi.width

section WellMade

variable {function later : Function Memory} {expansion : Expansion Memory}
  {loc : Location Memory} {widths newWidths : Nat → Nat}

theorem Inst.Uniform.congr {bound : Nat} (same : ∀ id < bound, newWidths id = widths id)
    (below : inst.Below bound) (uniform : inst.Uniform widths) :
    inst.Uniform newWidths := by
  have equal : ∀ operand ∈ inst.rhs.operands,
      operand.2.widthIn newWidths = operand.2.widthIn widths :=
    fun operand member =>
      Operand.widthIn_congr same (below.2.operands operand member)
  refine ⟨uniform.width, fun operand member => ?_,
    fun operand member other member' => ?_⟩
  · rw [equal operand member]
    exact uniform.positive operand member
  · rw [equal operand member, equal other member']
    exact uniform.same operand member other member'

theorem Function.WellMade.refl (typed : function.Typed widths)
    (wellFormed : function.WellFormed) :
    function.WellMade widths function widths := by
  refine ⟨fun _ _ => rfl, typed, ?_, ?_⟩
  · intro label block found inst member fresh
    have below := ((wellFormed.below label block found).body inst member).1
    omega
  · intro label block found phi member missing
    exact absurd ⟨label, block, found, phi, member, rfl⟩ missing

/-- Code without phi nodes of its own is added. -/
theorem Function.WellMade.expand
    (wellMade : function.WellMade widths later newWidths)
    (wellFormed : later.WellFormed) (grows : function.nextReg ≤ later.nextReg)
    (isBlock : later.blocks loc.label = some loc.block)
    (bit : loc.inst.width = 1) (addable : expansion.Addable later)
    (added : expansion.Typed (expansion.widths newWidths))
    (sizes : ∀ inst ∈ expansion.insts, inst.OneSize)
    (bare : ∀ block ∈ expansion.fragments, block.phis = []) :
    function.WellMade widths (later.expand loc expansion)
      (expansion.widths newWidths) := by
  have same : ∀ id < later.nextReg, expansion.widths newWidths id = newWidths id :=
    fun id below => Expansion.widths_old addable below
  have uniform : ∀ inst ∈ expansion.insts,
      inst.Uniform (expansion.widths newWidths) := fun inst member =>
    (added.insts inst member).uniform (sizes inst member)
  have typed := wellMade.typed.expand wellFormed isBlock bit addable added
  have old : ∀ label block, later.blocks label = some block →
      ∀ inst ∈ block.body, function.nextReg ≤ inst.dest →
        inst.Uniform (expansion.widths newWidths) :=
    fun label block found inst member fresh =>
      (wellMade.insts label block found inst member fresh).congr same
        ((wellFormed.below label block found).body inst member)
  -- The operands of a phi node have its width, as the new function is typed.
  have incoming : ∀ label block,
      (later.expand loc expansion).blocks label = some block →
      ∀ phi ∈ block.phis, ∀ entry ∈ phi.incoming,
        entry.2.widthIn (expansion.widths newWidths) = phi.width :=
    fun label block found phi member entry isEntry =>
      ((typed label block found).phis phi member).incoming entry isEntry
  have moved : ∀ label block, later.blocks label = some block →
      ∀ labels : Nat → Nat, ∀ phi ∈ block.phis.map (Phi.translate labels),
        ¬function.HasPhi phi.dest → phi.width ≠ 0 := by
    intro label block found labels phi member missing
    obtain ⟨before, isBefore, rfl⟩ := List.mem_map.mp member
    exact (wellMade.phis label block found before isBefore missing).1
  refine ⟨fun id below => ?_, typed, ?_, ?_⟩
  · exact (same id (Nat.lt_of_lt_of_le below grows)).trans
      (wellMade.old id below)
  · intro label block found inst member fresh
    rcases Function.expand_blocks found with
      ⟨_, rfl⟩ | ⟨_, rfl⟩ | ⟨isFragment, _⟩ | ⟨_, before, isOld, rfl⟩
    · rcases List.mem_append.mp member with inBefore | inFront
      · exact old loc.label loc.block isBlock inst
          (List.mem_append_left _ inBefore) fresh
      · exact uniform inst (List.mem_append_left _ inFront)
    · exact old loc.label loc.block isBlock inst (List.mem_append_right _
        (List.mem_cons_of_mem _ member)) fresh
    · exact uniform inst (List.mem_append_right _
        (List.mem_flatMap.mpr ⟨block, isFragment, member⟩))
    · exact old label before isOld inst member fresh
  · intro label block found phi member missing
    refine ⟨?_, incoming label block found phi member⟩
    rcases Function.expand_blocks found with
      ⟨_, rfl⟩ | ⟨_, rfl⟩ | ⟨isFragment, _⟩ | ⟨_, before, isOld, rfl⟩
    · exact moved loc.label loc.block isBlock _ phi member missing
    · rw [List.mem_singleton.mp member]
      exact Nat.one_ne_zero
    · rw [bare block isFragment] at member
      exact absurd member List.not_mem_nil
    · exact moved label before isOld _ phi member missing

end WellMade

end Ssa
