import AFLPlusPlus.Ssa.Refinement
import Mathlib.Data.List.Nodup

/-!
# Replacing an instruction by control flow

A pass replaces an instruction with a result of one bit: it splits the block
before the instruction, ends the first half with instructions and a branch of
its own, adds blocks, and puts a phi node in the place of the instruction.
The result refines the old function if the added code leads to the phi node
with the value of the instruction.
-/

namespace Ssa

variable {Memory : Type}

/-- An instruction with its place in its block. -/
structure Location (Memory : Type) where
  label : Nat
  phis : List Phi
  before : List (Inst Memory)
  inst : Inst Memory
  after : List (Inst Memory)
  term : Terminator

def Location.block (loc : Location Memory) : Block Memory :=
  ⟨loc.phis, loc.before ++ loc.inst :: loc.after, loc.term⟩

/-- Split a body at the first instruction that defines `dest`. -/
def splitAtDest (dest : Nat) : List (Inst Memory) →
    Option (List (Inst Memory) × Inst Memory × List (Inst Memory))
  | [] => none
  | inst :: rest =>
      if inst.dest = dest then some ([], inst, rest)
      else
        match splitAtDest dest rest with
        | none => none
        | some (before, found, after) => some (inst :: before, found, after)

def Function.locate (function : Function Memory) (dest : Nat) :
    Option (Location Memory) :=
  (List.range function.nextLabel).findSome? fun label =>
    match function.blocks label with
    | none => none
    | some block =>
        match splitAtDest dest block.body with
        | none => none
        | some (before, inst, after) =>
            some ⟨label, block.phis, before, inst, after, block.term⟩

/-- What a pass puts in the place of an instruction. -/
structure Expansion (Memory : Type) where
  /-- instructions at the end of the first half -/
  front : List (Inst Memory)
  /-- the branch that ends the first half -/
  entry : Terminator
  /-- the blocks that are added -/
  fragments : List (Block Memory)
  /-- the phi node that replaces the instruction -/
  incoming : List (Nat × Operand 1)
  /-- how many registers are new -/
  regs : Nat

def Expansion.insts (expansion : Expansion Memory) : List (Inst Memory) :=
  expansion.front ++ expansion.fragments.flatMap Block.body

/-- Control that came from block `old` now comes from block `new`. -/
def redirect (old new : Nat) : Nat → Nat :=
  fun label => if label = old then new else label

/-- The instruction at `loc` is replaced.  The second half of its block gets the
label `nextLabel`, the added blocks get those after it. -/
def Function.expand (function : Function Memory) (loc : Location Memory)
    (expansion : Expansion Memory) : Function Memory :=
  let tail := redirect loc.label function.nextLabel
  { blocks := fun label =>
      if label = loc.label then
        some ⟨loc.phis.map (Phi.translate tail), loc.before ++ expansion.front,
          expansion.entry⟩
      else if label = function.nextLabel then
        some ⟨[⟨1, loc.inst.dest, expansion.incoming⟩], loc.after, loc.term⟩
      else if function.nextLabel < label then
        expansion.fragments[label - (function.nextLabel + 1)]?
      else (function.blocks label).map (Block.translate tail)
    nextLabel := function.nextLabel + 1 + expansion.fragments.length
    nextReg := function.nextReg + expansion.regs }

structure Function.WellFormed (function : Function Memory) : Prop where
  labels : ∀ label block, function.blocks label = some block →
    label < function.nextLabel
  incoming : ∀ label block, function.blocks label = some block →
    ∀ phi ∈ block.phis, ∀ entry ∈ phi.incoming, entry.1 < function.nextLabel
  below : ∀ label block, function.blocks label = some block →
    block.Below function.nextReg

/-- The function has this instruction and no other one for its register. -/
structure Function.Defines (function : Function Memory)
    (inst : Inst Memory) : Prop where
  here : ∃ label block, function.blocks label = some block ∧ inst ∈ block.body
  only : ∀ label block, function.blocks label = some block →
    ∀ other ∈ block.body, other.dest = inst.dest → other = inst

variable {dest label : Nat} {phi : Phi}

section Single

variable {function : Function Memory} {inst : Inst Memory} {term : Terminator}

/-- The function is one block with one instruction. -/
def Function.Single (function : Function Memory) (inst : Inst Memory)
    (term : Terminator) : Prop :=
  ∀ label, function.blocks label =
    if label = 0 then some ⟨[], [inst], term⟩ else none

section

variable (single : function.Single inst term)
include single

theorem Function.Single.eq {block : Block Memory}
    (isBlock : function.blocks label = some block) :
    label = 0 ∧ block = ⟨[], [inst], term⟩ := by
  rw [single] at isBlock
  split at isBlock
  · rename_i same
    exact ⟨same, (Option.some.inj isBlock).symm⟩
  · cases isBlock

theorem Function.Single.wellFormed (labels : 0 < function.nextLabel)
    (below : inst.Below function.nextReg) (belowTerm : term.Below function.nextReg) :
    function.WellFormed := by
  refine ⟨?_, ?_, ?_⟩
  · intro label block isBlock
    rw [(single.eq isBlock).1]
    exact labels
  · intro label block isBlock phi member
    rw [(single.eq isBlock).2] at member
    exact absurd member List.not_mem_nil
  · intro label block isBlock
    rw [(single.eq isBlock).2]
    refine ⟨fun phi member => absurd member List.not_mem_nil, ?_, belowTerm⟩
    intro other member
    rw [List.mem_singleton.mp member]
    exact below

theorem Function.Single.defines : function.Defines inst := by
  refine ⟨⟨0, _, single 0, List.mem_singleton_self _⟩, ?_⟩
  intro label block isBlock other member _
  rw [(single.eq isBlock).2] at member
  exact List.mem_singleton.mp member

end

end Single

variable {body : List (Inst Memory)} {new old width : Nat}

theorem splitAtDest_eq {before after : List (Inst Memory)} {inst : Inst Memory}
    (found : splitAtDest dest body = some (before, inst, after)) :
    body = before ++ inst :: after ∧ inst.dest = dest := by
  induction body generalizing before with
  | nil => cases found
  | cons first rest induction =>
      unfold splitAtDest at found
      split at found
      · rename_i same
        cases found
        exact ⟨rfl, same⟩
      · split at found
        · cases found
        · rename_i found'
          cases found
          obtain ⟨rfl, same⟩ := induction found'
          exact ⟨rfl, same⟩

theorem splitAtDest_of_mem {inst : Inst Memory} (member : inst ∈ body) :
    ∃ parts, splitAtDest inst.dest body = some parts := by
  induction body with
  | nil => exact absurd member List.not_mem_nil
  | cons first rest induction =>
      unfold splitAtDest
      split
      · exact ⟨_, rfl⟩
      · rename_i different
        rcases List.mem_cons.mp member with rfl | inRest
        · exact absurd rfl different
        · obtain ⟨parts, found⟩ := induction inRest
          rw [found]
          exact ⟨_, rfl⟩

theorem Function.locate_some {function : Function Memory} {loc : Location Memory}
    (found : function.locate dest = some loc) :
    function.blocks loc.label = some loc.block ∧ loc.inst.dest = dest := by
  obtain ⟨label, _, found⟩ := List.exists_of_findSome?_eq_some found
  split at found
  · cases found
  · rename_i block isBlock
    split at found
    · cases found
    · rename_i before inst after parts
      cases found
      obtain ⟨body, same⟩ := splitAtDest_eq parts
      refine ⟨?_, same⟩
      rw [isBlock, Location.block, ← body]

theorem Function.Defines.locate {function : Function Memory}
    {inst : Inst Memory} (defines : function.Defines inst)
    (wellFormed : function.WellFormed) :
    ∃ loc, function.locate inst.dest = some loc ∧ loc.inst = inst ∧
      function.blocks loc.label = some loc.block ∧
      loc.label < function.nextLabel ∧ inst.Below function.nextReg := by
  have found : function.locate inst.dest ≠ none := by
    obtain ⟨label, block, isBlock, member⟩ := defines.here
    obtain ⟨parts, split⟩ := splitAtDest_of_mem member
    intro missing
    have atLabel := List.findSome?_eq_none_iff.mp missing label
      (List.mem_range.mpr (wellFormed.labels label block isBlock))
    rw [isBlock] at atLabel
    simp only [split, reduceCtorEq] at atLabel
  obtain ⟨loc, located⟩ := Option.ne_none_iff_exists'.mp found
  obtain ⟨isBlock, same⟩ := Function.locate_some located
  have isInst := defines.only loc.label loc.block isBlock loc.inst
    (List.mem_append_right _ List.mem_cons_self) same
  have below := (wellFormed.below loc.label loc.block isBlock).body loc.inst
    (List.mem_append_right _ List.mem_cons_self)
  rw [isInst] at below
  exact ⟨loc, located, isInst, isBlock,
    wellFormed.labels loc.label loc.block isBlock, below⟩

/-- The added code uses registers that exist, defines only new ones, and names
existing blocks in its phi nodes. -/
structure Expansion.Fits (expansion : Expansion Memory)
    (function : Function Memory) : Prop where
  fresh : ∀ inst ∈ expansion.insts, function.nextReg ≤ inst.dest
  insts : ∀ inst ∈ expansion.insts, inst.Below (function.nextReg + expansion.regs)
  entry : expansion.entry.Below (function.nextReg + expansion.regs)
  phis : ∀ block ∈ expansion.fragments, ∀ phi ∈ block.phis,
    phi.Below (function.nextReg + expansion.regs)
  labels : ∀ block ∈ expansion.fragments, ∀ phi ∈ block.phis,
    ∀ entry ∈ phi.incoming,
      entry.1 < function.nextLabel + 1 + expansion.fragments.length
  terms : ∀ block ∈ expansion.fragments,
    block.term.Below (function.nextReg + expansion.regs)
  incoming : ∀ entry ∈ expansion.incoming,
    entry.1 < function.nextLabel + 1 + expansion.fragments.length ∧
      entry.2.Below (function.nextReg + expansion.regs)

section Below

variable {bound larger : Nat} (le : bound ≤ larger)
include le

theorem Operand.Below.mono {operand : Operand width} (below : operand.Below bound) :
    operand.Below larger := by
  cases operand with
  | reg id => exact Nat.lt_of_lt_of_le below le
  | const value => trivial

theorem Rhs.Below.mono {rhs : Rhs Memory width} (below : rhs.Below bound) :
    rhs.Below larger := by
  cases rhs with
  | icmp predicate first second =>
      exact ⟨below.1.mono le, below.2.mono le⟩
  | fcmp format predicate first second =>
      exact ⟨below.1.mono le, below.2.mono le⟩
  | lshr value amount => exact Operand.Below.mono le below
  | and first second => exact ⟨below.1.mono le, below.2.mono le⟩
  | xor first second => exact ⟨below.1.mono le, below.2.mono le⟩
  | trunc value => exact Operand.Below.mono le below
  | bitcast value => exact Operand.Below.mono le below
  | other arguments run =>
      exact fun argument member => (below argument member).mono le

theorem Inst.Below.mono {inst : Inst Memory} (below : inst.Below bound) :
    inst.Below larger :=
  ⟨Nat.lt_of_lt_of_le below.1 le, below.2.mono le⟩

theorem Phi.Below.mono (below : phi.Below bound) : phi.Below larger :=
  ⟨Nat.lt_of_lt_of_le below.1 le, fun entry member =>
    (below.2 entry member).mono le⟩

theorem Terminator.Below.mono {term : Terminator} (below : term.Below bound) :
    term.Below larger := by
  cases term with
  | br target => trivial
  | condBr condition ifTrue ifFalse => exact Operand.Below.mono le below
  | switch value cases default => exact Operand.Below.mono le below
  | ret result =>
      cases result with
      | none => trivial
      | some operand => exact Operand.Below.mono le below

end Below

theorem Phi.Below.translate {bound : Nat} (below : phi.Below bound) (tail : Nat → Nat) :
    (phi.translate tail).Below bound := by
  refine ⟨below.1, ?_⟩
  intro entry member
  obtain ⟨old, isOld, rfl⟩ := List.mem_map.mp member
  exact below.2 old isOld

section Expand

variable {function : Function Memory} {loc : Location Memory}
  {expansion : Expansion Memory}

theorem Function.expand_blocks {block : Block Memory}
    (isBlock : (function.expand loc expansion).blocks label = some block) :
    let tail := redirect loc.label function.nextLabel
    (label = loc.label ∧
      block = ⟨loc.phis.map (Phi.translate tail),
        loc.before ++ expansion.front, expansion.entry⟩) ∨
    (label = function.nextLabel ∧
      block = ⟨[⟨1, loc.inst.dest, expansion.incoming⟩], loc.after, loc.term⟩) ∨
    (block ∈ expansion.fragments ∧
      label < function.nextLabel + 1 + expansion.fragments.length) ∨
    label ≠ loc.label ∧
      ∃ old, function.blocks label = some old ∧ block = old.translate tail := by
  intro tail
  simp only [Function.expand] at isBlock
  split at isBlock
  · rename_i same
    exact .inl ⟨same, (Option.some.inj isBlock).symm⟩
  · rename_i different
    split at isBlock
    · rename_i same
      exact .inr (.inl ⟨same, (Option.some.inj isBlock).symm⟩)
    · split at isBlock
      · obtain ⟨inside, same⟩ := List.getElem?_eq_some_iff.mp isBlock
        refine .inr (.inr (.inl ⟨?_, by omega⟩))
        rw [← same]
        exact List.getElem_mem inside
      · obtain ⟨old, isOld, same⟩ := Option.map_eq_some_iff.mp isBlock
        exact .inr (.inr (.inr ⟨different, old, isOld, same.symm⟩))

theorem Function.expand_fragment (position : Nat)
    (away : loc.label < function.nextLabel) :
    (function.expand loc expansion).blocks
        (function.nextLabel + 1 + position) =
      expansion.fragments[position]? := by
  simp only [Function.expand]
  rw [if_neg (by omega), if_neg (by omega), if_pos (by omega)]
  congr 1
  omega

theorem Function.WellFormed.expand (wellFormed : function.WellFormed)
    (isBlock : function.blocks loc.label = some loc.block)
    (fits : expansion.Fits function) :
    (function.expand loc expansion).WellFormed := by
  have grows : function.nextReg ≤ function.nextReg + expansion.regs :=
    Nat.le_add_right _ _
  have moved : ∀ phi : Phi, (∀ entry ∈ phi.incoming, entry.1 < function.nextLabel) →
      ∀ entry ∈ (phi.translate (redirect loc.label function.nextLabel)).incoming,
        entry.1 < function.nextLabel + 1 + expansion.fragments.length := by
    intro phi old entry member
    obtain ⟨before, isBefore, rfl⟩ := List.mem_map.mp member
    have less := old before isBefore
    unfold redirect
    dsimp only
    split
    · omega
    · omega
  have oldLabel := wellFormed.labels loc.label loc.block isBlock
  have oldPhis := wellFormed.incoming loc.label loc.block isBlock
  have oldBelow := wellFormed.below loc.label loc.block isBlock
  refine ⟨?_, ?_, ?_⟩
  · intro label block found
    change label < function.nextLabel + 1 + expansion.fragments.length
    rcases Function.expand_blocks found with
      ⟨rfl, _⟩ | ⟨rfl, _⟩ | ⟨_, less⟩ | ⟨_, old, isOld, _⟩
    · omega
    · omega
    · exact less
    · have less := wellFormed.labels label old isOld
      omega
  · intro label block found phi inPhis
    change ∀ entry ∈ phi.incoming,
      entry.1 < function.nextLabel + 1 + expansion.fragments.length
    rcases Function.expand_blocks found with
      ⟨_, rfl⟩ | ⟨_, rfl⟩ | ⟨member, _⟩ | ⟨_, old, isOld, rfl⟩
    · obtain ⟨before, isBefore, rfl⟩ := List.mem_map.mp inPhis
      exact moved before (oldPhis before isBefore)
    · rw [List.mem_singleton.mp inPhis]
      exact fun entry member => (fits.incoming entry member).1
    · exact fits.labels block member phi inPhis
    · obtain ⟨before, isBefore, rfl⟩ := List.mem_map.mp inPhis
      exact moved before (wellFormed.incoming label old isOld before isBefore)
  · intro label block found
    change block.Below (function.nextReg + expansion.regs)
    rcases Function.expand_blocks found with
      ⟨_, rfl⟩ | ⟨_, rfl⟩ | ⟨member, _⟩ | ⟨_, old, isOld, rfl⟩
    · refine ⟨?_, ?_, fits.entry⟩
      · intro phi inPhis
        obtain ⟨before, isBefore, rfl⟩ := List.mem_map.mp inPhis
        exact ((oldBelow.phis before isBefore).mono grows).translate _
      · intro inst inBody
        rcases List.mem_append.mp inBody with inBefore | inFront
        · exact (oldBelow.body inst (List.mem_append_left _ inBefore)).mono grows
        · exact fits.insts inst (List.mem_append_left _ inFront)
    · refine ⟨?_, ?_, oldBelow.term.mono grows⟩
      · intro phi inPhis
        rw [List.mem_singleton.mp inPhis]
        refine ⟨?_, fun entry member => (fits.incoming entry member).2⟩
        exact Nat.lt_of_lt_of_le (oldBelow.body loc.inst
          (List.mem_append_right _ List.mem_cons_self)).1 grows
      · intro inst inAfter
        exact (oldBelow.body inst (List.mem_append_right _
          (List.mem_cons_of_mem _ inAfter))).mono grows
    · refine ⟨fits.phis block member, ?_, fits.terms block member⟩
      intro inst inBody
      exact fits.insts inst (List.mem_append_right _
        (List.mem_flatMap.mpr ⟨block, member, inBody⟩))
    · have old' := wellFormed.below label old isOld
      refine ⟨?_, fun inst inBody => (old'.body inst inBody).mono grows,
        old'.term.mono grows⟩
      intro phi inPhis
      obtain ⟨before, isBefore, rfl⟩ := List.mem_map.mp inPhis
      exact ((old'.phis before isBefore).mono grows).translate _

theorem Function.expand_first :
    (function.expand loc expansion).blocks loc.label =
      some ⟨loc.phis.map (Phi.translate (redirect loc.label
          function.nextLabel)), loc.before ++ expansion.front,
        expansion.entry⟩ := by
  simp only [Function.expand, if_true]

theorem Function.expand_second (away : loc.label < function.nextLabel) :
    (function.expand loc expansion).blocks function.nextLabel =
      some ⟨[⟨1, loc.inst.dest, expansion.incoming⟩], loc.after, loc.term⟩ := by
  unfold Function.expand
  dsimp only
  rw [if_neg (by omega), if_pos rfl]

theorem Function.expand_old (other : label ≠ loc.label)
    (below : label < function.nextLabel) :
    (function.expand loc expansion).blocks label =
      (function.blocks label).map
        (Block.translate (redirect loc.label function.nextLabel)) := by
  simp only [Function.expand]
  rw [if_neg other, if_neg (by omega), if_neg (by omega)]

/-- The other instructions stay, though perhaps in another block. -/
theorem Function.Defines.expand {inst : Inst Memory}
    (defines : function.Defines inst) (wellFormed : function.WellFormed)
    (isBlock : function.blocks loc.label = some loc.block)
    (fits : expansion.Fits function) (other : inst.dest ≠ loc.inst.dest) :
    (function.expand loc expansion).Defines inst := by
  obtain ⟨label, block, found, member⟩ := defines.here
  have away := wellFormed.labels loc.label loc.block isBlock
  have old : inst.dest < function.nextReg :=
    ((wellFormed.below label block found).body inst member).1
  have notNew : ∀ new ∈ expansion.insts, new.dest ≠ inst.dest := by
    intro new isNew
    have fresh := fits.fresh new isNew
    omega
  constructor
  · by_cases here : label = loc.label
    · subst here
      obtain rfl := Option.some.inj (found.symm.trans isBlock)
      rcases List.mem_append.mp member with inBefore | inRest
      · exact ⟨_, _, Function.expand_first, List.mem_append_left _ inBefore⟩
      · rcases List.mem_cons.mp inRest with same | inAfter
        · exact absurd (congrArg Inst.dest same) other
        · exact ⟨_, _, Function.expand_second away, inAfter⟩
    · refine ⟨label, block.translate (redirect loc.label function.nextLabel),
        ?_, member⟩
      rw [Function.expand_old here (wellFormed.labels label block found), found]
      rfl
  · intro label' block' found' inst' member' same
    rcases Function.expand_blocks found' with
      ⟨_, rfl⟩ | ⟨_, rfl⟩ | ⟨isFragment, _⟩ | ⟨_, before, isOld, rfl⟩
    · rcases List.mem_append.mp member' with inBefore | inFront
      · exact defines.only _ _ isBlock inst'
          (List.mem_append_left _ inBefore) same
      · exact absurd same (notNew inst' (List.mem_append_left _ inFront))
    · exact defines.only _ _ isBlock inst' (List.mem_append_right _
        (List.mem_cons_of_mem _ member')) same
    · exact absurd same (notNew inst' (List.mem_append_right _
        (List.mem_flatMap.mpr ⟨block', isFragment, member'⟩)))
    · exact defines.only _ _ isOld inst' member' same

/-- Each added instruction defines its register. -/
theorem Function.WellFormed.expand_defines (wellFormed : function.WellFormed)
    (isBlock : function.blocks loc.label = some loc.block)
    (fits : expansion.Fits function)
    (distinct : (expansion.insts.map Inst.dest).Nodup)
    {inst : Inst Memory} (member : inst ∈ expansion.insts) :
    (function.expand loc expansion).Defines inst := by
  have away := wellFormed.labels loc.label loc.block isBlock
  have fresh := fits.fresh inst member
  have unique : ∀ other ∈ expansion.insts, other.dest = inst.dest →
      other = inst := fun other isNew same =>
    List.inj_on_of_nodup_map distinct isNew member same
  have notOld : ∀ label block, function.blocks label = some block →
      ∀ other ∈ block.body, other.dest ≠ inst.dest := by
    intro label block found other isOld
    have below := ((wellFormed.below label block found).body other isOld).1
    omega
  constructor
  · rcases List.mem_append.mp member with inFront | inFragments
    · exact ⟨_, _, Function.expand_first, List.mem_append_right _ inFront⟩
    · obtain ⟨block, isFragment, inBody⟩ := List.mem_flatMap.mp inFragments
      obtain ⟨position, inside, rfl⟩ := List.getElem_of_mem isFragment
      refine ⟨function.nextLabel + 1 + position, _, ?_, inBody⟩
      rw [Function.expand_fragment position away, List.getElem?_eq_getElem inside]
  · intro label' block' found' inst' member' same
    rcases Function.expand_blocks found' with
      ⟨_, rfl⟩ | ⟨_, rfl⟩ | ⟨isFragment, _⟩ | ⟨_, before, isOld, rfl⟩
    · rcases List.mem_append.mp member' with inBefore | inFront
      · exact absurd same (notOld _ _ isBlock inst' (List.mem_append_left _ inBefore))
      · exact unique inst' (List.mem_append_left _ inFront) same
    · exact absurd same (notOld _ _ isBlock inst' (List.mem_append_right _
        (List.mem_cons_of_mem _ member')))
    · exact unique inst' (List.mem_append_right _
        (List.mem_flatMap.mpr ⟨block', isFragment, member'⟩)) same
    · exact absurd same (notOld _ _ isOld inst' member')

/-- From an outcome control arrives at the start of a block in this state. -/
def Function.Arrives (function : Function Memory) (outcome : Outcome Memory)
    (state : State Memory) : Prop :=
  outcome = .goto state ∨
    ∃ next, outcome = .goto next ∧ function.Reaches next (.goto state)

/-- The added code leads from the end of `front` to the phi node with the value
of `rhs`, and leaves the old registers alone. -/
def Expansion.Computes (expansion : Expansion Memory)
    (function : Function Memory) (loc : Location Memory) (rhs : Rhs Memory 1) :
    Prop :=
  ∀ (env : Env) (memory : Memory), ∃ prev env' operand,
    (function.expand loc expansion).Arrives
      (expansion.entry.outcome loc.label (exec expansion.front env memory).1
        (exec expansion.front env memory).2)
      ⟨prev, function.nextLabel, env', memory⟩ ∧
    expansion.incoming.lookup prev = some operand ∧
    rhs.eval env memory = (memory, operand.eval env') ∧
    Agree function.nextReg env env'

/-- The translation of labels for a block that was split.  The new label is not
in use, so that it can be exchanged with the old one. -/
def exchange (old new : Nat) : Nat → Nat :=
  fun label =>
    if label = old then new else if label = new then old else label

theorem exchange_injective (old new : Nat) :
    Function.Injective (exchange old new) := by
  intro first second same
  unfold exchange at same
  grind

theorem Phi.translate_redirect (unused : ∀ entry ∈ phi.incoming, entry.1 < new) :
    phi.translate (redirect old new) = phi.translate (exchange old new) := by
  unfold Phi.translate
  congr 1
  apply List.map_congr_left
  intro entry member
  have different : entry.1 ≠ new := Nat.ne_of_lt (unused entry member)
  simp only [redirect, exchange, if_neg different]

theorem Phi.map_translate_redirect {phis : List Phi}
    (unused : ∀ phi ∈ phis, ∀ entry ∈ phi.incoming, entry.1 < new) :
    phis.map (Phi.translate (redirect old new)) =
      phis.map (Phi.translate (exchange old new)) :=
  List.map_congr_left fun phi member =>
    Phi.translate_redirect (unused phi member)

section

variable {rhs : Rhs Memory 1} (wellFormed : function.WellFormed)
    (isBlock : function.blocks loc.label = some loc.block)
    (replaced : loc.inst = ⟨1, dest, rhs⟩)
    (computes : expansion.Computes function loc rhs)
include wellFormed isBlock replaced computes

/-- The block that was split runs up to the phi node and on in its second
half. -/
theorem Function.expand_split {state state' : State Memory} (here : state.cur = loc.label)
    (related : state.Related function.nextReg
      (exchange loc.label function.nextLabel) state') {outcome : Outcome Memory}
    (run : loc.block.run state = some outcome) :
    ∃ outcome', (function.expand loc expansion).Reaches state' outcome' ∧
      outcome.Related function.nextReg
        (exchange loc.label function.nextLabel) outcome' := by
  have away := wellFormed.labels loc.label loc.block isBlock
  have below := wellFormed.below loc.label loc.block isBlock
  have instBelow : loc.inst.Below function.nextReg :=
    below.body loc.inst (List.mem_append_right _ List.mem_cons_self)
  obtain ⟨env, phis, rfl⟩ := Block.run_eq_some.mp run
  obtain ⟨env', phis', agree⟩ := execPhis_translate
    (exchange_injective loc.label function.nextLabel) below.phis related.env
    related.env phis
  obtain ⟨agreeBefore, sameMemory⟩ := exec_agree
    (fun inst member => below.body inst (List.mem_append_left _ member))
    agree state.memory
  -- The value of the instruction in the old function and in the new one.
  obtain ⟨prev, last, operand, arrives, incoming, value, agreeAdded⟩ :=
    computes (exec loc.before env' state.memory).1
      (exec loc.before env' state.memory).2
  have agreeLast := agreeBefore.trans agreeAdded
  rw [replaced] at instBelow
  rw [← sameMemory, ← Rhs.eval_agree instBelow.2 agreeBefore] at value
  have first : (function.expand loc expansion).step state' =
      some (expansion.entry.outcome loc.label
        (exec expansion.front (exec loc.before env' state.memory).1
          (exec loc.before env' state.memory).2).1
        (exec expansion.front (exec loc.before env' state.memory).1
          (exec loc.before env' state.memory).2).2) := by
    rw [Function.step, related.cur, here, Function.expand_first]
    refine Block.run_eq_some.mpr ⟨env', ?_, ?_⟩
    · have moved : loc.phis.map (Phi.translate (redirect loc.label
          function.nextLabel)) = loc.phis.map (Phi.translate (exchange
            loc.label function.nextLabel)) :=
        Phi.map_translate_redirect
          (wellFormed.incoming loc.label loc.block isBlock)
      rw [related.prev]
      dsimp only
      rw [moved]
      exact phis'
    · rw [related.cur, here, related.memory, exec_append]
  have toSecond : (function.expand loc expansion).Reaches state'
      (.goto ⟨prev, function.nextLabel, last,
        (exec loc.before env' state.memory).2⟩) := by
    rcases arrives with direct | ⟨next, through, reaches⟩
    · rw [direct] at first
      exact .last first
    · rw [through] at first
      exact .more first reaches
  obtain ⟨agreeAfter, finalMemory⟩ := exec_agree
    (fun inst member => below.body inst (List.mem_append_right _
      (List.mem_cons_of_mem _ member)))
    (agreeLast.set 1 dest (operand.eval last))
    (exec loc.before env state.memory).2
  have split : exec loc.block.body env state.memory =
      exec loc.after ((exec loc.before env state.memory).1.set 1 dest
        (operand.eval last)) (exec loc.before env state.memory).2 := by
    change exec (loc.before ++ loc.inst :: loc.after) env state.memory = _
    rw [exec_append, replaced, exec, value]
  let final := exec loc.after (last.set 1 dest (operand.eval last))
    (exec loc.before env' state.memory).2
  refine ⟨loc.term.outcome function.nextLabel final.1 final.2,
    toSecond.trans (.last ?_), ?_⟩
  · rw [Function.step, Function.expand_second away]
    refine Block.run_eq_some.mpr ⟨last.set 1 dest (operand.eval last), ?_, rfl⟩
    rw [replaced]
    simp only [execPhis, incoming]
  · change Outcome.Related _ _ _ (loc.term.outcome _ (exec loc.after
      (last.set 1 dest (operand.eval last)) _).1 (exec loc.after
      (last.set 1 dest (operand.eval last)) _).2)
    rw [split, ← sameMemory, ← finalMemory]
    refine Terminator.outcome_related below.term agreeAfter ?_ _
    rw [here, exchange, if_pos rfl]

theorem Function.refines_expand :
    function.Refines (function.expand loc expansion) where
  regs := Nat.le_add_right _ _
  simulates := by
    refine ⟨exchange loc.label function.nextLabel, ?_⟩
    intro state state' outcome related step
    unfold Function.step at step
    split at step
    · cases step
    · rename_i block found
      by_cases here : state.cur = loc.label
      · rw [here] at found
        obtain rfl := Option.some.inj (found.symm.trans isBlock)
        exact Function.expand_split wellFormed isBlock replaced computes here
          related step
      · have less := wellFormed.labels state.cur block found
        have same : exchange loc.label function.nextLabel state.cur = state.cur := by
          rw [exchange, if_neg here, if_neg (Nat.ne_of_lt less)]
        obtain ⟨outcome', run, final⟩ := Block.run_translate
          (exchange_injective loc.label function.nextLabel)
          (wellFormed.below state.cur block found) same related step
        refine ⟨outcome', .last ?_, final⟩
        rw [Function.step, related.cur, Function.expand_old here less, found]
        rw [Block.translate, ← Phi.map_translate_redirect
          (wellFormed.incoming state.cur block found)] at run
        exact run

end

end Expand

end Ssa
