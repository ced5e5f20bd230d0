import Mathlib.Algebra.BigOperators.Group.List.Basic
import Mathlib.Algebra.Order.Ring.Nat
import Mathlib.Data.List.Nodup

/-!
# Edge ids of the LTO pass

`SanitizerCoverageLTO` numbers the calls of `__afl_coverage_interesting` and
the basic blocks it instruments with one counter, `afl_global_id`.  The same
number goes into the counter update of a block and into the profile which
`AFLVBuilder` prints.
-/

namespace AFLPlusPlus

/-- An instruction: a call with its known callee, if any, and whether it uses
the C calling convention, or anything else. -/
inductive Instruction where
  | call (callee : Option String) (conventionC : Bool)
  | other
  deriving DecidableEq, Repr

/-- The calls whose operand the pass overwrites. -/
def Instruction.coverageInteresting : Instruction → Bool
  | .call (some name) true => name == "__afl_coverage_interesting"
  | _ => false

/-- A basic block, after the critical edges have been split. -/
structure BasicBlock where
  instructions : List Instruction
  /-- the verdict of `shouldInstrumentBlock` -/
  shouldInstrument : Bool

/-- A function with the verdict of the early returns of `instrumentFunction`,
among them `isInInstrumentList`. -/
structure Function where
  instrumented : Bool
  blocks : List BasicBlock

abbrev BlockName := Nat × Nat

/-- What the pass writes into the module.  The counter of a block is addressed
through `__afl_area_ptr` or from a fixed map address. -/
inductive Emission where
  | operand (block : BlockName) (instruction : Nat) (id : BitVec 32)
  | counter (block : BlockName) (mapAddr : Option (BitVec 64)) (id : BitVec 32)
  deriving DecidableEq, Repr

/-- `AFLVBasicBlock`, the debug locations of its instructions left out. -/
structure AFLVBasicBlock where
  block : BlockName
  id : BitVec 32
  deriving DecidableEq, Repr

structure PassState where
  aflGlobalId : BitVec 32
  emitted : List Emission
  /-- `AFLVB`, which is printed as the profile -/
  basicBlocks : List AFLVBasicBlock

/-- One instruction in the first loop of `instrumentFunction`. -/
def setInterestingId (block : BlockName) (state : PassState)
    (entry : Instruction × Nat) : PassState :=
  if entry.1.coverageInteresting then
    let id := state.aflGlobalId + 1#32
    { state with
      aflGlobalId := id
      emitted := state.emitted ++ [.operand block entry.2 id] }
  else state

def injectCoverageAtBlock (mapAddr : Option (BitVec 64)) (state : PassState)
    (block : BlockName) : PassState :=
  let id := state.aflGlobalId + 1#32
  { aflGlobalId := id
    emitted := state.emitted ++ [.counter block mapAddr id]
    basicBlocks := state.basicBlocks ++ [⟨block, id⟩] }

def blocksToInstrument (function : Function × Nat) : List BlockName :=
  (function.1.blocks.zipIdx.filter fun block => block.1.shouldInstrument).map
    fun block => (function.2, block.2)

/-- `instrumentFunction`: every interesting call first, then every block. -/
def instrumentFunction (mapAddr : Option (BitVec 64)) (state : PassState)
    (function : Function × Nat) : PassState :=
  if function.1.instrumented then
    let numbered := function.1.blocks.zipIdx.foldl (fun state block =>
      block.1.instructions.zipIdx.foldl
        (setInterestingId (function.2, block.2)) state) state
    (blocksToInstrument function).foldl (injectCoverageAtBlock mapAddr)
      numbered
  else state

/-- The loop of `instrumentModule` over the functions, from the start id
`AFL_LLVM_LTO_STARTID`. -/
def instrumentModule (mapAddr : Option (BitVec 64)) (startId : BitVec 32)
    (functions : List Function) : PassState :=
  functions.zipIdx.foldl (instrumentFunction mapAddr)
    { aflGlobalId := startId, emitted := [], basicBlocks := [] }

/-- `write_loc`, the value stored in `__afl_final_loc`. -/
def writeLoc (aflGlobalId : BitVec 32) : BitVec 32 :=
  if aflGlobalId % 8#32 ≠ 0#32 then ((aflGlobalId + 8#32) >>> 3) <<< 3
  else aflGlobalId

def Emission.id : Emission → BitVec 32
  | operand _ _ id => id
  | counter _ _ id => id

def PassState.ids (state : PassState) : List (BitVec 32) :=
  state.emitted.map Emission.id

def interestingCalls (block : BasicBlock × Nat) : Nat :=
  block.1.instructions.countP Instruction.coverageInteresting

def idsOfFunction (function : Function × Nat) : Nat :=
  if function.1.instrumented then
    (function.1.blocks.zipIdx.map interestingCalls).sum +
      (blocksToInstrument function).length
  else 0

def idsOfModule (functions : List Function) : Nat :=
  (functions.zipIdx.map idsOfFunction).sum

/-- The blocks of a function that end up with a counter. -/
def instrumentedBlocks (function : Function × Nat) : List BlockName :=
  if function.1.instrumented then blocksToInstrument function else []

/-- `count` consecutive ids after `startId`. -/
def idsFrom (startId : BitVec 32) (count : Nat) : List (BitVec 32) :=
  (List.range count).map fun index =>
    startId + 1#32 + BitVec.ofNat 32 index

@[simp] theorem length_idsFrom (startId : BitVec 32) (count : Nat) :
    (idsFrom startId count).length = count := by
  simp [idsFrom]

theorem idsFrom_add (startId : BitVec 32) (first second : Nat) :
    idsFrom startId (first + second) =
      idsFrom startId first ++ idsFrom (startId + BitVec.ofNat 32 first) second := by
  unfold idsFrom
  rw [List.range_add, List.map_append, List.map_map]
  congr 1
  apply List.map_congr_left
  intro index _
  rw [Function.comp_apply, BitVec.ofNat_add]
  grind

def Emission.basicBlock : Emission → Option AFLVBasicBlock
  | operand _ _ _ => none
  | counter block _ id => some ⟨block, id⟩

variable {count : Nat} {first second third : PassState} {Item : Type}

section Numbering

variable (mapAddr : Option (BitVec 64))

/-- From one state of the pass to a later one: the emissions in between carry
the next ids in order, and their counters are the new profile entries. -/
structure HandsOut (before after : PassState) (emissions : List Emission) : Prop where
  aflGlobalId : after.aflGlobalId =
    before.aflGlobalId + BitVec.ofNat 32 emissions.length
  emitted : after.emitted = before.emitted ++ emissions
  basicBlocks : after.basicBlocks =
    before.basicBlocks ++ emissions.filterMap Emission.basicBlock
  ids : emissions.map Emission.id = idsFrom before.aflGlobalId emissions.length
  addresses : ∀ block address id,
    .counter block address id ∈ emissions → address = mapAddr

theorem HandsOut.refl (state : PassState) : HandsOut mapAddr state state [] := by
  constructor <;> simp [idsFrom]

variable {mapAddr}

theorem HandsOut.trans {emissions later : List Emission}
    (step : HandsOut mapAddr first second emissions)
    (rest : HandsOut mapAddr second third later) :
    HandsOut mapAddr first third (emissions ++ later) := by
  constructor
  · rw [rest.aflGlobalId, step.aflGlobalId, List.length_append,
      BitVec.ofNat_add, BitVec.add_assoc]
  · rw [rest.emitted, step.emitted, List.append_assoc]
  · rw [rest.basicBlocks, step.basicBlocks, List.filterMap_append, List.append_assoc]
  · rw [List.map_append, List.length_append, idsFrom_add, step.ids, rest.ids,
      step.aflGlobalId]
  · intro block address id member
    rcases List.mem_append.mp member with earlier | later
    · exact step.addresses block address id earlier
    · exact rest.addresses block address id later

variable (mapAddr) in
/-- Some emissions lead from one state to the other, as many as counted and
with the counters of exactly these blocks. -/
def Numbers (before after : PassState) (count : Nat)
    (blocks : List BlockName) : Prop :=
  ∃ emissions, HandsOut mapAddr before after emissions ∧ emissions.length = count ∧
    (emissions.filterMap Emission.basicBlock).map AFLVBasicBlock.block = blocks

theorem Numbers.trans {rest : Nat} {blocks others : List BlockName}
    (step : Numbers mapAddr first second count blocks)
    (later : Numbers mapAddr second third rest others) :
    Numbers mapAddr first third (count + rest) (blocks ++ others) := by
  obtain ⟨emissions, handsOut, length, names⟩ := step
  obtain ⟨more, handsOutMore, lengthMore, namesMore⟩ := later
  refine ⟨emissions ++ more, handsOut.trans handsOutMore, ?_, ?_⟩
  · rw [List.length_append, length, lengthMore]
  · rw [List.filterMap_append, List.map_append, names, namesMore]

/-- A loop numbers what its rounds number. -/
theorem Numbers.foldl {step : PassState → Item → PassState} {count : Item → Nat}
    {blocks : Item → List BlockName} (round : ∀ state item,
      Numbers mapAddr state (step state item) (count item) (blocks item))
    (items : List Item) (state : PassState) :
    Numbers mapAddr state (items.foldl step state) (items.map count).sum
      (items.flatMap blocks) := by
  induction items generalizing state with
  | nil => exact ⟨[], HandsOut.refl _ state, rfl, rfl⟩
  | cons item items induction =>
      simpa using (round state item).trans (induction (step state item))

end Numbering

theorem setInterestingId_numbers (mapAddr : Option (BitVec 64))
    (block : BlockName) (state : PassState) (entry : Instruction × Nat) :
    Numbers mapAddr state (setInterestingId block state entry)
      (if entry.1.coverageInteresting then 1 else 0) [] := by
  unfold setInterestingId
  by_cases interesting : entry.1.coverageInteresting = true
  · rw [if_pos interesting, if_pos interesting]
    refine ⟨[.operand block entry.2 (state.aflGlobalId + 1#32)], ?_, rfl, rfl⟩
    constructor <;> simp [idsFrom, Emission.basicBlock, Emission.id]
  · rw [if_neg interesting, if_neg interesting]
    exact ⟨[], HandsOut.refl _ state, rfl, rfl⟩

theorem injectCoverageAtBlock_numbers (mapAddr : Option (BitVec 64))
    (state : PassState) (block : BlockName) :
    Numbers mapAddr state (injectCoverageAtBlock mapAddr state block) 1 [block] := by
  refine ⟨[.counter block mapAddr (state.aflGlobalId + 1#32)], ?_, rfl, rfl⟩
  unfold injectCoverageAtBlock
  constructor <;> simp [idsFrom, Emission.basicBlock, Emission.id]
  intro _ _ _ _ _ same _
  exact same

private theorem sum_interesting (instructions : List Instruction) :
    (instructions.zipIdx.map fun entry =>
        if entry.1.coverageInteresting then 1 else 0).sum =
      instructions.countP Instruction.coverageInteresting := by
  have unnumbered : (instructions.zipIdx.map fun entry =>
        if entry.1.coverageInteresting then 1 else 0) =
      instructions.map fun instruction =>
        if instruction.coverageInteresting then 1 else 0 := by
    conv_rhs => rw [← List.zipIdx_map_fst 0 instructions, List.map_map]
    rfl
  rw [unnumbered]
  clear unnumbered
  induction instructions with
  | nil => rfl
  | cons instruction instructions induction =>
      rw [List.map_cons, List.sum_cons, induction, List.countP_cons, Nat.add_comm]

/-- The first loop numbers the interesting calls and no block. -/
theorem interestingCalls_numbers (mapAddr : Option (BitVec 64))
    (state : PassState) (function : Nat) (blocks : List (BasicBlock × Nat)) :
    Numbers mapAddr state
      (blocks.foldl (fun state block =>
        block.1.instructions.zipIdx.foldl
          (setInterestingId (function, block.2)) state) state)
      (blocks.map interestingCalls).sum [] := by
  have none : ∀ {Item : Type} (items : List Item),
      items.flatMap (fun _ => ([] : List BlockName)) = [] := by
    intro Item items
    exact List.flatMap_eq_nil_iff.mpr fun _ _ => rfl
  have inBlock : ∀ (state : PassState) (block : BasicBlock × Nat),
      Numbers mapAddr state (block.1.instructions.zipIdx.foldl
        (setInterestingId (function, block.2)) state)
        (interestingCalls block) [] := by
    intro state block
    have loop := Numbers.foldl
      (setInterestingId_numbers mapAddr (function, block.2))
      block.1.instructions.zipIdx state
    rwa [sum_interesting, none] at loop
  have loop := Numbers.foldl inBlock blocks state
  rwa [none] at loop

theorem instrumentFunction_numbers (mapAddr : Option (BitVec 64))
    (state : PassState) (function : Function × Nat) :
    Numbers mapAddr state (instrumentFunction mapAddr state function)
      (idsOfFunction function) (instrumentedBlocks function) := by
  unfold instrumentFunction idsOfFunction instrumentedBlocks
  by_cases instrumented : function.1.instrumented = true
  · rw [if_pos instrumented, if_pos instrumented, if_pos instrumented]
    have calls := interestingCalls_numbers mapAddr state function.2
      function.1.blocks.zipIdx
    have counters := Numbers.foldl (injectCoverageAtBlock_numbers mapAddr)
      (blocksToInstrument function)
      (function.1.blocks.zipIdx.foldl (fun state block =>
        block.1.instructions.zipIdx.foldl
          (setInterestingId (function.2, block.2)) state) state)
    simpa using calls.trans counters
  · rw [if_neg instrumented, if_neg instrumented, if_neg instrumented]
    exact ⟨[], HandsOut.refl _ state, rfl, rfl⟩

theorem instrumentModule_numbers (mapAddr : Option (BitVec 64))
    (startId : BitVec 32) (functions : List Function) :
    Numbers mapAddr { aflGlobalId := startId, emitted := [], basicBlocks := [] }
      (instrumentModule mapAddr startId functions) (idsOfModule functions)
      (functions.zipIdx.flatMap instrumentedBlocks) :=
  Numbers.foldl (instrumentFunction_numbers mapAddr) functions.zipIdx _

private theorem zipIdx_pairwise (items : List Item) :
    items.zipIdx.Pairwise fun first second => first.2 ≠ second.2 := by
  have indices : (items.zipIdx.map Prod.snd).Nodup := by
    rw [List.zipIdx_map_snd]
    exact List.nodup_range'
  exact List.pairwise_map.mp indices

theorem blocksToInstrument_nodup (function : Function × Nat) :
    (blocksToInstrument function).Nodup := by
  unfold blocksToInstrument
  rw [List.Nodup, List.pairwise_map]
  refine ((zipIdx_pairwise function.1.blocks).filter _).imp ?_
  intro first second different same
  exact different (Prod.mk.inj same).2

theorem instrumentedBlocks_nodup (functions : List Function) :
    (functions.zipIdx.flatMap instrumentedBlocks).Nodup := by
  have inside : ∀ (function : Function × Nat) (block : BlockName),
      block ∈ instrumentedBlocks function → block.1 = function.2 := by
    intro function block member
    unfold instrumentedBlocks at member
    split at member
    · obtain ⟨_, _, rfl⟩ := List.mem_map.mp member
      rfl
    · cases member
  rw [List.nodup_flatMap]
  constructor
  · intro function _
    unfold instrumentedBlocks
    split
    · exact blocksToInstrument_nodup function
    · exact List.nodup_nil
  · refine (zipIdx_pairwise functions).imp ?_
    intro first second different block inFirst inSecond
    exact different
      ((inside first block inFirst).symm.trans (inside second block inSecond))

theorem mem_idsFrom {startId : BitVec 32} {id : BitVec 32} :
    id ∈ idsFrom startId count ↔
      ∃ index < count, id = startId + 1#32 + BitVec.ofNat 32 index := by
  simp only [idsFrom, List.mem_map, List.mem_range]
  constructor
  · rintro ⟨index, inside, rfl⟩
    exact ⟨index, inside, rfl⟩
  · rintro ⟨index, inside, rfl⟩
    exact ⟨index, inside, rfl⟩

theorem idsFrom_nodup_iff (startId : BitVec 32) (count : Nat) :
    (idsFrom startId count).Nodup ↔ count ≤ 2 ^ 32 := by
  constructor
  · intro distinct
    by_contra many
    -- After a full round the counter is back at the first id.
    refine List.nodup_iff_getElem?_ne_getElem?.mp distinct 0 (2 ^ 32)
      (by omega) (by rw [length_idsFrom]; omega) ?_
    have firstInside : 0 < count := by omega
    have lastInside : 2 ^ 32 < count := by omega
    rw [idsFrom, List.getElem?_map, List.getElem?_map,
      List.getElem?_range firstInside, List.getElem?_range lastInside]
    rfl
  · intro few
    unfold idsFrom
    refine List.nodup_range.map_on ?_
    intro first firstInside second secondInside same
    rw [List.mem_range] at firstInside secondInside
    have values := congrArg BitVec.toNat ((BitVec.add_right_inj _).mp same)
    rw [BitVec.toNat_ofNat, BitVec.toNat_ofNat] at values
    rwa [Nat.mod_eq_of_lt (by omega), Nat.mod_eq_of_lt (by omega)] at values

end AFLPlusPlus
