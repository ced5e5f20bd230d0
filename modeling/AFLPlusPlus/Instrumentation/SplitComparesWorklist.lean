import AFLPlusPlus.Dictionary.LoadExtras
import AFLPlusPlus.Instrumentation.SplitComparesRefinement
import AFLPlusPlus.Ssa.Typing
import AFLPlusPlus.Support.Worklist
import Mathlib.Data.Nat.Prime.Basic

/-!
# The worklist of the split of integer compares

The loop of `simplifyAndSplit` over its worklist is run one round after the other
and held against a list of predicates and widths.  It ends, with well-typed code,
just if every width on the way to the target can be halved.
-/

namespace AFLPlusPlus

open Ssa

variable {Memory : Type}

def isSupportedBitWidth (bitw : Nat) : Bool :=
  bitw = 8 ∨ bitw = 16 ∨ bitw = 32 ∨ bitw = 64 ∨ bitw = 128 ∨ bitw = 256

/-- `target_bitwidth`, from `AFL_LLVM_LAF_SPLIT_COMPARES_BITW` or else
`LAF_SPLIT_COMPARES_BITW`. -/
def targetBitwidth (aflBitw lafBitw : Option Dictionary.Text) : Nat :=
  match aflBitw.or lafBitw with
  | none => 8
  | some bitwEnv => (Dictionary.atoi bitwEnv).toNat

/-- The predicate of an integer compare and the width of its operands. -/
def comparedBy {width : Nat} : Rhs Memory width → Option (IcmpPredicate × Nat)
  | @Rhs.icmp _ pred bitw _ _ => some (pred, bitw)
  | _ => none

def functionInsts (function : Ssa.Function Memory) : List (Inst Memory) :=
  (List.range function.nextLabel).flatMap fun label =>
    (function.blocks label).elim [] Block.body

/-- The compares that `runOnModule` collects. -/
def supportedCompares (function : Ssa.Function Memory) : List Nat :=
  (functionInsts function).filterMap fun inst =>
    (comparedBy inst.rhs).bind fun compared =>
      if isSupportedBitWidth compared.2 then some inst.dest else none

/-- `runOnModule` for one function, with `fuel` for the rounds of each loop. -/
def runOnModule (targetBitwidth fuel : Nat) (function : Ssa.Function Memory) :
    Option (Ssa.Function Memory) :=
  (supportedCompares function).foldlM (simplifyAndSplit targetBitwidth fuel)
    function

/-- What is left to do: a collected compare, or one on the worklist of a compare
of `bitw` bits. -/
inductive SplitTask where
  | simplify (cmp : Nat)
  | split (bitw cmp : Nat)

/-- The first half of `simplifyAndSplit`: the new function, the width of the
compare and the worklist. -/
def simplified (function : Ssa.Function Memory) (i : Nat) :
    Ssa.Function Memory × Nat × List Nat :=
  match icmpAt function i with
  | none => (function, 0, [])
  | some (_, pred, ⟨bitw, _, _⟩) =>
      let replaced :=
        match pred with
        | .uge | .sge | .ule | .sle => simplifyOrEqualsCompare function i
        | .sgt | .slt => simplifySignedCompare function i
        | _ => none
      match replaced with
      | none => (function, bitw, [i])
      | some (next, worklist) => (next, bitw, worklist)

/-- One compare is simplified, or one is taken off a worklist. -/
def passRound (targetBitwidth : Nat) :
    Ssa.Function Memory × List SplitTask → Ssa.Function Memory × List SplitTask
  | (function, []) => (function, [])
  | (function, .simplify cmp :: rest) =>
      let result := simplified function cmp
      (result.1, result.2.2.map (.split result.2.1) ++ rest)
  | (function, .split bitw cmp :: rest) =>
      if targetBitwidth < bitw then
        match splitCompare targetBitwidth function cmp with
        | none => (function, rest)
        | some (next, added) => (next, added.map (.split bitw) ++ rest)
      else (function, rest)

/-- The pass after a number of rounds. -/
def passAfter (targetBitwidth : Nat) (function : Ssa.Function Memory)
    (rounds : Nat) : Ssa.Function Memory × List SplitTask :=
  (passRound targetBitwidth)^[rounds]
    (function, (supportedCompares function).map .simplify)

/-- The pass ends, and whenever it is stopped the function is well typed, with
nothing added on values of width 0 or of two widths. -/
structure SplitsWell (targetBitwidth : Nat) (function : Ssa.Function Memory)
    (widths : Nat → Nat) : Prop where
  ends : ∃ fuel next, runOnModule targetBitwidth fuel function = some next
  wellMade : ∀ rounds, ∃ newWidths, function.WellMade widths
    (passAfter targetBitwidth function rounds).1 newWidths

section Typed

variable (function : Ssa.Function Memory) (bb : Nat) (pred : IcmpPredicate)
  {bitw : Nat} {op0 op1 : Operand bitw} {widths : Nat → Nat}

section Uses

variable (typed0 : op0.Typed widths) (typed1 : op1.Typed widths)
include typed0 typed1

theorem orEqualsParts_typed
    (dest : ∀ inst ∈ (orEqualsParts function bb pred op0 op1).insts,
      widths inst.dest = inst.width) :
    (orEqualsParts function bb pred op0 op1).Typed widths := by
  have new := dest
  simp [orEqualsParts, Expansion.insts] at new
  refine ⟨fun inst member => ⟨dest inst member, ?_⟩, ?_, ?_, ?_, ?_⟩
  · revert inst
    simp [orEqualsParts, Expansion.insts, Rhs.operands, typed0, typed1]
  all_goals
    simp [orEqualsParts, Terminator.Typed, Terminator.operands, new]

theorem signedParts_typed
    (dest : ∀ inst ∈ (signedParts function pred op0 op1).insts,
      widths inst.dest = inst.width) :
    (signedParts function pred op0 op1).Typed widths := by
  have new := dest
  simp [signedParts, Expansion.insts] at new
  refine ⟨fun inst member => ⟨dest inst member, ?_⟩, ?_, ?_, ?_, ?_⟩
  · revert inst
    simp [signedParts, Expansion.insts, Rhs.operands, typed0, typed1, new]
  all_goals
    simp [signedParts, Terminator.Typed, Terminator.operands, new]

theorem equalityParts_typed
    (dest : ∀ inst ∈ (equalityParts function bb pred op0 op1).insts,
      widths inst.dest = inst.width) :
    (equalityParts function bb pred op0 op1).Typed widths := by
  have new := dest
  simp [equalityParts, highHalves, lowHalves, Expansion.insts] at new
  refine ⟨fun inst member => ⟨dest inst member, ?_⟩, ?entry, ?_, ?_, ?_⟩
  case entry =>
      unfold equalityParts
      dsimp only
      split
      · simp [Terminator.Typed, Terminator.operands, new]
      · simp [Terminator.Typed, Terminator.operands, new]
  · revert inst
    simp [equalityParts, highHalves, lowHalves, Expansion.insts, Rhs.operands,
      typed0, typed1, new]
  all_goals
    simp [equalityParts, Terminator.Typed, Terminator.operands, new]

theorem orderParts_typed
    (dest : ∀ inst ∈ (orderParts function bb pred op0 op1).insts,
      widths inst.dest = inst.width) :
    (orderParts function bb pred op0 op1).Typed widths := by
  have new := dest
  simp [orderParts, highHalves, lowHalves, Expansion.insts] at new
  refine ⟨fun inst member => ⟨dest inst member, ?_⟩, ?_, ?_, ?_, ?_⟩
  · revert inst
    simp [orderParts, highHalves, lowHalves, Expansion.insts, Rhs.operands,
      typed0, typed1, new]
  all_goals
    simp [orderParts, Terminator.Typed, Terminator.operands, new]

end Uses

theorem orEqualsParts_sizes (positive : bitw ≠ 0) :
    ∀ inst ∈ (orEqualsParts function bb pred op0 op1).insts, inst.OneSize := by
  simp [orEqualsParts, Expansion.insts, Inst.OneSize, Rhs.operands, positive]

theorem signedParts_sizes (positive : bitw ≠ 0) :
    ∀ inst ∈ (signedParts function pred op0 op1).insts, inst.OneSize := by
  simp [signedParts, Expansion.insts, Inst.OneSize, Rhs.operands, positive]

theorem equalityParts_sizes (positive : bitw / 2 ≠ 0) :
    ∀ inst ∈ (equalityParts function bb pred op0 op1).insts, inst.OneSize := by
  have whole : bitw ≠ 0 := by omega
  simp only [equalityParts, highHalves, lowHalves, Expansion.insts]
  simp [Inst.OneSize, Rhs.operands]
  omega

theorem orderParts_sizes (positive : bitw / 2 ≠ 0) :
    ∀ inst ∈ (orderParts function bb pred op0 op1).insts, inst.OneSize := by
  have whole : bitw ≠ 0 := by omega
  simp only [orderParts, highHalves, lowHalves, Expansion.insts]
  simp [Inst.OneSize, Rhs.operands]
  omega

end Typed

/-- A task without its place. -/
inductive SplitItem where
  | simplify (pred : IcmpPredicate) (bitw : Nat)
  | split (outer : Nat) (pred : IcmpPredicate) (bitw : Nat)

/-- The predicates that a compare is simplified to. -/
def simplifiedPredicates : IcmpPredicate → List IcmpPredicate
  | .uge => [.eq, .ugt]
  | .sge => [.eq, .sgt]
  | .ule => [.eq, .ult]
  | .sle => [.eq, .slt]
  | .sgt => [.ugt]
  | .slt => [.ult]
  | pred => [pred]

/-- The predicates of the halves that go back on the worklist.  The inverse
compare is one of them at every width. -/
def halfPredicates (targetBitwidth bitw : Nat) : IcmpPredicate → List IcmpPredicate
  | .eq => if targetBitwidth < bitw / 2 then [.eq, .eq] else []
  | .ne => if targetBitwidth < bitw / 2 then [.ne, .ne] else []
  | .ugt => if targetBitwidth < bitw / 2 then [.ugt, .ugt, .ult] else [.ult]
  | .ult => if targetBitwidth < bitw / 2 then [.ult, .ult, .ugt] else [.ugt]
  | _ => []

def itemSuccessors (targetBitwidth : Nat) : SplitItem → List SplitItem
  | .simplify pred bitw =>
      (simplifiedPredicates pred).map fun simple => .split bitw simple bitw
  | .split outer pred bitw =>
      if targetBitwidth < outer ∧ bitw ≠ targetBitwidth then
        (halfPredicates targetBitwidth bitw pred).map fun half =>
          .split outer half (bitw / 2)
      else []

/-- A compare that is split has halves. -/
def GoodItem (targetBitwidth : Nat) : SplitItem → Prop
  | .simplify _ _ => True
  | .split outer pred bitw =>
      targetBitwidth < outer → bitw ≠ targetBitwidth → SplitPredicate pred →
        bitw / 2 ≠ 0

section Abstract

open Worklist

variable {targetBitwidth : Nat}

theorem hereditary_iff {item : SplitItem} :
    Hereditary (itemSuccessors targetBitwidth) (GoodItem targetBitwidth) item ↔
      GoodItem targetBitwidth item ∧
        ∀ successor ∈ itemSuccessors targetBitwidth item,
          Hereditary (itemSuccessors targetBitwidth)
            (GoodItem targetBitwidth) successor :=
  ⟨fun ⟨good, later⟩ => ⟨good, later⟩, fun ⟨good, later⟩ => ⟨good, later⟩⟩

theorem halfPredicates_unsplittable {bitw : Nat} {pred : IcmpPredicate}
    (unsupported : ¬SplitPredicate pred) :
    halfPredicates targetBitwidth bitw pred = [] := by
  unfold SplitPredicate at unsupported
  cases pred <;> first | rfl | exact absurd (by simp) unsupported

theorem halfPredicates_eq {pred : IcmpPredicate}
    (supported : SplitPredicate pred) (n bitw : Nat) :
    halfPredicates targetBitwidth bitw pred =
      (splitHalves n targetBitwidth bitw pred).map Prod.snd := by
  rcases supported with rfl | rfl | rfl | rfl
  all_goals
    simp only [halfPredicates, splitHalves]
    split <;> simp

section Wide

variable {outer : Nat} (wide : targetBitwidth < outer)
include wide

/-- What is asked of a compare that is not at the target width: halves, and the
same of each half that goes back on the worklist. -/
theorem hereditary_split_iff {bitw : Nat} {pred : IcmpPredicate}
    (supported : SplitPredicate pred) :
    Hereditary (itemSuccessors targetBitwidth) (GoodItem targetBitwidth)
        (.split outer pred bitw) ↔
      bitw ≠ targetBitwidth → bitw / 2 ≠ 0 ∧
        ∀ half ∈ halfPredicates targetBitwidth bitw pred,
          Hereditary (itemSuccessors targetBitwidth)
            (GoodItem targetBitwidth) (.split outer half (bitw / 2)) := by
  rw [hereditary_iff]
  by_cases same : bitw = targetBitwidth
  · simp [GoodItem, itemSuccessors, same]
  · simp [GoodItem, itemSuccessors, same, wide, supported]

omit wide in
theorem hereditary_unsplittable {bitw : Nat} {pred : IcmpPredicate}
    (unsupported : ¬SplitPredicate pred) :
    Hereditary (itemSuccessors targetBitwidth) (GoodItem targetBitwidth)
      (.split outer pred bitw) := by
  refine .intro (fun _ _ supported => absurd supported unsupported) ?_
  simp [itemSuccessors, halfPredicates_unsplittable unsupported]

theorem hereditary_equality_iff {pred : IcmpPredicate}
    (equality : pred = .eq ∨ pred = .ne) (level : Nat)
    (notBelow : targetBitwidth ≤ 2 ^ level) :
    Hereditary (itemSuccessors targetBitwidth) (GoodItem targetBitwidth)
        (.split outer pred (2 ^ level)) ↔ targetBitwidth ≠ 0 := by
  have supported : SplitPredicate pred := by
    rcases equality with rfl | rfl <;> simp [SplitPredicate]
  have halves : ∀ bitw, halfPredicates targetBitwidth bitw pred =
      if targetBitwidth < bitw / 2 then [pred, pred] else [] := by
    rcases equality with rfl | rfl <;> exact fun _ => rfl
  induction level with
  | zero =>
      rw [hereditary_split_iff wide supported, halves]
      simp only [Nat.pow_zero]
      constructor
      · intro split zero
        exact (split (by omega)).1 rfl
      · intro positive different
        omega
  | succ level induction =>
      have half : 2 ^ (level + 1) / 2 = 2 ^ level := by omega
      have nonzero : (2 : Nat) ^ level ≠ 0 := Nat.two_pow_pos level |>.ne'
      rw [hereditary_split_iff wide supported, halves, half]
      constructor
      · intro split zero
        have wider : targetBitwidth < 2 ^ level := by omega
        rw [if_pos wider] at split
        have later := (split (by omega)).2 pred List.mem_cons_self
        exact (induction (Nat.le_of_lt wider)).mp later zero
      · intro positive _
        refine ⟨nonzero, fun half member => ?_⟩
        split at member
        · rename_i wider
          obtain rfl : half = pred := by simpa using member
          exact (induction (Nat.le_of_lt wider)).mpr positive
        · exact absurd member List.not_mem_nil

/-- The unsigned orders: a compare of the upper halves is split again at every
width but the target. -/
theorem hereditary_order_iff {pred : IcmpPredicate}
    (order : pred = .ugt ∨ pred = .ult) (level : Nat) :
    Hereditary (itemSuccessors targetBitwidth) (GoodItem targetBitwidth)
        (.split outer pred (2 ^ level)) ↔ targetBitwidth ∣ 2 ^ level := by
  have supported : ∀ {pred : IcmpPredicate}, pred = .ugt ∨ pred = .ult →
      SplitPredicate pred := by
    rintro pred (rfl | rfl) <;> simp [SplitPredicate]
  have halves : ∀ {pred : IcmpPredicate}, pred = .ugt ∨ pred = .ult →
      ∀ bitw, ∃ inverse, (inverse = .ugt ∨ inverse = .ult) ∧
        halfPredicates targetBitwidth bitw pred =
          if targetBitwidth < bitw / 2 then [pred, pred, inverse]
          else [inverse] := by
    rintro pred (rfl | rfl) bitw
    · exact ⟨.ult, .inr rfl, rfl⟩
    · exact ⟨.ugt, .inl rfl, rfl⟩
  induction level generalizing pred with
  | zero =>
      rw [hereditary_split_iff wide (supported order), Nat.pow_zero, Nat.dvd_one]
      constructor
      · intro split
        by_contra different
        exact (split (Ne.symm different)).1 rfl
      · exact fun same different => absurd same.symm different
  | succ level induction =>
      have half : 2 ^ (level + 1) / 2 = 2 ^ level := by omega
      have nonzero : (2 : Nat) ^ level ≠ 0 := Nat.two_pow_pos level |>.ne'
      obtain ⟨inverse, isOrder, isHalves⟩ := halves order (2 ^ (level + 1))
      rw [hereditary_split_iff wide (supported order), isHalves, half]
      have divides : targetBitwidth ∣ 2 ^ (level + 1) ↔
          2 ^ (level + 1) = targetBitwidth ∨ targetBitwidth ∣ 2 ^ level := by
        rw [Nat.dvd_prime_pow Nat.prime_two, Nat.dvd_prime_pow Nat.prime_two]
        constructor
        · rintro ⟨power, small, rfl⟩
          rcases Nat.lt_or_eq_of_le small with less | rfl
          · exact .inr ⟨power, Nat.le_of_lt_succ less, rfl⟩
          · exact .inl rfl
        · rintro (same | ⟨power, small, rfl⟩)
          · exact ⟨level + 1, Nat.le_refl _, same.symm⟩
          · exact ⟨power, Nat.le_succ_of_le small, rfl⟩
      rw [divides]
      constructor
      · intro split
        by_cases same : 2 ^ (level + 1) = targetBitwidth
        · exact .inl same
        · have later := (split same).2 inverse (by split <;> simp)
          exact .inr ((induction isOrder).mp later)
      · rintro (same | below) different
        · exact absurd same different
        · refine ⟨nonzero, fun half member => (induction ?_).mpr below⟩
          have cases : half = pred ∨ half = inverse := by
            split at member
            · simpa using member
            · exact .inr (List.mem_singleton.mp member)
          rcases cases with rfl | rfl
          · exact order
          · exact isOrder

end Wide

/-- The targets that suit a compare: it is narrow enough as it is, or halving it
comes to the target, or no compare of an order is on its worklist. -/
def SuitsTarget (targetBitwidth : Nat) (pred : IcmpPredicate) (bitw : Nat) :
    Prop :=
  bitw ≤ targetBitwidth ∨ targetBitwidth ∣ bitw ∨
    targetBitwidth ≠ 0 ∧ (pred = .eq ∨ pred = .ne ∨ pred = .sge ∨ pred = .sle)

theorem supported_two_pow {bitw : Nat}
    (supported : isSupportedBitWidth bitw = true) :
    ∃ level, bitw = 2 ^ level := by
  simp only [isSupportedBitWidth, decide_eq_true_eq] at supported
  rcases supported with rfl | rfl | rfl | rfl | rfl | rfl
  · exact ⟨3, rfl⟩
  · exact ⟨4, rfl⟩
  · exact ⟨5, rfl⟩
  · exact ⟨6, rfl⟩
  · exact ⟨7, rfl⟩
  · exact ⟨8, rfl⟩

theorem hereditary_narrow {outer bitw : Nat} {pred : IcmpPredicate}
    (narrow : outer ≤ targetBitwidth) :
    Hereditary (itemSuccessors targetBitwidth) (GoodItem targetBitwidth)
      (.split outer pred bitw) := by
  refine .intro (fun wide => absurd narrow (Nat.not_le.mpr wide)) ?_
  simp [itemSuccessors, Nat.not_lt.mpr narrow]

theorem hereditary_simplify_iff {pred : IcmpPredicate} {bitw : Nat}
    (supported : isSupportedBitWidth bitw = true) :
    Hereditary (itemSuccessors targetBitwidth) (GoodItem targetBitwidth)
        (.simplify pred bitw) ↔ SuitsTarget targetBitwidth pred bitw := by
  have split : Hereditary (itemSuccessors targetBitwidth)
      (GoodItem targetBitwidth) (.simplify pred bitw) ↔
        ∀ simple ∈ simplifiedPredicates pred,
          Hereditary (itemSuccessors targetBitwidth)
            (GoodItem targetBitwidth) (.split bitw simple bitw) := by
    rw [hereditary_iff]
    simp [GoodItem, itemSuccessors]
  obtain ⟨level, rfl⟩ := supported_two_pow supported
  rw [split]
  by_cases narrow : 2 ^ level ≤ targetBitwidth
  · exact iff_of_true (fun _ _ => hereditary_narrow narrow) (.inl narrow)
  · have wide : targetBitwidth < 2 ^ level := Nat.lt_of_not_le narrow
    have equality : ∀ pred, pred = .eq ∨ pred = .ne →
        (Hereditary (itemSuccessors targetBitwidth) (GoodItem targetBitwidth)
          (.split (2 ^ level) pred (2 ^ level)) ↔ targetBitwidth ≠ 0) :=
      fun pred isEquality =>
        hereditary_equality_iff wide isEquality level (Nat.le_of_lt wide)
    have order : ∀ pred, pred = .ugt ∨ pred = .ult →
        (Hereditary (itemSuccessors targetBitwidth) (GoodItem targetBitwidth)
          (.split (2 ^ level) pred (2 ^ level)) ↔ targetBitwidth ∣ 2 ^ level) :=
      fun pred isOrder => hereditary_order_iff wide isOrder level
    have nonzero : targetBitwidth ∣ 2 ^ level → targetBitwidth ≠ 0 := by
      rintro divides rfl
      have zero := Nat.eq_zero_of_zero_dvd divides
      omega
    have signed : ∀ pred, ¬SplitPredicate pred →
        Hereditary (itemSuccessors targetBitwidth) (GoodItem targetBitwidth)
          (.split (2 ^ level) pred (2 ^ level)) :=
      fun pred unsupported => hereditary_unsplittable unsupported
    unfold SuitsTarget
    cases pred with
    | eq => simp [simplifiedPredicates, equality, narrow]; exact nonzero
    | ne => simp [simplifiedPredicates, equality, narrow]; exact nonzero
    | ugt => simp [simplifiedPredicates, order, narrow]
    | ult => simp [simplifiedPredicates, order, narrow]
    | sgt => simp [simplifiedPredicates, order, narrow]
    | slt => simp [simplifiedPredicates, order, narrow]
    | uge => simp [simplifiedPredicates, order, equality, narrow]; exact nonzero
    | ule => simp [simplifiedPredicates, order, equality, narrow]; exact nonzero
    | sge =>
        simp [simplifiedPredicates, equality, narrow, signed, SplitPredicate]
        exact nonzero
    | sle =>
        simp [simplifiedPredicates, equality, narrow, signed, SplitPredicate]
        exact nonzero

end Abstract

end AFLPlusPlus
