import AFLPlusPlus.Ssa.Expansion

/-!
# Splitting integer compares

The pass `split-compares-pass.so.cc` turns each integer compare into compares of
smaller width.  Compares with equality become a strict compare and one for
equality, signed compares a case distinction on the sign bits, and a wide
compare one of its upper and one of its lower half, which are split again.
-/

namespace AFLPlusPlus

open Ssa

variable {Memory : Type}

/-- The integer compare that defines a register, with its place. -/
def icmpAt (function : Ssa.Function Memory) (dest : Nat) :
    Option (Location Memory × IcmpPredicate × Σ bitw, Operand bitw × Operand bitw) :=
  match function.locate dest with
  | none => none
  | some loc =>
      match loc.inst with
      | ⟨_, _, .icmp pred op0 op1⟩ => some (loc, pred, ⟨_, op0, op1⟩)
      | _ => none

/-- The new predicate of `simplifyOrEqualsCompare`. -/
def strictPredicate : IcmpPredicate → Option IcmpPredicate
  | .uge => some .ugt
  | .sge => some .sgt
  | .ule => some .ult
  | .sle => some .slt
  | _ => none

section Parts

variable (function : Ssa.Function Memory) (bb : Nat) (pred : IcmpPredicate)
  {bitw : Nat} (op0 op1 : Operand bitw)

/-- The strict compare in `bb`, and the compare for equality in a block of its
own for the case that the strict one fails. -/
def orEqualsParts : Expansion Memory :=
  let icmpNp := function.nextReg
  let icmpEq := function.nextReg + 1
  let endBb := function.nextLabel
  let middleBb := function.nextLabel + 1
  { front := [⟨1, icmpNp, .icmp pred op0 op1⟩]
    entry := .condBr (.reg icmpNp) endBb middleBb
    fragments := [⟨[], [⟨1, icmpEq, .icmp .eq op0 op1⟩], .br endBb⟩]
    incoming := [(middleBb, .reg icmpEq), (bb, .const 1#1)]
    regs := 2 }

/-- The compare of the sign bits in `bb`; for different ones their order decides,
for equal ones the unsigned order. -/
def signedParts : Expansion Memory :=
  let n := function.nextReg
  let endBb := function.nextLabel
  let signBb := function.nextLabel + 1
  let middleBb := function.nextLabel + 2
  let sign : Operand 1 × Operand 1 := (.reg (n + 1), .reg (n + 3))
  { front :=
      [⟨bitw, n, .lshr op0 (bitw - 1)⟩, ⟨1, n + 1, @Rhs.trunc _ bitw 1 (.reg n)⟩,
        ⟨bitw, n + 2, .lshr op1 (bitw - 1)⟩,
        ⟨1, n + 3, @Rhs.trunc _ bitw 1 (.reg (n + 2))⟩,
        ⟨1, n + 4, .icmp .eq sign.1 sign.2⟩]
    entry := .condBr (.reg (n + 4)) middleBb signBb
    fragments :=
      [⟨[], [⟨1, n + 5, .icmp (if pred = .sgt then .ult else .ugt) sign.1 sign.2⟩],
          .br endBb⟩,
        ⟨[], [⟨1, n + 6, .icmp (if pred = .sgt then .ugt else .ult) op0 op1⟩],
          .br endBb⟩]
    incoming := [(middleBb, .reg (n + 6)), (signBb, .reg (n + 5))]
    regs := 7 }

/-- The compare of the upper halves. -/
def highHalves : List (Inst Memory) :=
  let n := function.nextReg
  [⟨bitw, n, .lshr op0 (bitw / 2)⟩,
    ⟨bitw / 2, n + 1, @Rhs.trunc _ bitw (bitw / 2) (.reg n)⟩,
    ⟨bitw, n + 2, .lshr op1 (bitw / 2)⟩,
    ⟨bitw / 2, n + 3, @Rhs.trunc _ bitw (bitw / 2) (.reg (n + 2))⟩,
    ⟨1, n + 4, @Rhs.icmp _ pred (bitw / 2) (.reg (n + 1)) (.reg (n + 3))⟩]

/-- The compare of the lower halves, in registers from `first` on. -/
def lowHalves (first : Nat) : List (Inst Memory) :=
  [⟨bitw / 2, first, .trunc op0⟩, ⟨bitw / 2, first + 1, .trunc op1⟩,
    ⟨1, first + 2, @Rhs.icmp _ pred (bitw / 2) (.reg first) (.reg (first + 1))⟩]

/-- Equality and inequality: the upper halves may decide alone. -/
def equalityParts : Expansion Memory :=
  let n := function.nextReg
  let endBb := function.nextLabel
  let cmpLowBb := function.nextLabel + 1
  { front := highHalves function pred op0 op1
    entry :=
      if pred = .eq then .condBr (.reg (n + 4)) cmpLowBb endBb
      else .condBr (.reg (n + 4)) endBb cmpLowBb
    fragments := [⟨[], lowHalves pred op0 op1 (n + 5), .br endBb⟩]
    incoming :=
      [(cmpLowBb, .reg (n + 7)), (bb, .const (if pred = .eq then 0#1 else 1#1))]
    regs := 8 }

/-- The unsigned orders: between the upper and the lower halves stands a compare
of the upper ones with the inverse predicate. -/
def orderParts : Expansion Memory :=
  let n := function.nextReg
  let endBb := function.nextLabel
  let invCmpBb := function.nextLabel + 1
  let cmpLowBb := function.nextLabel + 2
  { front := highHalves function pred op0 op1
    entry := .condBr (.reg (n + 4)) endBb invCmpBb
    fragments :=
      [⟨[], [⟨1, n + 5, @Rhs.icmp _ (if pred = .ugt then .ult else .ugt)
          (bitw / 2) (.reg (n + 1)) (.reg (n + 3))⟩],
          .condBr (.reg (n + 5)) endBb cmpLowBb⟩,
        ⟨[], lowHalves pred op0 op1 (n + 6), .br endBb⟩]
    incoming := [(cmpLowBb, .reg (n + 8)), (bb, .const 1#1), (invCmpBb, .const 0#1)]
    regs := 9 }

end Parts

/-- `simplifyOrEqualsCompare`: the new function and what it adds to the
worklist, the last one first. -/
def simplifyOrEqualsCompare (function : Ssa.Function Memory) (icmpInst : Nat) :
    Option (Ssa.Function Memory × List Nat) :=
  match icmpAt function icmpInst with
  | none => none
  | some (loc, pred, ⟨_, op0, op1⟩) =>
      match strictPredicate pred with
      | none => none
      | some newPred =>
          some (function.expand loc (orEqualsParts function loc.label newPred op0 op1),
            [function.nextReg + 1, function.nextReg])

/-- `simplifySignedCompare`: every predicate but `ICMP_SGT` is taken for
`ICMP_SLT`.  The compare of the sign bits is not added to the worklist. -/
def simplifySignedCompare (function : Ssa.Function Memory) (icmpInst : Nat) :
    Option (Ssa.Function Memory × List Nat) :=
  match icmpAt function icmpInst with
  | none => none
  | some (loc, pred, ⟨_, op0, op1⟩) =>
      some (function.expand loc (signedParts function pred op0 op1),
        [function.nextReg + 6])

/-- `splitCompare`; no result means that it returns false. -/
def splitCompare (targetBitwidth : Nat) (function : Ssa.Function Memory)
    (cmpInst : Nat) : Option (Ssa.Function Memory × List Nat) :=
  match icmpAt function cmpInst with
  | none => none
  | some (loc, pred, ⟨bitw, op0, op1⟩) =>
      let n := function.nextReg
      let again := targetBitwidth < bitw / 2
      match pred with
      | .eq | .ne =>
          if bitw = targetBitwidth then some (function, [])
          else
            some (function.expand loc (equalityParts function loc.label pred op0 op1),
              if again then [n + 7, n + 4] else [])
      | .ugt | .ult =>
          if bitw = targetBitwidth then some (function, [])
          else
            some (function.expand loc (orderParts function loc.label pred op0 op1),
              if again then [n + 8, n + 4, n + 5] else [n + 5])
      | _ => none

/-- The loop of `simplifyAndSplit` over the worklist, whose last element comes
first here.  A compare that cannot be split stays as it is. -/
def splitWorklist (targetBitwidth bitw : Nat) : Nat → Ssa.Function Memory →
    List Nat → Option (Ssa.Function Memory)
  | _, function, [] => some function
  | 0, _, _ :: _ => none
  | fuel + 1, function, cmp :: worklist =>
      if targetBitwidth < bitw then
        match splitCompare targetBitwidth function cmp with
        | none => splitWorklist targetBitwidth bitw fuel function worklist
        | some (next, added) =>
            splitWorklist targetBitwidth bitw fuel next (added ++ worklist)
      else splitWorklist targetBitwidth bitw fuel function worklist

/-- `simplifyAndSplit`, with `fuel` for the rounds of its loop. -/
def simplifyAndSplit (targetBitwidth fuel : Nat) (function : Ssa.Function Memory)
    (i : Nat) : Option (Ssa.Function Memory) :=
  match icmpAt function i with
  | none => some function
  | some (_, pred, ⟨bitw, _, _⟩) =>
      let simplified :=
        match pred with
        | .uge | .sge | .ule | .sle => simplifyOrEqualsCompare function i
        | .sgt | .slt => simplifySignedCompare function i
        | _ => none
      match simplified with
      | none => splitWorklist targetBitwidth bitw fuel function [i]
      | some (next, worklist) =>
          splitWorklist targetBitwidth bitw fuel next worklist

end AFLPlusPlus
