import AFLPlusPlus.Ssa.Expansion

/-!
# Splitting floating-point compares

`splitFPCompares` takes a compare of numbers apart into compares of their
signs, exponents and fractions.  `simplifyFPCompares`, which runs after it,
turns the predicates with equality into a strict one and `FCMP_OEQ`.
-/

namespace AFLPlusPlus

open Ssa

variable {Memory : Type}

/-- The floating-point compare that defines a register, with its place. -/
def fcmpAt (function : Ssa.Function Memory) (dest : Nat) :
    Option (Location Memory × FcmpPredicate ×
      Σ format : FloatFormat, Operand format.size × Operand format.size) :=
  match function.locate dest with
  | none => none
  | some loc =>
      match loc.inst with
      | ⟨_, _, .fcmp format pred op0 op1⟩ =>
          some (loc, pred, ⟨format, op0, op1⟩)
      | _ => none

def fpPrecision (sizeInBits : Nat) : Nat :=
  if sizeInBits = 32 then 24
  else if sizeInBits = 64 then 53
  else if sizeInBits = 128 then 113
  else if sizeInBits = 16 then 11
  else if sizeInBits = 80 then 65
  else sizeInBits - 8

/-- `nextPowerOfTwo`, for sizes of at least one byte. -/
def nextPowerOfTwo (size : Nat) : Nat :=
  let ones := size - 1
  let ones := ones ||| ones >>> 1
  let ones := ones ||| ones >>> 2
  let ones := ones ||| ones >>> 4
  ones + 1

section Sizes

variable (sizeInBits : Nat)

def shiftRExponent : Nat := fpPrecision sizeInBits - 1

def maskFraction : Nat :=
  (1 <<< (shiftRExponent sizeInBits - 1)) |||
    ((1 <<< (shiftRExponent sizeInBits - 1)) - 1)

def maskExponent : Nat := (1 <<< (sizeInBits - fpPrecision sizeInBits)) - 1

def exTySizeBytes : Nat := (sizeInBits - fpPrecision sizeInBits + 7) >>> 3

def frTySizeBytes : Nat := (fpPrecision sizeInBits - 1 + 7) >>> 3

/-- The width of `IntExponentTy`. -/
def exponentWidth : Nat := nextPowerOfTwo (exTySizeBytes sizeInBits) <<< 3

/-- The width of `IntFractionTy`. -/
def fractionWidth : Nat := nextPowerOfTwo (frTySizeBytes sizeInBits) <<< 3

end Sizes

section Parts

variable (function : Ssa.Function Memory) (bb : Nat) (pred : FcmpPredicate)
  {size : Nat} (op0 op1 : Operand size)

/-- The integers with the bits of the operands, their sign bits `t_s0` and
`t_s1`, and the compare of these. -/
def signBits : List (Inst Memory) :=
  let n := function.nextReg
  [⟨size, n, .bitcast op0⟩, ⟨size, n + 1, .bitcast op1⟩,
    ⟨size, n + 2, .lshr (.reg n) (size - 1)⟩,
    ⟨1, n + 3, @Rhs.trunc _ size 1 (.reg (n + 2))⟩,
    ⟨size, n + 4, .lshr (.reg (n + 1)) (size - 1)⟩,
    ⟨1, n + 5, @Rhs.trunc _ size 1 (.reg (n + 4))⟩,
    ⟨1, n + 6, @Rhs.icmp _ .eq 1 (.reg (n + 3)) (.reg (n + 5))⟩]

/-- Code that isolates a field of both numbers, and its results. -/
structure IsolatedField (Memory : Type) where
  code : List (Inst Memory)
  width : Nat
  first : Operand width
  second : Operand width

/-- The exponents `m_e0` and `m_e1` of the integers in `n` and `n + 1`. -/
def isolateExponents (size n : Nat) : IsolatedField Memory :=
  let width := exponentWidth size
  let shifted : List (Inst Memory) :=
    [⟨size, n + 7, .lshr (.reg n) (shiftRExponent size)⟩,
      ⟨size, n + 8, .lshr (.reg (n + 1)) (shiftRExponent size)⟩,
      ⟨width, n + 9, @Rhs.trunc _ size width (.reg (n + 7))⟩,
      ⟨width, n + 10, @Rhs.trunc _ size width (.reg (n + 8))⟩]
  if size - fpPrecision size < exTySizeBytes size * 8 then
    let mask : Operand width := .const (.ofNat width (maskExponent size))
    { code := shifted ++
        [⟨width, n + 11, .and (.reg (n + 9)) mask⟩,
          ⟨width, n + 12, .and (.reg (n + 10)) mask⟩]
      width := width
      first := .reg (n + 11)
      second := .reg (n + 12) }
  else ⟨shifted, width, .reg (n + 9), .reg (n + 10)⟩

/-- The fractions `t_f0` and `t_f1`. -/
def isolateFractions (size n : Nat) : IsolatedField Memory :=
  let width := fractionWidth size
  let needTrunc := width < size
  if fpPrecision size - 1 < frTySizeBytes size * 8 then
    let mask : Operand size := .const (.ofNat size (maskFraction size))
    let masked : List (Inst Memory) :=
      [⟨size, n + 13, .and (.reg n) mask⟩, ⟨size, n + 14, .and (.reg (n + 1)) mask⟩]
    if needTrunc then
      { code := masked ++
          [⟨width, n + 15, @Rhs.trunc _ size width (.reg (n + 13))⟩,
            ⟨width, n + 16, @Rhs.trunc _ size width (.reg (n + 14))⟩]
        width := width
        first := .reg (n + 15)
        second := .reg (n + 16) }
    else ⟨masked, size, .reg (n + 13), .reg (n + 14)⟩
  else if needTrunc then
    { code :=
        [⟨width, n + 15, @Rhs.trunc _ size width (.reg n)⟩,
          ⟨width, n + 16, @Rhs.trunc _ size width (.reg (n + 1))⟩]
      width := width
      first := .reg (n + 15)
      second := .reg (n + 16) }
  else ⟨[], size, .reg n, .reg (n + 1)⟩

/-- The parts of `FCMP_OEQ`, `FCMP_UEQ`, `FCMP_ONE` and `FCMP_UNE`, for which
`compare` is `ICMP_EQ` or `ICMP_NE`. -/
def fpEqualityParts (compare : IcmpPredicate) : Expansion Memory :=
  let n := function.nextReg
  let endBb := function.nextLabel
  let signequalBb := function.nextLabel + 1
  let middleBb := function.nextLabel + 2
  let exponents : IsolatedField Memory := isolateExponents size n
  let fractions : IsolatedField Memory := isolateFractions size n
  { front := signBits function op0 op1
    entry := .condBr (.reg (n + 6)) signequalBb endBb
    fragments :=
      [⟨[], exponents.code ++
          [⟨1, n + 17, .icmp compare exponents.first exponents.second⟩],
          if compare = .eq then .condBr (.reg (n + 17)) middleBb endBb
          else .condBr (.reg (n + 17)) endBb middleBb⟩,
        ⟨[], fractions.code ++
          [⟨1, n + 18, .icmp compare fractions.first fractions.second⟩],
          .br endBb⟩]
    incoming :=
      if compare = .eq then
        [(bb, .const 0#1), (signequalBb, .const 0#1), (middleBb, .reg (n + 18))]
      else
        [(bb, .const 1#1), (signequalBb, .reg (n + 17)), (middleBb, .reg (n + 18))]
    regs := 19 }

/-- The parts of `FCMP_OGT` and `FCMP_UGT`, for which `compare` is `ICMP_UGT` and
`inverse` is `ICMP_ULT`, and of `FCMP_OLT` and `FCMP_ULT`, for which it is the
other way round. -/
def fpOrderParts (compare inverse : IcmpPredicate) : Expansion Memory :=
  let n := function.nextReg
  let endBb := function.nextLabel
  let signequalBb := function.nextLabel + 1
  let middleBb := function.nextLabel + 2
  let signequal2Bb := function.nextLabel + 3
  let middle2Bb := function.nextLabel + 4
  let negativeBb := function.nextLabel + 5
  let positiveBb := function.nextLabel + 6
  let exponents : IsolatedField Memory := isolateExponents size n
  let fractions : IsolatedField Memory := isolateFractions size n
  let ts0 : Operand 1 := .reg (n + 3)
  let ts1 : Operand 1 := .reg (n + 5)
  { front := signBits function op0 op1
    entry := .condBr (.reg (n + 6)) signequalBb endBb
    fragments :=
      [⟨[], exponents.code ++
          [⟨1, n + 17, .icmp .eq exponents.first exponents.second⟩],
          .condBr (.reg (n + 17)) middleBb signequal2Bb⟩,
        ⟨[], fractions.code, .condBr ts0 negativeBb positiveBb⟩,
        ⟨[], [⟨1, n + 18, .icmp compare exponents.first exponents.second⟩,
          ⟨1, n + 19, .xor (.reg (n + 18)) ts0⟩], .br endBb⟩,
        ⟨[⟨1, n + 22, [(negativeBb, .reg (n + 20)),
          (positiveBb, .reg (n + 21))]⟩], [], .br endBb⟩,
        ⟨[], [⟨1, n + 20, .icmp inverse fractions.first fractions.second⟩],
          .br middle2Bb⟩,
        ⟨[], [⟨1, n + 21, .icmp compare fractions.first fractions.second⟩],
          .br middle2Bb⟩]
    -- a different sign decides: the first number is above or below if the
    -- second one, or the first one, is negative
    incoming :=
      [(bb, if compare = .ugt then ts1 else ts0),
        (signequal2Bb, .reg (n + 19)), (middle2Bb, .reg (n + 22))]
    regs := 23 }

/-- What `splitFPCompares` puts in the place of a compare with one of the
predicates that it collects. -/
def fpParts : Option (Expansion Memory) :=
  match pred with
  | .oeq | .ueq => some (fpEqualityParts function bb op0 op1 .eq)
  | .one | .une => some (fpEqualityParts function bb op0 op1 .ne)
  | .ogt | .ugt => some (fpOrderParts function bb op0 op1 .ugt .ult)
  | .olt | .ult => some (fpOrderParts function bb op0 op1 .ult .ugt)
  | .oge | .uge | .ole | .ule => none

end Parts

/-- The predicates of the compares that `splitFPCompares` collects. -/
def collectedPredicate : FcmpPredicate → Bool
  | .oeq | .ueq | .one | .une | .ugt | .ogt | .ult | .olt => true
  | _ => false

/-- One round of the loop of `splitFPCompares`; no result means that the compare
is left as it is. -/
def splitFPCompare (function : Ssa.Function Memory) (fcmpInst : Nat) :
    Option (Ssa.Function Memory) :=
  match fcmpAt function fcmpInst with
  | none => none
  | some (loc, pred, ⟨format, op0, op1⟩) =>
      if collectedPredicate pred = false ∨ 64 < format.size then none
      else (fpParts function loc.label pred op0 op1).map (function.expand loc)

/-- The new predicate of `simplifyFPCompares`. -/
def strictFcmpPredicate : FcmpPredicate → Option FcmpPredicate
  | .uge => some .ugt
  | .oge => some .ogt
  | .ule => some .ult
  | .ole => some .olt
  | _ => none

/-- The strict compare in `bb`, and `FCMP_OEQ` in a block of its own for the case
that the strict one fails. -/
def fpOrEqualsParts (function : Ssa.Function Memory) (bb : Nat)
    (format : FloatFormat) (pred : FcmpPredicate)
    (op0 op1 : Operand format.size) : Expansion Memory :=
  let fcmpNp := function.nextReg
  let fcmpEq := function.nextReg + 1
  let endBb := function.nextLabel
  let middleBb := function.nextLabel + 1
  { front := [⟨1, fcmpNp, .fcmp format pred op0 op1⟩]
    entry := .condBr (.reg fcmpNp) endBb middleBb
    fragments := [⟨[], [⟨1, fcmpEq, .fcmp format .oeq op0 op1⟩], .br endBb⟩]
    incoming := [(middleBb, .reg fcmpEq), (bb, .const 1#1)]
    regs := 2 }

/-- One round of the loop of `simplifyFPCompares`. -/
def simplifyFPCompare (function : Ssa.Function Memory) (fcmpInst : Nat) :
    Option (Ssa.Function Memory) :=
  match fcmpAt function fcmpInst with
  | none => none
  | some (loc, pred, ⟨format, op0, op1⟩) =>
      (strictFcmpPredicate pred).map fun newPred =>
        function.expand loc
          (fpOrEqualsParts function loc.label format newPred op0 op1)

/-- The loop of `simplifyFPCompares` over the compares that it has collected. -/
def simplifyFPCompares (fcomps : List Nat) (function : Ssa.Function Memory) :
    Option (Ssa.Function Memory) :=
  fcomps.foldlM simplifyFPCompare function

/-- A compare that `simplifyFPCompares` collects. -/
def CollectedFcmp (function : Ssa.Function Memory) (fcmpInst : Nat) : Prop :=
  ∃ format pred newPred op0 op1, strictFcmpPredicate pred = some newPred ∧
    function.Defines ⟨1, fcmpInst, .fcmp format pred op0 op1⟩

end AFLPlusPlus
