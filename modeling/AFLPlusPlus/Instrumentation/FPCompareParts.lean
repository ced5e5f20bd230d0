import AFLPlusPlus.Instrumentation.CompareParts
import AFLPlusPlus.Instrumentation.SplitFPCompares
import AFLPlusPlus.Support.FloatOrder

/-!
# What the parts of a floating-point compare compute

The added code orders numbers by their signs and ranks.  This is their order,
but for the two zeros, which are the same number with different signs.
-/

namespace AFLPlusPlus

open Ssa

variable {Memory : Type}

def Splittable (format : FloatFormat) : Prop :=
  format = .half ∨ format = .float ∨ format = .double

/-- The sizes of the pass are those of the format. -/
structure FieldSizes (format : FloatFormat) : Prop where
  shift : shiftRExponent format.size = format.fractionBits
  exponentFits : format.exponentBits ≤ exponentWidth format.size
  exponentMask : maskExponent format.size = 2 ^ format.exponentBits - 1
  exponentWhole : ¬ format.size - fpPrecision format.size <
      exTySizeBytes format.size * 8 →
    format.exponentBits = exponentWidth format.size
  fractionMask : maskFraction format.size = 2 ^ format.fractionBits - 1
  fractionMasked : fpPrecision format.size - 1 < frTySizeBytes format.size * 8
  fractionWide : ¬ fractionWidth format.size < format.size

theorem Splittable.sizes {format : FloatFormat}
    (splittable : Splittable format) : FieldSizes format := by
  rcases splittable with rfl | rfl | rfl
  all_goals exact ⟨by decide, by decide, by decide, by decide, by decide,
    by decide, by decide⟩

variable {greater : Bool} {compare : IcmpPredicate} {width : Nat}

section Fields

theorem toNat_masked {size : Nat} (bits : BitVec size) {field : Nat}
    (fits : field ≤ width) :
    (bits.setWidth width &&& BitVec.ofNat width (2 ^ field - 1)).toNat =
      bits.toNat % 2 ^ field := by
  have mask : 2 ^ field - 1 < 2 ^ width :=
    Nat.lt_of_lt_of_le (Nat.sub_lt (Nat.two_pow_pos _) Nat.one_pos)
      (Nat.pow_le_pow_right Nat.zero_lt_two fits)
  rw [BitVec.toNat_and, BitVec.toNat_ofNat, Nat.mod_eq_of_lt mask,
    Nat.and_two_pow_sub_one_eq_mod, BitVec.toNat_setWidth,
    Nat.mod_mod_of_dvd _ (Nat.pow_dvd_pow 2 fits)]

theorem toNat_shifted {size : Nat} (bits : BitVec size) (shift : Nat) :
    (bits >>> shift).toNat = bits.toNat / 2 ^ shift := by
  rw [BitVec.toNat_ushiftRight, Nat.shiftRight_eq_div_pow]

theorem sign_eq {format : FloatFormat} (bits : BitVec format.size) :
    (bits >>> (format.size - 1)).setWidth 1 =
      BitVec.ofBool (format.negative bits) := by
  rw [setWidth_shift_eq_msb, BitVec.msb_eq_getLsbD_last]
  rfl

/-- From this environment the code finds these fields of both numbers. -/
def IsolatedField.Finds (field : IsolatedField Memory) (env : Env)
    (first second : Nat) : Prop :=
  ∀ memory, let after := (exec field.code env memory).1
    (field.first.eval after).toNat = first ∧ (field.second.eval after).toNat = second

variable {format : FloatFormat} (sizes : FieldSizes format) {n : Nat}
  {env : Env} {first second : BitVec format.size}
  (isFirst : env format.size n = first)
  (isSecond : env format.size (n + 1) = second)
include sizes isFirst isSecond

theorem isolateExponents_finds :
    (@isolateExponents Memory format.size n).Finds env
      (format.exponent first) (format.exponent second) := by
  unfold isolateExponents FloatFormat.exponent
  intro memory
  by_cases masked : format.size - fpPrecision format.size <
      exTySizeBytes format.size * 8
  · rw [if_pos masked]
    simp (disch := omega) only [List.cons_append, List.nil_append, exec,
      Rhs.eval, Operand.eval_reg, Operand.eval_const, Env.set_same,
      Env.set_of_ne, isFirst, isSecond, sizes.shift, sizes.exponentMask,
      toNat_masked _ sizes.exponentFits, toNat_shifted, and_self]
  · rw [if_neg masked]
    simp (disch := omega) only [exec, Rhs.eval, Operand.eval_reg,
      Env.set_same, Env.set_of_ne, isFirst, isSecond, sizes.shift,
      BitVec.toNat_setWidth, ← sizes.exponentWhole masked, toNat_shifted,
      and_self]

theorem isolateFractions_finds :
    (@isolateFractions Memory format.size n).Finds env
      (format.fraction first) (format.fraction second) := by
  have fits : format.fractionBits ≤ format.size := by
    unfold FloatFormat.size
    omega
  have masked : ∀ bits : BitVec format.size,
      (bits &&& BitVec.ofNat format.size (2 ^ format.fractionBits - 1)).toNat =
        format.fraction bits := by
    intro bits
    have found := toNat_masked bits fits
    rw [BitVec.setWidth_eq] at found
    exact found
  unfold isolateFractions
  intro memory
  dsimp only
  rw [if_pos sizes.fractionMasked, if_neg sizes.fractionWide]
  simp (disch := omega) only [exec, Rhs.eval, Operand.eval_reg,
    Operand.eval_const, Env.set_same, Env.set_of_ne, isFirst, isSecond,
    sizes.fractionMask, masked, and_self]

end Fields

/-- Signs and ranks are the same, so that zeros of different signs differ. -/
def sameFields (format : FloatFormat) (first second : BitVec format.size) :
    Bool :=
  decide (format.negative first = format.negative second ∧
    format.rank first = format.rank second)

/-- `ICMP_UGT` or, for `false`, `ICMP_ULT`. -/
def orderNat (greater : Bool) (first second : Nat) : Bool :=
  if greater = true then decide (second < first) else decide (first < second)

/-- The strict order by signs and ranks, which takes the negative zero for less
than the positive one. -/
def orderFields (greater : Bool) (format : FloatFormat)
    (first second : BitVec format.size) : Bool :=
  if format.negative first = format.negative second then
    orderNat (greater ^^ format.negative first) (format.rank first)
      (format.rank second)
  else if greater = true then format.negative second
  else format.negative first

theorem orderNat_flip {first second : Nat} (different : first ≠ second)
    (greater negative : Bool) :
    orderNat (greater ^^ negative) first second =
      (orderNat greater first second ^^ negative) := by
  have flip : decide (second < first) = !decide (first < second) := by
    rw [← decide_not, decide_eq_decide]
    omega
  cases negative with
  | false => simp only [Bool.xor_false]
  | true => cases greater <;> simp [orderNat, flip]

section Fields

variable {format : FloatFormat} {first second : BitVec format.size}
  (sameSign : format.negative first = format.negative second)
include sameSign

theorem sameFields_of_sign :
    sameFields format first second =
      (decide (format.exponent first = format.exponent second) &&
        decide (format.fraction first = format.fraction second)) := by
  simp only [sameFields, sameSign, true_and, FloatFormat.rank_eq_iff, Bool.decide_and]

theorem orderFields_of_exponent (greater : Bool)
    (different : format.exponent first ≠ format.exponent second) :
    orderFields greater format first second =
      (orderNat greater (format.exponent first) (format.exponent second) ^^
        format.negative first) := by
  rw [orderFields, if_pos sameSign, ← orderNat_flip different]
  simp only [orderNat, FloatFormat.rank_lt_iff, different, different.symm,
    false_and, or_false]

theorem orderFields_of_fraction (greater : Bool)
    (same : format.exponent first = format.exponent second) :
    orderFields greater format first second =
      if format.negative first = true then
        orderNat (!greater) (format.fraction first) (format.fraction second)
      else
        orderNat greater (format.fraction first) (format.fraction second) := by
  rw [orderFields, if_pos sameSign]
  cases format.negative first <;>
    simp [orderNat, FloatFormat.rank_lt_iff, same]

end Fields

theorem equality_toNat (equality : compare = .eq ∨ compare = .ne)
    (first second : BitVec width) :
    compare.holds first second =
      (decide (first.toNat = second.toNat) == decide (compare = .eq)) := by
  rcases equality with rfl | rfl
  · simp [IcmpPredicate.holds, BitVec.toNat_inj]
  · simp [IcmpPredicate.holds, BitVec.toNat_inj]

theorem order_toNat (order : compare = if greater = true then .ugt else .ult)
    (first second : BitVec width) :
    compare.holds first second = orderNat greater first.toNat second.toNat := by
  subst order
  cases greater with
  | true => rfl
  | false => rfl

section Yields

variable {function : Ssa.Function Memory} {bb : Nat} {format : FloatFormat}
  {op0 op1 : Operand format.size} {first second : BitVec format.size}

/-- The integers with the bits of the operands, and their sign bits. -/
structure SignedBits (format : FloatFormat) (n : Nat)
    (first second : BitVec format.size) (env : Env) : Prop where
  bits0 : env format.size n = first
  bits1 : env format.size (n + 1) = second
  sign0 : env 1 (n + 3) = BitVec.ofBool (format.negative first)
  sign1 : env 1 (n + 5) = BitVec.ofBool (format.negative second)

theorem SignedBits.keep {n : Nat} {env env' : Env}
    (bits : SignedBits format n first second env)
    (kept : Agree (n + 7) env env') :
    SignedBits format n first second env' where
  bits0 := (kept _ _ (by omega)).symm.trans bits.bits0
  bits1 := (kept _ _ (by omega)).symm.trans bits.bits1
  sign0 := (kept _ _ (by omega)).symm.trans bits.sign0
  sign1 := (kept _ _ (by omega)).symm.trans bits.sign1

theorem signBits_exec (below1 : op1.Below function.nextReg) {env : Env}
    (value0 : op0.eval env = first) (value1 : op1.eval env = second)
    (memory : Memory) :
    ∃ after, exec (signBits function op0 op1) env memory = (after, memory) ∧
      SignedBits format function.nextReg first second after ∧
      (Operand.reg (function.nextReg + 6) : Operand 1).eval after =
        BitVec.ofBool (decide (format.negative first = format.negative second)) := by
  refine ⟨_, rfl, ⟨?_, ?_, ?_, ?_⟩, ?_⟩
  all_goals
    simp (disch := omega) only [Rhs.eval, Operand.eval_reg, Env.set_same,
      Env.set_of_ne, below1.eval_set, value0, value1, sign_eq,
      IcmpPredicate.holds, BitVec.ofBool_eq_iff_eq]

/-- A field is isolated in registers from `low` on, and its results are below
`high`. -/
structure IsolatedField.Between (field : IsolatedField Memory)
    (low high : Nat) : Prop where
  isLocal : Local low field.code
  first : field.first.Below high
  second : field.second.Below high

theorem isolateExponents_between (size n : Nat) :
    (@isolateExponents Memory size n).Between (n + 7) (n + 13) := by
  unfold isolateExponents
  dsimp only
  split
  · refine ⟨?_, ?_, ?_⟩ <;> simp [Local, Rhs.eval]
  · refine ⟨?_, ?_, ?_⟩ <;> simp [Local, Rhs.eval]

theorem isolateFractions_between (size n : Nat) :
    (@isolateFractions Memory size n).Between (n + 13) (n + 17) := by
  unfold isolateFractions
  dsimp only
  split
  · split
    · refine ⟨?_, ?_, ?_⟩ <;> simp [Local, Rhs.eval]
    · refine ⟨?_, ?_, ?_⟩ <;> simp [Local, Rhs.eval]
  · split
    · refine ⟨?_, ?_, ?_⟩ <;> simp [Local, Rhs.eval]
    · refine ⟨?_, ?_, ?_⟩ <;> simp [Local]

/-- The fields are compared by one more instruction. -/
theorem IsolatedField.compare_exec {field : IsolatedField Memory}
    {low high value value' : Nat} (dest : Nat)
    (between : field.Between low high)
    (above : low ≤ dest ∧ high ≤ dest) {env : Env}
    (found : field.Finds env value value') (pred : IcmpPredicate)
    (memory : Memory) :
    ∃ after, exec (field.code ++
        [⟨1, dest, .icmp pred field.first field.second⟩]) env memory =
        (after, memory) ∧
      (field.first.eval after).toNat = value ∧
      (field.second.eval after).toNat = value' ∧
      (Operand.reg dest : Operand 1).eval after = BitVec.ofBool
        (pred.holds (field.first.eval after) (field.second.eval after)) ∧
      Agree low env after := by
  obtain ⟨kept, same⟩ := exec_local between.isLocal env memory
  obtain ⟨isFirst, isSecond⟩ := found memory
  refine ⟨(exec field.code env memory).1.set 1 dest (BitVec.ofBool
    (pred.holds (field.first.eval (exec field.code env memory).1)
      (field.second.eval (exec field.code env memory).1))), ?_, ?_⟩
  · rw [exec_append]
    exact Prod.ext rfl same
  · rw [between.first.eval_set _ _ above.2, between.second.eval_set _ _ above.2]
    exact ⟨isFirst, isSecond, Env.set_same _ _ _ _, kept.setFresh _ above.1⟩

/-- A block without phi nodes, run to its end. -/
theorem yields_ran {expansion : Expansion Memory} {last prev : Nat}
    {env after : Env} {memory memory' : Memory} {value : BitVec 1}
    (position : Nat) {insts : List (Inst Memory)} {term : Terminator}
    (found : expansion.fragments[position]? = some ⟨[], insts, term⟩)
    (ran : exec insts env memory = (after, memory'))
    (rest : expansion.Yields last
      (term.outcome (last + 1 + position) after memory') value) :
    expansion.Yields last (.goto ⟨prev, last + 1 + position, env, memory⟩)
      value := by
  apply Expansion.Yields.body position found
  rw [ran]
  exact rest

theorem fpEqualityParts_yields (sizes : FieldSizes format)
    (away : bb < function.nextLabel) (below1 : op1.Below function.nextReg)
    (equality : compare = .eq ∨ compare = .ne) {env : Env} (value0 : op0.eval env = first)
    (value1 : op1.eval env = second) (memory : Memory) :
    let parts := fpEqualityParts function bb op0 op1 compare
    parts.Yields function.nextLabel
      (parts.entry.outcome bb (exec parts.front env memory).1
        (exec parts.front env memory).2)
      (BitVec.ofBool (sameFields format first second == decide (compare = .eq))) := by
  intro parts
  obtain ⟨after, front, bits, signs⟩ := signBits_exec below1 value0 value1 memory
  have ranFront : exec parts.front env memory = (after, memory) := front
  rw [ranFront]
  apply Expansion.Yields.branch signs
  · intro same
    rw [sameFields_of_sign (of_decide_eq_true same)]
    obtain ⟨after', ran, exponent, exponent', compared, kept⟩ :=
      IsolatedField.compare_exec (function.nextReg + 17)
        (isolateExponents_between format.size function.nextReg) (by omega)
        (isolateExponents_finds sizes bits.bits0 bits.bits1) compare memory
    rw [equality_toNat equality, exponent, exponent'] at compared
    have bits' := bits.keep kept
    obtain ⟨after'', ran', fraction, fraction', compared', _⟩ :=
      IsolatedField.compare_exec (function.nextReg + 18)
        (isolateFractions_between format.size function.nextReg) (by omega)
        (isolateFractions_finds sizes bits'.bits0 bits'.bits1) compare memory
    rw [equality_toNat equality, fraction, fraction'] at compared'
    have middle : parts.Yields function.nextLabel
        (.goto ⟨function.nextLabel + 1, function.nextLabel + 2, after', memory⟩)
        (BitVec.ofBool (decide (format.fraction first =
          format.fraction second) == decide (compare = .eq))) := by
      refine yields_ran 1 rfl ran' (.phi ?_ compared')
      rcases equality with rfl | rfl
      · apply (lookup_of_ne (by omega) _ _).trans
        exact (lookup_of_ne (by omega) _ _).trans List.lookup_cons_self
      · apply (lookup_of_ne (by omega) _ _).trans
        exact (lookup_of_ne (by omega) _ _).trans List.lookup_cons_self
    have direct : (parts.incoming.lookup (function.nextLabel + 1)) =
        some (if compare = .eq then .const 0#1
          else .reg (function.nextReg + 17)) := by
      rcases equality with rfl | rfl
      · exact (lookup_of_ne (by omega) _ _).trans List.lookup_cons_self
      · exact (lookup_of_ne (by omega) _ _).trans List.lookup_cons_self
    refine yields_ran 0 rfl ran ?_
    cases exponents : decide (format.exponent first = format.exponent second) with
    | true =>
        rw [exponents] at compared
        rw [Bool.true_and]
        rcases equality with rfl | rfl
        · exact .branch compared (fun _ => middle) nofun
        · exact .branch compared nofun (fun _ => middle)
    | false =>
        rw [exponents] at compared
        rw [Bool.false_and]
        rcases equality with rfl | rfl
        · exact .branch compared nofun (fun _ => .phi direct rfl)
        · exact .branch compared (fun _ => .phi direct compared) nofun
  · intro different
    have value : sameFields format first second = false :=
      decide_eq_false fun same => of_decide_eq_false different same.1
    rw [value]
    rcases equality with rfl | rfl
    · exact .phi List.lookup_cons_self rfl
    · exact .phi List.lookup_cons_self rfl

theorem fpOrderParts_joins {compare inverse : IcmpPredicate}
    (away : bb < function.nextLabel) {label reg : Nat} {env : Env}
    {memory : Memory} {value : BitVec 1} :
    let n := function.nextReg
    let parts := fpOrderParts function bb op0 op1 compare inverse
    let incoming : List (Nat × Operand 1) :=
      [(function.nextLabel + 5, .reg (n + 20)),
        (function.nextLabel + 6, .reg (n + 21))]
    incoming.lookup label = some (.reg reg) → env 1 reg = value →
    parts.Yields function.nextLabel
      (.goto ⟨label, function.nextLabel + 1 + 3, env, memory⟩) value := by
  intro n parts incoming arrives isValue
  have run : Block.run ⟨[⟨1, n + 22, incoming⟩], [], .br function.nextLabel⟩
      ⟨label, function.nextLabel + 1 + 3, env, memory⟩ =
      some (.goto ⟨function.nextLabel + 1 + 3, function.nextLabel,
        env.set 1 (n + 22) value, memory⟩) := by
    simp only [Block.run, execPhis, arrives, Operand.eval_reg, isValue]
    rfl
  have last : parts.incoming.lookup (function.nextLabel + 1 + 3) =
      some (.reg (n + 22)) := by
    apply (lookup_of_ne (by omega) _ _).trans
    exact (lookup_of_ne (by omega) _ _).trans List.lookup_cons_self
  have found : parts.fragments[3]? =
      some ⟨[⟨1, n + 22, incoming⟩], [], .br function.nextLabel⟩ := rfl
  refine .fragment rfl found run (.phi last ?_)
  exact Env.set_same _ _ _ _

theorem fpOrderParts_yields (sizes : FieldSizes format) (away : bb < function.nextLabel)
    (below1 : op1.Below function.nextReg) {inverse : IcmpPredicate}
    (predicates : greater = true ∧ compare = .ugt ∧ inverse = .ult ∨
      greater = false ∧ compare = .ult ∧ inverse = .ugt) {env : Env}
    (value0 : op0.eval env = first) (value1 : op1.eval env = second) (memory : Memory) :
    let parts := fpOrderParts function bb op0 op1 compare inverse
    parts.Yields function.nextLabel
      (parts.entry.outcome bb (exec parts.front env memory).1
        (exec parts.front env memory).2)
      (BitVec.ofBool (orderFields greater format first second)) := by
  intro parts
  have order : compare = if greater = true then .ugt else .ult := by
    rcases predicates with ⟨rfl, rfl, _⟩ | ⟨rfl, rfl, _⟩ <;> rfl
  have reverse : inverse = if (!greater) = true then .ugt else .ult := by
    rcases predicates with ⟨rfl, _, rfl⟩ | ⟨rfl, _, rfl⟩ <;> rfl
  obtain ⟨after, front, bits, signs⟩ := signBits_exec below1 value0 value1 memory
  have ranFront : exec parts.front env memory = (after, memory) := front
  rw [ranFront]
  apply Expansion.Yields.branch signs
  · intro same
    have sameSign := of_decide_eq_true same
    obtain ⟨after', ran, exponent, exponent', compared, kept⟩ :=
      IsolatedField.compare_exec (function.nextReg + 17)
        (isolateExponents_between format.size function.nextReg) (by omega)
        (isolateExponents_finds sizes bits.bits0 bits.bits1) .eq memory
    rw [equality_toNat (.inl rfl), exponent, exponent',
      decide_eq_true rfl, beq_true] at compared
    have bits' := bits.keep kept
    refine yields_ran 0 rfl ran ?_
    apply Expansion.Yields.branch compared
    · intro same'
      rw [orderFields_of_fraction sameSign _ (of_decide_eq_true same')]
      obtain ⟨isLocal, belowFirst, belowSecond⟩ :=
        @isolateFractions_between Memory format.size function.nextReg
      obtain ⟨kept', same''⟩ := exec_local isLocal after' memory
      have found := isolateFractions_finds sizes bits'.bits0 bits'.bits1 memory
      have bits'' := bits'.keep (kept'.mono (by omega))
      generalize isRan : (exec (isolateFractions format.size
        function.nextReg).code after' memory).1 = after'' at found bits''
      refine yields_ran 1 rfl (Prod.ext isRan same'') ?_
      have joins := @fpOrderParts_joins _ function bb _ op0 op1 compare inverse
        away
      have negative : (Operand.reg (function.nextReg + 3) : Operand 1).eval
          after'' = BitVec.ofBool (format.negative first) := bits''.sign0
      apply Expansion.Yields.branch negative
      · intro isNegative
        rw [if_pos isNegative]
        refine yields_ran 4 rfl rfl (joins List.lookup_cons_self ?_)
        rw [← found.1, ← found.2, ← order_toNat reverse]
        exact Env.set_same _ _ _ _
      · intro isPositive
        rw [if_neg (Bool.eq_false_iff.mp isPositive)]
        refine yields_ran 5 rfl rfl (joins
          ((lookup_of_ne (by omega) _ _).trans List.lookup_cons_self) ?_)
        rw [← found.1, ← found.2, ← order_toNat order]
        exact Env.set_same _ _ _ _
    · intro different
      rw [orderFields_of_exponent sameSign _ (of_decide_eq_false different)]
      refine yields_ran 2 rfl rfl (.phi ((lookup_of_ne (by omega) _ _).trans
        List.lookup_cons_self) ?_)
      have sign0 := bits'.sign0
      simp (disch := omega) only [Rhs.eval, Operand.eval_reg,
        Env.set_same, Env.set_of_ne, sign0, order_toNat order, exponent,
        exponent']
      exact BitVec.ofBool_xor_ofBool
  · intro different
    rw [orderFields, if_neg (of_decide_eq_false different)]
    refine .phi List.lookup_cons_self ?_
    subst order
    cases greater with
    | true => exact bits.sign1
    | false => exact bits.sign0

end Yields

/-- Zeros of different signs, which are the same number, are not the same for
the parts.  Of the strict orders only the one from the negative zero up to the
positive one goes wrong. -/
def Misjudges (pred : FcmpPredicate) (format : FloatFormat)
    (first second : BitVec format.size) : Prop :=
  format.IsZero first ∧ format.IsZero second ∧
    format.negative first ≠ format.negative second ∧
    match pred with
    | .ogt | .ugt => format.negative second = true
    | .olt | .ult => format.negative first = true
    | _ => True

section Numbers

variable {format : FloatFormat} {first second : BitVec format.size}
  (wide : 0 < format.exponentBits) (number0 : format.Number first)
  (number1 : format.Number second)
include wide number0 number1

theorem sameFields_iff {pred : FcmpPredicate}
    (equality : pred = .oeq ∨ pred = .ueq ∨ pred = .one ∨ pred = .une) :
    (sameFields format first second == decide (pred = .oeq ∨ pred = .ueq)) =
        pred.holds ((format.value first).compare (format.value second)) ↔
      ¬ Misjudges pred format first second := by
  rw [FloatFormat.compare_value wide number0 number1]
  unfold Misjudges sameFields
  rw [← FloatFormat.rank_eq_zero, ← FloatFormat.rank_eq_zero]
  unfold FloatFormat.signedRank FloatValue.orderUnits FloatFormat.signed
  rcases equality with rfl | rfl | rfl | rfl <;>
    simp only [FcmpPredicate.holds] <;> grind

theorem orderFields_iff {pred : FcmpPredicate}
    (order : (pred = .ogt ∨ pred = .ugt) ∧ greater = true ∨
      (pred = .olt ∨ pred = .ult) ∧ greater = false) :
    orderFields greater format first second =
        pred.holds ((format.value first).compare (format.value second)) ↔
      ¬ Misjudges pred format first second := by
  rw [FloatFormat.compare_value wide number0 number1]
  unfold Misjudges orderFields orderNat
  rw [← FloatFormat.rank_eq_zero, ← FloatFormat.rank_eq_zero]
  unfold FloatFormat.signedRank FloatValue.orderUnits FloatFormat.signed
  rcases order with ⟨rfl | rfl, rfl⟩ | ⟨rfl | rfl, rfl⟩ <;>
    simp only [FcmpPredicate.holds] <;> grind

end Numbers

section Compare

variable {function : Ssa.Function Memory} {dest : Nat} {format : FloatFormat}
  {pred : FcmpPredicate} {op0 op1 : Operand format.size}

theorem fcmpAt_of_defines (wellFormed : function.WellFormed)
    (defines : function.Defines ⟨1, dest, .fcmp format pred op0 op1⟩) :
    ∃ loc, fcmpAt function dest = some (loc, pred, ⟨format, op0, op1⟩) ∧
      loc.inst = ⟨1, dest, .fcmp format pred op0 op1⟩ ∧
      function.blocks loc.label = some loc.block ∧
      loc.label < function.nextLabel ∧ op0.Below function.nextReg ∧
      op1.Below function.nextReg := by
  obtain ⟨loc, located, isInst, isBlock, away, below⟩ := defines.locate wellFormed
  refine ⟨loc, ?_, isInst, isBlock, away, below.2⟩
  simp only [fcmpAt, located, isInst]

theorem Splittable.size_le (splittable : Splittable format) : format.size ≤ 64 := by
  rcases splittable with rfl | rfl | rfl
  all_goals decide

theorem Splittable.wide (splittable : Splittable format) :
    0 < format.exponentBits := by
  rcases splittable with rfl | rfl | rfl
  all_goals decide

/-- The parts compute the predicate on numbers exactly where it is not
misjudged. -/
theorem fpParts_yields (splittable : Splittable format) {bb : Nat}
    (away : bb < function.nextLabel) (below1 : op1.Below function.nextReg)
    {parts : Expansion Memory}
    (isParts : fpParts function bb pred op0 op1 = some parts) {env : Env}
    (number0 : format.Number (op0.eval env))
    (number1 : format.Number (op1.eval env)) (memory : Memory) :
    ∃ decision, parts.Yields function.nextLabel
        (parts.entry.outcome bb (exec parts.front env memory).1
          (exec parts.front env memory).2) (BitVec.ofBool decision) ∧
      (decision = pred.holds ((format.value (op0.eval env)).compare
          (format.value (op1.eval env))) ↔
        ¬ Misjudges pred format (op0.eval env) (op1.eval env)) := by
  have sizes := splittable.sizes
  have wide := splittable.wide
  cases pred with
  | oeq =>
      obtain rfl := Option.some.inj isParts
      exact ⟨_, fpEqualityParts_yields sizes away below1 (.inl rfl) rfl rfl
        memory, sameFields_iff wide number0 number1 (.inl rfl)⟩
  | ueq =>
      obtain rfl := Option.some.inj isParts
      exact ⟨_, fpEqualityParts_yields sizes away below1 (.inl rfl) rfl rfl
        memory, sameFields_iff wide number0 number1 (.inr (.inl rfl))⟩
  | one =>
      obtain rfl := Option.some.inj isParts
      exact ⟨_, fpEqualityParts_yields sizes away below1 (.inr rfl) rfl rfl
        memory, sameFields_iff wide number0 number1 (.inr (.inr (.inl rfl)))⟩
  | une =>
      obtain rfl := Option.some.inj isParts
      exact ⟨_, fpEqualityParts_yields sizes away below1 (.inr rfl) rfl rfl
        memory, sameFields_iff wide number0 number1 (.inr (.inr (.inr rfl)))⟩
  | ogt =>
      obtain rfl := Option.some.inj isParts
      exact ⟨_, fpOrderParts_yields sizes away below1 (.inl ⟨rfl, rfl, rfl⟩)
        rfl rfl memory,
        orderFields_iff wide number0 number1 (.inl ⟨.inl rfl, rfl⟩)⟩
  | ugt =>
      obtain rfl := Option.some.inj isParts
      exact ⟨_, fpOrderParts_yields sizes away below1 (.inl ⟨rfl, rfl, rfl⟩)
        rfl rfl memory,
        orderFields_iff wide number0 number1 (.inl ⟨.inr rfl, rfl⟩)⟩
  | olt =>
      obtain rfl := Option.some.inj isParts
      exact ⟨_, fpOrderParts_yields sizes away below1 (.inr ⟨rfl, rfl, rfl⟩)
        rfl rfl memory,
        orderFields_iff wide number0 number1 (.inr ⟨.inl rfl, rfl⟩)⟩
  | ult =>
      obtain rfl := Option.some.inj isParts
      exact ⟨_, fpOrderParts_yields sizes away below1 (.inr ⟨rfl, rfl, rfl⟩)
        rfl rfl memory,
        orderFields_iff wide number0 number1 (.inr ⟨.inr rfl, rfl⟩)⟩
  | oge => cases isParts
  | uge => cases isParts
  | ole => cases isParts
  | ule => cases isParts

theorem fpParts_of_collected (function : Ssa.Function Memory)
    (op0 op1 : Operand format.size)
    (collected : collectedPredicate pred = true) (bb : Nat) :
    ∃ parts, fpParts function bb pred op0 op1 = some parts := by
  cases pred <;> first | exact ⟨_, rfl⟩ | cases collected

/-- The added code gives the result of the compare of two numbers if and only if
these are not zeros that it takes for different numbers. -/
theorem splitFPCompare_yields_iff (wellFormed : function.WellFormed)
    (defines : function.Defines ⟨1, dest, .fcmp format pred op0 op1⟩)
    (splittable : Splittable format)
    (collected : collectedPredicate pred = true) :
    ∃ loc parts, function.blocks loc.label = some loc.block ∧
      loc.inst = ⟨1, dest, .fcmp format pred op0 op1⟩ ∧
      splitFPCompare function dest = some (function.expand loc parts) ∧
      ∀ env memory, format.Number (op0.eval env) → format.Number (op1.eval env) →
        (parts.Yields function.nextLabel
            (parts.entry.outcome loc.label (exec parts.front env memory).1
              (exec parts.front env memory).2)
            ((Rhs.fcmp format pred op0 op1).eval env memory).2 ↔
          ¬ Misjudges pred format (op0.eval env) (op1.eval env)) := by
  obtain ⟨loc, found, isInst, isBlock, away, _, below1⟩ :=
    fcmpAt_of_defines wellFormed defines
  obtain ⟨parts, isParts⟩ := fpParts_of_collected function op0 op1 collected loc.label
  refine ⟨loc, parts, isBlock, isInst, ?_, ?_⟩
  · have size := splittable.size_le
    simp only [splitFPCompare, found, collected, Bool.true_eq_false,
      Nat.not_lt_of_ge size, or_self, if_false, isParts, Option.map_some]
  · intro env memory number0 number1
    obtain ⟨decision, yields, iff⟩ := fpParts_yields splittable away below1
      isParts number0 number1 memory
    rw [← iff, yields.yields_iff]
    exact BitVec.ofBool_eq_iff_eq

end Compare

/-- A function that compares its two arguments. -/
def floatCompare (pred : FcmpPredicate) : Ssa.Function Unit where
  blocks := fun label =>
    if label = 0 then
      some ⟨[], [⟨1, 2, .fcmp .float pred (.reg 0) (.reg 1)⟩], .ret (some ⟨1, .reg 2⟩)⟩
    else none
  nextLabel := 1
  nextReg := 3

section FloatCompare

variable {pred : FcmpPredicate}

theorem floatCompare_single : (floatCompare pred).Single
    ⟨1, 2, .fcmp .float pred (.reg 0) (.reg 1)⟩ (.ret (some ⟨1, .reg 2⟩)) :=
  fun _ => rfl

theorem floatCompare_wellFormed : (floatCompare pred).WellFormed :=
  floatCompare_single.wellFormed Nat.zero_lt_one
    ⟨Nat.lt_succ_self 2, Nat.zero_lt_succ 2,
      Nat.succ_lt_succ (Nat.zero_lt_succ 1)⟩ (Nat.lt_succ_self 2)

theorem floatCompare_defines : (floatCompare pred).Defines
    ⟨1, 2, .fcmp .float pred (.reg 0) (.reg 1)⟩ :=
  floatCompare_single.defines

end FloatCompare

theorem splitFPCompare_yields_iff_oeq :
    ∃ loc parts, (floatCompare .oeq).blocks loc.label = some loc.block ∧
      loc.inst = ⟨1, 2, .fcmp .float .oeq (.reg 0) (.reg 1)⟩ ∧
      splitFPCompare (floatCompare .oeq) 2 =
        some ((floatCompare .oeq).expand loc parts) ∧
      ∀ env memory, FloatFormat.float.Number (env 32 0) →
        FloatFormat.float.Number (env 32 1) →
        (parts.Yields 1
            (parts.entry.outcome loc.label (exec parts.front env memory).1
              (exec parts.front env memory).2)
            ((@Rhs.fcmp Unit .float .oeq (.reg 0) (.reg 1)).eval env memory).2 ↔
          ¬ Misjudges .oeq .float (env 32 0) (env 32 1)) :=
  splitFPCompare_yields_iff floatCompare_wellFormed floatCompare_defines
    (.inr (.inl rfl)) rfl

def zeroArguments : Env := fun width id =>
  BitVec.ofNat width (if id = 1 then 0x80000000 else 0)

/-- Both are numbers, and `0.0 == -0.0` is true but found false. -/
theorem splitFPCompare_zeros :
    FloatFormat.float.Number (zeroArguments 32 0) ∧
      FloatFormat.float.Number (zeroArguments 32 1) ∧
      ∃ loc parts, splitFPCompare (floatCompare .oeq) 2 =
          some ((floatCompare .oeq).expand loc parts) ∧
        ((@Rhs.fcmp Unit .float .oeq (.reg 0) (.reg 1)).eval
          zeroArguments ()).2 = 1#1 ∧
        ¬ parts.Yields 1
          (parts.entry.outcome loc.label (exec parts.front zeroArguments ()).1
            (exec parts.front zeroArguments ()).2) 1#1 := by
  have number0 : FloatFormat.float.Number (zeroArguments 32 0) := nofun
  have number1 : FloatFormat.float.Number (zeroArguments 32 1) := nofun
  obtain ⟨loc, found, _, _, away, _, below1⟩ := fcmpAt_of_defines
    (@floatCompare_wellFormed .oeq) floatCompare_defines
  let parts : Expansion Unit := @fpEqualityParts Unit (floatCompare .oeq)
    loc.label 32 (.reg 0) (.reg 1) .eq
  refine ⟨number0, number1, loc, parts, ?_, ?_, ?_⟩
  · simp only [splitFPCompare, found]
    rfl
  · rfl
  · intro right
    have value0 : (Operand.reg 0 : Operand 32).eval zeroArguments = 0#32 := rfl
    have value1 : (Operand.reg 1 : Operand 32).eval zeroArguments =
        0x80000000#32 := rfl
    have computes := fpEqualityParts_yields (Splittable.sizes (.inr (.inl rfl)))
      away below1 (.inl rfl) value0 value1 ()
    have wrong := computes.unique right
    revert wrong
    decide

theorem strictFcmpPredicate_holds {pred newPred : FcmpPredicate}
    (strict : strictFcmpPredicate pred = some newPred)
    (comparison : Option Ordering) :
    pred.holds comparison =
      (newPred.holds comparison || FcmpPredicate.oeq.holds comparison) := by
  rcases comparison with _ | _ | _ | _ <;> cases pred <;> cases strict <;> rfl

section Simplify

variable {function : Ssa.Function Memory} {dest bb : Nat}
  {format : FloatFormat} {pred newPred : FcmpPredicate}
  {op0 op1 : Operand format.size}

theorem fpOrEqualsParts_replaces (away : bb < function.nextLabel)
    (below0 : op0.Below function.nextReg) (below1 : op1.Below function.nextReg)
    (strict : strictFcmpPredicate pred = some newPred) :
    (fpOrEqualsParts function bb format newPred op0 op1).Replaces function bb
      (.fcmp format pred op0 op1) where
  addable := by
    have later0 := below0.mono (Nat.le_add_right _ 2)
    have later1 := below1.mono (Nat.le_add_right _ 2)
    refine ⟨⟨?_, ?_, ?_, ?_, ?_, ?_, ?_⟩, ?_, ?_, ?_⟩
    all_goals simp [fpOrEqualsParts, Expansion.insts, Local, Inst.Below,
      Rhs.Below, Rhs.eval, Terminator.Below, later0, later1]
    all_goals omega
  pure := fun _ _ => rfl
  yields := by
    intro env memory
    let parts := fpOrEqualsParts function bb format newPred op0 op1
    have value : ((Rhs.fcmp format pred op0 op1).eval env memory).2 =
        BitVec.ofBool (pred.holds ((format.value (op0.eval env)).compare
          (format.value (op1.eval env)))) := rfl
    rw [value, strictFcmpPredicate_holds strict]
    have decides : (Operand.reg function.nextReg : Operand 1).eval
        (exec parts.front env memory).1 =
          BitVec.ofBool (newPred.holds ((format.value (op0.eval env)).compare
            (format.value (op1.eval env)))) := Env.set_same _ _ _ _
    apply Expansion.Yields.branch decides
    · intro holds
      have incoming : parts.incoming.lookup bb = some (.const 1#1) := by
        apply (lookup_of_ne (by omega) _ _).trans
        exact List.lookup_cons_self
      refine .phi incoming ?_
      rw [holds]
      rfl
    · intro fails
      apply Expansion.Yields.body 0 rfl
      refine .phi List.lookup_cons_self ?_
      rw [fails, Bool.false_or, Operand.eval_reg]
      simp (disch := omega) only [parts, fpOrEqualsParts, exec, Rhs.eval,
        Env.set_same, below0.eval_set, below1.eval_set]

/-- Unlike `splitFPCompares`, this keeps the meaning for all operands. -/
theorem simplifyFPCompare_replaced (wellFormed : function.WellFormed)
    (defines : function.Defines ⟨1, dest, .fcmp format pred op0 op1⟩)
    (strict : strictFcmpPredicate pred = some newPred) :
    ∃ next, simplifyFPCompare function dest = some next ∧
      function.Replaced dest next := by
  obtain ⟨loc, found, isInst, isBlock, away, below0, below1⟩ :=
    fcmpAt_of_defines wellFormed defines
  refine ⟨_, ?_, wellFormed.replaced_expand isBlock isInst
    (fpOrEqualsParts_replaces away below0 below1 strict)⟩
  simp only [simplifyFPCompare, found, strict, Option.map_some]

/-- All collected compares are replaced, nothing else is, and the function does
what it did. -/
theorem simplifyFPCompares_refines {fcomps : List Nat} (wellFormed : function.WellFormed)
    (distinct : fcomps.Nodup)
    (collected : ∀ fcmpInst ∈ fcomps, CollectedFcmp function fcmpInst) :
    ∃ next, simplifyFPCompares fcomps function = some next ∧ next.WellFormed ∧
      function.Refines next ∧
      ∀ inst, function.Defines inst → inst.dest ∉ fcomps → next.Defines inst := by
  induction fcomps generalizing function with
  | nil =>
      exact ⟨function, rfl, wellFormed, .refl wellFormed.below, fun _ defines _ => defines⟩
  | cons fcmpInst rest induction =>
      obtain ⟨format, pred, newPred, op0, op1, strict, defines⟩ :=
        collected fcmpInst List.mem_cons_self
      obtain ⟨middle, simplified, replaced⟩ :=
        simplifyFPCompare_replaced wellFormed defines strict
      obtain ⟨apart, distinct⟩ := List.nodup_cons.mp distinct
      have later : ∀ other ∈ rest, CollectedFcmp middle other := by
        intro other member
        obtain ⟨format, pred, newPred, op0, op1, strict, defines⟩ :=
          collected other (.tail _ member)
        exact ⟨format, pred, newPred, op0, op1, strict,
          replaced.keeps _ defines (ne_of_mem_of_not_mem member apart)⟩
      obtain ⟨next, ran, wellFormed, refines, keeps⟩ :=
        induction replaced.wellFormed distinct later
      refine ⟨next, ?_, wellFormed, replaced.refines.trans refines, ?_⟩
      · rw [simplifyFPCompares, List.foldlM_cons, simplified]
        exact ran
      · intro inst defines others
        rw [List.mem_cons, not_or] at others
        exact keeps inst (replaced.keeps inst defines others.1) others.2

theorem simplifyFPCompares_refines_oge :
    ∃ next, simplifyFPCompares [2] (floatCompare .oge) = some next ∧
      (floatCompare .oge).Refines next := by
  have collected : ∀ fcmpInst ∈ [2], CollectedFcmp (floatCompare .oge) fcmpInst := by
    intro fcmpInst member
    rw [List.mem_singleton.mp member]
    exact ⟨.float, .oge, .ogt, _, _, rfl, floatCompare_defines⟩
  obtain ⟨next, ran, _, refines, _⟩ := simplifyFPCompares_refines
    floatCompare_wellFormed (List.nodup_singleton 2) collected
  exact ⟨next, ran, refines⟩

end Simplify

end AFLPlusPlus
