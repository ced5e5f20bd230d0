import AFLPlusPlus.Instrumentation.SplitCompares
import AFLPlusPlus.Ssa.AddedCode
import AFLPlusPlus.Support.Halves

/-!
# What the parts of a compare compute

The code that takes the place of a compare has the same value.
-/

namespace AFLPlusPlus

open Ssa

variable {Memory : Type}

theorem strictPredicate_holds {pred newPred : IcmpPredicate}
    (strict : strictPredicate pred = some newPred) {bitw : Nat}
    (first second : BitVec bitw) :
    pred.holds first second =
      (newPred.holds first second || IcmpPredicate.eq.holds first second) := by
  rw [Bool.eq_iff_iff]
  cases pred with
  | uge =>
      cases strict
      simp only [IcmpPredicate.holds, Bool.or_eq_true, decide_eq_true_eq]
      bv_omega
  | ule =>
      cases strict
      simp only [IcmpPredicate.holds, Bool.or_eq_true, decide_eq_true_eq]
      bv_omega
  | sge =>
      cases strict
      simp only [IcmpPredicate.holds, BitVec.sle_eq_slt_or_eq,
        Bool.or_eq_true, beq_iff_eq, decide_eq_true_eq, @eq_comm _ second]
  | sle =>
      cases strict
      simp only [IcmpPredicate.holds, BitVec.sle_eq_slt_or_eq,
        Bool.or_eq_true, beq_iff_eq, decide_eq_true_eq]
  | _ => cases strict

section Parts

variable {function : Ssa.Function Memory} {bb : Nat} {bitw : Nat}
  {op0 op1 : Operand bitw}

theorem orEqualsParts_yields (away : bb < function.nextLabel)
    (below0 : op0.Below function.nextReg)
    (below1 : op1.Below function.nextReg) {pred newPred : IcmpPredicate}
    (strict : strictPredicate pred = some newPred) (env : Env)
    (memory : Memory) :
    let parts := orEqualsParts function bb newPred op0 op1
    parts.Yields function.nextLabel
      (parts.entry.outcome bb (exec parts.front env memory).1
        (exec parts.front env memory).2)
      (BitVec.ofBool (pred.holds (op0.eval env) (op1.eval env))) := by
  intro parts
  rw [strictPredicate_holds strict]
  have decides : (Operand.reg function.nextReg : Operand 1).eval
      (exec parts.front env memory).1 =
        BitVec.ofBool (newPred.holds (op0.eval env) (op1.eval env)) :=
    Env.set_same _ _ _ _
  apply Expansion.Yields.branch decides
  · intro holds
    have incoming : parts.incoming.lookup bb = some (.const 1#1) := by
      apply (lookup_of_ne (by omega) _ _).trans
      exact List.lookup_cons_self
    refine .phi incoming ?_
    rw [holds]
    rfl
  · intro fails
    apply Expansion.Yields.body 0 rfl
    refine .phi List.lookup_cons_self ?_
    rw [fails, Bool.false_or, Operand.eval_reg]
    simp (disch := omega) only [parts, orEqualsParts, exec, Rhs.eval,
      Env.set_same, below0.eval_set, below1.eval_set]

/-- A strict signed compare: the sign bits decide if they differ. -/
theorem signed_holds {pred : IcmpPredicate} (signed : pred = .sgt ∨ pred = .slt)
    (first second : BitVec bitw) :
    pred.holds first second =
      if first.msb = second.msb then
        (if pred = .sgt then IcmpPredicate.ugt else .ult).holds first second
      else (if pred = .sgt then IcmpPredicate.ult else .ugt).holds
        (BitVec.ofBool first.msb) (BitVec.ofBool second.msb) := by
  rcases signed with rfl | rfl
  · split
    · rename_i same
      exact slt_of_msb_eq same.symm
    · rename_i different
      apply (slt_of_msb_ne (Ne.symm different)).trans
      revert different
      cases first.msb <;> cases second.msb <;> decide
  · split
    · rename_i same
      exact slt_of_msb_eq same
    · rename_i different
      apply (slt_of_msb_ne different).trans
      revert different
      cases first.msb <;> cases second.msb <;> decide

theorem signedParts_yields (below0 : op0.Below function.nextReg)
    (below1 : op1.Below function.nextReg) {pred : IcmpPredicate}
    (signed : pred = .sgt ∨ pred = .slt) (env : Env) (memory : Memory) :
    let parts := signedParts function pred op0 op1
    parts.Yields function.nextLabel
      (parts.entry.outcome bb (exec parts.front env memory).1
        (exec parts.front env memory).2)
      (BitVec.ofBool (pred.holds (op0.eval env) (op1.eval env))) := by
  intro parts
  rw [signed_holds signed]
  have decides : (Operand.reg (function.nextReg + 4) : Operand 1).eval
      (exec parts.front env memory).1 =
        BitVec.ofBool (decide ((op0.eval env).msb = (op1.eval env).msb)) := by
    simp (disch := omega) only [parts, signedParts, exec, Rhs.eval,
      Operand.eval_reg, Env.set_same, Env.set_of_ne, below1.eval_set,
      setWidth_shift_eq_msb, IcmpPredicate.holds, BitVec.ofBool_eq_iff_eq]
  apply Expansion.Yields.branch decides
  · intro same
    rw [if_pos (of_decide_eq_true same)]
    apply Expansion.Yields.body 1 rfl
    refine .phi List.lookup_cons_self ?_
    simp (disch := omega) only [parts, signedParts, exec, Rhs.eval,
      Operand.eval_reg, Env.set_same, below0.eval_set, below1.eval_set]
  · intro different
    rw [if_neg (of_decide_eq_false different)]
    apply Expansion.Yields.body 0 rfl
    have incoming : parts.incoming.lookup (function.nextLabel + 1) =
        some (.reg (function.nextReg + 5)) := by
      apply (lookup_of_ne (by omega) _ _).trans
      exact List.lookup_cons_self
    refine .phi incoming ?_
    simp (disch := omega) only [parts, signedParts, exec, Rhs.eval,
      Operand.eval_reg, Env.set_same, Env.set_of_ne, below1.eval_set,
      setWidth_shift_eq_msb]

theorem highHalves_local (pred : IcmpPredicate) :
    Local function.nextReg
      (highHalves function pred op0 op1) := by
  intro inst member
  simp only [highHalves, List.mem_cons, List.not_mem_nil, or_false] at member
  rcases member with rfl | rfl | rfl | rfl | rfl
  all_goals exact ⟨by simp, fun _ _ => rfl⟩

theorem highHalves_exec (op0 : Operand bitw)
    (below1 : op1.Below function.nextReg) (pred : IcmpPredicate) (env : Env)
    (memory : Memory) :
    let after := (exec (highHalves function pred op0 op1) env memory).1
    (Operand.reg (function.nextReg + 4)).eval after = BitVec.ofBool
        (pred.holds (highHalf (op0.eval env)) (highHalf (op1.eval env))) ∧
      after (bitw / 2) (function.nextReg + 1) = highHalf (op0.eval env) ∧
      after (bitw / 2) (function.nextReg + 3) = highHalf (op1.eval env) ∧
      Agree function.nextReg env after := by
  refine ⟨?_, ?_, ?_, (exec_local (highHalves_local pred) env memory).1⟩ <;>
    simp (disch := omega) only [highHalves, exec, Rhs.eval, Operand.eval_reg,
      Env.set_same, Env.set_of_ne, below1.eval_set, highHalf]

/-- The compare of the lower halves, after other code. -/
theorem lowHalves_exec (below0 : op0.Below function.nextReg)
    (below1 : op1.Below function.nextReg) (pred : IcmpPredicate) {first : Nat}
    (fresh : function.nextReg ≤ first) {env before : Env}
    (agree : Agree function.nextReg env before) (memory : Memory) :
    (exec (lowHalves pred op0 op1 first) before memory).1 1 (first + 2) =
      BitVec.ofBool (pred.holds (lowHalf (op0.eval env))
        (lowHalf (op1.eval env))) := by
  simp (disch := omega) only [lowHalves, exec, Rhs.eval, Operand.eval_reg,
    Env.set_same, Env.set_of_ne, below1.eval_set, lowHalf]
  rw [Operand.eval_agree below0 agree, Operand.eval_agree below1 agree]

/-- Equality and inequality: the upper halves decide if they differ. -/
theorem equality_holds {pred : IcmpPredicate}
    (equality : pred = .eq ∨ pred = .ne)
    (even : bitw / 2 + bitw / 2 = bitw) (first second : BitVec bitw) :
    pred.holds first second =
      if pred.holds (highHalf first) (highHalf second) = decide (pred = .eq)
      then pred.holds (lowHalf first) (lowHalf second)
      else decide (pred = .ne) := by
  have halves := eq_iff_halves even first second
  rcases equality with rfl | rfl
  · simp only [IcmpPredicate.holds, halves]
    by_cases same : highHalf first = highHalf second <;> simp [same]
  · simp only [IcmpPredicate.holds, ne_eq, halves]
    by_cases same : highHalf first = highHalf second <;> simp [same]

theorem equalityParts_yields (away : bb < function.nextLabel)
    (below0 : op0.Below function.nextReg)
    (below1 : op1.Below function.nextReg) {pred : IcmpPredicate}
    (equality : pred = .eq ∨ pred = .ne)
    (even : bitw / 2 + bitw / 2 = bitw) (env : Env) (memory : Memory) :
    let parts := equalityParts function bb pred op0 op1
    parts.Yields function.nextLabel
      (parts.entry.outcome bb (exec parts.front env memory).1
        (exec parts.front env memory).2)
      (BitVec.ofBool (pred.holds (op0.eval env) (op1.eval env))) := by
  intro parts
  rw [equality_holds equality even]
  obtain ⟨decides, _, _, agree⟩ := highHalves_exec op0 below1 pred env memory
  have low : parts.Yields function.nextLabel
      (.goto ⟨bb, function.nextLabel + 1, (exec parts.front env memory).1,
        (exec parts.front env memory).2⟩)
      (BitVec.ofBool (pred.holds (lowHalf (op0.eval env))
        (lowHalf (op1.eval env)))) := by
    apply Expansion.Yields.body 0 rfl
    refine .phi List.lookup_cons_self ?_
    exact lowHalves_exec below0 below1 pred (by omega) agree _
  have direct : parts.Yields function.nextLabel
      (.goto ⟨bb, function.nextLabel, (exec parts.front env memory).1,
        (exec parts.front env memory).2⟩)
      (BitVec.ofBool (decide (pred = .ne))) := by
    refine .phi ((lookup_of_ne (by omega) _ _).trans List.lookup_cons_self) ?_
    rcases equality with rfl | rfl
    · rfl
    · rfl
  rcases equality with rfl | rfl
  · apply Expansion.Yields.branch decides
    · intro same
      rw [same]
      exact low
    · intro different
      rw [different]
      exact direct
  · apply Expansion.Yields.branch decides
    · intro different
      rw [different]
      exact direct
    · intro same
      rw [same]
      exact low

/-- The unsigned orders: the upper halves decide if they differ. -/
theorem order_holds {pred : IcmpPredicate} (order : pred = .ugt ∨ pred = .ult)
    (even : bitw / 2 + bitw / 2 = bitw) (first second : BitVec bitw) :
    pred.holds first second =
      if pred.holds (highHalf first) (highHalf second) = true then true
      else if (if pred = .ugt then IcmpPredicate.ult else .ugt).holds
        (highHalf first) (highHalf second) = true then false
      else pred.holds (lowHalf first) (lowHalf second) := by
  have trichotomy : highHalf first < highHalf second ∨
      highHalf first = highHalf second ∨ highHalf second < highHalf first := by
    bv_omega
  rcases order with rfl | rfl
  · simp only [IcmpPredicate.holds, lt_iff_halves even second first,
      decide_eq_true_eq, if_true]
    rcases trichotomy with below | same | above
    · rw [if_neg (by bv_omega), if_pos below, decide_eq_false (by bv_omega)]
    · rw [if_neg (by bv_omega), if_neg (by bv_omega)]
      simp only [same, true_and, BitVec.lt_irrefl, false_or]
    · rw [if_pos above, decide_eq_true (.inl above)]
  · simp only [IcmpPredicate.holds, lt_iff_halves even first second,
      decide_eq_true_eq, reduceCtorEq, if_false]
    rcases trichotomy with below | same | above
    · rw [if_pos below, decide_eq_true (.inl below)]
    · rw [if_neg (by bv_omega), if_neg (by bv_omega)]
      simp only [same, true_and, BitVec.lt_irrefl, false_or]
    · rw [if_neg (by bv_omega), if_pos above, decide_eq_false (by bv_omega)]

section

variable (away : bb < function.nextLabel) (below0 : op0.Below function.nextReg)
    (below1 : op1.Below function.nextReg)
include away below0 below1

theorem orderParts_yields {pred : IcmpPredicate} (order : pred = .ugt ∨ pred = .ult)
    (even : bitw / 2 + bitw / 2 = bitw) (env : Env) (memory : Memory) :
    let parts := orderParts function bb pred op0 op1
    parts.Yields function.nextLabel
      (parts.entry.outcome bb (exec parts.front env memory).1
        (exec parts.front env memory).2)
      (BitVec.ofBool (pred.holds (op0.eval env) (op1.eval env))) := by
  intro parts
  rw [order_holds order even]
  obtain ⟨decides, high0, high1, agree⟩ := highHalves_exec op0 below1 pred env memory
  apply Expansion.Yields.branch decides
  · intro holds
    rw [if_pos holds]
    have incoming : parts.incoming.lookup bb = some (.const 1#1) := by
      apply (lookup_of_ne (by omega) _ _).trans
      exact List.lookup_cons_self
    exact .phi incoming rfl
  · intro fails
    rw [if_neg (Bool.eq_false_iff.mp fails)]
    apply Expansion.Yields.body 0 rfl
    let inverse := if pred = .ugt then IcmpPredicate.ult else .ugt
    have decides' : (Operand.reg (function.nextReg + 5) : Operand 1).eval
        (exec [⟨1, function.nextReg + 5, @Rhs.icmp Memory inverse (bitw / 2)
          (.reg (function.nextReg + 1)) (.reg (function.nextReg + 3))⟩]
          (exec parts.front env memory).1 (exec parts.front env memory).2).1 =
        BitVec.ofBool (inverse.holds (highHalf (op0.eval env))
          (highHalf (op1.eval env))) := by
      rw [← high0, ← high1]
      exact Env.set_same _ _ _ _
    apply Expansion.Yields.branch decides'
    · intro above
      rw [if_pos above]
      have incoming : parts.incoming.lookup (function.nextLabel + 1) =
          some (.const 0#1) := by
        apply (lookup_of_ne (by omega) _ _).trans
        apply (lookup_of_ne (by omega) _ _).trans
        exact List.lookup_cons_self
      exact .phi incoming rfl
    · intro notAbove
      rw [if_neg (Bool.eq_false_iff.mp notAbove)]
      apply Expansion.Yields.body 1 rfl
      refine .phi List.lookup_cons_self ?_
      exact lowHalves_exec below0 below1 pred (Nat.le_add_right _ 6)
        (agree.setFresh _ (Nat.le_add_right _ 5)) _

theorem orEqualsParts_addable (pred : IcmpPredicate) :
    (orEqualsParts function bb pred op0 op1).Addable function := by
  have later0 := below0.mono (Nat.le_add_right _ 2)
  have later1 := below1.mono (Nat.le_add_right _ 2)
  refine ⟨⟨?_, ?_, ?_, ?_, ?_, ?_, ?_⟩, ?_, ?_, ?_⟩
  all_goals simp [orEqualsParts, Expansion.insts,
    Local, Inst.Below, Rhs.Below, Rhs.eval, Terminator.Below, later0, later1]
  all_goals omega

end

theorem signedParts_addable
    (below0 : op0.Below function.nextReg)
    (below1 : op1.Below function.nextReg) (pred : IcmpPredicate) :
    (signedParts function pred op0 op1).Addable function := by
  have later0 := below0.mono (Nat.le_add_right _ 7)
  have later1 := below1.mono (Nat.le_add_right _ 7)
  refine ⟨⟨?_, ?_, ?_, ?_, ?_, ?_, ?_⟩, ?_, ?_, ?_⟩
  all_goals simp [signedParts, Expansion.insts,
    Local, Inst.Below, Rhs.Below, Rhs.eval, Terminator.Below, later0, later1]

section

variable (away : bb < function.nextLabel) (below0 : op0.Below function.nextReg)
    (below1 : op1.Below function.nextReg) (pred : IcmpPredicate)
include away below0 below1 pred

theorem equalityParts_addable :
    (equalityParts function bb pred op0 op1).Addable function := by
  have later0 := below0.mono (Nat.le_add_right _ 8)
  have later1 := below1.mono (Nat.le_add_right _ 8)
  refine ⟨⟨?_, ?_, ?entry, ?_, ?_, ?_, ?_⟩, ?_, ?_, ?_⟩
  case entry =>
      have less : function.nextReg + 4 < function.nextReg + 8 := by omega
      unfold equalityParts
      dsimp only
      split
      · exact less
      · exact less
  all_goals simp [equalityParts, highHalves, lowHalves, Expansion.insts,
    Local, Inst.Below, Rhs.Below, Rhs.eval, Terminator.Below, later0, later1]
  all_goals omega

theorem orderParts_addable :
    (orderParts function bb pred op0 op1).Addable function := by
  have later0 := below0.mono (Nat.le_add_right _ 9)
  have later1 := below1.mono (Nat.le_add_right _ 9)
  refine ⟨⟨?_, ?_, ?_, ?_, ?_, ?_, ?_⟩, ?_, ?_, ?_⟩
  all_goals simp [orderParts, highHalves, lowHalves, Expansion.insts,
    Local, Inst.Below, Rhs.Below, Rhs.eval, Terminator.Below, later0, later1]
  all_goals omega

end

section Replaces

variable (away : bb < function.nextLabel) (below0 : op0.Below function.nextReg)
  (below1 : op1.Below function.nextReg) {pred newPred : IcmpPredicate}
include below0 below1

theorem signedParts_replaces (signed : pred = .sgt ∨ pred = .slt) :
    (signedParts function pred op0 op1).Replaces function bb
      (.icmp pred op0 op1) where
  addable := signedParts_addable below0 below1 pred
  pure := fun _ _ => rfl
  yields := signedParts_yields below0 below1 signed

include away

theorem orEqualsParts_replaces (strict : strictPredicate pred = some newPred) :
    (orEqualsParts function bb newPred op0 op1).Replaces function bb
      (.icmp pred op0 op1) where
  addable := orEqualsParts_addable away below0 below1 newPred
  pure := fun _ _ => rfl
  yields := orEqualsParts_yields away below0 below1 strict

variable (even : bitw / 2 + bitw / 2 = bitw)
include even

theorem equalityParts_replaces (equality : pred = .eq ∨ pred = .ne) :
    (equalityParts function bb pred op0 op1).Replaces function bb
      (.icmp pred op0 op1) where
  addable := equalityParts_addable away below0 below1 pred
  pure := fun _ _ => rfl
  yields := equalityParts_yields away below0 below1 equality even

theorem orderParts_replaces (order : pred = .ugt ∨ pred = .ult) :
    (orderParts function bb pred op0 op1).Replaces function bb
      (.icmp pred op0 op1) where
  addable := orderParts_addable away below0 below1 pred
  pure := fun _ _ => rfl
  yields := orderParts_yields away below0 below1 order even

end Replaces

end Parts

end AFLPlusPlus
