import AFLPlusPlus.Instrumentation.CompareParts

/-!
# Splitting integer compares keeps their meaning

Every compare on the worklist has the target width times a power of two.
Splitting one leaves compares of half the width, so that the loop ends.
-/

namespace AFLPlusPlus

open Ssa

variable {Memory : Type}

/-- The register is defined by a compare of numbers of `bitw` bits. -/
def HasCompare (function : Ssa.Function Memory) (bitw dest : Nat) : Prop :=
  ∃ (pred : IcmpPredicate) (op0 op1 : Operand bitw),
    function.Defines ⟨1, dest, .icmp pred op0 op1⟩

theorem icmpAt_of_defines {function : Ssa.Function Memory}
    (wellFormed : function.WellFormed) {dest bitw : Nat}
    {pred : IcmpPredicate} {op0 op1 : Operand bitw}
    (defines : function.Defines ⟨1, dest, .icmp pred op0 op1⟩) :
    ∃ loc, icmpAt function dest = some (loc, pred, ⟨bitw, op0, op1⟩) ∧
      loc.inst = ⟨1, dest, .icmp pred op0 op1⟩ ∧
      function.blocks loc.label = some loc.block ∧
      loc.label < function.nextLabel ∧ op0.Below function.nextReg ∧
      op1.Below function.nextReg := by
  obtain ⟨loc, located, isInst, isBlock, away, below⟩ := defines.locate wellFormed
  refine ⟨loc, ?_, isInst, isBlock, away, below.2⟩
  simp only [icmpAt, located, isInst]

theorem HasCompare.lt {function : Ssa.Function Memory}
    (wellFormed : function.WellFormed) {bitw dest : Nat}
    (compare : HasCompare function bitw dest) : dest < function.nextReg := by
  obtain ⟨pred, op0, op1, defines⟩ := compare
  obtain ⟨label, block, isBlock, member⟩ := defines.here
  exact ((wellFormed.below label block isBlock).body _ member).1

variable {levels worklist : List Nat} {bb : Nat} {next : Ssa.Function Memory}

theorem HasCompare.keep {function : Ssa.Function Memory} {cmp : Nat}
    (replaced : function.Replaced cmp next) {bitw dest : Nat}
    (compare : HasCompare function bitw dest) (other : dest ≠ cmp) :
    HasCompare next bitw dest := by
  obtain ⟨pred, op0, op1, defines⟩ := compare
  exact ⟨pred, op0, op1, replaced.keeps _ defines other⟩

/-- The predicates that `splitCompare` can split. -/
def SplitPredicate (pred : IcmpPredicate) : Prop :=
  pred = .eq ∨ pred = .ne ∨ pred = .ugt ∨ pred = .ult

/-- What `splitCompare` puts in the place of a compare. -/
def splitParts (function : Ssa.Function Memory) (bb : Nat)
    (pred : IcmpPredicate) {bitw : Nat} (op0 op1 : Operand bitw) :
    Expansion Memory :=
  if pred = .eq ∨ pred = .ne then equalityParts function bb pred op0 op1
  else orderParts function bb pred op0 op1

/-- The compares that it adds to the worklist: their registers, from `n` on, and
their predicates. -/
def splitHalves (n targetBitwidth bitw : Nat) (pred : IcmpPredicate) :
    List (Nat × IcmpPredicate) :=
  let inverse := if pred = .ugt then .ult else .ugt
  if pred = .eq ∨ pred = .ne then
    if targetBitwidth < bitw / 2 then [(n + 7, pred), (n + 4, pred)] else []
  else if targetBitwidth < bitw / 2 then
    [(n + 8, pred), (n + 4, pred), (n + 5, inverse)]
  else [(n + 5, inverse)]

section Halves

variable {function : Ssa.Function Memory} {targetBitwidth cmp bitw n : Nat}
  {pred : IcmpPredicate} {op0 op1 : Operand bitw} {loc : Location Memory}

section Compare

variable (found : icmpAt function cmp = some (loc, pred, ⟨bitw, op0, op1⟩))
include found

theorem splitCompare_refused (unsupported : ¬SplitPredicate pred) :
    splitCompare targetBitwidth function cmp = none := by
  simp only [SplitPredicate, not_or] at unsupported
  simp only [splitCompare, found]
  cases pred with
  | eq => exact absurd rfl unsupported.1
  | ne => exact absurd rfl unsupported.2.1
  | ugt => exact absurd rfl unsupported.2.2.1
  | ult => exact absurd rfl unsupported.2.2.2
  | _ => rfl

variable (supported : SplitPredicate pred)
include supported

theorem splitCompare_same (same : bitw = targetBitwidth) :
    splitCompare targetBitwidth function cmp = some (function, []) := by
  rcases supported with rfl | rfl | rfl | rfl
  all_goals simp only [splitCompare, found, if_pos same]

theorem splitCompare_eq (different : bitw ≠ targetBitwidth) :
    splitCompare targetBitwidth function cmp =
      some (function.expand loc (splitParts function loc.label pred op0 op1),
        (splitHalves function.nextReg targetBitwidth bitw pred).map
          Prod.fst) := by
  rcases supported with rfl | rfl | rfl | rfl
  all_goals
    simp only [splitCompare, found, if_neg different, splitParts, splitHalves]
    split <;> simp

end Compare

section

variable (away : bb < function.nextLabel) (below0 : op0.Below function.nextReg)
    (below1 : op1.Below function.nextReg)
include away below0 below1

theorem splitParts_addable (pred : IcmpPredicate) :
    (splitParts function bb pred op0 op1).Addable function := by
  unfold splitParts
  split
  · exact equalityParts_addable away below0 below1 pred
  · exact orderParts_addable away below0 below1 pred

theorem splitParts_replaces (even : bitw / 2 + bitw / 2 = bitw)
    (supported : SplitPredicate pred) :
    (splitParts function bb pred op0 op1).Replaces function bb
      (.icmp pred op0 op1) := by
  unfold splitParts
  split
  · rename_i equality
    exact equalityParts_replaces away below0 below1 even equality
  · rename_i order
    exact orderParts_replaces away below0 below1 even
      ((or_assoc.mpr supported).resolve_left order)

end

theorem mem_splitParts {half : Nat × IcmpPredicate}
    (isHalf : half ∈ splitHalves function.nextReg targetBitwidth bitw pred) :
    ∃ first second : Operand (bitw / 2), ⟨1, half.1, .icmp half.2 first second⟩ ∈
      (splitParts function bb pred op0 op1).insts := by
  unfold splitHalves at isHalf
  by_cases equality : pred = .eq ∨ pred = .ne
  · simp only [splitParts, if_pos equality] at isHalf ⊢
    split at isHalf
    · rcases isHalf with _ | ⟨_, _ | ⟨_, ⟨⟩⟩⟩
      · exact ⟨_, _, List.mem_of_getElem? (i := 7) rfl⟩
      · exact ⟨_, _, List.mem_of_getElem? (i := 4) rfl⟩
    · cases isHalf
  · simp only [splitParts, if_neg equality] at isHalf ⊢
    by_cases again : targetBitwidth < bitw / 2
    · rw [if_pos again] at isHalf
      rcases isHalf with _ | ⟨_, _ | ⟨_, _ | ⟨_, ⟨⟩⟩⟩⟩
      · exact ⟨_, _, List.mem_of_getElem? (i := 8) rfl⟩
      · exact ⟨_, _, List.mem_of_getElem? (i := 4) rfl⟩
      · exact ⟨_, _, List.mem_of_getElem? (i := 5) rfl⟩
    · rw [if_neg again] at isHalf
      obtain rfl := List.mem_singleton.mp isHalf
      exact ⟨_, _, List.mem_of_getElem? (i := 5) rfl⟩

theorem splitHalves_supported (supported : SplitPredicate pred) :
    ∀ half ∈ splitHalves n targetBitwidth bitw pred, SplitPredicate half.2 := by
  unfold SplitPredicate at supported ⊢
  unfold splitHalves
  split_ifs <;> simp [supported]

theorem splitHalves_distinct (n targetBitwidth bitw : Nat)
    (pred : IcmpPredicate) :
    ((splitHalves n targetBitwidth bitw pred).map Prod.fst).Nodup := by
  unfold splitHalves
  split_ifs <;> simp

theorem length_splitHalves (n targetBitwidth bitw : Nat)
    (pred : IcmpPredicate) :
    (splitHalves n targetBitwidth bitw pred).length ≤ 3 := by
  unfold splitHalves
  split_ifs <;> simp

end Halves

/-- The number of rounds that a compare of the target width times `2 ^ level`
takes: its own and those of the three compares it is split into. -/
def rounds : Nat → Nat
  | 0 => 1
  | level + 1 => 1 + 3 * rounds level

/-- The compares on a worklist exist, once each, and have these levels. -/
structure Pending (function : Ssa.Function Memory) (targetBitwidth : Nat)
    (worklist levels : List Nat) : Prop where
  compares : List.Forall₂
    (fun dest level => HasCompare function (targetBitwidth * 2 ^ level) dest)
    worklist levels
  distinct : worklist.Nodup

/-- What splitting a compare of this level leads to. -/
structure Split (function : Ssa.Function Memory) (targetBitwidth cmp level : Nat)
    (next : Ssa.Function Memory) (added : List Nat) : Prop where
  replaced : function.Replaced cmp next
  fresh : ∀ dest ∈ added, function.nextReg ≤ dest
  pending : ∃ levels, Pending next targetBitwidth added levels ∧
    1 + (levels.map rounds).sum ≤ rounds level

section Halve

variable {function : Ssa.Function Memory} {targetBitwidth cmp level bitw : Nat}
  {pred : IcmpPredicate} {op0 op1 : Operand bitw}

/-- An added compare is in the new function. -/
theorem HasCompare.added {loc : Location Memory} {expansion : Expansion Memory}
    (wellFormed : function.WellFormed)
    (isBlock : function.blocks loc.label = some loc.block)
    (addable : expansion.Addable function) {width dest : Nat}
    {newPred : IcmpPredicate} {first second : Operand width}
    (member : ⟨1, dest, .icmp newPred first second⟩ ∈ expansion.insts) :
    HasCompare (function.expand loc expansion) width dest :=
  ⟨newPred, first, second,
    wellFormed.expand_defines isBlock addable.fits addable.distinct member⟩

theorem halves_of_level (positive : 0 < targetBitwidth)
    (width : bitw = targetBitwidth * 2 ^ (level + 1)) :
    bitw / 2 = targetBitwidth * 2 ^ level ∧ bitw / 2 + bitw / 2 = bitw ∧
      bitw ≠ targetBitwidth := by
  have double : bitw = 2 * (targetBitwidth * 2 ^ level) := by
    rw [width, Nat.pow_succ]
    ac_rfl
  have atLeast : targetBitwidth ≤ targetBitwidth * 2 ^ level :=
    Nat.le_mul_of_pos_right _ (Nat.two_pow_pos level)
  omega

theorem splitCompare_level (wellFormed : function.WellFormed)
    (defines : function.Defines ⟨1, cmp, .icmp pred op0 op1⟩)
    (supported : SplitPredicate pred) (positive : 0 < targetBitwidth)
    (width : bitw = targetBitwidth * 2 ^ (level + 1)) :
    ∃ next added,
      splitCompare targetBitwidth function cmp = some (next, added) ∧
        Split function targetBitwidth cmp (level + 1) next added := by
  obtain ⟨loc, found, isInst, isBlock, away, below0, below1⟩ :=
    icmpAt_of_defines wellFormed defines
  obtain ⟨halves, even, wider⟩ := halves_of_level positive width
  have replaces := splitParts_replaces away below0 below1 even supported
  have addable := replaces.addable
  refine ⟨_, _, splitCompare_eq found supported wider,
    wellFormed.replaced_expand isBlock isInst replaces, ?_,
    (splitHalves function.nextReg targetBitwidth bitw pred).map fun _ => level,
    ⟨?_, splitHalves_distinct _ _ _ _⟩, ?_⟩
  · intro dest member
    obtain ⟨half, isHalf, rfl⟩ := List.mem_map.mp member
    obtain ⟨first, second, isInst⟩ := mem_splitParts isHalf
    exact addable.fits.fresh _ isInst
  · rw [List.forall₂_map_left_iff, List.forall₂_map_right_iff,
      List.forall₂_same, ← halves]
    intro half isHalf
    obtain ⟨first, second, isInst⟩ := mem_splitParts isHalf
    exact .added wellFormed isBlock addable isInst
  · have few := Nat.mul_le_mul_right (rounds level)
      (length_splitHalves function.nextReg targetBitwidth bitw pred)
    simp only [List.map_const', List.map_replicate, List.sum_replicate_nat, rounds]
    omega

/-- A compare on the worklist is split, or left alone. -/
theorem splitCompare_split (wellFormed : function.WellFormed)
    (compare : HasCompare function (targetBitwidth * 2 ^ level) cmp)
    (positive : 0 < targetBitwidth) :
    splitCompare targetBitwidth function cmp = none ∨
      ∃ next added,
        splitCompare targetBitwidth function cmp = some (next, added) ∧
          Split function targetBitwidth cmp level next added := by
  obtain ⟨pred, op0, op1, defines⟩ := compare
  obtain ⟨loc, found, _⟩ := icmpAt_of_defines wellFormed defines
  by_cases supported : SplitPredicate pred
  · apply Or.inr
    cases level with
    | zero =>
        have same : splitCompare targetBitwidth function cmp =
            some (function, []) := by
          exact splitCompare_same found supported (Nat.mul_one _)
        refine ⟨function, [], same, ⟨wellFormed, .refl wellFormed.below, ?_⟩,
          ?_, [], ⟨.nil, List.nodup_nil⟩, Nat.le_refl 1⟩
        · exact fun inst defines _ => defines
        · exact fun dest member => absurd member List.not_mem_nil
    | succ level =>
        exact splitCompare_level wellFormed defines supported positive rfl
  · exact .inl (splitCompare_refused found supported)

end Halve

theorem rounds_pos (level : Nat) : 1 ≤ rounds level := by
  cases level with
  | zero => exact Nat.le_refl 1
  | succ level => exact Nat.le_add_right 1 _

theorem Pending.lt {function : Ssa.Function Memory} {targetBitwidth : Nat}
    (wellFormed : function.WellFormed)
    (pending : Pending function targetBitwidth worklist levels) :
    ∀ dest ∈ worklist, dest < function.nextReg := by
  have compares := pending.compares
  clear pending
  induction compares with
  | nil => exact fun dest member => absurd member List.not_mem_nil
  | cons compare _ induction =>
      intro dest member
      rcases List.mem_cons.mp member with rfl | inRest
      · exact compare.lt wellFormed
      · exact induction dest inRest

theorem Pending.keep {function : Ssa.Function Memory} {targetBitwidth cmp : Nat}
    (replaced : function.Replaced cmp next)
    (pending : Pending function targetBitwidth worklist levels) (away : cmp ∉ worklist) :
    Pending next targetBitwidth worklist levels := by
  obtain ⟨compares, distinct⟩ := pending
  refine ⟨?_, distinct⟩
  induction compares with
  | nil => exact .nil
  | cons compare _ induction =>
      obtain ⟨_, distinctRest⟩ := List.nodup_cons.mp distinct
      obtain ⟨different, awayRest⟩ := List.ne_and_not_mem_of_not_mem_cons away
      exact .cons (compare.keep replaced (Ne.symm different))
        (induction awayRest distinctRest)

/-- After a split the rest of the worklist is still there, behind what was
added. -/
theorem Split.pending_rest {function : Ssa.Function Memory}
    {targetBitwidth cmp level : Nat} {added : List Nat} (wellFormed : function.WellFormed)
    (split : Split function targetBitwidth cmp level next added)
    (rest : Pending function targetBitwidth worklist levels) (away : cmp ∉ worklist) :
    ∃ newLevels, Pending next targetBitwidth (added ++ worklist) newLevels ∧
      1 + (newLevels.map rounds).sum ≤ rounds level + (levels.map rounds).sum := by
  obtain ⟨addedLevels, pendingAdded, fewer⟩ := split.pending
  obtain ⟨kept, distinct⟩ := rest.keep split.replaced away
  refine ⟨addedLevels ++ levels, ⟨List.rel_append pendingAdded.compares kept, ?_⟩, ?_⟩
  · refine List.nodup_append.mpr ⟨pendingAdded.distinct, distinct, ?_⟩
    intro dest isAdded other isOld
    have fresh := split.fresh dest isAdded
    have below := rest.lt wellFormed other isOld
    omega
  · rw [List.map_append, List.sum_append]
    omega

/-- The loop ends after as many rounds as its worklist takes, with a function
that does the same.  The induction is on the rounds. -/
theorem splitWorklist_refines {targetBitwidth bitw fuel : Nat}
    (positive : 0 < targetBitwidth) {function : Ssa.Function Memory}
    (wellFormed : function.WellFormed)
    (pending : Pending function targetBitwidth worklist levels)
    (enough : (levels.map rounds).sum ≤ fuel) :
    ∃ next,
      splitWorklist targetBitwidth bitw fuel function worklist = some next ∧
        next.WellFormed ∧ function.Refines next := by
  induction fuel generalizing function worklist levels with
  | zero =>
      obtain ⟨compares, _⟩ := pending
      cases compares with
      | nil =>
          exact ⟨function, rfl, wellFormed, .refl wellFormed.below⟩
      | @cons _ level _ _ _ _ =>
          have atLeast := rounds_pos level
          rw [List.map_cons, List.sum_cons] at enough
          omega
  | succ fuel induction =>
      obtain ⟨compares, distinct⟩ := pending
      cases compares with
      | nil =>
          exact ⟨function, rfl, wellFormed, .refl wellFormed.below⟩
      | @cons cmp level worklist levels compare rest =>
          obtain ⟨away, distinctRest⟩ := List.nodup_cons.mp distinct
          rw [List.map_cons, List.sum_cons] at enough
          have atLeast := rounds_pos level
          have skipped := induction wellFormed ⟨rest, distinctRest⟩
            (by omega)
          unfold splitWorklist
          split
          · rcases splitCompare_split wellFormed compare positive with
              refused | ⟨next, added, isSplit, split⟩
            · rw [refused]
              exact skipped
            · rw [isSplit]
              obtain ⟨newLevels, pendingNew, fewer⟩ :=
                split.pending_rest wellFormed ⟨rest, distinctRest⟩ away
              obtain ⟨final, ran, finalWellFormed, refines⟩ :=
                induction split.replaced.wellFormed pendingNew (by omega)
              exact ⟨final, ran, finalWellFormed, split.replaced.refines.trans refines⟩
          · exact skipped

theorem splitWorklist_narrow {targetBitwidth bitw fuel : Nat}
    (narrow : bitw ≤ targetBitwidth) (function : Ssa.Function Memory)
    (enough : worklist.length ≤ fuel) :
    splitWorklist targetBitwidth bitw fuel function worklist = some function := by
  induction worklist generalizing fuel with
  | nil => cases fuel <;> rfl
  | cons cmp worklist induction =>
      cases fuel with
      | zero => exact absurd enough (Nat.not_succ_le_zero _)
      | succ fuel =>
          unfold splitWorklist
          rw [if_neg (Nat.not_lt.mpr narrow)]
          exact induction (Nat.le_of_succ_le_succ enough)

section Simplify

variable {function : Ssa.Function Memory} {targetBitwidth bitw dest : Nat}
  {pred : IcmpPredicate} {op0 op1 : Operand bitw}

/-- The widths that the worklist handles: none is left to split, or each split
ends at the target width. -/
def Handled (targetBitwidth bitw : Nat) : Prop :=
  bitw ≤ targetBitwidth ∨ ∃ level, bitw = targetBitwidth * 2 ^ level

theorem splitWorklist_handled (handled : Handled targetBitwidth bitw)
    (wellFormed : function.WellFormed)
    (compares : ∀ cmp ∈ worklist, HasCompare function bitw cmp)
    (distinct : worklist.Nodup) :
    ∃ bound, ∀ fuel, bound ≤ fuel → ∃ next,
      splitWorklist targetBitwidth bitw fuel function worklist = some next ∧
        next.WellFormed ∧ function.Refines next := by
  by_cases narrow : bitw ≤ targetBitwidth
  · refine ⟨worklist.length, fun fuel enough => ⟨function, ?_, wellFormed,
      .refl wellFormed.below⟩⟩
    exact splitWorklist_narrow narrow function enough
  · obtain ⟨level, width⟩ := handled.resolve_left narrow
    have positive : 0 < targetBitwidth := by
      apply Nat.pos_of_ne_zero
      intro zero
      rw [zero, Nat.zero_mul] at width
      omega
    have pending : Pending function targetBitwidth worklist
        (worklist.map fun _ => level) := by
      refine ⟨List.forall₂_map_right_iff.mpr ?_, distinct⟩
      rw [← width]
      exact List.forall₂_same.mpr compares
    refine ⟨((worklist.map fun _ => level).map rounds).sum, ?_⟩
    intro fuel enough
    exact splitWorklist_refines positive wellFormed pending enough

/-- What the pass goes on with after an instruction was replaced. -/
theorem simplified_refines (handled : Handled targetBitwidth bitw)
    (replaced : function.Replaced dest next) (distinct : worklist.Nodup)
    (compares : ∀ cmp ∈ worklist, HasCompare next bitw cmp) :
    ∃ bound, ∀ fuel, bound ≤ fuel → ∃ final,
      splitWorklist targetBitwidth bitw fuel next worklist = some final ∧
        final.WellFormed ∧ function.Refines final := by
  obtain ⟨bound, split⟩ := splitWorklist_handled handled replaced.wellFormed
    compares distinct
  refine ⟨bound, fun fuel enough => ?_⟩
  obtain ⟨final, ran, wellFormed, refines⟩ := split fuel enough
  exact ⟨final, ran, wellFormed, replaced.refines.trans refines⟩

section

variable (wellFormed : function.WellFormed)
    (defines : function.Defines ⟨1, dest, .icmp pred op0 op1⟩)
include wellFormed defines

theorem simplifyOrEqualsCompare_replaced {newPred : IcmpPredicate}
    (strict : strictPredicate pred = some newPred) :
    ∃ next, simplifyOrEqualsCompare function dest =
        some (next, [function.nextReg + 1, function.nextReg]) ∧
      function.Replaced dest next ∧
      ∀ cmp ∈ [function.nextReg + 1, function.nextReg], HasCompare next bitw cmp := by
  obtain ⟨loc, found, isInst, isBlock, away, below0, below1⟩ :=
    icmpAt_of_defines wellFormed defines
  have replaces := orEqualsParts_replaces away below0 below1 strict
  have addable := replaces.addable
  refine ⟨function.expand loc (orEqualsParts function loc.label newPred op0 op1), ?_,
    wellFormed.replaced_expand isBlock isInst replaces, ?_⟩
  · simp only [simplifyOrEqualsCompare, found, strict]
  · intro cmp member
    rcases List.mem_cons.mp member with rfl | member
    · exact .added wellFormed isBlock addable
        (List.mem_of_getElem? (i := 1) rfl)
    · obtain rfl := List.mem_singleton.mp member
      exact .added wellFormed isBlock addable
        (List.mem_of_getElem? (i := 0) rfl)

theorem simplifySignedCompare_replaced (signed : pred = .sgt ∨ pred = .slt) :
    ∃ next, simplifySignedCompare function dest = some (next, [function.nextReg + 6]) ∧
      function.Replaced dest next ∧
      ∀ cmp ∈ [function.nextReg + 6], HasCompare next bitw cmp := by
  obtain ⟨loc, found, isInst, isBlock, _, below0, below1⟩ :=
    icmpAt_of_defines wellFormed defines
  have replaces : (signedParts function pred op0 op1).Replaces function
      loc.label (.icmp pred op0 op1) :=
    signedParts_replaces below0 below1 signed
  refine ⟨function.expand loc (signedParts function pred op0 op1), ?_,
    wellFormed.replaced_expand isBlock isInst replaces, ?_⟩
  · simp only [simplifySignedCompare, found]
  · intro cmp member
    obtain rfl := List.mem_singleton.mp member
    exact .added wellFormed isBlock replaces.addable
      (List.mem_of_getElem? (i := 6) rfl)

end

/-- The pass ends, and the function it leaves does what the old one did: the
compare has the same value whenever its block runs. -/
theorem simplifyAndSplit_refines (wellFormed : function.WellFormed)
    (defines : function.Defines ⟨1, dest, .icmp pred op0 op1⟩)
    (handled : Handled targetBitwidth bitw) :
    ∃ bound, ∀ fuel, bound ≤ fuel → ∃ next,
      simplifyAndSplit targetBitwidth fuel function dest = some next ∧
        next.WellFormed ∧ function.Refines next := by
  obtain ⟨loc, found, _⟩ := icmpAt_of_defines wellFormed defines
  by_cases orEquals : ∃ newPred, strictPredicate pred = some newPred
  · obtain ⟨newPred, strict⟩ := orEquals
    obtain ⟨next, isSimplified, replaced, compares⟩ :=
      simplifyOrEqualsCompare_replaced wellFormed defines strict
    obtain ⟨bound, split⟩ := simplified_refines handled replaced
      (by simp) compares
    refine ⟨bound, fun fuel enough => ?_⟩
    have run : simplifyAndSplit targetBitwidth fuel function dest =
        splitWorklist targetBitwidth bitw fuel next
          [function.nextReg + 1, function.nextReg] := by
      cases pred with
      | uge => simp only [simplifyAndSplit, found, isSimplified]
      | sge => simp only [simplifyAndSplit, found, isSimplified]
      | ule => simp only [simplifyAndSplit, found, isSimplified]
      | sle => simp only [simplifyAndSplit, found, isSimplified]
      | _ => cases strict
    rw [run]
    exact split fuel enough
  · by_cases signed : pred = .sgt ∨ pred = .slt
    · obtain ⟨next, isSimplified, replaced, compares⟩ :=
        simplifySignedCompare_replaced wellFormed defines signed
      obtain ⟨bound, split⟩ := simplified_refines handled replaced
        (List.nodup_singleton _) compares
      refine ⟨bound, fun fuel enough => ?_⟩
      have run : simplifyAndSplit targetBitwidth fuel function dest =
          splitWorklist targetBitwidth bitw fuel next
            [function.nextReg + 6] := by
        rcases signed with rfl | rfl
        · simp only [simplifyAndSplit, found, isSimplified]
        · simp only [simplifyAndSplit, found, isSimplified]
      rw [run]
      exact split fuel enough
    · have alone : ∀ cmp ∈ [dest], HasCompare function bitw cmp := by
        intro cmp member
        obtain rfl := List.mem_singleton.mp member
        exact ⟨pred, op0, op1, defines⟩
      obtain ⟨bound, split⟩ := splitWorklist_handled handled wellFormed alone
        (List.nodup_singleton _)
      refine ⟨bound, fun fuel enough => ?_⟩
      have run : simplifyAndSplit targetBitwidth fuel function dest =
          splitWorklist targetBitwidth bitw fuel function [dest] := by
        simp only [not_or] at signed
        cases pred with
        | uge => exact absurd ⟨_, rfl⟩ orEquals
        | sge => exact absurd ⟨_, rfl⟩ orEquals
        | ule => exact absurd ⟨_, rfl⟩ orEquals
        | sle => exact absurd ⟨_, rfl⟩ orEquals
        | sgt => exact absurd rfl signed.1
        | slt => exact absurd rfl signed.2
        | _ => simp only [simplifyAndSplit, found]
      rw [run]
      exact split fuel enough

end Simplify

/-- A function that compares its two arguments. -/
def signedCompare : Ssa.Function Unit where
  blocks := fun label =>
    if label = 0 then
      some ⟨[], [⟨1, 2, @Rhs.icmp Unit .sge 32 (.reg 0) (.reg 1)⟩],
        .ret (some ⟨1, .reg 2⟩)⟩
    else none
  nextLabel := 1
  nextReg := 3

theorem signedCompare_single : signedCompare.Single
    ⟨1, 2, @Rhs.icmp Unit .sge 32 (.reg 0) (.reg 1)⟩
    (.ret (some ⟨1, .reg 2⟩)) :=
  fun _ => rfl

theorem signedCompare_wellFormed : signedCompare.WellFormed :=
  signedCompare_single.wellFormed Nat.zero_lt_one
    ⟨Nat.lt_succ_self 2, Nat.zero_lt_succ 2,
      Nat.succ_lt_succ (Nat.zero_lt_succ 1)⟩ (Nat.lt_succ_self 2)

theorem signedCompare_defines :
    signedCompare.Defines ⟨1, 2, @Rhs.icmp Unit .sge 32 (.reg 0) (.reg 1)⟩ :=
  signedCompare_single.defines

theorem simplifyAndSplit_refines_signedCompare :
    ∃ bound, ∀ fuel, bound ≤ fuel → ∃ next,
      simplifyAndSplit 8 fuel signedCompare 2 = some next ∧
        next.WellFormed ∧ signedCompare.Refines next :=
  simplifyAndSplit_refines signedCompare_wellFormed signedCompare_defines
    (.inr ⟨2, rfl⟩)

end AFLPlusPlus
