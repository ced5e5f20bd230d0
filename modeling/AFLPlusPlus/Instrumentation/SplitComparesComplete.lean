import AFLPlusPlus.Instrumentation.SplitComparesEnds
import Mathlib.Data.List.Perm.Basic

/-!
# Which wide compares the split leaves

`simplifyOrEqualsCompare`, `simplifySignedCompare` and `splitCompare` hand their
compares to each other through the worklist.  None wider than the target is left
if each of them has a predicate that `splitCompare` takes.  The strict signed
compare that stands for `sge` or `sle` is on the worklist with one it refuses.
-/

namespace AFLPlusPlus

open Ssa

variable {Memory : Type}

/-! ## The instructions of an expanded function -/

section Expanded

variable {function : Ssa.Function Memory} {loc : Location Memory}
  {expansion : Expansion Memory}

/-- The block at a label, as `functionInsts` reads it. -/
def blockInsts (function : Ssa.Function Memory) (label : Nat) : List (Inst Memory) :=
  (function.blocks label).elim [] Block.body

theorem blockInsts_fragments (away : loc.label < function.nextLabel) :
    (List.range expansion.fragments.length).flatMap (fun position =>
      blockInsts (function.expand loc expansion)
        (function.nextLabel + 1 + position)) =
      expansion.fragments.flatMap Block.body := by
  have each : ∀ position ∈ List.range expansion.fragments.length,
      blockInsts (function.expand loc expansion)
          (function.nextLabel + 1 + position) =
        (expansion.fragments.map Block.body).getD position [] := by
    intro position inside
    have less := List.mem_range.mp inside
    simp only [blockInsts, Function.expand_fragment position away]
    simp [less]
  have bodies : (List.range expansion.fragments.length).map
      (fun position =>
        (expansion.fragments.map Block.body).getD position []) =
      expansion.fragments.map Block.body := by
    apply List.ext_getElem
    · simp
    · intro position first second
      have less : position < expansion.fragments.length := by
        simpa using first
      simp [less]
  rw [List.flatMap_congr each, List.flatMap_def, bodies, List.flatMap_def]

theorem functionInsts_expand
    (isBlock : function.blocks loc.label = some loc.block)
    (away : loc.label < function.nextLabel) :
    ∃ rest, (functionInsts function).Perm (loc.inst :: rest) ∧
      (functionInsts (function.expand loc expansion)).Perm
        (rest ++ expansion.insts) := by
  let others := (List.range function.nextLabel).erase loc.label
  have labels : (List.range function.nextLabel).Perm (loc.label :: others) :=
    List.perm_cons_erase (List.mem_range.mpr away)
  have here : blockInsts function loc.label = loc.before ++ loc.inst :: loc.after := by
    simp only [blockInsts, isBlock]
    rfl
  have first : blockInsts (function.expand loc expansion) loc.label =
      loc.before ++ expansion.front := by
    simp only [blockInsts, Function.expand_first]
    rfl
  have second : blockInsts (function.expand loc expansion)
      function.nextLabel = loc.after := by
    simp only [blockInsts, Function.expand_second away]
    rfl
  have kept : others.flatMap (blockInsts (function.expand loc expansion)) =
      others.flatMap (blockInsts function) := by
    apply List.flatMap_congr
    intro label member
    have other := (List.Nodup.mem_erase_iff List.nodup_range).mp member
    simp only [blockInsts, Function.expand_old other.1 (List.mem_range.mp other.2)]
    cases function.blocks label <;> rfl
  have old : (functionInsts function).Perm
      ((loc.before ++ loc.inst :: loc.after) ++
        others.flatMap (blockInsts function)) := by
    have moved := labels.flatMap_right (blockInsts function)
    rw [List.flatMap_cons, here] at moved
    exact moved
  have new : (functionInsts (function.expand loc expansion)).Perm
      (((loc.before ++ expansion.front) ++
        others.flatMap (blockInsts function)) ++ (loc.after ++
          expansion.fragments.flatMap Block.body)) := by
    have split : List.range (function.nextLabel + 1 +
        expansion.fragments.length) = List.range function.nextLabel ++
          (function.nextLabel ::
            (List.range expansion.fragments.length).map
              (function.nextLabel + 1 + ·)) := by
      rw [List.range_add, List.range_succ, List.append_assoc]
      rfl
    have moved := labels.flatMap_right
      (blockInsts (function.expand loc expansion))
    rw [List.flatMap_cons, first, kept] at moved
    change ((List.range (function.nextLabel + 1 +
      expansion.fragments.length)).flatMap
        (blockInsts (function.expand loc expansion))).Perm _
    rw [split, List.flatMap_append, List.flatMap_cons, second,
      List.flatMap_map, blockInsts_fragments away]
    exact moved.append_right _
  refine ⟨loc.before ++ loc.after ++ others.flatMap (blockInsts function),
    old.trans ?_, new.trans ?_⟩
  · rw [List.append_assoc, List.append_assoc, List.cons_append]
    exact List.perm_middle
  · classical
    rw [Expansion.insts, List.perm_iff_count]
    intro inst
    simp only [List.count_append]
    omega

/-- One instruction, for the register `cmp`, has made way for new ones. -/
structure Exchanged (function : Ssa.Function Memory) (cmp : Nat)
    (next : Ssa.Function Memory) (new : List (Inst Memory)) : Prop where
  wellFormed : next.WellFormed
  grows : function.nextReg ≤ next.nextReg
  insts : ∃ inst rest, inst.dest = cmp ∧ (functionInsts function).Perm (inst :: rest) ∧
    (functionInsts next).Perm (rest ++ new)
  fresh : ∀ inst ∈ new, function.nextReg ≤ inst.dest
  distinct : (new.map Inst.dest).Nodup

theorem Exchanged.expand (wellFormed : function.WellFormed)
    (isBlock : function.blocks loc.label = some loc.block)
    (addable : expansion.Addable function) :
    Exchanged function loc.inst.dest (function.expand loc expansion)
      expansion.insts where
  wellFormed := wellFormed.expand isBlock addable.fits
  grows := Nat.le_add_right _ _
  insts := by
    have away := wellFormed.labels loc.label loc.block isBlock
    obtain ⟨rest, old, new⟩ :=
      @functionInsts_expand _ function loc expansion isBlock away
    exact ⟨loc.inst, rest, rfl, old, new⟩
  fresh := addable.fits.fresh
  distinct := addable.distinct

end Expanded

/-! ## Functions in single assignment form -/

/-- A well-formed function that sets each register once. -/
structure SingleAssignment (function : Ssa.Function Memory) : Prop where
  wellFormed : function.WellFormed
  single : ((functionInsts function).map Inst.dest).Nodup

section Form

variable {function next : Ssa.Function Memory} {cmp : Nat}
  {new : List (Inst Memory)} {inst other : Inst Memory}

section

variable (form : SingleAssignment function) (member : inst ∈ functionInsts function)
include form member

theorem SingleAssignment.defines : function.Defines inst :=
  defines_of_nodup form.wellFormed form.single member

theorem SingleAssignment.eq (otherMember : other ∈ functionInsts function)
    (same : inst.dest = other.dest) : inst = other :=
  List.inj_on_of_nodup_map form.single member otherMember same

theorem SingleAssignment.lt : inst.dest < function.nextReg := by
  obtain ⟨label, block, found, inBody⟩ := (mem_functionInsts form.wellFormed).mp member
  exact ((form.wellFormed.below label block found).body inst inBody).1

end

theorem Exchanged.mem_iff (form : SingleAssignment function)
    (exchanged : Exchanged function cmp next new) :
    inst ∈ functionInsts next ↔
      inst ∈ new ∨ inst ∈ functionInsts function ∧ inst.dest ≠ cmp := by
  obtain ⟨old, rest, isOld, before, after⟩ := exchanged.insts
  have distinct := (before.map Inst.dest).nodup_iff.mp form.single
  rw [List.map_cons, List.nodup_cons, isOld] at distinct
  rw [after.mem_iff, before.mem_iff, List.mem_append, List.mem_cons]
  constructor
  · rintro (inRest | isNew)
    · refine .inr ⟨.inr inRest, fun same => distinct.1 ?_⟩
      exact same ▸ List.mem_map_of_mem inRest
    · exact .inl isNew
  · rintro (isNew | ⟨rfl | inRest, other⟩)
    · exact .inr isNew
    · exact absurd isOld other
    · exact .inl inRest

theorem Exchanged.form (form : SingleAssignment function)
    (exchanged : Exchanged function cmp next new) :
    SingleAssignment next where
  wellFormed := exchanged.wellFormed
  single := by
    obtain ⟨old, rest, isOld, before, after⟩ := exchanged.insts
    have distinct := (before.map Inst.dest).nodup_iff.mp form.single
    rw [List.map_cons, List.nodup_cons] at distinct
    apply (after.map Inst.dest).nodup_iff.mpr
    rw [List.map_append]
    apply List.Nodup.append distinct.2 exchanged.distinct
    intro dest inRest isNew
    obtain ⟨inst, member, rfl⟩ := List.mem_map.mp inRest
    obtain ⟨newInst, newMember, same⟩ := List.mem_map.mp isNew
    have less := form.lt (before.mem_iff.mpr (List.mem_cons_of_mem _ member))
    have fresh := exchanged.fresh newInst newMember
    omega

end Form

/-! ## What each rewriting adds -/

/-- The registers, predicates and widths of the integer compares. -/
def comparesOf (insts : List (Inst Memory)) : List (Nat × IcmpPredicate × Nat) :=
  insts.filterMap fun inst =>
    (comparedBy inst.rhs).map fun compared => (inst.dest, compared)

theorem mem_comparesOf {insts : List (Inst Memory)} {cmp bitw : Nat}
    {pred : IcmpPredicate} :
    (cmp, pred, bitw) ∈ comparesOf insts ↔ ∃ inst ∈ insts,
      inst.dest = cmp ∧ comparedBy inst.rhs = some (pred, bitw) := by
  simp only [comparesOf, List.mem_filterMap, Option.map_eq_some_iff, Prod.mk.injEq]
  constructor
  · rintro ⟨inst, member, compared, found, same, rfl⟩
    exact ⟨inst, member, same, found⟩
  · rintro ⟨inst, member, same, found⟩
    exact ⟨inst, member, _, found, same, rfl⟩

/-- The compares that go on the worklist are among the new ones, and no other new
one is too wide. -/
structure Added (targetBitwidth : Nat) (allowed : IcmpPredicate → Prop)
    (bitw : Nat) (new : List (Inst Memory)) (added : List Nat) : Prop where
  distinct : added.Nodup
  compares : ∀ cmp ∈ added, ∃ pred, allowed pred ∧ (cmp, pred, bitw) ∈ comparesOf new
  wide : ∀ cmp pred width, (cmp, pred, width) ∈ comparesOf new →
    targetBitwidth < width → cmp ∈ added

section Rewritings

variable {function : Ssa.Function Memory} {targetBitwidth bitw : Nat}
  {inst : Inst Memory} {pred : IcmpPredicate}

theorem icmpAt_of_mem (form : SingleAssignment function)
    (member : inst ∈ functionInsts function)
    (compared : comparedBy inst.rhs = some (pred, bitw)) :
    ∃ loc, ∃ op0 op1 : Operand bitw,
      icmpAt function inst.dest = some (loc, pred, ⟨bitw, op0, op1⟩) ∧
      loc.inst.dest = inst.dest ∧
      function.blocks loc.label = some loc.block ∧
      loc.label < function.nextLabel ∧ op0.Below function.nextReg ∧
      op1.Below function.nextReg := by
  obtain ⟨op0, op1, isCompare⟩ := comparedBy_eq compared
  have defines := form.defines member
  rw [isCompare] at defines
  obtain ⟨loc, found, isInst, isBlock, away, below0, below1⟩ :=
    icmpAt_of_defines form.wellFormed defines
  exact ⟨loc, op0, op1, found, by rw [isInst], isBlock, away, below0, below1⟩

theorem mem_compares_splitParts {function : Ssa.Function Memory} {bb bitw : Nat}
    {op0 op1 : Operand bitw} {cmp width : Nat} {pred other : IcmpPredicate}
    (isNew : (cmp, other, width) ∈
      comparesOf (splitParts function bb pred op0 op1).insts)
    (wide : targetBitwidth < width) :
    cmp ∈ (splitHalves function.nextReg targetBitwidth bitw pred).map
      Prod.fst := by
  unfold splitParts at isNew
  unfold splitHalves
  split at isNew
  · rename_i equality
    have compares : comparesOf (equalityParts function bb pred op0 op1).insts =
        [(function.nextReg + 4, pred, bitw / 2),
          (function.nextReg + 7, pred, bitw / 2)] := rfl
    simp [compares] at isNew
    rcases isNew with ⟨rfl, _, rfl⟩ | ⟨rfl, _, rfl⟩ <;>
      simp [equality, wide]
  · rename_i order
    have compares : comparesOf (orderParts function bb pred op0 op1).insts =
        [(function.nextReg + 4, pred, bitw / 2),
          (function.nextReg + 5, if pred = .ugt then .ult else .ugt, bitw / 2),
          (function.nextReg + 8, pred, bitw / 2)] := rfl
    simp [compares] at isNew
    rcases isNew with ⟨rfl, _, rfl⟩ | ⟨rfl, _, rfl⟩ | ⟨rfl, _, rfl⟩ <;>
      simp [order, wide]

/-- A compare that is too wide becomes compares of its halves, and those that are
still too wide are split again. -/
theorem splitCompare_wide (form : SingleAssignment function)
    (member : inst ∈ functionInsts function)
    (compared : comparedBy inst.rhs = some (pred, bitw))
    (supported : SplitPredicate pred) (different : bitw ≠ targetBitwidth) :
    ∃ next added new,
      splitCompare targetBitwidth function inst.dest = some (next, added) ∧
      Exchanged function inst.dest next new ∧
      Added targetBitwidth SplitPredicate (bitw / 2) new added := by
  obtain ⟨loc, op0, op1, found, isDest, isBlock, away, below0, below1⟩ :=
    icmpAt_of_mem form member compared
  have exchanged := isDest ▸ Exchanged.expand form.wellFormed isBlock
    (splitParts_addable away below0 below1 pred)
  refine ⟨_, _, _, splitCompare_eq found supported different, exchanged,
    splitHalves_distinct _ _ _ _, ?_, fun _ _ _ => mem_compares_splitParts⟩
  intro cmp isAdded
  obtain ⟨half, isHalf, rfl⟩ := List.mem_map.mp isAdded
  obtain ⟨first, second, isNew⟩ := mem_splitParts isHalf
  exact ⟨half.2, splitHalves_supported supported half isHalf,
    mem_comparesOf.mpr ⟨_, isNew, rfl, rfl⟩⟩

/-- The first half of `simplifyAndSplit` replaces the compare.  The new ones have
its width and one of the simple predicates each, and they all are on the worklist
if they are too wide. -/
def Simplifies (targetBitwidth : Nat) (function : Ssa.Function Memory)
    (cmp : Nat) (pred : IcmpPredicate) (bitw : Nat) : Prop :=
  ∃ next worklist new, simplified function cmp = (next, bitw, worklist) ∧
    Exchanged function cmp next new ∧
    Added targetBitwidth (· ∈ simplifiedPredicates pred) bitw new worklist ∧
    ∀ simple ∈ simplifiedPredicates pred, ∃ dest, (dest, simple, bitw) ∈ comparesOf new

section

variable (form : SingleAssignment function) (member : inst ∈ functionInsts function)
    (compared : comparedBy inst.rhs = some (pred, bitw))
include form member compared

theorem simplifies_orEquals {newPred : IcmpPredicate}
    (strict : strictPredicate pred = some newPred) :
    Simplifies targetBitwidth function inst.dest pred bitw := by
  obtain ⟨loc, op0, op1, found, isDest, isBlock, away, below0, below1⟩ :=
    icmpAt_of_mem form member compared
  have addable := orEqualsParts_addable away below0 below1 newPred
  have exchanged := isDest ▸
    Exchanged.expand form.wellFormed isBlock addable
  have compares : comparesOf
      (orEqualsParts function loc.label newPred op0 op1).insts =
      [(function.nextReg, newPred, bitw), (function.nextReg + 1, .eq, bitw)] := rfl
  have simples : simplifiedPredicates pred = [.eq, newPred] := by
    cases pred with
    | uge | sge | ule | sle => cases strict; rfl
    | _ => cases strict
  refine ⟨_, [function.nextReg + 1, function.nextReg], _, ?_, exchanged,
    ⟨by simp, ?_, ?_⟩, ?_⟩
  · cases pred with
    | uge | sge | ule | sle =>
        cases strict
        simp only [simplified, simplifyOrEqualsCompare, found, strictPredicate]
    | _ => cases strict
  · intro cmp isAdded
    rw [compares, simples]
    simp at isAdded
    rcases isAdded with rfl | rfl
    · exact ⟨.eq, by simp, by simp⟩
    · exact ⟨newPred, by simp, by simp⟩
  · intro cmp other width isNew _
    rw [compares] at isNew
    simp at isNew
    rcases isNew with ⟨rfl, _⟩ | ⟨rfl, _⟩ <;> simp
  · intro simple isSimple
    rw [simples] at isSimple
    rw [compares]
    simp at isSimple
    rcases isSimple with rfl | rfl
    · exact ⟨function.nextReg + 1, by simp⟩
    · exact ⟨function.nextReg, by simp⟩

/-- The compares of the sign bits stay off the worklist, but they have one bit. -/
theorem simplifies_signed (signed : pred = .sgt ∨ pred = .slt)
    (positive : 0 < targetBitwidth) :
    Simplifies targetBitwidth function inst.dest pred bitw := by
  obtain ⟨loc, op0, op1, found, isDest, isBlock, away, below0, below1⟩ :=
    icmpAt_of_mem form member compared
  have addable := signedParts_addable below0 below1 pred
  have exchanged := isDest ▸
    Exchanged.expand form.wellFormed isBlock addable
  have compares : comparesOf (signedParts function pred op0 op1).insts =
      [(function.nextReg + 4, .eq, 1),
        (function.nextReg + 5, if pred = .sgt then .ult else .ugt, 1),
        (function.nextReg + 6, if pred = .sgt then .ugt else .ult, bitw)] := rfl
  have simples : simplifiedPredicates pred = [if pred = .sgt then .ugt else .ult] := by
    rcases signed with rfl | rfl <;> rfl
  refine ⟨_, [function.nextReg + 6], _, ?_, exchanged, ⟨by simp, ?_, ?_⟩, ?_⟩
  · rcases signed with rfl | rfl
    · simp only [simplified, simplifySignedCompare, found]
    · simp only [simplified, simplifySignedCompare, found]
  · intro cmp isAdded
    obtain rfl := List.mem_singleton.mp isAdded
    rw [compares, simples]
    exact ⟨_, List.mem_singleton_self _, by simp⟩
  · intro cmp other width isNew isWide
    rw [compares] at isNew
    simp at isNew
    have notOne : width ≠ 1 := by omega
    rcases isNew with ⟨_, _, one⟩ | ⟨_, _, one⟩ | ⟨rfl, _⟩
    · exact absurd one notOne
    · exact absurd one notOne
    · exact List.mem_singleton_self _
  · intro simple isSimple
    rw [simples] at isSimple
    obtain rfl := List.mem_singleton.mp isSimple
    rw [compares]
    exact ⟨function.nextReg + 6, by simp⟩

/-- A compare that is not replaced can be split. -/
theorem simplified_compare (positive : 0 < targetBitwidth) :
    Simplifies targetBitwidth function inst.dest pred bitw ∨
      SplitPredicate pred ∧ simplifiedPredicates pred = [pred] ∧
        simplified function inst.dest = (function, bitw, [inst.dest]) := by
  cases pred with
  | uge | sge | ule | sle =>
      exact .inl (simplifies_orEquals form member compared rfl)
  | sgt =>
      exact .inl (simplifies_signed form member compared (.inl rfl) positive)
  | slt =>
      exact .inl (simplifies_signed form member compared (.inr rfl) positive)
  | _ =>
      obtain ⟨loc, op0, op1, found, _⟩ := icmpAt_of_mem form member compared
      refine .inr ⟨by simp [SplitPredicate], rfl, ?_⟩
      simp only [simplified, found]

end

end Rewritings

/-! ## The worklist of one compare -/

/-- The integer compares of a function. -/
def comparesIn (function : Ssa.Function Memory) : List (Nat × IcmpPredicate × Nat) :=
  comparesOf (functionInsts function)

/-- Only instructions for the registers `cmps` have been replaced since
`first`. -/
structure Passed (first : Ssa.Function Memory) (cmps : List Nat)
    (later : Ssa.Function Memory) : Prop where
  form : SingleAssignment later
  grows : first.nextReg ≤ later.nextReg
  keeps : ∀ inst ∈ functionInsts first, inst.dest ∉ cmps → inst ∈ functionInsts later
  old : ∀ inst ∈ functionInsts later, inst.dest < first.nextReg →
    inst ∈ functionInsts first

/-- The worklist has compares only: the first one or such as were added. -/
structure Unsplit (first : Ssa.Function Memory) (cmp : Nat)
    (later : Ssa.Function Memory) (worklist : List Nat) : Prop where
  passed : Passed first [cmp] later
  distinct : worklist.Nodup
  mine : ∀ listed ∈ worklist, listed = cmp ∨ first.nextReg ≤ listed
  compares : ∀ listed ∈ worklist, ∃ pred bitw, (listed, pred, bitw) ∈ comparesIn later

/-- What `splitCompare` makes of the function, and what it adds to the
worklist. -/
def splitResult (targetBitwidth : Nat) (function : Ssa.Function Memory)
    (cmp : Nat) : Ssa.Function Memory × List Nat :=
  (splitCompare targetBitwidth function cmp).getD (function, [])

section Loop

variable {first later next : Ssa.Function Memory}
  {targetBitwidth cmp listed bitw width : Nat} {worklist added : List Nat}
  {new : List (Inst Memory)} {pred other : IcmpPredicate}

theorem SingleAssignment.compare_eq (form : SingleAssignment later)
    (member : (listed, pred, bitw) ∈ comparesIn later)
    (otherMember : (listed, other, width) ∈ comparesIn later) :
    pred = other ∧ bitw = width := by
  obtain ⟨inst, isInst, isDest, compared⟩ := mem_comparesOf.mp member
  obtain ⟨inst', isInst', isDest', compared'⟩ := mem_comparesOf.mp otherMember
  obtain rfl := form.eq isInst isInst' (isDest.trans isDest'.symm)
  exact Prod.mk.inj (Option.some.inj (compared.symm.trans compared'))

theorem SingleAssignment.compare_lt (form : SingleAssignment later)
    (member : (listed, pred, bitw) ∈ comparesIn later) :
    listed < later.nextReg := by
  obtain ⟨inst, isInst, rfl, _⟩ := mem_comparesOf.mp member
  exact form.lt isInst

theorem Exchanged.compares_iff (form : SingleAssignment later)
    (exchanged : Exchanged later cmp next new) :
    (listed, pred, bitw) ∈ comparesIn next ↔
      (listed, pred, bitw) ∈ comparesOf new ∨
        (listed, pred, bitw) ∈ comparesIn later ∧ listed ≠ cmp := by
  simp only [comparesIn, mem_comparesOf, exchanged.mem_iff form]
  constructor
  · rintro ⟨inst, isNew | ⟨isOld, away⟩, rfl, compared⟩
    · exact .inl ⟨inst, isNew, rfl, compared⟩
    · exact .inr ⟨⟨inst, isOld, rfl, compared⟩, away⟩
  · rintro (⟨inst, isNew, rfl, compared⟩ | ⟨⟨inst, isOld, rfl, compared⟩, away⟩)
    · exact ⟨inst, .inl isNew, rfl, compared⟩
    · exact ⟨inst, .inr ⟨isOld, away⟩, rfl, compared⟩

theorem Exchanged.compare_fresh (exchanged : Exchanged later cmp next new)
    (member : (listed, pred, bitw) ∈ comparesOf new) :
    later.nextReg ≤ listed := by
  obtain ⟨inst, isNew, rfl, _⟩ := mem_comparesOf.mp member
  exact exchanged.fresh inst isNew

theorem Passed.refl (form : SingleAssignment first) (cmps : List Nat) :
    Passed first cmps first :=
  ⟨form, Nat.le_refl _, fun _ member _ => member, fun _ member _ => member⟩

theorem Passed.step (formFirst : SingleAssignment first)
    (passed : Passed first [cmp] later)
    (exchanged : Exchanged later listed next new)
    (mine : listed = cmp ∨ first.nextReg ≤ listed) :
    Passed first [cmp] next where
  form := exchanged.form passed.form
  grows := Nat.le_trans passed.grows exchanged.grows
  keeps := by
    intro inst member away
    apply (exchanged.mem_iff passed.form).mpr
    refine .inr ⟨passed.keeps inst member away, ?_⟩
    rintro rfl
    rcases mine with rfl | fresh
    · exact away (List.mem_singleton_self _)
    · have less := formFirst.lt member
      omega
  old := by
    intro inst member less
    rcases (exchanged.mem_iff passed.form).mp member with isNew | ⟨isOld, _⟩
    · have fresh := exchanged.fresh inst isNew
      have grows := passed.grows
      omega
    · exact passed.old inst isOld less

theorem Unsplit.tail (unsplit : Unsplit first cmp later (listed :: worklist)) :
    Unsplit first cmp later worklist where
  passed := unsplit.passed
  distinct := (List.nodup_cons.mp unsplit.distinct).2
  mine := fun _ member => unsplit.mine _ (List.mem_cons_of_mem _ member)
  compares := fun _ member => unsplit.compares _ (List.mem_cons_of_mem _ member)

/-- The compare that was taken off is replaced by those that are added. -/
theorem Unsplit.exchange {allowed : IcmpPredicate → Prop}
    (formFirst : SingleAssignment first)
    (unsplit : Unsplit first cmp later (listed :: worklist))
    (exchanged : Exchanged later listed next new)
    (isAdded : Added targetBitwidth allowed bitw new added) :
    Unsplit first cmp next (added ++ worklist) := by
  have form := unsplit.passed.form
  have isMine := unsplit.mine listed List.mem_cons_self
  have fresh : ∀ dest ∈ added, later.nextReg ≤ dest := by
    intro dest member
    obtain ⟨pred, _, isNew⟩ := isAdded.compares dest member
    exact exchanged.compare_fresh isNew
  refine ⟨unsplit.passed.step formFirst exchanged isMine, ?_, ?_, ?_⟩
  · apply List.Nodup.append isAdded.distinct unsplit.tail.distinct
    intro dest member isOld
    obtain ⟨pred, width, isCompare⟩ := unsplit.tail.compares dest isOld
    have less := form.compare_lt isCompare
    have notLess := fresh dest member
    omega
  · intro dest member
    rcases List.mem_append.mp member with isNew | isOld
    · exact .inr (Nat.le_trans unsplit.passed.grows (fresh dest isNew))
    · exact unsplit.tail.mine dest isOld
  · intro dest member
    rcases List.mem_append.mp member with isNew | isOld
    · obtain ⟨pred, _, isCompare⟩ := isAdded.compares dest isNew
      exact ⟨pred, bitw, (exchanged.compares_iff form).mpr (.inl isCompare)⟩
    · obtain ⟨pred, width, isCompare⟩ := unsplit.tail.compares dest isOld
      refine ⟨pred, width, (exchanged.compares_iff form).mpr (.inr ⟨isCompare, ?_⟩)⟩
      rintro rfl
      exact (List.nodup_cons.mp unsplit.distinct).1 isOld

/-- A round of the loop: the compare stays as it is, or it is split. -/
theorem Unsplit.round (formFirst : SingleAssignment first)
    (unsplit : Unsplit first cmp later (listed :: worklist))
    (isListed : (listed, pred, bitw) ∈ comparesIn later) :
    (splitResult targetBitwidth later listed = (later, []) ∧
      (SplitPredicate pred → bitw = targetBitwidth)) ∨
    ∃ next added new, splitResult targetBitwidth later listed = (next, added) ∧
      SplitPredicate pred ∧ bitw ≠ targetBitwidth ∧
      Exchanged later listed next new ∧
      Added targetBitwidth SplitPredicate (bitw / 2) new added ∧
      Unsplit first cmp next (added ++ worklist) := by
  have form := unsplit.passed.form
  obtain ⟨inst, member, rfl, compared⟩ := mem_comparesOf.mp isListed
  obtain ⟨loc, op0, op1, found, _⟩ := icmpAt_of_mem form member compared
  by_cases supported : SplitPredicate pred
  · by_cases narrow : bitw = targetBitwidth
    · subst narrow
      refine .inl ⟨?_, fun _ => rfl⟩
      simp only [splitResult, splitCompare_same found supported rfl, Option.getD_some]
    · obtain ⟨next, added, new, split, exchanged, isAdded⟩ :=
        splitCompare_wide form member compared supported narrow
      refine .inr ⟨next, added, new, ?_, supported, narrow, exchanged, isAdded,
        unsplit.exchange formFirst exchanged isAdded⟩
      simp only [splitResult, split, Option.getD_some]
  · refine .inl ⟨?_, fun isSupported => absurd isSupported supported⟩
    simp only [splitResult, splitCompare_refused found supported, Option.getD_none]

/-- What each round keeps holds when the worklist is empty. -/
theorem splitWorklist_invariant
    {Inv : Ssa.Function Memory → List Nat → Prop}
    (step : ∀ later listed worklist, Inv later (listed :: worklist) →
      Inv (splitResult targetBitwidth later listed).1
        ((splitResult targetBitwidth later listed).2 ++ worklist))
    (wide : targetBitwidth < bitw) {fuel : Nat} (start : Inv later worklist)
    (ran : splitWorklist targetBitwidth bitw fuel later worklist =
      some next) : Inv next [] := by
  induction fuel generalizing later worklist with
  | zero =>
      cases worklist with
      | nil =>
          obtain rfl := Option.some.inj ran
          exact start
      | cons listed worklist => cases ran
  | succ fuel induction =>
      cases worklist with
      | nil =>
          obtain rfl := Option.some.inj ran
          exact start
      | cons listed worklist =>
          have holds := step later listed worklist start
          rw [splitWorklist, if_pos wide] at ran
          unfold splitResult at holds
          cases split : splitCompare targetBitwidth later listed with
          | none =>
              rw [split] at ran holds
              exact induction holds ran
          | some result =>
              rw [split] at ran holds
              exact induction holds ran

theorem eq_of_splitWorklist_narrow (narrow : bitw ≤ targetBitwidth)
    {fuel : Nat} (ran : splitWorklist targetBitwidth bitw fuel later worklist =
      some next) : next = later := by
  have enough := splitWorklist_mono (Nat.le_max_left fuel worklist.length) ran
  rw [splitWorklist_narrow narrow later (Nat.le_max_right _ _)] at enough
  exact (Option.some.inj enough).symm

end Loop

/-! ## One compare -/

/-- Every compare that is too wide, the first or a new one, is on the
worklist. -/
def Covered (targetBitwidth : Nat) (first : Ssa.Function Memory) (cmp : Nat)
    (later : Ssa.Function Memory) (worklist : List Nat) : Prop :=
  ∀ dest pred bitw, (dest, pred, bitw) ∈ comparesIn later →
    dest = cmp ∨ first.nextReg ≤ dest → targetBitwidth < bitw → dest ∈ worklist

/-- What every compare on the worklist meets. -/
def Meets (good : IcmpPredicate → Nat → Prop) (later : Ssa.Function Memory)
    (worklist : List Nat) : Prop :=
  ∀ dest ∈ worklist, ∀ pred bitw, (dest, pred, bitw) ∈ comparesIn later →
    good pred bitw

/-- The compares that can be split down to the target. -/
def Splits (targetBitwidth : Nat) (pred : IcmpPredicate) (bitw : Nat) : Prop :=
  SplitPredicate pred ∧ ∃ level, bitw = targetBitwidth * 2 ^ level

section Compare

variable {first later function next : Ssa.Function Memory}
  {targetBitwidth fuel cmp listed dest bitw : Nat}
  {worklist added : List Nat} {new : List (Inst Memory)}
  {pred : IcmpPredicate} {allowed : IcmpPredicate → Prop}

theorem Unsplit.start (form : SingleAssignment function)
    (member : (cmp, pred, bitw) ∈ comparesIn function) :
    Unsplit function cmp function [cmp] where
  passed := .refl form [cmp]
  distinct := List.nodup_singleton cmp
  mine := fun _ isFirst => .inl (List.mem_singleton.mp isFirst)
  compares := by
    intro dest isFirst
    obtain rfl := List.mem_singleton.mp isFirst
    exact ⟨pred, bitw, member⟩

theorem Covered.start (form : SingleAssignment function) :
    Covered targetBitwidth function cmp function [cmp] := by
  rintro dest pred bitw member (rfl | fresh) _
  · exact List.mem_singleton_self dest
  · have less := form.compare_lt member
    omega

theorem Covered.exchange
    (unsplit : Unsplit first cmp later (listed :: worklist))
    (covered : Covered targetBitwidth first cmp later (listed :: worklist))
    (exchanged : Exchanged later listed next new)
    (isAdded : Added targetBitwidth allowed bitw new added) :
    Covered targetBitwidth first cmp next (added ++ worklist) := by
  intro dest pred width member mine wide
  apply List.mem_append.mpr
  rcases (exchanged.compares_iff unsplit.passed.form).mp member with
    isNew | ⟨isOld, away⟩
  · exact .inl (isAdded.wide dest pred width isNew wide)
  · have isListed := covered dest pred width isOld mine wide
    rcases List.mem_cons.mp isListed with same | inRest
    · exact absurd same away
    · exact .inr inRest

theorem Meets.exchange {good : IcmpPredicate → Nat → Prop}
    (unsplit : Unsplit first cmp later (listed :: worklist))
    (meets : Meets good later worklist)
    (exchanged : Exchanged later listed next new)
    (isAdded : Added targetBitwidth allowed bitw new added)
    (isGood : ∀ pred, allowed pred → good pred bitw) :
    Meets good next (added ++ worklist) := by
  have form := unsplit.passed.form
  intro dest inList pred width member
  rcases List.mem_append.mp inList with isNew | inRest
  · obtain ⟨pred', isAllowed, isCompare⟩ := isAdded.compares dest isNew
    obtain ⟨rfl, rfl⟩ := (exchanged.form form).compare_eq member
      ((exchanged.compares_iff form).mpr (.inl isCompare))
    exact isGood pred isAllowed
  · rcases (exchanged.compares_iff form).mp member with isNew | ⟨isOld, _⟩
    · obtain ⟨_, _, isCompare⟩ := unsplit.tail.compares dest inRest
      have less := form.compare_lt isCompare
      have fresh := exchanged.compare_fresh isNew
      omega
    · exact meets dest inRest pred width isOld

/-- The loop leaves no wide compare if it can split those it begins with. -/
theorem splitWorklist_complete (formFirst : SingleAssignment first)
    (unsplit : Unsplit first cmp later worklist)
    (covered : Covered targetBitwidth first cmp later worklist)
    (splits : Meets (Splits targetBitwidth) later worklist)
    (wide : targetBitwidth < bitw)
    (ran : splitWorklist targetBitwidth bitw fuel later worklist = some next) :
    Unsplit first cmp next [] ∧ Covered targetBitwidth first cmp next [] := by
  have invariant := @splitWorklist_invariant Memory later next targetBitwidth
    bitw worklist
    (fun later worklist => Unsplit first cmp later worklist ∧
      Covered targetBitwidth first cmp later worklist ∧
      Meets (Splits targetBitwidth) later worklist) ?_ wide fuel
    ⟨unsplit, covered, splits⟩ ran
  · exact ⟨invariant.1, invariant.2.1⟩
  rintro later listed worklist ⟨unsplit, covered, splits⟩
  have form := unsplit.passed.form
  obtain ⟨pred, width, isListed⟩ := unsplit.compares listed List.mem_cons_self
  obtain ⟨supported, level, isWidth⟩ :=
    splits listed List.mem_cons_self pred width isListed
  have splitsRest : Meets (Splits targetBitwidth) later worklist :=
    fun dest inRest => splits dest (List.mem_cons_of_mem _ inRest)
  rcases unsplit.round formFirst isListed with
    ⟨result, narrow⟩ |
      ⟨next, added, new, result, _, different, exchanged, isAdded, unsplit'⟩
  · rw [result]
    refine ⟨unsplit.tail, ?_, splitsRest⟩
    intro dest other size member mine isWide
    rcases List.mem_cons.mp (covered dest other size member mine isWide) with
      rfl | inRest
    · obtain ⟨_, rfl⟩ := form.compare_eq isListed member
      rw [narrow supported] at isWide
      exact absurd isWide (Nat.lt_irrefl _)
    · exact inRest
  · rw [result]
    refine ⟨unsplit', covered.exchange unsplit exchanged isAdded,
      Meets.exchange unsplit splitsRest exchanged isAdded ?_⟩
    intro half isSupported
    refine ⟨isSupported, ?_⟩
    cases level with
    | zero => exact absurd (by rw [isWidth, Nat.pow_zero, Nat.mul_one]) different
    | succ level =>
        refine ⟨level, ?_⟩
        rw [isWidth, Nat.pow_succ, ← Nat.mul_assoc, Nat.mul_div_cancel _
          Nat.zero_lt_two]

/-- The loop leaves a compare with a predicate it refuses. -/
theorem splitWorklist_leaves (formFirst : SingleAssignment first)
    (unsplit : Unsplit first cmp later worklist)
    (member : (dest, pred, bitw) ∈ comparesIn later)
    (unsupported : ¬SplitPredicate pred) {outer : Nat}
    (wide : targetBitwidth < outer)
    (ran : splitWorklist targetBitwidth outer fuel later worklist = some next) :
    (dest, pred, bitw) ∈ comparesIn next := by
  refine (@splitWorklist_invariant Memory later next targetBitwidth outer
    worklist (fun later worklist => Unsplit first cmp later worklist ∧
      (dest, pred, bitw) ∈ comparesIn later) ?_ wide fuel ⟨unsplit, member⟩
    ran).2
  rintro later listed worklist ⟨unsplit, member⟩
  have form := unsplit.passed.form
  obtain ⟨other, width, isListed⟩ := unsplit.compares listed List.mem_cons_self
  rcases unsplit.round formFirst isListed with
    ⟨result, _⟩ |
      ⟨next, added, new, result, supported, _, exchanged, _, unsplit'⟩
  · rw [result]
    exact ⟨unsplit.tail, member⟩
  · rw [result]
    refine ⟨unsplit', (exchanged.compares_iff form).mpr (.inr ⟨member, ?_⟩)⟩
    rintro rfl
    obtain ⟨rfl, _⟩ := form.compare_eq isListed member
    exact unsupported supported

section Simplified

variable (form : SingleAssignment function)
  (member : (cmp, pred, bitw) ∈ comparesIn function)
  (positive : 0 < targetBitwidth)
include form member positive

/-- After the first half: the state in which the loop begins. -/
theorem simplified_begins :
    ∃ next worklist, simplified function cmp = (next, bitw, worklist) ∧
      Unsplit function cmp next worklist ∧
      Covered targetBitwidth function cmp next worklist ∧
      Meets (fun simple width => simple ∈ simplifiedPredicates pred ∧
        width = bitw) next worklist ∧
      ∀ simple ∈ simplifiedPredicates pred, ∃ dest,
        (dest = cmp ∨ function.nextReg ≤ dest) ∧
          (dest, simple, bitw) ∈ comparesIn next := by
  have unsplit := Unsplit.start form member
  have covered := @Covered.start _ function targetBitwidth cmp form
  obtain ⟨inst, isInst, rfl, compared⟩ := mem_comparesOf.mp member
  rcases simplified_compare form isInst compared positive with
    ⟨next, worklist, new, result, exchanged, isAdded, all⟩ |
      ⟨supported, simples, result⟩
  · refine ⟨next, worklist, result, ?_, ?_, ?_, ?_⟩
    · exact worklist.append_nil ▸ unsplit.exchange form exchanged isAdded
    · exact worklist.append_nil ▸ covered.exchange unsplit exchanged isAdded
    · have none : Meets (fun simple width =>
          simple ∈ simplifiedPredicates pred ∧ width = bitw) function [] :=
        fun dest isNone => absurd isNone List.not_mem_nil
      exact worklist.append_nil ▸ Meets.exchange unsplit none exchanged
        isAdded fun simple isSimple => ⟨isSimple, rfl⟩
    · intro simple isSimple
      obtain ⟨dest, isNew⟩ := all simple isSimple
      exact ⟨dest, .inr (exchanged.compare_fresh isNew),
        (exchanged.compares_iff form).mpr (.inl isNew)⟩
  · refine ⟨function, [inst.dest], result, unsplit, covered, ?_, ?_⟩
    · intro dest isFirst other width isCompare
      obtain rfl := List.mem_singleton.mp isFirst
      obtain ⟨rfl, rfl⟩ := form.compare_eq member isCompare
      exact ⟨simples ▸ List.mem_singleton_self pred, rfl⟩
    · intro simple isSimple
      rw [simples] at isSimple
      obtain rfl := List.mem_singleton.mp isSimple
      exact ⟨inst.dest, .inl rfl, member⟩

variable (ran : simplifyAndSplit targetBitwidth fuel function cmp = some next)
include ran

theorem simplifyAndSplit_passed : Passed function [cmp] next := by
  obtain ⟨middle, worklist, result, unsplit, _⟩ :=
    simplified_begins form member positive
  rw [simplifyAndSplit_eq, result] at ran
  by_cases wide : targetBitwidth < bitw
  · refine (splitWorklist_invariant ?_ wide unsplit ran).passed
    intro later listed worklist unsplit
    obtain ⟨other, width, isListed⟩ := unsplit.compares listed List.mem_cons_self
    rcases unsplit.round form isListed with
      ⟨result, _⟩ | ⟨next, added, new, result, _, _, _, _, unsplit'⟩
    · rw [result]
      exact unsplit.tail
    · rw [result]
      exact unsplit'
  · rw [eq_of_splitWorklist_narrow (Nat.le_of_not_lt wide) ran]
    exact unsplit.passed

theorem simplifyAndSplit_wide_iff
    (isWidth : ∃ level, bitw = targetBitwidth * 2 ^ level) :
    (∃ dest pred width, (dest, pred, width) ∈ comparesIn next ∧
        (dest = cmp ∨ function.nextReg ≤ dest) ∧ targetBitwidth < width) ↔
      (pred = .sge ∨ pred = .sle) ∧ targetBitwidth < bitw := by
  obtain ⟨middle, worklist, result, unsplit, covered, meets, simples⟩ :=
    simplified_begins form member positive
  rw [simplifyAndSplit_eq, result] at ran
  by_cases wide : targetBitwidth < bitw
  · constructor
    · rintro ⟨dest, other, width, isCompare, mine, isWide⟩
      refine ⟨?_, wide⟩
      by_contra unsigned
      have supported : ∀ simple ∈ simplifiedPredicates pred,
          SplitPredicate simple := by
        cases pred with
        | sge => exact absurd (.inl rfl) unsigned
        | sle => exact absurd (.inr rfl) unsigned
        | _ => simp [simplifiedPredicates, SplitPredicate]
      have splits : Meets (Splits targetBitwidth) middle worklist := by
        intro dest inList simple size isCompare
        obtain ⟨isSimple, rfl⟩ := meets dest inList simple size isCompare
        exact ⟨supported simple isSimple, isWidth⟩
      have complete := splitWorklist_complete form unsplit covered splits wide ran
      exact absurd (complete.2 dest other width isCompare mine isWide)
        List.not_mem_nil
    · rintro ⟨signed, _⟩
      obtain ⟨simple, isSimple, unsupported⟩ :
          ∃ simple ∈ simplifiedPredicates pred, ¬SplitPredicate simple := by
        rcases signed with rfl | rfl
        · exact ⟨.sgt, by simp [simplifiedPredicates], by simp [SplitPredicate]⟩
        · exact ⟨.slt, by simp [simplifiedPredicates], by simp [SplitPredicate]⟩
      obtain ⟨dest, mine, isCompare⟩ := simples simple isSimple
      exact ⟨dest, simple, bitw, splitWorklist_leaves form unsplit isCompare
        unsupported wide ran, mine, wide⟩
  · rw [eq_of_splitWorklist_narrow (Nat.le_of_not_lt wide) ran]
    refine iff_of_false ?_ fun signed => wide signed.2
    rintro ⟨dest, other, width, isCompare, mine, isWide⟩
    have inList := covered dest other width isCompare mine isWide
    obtain ⟨_, rfl⟩ := meets dest inList other width isCompare
    exact wide isWide

end Simplified

end Compare

/-! ## The whole pass -/

/-- The pass, with `fuel` for each loop, comes to the compare `cmp` with the
function `first` and leaves it with `middle`; `after` is what it does later. -/
structure TurnOf (targetBitwidth fuel : Nat) (function : Ssa.Function Memory)
    (cmp : Nat) (first middle : Ssa.Function Memory) (before after : List Nat) :
    Prop where
  collected : supportedCompares function = before ++ cmp :: after
  earlier : before.foldlM (simplifyAndSplit targetBitwidth fuel) function = some first
  now : simplifyAndSplit targetBitwidth fuel first cmp = some middle

/-- What descends from a compare: itself and the registers that are new when its
turn is over. -/
def Descends (targetBitwidth fuel : Nat) (function : Ssa.Function Memory)
    (cmp dest : Nat) : Prop :=
  ∃ first middle before after,
    TurnOf targetBitwidth fuel function cmp first middle before after ∧
      (dest = cmp ∨ first.nextReg ≤ dest ∧ dest < middle.nextReg)

/-- An integer compare on more bits than the target. -/
def WideCompare (targetBitwidth : Nat) (inst : Inst Memory) : Prop :=
  ∃ pred bitw, comparedBy inst.rhs = some (pred, bitw) ∧ targetBitwidth < bitw

section Pass

variable {function first middle later next : Ssa.Function Memory}
  {targetBitwidth fuel cmp dest bitw : Nat} {cmps before after : List Nat}
  {pred : IcmpPredicate}

theorem Passed.compare_keep (passed : Passed first cmps later)
    (member : (dest, pred, bitw) ∈ comparesIn first) (away : dest ∉ cmps) :
    (dest, pred, bitw) ∈ comparesIn later := by
  obtain ⟨inst, isInst, rfl, compared⟩ := mem_comparesOf.mp member
  exact mem_comparesOf.mpr
    ⟨inst, passed.keeps inst isInst away, rfl, compared⟩

theorem Passed.compare_old (passed : Passed first cmps later)
    (member : (dest, pred, bitw) ∈ comparesIn later)
    (less : dest < first.nextReg) :
    (dest, pred, bitw) ∈ comparesIn first := by
  obtain ⟨inst, isInst, rfl, compared⟩ := mem_comparesOf.mp member
  exact mem_comparesOf.mpr ⟨inst, passed.old inst isInst less, rfl, compared⟩

theorem Passed.trans (start : Passed first [cmp] middle)
    (rest : Passed middle cmps later) : Passed first (cmp :: cmps) later where
  form := rest.form
  grows := Nat.le_trans start.grows rest.grows
  keeps := by
    intro inst member away
    have others : inst.dest ≠ cmp ∧ inst.dest ∉ cmps := by
      simpa [List.mem_cons] using away
    apply rest.keeps inst ?_ others.2
    apply start.keeps inst member
    exact fun isFirst => others.1 (List.mem_singleton.mp isFirst)
  old := by
    intro inst member less
    have inMiddle := rest.old inst member (Nat.lt_of_lt_of_le less start.grows)
    exact start.old inst inMiddle less

/-- The turns of some compares touch nothing else. -/
theorem foldlM_passed (form : SingleAssignment function)
    (positive : 0 < targetBitwidth) (distinct : cmps.Nodup)
    (compares : ∀ cmp ∈ cmps, ∃ pred bitw, (cmp, pred, bitw) ∈ comparesIn function)
    (ran : cmps.foldlM (simplifyAndSplit targetBitwidth fuel) function =
      some next) : Passed function cmps next := by
  induction cmps generalizing function with
  | nil =>
      obtain rfl := Option.some.inj ran
      exact .refl form []
  | cons cmp cmps induction =>
      rw [List.foldlM_cons] at ran
      obtain ⟨middle, now, ran⟩ := Option.bind_eq_some_iff.mp ran
      obtain ⟨pred, bitw, member⟩ := compares cmp List.mem_cons_self
      have passed := simplifyAndSplit_passed form member positive now
      rw [List.nodup_cons] at distinct
      apply passed.trans
      apply induction passed.form distinct.2 ?_ ran
      intro other inRest
      obtain ⟨pred, bitw, isCompare⟩ := compares other (List.mem_cons_of_mem _ inRest)
      refine ⟨pred, bitw, passed.compare_keep isCompare ?_⟩
      intro same
      obtain rfl := List.mem_singleton.mp same
      exact distinct.1 inRest

theorem mem_supportedCompares : cmp ∈ supportedCompares function ↔
    ∃ pred bitw, (cmp, pred, bitw) ∈ comparesIn function ∧
      isSupportedBitWidth bitw = true := by
  simp only [supportedCompares, List.mem_filterMap, comparesIn, mem_comparesOf,
    Option.bind_eq_some_iff]
  constructor
  · rintro ⟨inst, member, ⟨pred, bitw⟩, compared, isDest⟩
    split at isDest
    · rename_i supported
      exact ⟨pred, bitw, ⟨inst, member, Option.some.inj isDest, compared⟩, supported⟩
    · cases isDest
  · rintro ⟨pred, bitw, ⟨inst, member, rfl, compared⟩, supported⟩
    exact ⟨inst, member, (pred, bitw), compared, if_pos supported⟩

theorem supportedCompares_distinct (form : SingleAssignment function) :
    (supportedCompares function).Nodup := by
  have distinct := supportedCompares_nodup form.single
  have same : (supportedCompares function).map
      (SplitTask.register ∘ SplitTask.simplify) = supportedCompares function :=
    List.map_id _
  rwa [List.map_map, same] at distinct

section Turn

variable (form : SingleAssignment function) (positive : 0 < targetBitwidth)
  (turn : TurnOf targetBitwidth fuel function cmp first middle before after)
include form positive turn

omit form positive in
theorem TurnOf.compares : ∀ collected ∈ before ++ cmp :: after, ∃ pred bitw,
    (collected, pred, bitw) ∈ comparesIn function := by
  intro collected member
  rw [← turn.collected] at member
  obtain ⟨pred, bitw, isCompare, _⟩ := mem_supportedCompares.mp member
  exact ⟨pred, bitw, isCompare⟩

theorem TurnOf.passed : Passed function before first := by
  have distinct := supportedCompares_distinct form
  rw [turn.collected] at distinct
  exact foldlM_passed form positive distinct.of_append_left
    (fun collected member => turn.compares collected
      (List.mem_append_left _ member)) turn.earlier

section

variable (member : (cmp, pred, bitw) ∈ comparesIn function)
include member

theorem TurnOf.compare : (cmp, pred, bitw) ∈ comparesIn first := by
  apply (turn.passed form positive).compare_keep member
  have distinct := supportedCompares_distinct form
  rw [turn.collected] at distinct
  exact fun isBefore =>
    (List.nodup_append.mp distinct).2.2 cmp isBefore cmp List.mem_cons_self rfl

theorem TurnOf.rest (ran : runOnModule targetBitwidth fuel function = some next) :
    Passed middle after next ∧ ∀ dest, dest = cmp ∨ first.nextReg ≤ dest →
      dest ∉ after := by
  have distinct := supportedCompares_distinct form
  rw [turn.collected] at distinct
  have rest := List.nodup_cons.mp distinct.of_append_right
  have passed := turn.passed form positive
  have passedNow := simplifyAndSplit_passed passed.form
    (turn.compare form positive member) positive turn.now
  have away : ∀ dest, dest = cmp ∨ first.nextReg ≤ dest → dest ∉ after := by
    rintro dest (rfl | fresh) isAfter
    · exact rest.1 isAfter
    · obtain ⟨_, _, isCompare⟩ := turn.compares dest
        (List.mem_append_right _ (List.mem_cons_of_mem _ isAfter))
      have less := form.compare_lt isCompare
      have grows := passed.grows
      omega
  refine ⟨?_, away⟩
  rw [runOnModule, turn.collected, List.foldlM_append, turn.earlier] at ran
  change (cmp :: after).foldlM (simplifyAndSplit targetBitwidth fuel) first =
    some next at ran
  rw [List.foldlM_cons, turn.now] at ran
  refine foldlM_passed passedNow.form positive rest.2 ?_ ran
  intro collected isAfter
  obtain ⟨pred, bitw, isCompare⟩ := turn.compares collected
    (List.mem_append_right _ (List.mem_cons_of_mem _ isAfter))
  have notBefore : collected ∉ before := fun isBefore =>
    (List.nodup_append.mp distinct).2.2 collected isBefore collected
      (List.mem_cons_of_mem _ isAfter) rfl
  refine ⟨pred, bitw, passedNow.compare_keep
    (passed.compare_keep isCompare notBefore) ?_⟩
  intro same
  obtain rfl := List.mem_singleton.mp same
  exact rest.1 isAfter

/-- The wide compares that descend from this one, when the pass is over. -/
theorem TurnOf.wide_iff (isWidth : ∃ level, bitw = targetBitwidth * 2 ^ level)
    (ran : runOnModule targetBitwidth fuel function = some next) :
    (∃ other ∈ functionInsts next,
      (other.dest = cmp ∨ first.nextReg ≤ other.dest ∧ other.dest < middle.nextReg) ∧
        WideCompare targetBitwidth other) ↔
      (pred = .sge ∨ pred = .sle) ∧ targetBitwidth < bitw := by
  have passed := turn.passed form positive
  have isCompare := turn.compare form positive member
  have passedNow := simplifyAndSplit_passed passed.form isCompare positive turn.now
  obtain ⟨passedLater, away⟩ := turn.rest form positive member ran
  have less : cmp < middle.nextReg := Nat.lt_of_lt_of_le
    (passed.form.compare_lt isCompare) passedNow.grows
  rw [← simplifyAndSplit_wide_iff passed.form isCompare positive turn.now isWidth]
  constructor
  · rintro ⟨other, isInst, descends, simple, width, compared, wide⟩
    have below : other.dest < middle.nextReg := by
      rcases descends with same | ⟨_, below⟩
      · exact same ▸ less
      · exact below
    have inNext : (other.dest, simple, width) ∈ comparesIn next :=
      mem_comparesOf.mpr ⟨other, isInst, rfl, compared⟩
    exact ⟨other.dest, simple, width, passedLater.compare_old inNext below,
      descends.imp_right And.left, wide⟩
  · rintro ⟨dest, simple, width, inMiddle, descends, wide⟩
    obtain ⟨other, isInst, rfl, compared⟩ := mem_comparesOf.mp
      (passedLater.compare_keep inMiddle (away dest descends))
    exact ⟨other, isInst,
      descends.imp_right fun fresh =>
        ⟨fresh, passedNow.form.compare_lt inMiddle⟩,
      simple, width, compared, wide⟩

end

end Turn

theorem exists_turn
    (ran : runOnModule targetBitwidth fuel function = some next)
    (member : cmp ∈ supportedCompares function) :
    ∃ first middle before after,
      TurnOf targetBitwidth fuel function cmp first middle before after := by
  obtain ⟨before, after, collected⟩ := List.append_of_mem member
  rw [runOnModule, collected, List.foldlM_append] at ran
  obtain ⟨first, earlier, ran⟩ := Option.bind_eq_some_iff.mp ran
  rw [List.foldlM_cons] at ran
  obtain ⟨middle, now, _⟩ := Option.bind_eq_some_iff.mp ran
  exact ⟨first, middle, before, after, collected, earlier, now⟩

theorem suitsTarget_of_two_pow
    (isTarget : targetBitwidth ∈ [8, 16, 32, 64])
    (supported : isSupportedBitWidth bitw = true) :
    SuitsTarget targetBitwidth pred bitw := by
  obtain ⟨level, rfl⟩ := supported_two_pow supported
  obtain ⟨targetLevel, rfl⟩ : ∃ targetLevel, targetBitwidth = 2 ^ targetLevel := by
    simp only [List.mem_cons, List.not_mem_nil, or_false] at isTarget
    rcases isTarget with rfl | rfl | rfl | rfl
    · exact ⟨3, rfl⟩
    · exact ⟨4, rfl⟩
    · exact ⟨5, rfl⟩
    · exact ⟨6, rfl⟩
  rcases Nat.le_total level targetLevel with below | above
  · exact .inl (Nat.pow_le_pow_right Nat.zero_lt_two below)
  · exact .inr (.inl (Nat.pow_dvd_pow 2 above))

theorem supported_of_level (isTarget : targetBitwidth ∈ [8, 16, 32, 64])
    {level : Nat} (isWidth : bitw = targetBitwidth * 2 ^ level)
    (atMost : bitw ≤ 256) : isSupportedBitWidth bitw = true := by
  have small : level < 6 := by
    by_contra notSmall
    have large : 2 ^ 6 ≤ 2 ^ level :=
      Nat.pow_le_pow_right Nat.zero_lt_two (Nat.le_of_not_lt notSmall)
    have eight : 8 ≤ targetBitwidth := by
      simp only [List.mem_cons, List.not_mem_nil, or_false] at isTarget
      omega
    have product : 8 * 2 ^ 6 ≤ targetBitwidth * 2 ^ level := Nat.mul_le_mul eight large
    omega
  have levels : level = 0 ∨ level = 1 ∨ level = 2 ∨ level = 3 ∨ level = 4 ∨
      level = 5 := by
    omega
  simp only [List.mem_cons, List.not_mem_nil, or_false] at isTarget
  simp only [isSupportedBitWidth, decide_eq_true_eq]
  rcases levels with rfl | rfl | rfl | rfl | rfl | rfl <;> omega

theorem runOnModule_ends (form : SingleAssignment function)
    {widths : Nat → Nat} (typed : function.Typed widths)
    (isTarget : targetBitwidth ∈ [8, 16, 32, 64]) :
    ∃ fuel next, runOnModule targetBitwidth fuel function = some next := by
  apply ((splitsWell_iff form.wellFormed form.single typed targetBitwidth).mpr ?_).ends
  intro _ _ _ _ _ supported
  exact suitsTarget_of_two_pow isTarget supported

theorem descends_wide_iff (form : SingleAssignment function)
    (positive : 0 < targetBitwidth)
    (member : (cmp, pred, bitw) ∈ comparesIn function)
    (supported : isSupportedBitWidth bitw = true)
    (isWidth : ∃ level, bitw = targetBitwidth * 2 ^ level)
    (ran : runOnModule targetBitwidth fuel function = some next) :
    (∃ other ∈ functionInsts next,
      Descends targetBitwidth fuel function cmp other.dest ∧
        WideCompare targetBitwidth other) ↔
      (pred = .sge ∨ pred = .sle) ∧ targetBitwidth < bitw := by
  constructor
  · rintro ⟨other, isInst, ⟨first, middle, before, after, turn, mine⟩, wide⟩
    exact (turn.wide_iff form positive member isWidth ran).mp
      ⟨other, isInst, mine, wide⟩
  · intro signed
    obtain ⟨first, middle, before, after, turn⟩ :=
      exists_turn ran (mem_supportedCompares.mpr ⟨pred, bitw, member, supported⟩)
    obtain ⟨other, isInst, mine, wide⟩ :=
      (turn.wide_iff form positive member isWidth ran).mpr signed
    exact ⟨other, isInst, ⟨first, middle, before, after, turn, mine⟩, wide⟩

/-- For each target and each compare whose width is the target times a power of
two: the pass ends, and no compare wider than the target that descends from this
one is left, just if it is not a signed one with equality or has the target
width already. -/
theorem runOnModule_complete_iff (wellFormed : function.WellFormed)
    (single : ((functionInsts function).map Inst.dest).Nodup)
    {widths : Nat → Nat} (typed : function.Typed widths)
    (isTarget : targetBitwidth ∈ [8, 16, 32, 64]) {inst : Inst Memory}
    (member : inst ∈ functionInsts function)
    (compared : comparedBy inst.rhs = some (pred, bitw)) {level : Nat}
    (isWidth : bitw = targetBitwidth * 2 ^ level) (atMost : bitw ≤ 256) :
    (∃ fuel next, runOnModule targetBitwidth fuel function = some next) ∧
      ∀ fuel next, runOnModule targetBitwidth fuel function = some next →
        ((¬∃ other ∈ functionInsts next,
            Descends targetBitwidth fuel function inst.dest other.dest ∧
              WideCompare targetBitwidth other) ↔
          (pred ≠ .sge ∧ pred ≠ .sle) ∨ bitw = targetBitwidth) := by
  have form : SingleAssignment function := ⟨wellFormed, single⟩
  have positive : 0 < targetBitwidth := by
    simp only [List.mem_cons, List.not_mem_nil, or_false] at isTarget
    omega
  have isCompare : (inst.dest, pred, bitw) ∈ comparesIn function :=
    mem_comparesOf.mpr ⟨inst, member, rfl, compared⟩
  have notBelow : targetBitwidth ≤ bitw := by
    rw [isWidth]
    exact Nat.le_mul_of_pos_right _ (Nat.two_pow_pos level)
  refine ⟨runOnModule_ends form typed isTarget, ?_⟩
  intro fuel next ran
  rw [descends_wide_iff form positive isCompare
    (supported_of_level isTarget isWidth atMost) ⟨level, isWidth⟩ ran,
    not_and_or, not_or, Nat.not_lt]
  constructor
  · rintro (unsigned | narrow)
    · exact .inl unsigned
    · exact .inr (Nat.le_antisymm narrow notBelow)
  · rintro (unsigned | rfl)
    · exact .inl unsigned
    · exact .inr (Nat.le_refl _)

end Pass

theorem runOnModule_complete_iff_ult :
    (∃ fuel next, runOnModule 8 fuel (oneCompare .ult) = some next) ∧
      ∀ fuel next, runOnModule 8 fuel (oneCompare .ult) = some next →
        ¬∃ other ∈ functionInsts next,
          Descends 8 fuel (oneCompare .ult) 2 other.dest ∧ WideCompare 8 other := by
  obtain ⟨ends, complete⟩ := @runOnModule_complete_iff _ _ 8 32 .ult
    (oneCompare_wellFormed .ult) (oneCompare_nodup .ult) _
    (oneCompare_typed .ult) (by simp) _ (List.mem_singleton_self _) rfl 2 rfl
    (by simp)
  refine ⟨ends, fun fuel next ran => (complete fuel next ran).mpr ?_⟩
  exact .inl ⟨by simp, by simp⟩

/-- The compare `sge` on 32 bits leaves one of 32 bits that descends from it. -/
theorem oneCompare_leavesWide :
    ∃ fuel next, runOnModule 8 fuel (oneCompare .sge) = some next ∧
      ∃ other ∈ functionInsts next,
        Descends 8 fuel (oneCompare .sge) 2 other.dest ∧ WideCompare 8 other := by
  have form : SingleAssignment (oneCompare .sge) :=
    ⟨oneCompare_wellFormed .sge, oneCompare_nodup .sge⟩
  obtain ⟨fuel, next, ran⟩ := @runOnModule_ends _ _ 8 form _
    (oneCompare_typed .sge) (by simp)
  refine ⟨fuel, next, ran, ?_⟩
  exact (@descends_wide_iff _ _ _ 8 fuel 2 32 .sge form (by simp)
    (List.mem_singleton_self _) rfl ⟨2, rfl⟩ ran).mpr ⟨.inl rfl, by simp⟩

end AFLPlusPlus
