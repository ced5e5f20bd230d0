import AFLPlusPlus.Instrumentation.SplitComparesWorklist

/-!
# When the split of integer compares ends

Each round of the pass is one round of the worklist of predicates and widths.
It leaves a well-typed function just if the compare it takes has halves.
-/

namespace AFLPlusPlus

open Ssa Worklist

variable {Memory : Type}

def SplitTask.register : SplitTask → Nat
  | .simplify cmp => cmp
  | .split _ cmp => cmp

/-- The compare of a task is in the function, as the item says. -/
inductive TaskOf (function : Ssa.Function Memory) : SplitTask → SplitItem → Prop
  | simplify {cmp bitw : Nat} {pred : IcmpPredicate} {op0 op1 : Operand bitw}
      (supported : isSupportedBitWidth bitw = true)
      (defines : function.Defines ⟨1, cmp, .icmp pred op0 op1⟩) :
      TaskOf function (.simplify cmp) (.simplify pred bitw)
  | split {outer cmp bitw : Nat} {pred : IcmpPredicate}
      {op0 op1 : Operand bitw}
      (defines : function.Defines ⟨1, cmp, .icmp pred op0 op1⟩) :
      TaskOf function (.split outer cmp) (.split outer pred bitw)

/-- What one round does for its compare. -/
structure Advance (targetBitwidth : Nat) (later : Ssa.Function Memory)
    (cmp : Nat) (item : SplitItem) (next : Ssa.Function Memory)
    (added : List SplitTask) : Prop where
  wellFormed : next.WellFormed
  grows : later.nextReg ≤ next.nextReg
  keeps : ∀ inst, later.Defines inst → inst.dest ≠ cmp → next.Defines inst
  tasks : List.Forall₂ (TaskOf next) added (itemSuccessors targetBitwidth item)
  distinct : (added.map SplitTask.register).Nodup
  registers : ∀ task ∈ added, task.register = cmp ∨ later.nextReg ≤ task.register
  wellMade : ∀ (function : Ssa.Function Memory) (widths newWidths : Nat → Nat),
    function.nextReg ≤ later.nextReg →
    function.WellMade widths later newWidths →
    (GoodItem targetBitwidth item ↔
      ∃ nextWidths, function.WellMade widths next nextWidths)

variable {expansion : Expansion Memory} {compares : List Nat} {loc : Location Memory}
    {more : Nat} {widths : Nat → Nat}

section Round

variable {later : Ssa.Function Memory} {targetBitwidth cmp bitw : Nat}
  {pred : IcmpPredicate} {op0 op1 : Operand bitw} {item : SplitItem}

theorem Advance.unchanged (wellFormed : later.WellFormed)
    (good : GoodItem targetBitwidth item) {added : List SplitTask}
    (tasks : List.Forall₂ (TaskOf later) added (itemSuccessors targetBitwidth item))
    (distinct : (added.map SplitTask.register).Nodup)
    (registers : ∀ task ∈ added, task.register = cmp) :
    Advance targetBitwidth later cmp item later added where
  wellFormed := wellFormed
  grows := Nat.le_refl _
  keeps := fun _ defines _ => defines
  tasks := tasks
  distinct := distinct
  registers := fun task member => .inl (registers task member)
  wellMade := fun _ _ newWidths _ wellMade =>
    iff_of_true good ⟨newWidths, wellMade⟩

/-- The compare is replaced by code that is well typed if its operands are. -/
theorem Advance.expand (wellFormed : later.WellFormed)
    (isInst : loc.inst = ⟨1, cmp, .icmp pred op0 op1⟩)
    (isBlock : later.blocks loc.label = some loc.block)
    (addable : expansion.Addable later)
    (typed : ∀ widths, op0.Typed widths → op1.Typed widths →
      (∀ inst ∈ expansion.insts, widths inst.dest = inst.width) →
        expansion.Typed widths) (bare : ∀ block ∈ expansion.fragments, block.phis = [])
    (sizes : GoodItem targetBitwidth item → ∀ inst ∈ expansion.insts, inst.OneSize)
    (bad : ¬GoodItem targetBitwidth item → ∃ inst ∈ expansion.insts, inst.width = 0)
    {added : List SplitTask}
    (tasks : List.Forall₂ (TaskOf (later.expand loc expansion)) added
      (itemSuccessors targetBitwidth item))
    (distinct : (added.map SplitTask.register).Nodup)
    (registers : ∀ task ∈ added, later.nextReg ≤ task.register) :
    Advance targetBitwidth later cmp item (later.expand loc expansion)
      added where
  wellFormed := wellFormed.expand isBlock addable.fits
  grows := Nat.le_add_right _ _
  keeps := by
    intro inst defines other
    apply defines.expand wellFormed isBlock addable.fits
    rw [isInst]
    exact other
  tasks := tasks
  distinct := distinct
  registers := fun task member => .inr (registers task member)
  wellMade := by
    intro function widths newWidths grows wellMade
    constructor
    · intro good
      have inBlock : loc.inst ∈ loc.block.body :=
        List.mem_append_right _ List.mem_cons_self
      have isTyped :=
        (wellMade.typed loc.label loc.block isBlock).body loc.inst inBlock
      have isBelow :=
        (wellFormed.below loc.label loc.block isBlock).body loc.inst inBlock
      rw [isInst] at isTyped isBelow
      have old : ∀ id < later.nextReg, expansion.widths newWidths id = newWidths id :=
        fun id below => Expansion.widths_old addable below
      have first := (isTyped.operands ⟨_, op0⟩ (by simp [Rhs.operands])).congr
        old isBelow.2.1
      have second := (isTyped.operands ⟨_, op1⟩ (by simp [Rhs.operands])).congr
        old isBelow.2.2
      refine ⟨_, wellMade.expand wellFormed grows isBlock (by rw [isInst])
        addable (typed _ first second ?_) (sizes good) bare⟩
      exact fun inst member => Expansion.widths_new addable member
    · rintro ⟨nextWidths, made⟩
      by_contra notGood
      obtain ⟨inst, member, zero⟩ := bad notGood
      obtain ⟨label, block, found, inBody⟩ :=
        (wellFormed.expand_defines isBlock addable.fits addable.distinct member).here
      have fresh := addable.fits.fresh inst member
      exact (made.insts label block found inst inBody
        (Nat.le_trans grows fresh)).width zero

section Kinds

variable (wellFormed : later.WellFormed)
include wellFormed

/-- A compare among the added instructions is a task. -/
theorem taskOf_added (isBlock : later.blocks loc.label = some loc.block)
    (addable : expansion.Addable later) (outer position : Nat) {width dest : Nat}
    {simple : IcmpPredicate} {first second : Operand width}
    (is : expansion.insts[position]? = some ⟨1, dest, .icmp simple first second⟩) :
    TaskOf (later.expand loc expansion) (.split outer dest)
      (.split outer simple width) :=
  .split (wellFormed.expand_defines isBlock addable.fits addable.distinct
    (List.mem_of_getElem? is))

variable (defines : later.Defines ⟨1, cmp, .icmp pred op0 op1⟩)
include defines

theorem advance_orEquals {newPred : IcmpPredicate}
    (strict : strictPredicate pred = some newPred)
    (supported : isSupportedBitWidth bitw = true) :
    ∃ next, simplified later cmp = (next, bitw, [later.nextReg + 1, later.nextReg]) ∧
      Advance targetBitwidth later cmp (.simplify pred bitw) next
        ([later.nextReg + 1, later.nextReg].map (.split bitw)) := by
  obtain ⟨loc, found, isInst, isBlock, away, below0, below1⟩ :=
    icmpAt_of_defines wellFormed defines
  have addable := orEqualsParts_addable away below0 below1 newPred
  have positive : bitw ≠ 0 := by
    rintro rfl
    cases supported
  refine ⟨later.expand loc (orEqualsParts later loc.label newPred op0 op1), ?_, ?_⟩
  · cases pred with
    | uge | sge | ule | sle =>
        cases strict
        simp only [simplified, simplifyOrEqualsCompare, found, strictPredicate]
    | _ => cases strict
  · refine .expand wellFormed isInst isBlock addable
      (fun widths typed0 typed1 dest =>
        orEqualsParts_typed later loc.label newPred typed0 typed1 dest)
      (by simp [orEqualsParts])
      (fun _ => orEqualsParts_sizes later loc.label newPred positive)
      ?_ ?_ (by simp [SplitTask.register]) (by simp [SplitTask.register])
    · exact fun bad => absurd trivial bad
    · have items : itemSuccessors targetBitwidth (.simplify pred bitw) =
          [.split bitw .eq bitw, .split bitw newPred bitw] := by
        cases pred with
        | uge | sge | ule | sle =>
            cases strict
            rfl
        | _ => cases strict
      rw [items]
      exact .cons (taskOf_added wellFormed isBlock addable bitw 1 rfl)
        (.cons (taskOf_added wellFormed isBlock addable bitw 0 rfl) .nil)

theorem advance_signed (signed : pred = .sgt ∨ pred = .slt)
    (supported : isSupportedBitWidth bitw = true) :
    ∃ next, simplified later cmp = (next, bitw, [later.nextReg + 6]) ∧
      Advance targetBitwidth later cmp (.simplify pred bitw) next
        ([later.nextReg + 6].map (.split bitw)) := by
  obtain ⟨loc, found, isInst, isBlock, _, below0, below1⟩ :=
    icmpAt_of_defines wellFormed defines
  have addable := signedParts_addable below0 below1 pred
  have positive : bitw ≠ 0 := by
    rintro rfl
    cases supported
  refine ⟨later.expand loc (signedParts later pred op0 op1), ?_, ?_⟩
  · rcases signed with rfl | rfl
    · simp only [simplified, simplifySignedCompare, found]
    · simp only [simplified, simplifySignedCompare, found]
  · refine .expand wellFormed isInst isBlock addable
      (fun widths typed0 typed1 dest =>
        signedParts_typed later pred typed0 typed1 dest)
      (by simp [signedParts])
      (fun _ => signedParts_sizes later pred positive)
      ?_ ?_ (by simp [SplitTask.register]) (by simp [SplitTask.register])
    · exact fun bad => absurd trivial bad
    · have items : itemSuccessors targetBitwidth (.simplify pred bitw) =
          [.split bitw (if pred = .sgt then .ugt else .ult) bitw] := by
        rcases signed with rfl | rfl <;> rfl
      rw [items]
      exact .cons (taskOf_added wellFormed isBlock addable bitw 6 rfl) .nil

variable {outer : Nat} (wide : targetBitwidth < outer)
  (different : bitw ≠ targetBitwidth)
include wide different

omit wellFormed defines in
theorem good_split_iff (supported : SplitPredicate pred) :
    GoodItem targetBitwidth (.split outer pred bitw) ↔ bitw / 2 ≠ 0 :=
  ⟨fun good => good wide different supported, fun halves _ _ _ => halves⟩

theorem advance_split (supported : SplitPredicate pred) :
    ∃ next added, splitCompare targetBitwidth later cmp = some (next, added) ∧
      Advance targetBitwidth later cmp (.split outer pred bitw) next
        (added.map (.split outer)) := by
  obtain ⟨loc, found, isInst, isBlock, away, below0, below1⟩ :=
    icmpAt_of_defines wellFormed defines
  have addable := splitParts_addable away below0 below1 pred
  have good := good_split_iff wide different supported
  have distinct := splitHalves_distinct later.nextReg targetBitwidth bitw pred
  have registers : SplitTask.register ∘ SplitTask.split outer = id := rfl
  refine ⟨_, _, splitCompare_eq found supported different,
    .expand wellFormed isInst isBlock addable ?_ ?_ ?_ ?_ ?_ ?_ ?_⟩
  · intro widths typed0 typed1
    unfold splitParts
    split
    · exact equalityParts_typed later loc.label pred typed0 typed1
    · exact orderParts_typed later loc.label pred typed0 typed1
  · unfold splitParts
    split
    · simp [equalityParts]
    · simp [orderParts]
  · intro isGood
    unfold splitParts
    split
    · exact equalityParts_sizes later loc.label pred (good.mp isGood)
    · exact orderParts_sizes later loc.label pred (good.mp isGood)
  · intro bad
    have zero : bitw / 2 = 0 := by
      by_contra halves
      exact bad (good.mpr halves)
    unfold splitParts
    split
    · exact ⟨_, List.mem_of_getElem? (i := 1) rfl, zero⟩
    · exact ⟨_, List.mem_of_getElem? (i := 1) rfl, zero⟩
  · rw [itemSuccessors, if_pos ⟨wide, different⟩,
      halfPredicates_eq supported later.nextReg, List.map_map, List.map_map,
      List.forall₂_map_left_iff, List.forall₂_map_right_iff, List.forall₂_same]
    intro half isHalf
    obtain ⟨first, second, isAdded⟩ := mem_splitParts isHalf
    exact .split (wellFormed.expand_defines isBlock addable.fits
      addable.distinct isAdded)
  · rwa [List.map_map, registers, List.map_id]
  · intro task member
    obtain ⟨dest, isDest, rfl⟩ := List.mem_map.mp member
    obtain ⟨half, isHalf, rfl⟩ := List.mem_map.mp isDest
    obtain ⟨first, second, isAdded⟩ := mem_splitParts isHalf
    exact addable.fits.fresh _ isAdded

end Kinds

/-- Each task advances as its item says. -/
theorem TaskOf.advance (targetBitwidth : Nat) (wellFormed : later.WellFormed)
    {task : SplitTask} (isTask : TaskOf later task item)
    (rest : List SplitTask) :
    ∃ next added,
      passRound targetBitwidth (later, task :: rest) = (next, added ++ rest) ∧
        Advance targetBitwidth later task.register item next added := by
  cases isTask with
  | @simplify cmp bitw pred op0 op1 supported defines =>
      by_cases orEquals : ∃ newPred, strictPredicate pred = some newPred
      · obtain ⟨newPred, strict⟩ := orEquals
        obtain ⟨next, isSimplified, advance⟩ :=
          advance_orEquals wellFormed defines strict supported
        refine ⟨next, _, ?_, advance⟩
        rw [passRound, isSimplified]
      · by_cases signed : pred = .sgt ∨ pred = .slt
        · obtain ⟨next, isSimplified, advance⟩ :=
            advance_signed wellFormed defines signed supported
          refine ⟨next, _, ?_, advance⟩
          rw [passRound, isSimplified]
        · obtain ⟨loc, found, _⟩ := icmpAt_of_defines wellFormed defines
          simp only [not_or] at signed
          have alone : simplified later cmp = (later, bitw, [cmp]) ∧
              simplifiedPredicates pred = [pred] := by
            cases pred with
            | uge | sge | ule | sle => exact absurd ⟨_, rfl⟩ orEquals
            | sgt => exact absurd rfl signed.1
            | slt => exact absurd rfl signed.2
            | _ => exact ⟨by simp only [simplified, found], rfl⟩
          refine ⟨later, [.split bitw cmp], ?_,
            .unchanged wellFormed ?_ ?_ (List.nodup_singleton _) ?_⟩
          · rw [passRound, alone.1]
            rfl
          · exact trivial
          · rw [itemSuccessors, alone.2]
            exact .cons (.split defines) .nil
          · simp [SplitTask.register]
  | @split outer cmp bitw pred op0 op1 defines =>
      have skipped : itemSuccessors targetBitwidth (.split outer pred bitw) =
          [] → GoodItem targetBitwidth (.split outer pred bitw) →
            Advance targetBitwidth later cmp (.split outer pred bitw) later
              [] := fun none good =>
        .unchanged wellFormed good (none ▸ .nil) List.nodup_nil (by simp)
      by_cases wide : targetBitwidth < outer
      · have round : ∀ {next added},
            splitCompare targetBitwidth later cmp = some (next, added) →
              passRound targetBitwidth (later, .split outer cmp :: rest) =
                (next, added.map (.split outer) ++ rest) := by
          intro next added split
          simp only [passRound, if_pos wide, split]
        obtain ⟨loc, found, _⟩ := icmpAt_of_defines wellFormed defines
        by_cases supported : SplitPredicate pred
        · by_cases same : bitw = targetBitwidth
          · have split : splitCompare targetBitwidth later cmp = some (later, []) :=
              splitCompare_same found supported same
            exact ⟨later, [], round split, skipped (by simp [itemSuccessors, same])
              (fun _ different => absurd same different)⟩
          · obtain ⟨next, added, split, advance⟩ :=
              advance_split wellFormed defines wide same supported
            exact ⟨next, _, round split, advance⟩
        · have refused : splitCompare targetBitwidth later cmp = none :=
            splitCompare_refused found supported
          refine ⟨later, [], ?_, skipped ?_
            (fun _ _ isSplit => absurd isSplit supported)⟩
          · simp only [passRound, if_pos wide, refused, List.nil_append]
          · simp [itemSuccessors, halfPredicates_unsplittable supported]
      · refine ⟨later, [], ?_, skipped ?_ (fun isWide => absurd isWide wide)⟩
        · simp only [passRound, if_neg wide, List.nil_append]
        · simp [itemSuccessors, wide]

end Round

/-- The tasks that are left stand for these items. -/
structure Simulates (later : Ssa.Function Memory) (tasks : List SplitTask)
    (items : List SplitItem) : Prop where
  wellFormed : later.WellFormed
  isTasks : List.Forall₂ (TaskOf later) tasks items
  distinct : (tasks.map SplitTask.register).Nodup

section Pass

variable {function later next : Ssa.Function Memory}
  {targetBitwidth cmp : Nat} {item : SplitItem} {task : SplitTask}
  {tasks added rest : List SplitTask} {items : List SplitItem}

theorem TaskOf.defines (isTask : TaskOf later task item) :
    ∃ inst, later.Defines inst ∧ inst.dest = task.register := by
  cases isTask with
  | simplify supported defines => exact ⟨_, defines, rfl⟩
  | split defines => exact ⟨_, defines, rfl⟩

theorem TaskOf.lt (wellFormed : later.WellFormed)
    (isTask : TaskOf later task item) : task.register < later.nextReg := by
  obtain ⟨inst, defines, same⟩ := isTask.defines
  obtain ⟨label, block, found, member⟩ := defines.here
  rw [← same]
  exact ((wellFormed.below label block found).body inst member).1

theorem TaskOf.keep
    (keeps : ∀ inst, later.Defines inst → inst.dest ≠ cmp → next.Defines inst)
    (isTask : TaskOf later task item) (other : task.register ≠ cmp) :
    TaskOf next task item := by
  cases isTask with
  | simplify supported defines => exact .simplify supported (keeps _ defines other)
  | split defines => exact .split (keeps _ defines other)

theorem Simulates.registers (simulates : Simulates later tasks items) :
    ∀ task ∈ tasks, task.register < later.nextReg := by
  have isTasks := simulates.isTasks
  have wellFormed := simulates.wellFormed
  clear simulates
  induction isTasks with
  | nil => exact fun task member => absurd member List.not_mem_nil
  | cons isTask _ induction =>
      intro task member
      rcases List.mem_cons.mp member with rfl | inRest
      · exact isTask.lt wellFormed
      · exact induction task inRest

theorem forall_taskOf_keep
    (keeps : ∀ inst, later.Defines inst → inst.dest ≠ cmp → next.Defines inst)
    (isTasks : List.Forall₂ (TaskOf later) tasks items)
    (away : ∀ task ∈ tasks, task.register ≠ cmp) :
    List.Forall₂ (TaskOf next) tasks items := by
  induction isTasks with
  | nil => exact .nil
  | cons isTask _ induction =>
      exact .cons (isTask.keep keeps (away _ List.mem_cons_self))
        (induction fun task member => away task (List.mem_cons_of_mem _ member))

theorem Simulates.advance
    (simulates : Simulates later (task :: rest) (item :: items))
    (advance : Advance targetBitwidth later task.register item next added) :
    Simulates next (added ++ rest)
      (itemSuccessors targetBitwidth item ++ items) := by
  obtain ⟨wellFormed, isTasks, distinct⟩ := simulates
  obtain ⟨isTask, isRest⟩ := List.forall₂_cons.mp isTasks
  rw [List.map_cons, List.nodup_cons] at distinct
  obtain ⟨away, distinctRest⟩ := distinct
  have others : ∀ other ∈ rest, other.register ≠ task.register := by
    intro other member same
    exact away (List.mem_map.mpr ⟨other, member, same⟩)
  have below := Simulates.registers ⟨wellFormed, isRest, distinctRest⟩
  refine ⟨advance.wellFormed, List.rel_append advance.tasks
    (forall_taskOf_keep advance.keeps isRest others), ?_⟩
  rw [List.map_append, List.nodup_append]
  refine ⟨advance.distinct, distinctRest, ?_⟩
  intro dest isAdded other isOld
  obtain ⟨newTask, newMember, rfl⟩ := List.mem_map.mp isAdded
  obtain ⟨oldTask, oldMember, rfl⟩ := List.mem_map.mp isOld
  rcases advance.registers newTask newMember with same | fresh
  · rw [same]
    exact (others oldTask oldMember).symm
  · have less := below oldTask oldMember
    omega

/-- One round of the pass is one round of the worklist of items. -/
theorem Simulates.round (simulates : Simulates later tasks items)
    (targetBitwidth : Nat) (function : Ssa.Function Memory) :
    Simulates (passRound targetBitwidth (later, tasks)).1
        (passRound targetBitwidth (later, tasks)).2
        (Worklist.next (itemSuccessors targetBitwidth) items) ∧
      later.nextReg ≤ (passRound targetBitwidth (later, tasks)).1.nextReg ∧
      ∀ (widths newWidths : Nat → Nat), function.nextReg ≤ later.nextReg →
        function.WellMade widths later newWidths →
        ((∀ item others, items = item :: others → GoodItem targetBitwidth item) ↔
          ∃ nextWidths, function.WellMade widths
            (passRound targetBitwidth (later, tasks)).1 nextWidths) := by
  have isTasks := simulates.isTasks
  cases isTasks with
  | nil =>
      refine ⟨simulates, Nat.le_refl _, fun widths newWidths _ wellMade => ?_⟩
      exact iff_of_true (by simp) ⟨newWidths, wellMade⟩
  | @cons task item rest items isTask _ =>
      obtain ⟨next, added, isRound, advance⟩ :=
        isTask.advance targetBitwidth simulates.wellFormed rest
      rw [isRound]
      refine ⟨simulates.advance advance, advance.grows, ?_⟩
      intro widths newWidths grows wellMade
      rw [← advance.wellMade function widths newWidths grows wellMade]
      simp

theorem Simulates.rounds (simulates : Simulates later tasks items)
    (targetBitwidth rounds : Nat) :
    Simulates ((passRound targetBitwidth)^[rounds] (later, tasks)).1
        ((passRound targetBitwidth)^[rounds] (later, tasks)).2
        ((Worklist.next (itemSuccessors targetBitwidth))^[rounds] items) ∧
      later.nextReg ≤
        ((passRound targetBitwidth)^[rounds] (later, tasks)).1.nextReg := by
  induction rounds with
  | zero => exact ⟨simulates, Nat.le_refl _⟩
  | succ rounds induction =>
      obtain ⟨holds, grows⟩ := induction
      obtain ⟨again, grows', _⟩ := holds.round targetBitwidth later
      rw [Function.iterate_succ_apply', Function.iterate_succ_apply']
      exact ⟨again, Nat.le_trans grows grows'⟩

/-- The rounds end with good code, just if the items do and are good. -/
theorem Simulates.ends_and_wellMade_iff (simulates : Simulates function tasks items)
    (typed : function.Typed widths) (targetBitwidth : Nat) :
    ((∃ rounds, ((passRound targetBitwidth)^[rounds] (function, tasks)).2 = []) ∧
      ∀ rounds, ∃ newWidths, function.WellMade widths
        ((passRound targetBitwidth)^[rounds] (function, tasks)).1 newWidths) ↔
      ∀ item ∈ items, Hereditary (itemSuccessors targetBitwidth)
        (GoodItem targetBitwidth) item := by
  let pass := fun rounds =>
    (passRound targetBitwidth)^[rounds] (function, tasks)
  let work := fun rounds =>
    (Worklist.next (itemSuccessors targetBitwidth))^[rounds] items
  have holds := simulates.rounds targetBitwidth
  have empty : ∀ rounds, (pass rounds).2 = [] ↔ work rounds = [] := by
    intro rounds
    have isTasks := (holds rounds).1.isTasks
    constructor
    · intro none
      rw [show ((passRound targetBitwidth)^[rounds] (function, tasks)).2 = []
        from none] at isTasks
      exact List.forall₂_nil_left_iff.mp isTasks
    · intro none
      rw [show (Worklist.next (itemSuccessors targetBitwidth))^[rounds] items =
        [] from none] at isTasks
      exact List.forall₂_nil_right_iff.mp isTasks
  have step : ∀ rounds newWidths,
      function.WellMade widths (pass rounds).1 newWidths →
        ((∀ item others, work rounds = item :: others → GoodItem targetBitwidth item) ↔
          ∃ nextWidths,
            function.WellMade widths (pass (rounds + 1)).1 nextWidths) := by
    intro rounds newWidths wellMade
    have round := (holds rounds).1.round targetBitwidth function
    have isNext : pass (rounds + 1) = passRound targetBitwidth (pass rounds) :=
      Function.iterate_succ_apply' _ _ _
    rw [isNext]
    exact round.2.2 widths newWidths (holds rounds).2 wellMade
  rw [← ends_and_good_iff]
  constructor
  · rintro ⟨⟨rounds, ends⟩, wellMade⟩
    refine ⟨⟨rounds, (empty rounds).mp ends⟩, fun round => ?_⟩
    obtain ⟨newWidths, now⟩ := wellMade round
    exact (step round newWidths now).mpr (wellMade (round + 1))
  · rintro ⟨⟨rounds, ends⟩, good⟩
    refine ⟨⟨rounds, (empty rounds).mpr ends⟩, fun round => ?_⟩
    induction round with
    | zero => exact ⟨widths, .refl typed simulates.wellFormed⟩
    | succ round induction =>
        obtain ⟨newWidths, now⟩ := induction
        exact (step round newWidths now).mp (good round)

end Pass

variable {inst : Inst Memory} {worklist : List Nat} {fuel : Nat}

section Loops

variable {function next : Ssa.Function Memory} {targetBitwidth bitw : Nat}

theorem simplifyAndSplit_eq (fuel i : Nat) :
    simplifyAndSplit targetBitwidth fuel function i =
      splitWorklist targetBitwidth (simplified function i).2.1 fuel
        (simplified function i).1 (simplified function i).2.2 := by
  unfold simplifyAndSplit simplified
  cases found : icmpAt function i with
  | none => cases fuel <;> rfl
  | some compare =>
      obtain ⟨loc, pred, bitw, op0, op1⟩ := compare
      cases pred with
      | uge | sge | ule | sle =>
          cases simplifyOrEqualsCompare function i <;> rfl
      | sgt | slt => cases simplifySignedCompare function i <;> rfl
      | _ => rfl

/-- A loop over a worklist is a number of rounds of the pass. -/
theorem rounds_of_splitWorklist
    (ran : splitWorklist targetBitwidth bitw fuel function worklist =
      some next) (rest : List SplitTask) :
    ∃ rounds, (passRound targetBitwidth)^[rounds]
      (function, worklist.map (.split bitw) ++ rest) = (next, rest) := by
  induction fuel generalizing function worklist with
  | zero =>
      cases worklist with
      | nil =>
          obtain rfl := Option.some.inj ran
          exact ⟨0, rfl⟩
      | cons cmp worklist => cases ran
  | succ fuel induction =>
      cases worklist with
      | nil =>
          obtain rfl := Option.some.inj ran
          exact ⟨0, rfl⟩
      | cons cmp worklist =>
          rw [splitWorklist] at ran
          by_cases wide : targetBitwidth < bitw
          · rw [if_pos wide] at ran
            cases split : splitCompare targetBitwidth function cmp with
            | none =>
                rw [split] at ran
                obtain ⟨rounds, later⟩ := induction ran
                refine ⟨rounds + 1, ?_⟩
                rw [Function.iterate_succ_apply]
                simpa only [List.map_cons, List.cons_append, passRound,
                  if_pos wide, split] using later
            | some result =>
                rw [split] at ran
                obtain ⟨rounds, later⟩ := induction ran
                refine ⟨rounds + 1, ?_⟩
                rw [Function.iterate_succ_apply]
                simpa only [List.map_cons, List.cons_append, passRound,
                  if_pos wide, split, List.map_append,
                  List.append_assoc] using later
          · rw [if_neg wide] at ran
            obtain ⟨rounds, later⟩ := induction ran
            refine ⟨rounds + 1, ?_⟩
            rw [Function.iterate_succ_apply]
            simpa only [List.map_cons, List.cons_append, passRound,
              if_neg wide] using later

/-- If the pass ends, so does the loop it is in. -/
theorem splitWorklist_of_rounds {rounds : Nat} {rest : List SplitTask}
    (ends : ((passRound targetBitwidth)^[rounds]
      (function, worklist.map (.split bitw) ++ rest)).2 = []) :
    ∃ fuel next later, later ≤ rounds ∧
      splitWorklist targetBitwidth bitw fuel function worklist = some next ∧
      ((passRound targetBitwidth)^[later] (next, rest)).2 = [] := by
  induction rounds generalizing function worklist with
  | zero =>
      cases worklist with
      | nil => exact ⟨0, function, 0, Nat.le_refl 0, rfl, ends⟩
      | cons cmp worklist => cases ends
  | succ rounds induction =>
      cases worklist with
      | nil => exact ⟨0, function, rounds + 1, Nat.le_refl _, rfl, ends⟩
      | cons cmp worklist =>
          rw [Function.iterate_succ_apply] at ends
          by_cases wide : targetBitwidth < bitw
          · cases split : splitCompare targetBitwidth function cmp with
            | none =>
                simp only [List.map_cons, List.cons_append, passRound,
                  if_pos wide, split] at ends
                obtain ⟨fuel, next, later, fewer, ran, ends⟩ := induction ends
                refine ⟨fuel + 1, next, later, by omega, ?_, ends⟩
                simp only [splitWorklist, if_pos wide, split, ran]
            | some result =>
                simp only [List.map_cons, List.cons_append, passRound,
                  if_pos wide, split] at ends
                rw [← List.append_assoc, ← List.map_append] at ends
                obtain ⟨fuel, next, later, fewer, ran, ends⟩ := induction ends
                refine ⟨fuel + 1, next, later, by omega, ?_, ends⟩
                simp only [splitWorklist, if_pos wide, split, ran]
          · simp only [List.map_cons, List.cons_append, passRound, if_neg wide] at ends
            obtain ⟨fuel, next, later, fewer, ran, ends⟩ := induction ends
            refine ⟨fuel + 1, next, later, by omega, ?_, ends⟩
            simp only [splitWorklist, if_neg wide, ran]

theorem splitWorklist_mono (enough : fuel ≤ more)
    (ran : splitWorklist targetBitwidth bitw fuel function worklist = some next) :
    splitWorklist targetBitwidth bitw more function worklist = some next := by
  induction fuel generalizing function worklist more with
  | zero =>
      cases worklist with
      | nil => cases more <;> exact ran
      | cons cmp worklist => cases ran
  | succ fuel induction =>
      obtain ⟨more, rfl⟩ := Nat.exists_eq_add_one_of_ne_zero
        (Nat.ne_of_gt (Nat.lt_of_succ_le enough |> Nat.zero_lt_of_lt))
      have less := Nat.le_of_succ_le_succ enough
      cases worklist with
      | nil => exact ran
      | cons cmp worklist =>
          rw [splitWorklist] at ran ⊢
          split at ran
          · rename_i wide
            rw [if_pos wide]
            cases split : splitCompare targetBitwidth function cmp with
            | none =>
                rw [split] at ran
                exact induction less ran
            | some result =>
                rw [split] at ran
                exact induction less ran
          · rename_i narrow
            rw [if_neg narrow]
            exact induction less ran

theorem foldlM_simplifyAndSplit_mono (enough : fuel ≤ more)
    (ran : compares.foldlM (simplifyAndSplit targetBitwidth fuel) function =
      some next) :
    compares.foldlM (simplifyAndSplit targetBitwidth more) function = some next := by
  induction compares generalizing function with
  | nil => exact ran
  | cons cmp compares induction =>
      rw [List.foldlM_cons] at ran ⊢
      obtain ⟨middle, first, ran⟩ := Option.bind_eq_some_iff.mp ran
      rw [simplifyAndSplit_eq] at first
      refine Option.bind_eq_some_iff.mpr ⟨middle, ?_, induction ran⟩
      rw [simplifyAndSplit_eq]
      exact splitWorklist_mono enough first

theorem foldlM_simplifyAndSplit_iff :
    (∃ fuel next, compares.foldlM (simplifyAndSplit targetBitwidth fuel)
        function = some next) ↔
      ∃ rounds, ((passRound targetBitwidth)^[rounds]
        (function, compares.map .simplify)).2 = [] := by
  constructor
  · rintro ⟨fuel, next, ran⟩
    induction compares generalizing function with
    | nil => exact ⟨0, rfl⟩
    | cons cmp compares induction =>
        rw [List.foldlM_cons] at ran
        obtain ⟨middle, first, ran⟩ := Option.bind_eq_some_iff.mp ran
        rw [simplifyAndSplit_eq] at first
        obtain ⟨early, first⟩ := rounds_of_splitWorklist first (compares.map .simplify)
        obtain ⟨late, second⟩ := induction ran
        refine ⟨late + early + 1, ?_⟩
        rw [Function.iterate_succ_apply, List.map_cons, passRound,
          Function.iterate_add_apply, first]
        exact second
  · rintro ⟨rounds, ends⟩
    induction compares generalizing function rounds with
    | nil => exact ⟨0, function, rfl⟩
    | cons cmp compares induction =>
        cases rounds with
        | zero => cases ends
        | succ rounds =>
            rw [Function.iterate_succ_apply, List.map_cons, passRound] at ends
            obtain ⟨fuel, middle, later, _, first, ends⟩ :=
              splitWorklist_of_rounds ends
            obtain ⟨fuel', next, second⟩ := induction later ends
            refine ⟨max fuel fuel', next, ?_⟩
            rw [List.foldlM_cons, simplifyAndSplit_eq]
            refine Option.bind_eq_some_iff.mpr ⟨middle,
              splitWorklist_mono (Nat.le_max_left _ _) first, ?_⟩
            exact foldlM_simplifyAndSplit_mono (Nat.le_max_right _ _) second

end Loops

section Collected

variable {function : Ssa.Function Memory}

theorem mem_functionInsts (wellFormed : function.WellFormed) :
    inst ∈ functionInsts function ↔ ∃ label block,
      function.blocks label = some block ∧ inst ∈ block.body := by
  unfold functionInsts
  rw [List.mem_flatMap]
  constructor
  · rintro ⟨label, _, member⟩
    cases found : function.blocks label with
    | none => simp [found] at member
    | some block => exact ⟨label, block, found, by simpa [found] using member⟩
  · rintro ⟨label, block, found, member⟩
    refine ⟨label, List.mem_range.mpr (wellFormed.labels label block found), ?_⟩
    simpa [found] using member

theorem defines_of_nodup (wellFormed : function.WellFormed)
    (single : ((functionInsts function).map Inst.dest).Nodup)
    (member : inst ∈ functionInsts function) :
    function.Defines inst := by
  refine ⟨(mem_functionInsts wellFormed).mp member, ?_⟩
  intro label block found other isOther same
  have inFunction := (mem_functionInsts wellFormed).mpr
    ⟨label, block, found, isOther⟩
  exact List.inj_on_of_nodup_map single inFunction member same

theorem comparedBy_eq {pred : IcmpPredicate} {bitw : Nat}
    (compared : comparedBy inst.rhs = some (pred, bitw)) :
    ∃ op0 op1 : Operand bitw, inst = ⟨1, inst.dest, .icmp pred op0 op1⟩ := by
  obtain ⟨width, dest, rhs⟩ := inst
  cases rhs with
  | icmp predicate first second =>
      cases compared
      exact ⟨first, second, rfl⟩
  | _ => cases compared

/-- The item of a compare that is collected. -/
def collectedItem (inst : Inst Memory) : Option SplitItem :=
  (comparedBy inst.rhs).bind fun compared =>
    if isSupportedBitWidth compared.2 then
      some (.simplify compared.1 compared.2)
    else none

theorem collected_tasks {insts : List (Inst Memory)}
    (defines : ∀ inst ∈ insts, function.Defines inst) :
    List.Forall₂ (TaskOf function)
      ((insts.filterMap fun inst => (comparedBy inst.rhs).bind fun compared =>
        if isSupportedBitWidth compared.2 then some inst.dest else none).map
          .simplify)
      (insts.filterMap collectedItem) := by
  induction insts with
  | nil => exact .nil
  | cons inst insts induction =>
      have later := induction fun other member =>
        defines other (List.mem_cons_of_mem inst member)
      cases compared : comparedBy inst.rhs with
      | none => simpa [collectedItem, compared] using later
      | some compare =>
          obtain ⟨pred, bitw⟩ := compare
          by_cases supported : isSupportedBitWidth bitw
          · obtain ⟨op0, op1, isCompare⟩ := comparedBy_eq compared
            have defined := defines inst List.mem_cons_self
            rw [isCompare] at defined
            simp only [List.filterMap_cons, collectedItem, compared,
              Option.bind_some, supported, if_true, List.map_cons]
            exact .cons (.simplify supported defined) later
          · simpa [collectedItem, compared, supported] using later

theorem supportedCompares_nodup
    (single : ((functionInsts function).map Inst.dest).Nodup) :
    (((supportedCompares function).map SplitTask.simplify).map
      SplitTask.register).Nodup := by
  have same : (supportedCompares function).map
      (SplitTask.register ∘ SplitTask.simplify) = supportedCompares function :=
    List.map_id _
  rw [List.map_map, same]
  refine single.sublist ?_
  unfold supportedCompares
  induction functionInsts function with
  | nil => exact .slnil
  | cons inst insts induction =>
      rw [List.filterMap_cons, List.map_cons]
      split
      · exact induction.cons _
      · rename_i dest found
        obtain ⟨compared, _, isDest⟩ := Option.bind_eq_some_iff.mp found
        split at isDest
        · obtain rfl := Option.some.inj isDest
          exact induction.cons_cons _
        · cases isDest

/-- The pass splits well just if its target suits every compare it collects. -/
theorem splitsWell_iff (wellFormed : function.WellFormed)
    (single : ((functionInsts function).map Inst.dest).Nodup)
    (typed : function.Typed widths) (targetBitwidth : Nat) :
    SplitsWell targetBitwidth function widths ↔
      ∀ inst ∈ functionInsts function, ∀ pred bitw,
        comparedBy inst.rhs = some (pred, bitw) →
        isSupportedBitWidth bitw = true → SuitsTarget targetBitwidth pred bitw := by
  have simulates : Simulates function
      ((supportedCompares function).map .simplify)
      ((functionInsts function).filterMap collectedItem) :=
    ⟨wellFormed, collected_tasks fun inst member =>
      defines_of_nodup wellFormed single member,
      supportedCompares_nodup single⟩
  have runs := simulates.ends_and_wellMade_iff typed targetBitwidth
  rw [← foldlM_simplifyAndSplit_iff] at runs
  have items : (∀ item ∈ (functionInsts function).filterMap collectedItem,
      Hereditary (itemSuccessors targetBitwidth) (GoodItem targetBitwidth)
        item) ↔
      ∀ inst ∈ functionInsts function, ∀ pred bitw,
        comparedBy inst.rhs = some (pred, bitw) →
        isSupportedBitWidth bitw = true → SuitsTarget targetBitwidth pred bitw := by
    constructor
    · intro each inst member pred bitw compared supported
      refine (hereditary_simplify_iff supported).mp (each _ ?_)
      refine List.mem_filterMap.mpr ⟨inst, member, ?_⟩
      simp [collectedItem, compared, supported]
    · intro suits item member
      obtain ⟨inst, isInst, collected⟩ := List.mem_filterMap.mp member
      obtain ⟨⟨pred, bitw⟩, compared, isItem⟩ := Option.bind_eq_some_iff.mp collected
      split at isItem
      · rename_i supported
        obtain rfl := Option.some.inj isItem
        exact (hereditary_simplify_iff supported).mpr
          (suits inst isInst pred bitw compared supported)
      · cases isItem
  rw [← items, ← runs]
  exact ⟨fun ⟨ends, wellMade⟩ => ⟨ends, wellMade⟩,
    fun ⟨ends, wellMade⟩ => ⟨ends, wellMade⟩⟩

/-- For every value of the two variables: the pass ends, with well-typed code,
just if the target width suits every compare of a width it supports. -/
theorem runOnModule_splitsWell_iff (wellFormed : function.WellFormed)
    (single : ((functionInsts function).map Inst.dest).Nodup)
    {widths : Nat → Nat} (typed : function.Typed widths)
    (aflBitw lafBitw : Option Dictionary.Text) :
    SplitsWell (targetBitwidth aflBitw lafBitw) function widths ↔
      ∀ inst ∈ functionInsts function, ∀ pred bitw,
        comparedBy inst.rhs = some (pred, bitw) →
        isSupportedBitWidth bitw = true →
          SuitsTarget (targetBitwidth aflBitw lafBitw) pred bitw :=
  splitsWell_iff wellFormed single typed _

end Collected

/-- A function that compares its two arguments of 32 bits. -/
def oneCompare (pred : IcmpPredicate) : Ssa.Function Unit where
  blocks := fun label =>
    if label = 0 then
      some ⟨[], [⟨1, 2, @Rhs.icmp Unit pred 32 (.reg 0) (.reg 1)⟩],
        .ret (some ⟨1, .reg 2⟩)⟩
    else none
  nextLabel := 1
  nextReg := 3

def oneCompareWidths (id : Nat) : Nat := if id < 2 then 32 else 1

section OneCompare

variable (pred : IcmpPredicate)

theorem oneCompare_single : (oneCompare pred).Single
    ⟨1, 2, @Rhs.icmp Unit pred 32 (.reg 0) (.reg 1)⟩
    (.ret (some ⟨1, .reg 2⟩)) :=
  fun _ => rfl

theorem oneCompare_wellFormed : (oneCompare pred).WellFormed :=
  (oneCompare_single pred).wellFormed Nat.zero_lt_one
    ⟨Nat.lt_succ_self 2, Nat.zero_lt_succ 2,
      Nat.succ_lt_succ (Nat.zero_lt_succ 1)⟩ (Nat.lt_succ_self 2)

theorem oneCompare_typed : (oneCompare pred).Typed oneCompareWidths := by
  intro label block found
  obtain ⟨_, rfl⟩ := (oneCompare_single pred).eq found
  refine ⟨by simp, ?_, ?_⟩
  · intro inst member
    obtain rfl := List.mem_singleton.mp member
    exact ⟨rfl, by simp [Rhs.operands, oneCompareWidths]⟩
  · simp [Terminator.Typed, Terminator.operands, oneCompareWidths]

theorem oneCompare_nodup : ((functionInsts (oneCompare pred)).map Inst.dest).Nodup :=
  List.nodup_singleton _

end OneCompare

theorem runOnModule_splitsWell_default :
    SplitsWell (targetBitwidth none none) (oneCompare .sge)
      oneCompareWidths := by
  refine (runOnModule_splitsWell_iff (oneCompare_wellFormed _)
    (oneCompare_nodup _) (oneCompare_typed _) none none).mpr ?_
  intro inst member pred bitw compared _
  obtain rfl := List.mem_singleton.mp member
  cases compared
  exact .inr (.inl ⟨4, rfl⟩)

/-- With `AFL_LLVM_LAF_SPLIT_COMPARES_BITW=24` the pass does not do well. -/
theorem oneCompare_unsplit :
    ¬SplitsWell (targetBitwidth (some [50#8, 52#8]) none) (oneCompare .ult)
      oneCompareWidths := by
  intro well
  have suits := (splitsWell_iff (oneCompare_wellFormed _) (oneCompare_nodup _)
    (oneCompare_typed _) _).mp well _ (List.mem_singleton_self _) .ult 32 rfl
      rfl
  have target : targetBitwidth (some [50#8, 52#8]) none = 24 := by decide
  rw [target] at suits
  simp [SuitsTarget] at suits

end AFLPlusPlus
