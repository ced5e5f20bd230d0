import AFLPlusPlus.Deterministic.Stages
import AFLPlusPlus.Support.Counting
import AFLPlusPlus.Support.EarlyExit
import AFLPlusPlus.Support.Stores

/-!
# The effector map

The walking byte finds out which blocks of a test case have an effect on the
path of the target.  The map of the blocks stands in a scratch buffer that is
shared by all entries and by the input-to-state stage, and that is not cleared.
-/

namespace AFLPlusPlus

open EarlyExit

def effMinLen : Nat := 128

def effMaxPerc : Nat := 90

def effAlen (len : Nat) : Nat := effApos len + if len &&& 7 ≠ 0 then 1 else 0

/-- The entry, with what an execution comes to: the checksum of its trace, or
the entry is abandoned. -/
structure WalkSetting where
  len : Nat
  nonempty : 0 < len
  inBuf : Buffer
  execCksum : BitVec 64
  nonInstrumentedMode : Bool
  execute : Nat → List (BitVec 8) → Option (BitVec 64)

/-- The buffer, the effector map with its counters, and the checksums that were
computed, each with the position of the flipped byte. -/
structure WalkState where
  outBuf : Buffer
  effMap : Buffer
  effCnt : Nat
  blocksEffSelect : Nat
  blocksEffTotal : Nat
  computed : List (Nat × BitVec 64)

/-- The stage, which leaves early with `goto abandon_entry`. -/
abbrev Walk (Value : Type) := EarlyExit WalkState Value

/-- A block is flagged and counted. -/
def WalkState.flag (block : Nat) (state : WalkState) : WalkState :=
  { state with
    effMap := Function.update state.effMap block 1#8
    effCnt := state.effCnt + 1 }

namespace WalkSetting

variable (afl : WalkSetting)

def lastBlock : Nat := effApos (afl.len - 1)

def TooShort : Prop := ¬(afl.nonInstrumentedMode = false ∧ effMinLen ≤ afl.len)

instance : Decidable afl.TooShort := inferInstanceAs (Decidable (¬_))

/-- The effector map setup in a scratch buffer. -/
def setup (scratch : Buffer) (select total : Nat) : WalkState :=
  let first : WalkState :=
    ⟨afl.inBuf, Function.update scratch 0 1#8, 1, select, total, []⟩
  if afl.lastBlock ≠ 0 then first.flag afl.lastBlock else first

/-- `out_buf[afl->stage_cur] ^= 0xFF` -/
def flip (stageCur : Nat) : Walk Unit :=
  modify fun state =>
    { state with outBuf := flipBytes 1 stageCur state.outBuf }

/-- `common_fuzz_stuff`, with the checksum that the trace has then. -/
def commonFuzzStuff (stageCur : Nat) : Walk (BitVec 64) :=
  OptionT.mk fun state =>
    (afl.execute stageCur (state.outBuf.loadBytes 0 afl.len), state)

/-- What is made of a checksum. -/
def learn (stageCur : Nat) (trace : BitVec 64) (state : WalkState) :
    WalkState :=
  if state.effMap (effApos stageCur) ≠ 0#8 then state
  else if afl.TooShort then
    if ~~~afl.execCksum ≠ afl.execCksum then state.flag (effApos stageCur)
    else state
  else
    let looked := { state with computed := state.computed ++ [(stageCur, trace)] }
    if trace ≠ afl.execCksum then looked.flag (effApos stageCur) else looked

def walkByte (stageCur : Nat) : Walk Unit := do
  flip stageCur
  let trace ← afl.commonFuzzStuff stageCur
  modify (afl.learn stageCur trace)
  flip stageCur

def walkingByte : Walk Unit := do
  let _ ← forFrom (fun stageCur (_ : Unit) => do
    afl.walkByte stageCur
    pure (.yield ())) 0 afl.len ()

def Exceeded (state : WalkState) : Prop :=
  effMaxPerc < state.effCnt * 100 / effAlen afl.len

instance (state : WalkState) : Decidable (afl.Exceeded state) :=
  inferInstanceAs (Decidable (_ < _))

/-- The density rule. -/
def densify (state : WalkState) : WalkState :=
  let selected :=
    if state.effCnt ≠ effAlen afl.len ∧ afl.Exceeded state then
      { state with
        effMap := fun block =>
          if block < effAlen afl.len then 1#8 else state.effMap block
        blocksEffSelect := state.blocksEffSelect + effAlen afl.len }
    else
      { state with blocksEffSelect := state.blocksEffSelect + state.effCnt }
  { selected with
    blocksEffTotal := selected.blocksEffTotal + effAlen afl.len }

def effectorStage : Walk Unit := do
  afl.walkingByte
  modify afl.densify

end WalkSetting

/-- What uses the scratch buffer: the effector map of an entry, `virgin_save` of
the input-to-state stage, and `afl_realloc`, which keeps some bytes. -/
inductive ScratchUse where
  | effectorMap (afl : WalkSetting)
  | virginSave (virginBits : List (BitVec 8))
  | realloc (kept : Nat) (memory : Buffer)

/-- What a use leaves in the buffer. -/
def ScratchUse.leave (scratch : Buffer) : ScratchUse → Buffer
  | .effectorMap afl =>
      (afl.effectorStage.run (afl.setup scratch 0 0)).2.effMap
  | .virginSave virginBits => scratch.storeBytes 0 virginBits
  | .realloc kept memory => fun address =>
      if address < kept then scratch address else memory address

variable {block : Nat}

namespace WalkSetting

variable (afl : WalkSetting)

/-- A block for which a checksum was computed that is not that of the entry. -/
def Differed (state : WalkState) (block : Nat) : Prop :=
  ∃ check ∈ state.computed, effApos check.1 = block ∧ check.2 ≠ afl.execCksum

/-- The number of flagged blocks is right before the density rule, and the right
blocks are flagged after it. -/
structure Correct (walked : WalkState) : Prop where
  counted : walked.effCnt =
    Nat.count (fun block => walked.effMap block ≠ 0#8) (effAlen afl.len)
  flagged : ∀ block < effAlen afl.len,
    (afl.densify walked).effMap block ≠ 0#8 ↔
      block = 0 ∨ block = afl.lastBlock ∨ afl.Differed walked block ∨
        afl.TooShort ∨ afl.Exceeded walked

def Clear (scratch : Buffer) : Prop :=
  ∀ block, 0 < block → block < afl.lastBlock → scratch block = 0#8

theorem effApos_eq (position : Nat) : effApos position = position / 8 :=
  Nat.shiftRight_eq_div_pow position 3

theorem effAlen_eq : effAlen afl.len = afl.lastBlock + 1 := by
  have nonempty := afl.nonempty
  have remainder : afl.len &&& 7 = afl.len % 8 :=
    Nat.and_two_pow_sub_one_eq_mod afl.len 3
  rw [effAlen, lastBlock, effApos_eq, effApos_eq, remainder]
  split
  · omega
  · omega

variable {afl}

theorem exists_byte (inside : block < effAlen afl.len) :
    ∃ position < afl.len, effApos position = block := by
  have nonempty := afl.nonempty
  rw [effAlen_eq, lastBlock, effApos_eq] at inside
  refine ⟨8 * block, by omega, ?_⟩
  rw [effApos_eq]
  omega

theorem effApos_lt {position : Nat} (inside : position < afl.len) :
    effApos position < effAlen afl.len := by
  rw [effAlen_eq, lastBlock, effApos_eq, effApos_eq]
  omega

/-- The walking byte has come to a position.  What the buffer held before is
flagged as well, and is not counted. -/
structure Walked (afl : WalkSetting) (scratch : Buffer) (position : Nat)
    (state : WalkState) : Prop where
  counted : state.effCnt = Nat.count
    (fun block => block = 0 ∨ block = afl.lastBlock ∨
      scratch block = 0#8 ∧ state.effMap block ≠ 0#8) (effAlen afl.len)
  flagged : ∀ block, state.effMap block ≠ 0#8 ↔
    block = 0 ∨ block = afl.lastBlock ∨ scratch block ≠ 0#8 ∨
      afl.Differed state block ∨
      afl.TooShort ∧ ∃ before < position, effApos before = block

variable {scratch : Buffer} {position : Nat} {state : WalkState}

theorem complement_ne (word : BitVec 64) : ~~~word ≠ word := by
  intro same
  have bit := congrArg (fun word : BitVec 64 => word[0]) same
  simp at bit

/-- A block that nothing has flagged before is flagged and counted. -/
theorem Walked.flag (walked : afl.Walked scratch position state)
    (inside : position < afl.len)
    (unset : state.effMap (effApos position) = 0#8)
    {found : WalkState} (map : found.effMap = state.effMap)
    (count : found.effCnt = state.effCnt)
    (differed : ∀ block, block ≠ effApos position →
      (afl.Differed found block ↔ afl.Differed state block))
    (reason : afl.Differed found (effApos position) ∨ afl.TooShort) :
    afl.Walked scratch (position + 1) (found.flag (effApos position)) := by
  have unflagged := mt (walked.flagged (effApos position)).mpr
    (not_not.mpr unset)
  rw [not_or, not_or, not_or] at unflagged
  obtain ⟨notFirst, notLast, clear, _⟩ := unflagged
  have self : (found.flag (effApos position)).effMap (effApos position) =
      1#8 := Function.update_self ..
  have others : ∀ block, block ≠ effApos position →
      (found.flag (effApos position)).effMap block = state.effMap block := by
    intro block other
    rw [← map]
    exact Function.update_of_ne other ..
  constructor
  · have added := @Counting.count_add
      (fun block => block = 0 ∨ block = afl.lastBlock ∨
        scratch block = 0#8 ∧ state.effMap block ≠ 0#8)
      (fun block => block = 0 ∨ block = afl.lastBlock ∨
        scratch block = 0#8 ∧ (found.flag (effApos position)).effMap block ≠ 0#8)
      _ _ (effAlen afl.len) (effApos position) (effApos_lt inside)
      (by
        intro block _ other
        rw [others block other])
      (by
        rintro (first | last | ⟨_, set⟩)
        · exact notFirst first
        · exact notLast last
        · exact set unset)
      (.inr (.inr ⟨not_not.mp clear, by rw [self]; decide⟩))
    rw [added, ← walked.counted, ← count]
    rfl
  · intro block
    by_cases here : block = effApos position
    · subst here
      rw [self]
      refine iff_of_true (by decide) ?_
      rcases reason with found | short
      · exact .inr (.inr (.inr (.inl found)))
      · exact .inr (.inr (.inr (.inr
          ⟨short, position, Nat.lt_succ_self position, rfl⟩)))
    · rw [others block here, walked.flagged block]
      have same : (∃ before < position + 1, effApos before = block) ↔
          ∃ before < position, effApos before = block := by
        constructor
        · rintro ⟨before, less, isBlock⟩
          refine ⟨before, Nat.lt_of_le_of_ne (Nat.le_of_lt_succ less) ?_, isBlock⟩
          intro last
          exact here (by rw [← isBlock, last])
        · rintro ⟨before, less, isBlock⟩
          exact ⟨before, Nat.lt_succ_of_lt less, isBlock⟩
      rw [same]
      have alike : afl.Differed (found.flag (effApos position)) block ↔
          afl.Differed state block := differed block here
      rw [alike]

theorem Walked.stay (walked : afl.Walked scratch position state)
    (set : afl.TooShort → state.effMap (effApos position) ≠ 0#8) :
    afl.Walked scratch (position + 1) state where
  counted := walked.counted
  flagged := by
    intro block
    constructor
    · intro flagged
      rcases (walked.flagged block).mp flagged with
        first | last | before | differs | ⟨short, other, less, here⟩
      · exact .inl first
      · exact .inr (.inl last)
      · exact .inr (.inr (.inl before))
      · exact .inr (.inr (.inr (.inl differs)))
      · exact .inr (.inr (.inr (.inr ⟨short, other, Nat.lt_succ_of_lt less, here⟩)))
    · rintro (first | last | before | differs | ⟨short, other, less, here⟩)
      · exact (walked.flagged block).mpr (.inl first)
      · exact (walked.flagged block).mpr (.inr (.inl last))
      · exact (walked.flagged block).mpr (.inr (.inr (.inl before)))
      · exact (walked.flagged block).mpr (.inr (.inr (.inr (.inl differs))))
      · rcases Nat.lt_succ_iff_lt_or_eq.mp less with lower | same
        · exact (walked.flagged block).mpr
            (.inr (.inr (.inr (.inr ⟨short, other, lower, here⟩))))
        · rw [← here, same]
          exact set short

theorem differed_append {trace : BitVec 64} :
    afl.Differed { state with
        computed := state.computed ++ [(position, trace)] } block ↔
      afl.Differed state block ∨ effApos position = block ∧ trace ≠ afl.execCksum := by
  constructor
  · rintro ⟨check, member, facts⟩
    rcases List.mem_append.mp member with before | last
    · exact .inl ⟨check, before, facts⟩
    · rw [List.mem_singleton.mp last] at facts
      exact .inr facts
  · rintro (⟨check, member, facts⟩ | facts)
    · exact ⟨check, List.mem_append_left _ member, facts⟩
    · exact ⟨_, List.mem_append_right _ (List.mem_singleton.mpr rfl), facts⟩

theorem Walked.learn (walked : afl.Walked scratch position state)
    (inside : position < afl.len) (trace : BitVec 64) :
    afl.Walked scratch (position + 1) (afl.learn position trace state) := by
  unfold WalkSetting.learn
  by_cases set : state.effMap (effApos position) ≠ 0#8
  · rw [if_pos set]
    exact walked.stay fun _ => set
  · have unset := not_not.mp set
    rw [if_neg set]
    by_cases short : afl.TooShort
    · rw [if_pos short, if_pos (complement_ne afl.execCksum)]
      exact walked.flag inside unset rfl rfl (fun _ _ => Iff.rfl) (.inr short)
    · rw [if_neg short]
      by_cases differs : trace ≠ afl.execCksum
      · rw [if_pos differs]
        apply walked.flag inside unset
        · rfl
        · rfl
        · intro block other
          rw [differed_append]
          exact or_iff_left fun here => other here.1.symm
        · exact .inl (differed_append.mpr (.inr ⟨rfl, differs⟩))
      · rw [if_neg differs]
        have looked : afl.Walked scratch (position + 1) state :=
          walked.stay fun yes => absurd yes short
        constructor
        · exact looked.counted
        · intro block
          rw [looked.flagged block, differed_append]
          have none : ¬(effApos position = block ∧ trace ≠ afl.execCksum) :=
            fun both => differs both.2
          rw [or_iff_left none]

theorem triple_flip (stageCur position : Nat) :
    Triple (afl.Walked scratch position) (flip stageCur)
      (fun _ => afl.Walked scratch position) fun _ => True :=
  fun _ walked => ⟨walked.counted, walked.flagged⟩

theorem triple_commonFuzzStuff (stageCur position : Nat) :
    Triple (afl.Walked scratch position) (afl.commonFuzzStuff stageCur)
      (fun _ => afl.Walked scratch position) fun _ => True := by
  intro state walked
  cases ended : afl.execute stageCur (state.outBuf.loadBytes 0 afl.len) with
  | none =>
      have ran : (afl.commonFuzzStuff stageCur).run state = (none, state) :=
        Prod.ext ended rfl
      rw [ran]
      trivial
  | some trace =>
      have ran : (afl.commonFuzzStuff stageCur).run state =
          (some trace, state) := Prod.ext ended rfl
      rw [ran]
      exact walked

theorem triple_walkByte (inside : position < afl.len) :
    Triple (afl.Walked scratch position) (afl.walkByte position)
      (fun _ => afl.Walked scratch (position + 1)) fun _ => True := by
  apply (triple_flip position position).bind
  intro _
  apply (triple_commonFuzzStuff position position).bind
  intro trace
  have learned : Triple (afl.Walked scratch position)
      (modify (afl.learn position trace))
      (fun _ => afl.Walked scratch (position + 1)) fun _ => True :=
    fun _ walked => walked.learn inside trace
  apply learned.bind
  intro _
  exact triple_flip position (position + 1)

theorem triple_walkingByte :
    Triple (afl.Walked scratch 0) afl.walkingByte
      (fun _ => afl.Walked scratch afl.len) fun _ => True := by
  have rounds := @Triple.forFrom_upTo WalkState Unit (fun _ => True)
    (fun position _ => afl.Walked scratch position)
    (fun _ => afl.Walked scratch afl.len)
    (fun stageCur _ => do
      afl.walkByte stageCur
      pure (.yield ())) afl.len
    (by
      intro position inside _
      apply (triple_walkByte inside).bind
      intro _
      exact Triple.pure _ fun _ walked => walked)
    (fun _ _ walked => walked) 0 afl.len (Nat.zero_add _) ()
  apply rounds.bind
  intro last
  exact Triple.pure () fun _ walked => walked.2

theorem count_ends (last : Nat) :
    Nat.count (fun block => block = 0 ∨ block = last) (last + 1) =
      if last ≠ 0 then 2 else 1 := by
  cases last with
  | zero => rfl
  | succ last =>
      rw [if_pos (Nat.succ_ne_zero last), Nat.count_succ, if_pos (.inr rfl),
        Nat.count_succ', if_pos (.inl rfl)]
      have none : Nat.count
          (fun block => block + 1 = 0 ∨ block + 1 = last + 1) last = 0 := by
        rw [Nat.count_iff_forall_not]
        intro block below
        omega
      rw [none]

theorem setup_effMap (afl : WalkSetting) (scratch : Buffer)
    (select total block : Nat) :
    (afl.setup scratch select total).effMap block =
      if block = 0 ∨ block = afl.lastBlock then 1#8 else scratch block := by
  by_cases several : afl.lastBlock ≠ 0
  · rw [setup, if_pos several]
    change Function.update (Function.update scratch 0 1#8) afl.lastBlock 1#8
      block = _
    by_cases last : block = afl.lastBlock
    · rw [if_pos (.inr last), last, Function.update_self]
    · rw [Function.update_of_ne last]
      by_cases first : block = 0
      · rw [if_pos (.inl first), first, Function.update_self]
      · rw [Function.update_of_ne first, if_neg (not_or.mpr ⟨first, last⟩)]
  · have single := not_not.mp several
    rw [setup, if_neg several]
    by_cases first : block = 0
    · rw [if_pos (.inl first), first]
      rfl
    · rw [if_neg fun ends => first (ends.elim id (·.trans single))]
      exact Function.update_of_ne first ..

theorem setup_effCnt (afl : WalkSetting) (scratch : Buffer)
    (select total : Nat) :
    (afl.setup scratch select total).effCnt =
      if afl.lastBlock ≠ 0 then 2 else 1 := by
  rw [setup]
  split
  · rfl
  · rfl

theorem setup_computed (afl : WalkSetting) (scratch : Buffer)
    (select total : Nat) :
    (afl.setup scratch select total).computed = [] := by
  rw [setup]
  split
  · rfl
  · rfl

theorem walked_setup (afl : WalkSetting) (scratch : Buffer)
    (select total : Nat) :
    afl.Walked scratch 0 (afl.setup scratch select total) := by
  have map := setup_effMap afl scratch select total
  constructor
  · rw [setup_effCnt, effAlen_eq, ← count_ends]
    apply Counting.count_congr
    intro block _
    rw [map block]
    constructor
    · rintro (first | last)
      · exact .inl first
      · exact .inr (.inl last)
    · rintro (first | last | ⟨clear, set⟩)
      · exact .inl first
      · exact .inr last
      · by_contra inner
        rw [if_neg inner] at set
        exact set clear
  · intro block
    rw [map block]
    constructor
    · intro set
      by_cases ends : block = 0 ∨ block = afl.lastBlock
      · exact or_assoc.mp (.inl ends)
      · rw [if_neg ends] at set
        exact .inr (.inr (.inl set))
    · rintro (first | last | before | ⟨check, member, _⟩ | ⟨_, _, less, _⟩)
      · rw [if_pos (.inl first)]
        decide
      · rw [if_pos (.inr last)]
        decide
      · split
        · decide
        · exact before
      · rw [setup_computed] at member
        cases member
      · cases less

theorem Walked.flagged_iff (walked : afl.Walked scratch afl.len state)
    (inside : block < effAlen afl.len) :
    state.effMap block ≠ 0#8 ↔ block = 0 ∨ block = afl.lastBlock ∨
      scratch block ≠ 0#8 ∨ afl.Differed state block ∨ afl.TooShort := by
  rw [walked.flagged block, and_iff_left (exists_byte inside)]

theorem Walked.counted_clear (walked : afl.Walked scratch afl.len state)
    (clear : afl.Clear scratch) :
    state.effCnt = Nat.count (fun block => state.effMap block ≠ 0#8)
      (effAlen afl.len) := by
  rw [walked.counted]
  apply Counting.count_congr
  intro block inside
  constructor
  · rintro (first | last | ⟨_, set⟩)
    · exact (walked.flagged block).mpr (.inl first)
    · exact (walked.flagged block).mpr (.inr (.inl last))
    · exact set
  · intro set
    by_cases first : block = 0
    · exact .inl first
    · by_cases last : block = afl.lastBlock
      · exact .inr (.inl last)
      · rw [effAlen_eq] at inside
        exact .inr (.inr ⟨clear block (by omega) (by omega), set⟩)

theorem Walked.clear (walked : afl.Walked scratch afl.len state)
    (counted : state.effCnt =
      Nat.count (fun block => state.effMap block ≠ 0#8) (effAlen afl.len)) :
    afl.Clear scratch := by
  intro block notFirst notLast
  by_contra stale
  have inside : block < effAlen afl.len := by
    rw [effAlen_eq]
    omega
  have more := @Counting.count_add
    (fun other => other = 0 ∨ other = afl.lastBlock ∨
      scratch other = 0#8 ∧ state.effMap other ≠ 0#8)
    (fun other => other = block ∨ other = 0 ∨ other = afl.lastBlock ∨
      scratch other = 0#8 ∧ state.effMap other ≠ 0#8)
    _ _ _ _ inside
    (fun other _ different => (or_iff_right different).symm)
    (by
      rintro (first | last | ⟨empty, _⟩)
      · omega
      · omega
      · exact stale empty)
    (.inl rfl)
  have fewer : Nat.count (fun other => other = block ∨ other = 0 ∨
        other = afl.lastBlock ∨ scratch other = 0#8 ∧ state.effMap other ≠ 0#8)
      (effAlen afl.len) ≤
      Nat.count (fun other => state.effMap other ≠ 0#8) (effAlen afl.len) := by
    apply Nat.count_mono_left
    rintro other _ (same | first | last | ⟨_, set⟩)
    · exact (walked.flagged other).mpr (.inr (.inr (.inl (same ▸ stale))))
    · exact (walked.flagged other).mpr (.inl first)
    · exact (walked.flagged other).mpr (.inr (.inl last))
    · exact set
  rw [more, ← walked.counted, ← counted] at fewer
  exact Nat.not_succ_le_self _ fewer

theorem densify_effMap (afl : WalkSetting) (state : WalkState)
    (inside : block < effAlen afl.len) :
    (afl.densify state).effMap block =
      if state.effCnt ≠ effAlen afl.len ∧ afl.Exceeded state then 1#8
      else state.effMap block := by
  rw [densify]
  by_cases dense : state.effCnt ≠ effAlen afl.len ∧ afl.Exceeded state
  · rw [if_pos dense, if_pos dense]
    exact if_pos inside
  · rw [if_neg dense, if_neg dense]

theorem Walked.correct_iff (walked : afl.Walked scratch afl.len state) :
    afl.Correct state ↔ afl.Clear scratch := by
  constructor
  · intro correct
    exact walked.clear correct.counted
  · intro clear
    refine ⟨walked.counted_clear clear, ?_⟩
    intro block inside
    rw [densify_effMap afl state inside]
    by_cases dense : state.effCnt ≠ effAlen afl.len ∧ afl.Exceeded state
    · rw [if_pos dense]
      exact iff_of_true (by decide) (.inr (.inr (.inr (.inr dense.2))))
    · rw [if_neg dense, walked.flagged_iff inside]
      constructor
      · rintro (first | last | before | differs | short)
        · exact .inl first
        · exact .inr (.inl last)
        · by_contra inner
          rw [not_or, not_or] at inner
          rw [effAlen_eq] at inside
          exact before (clear block (by omega) (by omega))
        · exact .inr (.inr (.inl differs))
        · exact .inr (.inr (.inr (.inl short)))
      · rintro (first | last | differs | short | exceeded)
        · exact .inl first
        · exact .inr (.inl last)
        · exact .inr (.inr (.inr (.inl differs)))
        · exact .inr (.inr (.inr (.inr short)))
        · rw [← walked.flagged_iff inside]
          have all := walked.counted_clear clear
          rw [not_not.mp fun fewer => dense ⟨fewer, exceeded⟩] at all
          exact (Nat.count_iff_forall.mp all.symm) block inside

theorem walked_of_ends {walked : WalkState} {select total : Nat}
    (ends : afl.walkingByte.run (afl.setup scratch select total) =
      (some (), walked)) : afl.Walked scratch afl.len walked := by
  have reached := triple_walkingByte _ (walked_setup afl scratch select total)
  rw [ends] at reached
  exact reached

/-- Whatever has used the scratch buffer before, the effector map is right
exactly if the buffer is clear between the first and the last block. -/
theorem walkingByte_correct_iff (afl : WalkSetting) (fresh : Buffer)
    (history : List ScratchUse) (select total : Nat) {walked : WalkState}
    (ends : afl.walkingByte.run
      (afl.setup (history.foldl ScratchUse.leave fresh) select total) =
        (some (), walked)) :
    afl.Correct walked ↔ afl.Clear (history.foldl ScratchUse.leave fresh) :=
  (walked_of_ends ends).correct_iff

theorem ends_of_fst {program : Walk Unit}
    (goes : (program.run state).1 = some ()) :
    program.run state = (some (), (program.run state).2) :=
  Prod.ext goes rfl

/-- An entry whose bytes have no effect. -/
def withoutEffect (len : Nat) (nonempty : 0 < len) : WalkSetting where
  len := len
  nonempty := nonempty
  inBuf := fun _ => 65#8
  execCksum := 0#64
  nonInstrumentedMode := false
  execute := fun _ _ => some 0#64

theorem walkingByte_correct_iff_single :
    ∃ walked, (withoutEffect 1 (by decide)).Correct walked := by
  refine ⟨_, (walkingByte_correct_iff (withoutEffect 1 (by decide))
    (fun _ => 0#8) [] 0 0 rfl).mpr ?_⟩
  intro _ _ _
  rfl

/-- After an entry of 24 bytes, which is too short for the test, a block of the
next entry is flagged although its bytes have no effect. -/
theorem walkingByte_incorrect :
    ∃ walked, (withoutEffect 128 (by decide)).walkingByte.run
        ((withoutEffect 128 (by decide)).setup
          ([.effectorMap (withoutEffect 24 (by decide))].foldl
            ScratchUse.leave fun _ => 0#8) 0 0) = (some (), walked) ∧
      ¬(withoutEffect 128 (by decide)).Correct walked := by
  have goes : ((withoutEffect 128 (by decide)).walkingByte.run
      ((withoutEffect 128 (by decide)).setup
        ([.effectorMap (withoutEffect 24 (by decide))].foldl
          ScratchUse.leave fun _ => 0#8) 0 0)).1 = some () := by
    decide +kernel
  refine ⟨_, ends_of_fst goes, ?_⟩
  intro correct
  have clear := (walked_of_ends (ends_of_fst goes)).correct_iff.mp correct
  have stale : ScratchUse.leave (fun _ => 0#8)
      (.effectorMap (withoutEffect 24 (by decide))) 1 = 1#8 := by
    decide +kernel
  have empty := clear 1 (by decide) (by decide)
  cases stale.symm.trans empty

end WalkSetting

end AFLPlusPlus
