import AFLPlusPlus.Trim.Consistency

/-!
# Several custom trimmers

`trim_case` calls the trimmer of one custom mutator after the other.  Each of
them may write the file of the queue entry anew and set `q->len`, but `in_buf`
stays what it was for all of them, and only then is the case read back.
-/

namespace AFLPlusPlus.Trim

open Buffer

def CustomRound.Aborts (round : CustomRound) : Prop :=
  round.retbuf ≠ [] ∧ round.run.aborts = true

/-- A round whose case is accepted. -/
def CustomRound.Keeps (settings : TrimSettings) (round : CustomRound) : Prop :=
  round.retbuf ≠ [] ∧ round.run.Keeps settings

instance (round : CustomRound) : Decidable round.Aborts :=
  inferInstanceAs (Decidable (_ ∧ _))

instance (settings : TrimSettings) (run : TrimRun) : Decidable (run.Keeps settings) :=
  inferInstanceAs (Decidable (_ ∧ _))

instance (settings : TrimSettings) (round : CustomRound) :
    Decidable (round.Keeps settings) :=
  inferInstanceAs (Decidable (_ ∧ _))

/-- The last case that is accepted in a list of rounds. -/
def lastKept (settings : TrimSettings) (rounds : List CustomRound) :
    Option (List (BitVec 8)) :=
  ((rounds.filter (·.Keeps settings)).getLast?).map CustomRound.retbuf

/-- The case that a trimmer ends with.  An exit by an abort is not to update the
file, and so accepts nothing. -/
def accepted (settings : TrimSettings) (rounds : List CustomRound) :
    Option (List (BitVec 8)) :=
  if ∃ round ∈ rounds, round.Aborts then none else lastKept settings rounds

/-- The case that a list of trimmers ends with. -/
def lastAccepted (settings : TrimSettings) (customs : List (List CustomRound)) :
    Option (List (BitVec 8)) :=
  (customs.filterMap (accepted settings)).getLast?

/-- What is written of a case, as its length becomes a `u32`. -/
def asU32 (bytes : List (BitVec 8)) : List (BitVec 8) :=
  bytes.take (bytes.length % 2 ^ 32)

theorem length_asU32 (bytes : List (BitVec 8)) :
    (asU32 bytes).length = bytes.length % 2 ^ 32 := by
  rw [asU32, List.length_take]
  exact Nat.min_eq_left (Nat.mod_le _ _)

theorem asU32_eq_iff (bytes : List (BitVec 8)) :
    asU32 bytes = bytes ↔ bytes.length < 2 ^ 32 := by
  constructor
  · intro same
    have length := length_asU32 bytes
    rw [same] at length
    rw [length]
    exact Nat.mod_lt _ (by decide)
  · intro short
    rw [asU32, Nat.mod_eq_of_lt short, List.take_length]

theorem CustomTrimming.foldl_aborted {settings : TrimSettings}
    (rounds : List CustomRound) {custom : CustomTrimming}
    (aborted : custom.aborted = true) :
    rounds.foldl (CustomTrimming.round settings) custom = custom := by
  induction rounds with
  | nil => rfl
  | cons round rounds induction =>
      have same : CustomTrimming.round settings custom round = custom := by
        simp [CustomTrimming.round, aborted]
      rw [List.foldl_cons, same]
      exact induction

theorem CustomTrimming.round_spec (settings : TrimSettings)
    {custom : CustomTrimming} (goesOn : custom.aborted = false)
    (round : CustomRound) :
    let after := CustomTrimming.round settings custom round
    (after.aborted = true ↔ round.Aborts) ∧
      (after.aborted = false → after.outBuf.map Prod.fst =
        if round.Keeps settings then some round.retbuf
        else custom.outBuf.map Prod.fst) := by
  by_cases empty : round.retbuf = []
  · simp [CustomTrimming.round, CustomRound.Aborts, CustomRound.Keeps, empty, goesOn]
  · by_cases aborts : round.run.aborts = true
    · simp [CustomTrimming.round, CustomRound.Aborts, empty, aborts, goesOn]
    · by_cases same : settings.cksum
          (bucketed settings.mapSize round.run.traceBits) = settings.execCksum
      · simp [CustomTrimming.round, CustomRound.Aborts, CustomRound.Keeps,
          TrimRun.Keeps, empty, aborts, goesOn, same]
      · simp [CustomTrimming.round, CustomRound.Aborts, CustomRound.Keeps,
          TrimRun.Keeps, empty, aborts, goesOn, same]

theorem lastKept_cons (settings : TrimSettings) (round : CustomRound)
    (rounds : List CustomRound) (before : Option (List (BitVec 8))) :
    (lastKept settings (round :: rounds)).or before =
      (lastKept settings rounds).or
        (if round.Keeps settings then some round.retbuf else before) := by
  by_cases keeps : round.Keeps settings
  · cases rest : rounds.filter (·.Keeps settings) with
    | nil => simp [lastKept, keeps, rest]
    | cons other others =>
        have last := List.getLast?_eq_some_getLast
          (List.cons_ne_nil other others)
        simp [lastKept, keeps, rest, last]
  · simp [lastKept, keeps]

theorem CustomTrimming.foldl_spec {settings : TrimSettings}
    (rounds : List CustomRound) {custom : CustomTrimming}
    (goesOn : custom.aborted = false) :
    let after := rounds.foldl (CustomTrimming.round settings) custom
    (after.aborted = true ↔ ∃ round ∈ rounds, round.Aborts) ∧
      (after.aborted = false → after.outBuf.map Prod.fst =
        (lastKept settings rounds).or (custom.outBuf.map Prod.fst)) := by
  induction rounds generalizing custom with
  | nil => simp [goesOn, lastKept]
  | cons round rounds induction =>
      obtain ⟨aborts, outBuf⟩ := CustomTrimming.round_spec settings goesOn round
      dsimp only
      rw [List.foldl_cons, lastKept_cons]
      cases stopped : (CustomTrimming.round settings custom round).aborted with
      | true =>
          have isAbort := aborts.mp stopped
          rw [CustomTrimming.foldl_aborted rounds stopped, stopped]
          exact ⟨iff_of_true rfl ⟨round, List.mem_cons_self, isAbort⟩, nofun⟩
      | false =>
          have noAbort : ¬round.Aborts := by
            intro isAbort
            rw [aborts.mpr isAbort] at stopped
            cases stopped
          have rest := induction stopped
          rw [outBuf stopped] at rest
          refine ⟨rest.1.trans ?_, rest.2⟩
          simp [noAbort]

theorem CustomTrimming.accepted_eq (settings : TrimSettings)
    (rounds : List CustomRound) {custom : CustomTrimming}
    (fresh : custom.outBuf = none) (goesOn : custom.aborted = false) :
    let after := rounds.foldl (CustomTrimming.round settings) custom
    (after.aborted = true → accepted settings rounds = none) ∧
      (after.aborted = false →
        accepted settings rounds = after.outBuf.map Prod.fst) := by
  obtain ⟨aborts, outBuf⟩ := CustomTrimming.foldl_spec rounds goesOn
  constructor
  · intro stopped
    rw [accepted, if_pos (aborts.mp stopped)]
  · intro finished
    have noAbort : ¬∃ round ∈ rounds, round.Aborts := by
      intro abort
      rw [aborts.mpr abort] at finished
      cases finished
    rw [accepted, if_neg noAbort, outBuf finished]
    simp [fresh]

/-- The case can be written to the file. -/
def Writable (environment : TrimEnvironment) (bytes : List (BitVec 8)) : Prop :=
  environment.opens = true ∧ (asU32 bytes).length < 2 ^ 31

instance (environment : TrimEnvironment) (bytes : List (BitVec 8)) :
    Decidable (Writable environment bytes) :=
  inferInstanceAs (Decidable (_ ∧ _))

/-- What the trimmers of a list have done to the copies of a case. -/
structure TrimmedBy (settings : TrimSettings) (copies : TestcaseCopies)
    (customs : List (List CustomRound)) (state : TrimState) : Prop where
  retakeable : Retakeable copies state.copies
  inBuf : state.trimming.inBuf = copies.inBuf
  file : state.copies.file =
    ((lastAccepted settings customs).map asU32).getD copies.file

variable {settings : TrimSettings} {environment : TrimEnvironment}
  {copies : TestcaseCopies}

theorem rewriteFile_eq (environment : TrimEnvironment)
    (bytes : List (BitVec 8)) :
    rewriteFile false environment.opens [] (asU32 bytes) =
      if Writable environment bytes then some (asU32 bytes) else none := by
  by_cases opens : environment.opens = true
  · by_cases short : (asU32 bytes).length < 2 ^ 31
    · rw [if_pos ⟨opens, short⟩, rewriteFile, ckWrite, if_pos short]
      simp [opens, Region.splice]
    · rw [if_neg fun both => short both.2, rewriteFile, ckWrite, if_neg short]
      simp
  · rw [if_neg fun both => opens both.1]
    simp [rewriteFile, opens]

theorem lastAccepted_append (customs : List (List CustomRound))
    (rounds : List CustomRound) :
    lastAccepted settings (customs ++ [rounds]) =
      (accepted settings rounds).or (lastAccepted settings customs) := by
  cases kept : accepted settings rounds with
  | none => simp [lastAccepted, List.filterMap_append, kept]
  | some bytes => simp [lastAccepted, List.filterMap_append, kept]

theorem trimCaseCustom_none {rounds : List CustomRound}
    (refused : accepted settings rounds = none) (state : TrimState) :
    ∃ next, trimCaseCustom environment settings state rounds = .ok next ∧
      next.copies = state.copies ∧
      next.trimming.inBuf = state.trimming.inBuf := by
  unfold trimCaseCustom
  dsimp only
  split
  · rename_i outBuf cleanTraceCustom goesOn kept
    have ends := (CustomTrimming.accepted_eq settings rounds rfl rfl).2 goesOn
    rw [refused, kept] at ends
    cases ends
  · exact ⟨_, rfl, rfl, rfl⟩

/-- A trimmer that accepts a case writes it, or the fuzzer ends. -/
theorem trimCaseCustom_some {rounds : List CustomRound}
    {bytes : List (BitVec 8)}
    (kept : accepted settings rounds = some bytes) (state : TrimState) :
    (Writable environment bytes →
      ∃ next, trimCaseCustom environment settings state rounds = .ok next ∧
        next.copies.file = asU32 bytes ∧
        next.trimming.inBuf = state.trimming.inBuf) ∧
      (¬Writable environment bytes →
        trimCaseCustom environment settings state rounds = .error .noFile) := by
  have rewritten := rewriteFile_eq environment bytes
  unfold trimCaseCustom
  dsimp only
  split
  · rename_i outBuf cleanTraceCustom goesOn isOutBuf
    have ends := (CustomTrimming.accepted_eq settings rounds rfl rfl).2 goesOn
    rw [kept, isOutBuf] at ends
    obtain rfl : bytes = outBuf := by simpa using ends
    unfold asU32 at rewritten
    rw [rewritten]
    constructor
    · intro writable
      rw [if_pos writable]
      refine ⟨_, rfl, ?_, rfl⟩
      have loaded := (spells_storeBytes (fun _ => 0#8) 0 (asU32 bytes)).loadBytes_eq
      simp only [TestcaseCopies.file, TestcaseCopies.rewrite,
        TestcaseCache.modify, Function.update_self]
      exact loaded
    · intro refused
      rw [if_neg refused]
  · rename_i other
    obtain ⟨stops, ends⟩ := @CustomTrimming.accepted_eq settings rounds
      ⟨none, state.trimming.traceBits, .ok, false⟩ rfl rfl
    rw [kept] at stops ends
    cases aborted : (rounds.foldl (CustomTrimming.round settings)
        ⟨none, state.trimming.traceBits, .ok, false⟩).aborted with
    | true => cases stops aborted
    | false =>
        obtain ⟨pair, isOutBuf, isBytes⟩ :=
          Option.map_eq_some_iff.mp (ends aborted).symm
        exact absurd isOutBuf (other _ _ aborted)

/-- All that is accepted in a list of trimmers can be written. -/
def AllWritable (environment : TrimEnvironment) (settings : TrimSettings)
    (customs : List (List CustomRound)) : Prop :=
  ∀ rounds ∈ customs, ∀ bytes, accepted settings rounds = some bytes →
    Writable environment bytes

theorem TrimmedBy.custom {customs : List (List CustomRound)}
    {state : TrimState} (trimmed : TrimmedBy settings copies customs state)
    (rounds : List CustomRound) :
    ((∀ bytes, accepted settings rounds = some bytes → Writable environment bytes) →
      ∃ next, trimCaseCustom environment settings state rounds = .ok next ∧
        TrimmedBy settings copies (customs ++ [rounds]) next) ∧
      (¬(∀ bytes, accepted settings rounds = some bytes → Writable environment bytes) →
        trimCaseCustom environment settings state rounds = .error .noFile) := by
  have kept := @Retakeable.custom settings environment copies state
    trimmed.retakeable rounds
  cases ends : accepted settings rounds with
  | none =>
      obtain ⟨next, returned, sameCopies, sameInBuf⟩ :=
        @trimCaseCustom_none settings environment rounds ends state
      rw [returned] at kept
      refine ⟨fun _ => ⟨next, returned, kept, ?_, ?_⟩, ?_⟩
      · exact sameInBuf.trans trimmed.inBuf
      · rw [sameCopies, trimmed.file, lastAccepted_append, ends, Option.none_or]
      · intro refused
        exact absurd nofun refused
  | some bytes =>
      obtain ⟨writes, fails⟩ :=
        @trimCaseCustom_some settings environment rounds bytes ends state
      simp only [Option.some.injEq, forall_eq']
      refine ⟨fun writable => ?_, fails⟩
      obtain ⟨next, returned, isFile, sameInBuf⟩ := writes writable
      rw [returned] at kept
      refine ⟨next, returned, kept, sameInBuf.trans trimmed.inBuf, ?_⟩
      rw [isFile, lastAccepted_append, ends, Option.some_or, Option.map_some,
        Option.getD_some]

/-- The trimmers of a list, one after the other. -/
theorem TrimmedBy.customs {before : List (List CustomRound)}
    {state : TrimState} (trimmed : TrimmedBy settings copies before state)
    (customs : List (List CustomRound)) :
    (AllWritable environment settings customs →
      ∃ next, customs.foldlM (trimCaseCustom environment settings) state = .ok next ∧
        TrimmedBy settings copies (before ++ customs) next) ∧
      (¬AllWritable environment settings customs →
        customs.foldlM (trimCaseCustom environment settings) state =
          .error .noFile) := by
  induction customs generalizing before state with
  | nil =>
      refine ⟨fun _ => ⟨state, rfl, ?_⟩, fun refused => ?_⟩
      · rw [List.append_nil]
        exact trimmed
      · exact absurd (fun rounds member => absurd member List.not_mem_nil)
          refused
  | cons rounds customs induction =>
      obtain ⟨writes, fails⟩ :=
        @TrimmedBy.custom settings environment copies before state trimmed
          rounds
      have split : AllWritable environment settings (rounds :: customs) ↔
          (∀ bytes, accepted settings rounds = some bytes →
            Writable environment bytes) ∧
          AllWritable environment settings customs := by
        exact List.forall_mem_cons
      rw [split, List.foldlM_cons]
      by_cases first : ∀ bytes, accepted settings rounds = some bytes →
          Writable environment bytes
      · obtain ⟨next, returned, after⟩ := writes first
        rw [returned, ok_bind, and_iff_right first,
          List.append_cons before rounds customs]
        exact induction after
      · rw [fails first]
        exact ⟨fun both => absurd both.1 first, fun _ => rfl⟩

/-- `trim_case` before the first trimmer. -/
def startState (copies : TestcaseCopies) (cleanTrace traceBits : Buffer) :
    TrimState where
  trimming :=
    Trimming.start copies.inBuf (copies.afl.entries copies.q).len.toNat
      cleanTrace traceBits
  copies

theorem TrimmedBy.start {others : BitVec 64}
    (consistent : copies.Consistent others) (cleanTrace traceBits : Buffer) :
    TrimmedBy settings copies [] (startState copies cleanTrace traceBits) where
  retakeable := ⟨rfl, rfl, rfl, consistent.fileLen⟩
  inBuf := rfl
  file := rfl

/-- What a trimmer is called with: `q->len` bytes at `in_buf`, where there are
`origLen`. -/
def initTrim (origLen : Nat) (state : TrimState) : Option (List (BitVec 8)) :=
  let len := (state.copies.afl.entries state.copies.q).len.toNat
  if len ≤ origLen then some (state.trimming.inBuf.loadBytes 0 len) else none

variable {others : BitVec 64}

theorem inBuf_eq_file (consistent : copies.Consistent others) :
    copies.inBuf.loadBytes 0 (copies.afl.entries copies.q).len.toNat =
      copies.file := by
  unfold TestcaseCopies.inBuf
  cases cached : (copies.afl.entries copies.q).testcaseBuf with
  | none =>
      rw [TestcaseCopies.file, consistent.fileLen]
      rfl
  | some buf => exact consistent.cached buf cached

theorem length_file (copies : TestcaseCopies) : copies.file.length = copies.fileLen :=
  length_loadBytes _ _ _

/-- A trimmer receives the file where the file is a start of the case. -/
theorem TrimmedBy.initTrim_iff (consistent : copies.Consistent others)
    {customs : List (List CustomRound)} {state : TrimState}
    (trimmed : TrimmedBy settings copies customs state) :
    initTrim (copies.afl.entries copies.q).len.toNat state = some state.copies.file ↔
      state.copies.file <+: copies.file := by
  have isLen := trimmed.retakeable.fileLen
  have length := length_file state.copies
  unfold initTrim
  dsimp only
  rw [← isLen]
  by_cases fits : state.copies.fileLen ≤ (copies.afl.entries copies.q).len.toNat
  · rw [if_pos fits, trimmed.inBuf, ← take_loadBytes _ _ fits,
      inBuf_eq_file consistent, Option.some.injEq, List.prefix_iff_eq_take,
      length]
    exact eq_comm
  · rw [if_neg fits]
    apply iff_of_false nofun
    intro isPrefix
    have shorter := isPrefix.length_le
    rw [length, length_file, consistent.fileLen] at shorter
    exact fits shorter

/-- The file, `q->len` and the cached buffer are those of a case. -/
structure TestcaseCopies.AreOf (bytes : List (BitVec 8))
    (copies : TestcaseCopies) : Prop where
  file : copies.file = bytes
  len : (copies.afl.entries copies.q).len.toNat = bytes.length
  cached : ∀ buf, (copies.afl.entries copies.q).testcaseBuf = some buf →
    buf.loadBytes 0 (copies.afl.entries copies.q).len.toNat = bytes

theorem TestcaseCopies.Consistent.areOf_iff (consistent : copies.Consistent others)
    (bytes : List (BitVec 8)) :
    copies.AreOf bytes ↔ copies.file = bytes := by
  constructor
  · intro areOf
    exact areOf.file
  · rintro rfl
    refine ⟨rfl, ?_, consistent.cached⟩
    rw [length_file, consistent.fileLen]

/-- The cached buffer can be given a new length and read again. -/
def Reloads (environment : TrimEnvironment) (copies : TestcaseCopies)
    (len : Nat) : Prop :=
  copies.isCached = true →
    (len ≠ (copies.afl.entries copies.q).len.toNat →
      environment.cache.allocates = true) ∧
    environment.cache.opens = true

/-- The case is read back, or the fuzzer ends. -/
theorem retake_spec {state : TrimState}
    (retakeable : Retakeable copies state.copies) :
    (Reloads environment copies state.copies.fileLen →
      ∃ next, retake environment (copies.afl.entries copies.q).len state = .ok next ∧
        next.copies.file = state.copies.file) ∧
      (¬Reloads environment copies state.copies.fileLen →
        retake environment (copies.afl.entries copies.q).len state =
          .error .noFile) := by
  have lengths : state.copies.fileLen ≠ (copies.afl.entries copies.q).len.toNat ↔
      (state.copies.afl.entries state.copies.q).len ≠
        (copies.afl.entries copies.q).len := by
    rw [retakeable.fileLen, Ne, BitVec.toNat_inj]
  unfold Reloads TestcaseCopies.isCached
  rw [lengths, ← retakeable.sameBuf]
  unfold retake TestcaseCache.queueTestcaseRetake
  cases cached : (state.copies.afl.entries state.copies.q).testcaseBuf with
  | none =>
      refine ⟨fun _ => ⟨_, rfl, rfl⟩, fun refused => ?_⟩
      exact absurd nofun refused
  | some testcaseBuf =>
      simp only [Option.isSome_some, true_implies]
      constructor
      · intro reloads
        rw [if_pos reloads]
        refine ⟨_, rfl, ?_⟩
        simp [TestcaseCopies.file, TestcaseCache.replaceBuffer, TestcaseCache.modify]
      · intro refused
        rw [if_neg refused]

/-- What `trim_case` leaves when custom mutators have trimmed. -/
theorem trimCase_customs {others : BitVec 64}
    (consistent : copies.Consistent others)
    {customs : List (List CustomRound)} (custom : customs ≠ [])
    (cleanTrace traceBits : Buffer) (fuel : Nat) :
    let bytes := ((lastAccepted settings customs).map asU32).getD copies.file
    (AllWritable environment settings customs ∧
        Reloads environment copies bytes.length →
      ∃ state, trimCase environment settings customs cleanTrace traceBits
          fuel copies = .ok state ∧
        state.copies.AreOf bytes) ∧
      (¬(AllWritable environment settings customs ∧
          Reloads environment copies bytes.length) →
        trimCase environment settings customs cleanTrace traceBits fuel
          copies = .error .noFile) := by
  have isCall : trimCase environment settings customs cleanTrace traceBits
      fuel copies =
      (customs.foldlM (trimCaseCustom environment settings)
        (startState copies cleanTrace traceBits) >>=
          retake environment (copies.afl.entries copies.q).len) := by
    rw [trimCase, if_pos custom]
    rfl
  obtain ⟨writes, fails⟩ :=
    @TrimmedBy.customs settings environment copies [] _
      (TrimmedBy.start consistent cleanTrace traceBits) customs
  dsimp only
  rw [isCall]
  by_cases writable : AllWritable environment settings customs
  · obtain ⟨state, returned, trimmed⟩ := writes writable
    rw [List.nil_append] at trimmed
    obtain ⟨reloads, refuses⟩ :=
      @retake_spec environment copies state trimmed.retakeable
    have length := length_file state.copies
    rw [trimmed.file] at length
    rw [returned, ok_bind, and_iff_right writable, length]
    refine ⟨fun reloaded => ?_, refuses⟩
    obtain ⟨next, taken, sameFile⟩ := reloads reloaded
    have after := @Retakeable.retake environment others copies state
      trimmed.retakeable consistent
    rw [taken] at after
    have isConsistent : next.copies.Consistent others := after
    refine ⟨next, taken, (isConsistent.areOf_iff _).mpr ?_⟩
    rw [sameFile, trimmed.file]
  · rw [fails writable]
    exact ⟨fun both => absurd both.1 writable, fun _ => rfl⟩

/-- Every trimmer that is called receives what the file holds by then. -/
def EachReceivesFile (environment : TrimEnvironment) (settings : TrimSettings)
    (customs : List (List CustomRound)) (cleanTrace traceBits : Buffer)
    (copies : TestcaseCopies) : Prop :=
  ∀ before rounds after state, customs = before ++ rounds :: after →
    before.foldlM (trimCaseCustom environment settings)
        (startState copies cleanTrace traceBits) = .ok state →
    initTrim (copies.afl.entries copies.q).len.toNat state = some state.copies.file

/-- All that is left of the case is the one that was last accepted. -/
def LeavesAccepted (settings : TrimSettings)
    (customs : List (List CustomRound)) (before after : TestcaseCopies) :
    Prop :=
  after.AreOf ((lastAccepted settings customs).getD before.file)

/-- What is accepted before some trimmer is called is a start of the case. -/
def AcceptsStarts (environment : TrimEnvironment) (settings : TrimSettings)
    (customs : List (List CustomRound)) (case : List (BitVec 8)) : Prop :=
  ∀ before rounds after, customs = before ++ rounds :: after →
    AllWritable environment settings before →
    ∀ bytes, lastAccepted settings before = some bytes → asU32 bytes <+: case

theorem eachReceivesFile_iff (consistent : copies.Consistent others)
    (customs : List (List CustomRound)) (cleanTrace traceBits : Buffer) :
    EachReceivesFile environment settings customs cleanTrace traceBits
        copies ↔
      AcceptsStarts environment settings customs copies.file := by
  apply forall₃_congr
  intro before rounds after
  rw [forall_comm]
  apply forall_congr'
  intro isSplit
  obtain ⟨writes, fails⟩ :=
    @TrimmedBy.customs settings environment copies [] _
      (TrimmedBy.start consistent cleanTrace traceBits) before
  by_cases writable : AllWritable environment settings before
  · obtain ⟨state, returned, trimmed⟩ := writes writable
    rw [List.nil_append] at trimmed
    have receives := trimmed.initTrim_iff consistent
    have file := trimmed.file
    simp only [returned, Except.ok.injEq, forall_eq', writable, true_implies]
    rw [receives, file]
    cases lastAccepted settings before with
    | none => simp
    | some bytes => simp
  · simp [fails writable, writable]

theorem trimCase_composes_iff {others : BitVec 64}
    (consistent : copies.Consistent others)
    {customs : List (List CustomRound)} (custom : customs ≠ [])
    (cleanTrace traceBits : Buffer) (fuel : Nat) :
    (EachReceivesFile environment settings customs cleanTrace traceBits copies ∧
      ∀ state, trimCase environment settings customs cleanTrace traceBits
          fuel copies = .ok state →
        LeavesAccepted settings customs copies state.copies) ↔
      AcceptsStarts environment settings customs copies.file ∧
        ∀ bytes, lastAccepted settings customs = some bytes →
          AllWritable environment settings customs →
          Reloads environment copies (asU32 bytes).length →
          bytes.length < 2 ^ 32 := by
  rw [eachReceivesFile_iff consistent]
  apply and_congr_right
  intro _
  obtain ⟨returns, fails⟩ := @trimCase_customs settings environment copies
    others consistent customs custom cleanTrace traceBits fuel
  unfold LeavesAccepted
  cases last : lastAccepted settings customs with
  | none =>
      rw [last] at returns fails
      refine iff_of_true (fun state returned => ?_) nofun
      by_cases goesOn : AllWritable environment settings customs ∧
          Reloads environment copies copies.file.length
      · obtain ⟨other, result, areOf⟩ := returns goesOn
        obtain rfl := Except.ok.inj (returned.symm.trans result)
        exact areOf
      · have failed := fails goesOn
        rw [returned] at failed
        cases failed
  | some bytes =>
      rw [last] at returns fails
      simp only [Option.map_some, Option.getD_some] at returns fails
      simp only [Option.some.injEq, forall_eq', Option.getD_some]
      constructor
      · intro leaves writable reloads
        obtain ⟨state, returned, areOf⟩ := returns ⟨writable, reloads⟩
        have written := (leaves state returned).file
        rw [areOf.file] at written
        exact (asU32_eq_iff bytes).mp written
      · intro short state returned
        by_cases goesOn : AllWritable environment settings customs ∧
            Reloads environment copies (asU32 bytes).length
        · obtain ⟨other, result, areOf⟩ := returns goesOn
          obtain rfl := Except.ok.inj (returned.symm.trans result)
          rw [(asU32_eq_iff bytes).mpr (short goesOn.1 goesOn.2)] at areOf
          exact areOf
        · have failed := fails goesOn
          rw [returned] at failed
          cases failed

def keptRound (retbuf : List (BitVec 8)) : CustomRound :=
  ⟨retbuf, ⟨.ok, false, fun _ => 0#8⟩⟩

/-- The entry holds `ab` and is not cached. -/
def twoBytes : TestcaseCopies where
  afl :=
    { nineBytes.afl with
      entries := fun _ =>
        ⟨2#32, Buffer.storeBytes (fun _ => 0#8) 0 [97#8, 98#8], none⟩
      cacheSize := 0#64 }
  q := 0
  fileLen := 2

theorem twoBytes_consistent : twoBytes.Consistent 0#64 where
  fileLen := rfl
  cached := nofun
  cacheSize := rfl

theorem trimCase_composes_iff_twoTrimmers :
    [[keptRound [97#8]], []] ≠ ([] : List (List CustomRound)) ∧
      ((EachReceivesFile (stoppedAt 9) anyTrace [[keptRound [97#8]], []]
          (fun _ => 0#8) (fun _ => 0#8) twoBytes ∧
        ∀ state, trimCase (stoppedAt 9) anyTrace [[keptRound [97#8]], []]
            (fun _ => 0#8) (fun _ => 0#8) 0 twoBytes = .ok state →
          LeavesAccepted anyTrace [[keptRound [97#8]], []] twoBytes
            state.copies) ↔
        AcceptsStarts (stoppedAt 9) anyTrace [[keptRound [97#8]], []]
            twoBytes.file ∧
          ∀ bytes, lastAccepted anyTrace [[keptRound [97#8]], []] = some bytes →
            AllWritable (stoppedAt 9) anyTrace [[keptRound [97#8]], []] →
            Reloads (stoppedAt 9) twoBytes (asU32 bytes).length →
            bytes.length < 2 ^ 32) :=
  ⟨List.cons_ne_nil _ _, trimCase_composes_iff twoBytes_consistent
    (List.cons_ne_nil _ _) (fun _ => 0#8) (fun _ => 0#8) 0⟩

/-- The first of two trimmers keeps the last byte, and the second one is given
the first byte. -/
theorem trimCase_secondTrimmer :
    ∃ state, [[keptRound [98#8]]].foldlM
        (trimCaseCustom (stoppedAt 9) anyTrace)
        (startState twoBytes (fun _ => 0#8) (fun _ => 0#8)) = .ok state ∧
      state.copies.file = [98#8] ∧
      initTrim 2 state = some [97#8] ∧
      ¬EachReceivesFile (stoppedAt 9) anyTrace [[keptRound [98#8]], []]
        (fun _ => 0#8) (fun _ => 0#8) twoBytes := by
  refine ⟨_, rfl, by decide, by decide, fun receives => ?_⟩
  have second := receives [[keptRound [98#8]]] [] [] _ rfl rfl
  revert second
  decide

end AFLPlusPlus.Trim
