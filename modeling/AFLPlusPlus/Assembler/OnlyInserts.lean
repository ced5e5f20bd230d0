import AFLPlusPlus.Assembler.AddInstrumentation

/-!
# What the instrumentation leaves as it is

The output of `add_instrumentation` without trampolines and payload is the input,
and each trampoline stands between lines of instrumented code, as long as the
pieces that `fgets` returns are lines without a NUL.  A piece that begins or ends
inside of a line may have a trampoline before or behind it.
-/

namespace AFLPlusPlus.Assembler

def inputOf (pieces : List Piece) : CString := render (fun _ => []) [] pieces

def linesOf (pieces : List Piece) : List CString :=
  pieces.flatMap fun piece =>
    match piece with
    | .line text => [text]
    | _ => []

/-- What the last line tells that tells anything of a kind. -/
def latest (tells : CString → Option Bool) (lines : List CString) : Option Bool :=
  lines.reverse.findSome? tells

/-- Whether a directive for sections is one for `.text`. -/
def sectionTells (line : CString) : Option Bool :=
  if charAt line 0 == '\t' && charAt line 1 == '.' then
    if startsAt line 2 "text\n" || startsAt line 2 "section\t.text" ||
        startsAt line 2 "section\t__TEXT,__text" ||
        startsAt line 2 "section __TEXT,__text" then some true
    else if startsAt line 2 "section\t" || startsAt line 2 "section " ||
        startsAt line 2 "bss\n" || startsAt line 2 "data\n" then some false
    else none
  else none

/-- Whether code of the other width follows. -/
def Settings.widthTells (as : Settings) (line : CString) : Option Bool :=
  if (sectionTells line).isSome then none
  else if contains line ".code64" then some !as.use64bit
  else if contains line ".code32" then some as.use64bit
  else none

/-- Whether code for Intel follows. -/
def flavorTells (line : CString) : Option Bool :=
  if (sectionTells line).isSome then none
  else if contains line ".att_syntax" then some false
  else if contains line ".intel_syntax" then some true
  else none

/-- Whether a block of `__asm__` begins or ends. -/
def appTells (line : CString) : Option Bool :=
  if (sectionTells line).isSome then none
  else if charAt line 0 == '#' || charAt line 1 == '#' then
    if contains line "#NO_APP" then some false
    else if contains line "#APP" then some true
    else none
  else none

/-- After these lines there is code to be instrumented. -/
structure Settings.InCode (as : Settings) (lines : List CString) : Prop where
  text : latest sectionTells lines = some true
  width : latest as.widthTells lines ≠ some true
  flavor : latest flavorTells lines ≠ some true
  app : latest appTells lines ≠ some true

/-- Between these two parts of the input one line has ended, or no line has
begun. -/
def BetweenLines (before after : CString) : Prop :=
  before = [] ∨ before.getLast? = some '\n' ∨ after = []

structure Settings.OnlyInserts (as : Settings) (file : CString)
    (pieces : List Piece) : Prop where
  copies : inputOf pieces = file
  payloadLast : ∀ before after, pieces = before ++ .mainPayload :: after → after = []
  between : ∀ before id after, pieces = before ++ .trampoline id :: after →
    BetweenLines (inputOf before) (inputOf after)
  inCode : ∀ before id after, pieces = before ++ .trampoline id :: after →
    as.InCode (linesOf before)

/-- Whether a trampoline is written behind this line, a conditional jump. -/
def Settings.jumpsNow (as : Settings) (state : LineState) (line : CString) :
    Bool :=
  !as.passThru && (as.track state line).2 && charAt line 0 == '\t' &&
    charAt line 1 == 'j' && charAt line 2 != 'm' &&
    decide (as.r state.drawn 100 < as.instRatio)

def Settings.stateAfter (as : Settings) (lines : List CString) : LineState :=
  (Transducer.run as.addLine .initial lines).1

/-- No piece that begins inside of a line has a trampoline before it, and none
that ends inside of a line has one behind it. -/
def Settings.KeepsLines (as : Settings) (file : CString) : Prop :=
  ∀ earlier line later, fgetsLines file = earlier ++ line :: later →
    (as.dumpsNow (as.stateAfter earlier) line = true →
      earlier.flatten = [] ∨ earlier.flatten.getLast? = some '\n') ∧
    (as.jumpsNow (as.dumpDeferred (as.stateAfter earlier) line).1 line = true →
      line.getLast? = some '\n' ∨ later = [])

def fileLines (file : CString) : List CString := BoundedLines.lines '\n' [] file

section Track

variable {as : Settings} {state : LineState} {line : CString}

theorem trackSection_eq : ∃ skip, as.trackSection state line =
    ({ state with
        instrOk := (sectionTells line).getD state.instrOk
        skipNextLabel := skip },
      (sectionTells line).isSome) := by
  unfold Settings.trackSection sectionTells
  split
  · split
    · refine ⟨true, ?_⟩
      dsimp only
      split
      · rfl
      · split <;> rfl
    · refine ⟨state.skipNextLabel, ?_⟩
      dsimp only
      split
      · rfl
      · split <;> rfl
  · exact ⟨state.skipNextLabel, rfl⟩

theorem contains_code {text : String} (longer : ".code".toList <:+: text.toList)
    (found : contains line text = true) : contains line ".code" = true := by
  apply decide_eq_true
  exact longer.trans (of_decide_eq_true found)

section NoSection

variable (none : sectionTells line = none)
include none

theorem trackWidth_eq : as.trackWidth state line =
    { state with
      skipCsect := (as.widthTells line).getD state.skipCsect } := by
  have code32 := @contains_code line ".code32" (by decide)
  have code64 := @contains_code line ".code64" (by decide)
  unfold Settings.trackWidth Settings.widthTells
  rw [none, Option.isSome_none, if_neg Bool.false_ne_true]
  by_cases is64 : contains line ".code64" = true
  · rw [if_pos (code64 is64), if_pos is64, if_pos is64]
    split <;> rfl
  · by_cases is32 : contains line ".code32" = true
    · rw [if_pos (code32 is32), if_neg is64, if_pos is32, if_neg is64, if_pos is32]
      rfl
    · rw [if_neg is64, if_neg is32, if_neg is64, if_neg is32]
      split <;> rfl

theorem trackSyntax_eq : trackSyntax state line =
    { state with
      skipIntel := (flavorTells line).getD state.skipIntel } := by
  unfold trackSyntax flavorTells
  rw [none, Option.isSome_none, if_neg Bool.false_ne_true]
  split
  · split <;> rfl
  · split <;> rfl

theorem trackApp_eq : trackApp state line =
    { state with skipApp := (appTells line).getD state.skipApp } := by
  unfold trackApp appTells
  rw [none, Option.isSome_none, if_neg Bool.false_ne_true]
  split
  · split
    · split <;> rfl
    · split <;> rfl
  · rfl

end NoSection

/-- The flags after a line, in which nothing but `skip_next_label` changes
besides what the directives tell. -/
def Settings.told (as : Settings) (state : LineState) (line : CString)
    (skip : Bool) : LineState :=
  { state with
    instrOk := (sectionTells line).getD state.instrOk
    skipCsect := (as.widthTells line).getD state.skipCsect
    skipIntel := (flavorTells line).getD state.skipIntel
    skipApp := (appTells line).getD state.skipApp
    skipNextLabel := skip }

theorem track_eq : ∃ skip, (as.track state line).1 = as.told state line skip ∧
    ((as.track state line).2 = true → (as.told state line skip).instrOk = true ∧
      (as.told state line skip).skipCsect = false ∧
      (as.told state line skip).skipIntel = false ∧
      (as.told state line skip).skipApp = false) := by
  obtain ⟨skip, isSection⟩ := @trackSection_eq as state line
  refine ⟨skip, ?_⟩
  unfold Settings.track
  rw [isSection]
  cases tells : sectionTells line with
  | some isText =>
      refine ⟨?_, fun code => absurd code Bool.false_ne_true⟩
      simp [Settings.told, Settings.widthTells, flavorTells, appTells, tells]
  | none =>
      have all : trackApp (trackSyntax (as.trackWidth
          { state with
            instrOk := (sectionTells line).getD state.instrOk
            skipNextLabel := skip } line) line) line =
          as.told state line skip := by
        rw [trackWidth_eq tells, trackSyntax_eq tells, trackApp_eq tells]
        rfl
      rw [tells] at all
      simp only [Option.isSome_none, all]
      refine ⟨trivial, fun code => ?_⟩
      simp at code
      exact ⟨code.1.1.2, code.1.1.1.2, code.1.1.1.1.1, code.1.1.1.1.2⟩

end Track

/-- One trampoline, if there is one now. -/
def WrittenIf (now : Bool) (pieces : List Piece) : Prop :=
  (now = true ∧ ∃ id, pieces = [.trampoline id]) ∨ (now = false ∧ pieces = [])

/-- The flags that say where there is code. -/
def SameFlags (state next : LineState) : Prop :=
  next.instrOk = state.instrOk ∧ next.skipCsect = state.skipCsect ∧
    next.skipIntel = state.skipIntel ∧ next.skipApp = state.skipApp

section Written

variable (as : Settings) (state : LineState) (line : CString)

theorem dumpDeferred_writes :
    WrittenIf (as.dumpsNow state line) (as.dumpDeferred state line).2 := by
  unfold Settings.dumpDeferred
  cases now : as.dumpsNow state line with
  | true => exact .inl ⟨rfl, _, rfl⟩
  | false => exact .inr ⟨rfl, rfl⟩

theorem dumpDeferred_flags : SameFlags state (as.dumpDeferred state line).1 := by
  unfold Settings.dumpDeferred
  split
  · exact ⟨rfl, rfl, rfl, rfl⟩
  · exact ⟨rfl, rfl, rfl, rfl⟩

theorem readLabel_flags : SameFlags state (as.readLabel state line) := by
  have jump : ∀ name, SameFlags state (as.jumpLabel state line name) := by
    intro name
    unfold Settings.jumpLabel
    split
    · dsimp only
      split
      · split <;> exact ⟨rfl, rfl, rfl, rfl⟩
      · exact ⟨rfl, rfl, rfl, rfl⟩
    · exact ⟨rfl, rfl, rfl, rfl⟩
  unfold Settings.readLabel
  split
  · split
    · dsimp only
      split
      · exact jump 0
      · exact ⟨rfl, rfl, rfl, rfl⟩
    · split
      · exact jump 1
      · exact ⟨rfl, rfl, rfl, rfl⟩
  · exact ⟨rfl, rfl, rfl, rfl⟩

theorem readJump_flags : SameFlags state (as.readJump state line).1 := by
  unfold Settings.readJump
  split
  · dsimp only
    split <;> exact ⟨rfl, rfl, rfl, rfl⟩
  · exact ⟨rfl, rfl, rfl, rfl⟩

theorem instrument_flags :
    SameFlags (as.track state line).1 (as.instrument state line).1 := by
  unfold Settings.instrument
  cases as.track state line with
  | mk tracked code =>
      cases code with
      | false => exact ⟨rfl, rfl, rfl, rfl⟩
      | true =>
          dsimp only
          split
          · exact readJump_flags as tracked line
          · exact readLabel_flags as tracked line

theorem instrument_writes (running : as.passThru = false) :
    WrittenIf (as.jumpsNow state line) (as.instrument state line).2 := by
  obtain ⟨skip, tracked, _⟩ := @track_eq as state line
  have drawn : (as.track state line).1.drawn = state.drawn := by
    rw [tracked]
    rfl
  unfold Settings.jumpsNow Settings.instrument
  rw [running, ← drawn]
  cases as.track state line with
  | mk tracked code =>
      cases code with
      | false => exact .inr ⟨rfl, rfl⟩
      | true =>
          by_cases tab : charAt line 0 == '\t'
          · unfold Settings.readJump
            by_cases jump : (charAt line 1 == 'j' && charAt line 2 != 'm')
            · by_cases chosen : as.r tracked.drawn 100 < as.instRatio
              · refine .inl ⟨?_, ?_⟩
                · simpa [tab, chosen] using jump
                · simp [tab, jump, chosen, Settings.trampoline]
              · refine .inr ⟨?_, ?_⟩
                · simp [chosen]
                · simp [tab, jump, chosen]
            · refine .inr ⟨?_, ?_⟩
              · simp at jump
                simp [tab]
                exact fun isJump isOther => absurd (jump isJump) isOther
              · simp [tab, jump]
          · refine .inr ⟨?_, ?_⟩
            · simp [tab]
            · simp [tab]

theorem addLine_writes : ∃ dumped jumped,
    (as.addLine state line).2 = dumped ++ .line (textOf line) :: jumped ∧
      WrittenIf (as.dumpsNow state line) dumped ∧
      WrittenIf (as.jumpsNow (as.dumpDeferred state line).1 line) jumped := by
  refine ⟨(as.dumpDeferred state line).2, ?_⟩
  cases running : as.passThru with
  | true =>
      refine ⟨[], ?_, dumpDeferred_writes as state line, .inr ⟨?_, rfl⟩⟩
      · simp [Settings.addLine, running]
      · simp [Settings.jumpsNow, running]
  | false =>
      refine ⟨(as.instrument (as.dumpDeferred state line).1 line).2, ?_,
        dumpDeferred_writes as state line,
        instrument_writes as _ line running⟩
      simp [Settings.addLine, running]

end Written

/-- The flags are what the last directive of each kind told. -/
structure Settings.Tracks (as : Settings) (lines : List CString)
    (state : LineState) : Prop where
  instrOk : state.instrOk = true ↔ latest sectionTells lines = some true
  skipCsect : state.skipCsect = true ↔ latest as.widthTells lines = some true
  skipIntel : state.skipIntel = true ↔ latest flavorTells lines = some true
  skipApp : state.skipApp = true ↔ latest appTells lines = some true

section Flags

variable {as : Settings} {state next : LineState} {line : CString}
  {lines : List CString}

theorem latest_append (tells : CString → Option Bool) :
    latest tells (lines ++ [line]) = (tells line).or (latest tells lines) := by
  rw [latest, List.reverse_append, List.reverse_singleton,
    List.singleton_append, List.findSome?_cons]
  cases tells line <;> rfl

theorem flag_iff {flag : Bool} {tells : CString → Option Bool}
    (holds : flag = true ↔ latest tells lines = some true) :
    (tells line).getD flag = true ↔ latest tells (lines ++ [line]) = some true := by
  rw [latest_append]
  cases tells line with
  | none => simpa using holds
  | some told => simp

theorem Settings.Tracks.of_flags (tracks : as.Tracks lines state)
    (same : SameFlags state next) : as.Tracks lines next := by
  obtain ⟨instrOk, skipCsect, skipIntel, skipApp⟩ := same
  exact ⟨instrOk ▸ tracks.instrOk, skipCsect ▸ tracks.skipCsect,
    skipIntel ▸ tracks.skipIntel, skipApp ▸ tracks.skipApp⟩

theorem Settings.Tracks.told (tracks : as.Tracks lines state) (skip : Bool) :
    as.Tracks (lines ++ [line]) (as.told state line skip) :=
  ⟨flag_iff tracks.instrOk, flag_iff tracks.skipCsect,
    flag_iff tracks.skipIntel, flag_iff tracks.skipApp⟩

theorem Settings.Tracks.addLine (tracks : as.Tracks lines state)
    (running : as.passThru = false) :
    as.Tracks (lines ++ [line]) (as.addLine state line).1 := by
  have dumped := tracks.of_flags (dumpDeferred_flags as state line)
  obtain ⟨skip, tracked, _⟩ := @track_eq as (as.dumpDeferred state line).1 line
  have told := @Settings.Tracks.told as _ line lines dumped skip
  rw [← tracked] at told
  have after := told.of_flags (instrument_flags as _ line)
  simpa [Settings.addLine, running] using after

theorem stateAfter_tracks (running : as.passThru = false) :
    as.Tracks lines (as.stateAfter lines) := by
  apply Transducer.run_invariant
  · exact ⟨by simp [latest, LineState.initial],
      by simp [latest, LineState.initial], by simp [latest, LineState.initial],
      by simp [latest, LineState.initial]⟩
  · exact fun earlier line state tracks => tracks.addLine running

theorem Settings.Tracks.inCode (tracks : as.Tracks lines state)
    (instrOk : state.instrOk = true) (skipCsect : state.skipCsect = false)
    (skipIntel : state.skipIntel = false) (skipApp : state.skipApp = false) :
    as.InCode lines where
  text := tracks.instrOk.mp instrOk
  width := fun told =>
    absurd (tracks.skipCsect.mpr told) (skipCsect ▸ Bool.false_ne_true)
  flavor := fun told =>
    absurd (tracks.skipIntel.mpr told) (skipIntel ▸ Bool.false_ne_true)
  app := fun told =>
    absurd (tracks.skipApp.mpr told) (skipApp ▸ Bool.false_ne_true)

theorem inCode_of_dumpsNow (dumps : as.dumpsNow (as.stateAfter lines) line = true) :
    as.InCode lines := by
  simp [Settings.dumpsNow] at dumps
  obtain ⟨⟨⟨⟨⟨⟨⟨running, skipIntel⟩, skipApp⟩, skipCsect⟩, instrOk⟩, _⟩, _⟩, _⟩ :=
    dumps
  exact (stateAfter_tracks running).inCode instrOk skipCsect skipIntel skipApp

theorem inCode_of_jumpsNow
    (jumps : as.jumpsNow (as.dumpDeferred (as.stateAfter lines) line).1 line =
      true) : as.InCode (lines ++ [line]) := by
  have running : as.passThru = false := by
    simp [Settings.jumpsNow] at jumps
    exact jumps.1.1.1.1.1
  have code : (as.track (as.dumpDeferred (as.stateAfter lines) line).1
      line).2 = true := by
    simp [Settings.jumpsNow] at jumps
    exact jumps.1.1.1.1.2
  have dumped := (@stateAfter_tracks as lines running).of_flags
    (dumpDeferred_flags as _ line)
  obtain ⟨skip, _, allows⟩ :=
    @track_eq as (as.dumpDeferred (as.stateAfter lines) line).1 line
  obtain ⟨instrOk, skipCsect, skipIntel, skipApp⟩ := allows code
  exact (dumped.told skip).inCode instrOk skipCsect skipIntel skipApp

end Flags

section Output

variable {as : Settings} {file : CString} {lines earlier later : List CString}
  {line : CString}

@[simp] theorem inputOf_append (pieces more : List Piece) :
    inputOf (pieces ++ more) = inputOf pieces ++ inputOf more :=
  List.flatMap_append

@[simp] theorem linesOf_append (pieces more : List Piece) :
    linesOf (pieces ++ more) = linesOf pieces ++ linesOf more :=
  List.flatMap_append

@[simp] theorem inputOf_nil : inputOf [] = [] := rfl

@[simp] theorem linesOf_nil : linesOf [] = [] := rfl

@[simp] theorem inputOf_line (text : CString) (pieces : List Piece) :
    inputOf (.line text :: pieces) = text ++ inputOf pieces := rfl

@[simp] theorem linesOf_line (text : CString) (pieces : List Piece) :
    linesOf (.line text :: pieces) = text :: linesOf pieces := rfl

theorem WrittenIf.adds_nothing {now : Bool} {pieces : List Piece}
    (written : WrittenIf now pieces) :
    inputOf pieces = [] ∧ linesOf pieces = [] := by
  rcases written with ⟨_, id, rfl⟩ | ⟨_, rfl⟩
  · exact ⟨rfl, rfl⟩
  · exact ⟨rfl, rfl⟩

theorem addLine_copies (state : LineState) :
    inputOf (as.addLine state line).2 = textOf line ∧
      linesOf (as.addLine state line).2 = [textOf line] := by
  obtain ⟨dumped, jumped, written, isDumped, isJumped⟩ := addLine_writes as state line
  rw [written]
  simp [isDumped.adds_nothing, isJumped.adds_nothing]

theorem run_copies (state : LineState) :
    inputOf (Transducer.run as.addLine state lines).2 = lines.flatMap textOf ∧
      linesOf (Transducer.run as.addLine state lines).2 = lines.map textOf := by
  constructor
  · apply Transducer.flatMap_run
    exact fun line _ state => (addLine_copies state).1
  · rw [List.map_eq_flatMap]
    apply Transducer.flatMap_run
    exact fun line _ state => (addLine_copies state).2

theorem exists_payload (as : Settings) (file : CString) :
    ∃ payload, addInstrumentation as file =
        (Transducer.run as.addLine .initial (fgetsLines file)).2 ++ payload ∧
      (payload = [] ∨ payload = [.mainPayload]) := by
  refine ⟨_, rfl, ?_⟩
  split
  · exact .inr rfl
  · exact .inl rfl

theorem addInstrumentation_copies :
    inputOf (addInstrumentation as file) = (fgetsLines file).flatMap textOf := by
  obtain ⟨payload, output, isPayload⟩ := exists_payload as file
  rw [output, inputOf_append, (run_copies .initial).1]
  rcases isPayload with rfl | rfl
  · simp
  · exact List.append_nil _

/-- The trampoline that was cut out of the pieces of one line. -/
theorem WrittenIf.cut {dumps jumps : Bool} {text : CString} {id : Nat}
    {dumped jumped first last : List Piece} (isDumped : WrittenIf dumps dumped)
    (isJumped : WrittenIf jumps jumped)
    (step : dumped ++ .line text :: jumped = first ++ .trampoline id :: last) :
    (dumps = true ∧ first = []) ∨
      (jumps = true ∧ inputOf first = text ∧ linesOf first = [text] ∧ last = []) := by
  rcases List.append_eq_append_iff.mp step with
    ⟨gap, isFirst, isRest⟩ | ⟨gap, isDump, isRest⟩
  · cases gap with
    | nil => cases isRest
    | cons same gap =>
        obtain ⟨rfl, rest⟩ := List.cons.inj isRest
        rcases isJumped with ⟨jumps, other, rfl⟩ | ⟨_, rfl⟩
        · obtain ⟨rfl, isLast⟩ : gap = [] ∧ last = [] := by
            cases gap with
            | nil => exact ⟨rfl, (List.cons.inj rest).2.symm⟩
            | cons _ gap => simp at rest
          refine .inr ⟨jumps, ?_, ?_, isLast⟩
          · simp [isFirst, isDumped.adds_nothing]
          · simp [isFirst, isDumped.adds_nothing]
        · simp at rest
  · rcases isDumped with ⟨dumps, other, rfl⟩ | ⟨_, rfl⟩
    · cases first with
      | nil => exact .inl ⟨dumps, rfl⟩
      | cons same first =>
          obtain ⟨_, none⟩ := List.cons.inj isDump
          obtain ⟨rfl, rfl⟩ := List.append_eq_nil_iff.mp none.symm
          cases isRest
    · obtain ⟨rfl, rfl⟩ := List.append_eq_nil_iff.mp isDump.symm
      cases isRest

/-- Where a trampoline stands: before a line, or behind one. -/
theorem exists_line_of_trampoline {before after : List Piece} {id : Nat}
    (split : addInstrumentation as file = before ++ .trampoline id :: after) :
    ∃ earlier line later, fgetsLines file = earlier ++ line :: later ∧
      ((as.dumpsNow (as.stateAfter earlier) line = true ∧
          inputOf before = earlier.flatMap textOf ∧
          linesOf before = earlier.map textOf) ∨
        (as.jumpsNow (as.dumpDeferred (as.stateAfter earlier) line).1 line = true ∧
          inputOf before = (earlier ++ [line]).flatMap textOf ∧
          linesOf before = (earlier ++ [line]).map textOf ∧
          inputOf after = later.flatMap textOf)) := by
  obtain ⟨payload, output, isPayload⟩ := exists_payload as file
  have noTrampoline : Piece.trampoline id ∉ payload := by
    rcases isPayload with rfl | rfl <;> simp
  have nothing : inputOf payload = [] := by
    rcases isPayload with rfl | rfl <;> rfl
  rw [output] at split
  obtain ⟨rest, ran, isAfter⟩ : ∃ rest,
      (Transducer.run as.addLine .initial (fgetsLines file)).2 =
        before ++ .trampoline id :: rest ∧ after = rest ++ payload := by
    rcases List.append_eq_append_iff.mp split with
      ⟨gap, _, isPayload⟩ | ⟨gap, isRun, isRest⟩
    · exact absurd (by simp [isPayload]) noTrampoline
    · cases gap with
      | nil => exact absurd (by simp [← show _ = payload from isRest]) noTrampoline
      | cons first gap =>
          obtain ⟨rfl, isAfter⟩ := List.cons.inj isRest
          exact ⟨gap, isRun, isAfter⟩
  obtain ⟨earlier, line, later, first, last, isLines, written, isBefore,
    isRest⟩ := Transducer.exists_step_of_output ran
  refine ⟨earlier, line, later, isLines, ?_⟩
  obtain ⟨dumped, jumped, shape, isDumped, isJumped⟩ :=
    addLine_writes as (as.stateAfter earlier) line
  have copied := @run_copies as earlier .initial
  rcases isDumped.cut isJumped (shape.symm.trans written) with
    ⟨dumps, rfl⟩ | ⟨jumps, isText, isLine, rfl⟩
  · refine .inl ⟨dumps, ?_, ?_⟩
    · rw [isBefore, List.append_nil, copied.1]
    · rw [isBefore, List.append_nil, copied.2]
  · refine .inr ⟨jumps, ?_, ?_, ?_⟩
    · simp [isBefore, copied.1, isText]
    · simp [isBefore, copied.2, isLine]
    · rw [isAfter, isRest, inputOf_append, nothing, List.append_nil,
        List.nil_append, (run_copies _).1]

/-- The output around the pieces of one line. -/
theorem output_around (isLines : fgetsLines file = earlier ++ line :: later) :
    ∃ rest, addInstrumentation as file =
        (Transducer.run as.addLine .initial earlier).2 ++
          ((as.addLine (as.stateAfter earlier) line).2 ++ rest) ∧
      inputOf rest = later.flatMap textOf := by
  obtain ⟨payload, output, isPayload⟩ := exists_payload as file
  have nothing : inputOf payload = [] := by
    rcases isPayload with rfl | rfl <;> rfl
  refine ⟨(Transducer.run as.addLine
    (as.addLine (as.stateAfter earlier) line).1 later).2 ++ payload, ?_, ?_⟩
  · rw [output, isLines, Transducer.run_middle]
    simp [Settings.stateAfter]
  · rw [inputOf_append, nothing, List.append_nil, (run_copies _).1]

theorem exists_dump (isLines : fgetsLines file = earlier ++ line :: later)
    (dumps : as.dumpsNow (as.stateAfter earlier) line = true) :
    ∃ before id after, addInstrumentation as file = before ++ .trampoline id :: after ∧
      inputOf before = earlier.flatMap textOf ∧
      inputOf after = textOf line ++ later.flatMap textOf := by
  obtain ⟨rest, output, isRest⟩ := @output_around as _ _ _ _ isLines
  obtain ⟨dumped, jumped, shape, isDumped, isJumped⟩ :=
    addLine_writes as (as.stateAfter earlier) line
  rcases isDumped with ⟨_, id, rfl⟩ | ⟨notNow, _⟩
  · refine ⟨(Transducer.run as.addLine .initial earlier).2, id,
      .line (textOf line) :: (jumped ++ rest), ?_, (run_copies _).1, ?_⟩
    · rw [output, shape]
      simp
    · simp [isJumped.adds_nothing, isRest]
  · exact absurd dumps (notNow ▸ Bool.false_ne_true)

theorem exists_jump (isLines : fgetsLines file = earlier ++ line :: later)
    (jumps : as.jumpsNow (as.dumpDeferred (as.stateAfter earlier) line).1 line =
      true) :
    ∃ before id after, addInstrumentation as file = before ++ .trampoline id :: after ∧
      inputOf before = earlier.flatMap textOf ++ textOf line ∧
      inputOf after = later.flatMap textOf := by
  obtain ⟨rest, output, isRest⟩ := @output_around as _ _ _ _ isLines
  obtain ⟨dumped, jumped, shape, isDumped, isJumped⟩ :=
    addLine_writes as (as.stateAfter earlier) line
  rcases isJumped with ⟨_, id, rfl⟩ | ⟨notNow, _⟩
  · refine ⟨(Transducer.run as.addLine .initial earlier).2 ++
      (dumped ++ [.line (textOf line)]), id, rest, ?_, ?_, isRest⟩
    · rw [output, shape]
      simp
    · simp [isDumped.adds_nothing, (run_copies _).1]
  · exact absurd jumps (notNow ▸ Bool.false_ne_true)

theorem mainPayload_not_mem_run :
    Piece.mainPayload ∉ (Transducer.run as.addLine .initial lines).2 := by
  intro member
  obtain ⟨before, after, split⟩ := List.append_of_mem member
  obtain ⟨earlier, line, _, first, last, _, written, _⟩ :=
    Transducer.exists_step_of_output split
  obtain ⟨dumped, jumped, shape, isDumped, isJumped⟩ :=
    addLine_writes as (as.stateAfter earlier) line
  have inStep : Piece.mainPayload ∈ dumped ++ .line (textOf line) :: jumped := by
    rw [← shape]
    exact written ▸ by simp
  have none : ∀ {now pieces}, WrittenIf now pieces → Piece.mainPayload ∉ pieces := by
    rintro now pieces (⟨_, id, rfl⟩ | ⟨_, rfl⟩) <;> simp
  simp [none isDumped, none isJumped] at inStep

theorem mainPayload_last {before after : List Piece}
    (split : addInstrumentation as file = before ++ .mainPayload :: after) :
    after = [] := by
  obtain ⟨payload, output, isPayload⟩ := exists_payload as file
  have alone : ∀ {gap}, payload = gap ++ .mainPayload :: after → after = [] := by
    intro gap isRest
    rcases isPayload with rfl | rfl
    · simp at isRest
    · cases gap with
      | nil => exact (List.cons.inj isRest).2.symm
      | cons first gap => simp at isRest
  rw [output] at split
  rcases List.append_eq_append_iff.mp split with
    ⟨gap, _, isRest⟩ | ⟨gap, isRun, isRest⟩
  · exact alone isRest
  · cases gap with
    | nil => exact @alone [] isRest.symm
    | cons first gap =>
        obtain ⟨rfl, _⟩ := List.cons.inj isRest
        exact absurd (isRun ▸ by simp) (@mainPayload_not_mem_run as (fgetsLines file))

end Output

section Texts

variable {file line : CString} {lines : List CString}

theorem nul_not_mem_textOf (line : CString) : nul ∉ textOf line := by
  intro member
  simpa using List.mem_takeWhile_imp member

theorem textOf_eq (clean : nul ∉ line) : textOf line = line := by
  apply List.takeWhile_eq_self_iff.mpr
  intro char member
  apply decide_eq_true
  rintro rfl
  exact clean member

theorem flatMap_textOf_eq (clean : nul ∉ lines.flatten) :
    lines.flatMap textOf = lines.flatten ∧ lines.map textOf = lines := by
  have each : ∀ line ∈ lines, textOf line = line := by
    intro line member
    apply textOf_eq
    exact fun isNul => clean (List.mem_flatten_of_mem member isNul)
  constructor
  · rw [List.flatMap_congr each, List.flatMap_id']
  · exact (List.map_congr_left each).trans (List.map_id' lines)

theorem flatten_fgetsLines (file : CString) : (fgetsLines file).flatten = file :=
  BoundedLines.flatten_reads '\n' (maxLine - 1) [] file

theorem copies_iff (as : Settings) (file : CString) :
    inputOf (addInstrumentation as file) = file ↔ nul ∉ file := by
  rw [addInstrumentation_copies]
  constructor
  · intro copies isNul
    rw [← copies] at isNul
    obtain ⟨line, _, inLine⟩ := List.mem_flatMap.mp isNul
    exact nul_not_mem_textOf line inLine
  · intro clean
    rw [(flatMap_textOf_eq ((flatten_fgetsLines file).symm ▸ clean)).1,
      flatten_fgetsLines]

end Texts

section File

variable (as : Settings) (file : CString)

theorem keepsLines_of_onlyInserts
    (only : as.OnlyInserts file (addInstrumentation as file)) :
    as.KeepsLines file := by
  have clean := (copies_iff as file).mp only.copies
  intro earlier line later isLines
  have whole : nul ∉ (earlier ++ line :: later).flatten := by
    rw [← isLines, flatten_fgetsLines]
    exact clean
  rw [List.flatten_append, List.flatten_cons, List.mem_append, List.mem_append,
    not_or, not_or] at whole
  obtain ⟨cleanEarlier, cleanLine, cleanLater⟩ := whole
  have nonempty : ∀ read ∈ fgetsLines file, read ≠ [] := fun read member =>
    BoundedLines.ne_nil_of_mem_reads '\n' (maxLine - 1) member
  have isSome : line ≠ [] := nonempty line (isLines ▸ by simp)
  constructor
  · intro dumps
    obtain ⟨before, id, after, output, isBefore, isAfter⟩ := exists_dump isLines dumps
    rw [(flatMap_textOf_eq cleanEarlier).1] at isBefore
    rw [textOf_eq cleanLine] at isAfter
    rcases only.between before id after output with none | ends | none
    · exact .inl (isBefore ▸ none)
    · exact .inr (isBefore ▸ ends)
    · rw [isAfter] at none
      exact absurd (List.append_eq_nil_iff.mp none).1 isSome
  · intro jumps
    obtain ⟨before, id, after, output, isBefore, isAfter⟩ := exists_jump isLines jumps
    rw [(flatMap_textOf_eq cleanEarlier).1, textOf_eq cleanLine] at isBefore
    rw [(flatMap_textOf_eq cleanLater).1] at isAfter
    rcases only.between before id after output with none | ends | none
    · rw [isBefore] at none
      exact absurd (List.append_eq_nil_iff.mp none).2 isSome
    · rw [isBefore, List.getLast?_append_of_ne_nil _ isSome] at ends
      exact .inl ends
    · rw [isAfter] at none
      refine .inr ?_
      cases later with
      | nil => rfl
      | cons next later =>
          rw [List.flatten_cons] at none
          exact absurd (List.append_eq_nil_iff.mp none).1
            (nonempty next (isLines ▸ by simp))

theorem onlyInserts_of_keepsLines (clean : nul ∉ file)
    (keeps : as.KeepsLines file) :
    as.OnlyInserts file (addInstrumentation as file) := by
  have place : ∀ before id after, addInstrumentation as file =
      before ++ .trampoline id :: after →
        BetweenLines (inputOf before) (inputOf after) ∧
          as.InCode (linesOf before) := by
    intro before id after split
    obtain ⟨earlier, line, later, isLines, position⟩ := exists_line_of_trampoline split
    have whole : nul ∉ (earlier ++ line :: later).flatten := by
      rw [← isLines, flatten_fgetsLines]
      exact clean
    have cleanBefore : nul ∉ (earlier ++ [line]).flatten := by
      intro member
      apply whole
      rw [← List.singleton_append, ← List.append_assoc, List.flatten_append]
      exact List.mem_append_left _ member
    have cleanEarlier : nul ∉ earlier.flatten := by
      intro member
      apply whole
      rw [List.flatten_append]
      exact List.mem_append_left _ member
    obtain ⟨beforeDump, behindJump⟩ := keeps earlier line later isLines
    rcases position with
      ⟨dumps, isBefore, areLines⟩ | ⟨jumps, isBefore, areLines, isAfter⟩
    · rw [(flatMap_textOf_eq cleanEarlier).1] at isBefore
      rw [(flatMap_textOf_eq cleanEarlier).2] at areLines
      rw [isBefore, areLines]
      refine ⟨?_, inCode_of_dumpsNow dumps⟩
      rcases beforeDump dumps with none | ends
      · exact .inl none
      · exact .inr (.inl ends)
    · rw [(flatMap_textOf_eq cleanBefore).1] at isBefore
      rw [(flatMap_textOf_eq cleanBefore).2] at areLines
      rw [isBefore, areLines]
      refine ⟨?_, inCode_of_jumpsNow jumps⟩
      rcases behindJump jumps with ends | none
      · refine .inr (.inl ?_)
        rw [List.flatten_append, List.flatten_singleton, List.getLast?_append, ends]
        rfl
      · rw [isAfter, none]
        exact .inr (.inr rfl)
  exact ⟨(copies_iff as file).mpr clean,
    fun before after split => mainPayload_last split,
    fun before id after split => (place before id after split).1,
    fun before id after split => (place before id after split).2⟩

theorem keepsLines_of_short
    (short : ∀ line ∈ fileLines file, line.length < maxLine) :
    fgetsLines file = fileLines file ∧ as.KeepsLines file := by
  have isLines : fgetsLines file = fileLines file := by
    apply BoundedLines.reads_eq_lines
    exact fun line member => Nat.le_sub_one_of_lt (short line member)
  refine ⟨isLines, ?_⟩
  intro earlier line later split
  rw [isLines] at split
  constructor
  · intro _
    rcases List.eq_nil_or_concat earlier with rfl | ⟨first, last, rfl⟩
    · exact .inl rfl
    · refine .inr ?_
      rw [List.concat_eq_append, List.append_assoc] at split
      have ends : last.getLast? = some '\n' := BoundedLines.ends_of_lines '\n' split
      rw [List.concat_eq_append, List.flatten_append, List.flatten_singleton, List.getLast?_append,
        ends]
      rfl
  · intro _
    cases later with
    | nil => exact .inr rfl
    | cons next later => exact .inl (BoundedLines.ends_of_lines '\n' split)

/-- For every file and every outcome of the draws: the output only has
trampolines and the payload inserted, the trampolines between lines and in code
that is to be instrumented, just if the file has no NUL and no trampoline is
written for a piece inside of a line.  The pieces are the lines of the file if
these fit into the buffer. -/
theorem addInstrumentation_onlyInserts_iff :
    (as.OnlyInserts file (addInstrumentation as file) ↔
        nul ∉ file ∧ as.KeepsLines file) ∧
      ((∀ line ∈ fileLines file, line.length < maxLine) →
        fgetsLines file = fileLines file ∧ as.KeepsLines file) := by
  refine ⟨⟨fun only => ?_, fun ⟨clean, keeps⟩ => ?_⟩, keepsLines_of_short as file⟩
  · exact ⟨(copies_iff as file).mp only.copies, keepsLines_of_onlyInserts as file only⟩
  · exact onlyInserts_of_keepsLines as file clean keeps

end File

def alwaysInstrument : Settings := ⟨true, false, false, 100, false, fun _ => 0⟩

theorem contains_eq_false {line : CString} {text : String} (char : Char)
    (inText : char ∈ text.toList) (notInLine : char ∉ line) :
    contains line text = false := by
  apply decide_eq_false
  intro isInfix
  exact notInLine
    ((List.takeWhile_prefix _).subset (isInfix.subset inText))

section Blanks

variable {as : Settings} {blanks : CString} (state : LineState)
  (only : ∀ char ∈ blanks, char = ' ') (long : 2 ≤ blanks.length)
include only long

theorem addLine_blanks : (as.addLine state blanks).1 = state := by
  obtain ⟨rest, rfl⟩ : ∃ rest, blanks = ' ' :: ' ' :: rest := by
    match blanks, long with
    | first :: second :: rest, _ =>
        exact ⟨rest, by rw [only first (by simp), only second (by simp)]⟩
  have none : ∀ text : String, '.' ∈ text.toList →
      contains (' ' :: ' ' :: rest) text = false := by
    intro text dot
    apply contains_eq_false '.' dot
    exact fun member => absurd (only '.' member) (by decide)
  have width := none ".code" (by decide)
  have intel := none ".intel_syntax" (by decide)
  have att := none ".att_syntax" (by decide)
  have dumped : as.dumpDeferred state (' ' :: ' ' :: rest) = (state, []) := by
    simp [Settings.dumpDeferred, Settings.dumpsNow, charAt]
  have instrumented : (as.instrument state (' ' :: ' ' :: rest)).1 = state := by
    simp [Settings.instrument, Settings.track, Settings.trackSection,
      Settings.trackWidth, trackSyntax, trackApp, charAt, width, intel, att]
  unfold Settings.addLine
  rw [dumped]
  split
  · rfl
  · exact instrumented

theorem dumpsNow_behind_blanks :
    alwaysInstrument.dumpsNow (alwaysInstrument.stateAfter
        (["\t.text\n".toList, "main:\n".toList] ++ [blanks]))
      "\tret\n".toList = true := by
  have waits : alwaysInstrument.stateAfter
      (["\t.text\n".toList, "main:\n".toList] ++ [blanks]) =
      alwaysInstrument.stateAfter
        ["\t.text\n".toList, "main:\n".toList] := by
    unfold Settings.stateAfter
    rw [Transducer.run_append]
    exact addLine_blanks _ only long
  rw [waits]
  decide

theorem getLast?_behind_blanks (lines : List CString) :
    (lines ++ [blanks]).flatten.getLast? = some ' ' := by
  have some : blanks ≠ [] := by
    rintro rfl
    exact absurd long (by decide)
  rw [List.flatten_append, List.flatten_singleton,
    List.getLast?_append_of_ne_nil _ some, List.getLast?_eq_getLast_of_ne_nil some,
    only _ (List.getLast_mem some)]

end Blanks

/-- A label, and an instruction behind many blanks in its line. -/
def blanksBeforeRet : CString :=
  "\t.text\n".toList ++ ("main:\n".toList ++
    (List.replicate (maxLine - 1) ' ' ++ "\tret\n".toList))

theorem fgetsLines_blanksBeforeRet :
    fgetsLines blanksBeforeRet =
      (["\t.text\n".toList, "main:\n".toList] ++
        [List.replicate (maxLine - 1) ' ']) ++ ["\tret\n".toList] := by
  have text := @BoundedLines.reads_line Char _ '\n' (maxLine - 1) []
    "\t.text".toList ("main:\n".toList ++
      (List.replicate (maxLine - 1) ' ' ++ "\tret\n".toList)) (by decide)
      (by decide)
  have label := @BoundedLines.reads_line Char _ '\n' (maxLine - 1) []
    "main:".toList (List.replicate (maxLine - 1) ' ' ++ "\tret\n".toList)
      (by decide) (by decide)
  have noNewline : '\n' ∉ List.replicate (maxLine - 1) ' ' :=
    fun member => absurd (List.eq_of_mem_replicate member) (by decide)
  have length : (List.replicate (maxLine - 1) ' ').length = maxLine - 1 :=
    List.length_replicate
  have some : List.replicate (maxLine - 1) ' ' ≠ [] := by
    apply List.ne_nil_of_length_pos
    rw [length]
    decide
  have blanks := @BoundedLines.reads_full Char _ '\n' (maxLine - 1) []
    (List.replicate (maxLine - 1) ' ') "\tret\n".toList noNewline some
      (by rw [length, List.length_nil, Nat.zero_add])
  have last := @BoundedLines.reads_line Char _ '\n' (maxLine - 1) []
    "\tret".toList [] (by decide) (by decide)
  unfold fgetsLines blanksBeforeRet
  refine text.trans (congrArg _ (label.trans (congrArg _
    (blanks.trans (congrArg _ (last.trans ?_))))))
  rfl

/-- A NUL and what follows it in its line is lost, and a trampoline is written
into a line that is longer than the buffer. -/
theorem addInstrumentation_loses :
    ¬alwaysInstrument.OnlyInserts [nul]
        (addInstrumentation alwaysInstrument [nul]) ∧
      ¬alwaysInstrument.OnlyInserts blanksBeforeRet
        (addInstrumentation alwaysInstrument blanksBeforeRet) := by
  constructor
  · intro only
    exact (copies_iff _ _).mp only.copies List.mem_cons_self
  · intro only
    have keeps := (keepsLines_of_onlyInserts _ _ only _ _ _
      fgetsLines_blanksBeforeRet).1
    have areBlanks : ∀ char ∈ List.replicate (maxLine - 1) ' ', char = ' ' :=
      fun char => List.eq_of_mem_replicate
    have long : 2 ≤ (List.replicate (maxLine - 1) ' ').length := by
      rw [List.length_replicate]
      decide
    have last := getLast?_behind_blanks areBlanks long
      ["\t.text\n".toList, "main:\n".toList]
    rcases keeps (dumpsNow_behind_blanks areBlanks long) with none | ends
    · rw [none] at last
      cases last
    · rw [ends] at last
      exact absurd (Option.some.inj last) (by decide)

end AFLPlusPlus.Assembler
