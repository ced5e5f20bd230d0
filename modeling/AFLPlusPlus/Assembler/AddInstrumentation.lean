import AFLPlusPlus.Queue.StatsFile
import AFLPlusPlus.Support.BoundedLines
import AFLPlusPlus.Support.CStrings
import AFLPlusPlus.Support.Transducers

/-!
# Instrumenting an assembly file

`add_instrumentation` of `afl-as` copies an assembly file and writes trampolines
between its lines: behind the conditional jumps, and before the first instruction
that follows a label.  Some directives turn it off and on again.
-/

namespace AFLPlusPlus.Assembler

/-- What `afl-as` knows before it reads the file: the static variables, whether
it was built for macOS, and what `random` returns call by call. -/
structure Settings where
  use64bit : Bool
  clangMode : Bool
  passThru : Bool
  instRatio : Nat
  apple : Bool
  random : Nat → Nat

/-- The local variables.  `insLines` is counted modulo 2 to the power of 32, and
`drawn` is the number of calls of `random`. -/
structure LineState where
  instrOk : Bool
  skipCsect : Bool
  skipNextLabel : Bool
  skipIntel : Bool
  skipApp : Bool
  instrumentNext : Bool
  insLines : BitVec 32
  drawn : Nat

def LineState.initial : LineState := ⟨false, false, false, false, false, false, 0, 0⟩

/-- What is written to the output. -/
inductive Piece where
  | line (text : CString)
  | trampoline (id : Nat)
  | mainPayload
  deriving DecidableEq

/-- `line[i]`, where the text is followed by its terminator. -/
def charAt (line : CString) (i : Nat) : Char := line.getD i nul

/-- `!strncmp(line + pos, text, strlen(text))` -/
def startsAt (line : CString) (pos : Nat) (text : String) : Bool :=
  text.toList.isPrefixOf (line.drop pos)

def textOf (line : CString) : CString := line.takeWhile (· ≠ nul)

/-- `strstr` -/
def contains (line : CString) (text : String) : Bool :=
  decide (text.toList <:+: textOf line)

namespace Settings

variable (as : Settings)

/-- `R(x)`, the call of `random` after `drawn` others. -/
def r (drawn x : Nat) : Nat := as.random drawn % x

/-- A trampoline with a random id is written. -/
def trampoline (state : LineState) : LineState × List Piece :=
  ({ state with
      insLines := state.insLines + 1
      drawn := state.drawn + 1 },
    [.trampoline (as.r state.drawn defaultMapSize.toNat)])

/-- Whether a trampoline that was put off is written before this line. -/
def dumpsNow (state : LineState) (line : CString) : Bool :=
  !as.passThru && !state.skipIntel && !state.skipApp && !state.skipCsect &&
    state.instrOk && state.instrumentNext && charAt line 0 == '\t' &&
    (charAt line 1).isAlpha

def dumpDeferred (state : LineState) (line : CString) : LineState × List Piece :=
  if as.dumpsNow state line then
    let written := as.trampoline state
    ({ written.1 with instrumentNext := false }, written.2)
  else (state, [])

/-- The directives for sections; `true` means that nothing else is looked for in
the line.  The code of OpenBSD has jump tables between its code, which start with
a certain `p2align`. -/
def trackSection (state : LineState) (line : CString) : LineState × Bool :=
  if charAt line 0 == '\t' && charAt line 1 == '.' then
    let state :=
      if !as.clangMode && state.instrOk && startsAt line 2 "p2align " &&
          (charAt line 10).isDigit && charAt line 11 == '\n' then
        { state with skipNextLabel := true }
      else state
    if startsAt line 2 "text\n" || startsAt line 2 "section\t.text" ||
        startsAt line 2 "section\t__TEXT,__text" ||
        startsAt line 2 "section __TEXT,__text" then
      ({ state with instrOk := true }, true)
    else if startsAt line 2 "section\t" || startsAt line 2 "section " ||
        startsAt line 2 "bss\n" || startsAt line 2 "data\n" then
      ({ state with instrOk := false }, true)
    else (state, false)
  else (state, false)

/-- `.code32` and `.code64` -/
def trackWidth (state : LineState) (line : CString) : LineState :=
  if contains line ".code" then
    let state :=
      if contains line ".code32" then { state with skipCsect := as.use64bit }
      else state
    if contains line ".code64" then { state with skipCsect := !as.use64bit }
    else state
  else state

end Settings

/-- `.intel_syntax` and `.att_syntax` -/
def trackSyntax (state : LineState) (line : CString) : LineState :=
  let state :=
    if contains line ".intel_syntax" then { state with skipIntel := true }
    else state
  if contains line ".att_syntax" then { state with skipIntel := false }
  else state

/-- The marks around the code of `__asm__`. -/
def trackApp (state : LineState) (line : CString) : LineState :=
  if charAt line 0 == '#' || charAt line 1 == '#' then
    let state :=
      if contains line "#APP" then { state with skipApp := true } else state
    if contains line "#NO_APP" then { state with skipApp := false } else state
  else state

namespace Settings

variable (as : Settings)

/-- A label that a jump may lead to: a trampoline is put off, if the draw says
so and the label is not that of a jump table. -/
def jumpLabel (state : LineState) (line : CString) (name : Nat) : LineState :=
  if (charAt line (name + 1)).isDigit ||
      (as.clangMode && startsAt line name "LBB") then
    let drawn := { state with drawn := state.drawn + 1 }
    if as.r state.drawn 100 < as.instRatio then
      if !drawn.skipNextLabel then { drawn with instrumentNext := true }
      else { drawn with skipNextLabel := false }
    else drawn
  else state

/-- Labels of jumps are `L<whatever><digit>:` on macOS and `.L<whatever>:`
elsewhere; other labels are functions. -/
def readLabel (state : LineState) (line : CString) : LineState :=
  if contains line ":" then
    if as.apple then
      let beforeColon := (textOf line).takeWhile (· ≠ ':')
      if charAt line 0 == 'L' && (beforeColon.getLastD nul).isDigit then
        as.jumpLabel state line 0
      else { state with instrumentNext := true }
    else if charAt line 0 == '.' then as.jumpLabel state line 1
    else { state with instrumentNext := true }
  else state

/-- A conditional jump has a trampoline behind it if the draw says so. -/
def readJump (state : LineState) (line : CString) : LineState × List Piece :=
  if charAt line 1 == 'j' && charAt line 2 != 'm' then
    let drawn := { state with drawn := state.drawn + 1 }
    if as.r state.drawn 100 < as.instRatio then as.trampoline drawn
    else (drawn, [])
  else (state, [])

/-- What the directives of a line say, and whether it can be code. -/
def track (state : LineState) (line : CString) : LineState × Bool :=
  match as.trackSection state line with
  | (state, true) => (state, false)
  | (state, false) =>
      let state := trackApp (trackSyntax (as.trackWidth state line) line) line
      (state, !(state.skipIntel || state.skipApp || state.skipCsect ||
        !state.instrOk || charAt line 0 == '#' || charAt line 0 == ' '))

/-- What happens after the line was written. -/
def instrument (state : LineState) (line : CString) : LineState × List Piece :=
  match as.track state line with
  | (state, false) => (state, [])
  | (state, true) =>
      if charAt line 0 == '\t' then as.readJump state line
      else (as.readLabel state line, [])

/-- One round of the loop.  `fputs` writes the line up to a NUL. -/
def addLine (state : LineState) (line : CString) : LineState × List Piece :=
  let dumped := as.dumpDeferred state line
  let copied := dumped.2 ++ [.line (textOf line)]
  if as.passThru then (dumped.1, copied)
  else
    let instrumented := as.instrument dumped.1 line
    (instrumented.1, copied ++ instrumented.2)

end Settings

/-- What `fgets` with a buffer of `MAX_LINE` bytes returns, call by call. -/
def fgetsLines (file : CString) : List CString :=
  BoundedLines.reads '\n' (maxLine - 1) [] file

/-- `add_instrumentation`: the output for the file. -/
def addInstrumentation (as : Settings) (file : CString) : List Piece :=
  let ran := Transducer.run as.addLine .initial (fgetsLines file)
  ran.2 ++ if ran.1.insLines ≠ 0 then [.mainPayload] else []

/-- The bytes that are written, with the texts of the trampolines and of the
payload. -/
def render (trampolineFmt : Nat → CString) (mainPayload : CString)
    (pieces : List Piece) : CString :=
  pieces.flatMap fun piece =>
    match piece with
    | .line text => text
    | .trampoline id => trampolineFmt id
    | .mainPayload => mainPayload

end AFLPlusPlus.Assembler
