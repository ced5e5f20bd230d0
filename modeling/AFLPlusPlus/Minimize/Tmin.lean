import AFLPlusPlus.Coverage.Classify
import AFLPlusPlus.Queue.DryRun
import AFLPlusPlus.Support.Reduction

/-!
# The test case minimizer

`minimize` of `afl-tmin` tries changes of `in_data`: it blanks blocks, removes
blocks of falling size, and blanks symbols and then single bytes, in passes
until one of them changes nothing.  A candidate is built in `tmp_buf`, and
`tmin_run_target` says whether it is kept.
-/

namespace AFLPlusPlus

def tminMaxFile : Nat := 10 * 1024 * 1024

def tminSetMinSize : Nat := 4

def tminSetSteps : Nat := 128

/-- The byte `'0'` that takes the place of the others. -/
def zeroDigit : BitVec 8 := 48#8

/-- The options that the runs of the target look at. -/
structure TminSettings where
  hangMode : Bool
  exactMode : Bool
  edgesOnly : Bool
  maskBitmap : Option Buffer
  mapSize : Nat
  hash64 : Buffer → Nat → BitVec 64

/-- What a run of the target leaves. -/
structure TminRun where
  ret : RunResult
  stopSoon : Bool
  traceBits : Buffer

/-- The variables of the minimizer.  `runs` records what `minimize` has tried;
the program does not look at it. -/
structure Tmin where
  inData : List (BitVec 8)
  inLen : Nat
  tmpBuf : List (BitVec 8)
  crashMode : Bool
  origCksum : BitVec 64
  missedHangs : Nat
  missedCrashes : Nat
  missedPaths : Nat
  runs : Reduction.History (BitVec 8)

/-- How the program ends early.  A stop by the user writes the input of that
moment to the output file. -/
inductive TminExit where
  | outOfBounds
  | couldntRun
  | notInstrumented
  | aborted (tmin : Tmin)

abbrev TminTarget := Reduction.History (BitVec 8) → List (BitVec 8) → TminRun

/-- An access of memory ends the run when it leaves its buffer. -/
def inBounds {α : Type} : Option α → Except TminExit α
  | some value => .ok value
  | none => .error .outOfBounds

namespace TminSettings

variable (settings : TminSettings)

def classifyCounts (trace : Buffer) : Buffer := fun address =>
  if address < settings.mapSize then
    if settings.edgesOnly then
      if trace address ≠ 0#8 then 1#8 else trace address
    else countClassLookup8 (trace address)
  else trace address

/-- `apply_mask`, on the whole 32-bit words of the map. -/
def applyMask (trace : Buffer) : Buffer :=
  match settings.maskBitmap with
  | none => trace
  | some mask => fun address =>
      if address < 4 * (settings.mapSize >>> 2) then
        trace address &&& ~~~mask address
      else trace address

end TminSettings

variable {tmin : Tmin} {out : Tmin × Bool}

namespace Tmin

def data (tmin : Tmin) : List (BitVec 8) := tmin.inData.take tmin.inLen

/-- Return an answer, and record it. -/
def answer (tmin : Tmin) (mem : List (BitVec 8)) (res : Bool) : Tmin × Bool :=
  ({ tmin with runs := (mem, res) :: tmin.runs }, res)

variable (settings : TminSettings) (target : TminTarget)

/-- The end of `tmin_run_target`: the trace is compared. -/
def compareTrace (tmin : Tmin) (mem : List (BitVec 8)) (run : TminRun)
    (firstRun : Bool) : Except TminExit (Tmin × Bool) :=
  if run.ret = .noinst then .error .notInstrumented
  else
    let traceBits := settings.applyMask (settings.classifyCounts run.traceBits)
    let cksum := settings.hash64 traceBits settings.mapSize
    let tmin := if firstRun then { tmin with origCksum := cksum } else tmin
    if tmin.origCksum = cksum then .ok (tmin.answer mem true)
    else
      .ok ({ tmin with missedPaths := tmin.missedPaths + 1 }.answer mem false)

def tminRunTarget (tmin : Tmin) (mem : List (BitVec 8)) (firstRun : Bool) :
    Except TminExit (Tmin × Bool) :=
  let run := target tmin.runs mem
  if run.ret = .error then .error .couldntRun
  else if run.stopSoon then .error (.aborted tmin)
  else if settings.hangMode then
    match run.ret with
    | .tmout => .ok (tmin.answer mem true)
    | .crash =>
        .ok ({ tmin with missedCrashes := tmin.missedCrashes + 1 }.answer mem false)
    | _ =>
        .ok ({ tmin with missedHangs := tmin.missedHangs + 1 }.answer mem false)
  else if run.ret = .tmout then
    .ok ({ tmin with missedHangs := tmin.missedHangs + 1 }.answer mem false)
  else if run.ret = .crash then
    let tmin := if firstRun then { tmin with crashMode := true } else tmin
    if tmin.crashMode then
      if settings.exactMode then
        tmin.compareTrace settings mem run firstRun
      else .ok (tmin.answer mem true)
    else
      .ok ({ tmin with missedCrashes := tmin.missedCrashes + 1 }.answer mem false)
  else if tmin.crashMode then
    .ok ({ tmin with missedPaths := tmin.missedPaths + 1 }.answer mem false)
  else tmin.compareTrace settings mem run firstRun

/-- Run the target on the first bytes of `tmp_buf`. -/
def runTmpBuf (tmin : Tmin) (len : Nat) : Except TminExit (Tmin × Bool) := do
  let mem ← inBounds (Region.read tmin.tmpBuf 0 len)
  tmin.tminRunTarget settings target mem false

/-- One block of the normalization: it is skipped when it is blank already. -/
def normalizeBlock (setLen setPos : Nat) (tmin : Tmin) : Except TminExit Tmin := do
  let useLen := min setLen (tmin.inLen - setPos)
  let block ← inBounds (Region.read tmin.inData setPos useLen)
  if block.all (· = zeroDigit) then
    return tmin
  else
    let copied ← inBounds
      (Region.memcpy tmin.tmpBuf 0 tmin.inData 0 tmin.inLen)
    let tmpBuf ← inBounds (Region.memset copied setPos zeroDigit useLen)
    let (tmin, res) ←
      { tmin with tmpBuf }.runTmpBuf settings target tmin.inLen
    if res then
      let inData ← inBounds
        (Region.memset tmin.inData setPos zeroDigit useLen)
      return { tmin with inData }
    else
      return tmin

/-- `set_len` -/
def normalizeLen (inLen : Nat) : Nat :=
  max (nextPow2 (BitVec.ofNat 64 (inLen / tminSetSteps))).toNat tminSetMinSize

/-- The loop over the blocks; none of its rounds changes `in_len`. -/
def normalize (tmin : Tmin) : Except TminExit Tmin :=
  let setLen := normalizeLen tmin.inLen
  forRangeM (fun index => normalizeBlock settings target setLen (setLen * index))
    ((tmin.inLen + setLen - 1) / setLen) tmin

/-- The variables of the deletion loop. -/
structure Deleting where
  tmin : Tmin
  delPos : Nat
  prevDel : Bool
  changedAny : Bool

/-- `tail_len`; an `s32` holds the difference of lengths below
`TMIN_MAX_FILE`. -/
def tailLen (inLen delPos delLen : Nat) : Nat :=
  ((inLen : Int) - delPos - delLen).toNat

/-- Whether the block is skipped: the one before it is the same and has just
been refused. -/
def sameAsPrevious (delLen : Nat) (deleting : Deleting) : Except TminExit Bool := do
  let tmin := deleting.tmin
  if !deleting.prevDel && tailLen tmin.inLen deleting.delPos delLen ≠ 0 then
    if deleting.delPos < delLen then
      .error .outOfBounds
    else
      let previous ← inBounds
        (Region.read tmin.inData (deleting.delPos - delLen) delLen)
      let block ← inBounds (Region.read tmin.inData deleting.delPos delLen)
      return previous == block
  else
    return false

/-- Try the input without a block. -/
def deleteBlock (delLen : Nat) (deleting : Deleting) : Except TminExit Deleting := do
  let tmin := deleting.tmin
  let delPos := deleting.delPos
  let tail := tailLen tmin.inLen delPos delLen
  let head ← inBounds (Region.memcpy tmin.tmpBuf 0 tmin.inData 0 delPos)
  let tmpBuf ← inBounds
    (Region.memcpy head delPos tmin.inData (delPos + delLen) tail)
  let (tmin, res) ←
    { tmin with tmpBuf }.runTmpBuf settings target (delPos + tail)
  if res then
    let inData ← inBounds
      (Region.memcpy tmin.inData 0 tmin.tmpBuf 0 (delPos + tail))
    return {
      tmin := { tmin with inData, inLen := delPos + tail }
      delPos
      prevDel := true
      changedAny := true }
  else
    return { deleting with tmin, delPos := delPos + delLen, prevDel := false }

/-- The body of the deletion loop. -/
def deleteRound (delLen : Nat) (deleting : Deleting) : Except TminExit Deleting := do
  if ← sameAsPrevious delLen deleting then
    return { deleting with delPos := deleting.delPos + delLen }
  else
    deleteBlock settings target delLen deleting

section Runs

variable {settings target}

/-- A later run changes the counters and the record only. -/
structure Ran (tmin : Tmin) (mem : List (BitVec 8)) (out : Tmin × Bool) : Prop where
  inData : out.1.inData = tmin.inData
  inLen : out.1.inLen = tmin.inLen
  tmpBuf : out.1.tmpBuf = tmin.tmpBuf
  crashMode : out.1.crashMode = tmin.crashMode
  origCksum : out.1.origCksum = tmin.origCksum
  runs : out.1.runs = (mem, out.2) :: tmin.runs

theorem compareTrace_ran {mem : List (BitVec 8)} {run : TminRun}
    (compared : tmin.compareTrace settings mem run false = .ok out) :
    Ran tmin mem out := by
  unfold compareTrace at compared
  split at compared
  · cases compared
  · dsimp only at compared
    rw [if_neg Bool.false_ne_true] at compared
    split at compared
    all_goals
      cases compared
      exact ⟨rfl, rfl, rfl, rfl, rfl, rfl⟩

theorem tminRunTarget_ran {mem : List (BitVec 8)}
    (ran : tmin.tminRunTarget settings target mem false = .ok out) :
    Ran tmin mem out := by
  unfold tminRunTarget at ran
  dsimp only at ran
  rw [if_neg Bool.false_ne_true] at ran
  repeat' split at ran
  all_goals
    first
    | exact compareTrace_ran ran
    | cases ran
  all_goals exact ⟨rfl, rfl, rfl, rfl, rfl, rfl⟩

theorem runTmpBuf_inLen {len : Nat} (ran : tmin.runTmpBuf settings target len = .ok out) :
    out.1.inLen = tmin.inLen := by
  unfold runTmpBuf at ran
  obtain ⟨mem, _, ran⟩ := bind_returns ran
  exact (tminRunTarget_ran ran).inLen

/-- A round of the deletion loop removes a block or goes past it. -/
theorem deleteRound_decreases {delLen : Nat} (positive : 0 < delLen)
    {deleting next : Deleting}
    (inside : deleting.delPos < deleting.tmin.inLen)
    (round : deleteRound settings target delLen deleting = .ok next) :
    next.tmin.inLen - next.delPos < deleting.tmin.inLen - deleting.delPos := by
  unfold deleteRound at round
  obtain ⟨same, _, round⟩ := bind_returns round
  split at round
  · cases round
    dsimp only
    omega
  · unfold deleteBlock at round
    obtain ⟨head, _, round⟩ := bind_returns round
    obtain ⟨tmpBuf, _, round⟩ := bind_returns round
    obtain ⟨⟨after, res⟩, ran, round⟩ := bind_returns round
    have length : after.inLen = deleting.tmin.inLen := runTmpBuf_inLen ran
    dsimp only at round
    split at round
    · obtain ⟨inData, _, round⟩ := bind_returns round
      cases round
      dsimp only [tailLen]
      omega
    · cases round
      dsimp only
      omega

end Runs

/-- The deletion loop at one block size. -/
def deleteLoop {delLen : Nat} (positive : 0 < delLen) (deleting : Deleting) :
    Except TminExit Deleting :=
  if inside : deleting.delPos < deleting.tmin.inLen then
    match round : deleteRound settings target delLen deleting with
    | .error exit => .error exit
    | .ok next =>
        have := deleteRound_decreases positive inside round
        deleteLoop positive next
  else .ok deleting
termination_by deleting.tmin.inLen - deleting.delPos

/-- The loop over the block sizes, each of them half of the one before. -/
def deleteBlockSizes (delLen : Nat) (tmin : Tmin) (changedAny : Bool) :
    Except TminExit (Tmin × Bool) :=
  match deleteLoop settings target
      (Nat.lt_of_lt_of_le Nat.one_pos (Nat.le_max_right delLen 1))
      { tmin, delPos := 0, prevDel := true, changedAny } with
  | .error exit => .error exit
  | .ok deleting =>
      if further : 1 < max delLen 1 ∧ 1 ≤ deleting.tmin.inLen then
        deleteBlockSizes (max delLen 1 / 2) deleting.tmin deleting.changedAny
      else .ok (deleting.tmin, deleting.changedAny)
termination_by delLen
decreasing_by omega

/-- Block deletion, with the first block size and `changed_any` of the pass. -/
def deleteBlocks (tmin : Tmin) : Except TminExit (Tmin × Bool) :=
  deleteBlockSizes settings target
    (nextPow2 (BitVec.ofNat 64 (tmin.inLen / trimStartSteps))).toNat tmin false

def alphaMap (tmin : Tmin) : Except TminExit (BitVec 8 → Nat) := do
  let bytes ← inBounds (Region.read tmin.inData 0 tmin.inLen)
  return fun symbol => bytes.count symbol

/-- Try the input with every occurrence of a symbol blanked. -/
def replaceSymbol (alphaMap : BitVec 8 → Nat) (i : Nat)
    (state : Tmin × Bool) : Except TminExit (Tmin × Bool) := do
  let (tmin, changedAny) := state
  let symbol := BitVec.ofNat 8 i
  if symbol = zeroDigit ∨ alphaMap symbol = 0 then
    return state
  else
    let copied ← inBounds
      (Region.memcpy tmin.tmpBuf 0 tmin.inData 0 tmin.inLen)
    let bytes ← inBounds (Region.read copied 0 tmin.inLen)
    let tmpBuf ← inBounds (Region.write copied 0
      (bytes.map fun byte => if byte = symbol then zeroDigit else byte))
    let (tmin, res) ←
      { tmin with tmpBuf }.runTmpBuf settings target tmin.inLen
    if res then
      let inData ← inBounds
        (Region.memcpy tmin.inData 0 tmin.tmpBuf 0 tmin.inLen)
      return ({ tmin with inData }, true)
    else
      return (tmin, changedAny)

def minimizeAlphabet (state : Tmin × Bool) : Except TminExit (Tmin × Bool) := do
  let alphaMap ← state.1.alphaMap
  forRangeM (replaceSymbol settings target alphaMap) 256 state

/-- Try the input with one byte blanked; `tmp_buf` stays a copy of the input. -/
def replaceCharacter (i : Nat) (state : Tmin × Bool) :
    Except TminExit (Tmin × Bool) := do
  let (tmin, changedAny) := state
  let orig ← inBounds tmin.tmpBuf[i]?
  if orig = zeroDigit then
    return state
  else
    let tmpBuf ← inBounds (Region.write tmin.tmpBuf i [zeroDigit])
    let (tmin, res) ←
      { tmin with tmpBuf }.runTmpBuf settings target tmin.inLen
    if res then
      let inData ← inBounds (Region.write tmin.inData i [zeroDigit])
      return ({ tmin with inData }, true)
    else
      let tmpBuf ← inBounds (Region.write tmin.tmpBuf i [orig])
      return ({ tmin with tmpBuf }, changedAny)

def minimizeCharacters (state : Tmin × Bool) : Except TminExit (Tmin × Bool) := do
  let (tmin, changedAny) := state
  let tmpBuf ← inBounds
    (Region.memcpy tmin.tmpBuf 0 tmin.inData 0 tmin.inLen)
  forRangeM (replaceCharacter settings target) tmin.inLen
    ({ tmin with tmpBuf }, changedAny)

/-- A pass with its number, and whether another one follows. -/
def pass (curPass : Nat) (tmin : Tmin) : Except TminExit (Tmin × Bool) := do
  let (tmin, changedAny) ← tmin.deleteBlocks settings target
  if curPass > 1 && !changedAny then
    return (tmin, false)
  else
    let state ← minimizeAlphabet settings target (tmin, changedAny)
    minimizeCharacters settings target state

end Tmin

end AFLPlusPlus
