import AFLPlusPlus.Havoc.Mutations

/-!
# Havoc and splicing

A round of the havoc stage stacks some mutations, executes the result and copies
the test case back.  Splicing puts the test case together with another one and
starts the stage again.
-/

namespace AFLPlusPlus

open EarlyExit

def spliceCycles : Nat := 15

namespace HavocSetting

variable (afl : HavocSetting)

def executed (buffer : List (BitVec 8)) (state : HavocState) : HavocState :=
  if (afl.outcome state.execs buffer).queued then
    { state with
      execs := state.execs + 1
      queue := state.queue ++ [buffer]
      readyForSplicingCount :=
        state.readyForSplicingCount + if 4 < buffer.length then 1 else 0 }
  else { state with execs := state.execs + 1 }

def execute (buffer : List (BitVec 8)) : Havoc Unit :=
  OptionT.mk fun state =>
    (if (afl.outcome state.execs buffer).abandons then none else some (),
      afl.executed buffer state)

/-- `common_fuzz_stuff`, by which the buffer may become an entry of the
queue. -/
def commonFuzzStuff : Havoc Unit := do
  let state ← get
  let buffer ← Havoc.readOut 0 state.tempLen
  afl.execute buffer

def havocStep (rMax : Nat) : Havoc Unit := do
  afl.customHavoc afl.stackedCustoms
  let r ← afl.randBelow rMax
  afl.mutate r
  let state ← get
  Havoc.record (.step state.tempLen)

/-- `out_buf` gets its original size and shape. -/
def restore : Havoc Unit := do
  let state ← get
  Havoc.reallocOut state.inBuf.length
  Havoc.setTempLen state.inBuf.length
  Havoc.writeOut 0 state.inBuf
  let state ← get
  Havoc.record (.restored
    (state.outBuf.bytes.loadBytes 0 state.inBuf.length) state.inBuf)

def havocRound (rMax : Nat) : Havoc Unit := do
  let power ← afl.randBelow afl.havocStackPow2
  let useStacking := 1 <<< (1 + power)
  let _ ← forFrom (fun _ (_ : Unit) => do
    afl.havocStep rMax
    pure (.yield ())) 0 useStacking ()
  afl.commonFuzzStuff
  restore

/-- The rounds, which become more if something is found. The first argument is
the number of rounds after which the model stops to look. -/
def havocRounds (rMax : Nat) : Nat → Nat → Nat → Nat → Nat → Havoc Unit
  | 0, _, _, _, _ => pure ()
  | rounds + 1, stageCur, stageMax, perfScore, havocQueued =>
      onlyIf (stageCur < stageMax) do
        afl.havocRound rMax
        let state ← get
        let queuedPaths := state.queue.length
        if queuedPaths ≠ havocQueued ∧ perfScore ≤ afl.havocMaxMult * 100 then
          havocRounds rMax rounds (stageCur + 1) (stageMax * 2) (perfScore * 2)
            queuedPaths
        else
          havocRounds rMax rounds (stageCur + 1) stageMax perfScore queuedPaths

def rMax (state : HavocState) : Nat :=
  (maxHavocEntry + 1) + (if afl.extras ≠ [] then 4 else 0) +
    (if afl.aExtras ≠ [] then 4 else 0) +
    (if afl.expandHavoc state.execs ∧ 1 < state.readyForSplicingCount then 4
      else 0) +
    if afl.nothingFoundFor5s state.execs ∧ 1 < state.readyForSplicingCount then
      4
    else 0

/-- The havoc stage, for a number of cycles and a performance score. -/
def havocStage (rounds stageMax perfScore : Nat) : Havoc Unit := do
  let state ← get
  Havoc.setTempLen state.inBuf.length
  afl.havocRounds (afl.rMax state) rounds 0 stageMax perfScore
    state.queue.length

/-- `locate_diffs`, without the offsets if there is no difference. -/
def locateDiffs (one other : List (BitVec 8)) (len : Nat) : Option (Nat × Nat) :=
  forRange (fun pos found =>
    if one[pos]? ≠ other[pos]? then
      some ((found.map Prod.fst).getD pos, pos)
    else found) len none

/-- The two test cases are put together at a split point. -/
def spliceAt (newBuf : List (BitVec 8)) (splitAt : Nat) : Havoc Unit := do
  let state ← get
  Havoc.record (.split splitAt state.inBuf.length newBuf.length)
  Havoc.reallocInScratch newBuf.length
  let head ← Havoc.part state.inBuf 0 splitAt
  Havoc.writeInScratch 0 head
  let tail ← Havoc.part newBuf 0 (minus newBuf.length splitAt)
  Havoc.writeInScratch splitAt tail
  Havoc.takeInScratch newBuf.length
  Havoc.reallocOut newBuf.length
  let state ← get
  Havoc.writeOut 0 state.inBuf

/-- From `retry_splicing` on, with the number of cycles that are left. -/
def retrySplicing (rounds stageMax perfScore : Nat) : Nat → Havoc Unit
  | 0 => pure ()
  | left + 1 => do
      let state ← get
      onlyIf (afl.useSplicing = true ∧ 1 < state.readyForSplicingCount ∧
          4 ≤ afl.origIn.length) do
        Havoc.setInBuf afl.origIn
        let newBuf ← afl.pickPartner
        match locateDiffs afl.origIn newBuf
          (min afl.origIn.length newBuf.length) with
        | none => retrySplicing rounds stageMax perfScore left
        | some (fDiff, lDiff) =>
            if lDiff < 2 ∨ fDiff = lDiff then
              retrySplicing rounds stageMax perfScore left
            else
              let drawn ← afl.randBelow (minus lDiff fDiff)
              spliceAt newBuf (fDiff + drawn)
              afl.havocStage rounds stageMax perfScore
              retrySplicing rounds stageMax perfScore left

def havocAndSplicing (rounds stageMax spliceMax perfScore : Nat) : Havoc Unit := do
  afl.havocStage rounds stageMax perfScore
  afl.retrySplicing rounds spliceMax perfScore spliceCycles

end HavocSetting

end AFLPlusPlus
