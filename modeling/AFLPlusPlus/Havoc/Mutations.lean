import AFLPlusPlus.Havoc.Buffers

/-!
# The mutations of the havoc stage

A step of the stage draws a number and makes the change that stands for it:
bits, bytes and words, blocks that are cloned, inserted, overwritten and
deleted, tokens of the dictionaries, and chunks of other test cases.
-/

namespace AFLPlusPlus

open EarlyExit

def havocBlkSmall : Nat := 32

def havocBlkMedium : Nat := 128

def havocBlkLarge : Nat := 1500

/-- `HAVOC_BLK_XL`, which is not counted down when a bound is compared. -/
@[irreducible] def havocBlkXl : Nat := 32768

def maxHavocEntry : Nat := 59

/-- A stacked custom mutator, with its probability. It makes no more than
`MAX_FILE` bytes. -/
structure StackedCustom where
  prob : Nat
  mutation : Nat → List (BitVec 8) → List (BitVec 8)
  bounded : ∀ time bytes, (mutation time bytes).length ≤ maxFile

/-- What an execution comes to: a new entry of the queue or none, and whether
the entry is abandoned. -/
structure HavocOutcome where
  queued : Bool
  abandons : Bool

/-- The entry that is fuzzed, the dictionaries, the numbers of the random number
generator, and the rest that the stage goes by. What may change from one
execution to the next depends on their number. -/
structure HavocSetting where
  origIn : List (BitVec 8)
  currentEntry : Nat
  extras : List Dictionary.Token
  aExtras : List Dictionary.Token
  stackedCustoms : List StackedCustom
  random : Nat → Nat
  patience : Nat
  havocStackPow2 : Nat
  queueCycle : Nat
  runOver10m : Nat → Bool
  expandHavoc : Nat → Bool
  nothingFoundFor5s : Nat → Bool
  useSplicing : Bool
  havocMaxMult : Nat
  outcome : Nat → List (BitVec 8) → HavocOutcome

namespace HavocSetting

variable (afl : HavocSetting)

def randBelow (limit : Nat) : Havoc Nat := OptionT.mk fun state =>
  if limit ≤ 1 then (some 0, state)
  else
    (some (afl.random state.draws % limit), { state with draws := state.draws + 1 })

/-- The least and the greatest length of a block. -/
def blockLimits : Havoc (Nat × Nat) := do
  let state ← get
  let rlim := if afl.runOver10m state.execs then min afl.queueCycle 3 else 1
  let drawn ← afl.randBelow rlim
  if drawn = 0 then pure (1, havocBlkSmall)
  else if drawn = 1 then pure (havocBlkSmall, havocBlkMedium)
  else
    let likely ← afl.randBelow 10
    if likely ≠ 0 then pure (havocBlkMedium, havocBlkLarge)
    else pure (havocBlkLarge, havocBlkXl)

def chooseBlockLen (limit : Nat) : Havoc Nat := do
  let limits ← afl.blockLimits
  let minValue := if limit ≤ limits.1 then 1 else limits.1
  let above ← afl.randBelow (minus (min limits.2 limit + 1) minValue)
  pure (minValue + above)

def changeWord (width position : Nat)
    (change : BitVec (8 * width) → BitVec (8 * width)) : Havoc Unit := do
  let state ← get
  Havoc.inside (position + width ≤ state.outBuf.room)
  Havoc.writeOut position (Buffer.wordBytes width
    (change (state.outBuf.bytes.loadAt width position)))

def changeSomeWord (width : Nat)
    (change : Havoc (BitVec (8 * width) → BitVec (8 * width))) :
    Havoc Unit := do
  let state ← get
  let position ← afl.randBelow (minus (state.tempLen + 1) width)
  let change ← change
  changeWord width position change

/-- A change that is made only if there is room for a word. -/
def ifRoom (width : Nat) (change : Havoc Unit) : Havoc Unit := do
  let state ← get
  onlyIf (width ≤ state.tempLen) change

def flipSomeBit : Havoc Unit := do
  let state ← get
  let bit ← afl.randBelow (state.tempLen <<< 3)
  changeWord 1 (bit >>> 3) (· ^^^ (128#8 >>> (bit &&& 7)))

def someValue {width : Nat} (values : List (BitVec (8 * width)))
    (order : BitVec (8 * width) → BitVec (8 * width)) :
    Havoc (BitVec (8 * width) → BitVec (8 * width)) := do
  let index ← afl.randBelow values.length
  let value ← Havoc.element values index
  pure fun _ => order value

/-- `1 + rand_below(afl, ARITH_MAX)` -/
def someNumber (width : Nat)
    (change : BitVec (8 * width) → BitVec (8 * width) → BitVec (8 * width)) :
    Havoc (BitVec (8 * width) → BitVec (8 * width)) := do
  let drawn ← afl.randBelow arithMax
  pure fun word => change word (BitVec.ofNat (8 * width) (1 + drawn))

def setInteresting8 : Havoc Unit :=
  afl.changeSomeWord 1 (@someValue afl 1 interesting8 id)

def setInteresting16 : Havoc Unit :=
  ifRoom 2 <| afl.changeSomeWord 2 (@someValue afl 2 interesting16 id)

def setInteresting16Be : Havoc Unit :=
  ifRoom 2 <| afl.changeSomeWord 2 (@someValue afl 2 interesting16 swap16)

def setInteresting32 : Havoc Unit :=
  ifRoom 4 <| afl.changeSomeWord 4 (@someValue afl 4 interesting32 id)

def setInteresting32Be : Havoc Unit :=
  ifRoom 4 <| afl.changeSomeWord 4 (@someValue afl 4 interesting32 swap32)

def subtract8 : Havoc Unit :=
  afl.changeSomeWord 1 (afl.someNumber 1 fun byte num => byte - num)

def add8 : Havoc Unit :=
  afl.changeSomeWord 1 (afl.someNumber 1 fun byte num => byte + num)

def subtract16 : Havoc Unit :=
  ifRoom 2 <| afl.changeSomeWord 2 (afl.someNumber 2 fun word num => word - num)

def subtract16Be : Havoc Unit :=
  ifRoom 2 <| afl.changeSomeWord 2
    (afl.someNumber 2 fun word num => swap16 (swap16 word - num))

def add16 : Havoc Unit :=
  ifRoom 2 <| afl.changeSomeWord 2 (afl.someNumber 2 fun word num => word + num)

def add16Be : Havoc Unit :=
  ifRoom 2 <| afl.changeSomeWord 2
    (afl.someNumber 2 fun word num => swap16 (swap16 word + num))

def subtract32 : Havoc Unit :=
  ifRoom 4 <| afl.changeSomeWord 4 (afl.someNumber 4 fun word num => word - num)

def subtract32Be : Havoc Unit :=
  ifRoom 4 <| afl.changeSomeWord 4
    (afl.someNumber 4 fun word num => swap32 (swap32 word - num))

def add32 : Havoc Unit :=
  ifRoom 4 <| afl.changeSomeWord 4 (afl.someNumber 4 fun word num => word + num)

def add32Be : Havoc Unit :=
  ifRoom 4 <| afl.changeSomeWord 4
    (afl.someNumber 4 fun word num => swap32 (swap32 word + num))

def randomByte : Havoc Unit :=
  afl.changeSomeWord 1 do
    let drawn ← afl.randBelow 255
    pure fun byte => byte ^^^ BitVec.ofNat 8 (1 + drawn)

/-- Bytes are inserted by way of the scratch buffer, which gets some room more
than they need. -/
def insertBlock (more position : Nat) (bytes : List (BitVec 8)) : Havoc Unit := do
  let state ← get
  Havoc.reallocScratch (state.tempLen + bytes.length + more)
  let head ← Havoc.readOut 0 position
  Havoc.writeScratch 0 head
  Havoc.writeScratch position bytes
  let tail ← Havoc.readOut position (minus state.tempLen position)
  Havoc.writeScratch (position + bytes.length) tail
  Havoc.swapBufs
  Havoc.setTempLen (state.tempLen + bytes.length)

def cloneBytes : Havoc Unit := do
  let state ← get
  onlyIf (state.tempLen + havocBlkXl < maxFile) do
    let cloneLen ← afl.chooseBlockLen state.tempLen
    let cloneFrom ← afl.randBelow (minus (state.tempLen + 1) cloneLen)
    let cloneTo ← afl.randBelow state.tempLen
    let bytes ← Havoc.readOut cloneFrom cloneLen
    insertBlock 0 cloneTo bytes

def someByte : Havoc (BitVec 8) := do
  let state ← get
  let random ← afl.randBelow 2
  if random ≠ 0 then
    let byte ← afl.randBelow 256
    pure (BitVec.ofNat 8 byte)
  else
    let position ← afl.randBelow state.tempLen
    Havoc.inside (position < state.outBuf.room)
    pure (state.outBuf.bytes position)

def insertConstant : Havoc Unit := do
  let state ← get
  onlyIf (state.tempLen + havocBlkXl < maxFile) do
    let cloneLen ← afl.chooseBlockLen havocBlkXl
    let cloneTo ← afl.randBelow state.tempLen
    let byte ← afl.someByte
    insertBlock 0 cloneTo (List.replicate cloneLen byte)

/-- Overwrite bytes with a chunk of the buffer. -/
def overwriteCopy : Havoc Unit := do
  let state ← get
  onlyIf (2 ≤ state.tempLen) do
    let copyLen ← afl.chooseBlockLen (minus state.tempLen 1)
    let copyFrom ← afl.randBelow (minus (state.tempLen + 1) copyLen)
    let copyTo ← afl.randBelow (minus (state.tempLen + 1) copyLen)
    onlyIf (copyFrom ≠ copyTo) do
      let bytes ← Havoc.readOut copyFrom copyLen
      Havoc.writeOut copyTo bytes

def overwriteFixed : Havoc Unit := do
  let state ← get
  onlyIf (2 ≤ state.tempLen) do
    let copyLen ← afl.chooseBlockLen (minus state.tempLen 1)
    let copyTo ← afl.randBelow (minus (state.tempLen + 1) copyLen)
    let byte ← afl.someByte
    Havoc.writeOut copyTo (List.replicate copyLen byte)

def deleteBytes : Havoc Unit := do
  let state ← get
  onlyIf (2 ≤ state.tempLen) do
    let delLen ← afl.chooseBlockLen (minus state.tempLen 1)
    let delFrom ← afl.randBelow (minus (state.tempLen + 1) delLen)
    let tail ← Havoc.readOut (delFrom + delLen)
      (minus (minus state.tempLen delFrom) delLen)
    Havoc.writeOut delFrom tail
    Havoc.setTempLen (minus state.tempLen delLen)

def overwriteExtra (extras : List Dictionary.Token) : Havoc Unit := do
  let state ← get
  let useExtra ← afl.randBelow extras.length
  let extra ← Havoc.element extras useExtra
  onlyIf (extra.length ≤ state.tempLen) do
    let insertAt ← afl.randBelow (minus (state.tempLen + 1) extra.length)
    Havoc.writeOut insertAt extra

def insertExtra (extras : List Dictionary.Token) : Havoc Unit := do
  let state ← get
  let useExtra ← afl.randBelow extras.length
  let extra ← Havoc.element extras useExtra
  onlyIf (state.tempLen + extra.length < maxFile) do
    let insertAt ← afl.randBelow (state.tempLen + 1)
    Havoc.reallocOut (state.tempLen + extra.length)
    let tail ← Havoc.readOut insertAt (minus state.tempLen insertAt)
    Havoc.writeOut (insertAt + extra.length) tail
    Havoc.writeOut insertAt extra
    Havoc.setTempLen (state.tempLen + extra.length)

/-- An entry that the current one can be spliced with. -/
def Partner (queue : List (List (BitVec 8))) (tid : Nat) : Prop :=
  tid ≠ afl.currentEntry ∧ 4 ≤ (queue.getD tid []).length

instance (queue : List (List (BitVec 8))) (tid : Nat) :
    Decidable (afl.Partner queue tid) :=
  inferInstanceAs (Decidable (_ ∧ _))

/-- The numbers that are drawn until one is that of a partner. It is given up
after some draws, as if it went on. -/
def drawPartner : Nat → Havoc (List (BitVec 8))
  | 0 => OptionT.mk fun state => (none, state)
  | patience + 1 => do
      let state ← get
      let tid ← afl.randBelow state.queue.length
      let entry ← Havoc.element state.queue tid
      if tid = afl.currentEntry ∨ entry.length < 4 then drawPartner patience
      else pure entry

/-- Pick a random queue entry. Without a partner the search cannot end. -/
def pickPartner : Havoc (List (BitVec 8)) := do
  let state ← get
  if ∃ tid < state.queue.length, afl.Partner state.queue tid then
    afl.drawPartner afl.patience
  else
    Havoc.fail .noPartner
    pure []

/-- Overwrite bytes with a chunk of another test case, or insert it. -/
def spliceChunk (r : Nat) : Havoc Unit := do
  let newBuf ← afl.pickPartner
  let state ← get
  if 2 ≤ state.tempLen ∧ r % 2 = 1 ∨ maxFile ≤ state.tempLen + havocBlkXl then
    let chosen ← afl.chooseBlockLen (minus newBuf.length 1)
    let copyLen := if state.tempLen < chosen then state.tempLen else chosen
    let copyFrom ← afl.randBelow (minus (newBuf.length + 1) copyLen)
    let copyTo ← afl.randBelow (minus (state.tempLen + 1) copyLen)
    let bytes ← Havoc.part newBuf copyFrom copyLen
    Havoc.writeOut copyTo bytes
  else
    let cloneLen ← afl.chooseBlockLen newBuf.length
    let cloneFrom ← afl.randBelow (minus (newBuf.length + 1) cloneLen)
    let cloneTo ← afl.randBelow (state.tempLen + 1)
    let bytes ← Havoc.part newBuf cloneFrom cloneLen
    insertBlock 1 cloneTo bytes

/-- The `default` case of the switch. -/
def expensive (r : Nat) : Havoc Unit :=
  if afl.extras ≠ [] ∧ r < 2 then afl.overwriteExtra afl.extras
  else if afl.extras ≠ [] ∧ r < 4 then afl.insertExtra afl.extras
  else
    let r := if afl.extras ≠ [] then r - 4 else r
    if afl.aExtras ≠ [] ∧ r < 2 then afl.overwriteExtra afl.aExtras
    else if afl.aExtras ≠ [] ∧ r < 4 then afl.insertExtra afl.aExtras
    else
      let r := if afl.aExtras ≠ [] then r - 4 else r
      afl.spliceChunk r

/-- The switch over a random number. -/
def mutate (r : Nat) : Havoc Unit :=
  if r ≤ 3 then afl.flipSomeBit
  else if r ≤ 7 then afl.setInteresting8
  else if r ≤ 9 then afl.setInteresting16
  else if r ≤ 11 then afl.setInteresting16Be
  else if r ≤ 13 then afl.setInteresting32
  else if r ≤ 15 then afl.setInteresting32Be
  else if r ≤ 19 then afl.subtract8
  else if r ≤ 23 then afl.add8
  else if r ≤ 25 then afl.subtract16
  else if r ≤ 27 then afl.subtract16Be
  else if r ≤ 29 then afl.add16
  else if r ≤ 31 then afl.add16Be
  else if r ≤ 33 then afl.subtract32
  else if r ≤ 35 then afl.subtract32Be
  else if r ≤ 37 then afl.add32
  else if r ≤ 39 then afl.add32Be
  else if r ≤ 43 then afl.randomByte
  else if r ≤ 46 then afl.cloneBytes
  else if r ≤ 47 then afl.insertConstant
  else if r ≤ 50 then afl.overwriteCopy
  else if r ≤ 51 then afl.overwriteFixed
  else if r ≤ maxHavocEntry then afl.deleteBytes
  else afl.expensive (r - (maxHavocEntry + 1))

/-- The stacked custom mutators, one after the other. -/
def customHavoc : List StackedCustom → Havoc Unit
  | [] => pure ()
  | custom :: customs => do
      let drawn ← afl.randBelow 100
      onlyIf (drawn < custom.prob) do
        let state ← get
        let bytes ← Havoc.readOut 0 state.tempLen
        let mutated := custom.mutation state.draws bytes
        onlyIf (mutated ≠ []) do
          Havoc.setTempLen mutated.length
          Havoc.reallocOut mutated.length
          Havoc.writeOut 0 mutated
      customHavoc customs

end HavocSetting

end AFLPlusPlus
