import AFLPlusPlus.Config
import AFLPlusPlus.Deterministic.Predicates
import AFLPlusPlus.Support.Windows

/-!
# The deterministic stages

One pass of `fuzz_one` from the walking bit to the interesting double words.
Each stage changes the buffer in place, executes it and changes it back; a
candidate that a predicate rejects is recorded with the buffer it would have
made.
-/

namespace AFLPlusPlus

/-- The stages, in the order in which they run. -/
inductive Stage
  | flip1 | flip2 | flip4 | flip8 | flip16 | flip32
  | arith8 | arith16 | arith32
  | int8 | int16 | int32
  deriving DecidableEq

/-- The place of a stage in the pass. -/
def Stage.order : Stage → Nat
  | .flip1 => 0
  | .flip2 => 1
  | .flip4 => 2
  | .flip8 => 3
  | .flip16 => 4
  | .flip32 => 5
  | .arith8 => 6
  | .arith16 => 7
  | .arith32 => 8
  | .int8 => 9
  | .int16 => 10
  | .int32 => 11

/-- `STAGE_VAL_NONE`, `STAGE_VAL_LE` and `STAGE_VAL_BE` -/
inductive StageValType
  | none | le | be
  deriving DecidableEq

/-- The predicate that rejected a candidate. -/
inductive Predicate
  | bitflip | arith | interest
  deriving DecidableEq

/-- A candidate that was executed, or skipped because a predicate held. -/
structure Event where
  stage : Stage
  stageCurByte : Nat
  stageValType : StageValType
  buffer : Buffer
  skippedBy : Option Predicate

def Event.executed (event : Event) : Prop := event.skippedBy = none

instance (event : Event) : Decidable event.executed :=
  inferInstanceAs (Decidable (event.skippedBy = none))

/-- What a pass starts from. The effector map is the one that the walking byte
has left. -/
structure Setting where
  len : Nat
  nonempty : 0 < len
  bounded : len ≤ maxFile
  inBuf : Buffer
  effMap : Nat → Bool
  noArith : Bool

/-- The buffer and what was done so far. -/
structure Pass where
  outBuf : Buffer
  events : List Event

def effApos (position : Nat) : Nat := position >>> 3

/-- One of the bytes of a window is effective. -/
def Setting.effective (setting : Setting) (width i : Nat) : Bool :=
  (List.range width).any fun offset => setting.effMap (effApos (i + offset))

def flipBit (bit : Nat) (buffer : Buffer) : Buffer :=
  Function.update buffer (bit >>> 3)
    (buffer (bit >>> 3) ^^^ (128#8 >>> (bit &&& 7)))

/-- `FLIP_BIT` for `count` bits. -/
def flipBits (count bit : Nat) (buffer : Buffer) : Buffer :=
  forRange (fun index => flipBit (bit + index)) count buffer

/-- `^=` with all bits set. -/
def flipBytes (width i : Nat) (buffer : Buffer) : Buffer :=
  Buffer.storeAt width buffer i
    (Buffer.loadAt width buffer i ^^^ BitVec.allOnes (8 * width))

namespace Pass

def commonFuzzStuff (stage : Stage) (stageCurByte : Nat)
    (stageValType : StageValType) (pass : Pass) : Pass :=
  { pass with
    events := pass.events ++ [⟨stage, stageCurByte, stageValType, pass.outBuf, none⟩] }

/-- Flip, execute, flip back. -/
def flipped (stage : Stage) (stageCurByte : Nat) (flip : Buffer → Buffer)
    (pass : Pass) : Pass :=
  let executed := commonFuzzStuff stage stageCurByte .none
    { pass with outBuf := flip pass.outBuf }
  { executed with outBuf := flip executed.outBuf }

/-- Walking bits. -/
def walkBits (stage : Stage) (count stageMax : Nat) (pass : Pass) : Pass :=
  forRange
    (fun stageCur => flipped stage (stageCur >>> 3) (flipBits count stageCur))
    stageMax pass

def flip1 (setting : Setting) : Pass → Pass := walkBits .flip1 1 (setting.len <<< 3)

def flip2 (setting : Setting) : Pass → Pass :=
  walkBits .flip2 2 (setting.len <<< 3 - 1)

def flip4 (setting : Setting) : Pass → Pass :=
  walkBits .flip4 4 (setting.len <<< 3 - 3)

/-- The walking byte, which makes the effector map and does not consult it. -/
def flip8 (setting : Setting) (pass : Pass) : Pass :=
  forRange (fun stageCur => flipped .flip8 stageCur (flipBytes 1 stageCur))
    setting.len pass

/-- Walking bytes. -/
def walkBytes (setting : Setting) (stage : Stage) (width : Nat) (pass : Pass) :
    Pass :=
  forRange
    (fun i pass =>
      if setting.effective width i = true then
        flipped stage i (flipBytes width i) pass
      else pass)
    (setting.len - (width - 1)) pass

def flip16 (setting : Setting) : Pass → Pass := walkBytes setting .flip16 2

def flip32 (setting : Setting) : Pass → Pass := walkBytes setting .flip32 4

end Pass

/-- A value that is tried in a window, under the guard that it changes more
than the stages for narrower windows do. -/
structure Attempt (width : Nat) where
  guard : Bool
  stageValType : StageValType
  new : BitVec (8 * width)
  skippedBy : Option Predicate

/-- The check of the arithmetic stages. -/
def checkBitflip {width : Nat} (orig new : BitVec (8 * width)) : Option Predicate :=
  if couldBeBitflip ((orig ^^^ new).setWidth 32) = true then some .bitflip
  else none

def arith8Attempts (orig : BitVec (8 * 1)) (j : Nat) : List (Attempt 1) :=
  let up := orig + BitVec.ofNat 8 j
  let down := orig - BitVec.ofNat 8 j
  [⟨true, .le, up, checkBitflip orig up⟩, ⟨true, .le, down, checkBitflip orig down⟩]

/-- Both directions in both byte orders. `low` and `lowBe` are the parts that
must overflow, and `limit` is the greatest value of these. -/
def wideAttempts (width : Nat) (swap : BitVec (8 * width) → BitVec (8 * width))
    (low lowBe : BitVec (8 * width) → Nat) (limit : Nat)
    (orig : BitVec (8 * width)) (j : Nat) : List (Attempt width) :=
  let step := BitVec.ofNat (8 * width) j
  let up := orig + step
  let down := orig - step
  let upBe := swap (swap orig + step)
  let downBe := swap (swap orig - step)
  [⟨decide (limit < low orig + j), .le, up, checkBitflip orig up⟩,
    ⟨decide (low orig < j), .le, down, checkBitflip orig down⟩,
    ⟨decide (limit < lowBe orig + j), .be, upBe, checkBitflip orig upBe⟩,
    ⟨decide (lowBe orig < j), .be, downBe, checkBitflip orig downBe⟩]

def arith16Attempts : BitVec (8 * 2) → Nat → List (Attempt 2) :=
  wideAttempts 2 swap16 (fun orig => (orig &&& 0xff#16).toNat)
    (fun orig => (orig >>> 8).toNat) 0xff

def arith32Attempts : BitVec (8 * 4) → Nat → List (Attempt 4) :=
  wideAttempts 4 swap32 (fun orig => (orig &&& 0xffff#32).toNat)
    (fun orig => (swap32 orig &&& 0xffff#32).toNat) 0xffff

/-- The checks of the stages for interesting values; `interest` is the one
that the stage for bytes does not make. -/
def checkInterest {width : Nat} (orig new : BitVec (8 * width))
    (interest : Bool) : Option Predicate :=
  if couldBeBitflip ((orig ^^^ new).setWidth 32) = true then some .bitflip
  else if couldBeArith (orig.setWidth 32) (new.setWidth 32) width = true then
    some .arith
  else if interest = true then some .interest
  else none

def int8Attempt (orig : BitVec (8 * 1)) (value : BitVec 8) : Attempt 1 :=
  ⟨true, .le, value, checkInterest orig value false⟩

/-- The value in both byte orders. -/
def wideInterest (width : Nat) (swap : BitVec (8 * width) → BitVec (8 * width))
    (orig value : BitVec (8 * width)) : List (Attempt width) :=
  let could := fun (new : BitVec (8 * width)) checkLe =>
    couldBeInterest (orig.setWidth 32) (new.setWidth 32) width checkLe
  [⟨true, .le, value, checkInterest orig value (could value false)⟩,
    ⟨decide (value ≠ swap value), .be, swap value,
      checkInterest orig (swap value) (could (swap value) true)⟩]

def int16Attempts : BitVec (8 * 2) → BitVec (8 * 2) → List (Attempt 2) :=
  wideInterest 2 swap16

def int32Attempts : BitVec (8 * 4) → BitVec (8 * 4) → List (Attempt 4) :=
  wideInterest 4 swap32

namespace Pass

/-- Try one value in the window at `i`. -/
def attempt {width : Nat} (stage : Stage) (i : Nat) (pass : Pass)
    (candidate : Attempt width) : Pass :=
  let buffer := Buffer.storeAt width pass.outBuf i candidate.new
  if candidate.guard = true then
    match candidate.skippedBy with
    | none =>
        commonFuzzStuff stage i candidate.stageValType
          { pass with outBuf := buffer }
    | some predicate =>
        { pass with
          events := pass.events ++
            [⟨stage, i, candidate.stageValType, buffer, some predicate⟩] }
  else pass

/-- Write the original value back. -/
def restore (width i : Nat) (orig : BitVec (8 * width)) (pass : Pass) : Pass :=
  { pass with outBuf := Buffer.storeAt width pass.outBuf i orig }

/-- The arithmetic stage for windows of `width` bytes. -/
def arith (setting : Setting) (stage : Stage) {width : Nat}
    (attempts : BitVec (8 * width) → Nat → List (Attempt width))
    (pass : Pass) : Pass :=
  forRange
    (fun i pass =>
      let orig := Buffer.loadAt width pass.outBuf i
      if setting.effective width i = true then
        forRange
          (fun j pass =>
            restore width i orig
              ((attempts orig (j + 1)).foldl (attempt stage i) pass))
          arithMax pass
      else pass)
    (setting.len - (width - 1)) pass

def arith8 (setting : Setting) : Pass → Pass := arith setting .arith8 arith8Attempts

def arith16 (setting : Setting) : Pass → Pass := arith setting .arith16 arith16Attempts

def arith32 (setting : Setting) : Pass → Pass := arith setting .arith32 arith32Attempts

def int8 (setting : Setting) (pass : Pass) : Pass :=
  forRange
    (fun i pass =>
      let orig := Buffer.loadAt 1 pass.outBuf i
      if setting.effective 1 i = true then
        interesting8.foldl
          (fun pass value =>
            restore 1 i orig (attempt .int8 i pass (int8Attempt orig value)))
          pass
      else pass)
    setting.len pass

/-- The stage for interesting values of `width` bytes. -/
def interest (setting : Setting) (stage : Stage) {width : Nat}
    (attempts : BitVec (8 * width) → BitVec (8 * width) → List (Attempt width))
    (values : List (BitVec (8 * width))) (pass : Pass) : Pass :=
  forRange
    (fun i pass =>
      let orig := Buffer.loadAt width pass.outBuf i
      if setting.effective width i = true then
        restore width i orig
          (values.foldl
            (fun pass value =>
              (attempts orig value).foldl (attempt stage i) pass)
            pass)
      else pass)
    (setting.len - (width - 1)) pass

def int16 (setting : Setting) : Pass → Pass :=
  interest setting .int16 int16Attempts interesting16

def int32 (setting : Setting) : Pass → Pass :=
  interest setting .int32 int32Attempts interesting32

/-- Up to the label `skip_bitflip`. -/
def bitflips (setting : Setting) (pass : Pass) : Pass :=
  let pass := flip8 setting (flip4 setting (flip2 setting (flip1 setting pass)))
  if setting.len < 2 then pass
  else if setting.len < 4 then flip16 setting pass
  else flip32 setting (flip16 setting pass)

/-- Up to the label `skip_arith`. -/
def ariths (setting : Setting) (pass : Pass) : Pass :=
  if setting.noArith = true then pass
  else if setting.len < 2 then arith8 setting pass
  else if setting.len < 4 then arith16 setting (arith8 setting pass)
  else arith32 setting (arith16 setting (arith8 setting pass))

/-- Up to the label `skip_interest`. -/
def interests (setting : Setting) (pass : Pass) : Pass :=
  let pass := int8 setting pass
  if setting.noArith = true ∨ setting.len < 2 then pass
  else if setting.len < 4 then int16 setting pass
  else int32 setting (int16 setting pass)

end Pass

/-- The deterministic stages of `fuzz_one`. -/
def Setting.fuzzOne (setting : Setting) : Pass :=
  Pass.interests setting (Pass.ariths setting (Pass.bitflips setting
    { outBuf := setting.inBuf, events := [] }))

end AFLPlusPlus
