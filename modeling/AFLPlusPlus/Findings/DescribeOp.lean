import AFLPlusPlus.Sync.QueueListing
import Mathlib.Algebra.Order.Ring.Nat

/-!
# Names of saved files

`describe_op` writes into a buffer how a test case was found, with one unbounded
`sprintf` after the other.  `save_if_interesting` leaves it what `NAME_MAX` allows
behind the prefix of the file name.
-/

namespace AFLPlusPlus

def nameMax : Nat := 255

/-- The size of `describe_op_buf_256`. -/
def describeOpBufSize : Nat := 256

/-- `STAGE_VAL_*` -/
inductive StageVal where
  | none
  | le
  | be
  deriving DecidableEq

/-- A custom mutator, with what it describes its last mutation as, if it has
`afl_custom_describe`.  The result may be NULL. -/
structure DescribingMutator where
  aflCustomDescribe : Option (Nat → Option CString)

/-- The part of `afl_state_t` that goes into a description. -/
structure DescribeState where
  syncingParty : Option CString
  syncingCase : BitVec 32
  currentEntry : BitVec 32
  splicingWith : BitVec 32
  /-- `get_cur_time()` -/
  curTime : BitVec 64
  prevRunTime : BitVec 64
  startTime : BitVec 64
  currentCustomFuzz : Option DescribingMutator
  stageShort : CString
  stageCurByte : BitVec 32
  stageCurVal : BitVec 32
  stageValType : StageVal

/-- The calls of `describe_op` in `save_if_interesting`. -/
inductive DescribeCall where
  | queue (newBits : Nat)
  | hang
  | crash

def DescribeCall.newBits : DescribeCall → Nat
  | queue newBits => newBits
  | hang => 0
  | crash => 0

/-- `"id:000000,"` -/
def idPrefix : CString := idEntry 0 ++ [',']

/-- `"id:000000,sig:00,"` -/
def sigPrefix : CString := idPrefix ++ ['s', 'i', 'g', ':', '0', '0', ',']

def DescribeCall.maxDescriptionLen : DescribeCall → Nat
  | queue _ => nameMax - idPrefix.length
  | hang => nameMax - idPrefix.length
  | crash => nameMax - sigPrefix.length

/-- `%d` -/
def printSigned (value : Int) : CString :=
  if value < 0 then '-' :: Nat.toDigits 10 value.natAbs
  else Nat.toDigits 10 value.natAbs

/-- `%+d` -/
def printPlus (value : Int) : CString :=
  (if value < 0 then '-' else '+') :: Nat.toDigits 10 value.natAbs

namespace DescribeState

variable (afl : DescribeState)

/-- `get_cur_time() + prev_run_time - start_time` -/
def time : Nat := (afl.curTime + afl.prevRunTime - afl.startTime).toNat

/-- The source of a test case, and when it was found. -/
def origin : CString :=
  let ret := "src:".toList ++ decimal06 afl.currentEntry.toNat
  let ret :=
    if 0 ≤ afl.splicingWith.toInt then
      ret ++ '+' :: decimal06 afl.splicingWith.toInt.toNat
    else ret
  ret ++ ",time:".toList ++ Nat.toDigits 10 afl.time

def operation : CString :=
  if 0 ≤ afl.stageCurByte.toInt then
    ",pos:".toList ++ printSigned afl.stageCurByte.toInt ++
      if afl.stageValType ≠ .none then
        ",val:".toList ++ (if afl.stageValType = .be then "be:".toList else []) ++
          printPlus afl.stageCurVal.toInt
      else []
  else ",rep:".toList ++ printSigned afl.stageCurVal.toInt

/-- `afl_custom_describe` of the current mutator. -/
def describes : Option (Nat → Option CString) :=
  afl.currentCustomFuzz.bind DescribingMutator.aflCustomDescribe

/-- What a custom mutator adds: its description as far as there is room, else
the name of the stage.  The process ends if no room is left. -/
def customPart (realMaxLen : Nat) (ret : CString)
    (describe : Nat → Option CString) : Option CString :=
  let ret := ret ++ [',']
  let sizeLeft : Int := realMaxLen - ret.length - ",+cov".toList.length - 2
  if sizeLeft ≤ 0 then none
  else
    let description := (describe sizeLeft.toNat).getD []
    if description = [] then
      some (ret ++ "op:".toList ++ afl.stageShort)
    else some (ret ++ description.take sizeLeft.toNat)

/-- The name that `describe_op` builds, unless it ends the process before. -/
def describeName (call : DescribeCall) : Option CString :=
  let realMaxLen := min call.maxDescriptionLen describeOpBufSize
  let ret := afl.syncingParty.elim
    (afl.describes.elim
      (some (afl.origin ++ ",op:".toList ++ afl.stageShort ++ afl.operation))
      (afl.customPart realMaxLen afl.origin))
    fun party => some ("sync:".toList ++ party ++ ",src:".toList ++
      decimal06 afl.syncingCase.toNat)
  ret.map fun ret => if call.newBits = 2 then ret ++ ",+cov".toList else ret

/-- `describe_op`: the length is looked at when the name is in the buffer. -/
def describeOp (call : DescribeCall) : Option CString :=
  (afl.describeName call).bind fun ret =>
    if call.maxDescriptionLen ≤ ret.length then none else some ret

end DescribeState

def digits (value : Nat) : Nat := (Nat.toDigits 10 value).length

theorem digits_le {value count : Nat} (positive : 0 < count)
    (small : value < 10 ^ count) : digits value ≤ count :=
  (Nat.length_toDigits_le_iff (by decide) positive).mpr small

theorem length_decimal06 (value : Nat) :
    (decimal06 value).length = max 6 (digits value) := by
  unfold decimal06
  split
  · rename_i small
    have most : digits value ≤ 6 := digits_le (by decide) small
    rw [Nat.max_eq_left most]
    rfl
  · rename_i large
    have least : 6 < digits value := by
      by_contra few
      exact large ((Nat.length_toDigits_le_iff (by decide) (by decide)).mp
        (Nat.not_lt.mp few))
    rw [Nat.max_eq_right (Nat.le_of_lt least)]
    rfl

theorem length_printSigned (value : Int) : (printSigned value).length =
    digits value.natAbs + if value < 0 then 1 else 0 := by
  unfold printSigned
  split <;> rfl

theorem length_printPlus (value : Int) :
    (printPlus value).length = digits value.natAbs + 1 := rfl

variable (call : DescribeCall)

namespace DescribeState

variable (afl : DescribeState)

def originLength : Nat :=
  10 + max 6 (digits afl.currentEntry.toNat) +
    (if 0 ≤ afl.splicingWith.toInt then
      1 + max 6 (digits afl.splicingWith.toInt.toNat)
    else 0) + digits afl.time

def operationLength : Nat :=
  if 0 ≤ afl.stageCurByte.toInt then
    5 + digits afl.stageCurByte.toInt.natAbs +
      if afl.stageValType ≠ .none then
        6 + (if afl.stageValType = .be then 3 else 0) +
          digits afl.stageCurVal.toInt.natAbs
      else 0
  else
    5 + digits afl.stageCurVal.toInt.natAbs +
      if afl.stageCurVal.toInt < 0 then 1 else 0

theorem length_origin : afl.origin.length = afl.originLength := by
  unfold origin originLength
  split <;> simp [length_decimal06, digits] <;> omega

theorem length_operation : afl.operation.length = afl.operationLength := by
  unfold operation operationLength
  split
  · rename_i position
    have sign : ¬afl.stageCurByte.toInt < 0 := by omega
    cases value : afl.stageValType <;>
      simp [length_printSigned, length_printPlus, sign] <;> omega
  · simp [length_printSigned]
    omega

theorem digits_word (value : BitVec 32) : digits value.toNat ≤ 10 :=
  digits_le (by decide) (Nat.lt_trans value.isLt (by decide))

theorem digits_signed (value : BitVec 32) : digits value.toInt.natAbs ≤ 10 := by
  have low := BitVec.le_toInt value
  have high := BitVec.toInt_lt (x := value)
  exact digits_le (by decide) (by omega)

theorem originLength_le : afl.originLength ≤ 51 := by
  have entry := digits_word afl.currentEntry
  have splicing := digits_signed afl.splicingWith
  have time : digits afl.time ≤ 20 :=
    digits_le (by decide) (Nat.lt_trans (BitVec.isLt _) (by decide))
  unfold originLength
  split
  · rename_i spliced
    have same : afl.splicingWith.toInt.toNat =
        afl.splicingWith.toInt.natAbs := by omega
    rw [same]
    omega
  · omega

def room (call : DescribeCall) : Nat :=
  call.maxDescriptionLen - 1 - if call.newBits = 2 then 5 else 0

def sizeLeft (call : DescribeCall) : Nat :=
  min call.maxDescriptionLen describeOpBufSize - afl.originLength - 8

/-- A peer's name must not be too long, and neither the name of the stage,
unless a custom mutator describes itself. -/
def Fits (call : DescribeCall) : Prop :=
  afl.syncingParty.elim
    (afl.describes.elim
      (afl.stageShort.length + 4 + afl.originLength + afl.operationLength ≤ room call)
      fun describe => (describe (afl.sizeLeft call)).getD [] ≠ [] ∨
        afl.stageShort.length + 4 + afl.originLength ≤ room call)
    fun party =>
      party.length + 10 + max 6 (digits afl.syncingCase.toNat) ≤ room call

theorem DescribeCall.maxDescriptionLen_bounds :
    238 ≤ call.maxDescriptionLen ∧ call.maxDescriptionLen ≤ 245 := by
  have queue : nameMax - idPrefix.length = 245 := by decide
  have crash : nameMax - sigPrefix.length = 238 := by decide
  cases call <;>
    simp only [DescribeCall.maxDescriptionLen, queue, crash] <;> decide

/-- There is room for a custom description, and it is kept to. -/
theorem customPart_length (describe : Nat → Option CString) :
    ∃ ret, afl.customPart (min call.maxDescriptionLen describeOpBufSize)
        afl.origin describe = some ret ∧
      (ret.length ≤ room call ↔
        (describe (afl.sizeLeft call)).getD [] ≠ [] ∨
          afl.stageShort.length + 4 + afl.originLength ≤ room call) := by
  have bounds := DescribeCall.maxDescriptionLen_bounds call
  have least := afl.originLength_le
  have real : min call.maxDescriptionLen describeOpBufSize =
      call.maxDescriptionLen := Nat.min_eq_left (by
    simp only [describeOpBufSize]
    omega)
  have length := afl.length_origin
  have left : ((call.maxDescriptionLen : Int) -
      (afl.origin ++ [',']).length - ",+cov".toList.length - 2) =
        (afl.sizeLeft call : Nat) := by
    rw [List.length_append, length, sizeLeft, real]
    simp
    omega
  have some : ¬((afl.sizeLeft call : Nat) : Int) ≤ 0 := by
    rw [sizeLeft, real]
    omega
  unfold customPart
  dsimp only
  rw [real, left, if_neg some, Int.toNat_natCast]
  generalize (describe (afl.sizeLeft call)).getD [] = description
  by_cases empty : description = []
  · refine ⟨_, if_pos empty, ?_⟩
    simp [empty, length]
    omega
  · refine ⟨_, if_neg empty, iff_of_true ?_ (.inl empty)⟩
    have taken := List.length_take_le (afl.sizeLeft call) description
    rw [sizeLeft, real] at taken
    simp only [List.length_append, length, List.length_singleton, room, sizeLeft, real]
    split <;> omega

/-- Exactly then the name fits, with the NUL behind it, into what the call
allows. -/
theorem describeName_fits_iff (afl : DescribeState) (call : DescribeCall) :
    (∃ name, afl.describeName call = some name ∧
      name.length + 1 ≤ call.maxDescriptionLen) ↔ afl.Fits call := by
  have bounds := DescribeCall.maxDescriptionLen_bounds call
  have marked : ∀ ret : CString,
      ((if call.newBits = 2 then ret ++ ",+cov".toList else ret).length + 1 ≤
        call.maxDescriptionLen ↔ ret.length ≤ room call) := by
    intro ret
    unfold room
    split
    · simp
      omega
    · omega
  have built : ∀ ret : CString,
      ((∃ name, (some ret).map (fun ret =>
          if call.newBits = 2 then ret ++ ",+cov".toList else ret) =
            some name ∧ name.length + 1 ≤ call.maxDescriptionLen) ↔
        ret.length ≤ room call) := by
    intro ret
    rw [← marked ret]
    constructor
    · rintro ⟨name, is, fits⟩
      obtain rfl := Option.some.inj is
      exact fits
    · exact fun fits => ⟨_, rfl, fits⟩
  unfold describeName Fits
  dsimp only
  cases afl.syncingParty with
  | some party =>
      refine (built _).trans ?_
      simp only [List.length_append, length_decimal06, room, Option.elim_some]
      simp
      omega
  | none =>
      cases afl.describes with
      | none =>
          refine (built _).trans ?_
          simp only [List.length_append, length_origin, length_operation,
            Option.elim_none]
          simp
          omega
      | some describe =>
          obtain ⟨ret, is, fits⟩ := afl.customPart_length call describe
          rw [Option.elim_none, Option.elim_some, is]
          exact (built ret).trans fits

/-- A case found while syncing from a peer whose name has 240 characters. -/
def longPeer : DescribeState where
  syncingParty := some (List.replicate 240 'a')
  syncingCase := 0#32
  currentEntry := 0#32
  splicingWith := BitVec.ofInt 32 (-1)
  curTime := 0#64
  prevRunTime := 0#64
  startTime := 0#64
  currentCustomFuzz := none
  stageShort := "havoc".toList
  stageCurByte := BitVec.ofInt 32 (-1)
  stageCurVal := 1#32
  stageValType := .none

theorem describeName_party {party : CString} (syncing : afl.syncingParty = some party) :
    ∃ name, afl.describeName call = some name ∧
      name.length = party.length + 10 +
        max 6 (digits afl.syncingCase.toNat) +
          if call.newBits = 2 then 5 else 0 := by
  unfold describeName
  dsimp only
  rw [syncing, Option.elim_some, Option.map_some]
  refine ⟨_, rfl, ?_⟩
  split
  · simp [length_decimal06]
    omega
  · simp [length_decimal06]
    omega

theorem longPeer_overflow : ∃ name,
    longPeer.describeName (.queue 2) = some name ∧
      (DescribeCall.queue 2).maxDescriptionLen < name.length + 1 ∧
      describeOpBufSize < name.length + 1 := by
  obtain ⟨name, is, length⟩ := longPeer.describeName_party (.queue 2) rfl
  rw [List.length_replicate] at length
  have number : digits longPeer.syncingCase.toNat = 1 := by decide
  rw [number] at length
  have long : name.length = 261 := length
  refine ⟨name, is, ?_, ?_⟩
  · rw [long]
    decide
  · rw [long]
    decide

end DescribeState

end AFLPlusPlus
