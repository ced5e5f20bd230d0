import AFLPlusPlus.Redqueen.CmpFuzz

/-!
# Solving the calls of a location

`rtn_fuzz` goes over the arguments that a location of the target has compared in
a call.  `rtn_extend_encoding` writes the bytes of one argument in the place of
the other one, byte after byte, and then under the transformations that fit the
bytes.
-/

namespace AFLPlusPlus.Redqueen

open EarlyExit

def cmpMapRtnH : Nat := cmpMapH / 4

def hexTable : List (BitVec 8) :=
  [0, 1, 2, 3, 4, 5, 6, 7, 8, 9, 0, 0, 0, 0, 0, 0, 0, 10, 11, 12, 13, 14, 15, 0,
    0, 0, 0, 0, 0, 0, 0, 0, 0, 0, 0, 0, 0, 0, 0, 0, 0, 0, 0, 0, 0, 0, 0, 0, 0,
    10, 11, 12, 13, 14, 15]

def hexValue (c : BitVec 8) : BitVec 8 := hexTable.getD (c.toNat - 48) 0

def isUpperHex (c : BitVec 8) : Bool := 65#8 ≤ c ∧ c ≤ 70#8

def isLowerHex (c : BitVec 8) : Bool := 97#8 ≤ c ∧ c ≤ 102#8

/-- `is_hex`, for the two bytes at an address. -/
def isHex (memory : Buffer) (address : Nat) : Bool :=
  [memory address, memory (address + 1)].all fun c =>
    isDigit c || isUpperHex c || isLowerHex c

/-- The entry of `hex_table_up` or `hex_table_low`. -/
def hexDigit (up : Bool) (value : BitVec 8) : BitVec 8 :=
  if value < 10#8 then 48#8 + value
  else if up then 55#8 + value
  else 87#8 + value

/-- The arguments of `rtn_extend_encoding` that are not those of the stage. -/
structure RtnArguments where
  pattern : Buffer
  repl : Buffer
  oPattern : Buffer
  changedVal : Buffer
  plen : Nat
  idx : Nat
  taintLen : Nat

/-- The variables of the loop over the transformations.  `from_up` is written
only. -/
structure RtnCounts where
  toupper : Nat
  tolower : Nat
  xor : Nat
  arith : Nat
  tohex : Nat
  fromhex : Nat
  from0 : Nat
  fromx : Nat
  fromX : Nat
  fromSlash : Nat
  to0 : Nat
  tox : Nat
  toSlash : Nat
  toUp : Nat
  xorVal : List (BitVec 8)
  arithVal : List (BitVec 8)

def RtnCounts.zero : RtnCounts := ⟨0, 0, 0, 0, 0, 0, 0, 0, 0, 0, 0, 0, 0, 0, [], []⟩

namespace RtnCounts

/-- The characters in front of digits, of which round 0 looks at the first one
and round 1 at the second one. -/
def markers (c : RtnCounts) (first replaced : BitVec 8) : Nat → RtnCounts
  | 0 =>
      { c with
        from0 := if first = 48#8 then 1 else c.from0
        fromSlash := if first = 92#8 then 1 else c.fromSlash
        to0 := if replaced = 48#8 then 1 else c.to0
        toSlash := if replaced = 92#8 then 1 else c.toSlash }
  | 1 =>
      { c with
        fromx := if first = 120#8 ∨ first = 88#8 then 1 else c.fromx
        fromX := if first = 88#8 then 1 else c.fromX
        tox := if replaced = 120#8 ∨ replaced = 88#8 then 1 else c.tox }
  | _ => c

/-- The case of two digits, of which the second one decides. -/
def digitCase (toUp : Nat) (digits : List (BitVec 8)) : Nat :=
  if toUp ≠ 0 then toUp
  else
    digits.foldl (fun toUp digit =>
      if isUpperHex digit then 1 else if isLowerHex digit then 2 else toUp) 0

/-- What round `i` counts, from the byte of `buf` and that of the test case. -/
def count (c : RtnCounts) (len : Nat) (orig buf : Buffer) (h : RtnArguments)
    (i : Nat) : RtnCounts :=
  let byte := buf (h.idx + i)
  let origByte := orig (h.idx + i)
  let xorVal := h.pattern i ^^^ byte
  let arithVal := h.pattern i - byte
  let c := c.markers origByte (h.repl i) i
  let digits := decide (i < 16) && isHex h.repl (2 * i)
  { c with
    xorVal := c.xorVal ++ [xorVal]
    arithVal := c.arithVal ++ [arithVal]
    tohex := if digits then c.tohex + 1 else c.tohex
    toUp :=
      if digits then digitCase c.toUp [h.repl (2 * i), h.repl (2 * i + 1)]
      else c.toUp
    fromhex :=
      if i % 2 = 1 ∧ h.idx + i < len ∧ isHex orig (h.idx + i) then c.fromhex + 2
      else c.fromhex
    xor :=
      if h.oPattern i ^^^ origByte = xorVal ∧ xorVal ≠ 0 then c.xor + 1
      else c.xor
    -- the differences are taken in `int`, the array has bytes
    arith :=
      if ((h.oPattern i).toNat : Int) - origByte.toNat = arithVal.toNat ∧
          arithVal ≠ 0 then c.arith + 1
      else c.arith
    tolower :=
      if byte ||| 0x20#8 = h.pattern i ∧ origByte ||| 0x20#8 = h.oPattern i then
        c.tolower + 1
      else c.tolower
    toupper :=
      if byte &&& 0x5a#8 = h.pattern i ∧ origByte &&& 0x5a#8 = h.oPattern i then
        c.toupper + 1
      else c.toupper }

variable (c : RtnCounts) (repl : Buffer) (i : Nat)

/-- The replacement as the bytes that its digits stand for. -/
def fromDigits : List (BitVec 8) :=
  let off := if c.toSlash + c.tox + c.to0 = 2 then 2 else 0
  (List.range (i + 1)).map fun j =>
    (hexValue (repl (off + 2 * j)) <<< 4) + hexValue (repl (off + 2 * j + 1))

def WritesDigits : Prop :=
  i % 2 = 1 ∧ i < 16 ∧ c.fromhex ≠ 0 ∧ i < c.fromhex + c.fromSlash + c.fromx + c.from0

instance : Decidable (c.WritesDigits i) := inferInstanceAs (Decidable (_ ∧ _))

def digitPrefix : List (BitVec 8) :=
  let x := if c.fromX ≠ 0 then 88#8 else 120#8
  if c.fromSlash ≠ 0 ∧ c.fromx ≠ 0 then [92#8, x]
  else if c.from0 ≠ 0 ∧ c.fromx ≠ 0 then [48#8, x]
  else []

def toDigits : List (BitVec 8) :=
  c.digitPrefix ++ (List.range (i / 2 + 1)).flatMap fun j =>
    [hexDigit (c.toUp = 1) (repl j >>> 4), hexDigit (c.toUp = 1) (repl j % 16)]

/-- No transformation has fitted for long. -/
def Stuck : Prop :=
  7 ≤ i ∧ c.xor ≤ i ∧ c.arith ≤ i ∧ c.tolower ≤ i ∧ c.toupper ≤ i ∧
    c.tohex < i ∧ c.fromhex + c.from0 + c.fromx + c.fromSlash + 1 < i

instance : Decidable (c.Stuck i) := inferInstanceAs (Decidable (_ ∧ _))

end RtnCounts

variable (h : RtnArguments) (save : Buffer)

namespace ItsEnvironment

variable (afl : ItsEnvironment)

def rtnItsLen (h : RtnArguments) : Nat := min (min h.plen (afl.len - h.idx)) h.taintLen

/-- A byte more of the replacement.  What is copied after a find ends in front
of it. -/
def directRound (h : RtnArguments) (idx i : Nat) (_ : Unit) :
    Its (ForInStep Unit) := do
  let its ← get
  if (h.pattern i ≠ its.buf (idx + i) ∧ h.oPattern i ≠ afl.orig (idx + i)) ∨
      its.status = 1 then
    pure (.done ())
  else do
    storeBuf (idx + i) [h.repl i]
    let its ← get
    afl.itsFuzz its.buf .direct idx (i + 1)
    combine idx i
    pure (.yield ())

/-- The replacement from `pre` bytes in front of the position on. -/
def prefixRound (h : RtnArguments) (save : Buffer) (maxTo pre : Nat) (_ : Unit) :
    Its (ForInStep Unit) := do
  let its ← get
  onlyIf (its.status ≠ 1 ∧
      its.buf.loadBytes (h.idx - pre) pre = h.repl.loadBytes 0 pre) do
    let i ← forFrom (afl.directRound h (h.idx - pre)) 0 (afl.rtnItsLen h + pre)
      ()
    storeBuf (h.idx - pre) (save.loadBytes (maxTo - pre) i)
  pure (.yield ())

/-- The first `i + 1` bytes of the replacement under a transformation. -/
def tryBytes (h : RtnArguments) (i : Nat) (byte : Nat → BitVec 8) : Its Unit :=
  afl.attempt .transform h.idx ((List.range (i + 1)).map byte)

/-- The attempts of a round.  Bytes that were written as digits are put back
from their middle on, and the first three attempts do not ask for a find. -/
def transformAttempts (h : RtnArguments) (save : Buffer) (i : Nat)
    (c : RtnCounts) : Its Unit := do
  onlyIf (i < 16 ∧ i < c.tohex) <|
    afl.attempt (.fromDigits (decide (c.WritesDigits i ∨ i < c.xor))) h.idx
      (c.fromDigits h.repl i)
  onlyIf (c.WritesDigits i) do
    afl.attempt .toDigits h.idx (c.toDigits h.repl i)
    storeBuf (h.idx + i) (save.loadBytes i (i + 1 + c.digitPrefix.length))
  onlyIf (i < c.xor) <| afl.tryBytes h i fun j => h.repl j ^^^ c.xorVal.getD j 0
  unlessFound <| onlyIf (i < c.arith) <|
    afl.tryBytes h i fun j => h.repl j - c.arithVal.getD j 0
  unlessFound <| onlyIf (i < c.toupper) <|
    afl.tryBytes h i fun j => h.repl j ||| 0x20#8
  unlessFound <| onlyIf (i < c.tolower) <|
    afl.tryBytes h i fun j => h.repl j &&& 0x5f#8
  combine h.idx (i + 1)

/-- A round of the loop over the transformations. -/
def transformRound (h : RtnArguments) (save : Buffer) (i : Nat)
    (c : RtnCounts) : Its (ForInStep RtnCounts) := do
  let its ← get
  let c := c.count afl.len afl.orig its.buf h i
  afl.transformAttempts h save i c
  let its ← get
  if c.Stuck i ∨ h.repl i ≠ h.changedVal i ∨ its.status = 1 then pure (.done c)
  else pure (.yield c)

def rtnExtendEncoding (h : RtnArguments) : Its Unit := do
  let its ← get
  let maxTo := if afl.lvl &&& lvl3 ≠ 0 then min 4 h.idx else 0
  let from_ := if afl.lvl &&& lvl1 = 0 ∧ maxTo ≠ 0 then 1 else 0
  let save := (afl.unwritten its.execs).storeBytes 0
    (its.buf.loadBytes (h.idx - maxTo) (afl.rtnItsLen h + maxTo))
  let _ ← forFrom (afl.prefixRound h save maxTo) from_ (maxTo + 1 - from_) ()
  unlessFound <| onlyIf (afl.cmplogEnableTransform ∧ afl.lvl &&& lvl3 ≠ 0) do
    let its ← get
    let save := save.storeBytes 0 (its.buf.loadBytes h.idx (afl.rtnItsLen h))
    let i ← forFrom (afl.transformRound h save) 0 (afl.rtnItsLen h)
      RtnCounts.zero
    storeBuf h.idx (save.loadBytes 0 i)

/-- The tries at one position, up to the first find. -/
def tryArguments (h : CmpLocation) (o origO : CmpfnOperands)
    (idx taintLen : Nat) : Its Unit := do
  setStatus 0
  afl.rtnExtendEncoding ⟨o.v0, o.v1, origO.v0, origO.v1, shapeBytes h.shape,
    idx, taintLen⟩
  unlessFound do
    setStatus 0
    afl.rtnExtendEncoding ⟨o.v1, o.v0, origO.v1, origO.v0, shapeBytes h.shape,
      idx, taintLen⟩

def rtnFuzz (h : CmpLocation) (taint : List Tainted) : Its Unit := do
  let _ ← forFrom (fun i () => do
    onlyIf (∀ j < i, (h.fnLog j).bytes ≠ (h.fnLog i).bytes) <|
      afl.eachPosition taint (afl.tryArguments h (h.fnLog i) (h.origFnLog i))
    pure (.yield ())) 0 (min h.hits cmpMapRtnH) ()

variable {afl}

theorem keeps_directRound (idx i : Nat) :
    Keeps afl.Faithful (afl.directRound h idx i ()) := by
  apply Keeps.bind Keeps.get
  intro its
  apply Keeps.ite
  · intro _
    exact Keeps.pure _
  intro _
  apply Keeps.bind (keeps_storeBuf _)
  intro _
  apply Keeps.bind Keeps.get
  intro its
  apply Triple.bind
    (triple_itsFuzz_lost (show ¬Site.direct.Copies from id) its.buf)
  intro _
  have copies : Triple (fun its => afl.Faithful its ∧ afl.Unfound its)
      (Redqueen.combine idx i) (fun _ => afl.Faithful) afl.Faithful :=
    fun _ both => both.1.pending_of_unfound both.2
  apply Triple.bind copies
  intro _
  exact Keeps.pure _

theorem keeps_prefixRound (maxTo pre : Nat) :
    Keeps afl.Faithful (afl.prefixRound h save maxTo pre ()) := by
  apply Keeps.bind Keeps.get
  intro its
  apply Keeps.bind
  · apply Keeps.onlyIf
    intro _
    apply Keeps.bind
    · apply Keeps.forFrom
      intro i _
      exact keeps_directRound h _ i
    · intro i
      exact keeps_storeBuf _
  · intro _
    exact Keeps.pure _

theorem triple_tryBytes (i : Nat) (byte : Nat → BitVec 8) :
    Triple afl.Faithful (afl.tryBytes h i byte)
      (fun _ => afl.Pending h.idx (i + 1)) afl.Faithful := by
  apply triple_attempt
  rw [List.length_map, List.length_range]

theorem triple_unlessFound_tryBytes (i : Nat) (possible : Prop) [Decidable possible]
    (byte : Nat → BitVec 8) :
    Triple (afl.Pending h.idx (i + 1))
      (unlessFound (onlyIf possible (afl.tryBytes h i byte)))
      (fun _ => afl.Pending h.idx (i + 1)) afl.Faithful := by
  apply Triple.bind Triple.get
  intro its
  apply Triple.ite
  · intro none
    apply Triple.ite
    · intro _
      apply (triple_tryBytes h i byte).starting
      rintro _ ⟨rfl, pending⟩
      exact pending.faithful none
    · intro _
      exact Triple.pure () fun _ both => both.2
  · intro _
    exact Triple.pure () fun _ both => both.2

/-- The first attempt of a round.  If there is another one that does not ask for
a find, what was found cannot be relied on. -/
theorem triple_fromDigits (i : Nat) (c : RtnCounts) (again : Prop) [Decidable again] :
    Triple afl.Faithful
      (afl.attempt (.fromDigits (decide again)) h.idx (c.fromDigits h.repl i))
      (fun _ its => afl.Pending h.idx (i + 1) its ∧ (again → afl.Unfound its))
      afl.Faithful := by
  by_cases retried : again
  · rw [decide_eq_true retried]
    apply (triple_attempt_lost (show ¬(Site.fromDigits true).Copies from id) _).ending
    intro _ _ both
    exact ⟨both.1.pending_of_unfound both.2, fun _ => both.2⟩
  · rw [decide_eq_false retried]
    have length : (c.fromDigits h.repl i).length = i + 1 := by
      rw [RtnCounts.fromDigits, List.length_map, List.length_range]
    apply (triple_attempt _ _ length).ending
    intro _ _ pending
    exact ⟨pending, fun holds => absurd holds retried⟩

theorem triple_transformAttempts (i : Nat) (c : RtnCounts) :
    Triple (fun its => afl.Faithful its ∧ its.status ≠ 1)
      (afl.transformAttempts h save i c) (fun _ => afl.Faithful)
      afl.Faithful := by
  have first : Triple (fun its => afl.Faithful its ∧ its.status ≠ 1)
      (onlyIf (i < 16 ∧ i < c.tohex) <|
        afl.attempt (.fromDigits (decide (c.WritesDigits i ∨ i < c.xor))) h.idx
          (c.fromDigits h.repl i))
      (fun _ its => afl.Pending h.idx (i + 1) its ∧
        (c.WritesDigits i ∨ i < c.xor → afl.Unfound its)) afl.Faithful := by
    apply Triple.ite
    · intro _
      apply (triple_fromDigits h i c _).starting
      exact fun _ both => both.1
    · intro _
      exact Triple.pure () fun _ both =>
        ⟨both.1.pending both.2, fun _ _ => both.2⟩
  have second : Triple (fun its => afl.Pending h.idx (i + 1) its ∧
        (c.WritesDigits i ∨ i < c.xor → afl.Unfound its))
      (onlyIf (c.WritesDigits i) do
        afl.attempt .toDigits h.idx (c.toDigits h.repl i)
        storeBuf (h.idx + i) (save.loadBytes i (i + 1 + c.digitPrefix.length)))
      (fun _ its => afl.Pending h.idx (i + 1) its ∧
        (i < c.xor → afl.Unfound its)) afl.Faithful := by
    apply Triple.ite
    · intro writes
      apply Triple.bind
      · apply (triple_attempt_lost (show ¬Site.toDigits.Copies from id) _).starting
        exact fun _ both => both.1.faithful_of_unfound (both.2 (.inl writes))
      · intro _
        have restores : Triple (fun its => afl.Faithful its ∧ afl.Unfound its)
            (storeBuf (h.idx + i) (save.loadBytes i (i + 1 + c.digitPrefix.length)))
            (fun _ its => afl.Faithful its ∧ afl.Unfound its) afl.Faithful :=
          fun _ both => both
        apply restores.ending
        intro _ _ both
        exact ⟨both.1.pending_of_unfound both.2, fun _ => both.2⟩
    · intro _
      exact Triple.pure () fun _ both => ⟨both.1, fun xor => both.2 (.inr xor)⟩
  have third : Triple (fun its => afl.Pending h.idx (i + 1) its ∧
        (i < c.xor → afl.Unfound its))
      (onlyIf (i < c.xor) <| afl.tryBytes h i fun j => h.repl j ^^^ c.xorVal.getD j 0)
      (fun _ => afl.Pending h.idx (i + 1)) afl.Faithful := by
    apply Triple.ite
    · intro xor
      apply (triple_tryBytes h i _).starting
      exact fun _ both => both.1.faithful_of_unfound (both.2 xor)
    · intro _
      exact Triple.pure () fun _ both => both.1
  apply Triple.bind first
  intro _
  apply Triple.bind second
  intro _
  apply Triple.bind third
  intro _
  apply Triple.bind (triple_unlessFound_tryBytes h i _ _)
  intro _
  apply Triple.bind (triple_unlessFound_tryBytes h i _ _)
  intro _
  apply Triple.bind (triple_unlessFound_tryBytes h i _ _)
  intro _
  exact triple_combine

theorem triple_transformRound (i : Nat) (c : RtnCounts) :
    Triple (fun its => afl.Faithful its ∧ its.status ≠ 1)
      (afl.transformRound h save i c)
      (AfterRound (fun its => afl.Faithful its ∧ its.status ≠ 1) afl.Faithful)
      afl.Faithful := by
  apply Triple.bind Triple.get
  intro its
  apply Triple.bind ((triple_transformAttempts h save i _).starting
    fun _ both => both.2)
  intro _
  apply Triple.bind Triple.get
  intro its
  apply Triple.ite
  · intro _
    exact Triple.pure _ fun _ both => both.2
  · intro goesOn
    apply Triple.pure
    rintro _ ⟨rfl, faithful⟩
    exact ⟨faithful, fun found => goesOn (.inr (.inr found))⟩

theorem triple_transformRounds (count : Nat) :
    Triple (fun its => afl.Faithful its ∧ its.status ≠ 1)
      (forFrom (afl.transformRound h save) 0 count RtnCounts.zero)
      (fun _ => afl.Faithful) afl.Faithful :=
  Triple.forFrom (triple_transformRound h save) (fun _ both => both.1) 0 count _

theorem keeps_rtnExtendEncoding : Keeps afl.Faithful (afl.rtnExtendEncoding h) := by
  apply Keeps.bind Keeps.get
  intro its
  apply Keeps.bind
  · apply Keeps.forFrom
    intro pre _
    exact keeps_prefixRound h _ _ pre
  intro _
  apply Triple.bind Triple.get
  intro its
  apply Triple.ite
  · intro none
    apply Triple.ite
    · intro _
      apply Triple.bind Triple.get
      intro its
      apply Triple.bind
      · apply (triple_transformRounds h _ _).starting
        rintro _ ⟨rfl, rfl, faithful⟩
        exact ⟨faithful, none⟩
      · intro i
        exact keeps_storeBuf _
    · intro _
      exact Triple.pure () fun _ both => both.2
  · intro _
    exact Triple.pure () fun _ both => both.2

theorem keeps_tryArguments (h : CmpLocation) (o origO : CmpfnOperands)
    (idx taintLen : Nat) :
    Keeps afl.Faithful (afl.tryArguments h o origO idx taintLen) := by
  apply Keeps.bind (keeps_setStatus 0)
  intro _
  apply Keeps.bind (keeps_rtnExtendEncoding _)
  intro _
  apply keeps_unlessFound
  apply Keeps.bind (keeps_setStatus 0)
  intro _
  exact keeps_rtnExtendEncoding _

theorem keeps_rtnFuzz (h : CmpLocation) (taint : List Tainted) :
    Keeps afl.Faithful (afl.rtnFuzz h taint) := by
  apply Keeps.bind
  · apply Keeps.forFrom
    intro i _
    apply Keeps.bind
    · apply Keeps.onlyIf
      intro _
      exact keeps_eachPosition taint (keeps_tryArguments _ _ _)
    intro _
    exact Keeps.pure _
  intro _
  exact Keeps.pure ()

end ItsEnvironment

end AFLPlusPlus.Redqueen
