import AFLPlusPlus.Redqueen.Replacements
import AFLPlusPlus.Support.Decimal

/-!
# Replacing the values of a comparison

`cmp_extend_encoding` looks for a value of a comparison at one position of the
input and replaces it by the other value: as the bytes of either order, as text,
under a transformation that it recognizes, or off by one.
-/

namespace AFLPlusPlus.Redqueen

open EarlyExit

def isEqual : Nat := 1
def isGreater : Nat := 2
def isLesser : Nat := 4
def isFp : Nat := 8
def isFpMod : Nat := 16
def isIntMod : Nat := 32
def isTransform : Nat := 64

def lvl1 : Nat := 1
def lvl3 : Nat := 4

def shapeBytes (shape : Nat) : Nat := shape + 1

/-- The characters that `strtoll` skips. -/
def isSpace (c : BitVec 8) : Bool := c = 32#8 ∨ 9#8 ≤ c ∧ c ≤ 13#8

def isDigit (c : BitVec 8) : Bool := 48#8 ≤ c ∧ c ≤ 57#8

/-- The value of a digit, 36 for another character. -/
def digitValue (c : BitVec 8) : Nat :=
  if isDigit c then c.toNat - 48
  else if 97#8 ≤ c ∧ c ≤ 122#8 then c.toNat - 87
  else if 65#8 ≤ c ∧ c ≤ 90#8 then c.toNat - 55
  else 36

/-- What `strtoll` and `strtoull` read for base 0: a sign, a magnitude and the
number of characters up to the end, none if there is no number. -/
structure ParsedNumber where
  negative : Bool
  magnitude : Nat
  consumed : Nat

/-- The base that a prefix stands for, with its length. -/
def numberBase : List (BitVec 8) → Nat × Nat
  | 48#8 :: x :: digit :: _ =>
      if (x = 120#8 ∨ x = 88#8) ∧ digitValue digit < 16 then (16, 2)
      else (8, 0)
  | 48#8 :: _ => (8, 0)
  | _ => (10, 0)

def parseNumber (str : List (BitVec 8)) : ParsedNumber :=
  let spaces := (str.takeWhile isSpace).length
  let signed := str.drop spaces
  let negative := signed.head? = some 45#8
  let sign := if negative ∨ signed.head? = some 43#8 then 1 else 0
  let number := signed.drop sign
  let (base, skipped) := numberBase number
  let digits := (number.drop skipped).takeWhile fun c => digitValue c < base
  { negative
    magnitude := digits.foldl (fun value c => value * base + digitValue c) 0
    consumed :=
      if digits = [] then 0 else spaces + sign + skipped + digits.length }

/-- The text that `strntoll` hands over, with the number of blanks in front. -/
def numberText (str : List (BitVec 8)) : Option (Nat × List (BitVec 8)) :=
  let blanks := (str.takeWhile (· = 32#8)).length
  let text := str.drop blanks
  if text = [] then none
  else some (blanks, (text.take 63).takeWhile (· ≠ 0#8))

/-- `strntoll`, with the position behind the number.  A number out of range is a
failure. -/
def strntoll (str : List (BitVec 8)) : Option (BitVec 64 × Nat) :=
  (numberText str).bind fun (blanks, text) =>
    let number := parseNumber text
    let value : Int :=
      if number.negative then -number.magnitude else number.magnitude
    if -2 ^ 63 ≤ value ∧ value < 2 ^ 63 then
      some (BitVec.ofInt 64 value, blanks + number.consumed)
    else none

/-- `strntoull` after `strntoll` has failed.  The largest value is a failure as
well, for `errno` is still set. -/
def strntoull (str : List (BitVec 8)) : Option (BitVec 64 × Nat) :=
  (numberText str).bind fun (blanks, text) =>
    let number := parseNumber text
    let value :=
      if 2 ^ 64 ≤ number.magnitude then BitVec.allOnes 64
      else if number.negative then -BitVec.ofNat 64 number.magnitude
      else BitVec.ofNat 64 number.magnitude
    if value = BitVec.allOnes 64 then none
    else some (value, blanks + number.consumed)

/-- The characters behind those that are skipped, if there are any. -/
theorem skipped_add_taken_le (str : List (BitVec 8)) (accepts : BitVec 8 → Bool)
    (spaces sign skipped : Nat) :
    (if (((str.drop spaces).drop sign).drop skipped).takeWhile accepts = [] then
        0
      else
        spaces + sign + skipped +
          ((((str.drop spaces).drop sign).drop skipped).takeWhile
            accepts).length) ≤ str.length := by
  split
  · exact Nat.zero_le _
  · rename_i digits
    have positive := List.length_pos_iff.mpr digits
    have bounded := (List.takeWhile_sublist accepts
      (l := ((str.drop spaces).drop sign).drop skipped)).length_le
    rw [List.length_drop, List.length_drop, List.length_drop] at bounded
    omega

theorem parseNumber_consumed_le (str : List (BitVec 8)) :
    (parseNumber str).consumed ≤ str.length :=
  skipped_add_taken_le str _ _ _ _

variable {str : List (BitVec 8)} {idx : Nat}

theorem numberText_length {text : List (BitVec 8)} {blanks : Nat}
    (found : numberText str = some (blanks, text)) :
    blanks + text.length ≤ str.length := by
  unfold numberText at found
  simp only at found
  split at found
  · cases found
  · cases found
    have skipped := (List.takeWhile_sublist (l := str) (· = 32#8)).length_le
    have shorter := (List.takeWhile_sublist (· ≠ 0#8)
      (l := (str.drop (str.takeWhile (· = 32#8)).length).take 63)).length_le
    have cut := List.length_take_le' 63
      (str.drop (str.takeWhile (· = 32#8)).length)
    rw [List.length_drop] at cut
    omega

theorem strntoll_length {num : BitVec 64} {oldLen : Nat}
    (found : strntoll str = some (num, oldLen)) :
    oldLen ≤ str.length := by
  unfold strntoll at found
  obtain ⟨⟨blanks, text⟩, isText, found⟩ := Option.bind_eq_some_iff.mp found
  have bounded := numberText_length isText
  have consumed := parseNumber_consumed_le text
  rw [Option.ite_none_right_eq_some] at found
  cases found.2
  omega

theorem strntoull_length {unum : BitVec 64} {oldLen : Nat}
    (found : strntoull str = some (unum, oldLen)) :
    oldLen ≤ str.length := by
  unfold strntoull at found
  obtain ⟨⟨blanks, text⟩, isText, found⟩ := Option.bind_eq_some_iff.mp found
  have bounded := numberText_length isText
  have consumed := parseNumber_consumed_le text
  rw [Option.ite_none_left_eq_some] at found
  cases found.2
  omega

/-- The characters of a number as `snprintf` writes them. -/
def printUnsigned (value : BitVec 64) : List (BitVec 8) :=
  (Decimal.print value.toNat).map fun digit => BitVec.ofNat 8 digit.toNat

def printSigned (value : BitVec 64) : List (BitVec 8) :=
  if value.toInt < 0 then 45#8 :: printUnsigned (-value)
  else printUnsigned value

/-- The arguments of `cmp_extend_encoding` that are not those of the stage,
with the shape of the header. -/
structure CmpArguments where
  shape : Nat
  pattern : BitVec 64
  repl : BitVec 64
  oPattern : BitVec 64
  changedVal : BitVec 64
  attr : Nat
  idx : Nat
  taintLen : Nat
  doReverse : Bool

/-- `SWAP64`, `SWAP32` and `SWAP16` of a value of 64 bits. -/
def swap (width : Nat) (value : BitVec 64) : BitVec 64 :=
  (ByteWord.ofBytes width fun offset =>
    ByteWord.byte (value.setWidth (8 * width)) (width - 1 - offset)).setWidth 64

namespace CmpArguments

variable (h : CmpArguments)

/-- The arguments for the other order of the bytes. -/
def reversed (width : Nat) : CmpArguments :=
  { h with
    pattern := swap width h.pattern
    repl := swap width h.repl
    oPattern := swap width h.oPattern
    changedVal := swap width h.changedVal
    doReverse := false }

/-- The arguments for a replacement under a transformation. -/
def transformed (newRepl : BitVec 64) : CmpArguments :=
  { h with
    repl := newRepl
    changedVal := h.repl
    attr := isTransform
    doReverse := true }

/-- The arguments for a replacement that is off by one. -/
def modified (replNew : BitVec 64) (attr : Nat) : CmpArguments :=
  { h with repl := replNew, changedVal := replNew, attr, doReverse := true }

/-- The attribute with `>=` for `<` and `<=` for `>`. -/
def strictAttr : Nat :=
  if h.attr &&& isEqual ≠ 0 ∧ h.attr &&& (isGreater ||| isLesser) ≠ 0 then
    if h.attr &&& isGreater ≠ 0 then h.attr + 2 else h.attr - 2
  else h.attr

def attrRank : Nat := if h.attr < isFpMod then 1 else 0

theorem attr_lt_of_strict (strict : h.strictAttr < isFpMod) : h.attr < isFpMod := by
  by_contra modified
  unfold strictAttr at strict
  split at strict
  · rename_i wide
    split at strict
    · unfold isFpMod at *
      omega
    · have narrow : h.attr = 16 ∨ h.attr = 17 := by
        unfold isFpMod at *
        omega
      rcases narrow with same | same
      · rw [same] at wide
        exact wide.1 rfl
      · rw [same] at wide
        exact wide.2 rfl
  · exact modified strict

theorem decreases {next : CmpArguments} (attr : h.attr < isFpMod)
    (other : isFpMod ≤ next.attr) :
    Prod.Lex (· < ·) (· < ·) (next.attrRank, next.doReverse.toNat)
      (h.attrRank, h.doReverse.toNat) := by
  apply Prod.Lex.left
  rw [attrRank, attrRank, if_pos attr, if_neg (Nat.not_lt.mpr other)]
  exact Nat.one_pos

theorem decreases_reversed (reverse : h.doReverse = true) (width : Nat) :
    Prod.Lex (· < ·) (· < ·)
      ((h.reversed width).attrRank, (h.reversed width).doReverse.toNat)
      (h.attrRank, h.doReverse.toNat) := by
  apply Prod.Lex.right
  rw [reverse]
  exact Nat.one_pos

end CmpArguments

namespace ItsEnvironment

variable (afl : ItsEnvironment)

def itsLen (idx taintLen : Nat) : Nat := min (afl.len - idx) taintLen

/-- The text of a number is written over an earlier one into a buffer of its
own. -/
def replaceNumber (idx oldLen : Nat) (digits : List (BitVec 8)) : Its Unit := do
  let its ← get
  let copied :=
    ((its.outScratch.storeBytes 0 (its.buf.loadBytes 0 idx)).storeBytes idx
      digits).storeBytes (idx + digits.length)
      (its.buf.loadBytes (idx + oldLen) (afl.len - idx - oldLen))
  let newBuf :=
    if isDigit (copied (idx + digits.length)) then
      copied.storeBytes (idx + digits.length) [32#8]
    else copied
  modify fun its => { its with outScratch := newBuf }
  afl.itsFuzz newBuf .number idx digits.length

/-- The reverse of `atoi`. -/
def replaceText (h : CmpArguments) : Its Unit := do
  let its ← get
  let text := its.buf.loadBytes h.idx (afl.len - h.idx)
  if afl.isAscii then
    match strntoll text with
    | some (num, oldLen) =>
        if num = h.pattern ∨ num = 0 then
          afl.replaceNumber h.idx oldLen (printSigned h.repl)
        else pure ()
    | none =>
        match strntoull text with
        | some (unum, oldLen) =>
            if unum = h.pattern ∨ unum = 0 then
              afl.replaceNumber h.idx oldLen (printUnsigned h.repl)
            else pure ()
        | none => pure ()
  else pure ()

/-- The number of bytes that are looked at for a transformation. -/
def transformWidth (h : CmpArguments) : Nat :=
  let bytes :=
    if shapeBytes h.shape ≤ 1 then 1
    else if shapeBytes h.shape = 2 then 2
    else if shapeBytes h.shape ≤ 4 then 4
    else 8
  let bytes := min bytes (afl.len - h.idx)
  if bytes ≤ 1 then bytes else if bytes < 4 then 2 else if bytes < 8 then 4
  else 8

def unlessFound (again : Its Unit) : Its Unit := do
  let its ← get
  onlyIf (its.status ≠ 1) again

/-- The transformations that fit both inputs, with the call for the value that
they need. -/
def replaceTransformed (h : CmpArguments)
    (again : BitVec 64 → Its Unit) : Its Unit := do
  let its ← get
  let width := afl.transformWidth h
  let mask := (BitVec.allOnes (8 * width)).setWidth 64
  let bVal := (its.buf.loadAt width h.idx).setWidth 64
  let oBVal := (afl.orig.loadAt width h.idx).setWidth 64
  let lower := 0x2020202020202020#64 &&& mask
  let upper := 0x5f5f5f5f5f5f5f5f#64 &&& mask
  let diff := h.pattern - bVal
  onlyIf (diff = h.oPattern - oBVal ∧ diff ≠ 0) (again (h.repl - diff))
  let diff := h.pattern ^^^ bVal
  unlessFound <| onlyIf (diff = h.oPattern ^^^ oBVal ∧ diff ≠ 0) <|
    again (h.repl ^^^ diff)
  unlessFound <| onlyIf (bVal ||| lower = h.pattern &&& mask ∧
      oBVal ||| lower = h.oPattern &&& mask) <|
    again (h.repl &&& upper)
  unlessFound <| onlyIf (bVal &&& upper = h.pattern &&& mask ∧
      oBVal &&& upper = h.oPattern &&& mask) <|
    again (h.repl ||| lower)
  setStatus 0

/-- Bytes of `buf` are replaced for one execution. -/
def replaceBytes (idx : Nat) (bytes : List (BitVec 8)) : Its Unit := do
  let its ← get
  afl.attempt .value idx bytes
  combine idx bytes.length
  storeBuf idx (its.buf.loadBytes idx bytes.length)

/-- The replacement of a value of `width` bytes. -/
def replaceValue (h : CmpArguments) (width : Nat) : Its Unit := do
  let its ← get
  onlyIf (width ≤ afl.itsLen h.idx h.taintLen ∧
      (its.buf.loadAt width h.idx = h.pattern.setWidth (8 * width) ∧
          afl.orig.loadAt width h.idx = h.oPattern.setWidth (8 * width) ∨
        isFpMod ≤ h.attr)) <|
    afl.replaceBytes h.idx
      (Buffer.wordBytes width (h.repl.setWidth (8 * width)))

/-- The floating-point value next to the replacement, in one of both
directions. -/
def nextFloat (h : CmpArguments) : Option (BitVec 64) :=
  let itsLen := afl.itsLen h.idx h.taintLen
  if h.strictAttr &&& isGreater ≠ 0 then
    if shapeBytes h.shape = 4 ∧ 4 ≤ itsLen then
      some ((afl.float.addOne32 (h.repl.setWidth 32)).setWidth 64)
    else if shapeBytes h.shape = 8 ∧ 8 ≤ itsLen then
      some (afl.float.addOne64 h.repl)
    else none
  else if shapeBytes h.shape = 4 then
    some ((afl.float.subOne32 (h.repl.setWidth 32)).setWidth 64)
  else if shapeBytes h.shape = 8 then some (afl.float.subOne64 h.repl)
  else none

/-- The part of the function that is for text and transformations. -/
def replaceBehind (h : CmpArguments)
    (again : h.attr ≤ isEqual → BitVec 64 → Its Unit) : Its Unit :=
  onlyIf (afl.cmplogEnableTransform ∧ afl.lvl &&& lvl3 ≠ 0) do
    afl.replaceText h
    if equal : h.attr ≤ isEqual then
      onlyIf (h.pattern ≠ h.oPattern ∧ h.repl = h.changedVal) <|
        afl.replaceTransformed h (again equal)
    else pure ()

/-- The replacement of a value, in the order of the input and in the other. -/
def replaceOrders (h : CmpArguments) (width : Nat)
    (again : h.doReverse = true → Nat → Its Unit) : Its Unit :=
  unlessFound <| onlyIf (width ≤ shapeBytes h.shape) do
    afl.replaceValue h width
    if reverse : h.doReverse = true then unlessFound (again reverse width)
    else pure ()

/-- The part of the function that looks for the value itself. -/
def replaceWidths (h : CmpArguments)
    (again : h.doReverse = true → Nat → Its Unit) : Its Unit :=
  onlyIf (afl.lvl &&& lvl1 ≠ 0 ∨ isFpMod ≤ h.attr) do
    afl.replaceOrders h 8 again
    afl.replaceOrders h 4 again
    afl.replaceOrders h 2 again
    unlessFound (afl.replaceValue h 1)

/-- The part of the function that adds or subtracts 1. -/
def replaceNext (h : CmpArguments)
    (float : h.strictAttr < isFpMod → Nat → BitVec 64 → Its Unit)
    (integer : h.strictAttr < isFpMod → BitVec 64 → Its Unit) : Its Unit :=
  if ¬afl.cmplogEnableArith ∨ afl.lvl < lvl3 ∨ h.attr = isTransform then pure ()
  else if h.attr &&& (isGreater ||| isLesser) = 0 ∨ shapeBytes h.shape < 4 then
    pure ()
  else if strict : h.strictAttr < isFpMod then
    if isFp ≤ h.strictAttr then
      match afl.nextFloat h with
      | none => pure ()
      | some replNew => do
          float strict h.shape replNew
          onlyIf (shapeBytes h.shape = 8 ∧ 4 ≤ afl.itsLen h.idx h.taintLen) <|
            float strict 3 ((afl.float.narrow h.repl).setWidth 64)
    else if h.strictAttr &&& isGreater ≠ 0 then integer strict (h.repl + 1)
    else integer strict (h.repl - 1)
  else pure ()

def cmpExtendEncoding (h : CmpArguments) : Its Unit := do
  afl.replaceBehind h fun _behind newRepl =>
    cmpExtendEncoding (h.transformed newRepl)
  if h.pattern = h.oPattern then pure ()
  else
    afl.replaceWidths h fun _reverse width =>
      cmpExtendEncoding (h.reversed width)
    afl.replaceNext h
      (fun _strict shape replNew =>
        cmpExtendEncoding { h.modified replNew isFpMod with shape })
      (fun _strict replNew =>
        cmpExtendEncoding (h.modified replNew isIntMod))
termination_by (h.attrRank, h.doReverse.toNat)
decreasing_by
  · exact h.decreases (Nat.lt_of_le_of_lt _behind (by decide))
      (show isFpMod ≤ isTransform by decide)
  · exact h.decreases_reversed _reverse width
  · exact h.decreases (h.attr_lt_of_strict _strict)
      (show isFpMod ≤ isFpMod by decide)
  · exact h.decreases (h.attr_lt_of_strict _strict)
      (show isFpMod ≤ isIntMod by decide)

/-- Two programs that are made of the same steps, for test cases that may differ
in `orig`: replacements of bytes and of numbers that lie `inside`, with what is
seen of states that are `visible` as equal. -/
inductive Accesses (orig : Buffer) (visible : ItsState → ItsState → Prop)
    (inside : Nat → Nat → Prop) :
    {Value : Type} → Its Value → Its Value → Prop where
  | pure {Value : Type} (value : Value) :
      Accesses orig visible inside (pure value) (pure value)
  | bind {Value Result : Type} {program other : Its Value}
      {rest otherRest : Value → Its Result}
      (first : Accesses orig visible inside program other)
      (second : ∀ value, Accesses orig visible inside (rest value) (otherRest value)) :
      Accesses orig visible inside (program >>= rest) (other >>= otherRest)
  | look {Value : Type} {rest otherRest : ItsState → Its Value}
      (same : ∀ its otherIts, visible its otherIts →
        Accesses orig visible inside (rest its) (otherRest otherIts)) :
      Accesses orig visible inside (get >>= rest) (get >>= otherRest)
  | setStatus (status : Nat) :
      Accesses orig visible inside (setStatus status) (setStatus status)
  | number (idx oldLen : Nat) (digits : List (BitVec 8))
      (within : inside idx oldLen) :
      Accesses orig visible inside (afl.replaceNumber idx oldLen digits)
        ({ afl with orig }.replaceNumber idx oldLen digits)
  | bytes (idx : Nat) (bytes : List (BitVec 8))
      (within : inside idx bytes.length) :
      Accesses orig visible inside (afl.replaceBytes idx bytes)
        ({ afl with orig }.replaceBytes idx bytes)

/-- What is visible and inside at a position and behind it. -/
structure Sees (orig : Buffer) (visible : ItsState → ItsState → Prop)
    (inside : Nat → Nat → Prop) (idx : Nat) : Prop where
  status : ∀ its other, visible its other → its.status = other.status
  buf : ∀ its other, visible its other →
    ∀ i, idx ≤ i → i < afl.len → its.buf i = other.buf i
  orig : ∀ i, idx ≤ i → i < afl.len → afl.orig i = orig i
  inside : ∀ count ≤ afl.len - idx, inside idx count

variable {afl} {orig : Buffer} {visible : ItsState → ItsState → Prop}
  {inside : Nat → Nat → Prop}

namespace Accesses

variable {Value : Type} {program other : Its Value}

section

variable {condition condition' : Prop} (same : condition ↔ condition')
include same

theorem ite [Decidable condition] [Decidable condition'] {negative negative' : Its Value}
    (positives : condition → afl.Accesses orig visible inside program other)
    (negatives : ¬condition → afl.Accesses orig visible inside negative negative') :
    afl.Accesses orig visible inside (if condition then program else negative)
      (if condition' then other else negative') := by
  by_cases holds : condition
  · rw [if_pos holds, if_pos (same.mp holds)]
    exact positives holds
  · rw [if_neg holds, if_neg (mt same.mpr holds)]
    exact negatives holds

theorem onlyIf [Decidable condition] [Decidable condition'] {program other : Its Unit}
    (positives : condition → afl.Accesses orig visible inside program other) :
    afl.Accesses orig visible inside (onlyIf condition program)
      (EarlyExit.onlyIf condition' other) :=
  ite same positives fun _ => pure ()

end

theorem unlessFound (sees : afl.Sees orig visible inside idx) {again again' : Its Unit}
    (accesses : afl.Accesses orig visible inside again again') :
    afl.Accesses orig visible inside (unlessFound again)
      (unlessFound again') := by
  apply look
  intro its other same
  apply onlyIf
  · rw [sees.status its other same]
  · intro _
    exact accesses

end Accesses

namespace Sees

variable {h : CmpArguments}

section

variable {memory other : Buffer} (same : ∀ i, idx ≤ i → i < afl.len → memory i = other i)
include same

theorem loadAt_eq {width : Nat} (within : width ≤ afl.len - idx) :
    memory.loadAt width idx = other.loadAt width idx := by
  apply ByteWord.eq_of_bytes
  intro offset below
  rw [Buffer.byte_loadAt _ _ below, Buffer.byte_loadAt _ _ below]
  apply same
  · exact Nat.le_add_right _ _
  · omega

theorem loadBytes_eq {count : Nat} (within : count ≤ afl.len - idx) :
    memory.loadBytes idx count = other.loadBytes idx count := by
  apply List.map_congr_left
  intro offset below
  have short := List.mem_range.mp below
  apply same
  · exact Nat.le_add_right _ _
  · omega

end

end Sees

theorem transformWidth_le (afl : ItsEnvironment) (h : CmpArguments) :
    afl.transformWidth h ≤ afl.len - h.idx := by
  unfold transformWidth
  simp only
  grind

section

variable (h : CmpArguments)
include h

theorem accesses_replaceText (sees : afl.Sees orig visible inside h.idx) :
    afl.Accesses orig visible inside (afl.replaceText h)
      ({ afl with orig }.replaceText h) := by
  apply Accesses.look
  intro its other same
  have text := Sees.loadBytes_eq (sees.buf its other same)
    (Nat.le_refl (afl.len - h.idx))
  have length := Buffer.length_loadBytes its.buf h.idx (afl.len - h.idx)
  rw [← text]
  apply Accesses.ite Iff.rfl
  · intro _
    cases signed : strntoll (its.buf.loadBytes h.idx (afl.len - h.idx)) with
    | some number =>
        apply Accesses.ite Iff.rfl
        · intro _
          exact .number h.idx number.2 _
            (sees.inside _ (length ▸ strntoll_length signed))
        · intro _
          exact .pure ()
    | none =>
        cases unsigned : strntoull
            (its.buf.loadBytes h.idx (afl.len - h.idx)) with
        | some number =>
            apply Accesses.ite Iff.rfl
            · intro _
              exact .number h.idx number.2 _
                (sees.inside _ (length ▸ strntoull_length unsigned))
            · intro _
              exact .pure ()
        | none => exact .pure ()
  · intro _
    exact .pure ()

theorem accesses_replaceTransformed (sees : afl.Sees orig visible inside h.idx)
    {again again' : BitVec 64 → Its Unit} (accesses : ∀ newRepl,
      afl.Accesses orig visible inside (again newRepl) (again' newRepl)) :
    afl.Accesses orig visible inside (afl.replaceTransformed h again)
      ({ afl with orig }.replaceTransformed h again') := by
  apply Accesses.look
  intro its other same
  have width := afl.transformWidth_le h
  have bVal : its.buf.loadAt (afl.transformWidth h) h.idx =
      other.buf.loadAt ({ afl with orig }.transformWidth h) h.idx :=
    Sees.loadAt_eq (sees.buf its other same) width
  have oBVal : afl.orig.loadAt (afl.transformWidth h) h.idx =
      orig.loadAt ({ afl with orig }.transformWidth h) h.idx :=
    Sees.loadAt_eq sees.orig width
  have tries : ∀ (condition : Prop) [Decidable condition] (newRepl : BitVec 64),
      afl.Accesses orig visible inside (onlyIf condition (again newRepl))
        (onlyIf condition (again' newRepl)) := by
    intro condition _ newRepl
    apply Accesses.onlyIf Iff.rfl
    intro _
    exact accesses newRepl
  dsimp only
  rw [← bVal, ← oBVal]
  apply Accesses.bind (tries _ _)
  intro _
  apply Accesses.bind (Accesses.unlessFound sees (tries _ _))
  intro _
  apply Accesses.bind (Accesses.unlessFound sees (tries _ _))
  intro _
  apply Accesses.bind (Accesses.unlessFound sees (tries _ _))
  intro _
  exact .setStatus 0

theorem accesses_replaceValue (width : Nat) (sees : afl.Sees orig visible inside h.idx) :
    afl.Accesses orig visible inside (afl.replaceValue h width)
      ({ afl with orig }.replaceValue h width) := by
  apply Accesses.look
  intro its other same
  apply Accesses.onlyIf
  · apply and_congr_right
    intro within
    have room : width ≤ afl.len - h.idx := Nat.le_trans within (Nat.min_le_left _ _)
    rw [Sees.loadAt_eq (sees.buf its other same) room, Sees.loadAt_eq sees.orig room]
  · intro fits
    apply Accesses.bytes
    rw [Buffer.length_wordBytes]
    exact sees.inside width (Nat.le_trans fits.1 (Nat.min_le_left _ _))

theorem accesses_replaceBehind (sees : afl.Sees orig visible inside h.idx)
    {again again' : h.attr ≤ isEqual → BitVec 64 → Its Unit}
    (accesses : ∀ equal newRepl, afl.Accesses orig visible inside
      (again equal newRepl) (again' equal newRepl)) :
    afl.Accesses orig visible inside (afl.replaceBehind h again)
      ({ afl with orig }.replaceBehind h again') := by
  apply Accesses.onlyIf Iff.rfl
  intro _
  apply Accesses.bind (accesses_replaceText h sees)
  intro _
  split
  · rename_i equal
    apply Accesses.onlyIf Iff.rfl
    intro _
    exact accesses_replaceTransformed h sees (accesses equal)
  · exact .pure ()

theorem accesses_replaceOrders (width : Nat) (sees : afl.Sees orig visible inside h.idx)
    {again again' : h.doReverse = true → Nat → Its Unit}
    (accesses : ∀ reverse width, afl.Accesses orig visible inside
      (again reverse width) (again' reverse width)) :
    afl.Accesses orig visible inside (afl.replaceOrders h width again)
      ({ afl with orig }.replaceOrders h width again') := by
  apply Accesses.unlessFound sees
  apply Accesses.onlyIf Iff.rfl
  intro _
  apply Accesses.bind (accesses_replaceValue h width sees)
  intro _
  split
  · rename_i reverse
    exact Accesses.unlessFound sees (accesses reverse width)
  · exact .pure ()

theorem accesses_replaceWidths (sees : afl.Sees orig visible inside h.idx)
    {again again' : h.doReverse = true → Nat → Its Unit}
    (accesses : ∀ reverse width, afl.Accesses orig visible inside
      (again reverse width) (again' reverse width)) :
    afl.Accesses orig visible inside (afl.replaceWidths h again)
      ({ afl with orig }.replaceWidths h again') := by
  apply Accesses.onlyIf Iff.rfl
  intro _
  apply Accesses.bind (accesses_replaceOrders h 8 sees accesses)
  intro _
  apply Accesses.bind (accesses_replaceOrders h 4 sees accesses)
  intro _
  apply Accesses.bind (accesses_replaceOrders h 2 sees accesses)
  intro _
  exact Accesses.unlessFound sees (accesses_replaceValue h 1 sees)

theorem accesses_replaceNext
    {float float' : h.strictAttr < isFpMod → Nat → BitVec 64 → Its Unit}
    {integer integer' : h.strictAttr < isFpMod → BitVec 64 → Its Unit}
    (floats : ∀ strict shape replNew, afl.Accesses orig visible inside
      (float strict shape replNew) (float' strict shape replNew))
    (integers : ∀ strict replNew, afl.Accesses orig visible inside
      (integer strict replNew) (integer' strict replNew)) :
    afl.Accesses orig visible inside (afl.replaceNext h float integer)
      ({ afl with orig }.replaceNext h float' integer') := by
  unfold replaceNext
  apply Accesses.ite Iff.rfl
  · intro _
    exact .pure ()
  intro _
  apply Accesses.ite Iff.rfl
  · intro _
    exact .pure ()
  intro _
  by_cases strict : h.strictAttr < isFpMod
  · rw [dif_pos strict, dif_pos strict]
    apply Accesses.ite Iff.rfl
    · intro _
      change afl.Accesses orig visible inside _
        (match afl.nextFloat h with
          | none => _
          | some replNew => _)
      cases afl.nextFloat h with
      | none => exact .pure ()
      | some replNew =>
          apply Accesses.bind (floats strict _ _)
          intro _
          apply Accesses.onlyIf Iff.rfl
          intro _
          exact floats strict _ _
    · intro _
      apply Accesses.ite Iff.rfl
      · intro _
        exact integers strict _
      · intro _
        exact integers strict _
  · rw [dif_neg strict, dif_neg strict]
    exact .pure ()

end

theorem accesses_cmpExtendEncoding (h : CmpArguments)
    (sees : afl.Sees orig visible inside h.idx) :
    afl.Accesses orig visible inside (afl.cmpExtendEncoding h)
      ({ afl with orig }.cmpExtendEncoding h) := by
  rw [cmpExtendEncoding, cmpExtendEncoding]
  apply Accesses.bind
  · apply accesses_replaceBehind h sees
    intro behind newRepl
    exact accesses_cmpExtendEncoding _ sees
  intro _
  apply Accesses.ite Iff.rfl
  · intro _
    exact .pure ()
  intro _
  apply Accesses.bind
  · apply accesses_replaceWidths h sees
    intro reverse width
    exact accesses_cmpExtendEncoding _ sees
  intro _
  apply accesses_replaceNext
  · intro strict shape replNew
    exact accesses_cmpExtendEncoding _ sees
  · intro strict replNew
    exact accesses_cmpExtendEncoding _ sees
termination_by (h.attrRank, h.doReverse.toNat)
decreasing_by
  · exact h.decreases (Nat.lt_of_le_of_lt behind (by decide))
      (show isFpMod ≤ isTransform by decide)
  · exact h.decreases_reversed reverse width
  · exact h.decreases (h.attr_lt_of_strict strict)
      (show isFpMod ≤ isFpMod by decide)
  · exact h.decreases (h.attr_lt_of_strict strict)
      (show isFpMod ≤ isIntMod by decide)

theorem keeps_replaceNumber (idx oldLen : Nat) (digits : List (BitVec 8)) :
    Keeps afl.Faithful (afl.replaceNumber idx oldLen digits) := by
  apply Keeps.bind Keeps.get
  intro its
  apply Keeps.bind
  · exact fun _ faithful => faithful
  · intro _
    apply (triple_itsFuzz_lost (show ¬Site.number.Copies from id) _).ending
    intro _ _ both
    exact both.1

theorem keeps_replaceBytes (idx : Nat) (bytes : List (BitVec 8)) :
    Keeps afl.Faithful (afl.replaceBytes idx bytes) := by
  apply Keeps.bind Keeps.get
  intro its
  apply Triple.bind (triple_attempt .value bytes rfl)
  intro _
  apply Triple.bind triple_combine
  intro _
  exact keeps_storeBuf _

theorem keeps_unlessFound {again : Its Unit}
    (keeps : Keeps afl.Faithful again) :
    Keeps afl.Faithful (unlessFound again) := by
  apply Keeps.bind Keeps.get
  intro its
  apply Keeps.onlyIf
  intro _
  exact keeps

theorem sees_self (afl : ItsEnvironment) (idx : Nat) :
    afl.Sees afl.orig Eq (fun _ _ => True) idx where
  status := fun _ _ same => congrArg ItsState.status same
  buf := fun _ _ same _ _ _ => congrFun (congrArg ItsState.buf same) _
  orig := fun _ _ _ => rfl
  inside := fun _ _ => trivial

theorem Accesses.keeps {Value : Type} {program other : Its Value}
    (accesses : afl.Accesses orig Eq inside program other) :
    Keeps afl.Faithful program := by
  induction accesses with
  | pure value => exact Keeps.pure value
  | bind first second keepsFirst keepsSecond =>
      exact Keeps.bind keepsFirst keepsSecond
  | look same keepsRest =>
      apply Keeps.bind Keeps.get
      intro its
      exact keepsRest its its rfl
  | setStatus status => exact keeps_setStatus status
  | number idx oldLen digits => exact keeps_replaceNumber idx oldLen digits
  | bytes idx bytes => exact keeps_replaceBytes idx bytes

end ItsEnvironment

end AFLPlusPlus.Redqueen
