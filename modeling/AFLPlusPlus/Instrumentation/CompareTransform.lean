import AFLPlusPlus.Instrumentation.CompareChain

/-!
# What the compare transform pass takes as constant

The pass looks once at every call of the module text.  A string that LLVM finds
in a constant array is a constant; so is, for want of one, the initializer of a
global array, or what a `memcpy` seen anywhere in the text copies to the same
pointer.  `valueMap` keeps the latter two, and the calls are rewritten with what
it holds in the end.
-/

namespace AFLPlusPlus

namespace CompareTransform

/-- The initializer of a global array: none, a `ConstantDataArray`, or zeros. -/
inductive Initializer where
  | none
  | dataArray (bytes : List (BitVec 8))
  | zeros (length : Nat)

/-- A global array. -/
structure GlobalVariable where
  isConstant : Bool
  initializer : Initializer

/-- A pointer operand: a constant `getelementptr` into a global array, or a
value of the function. -/
inductive Operand where
  | globalGep (index offset : Nat)
  | value (id : Nat)
  deriving DecidableEq, Repr

/-- A call that the pass looks at.  Its convention and prototype are as they
should be, and its function is in the instrument list. -/
inductive TextCall (width : Nat) where
  | memcpy (dst src : Operand)
  | compare (callee : Callee width) (str1 str2 : Operand)

/-- The module: its globals, and its calls in the order of the text. -/
structure ScannedModule (width : Nat) where
  globals : List GlobalVariable
  text : List (TextCall width)

/-- The bytes that an initializer puts into memory. -/
def Initializer.bytes : Initializer → List (BitVec 8)
  | .none => []
  | .dataArray bytes => bytes
  | .zeros length => List.replicate length 0#8

namespace ScannedModule

variable {width : Nat} (m : ScannedModule width)

/-- The initializer of the array that an operand points into. -/
def initializer (operand : Operand) : Initializer :=
  match operand with
  | .globalGep index _ =>
      ((m.globals[index]?).map GlobalVariable.initializer).getD .none
  | .value _ => .none

/-- What the initializer puts where an operand points. -/
def initialBytes (operand : Operand) : List (BitVec 8) :=
  match operand with
  | .globalGep _ offset => (m.initializer operand).bytes.drop offset
  | .value _ => []

/-- The string that LLVM documents for `getConstantStringInfo`: what a constant
array holds from the offset up to its first NUL. -/
def constantString (operand : Operand) : Option (List (BitVec 8)) :=
  match operand with
  | .globalGep index offset =>
      match m.globals[index]? with
      | some ⟨true, .none⟩ | some ⟨false, _⟩ | none => none
      | some ⟨true, initializer⟩ =>
          if offset ≤ initializer.bytes.length then
            some ((initializer.bytes.drop offset).takeWhile (· ≠ 0#8))
          else none
  | .value _ => none

/-- `getConstantStringInfo` -/
structure StringInfo where
  info : Operand → Option (List (BitVec 8))
  documented : ∀ operand, info operand = m.constantString operand

theorem StringInfo.info_eq {m : ScannedModule width} (strings : m.StringInfo)
    {operand : Operand} {text : List (BitVec 8)}
    (found : strings.info operand = some text) :
    text = (m.initialBytes operand).takeWhile (· ≠ 0#8) := by
  rw [strings.documented] at found
  cases operand with
  | value id => cases found
  | globalGep index offset =>
      simp only [constantString] at found
      simp only [initialBytes, initializer]
      split at found
      · cases found
      · cases found
      · cases found
      · rename_i initializer _ entry
        split at found
        · rw [entry]
          exact (Option.some.inj found).symm
        · cases found

/-- The `ConstantDataArray` of a global array, whether or not it is
constant. -/
def rawDataValues (operand : Operand) : Option (List (BitVec 8)) :=
  match m.initializer operand with
  | .dataArray bytes => some bytes
  | _ => none

variable {m} (strings : m.StringInfo)

/-- The state of the scan; nothing saved and an empty string are the same. -/
structure Scan where
  valueMap : Operand → List (BitVec 8)
  calls : List Nat

/-- Whether a call is worth a chain: a constant is in sight. -/
def hasConstant (scan : Scan) (str1 str2 : Operand) : Bool :=
  (strings.info str1).isSome || (strings.info str2).isSome ||
    scan.valueMap str1 ≠ [] || scan.valueMap str2 ≠ []

/-- The arrays that are looked at when no argument is a literal: of the second
argument, else of the first one. -/
def saveArray (scan : Scan) (str1 str2 : Operand) : Scan × Bool × Bool :=
  if (strings.info str1).isSome || (strings.info str2).isSome then
    (scan, false, false)
  else
    match m.rawDataValues str2 with
    | some array =>
        ({ scan with
          valueMap := Function.update scan.valueMap str2 array }, false, true)
    | none =>
        match m.rawDataValues str1 with
        | some array =>
            ({ scan with
              valueMap := Function.update scan.valueMap str1 array },
              true, false)
        | none => (scan, false, false)

/-- One call of the text. -/
def scanCall (scan : Scan) (entry : TextCall width × Nat) : Scan :=
  match entry.1 with
  | .memcpy dst src =>
      match strings.info src with
      | some text =>
          { scan with valueMap := Function.update scan.valueMap dst text }
      | none =>
          let (saved, _, hasStr2) := saveArray strings scan dst src
          if hasStr2 then
            { saved with
              valueMap := Function.update saved.valueMap dst (saved.valueMap src) }
          else saved
  | .compare callee str1 str2 =>
      let (saved, hasStr1, hasStr2) := saveArray strings scan str1 str2
      if (hasStr1 || hasStr2 || hasConstant strings saved str1 str2) &&
          callee.sizeAccepted then
        { saved with calls := saved.calls ++ [entry.2] }
      else saved

def scan : Scan := m.text.zipIdx.foldl (scanCall strings) ⟨fun _ => [], []⟩

/-- The constant that a selected call is rewritten with, and whether it is the
first argument. -/
def constantArgument (str1 str2 : Operand) :
    Option (Bool × Operand × List (BitVec 8)) :=
  match strings.info str1, strings.info str2 with
  | some text, _ => some (true, str1, text)
  | none, some text => some (false, str2, text)
  | none, none =>
      if (scan strings).valueMap str1 ≠ [] then
        some (true, str1, (scan strings).valueMap str1)
      else if (scan strings).valueMap str2 ≠ [] then
        some (false, str2, (scan strings).valueMap str2)
      else none

/-- What the pass compiles into the call at a position: the argument that it
takes as constant and the bytes that it compares. -/
def folded (position : Nat) : Option (Operand × List (BitVec 8)) :=
  match m.text[position]? with
  | some (.compare callee str1 str2) =>
      if position ∈ (scan strings).calls then do
        let (hasStr1, argument, str) ← constantArgument strings str1 str2
        let call : SelectedCall width := { callee, hasStr1, str }
        let constStr ← call.tmpConstStr
        return (argument, constStr.take (call.unrollLen constStr))
      else none
  | _ => none

end ScannedModule

end CompareTransform

end AFLPlusPlus
