import AFLPlusPlus.Redqueen.CmpEncoding
import AFLPlusPlus.Redqueen.Colorization

/-!
# Solving the comparisons of a location

`cmp_fuzz` goes over the values that a location of the target has compared and
tries them at every tainted position of the input.
-/

namespace AFLPlusPlus.Redqueen

open EarlyExit

def cmpMapH : Nat := 32

/-- `struct cmp_operands` -/
structure CmpOperands where
  v0 : BitVec 64
  v1 : BitVec 64
  v0_128 : BitVec 64
  v1_128 : BitVec 64

def u128 (low high : BitVec 64) : BitVec 128 := high ++ low

def swapA (attr : Nat) : Nat := (attr &&& 0xf8) + ((attr &&& 7) ^^^ 7)

/-- `SWAPN` of a value that has `shape` bytes, with the number of its bits in
place of that of its bytes.  A shift takes its count modulo 128. -/
def swapN (shape : Nat) (value : BitVec 128) : BitVec 128 :=
  let reversed : BitVec 128 :=
    ByteWord.ofBytes 16 fun offset =>
      @ByteWord.byte 16 value (15 - offset)
  reversed >>> ((2 ^ 32 + 128 - shape * 8 * 8) % 128)

/-- The arguments of `cmp_extend_encodingN` that are not those of the stage,
with the shape of the header.  It uses neither the attribute nor the value that
was changed. -/
structure WideArguments where
  shape : Nat
  pattern : BitVec 128
  repl : BitVec 128
  oPattern : BitVec 128
  idx : Nat
  taintLen : Nat

namespace WideArguments

variable (h : WideArguments)

/-- The bytes of a value that the comparison has used. -/
def bytes (value : BitVec 128) : List (BitVec 8) :=
  (List.range (shapeBytes h.shape)).map (@ByteWord.byte 16 value)

/-- The arguments for the other order of the bytes. -/
def reversed : WideArguments :=
  { h with
    pattern := swapN (shapeBytes h.shape) h.pattern
    repl := swapN (shapeBytes h.shape) h.repl
    oPattern := swapN (shapeBytes h.shape) h.oPattern }

end WideArguments

/-- `struct cmpfn_operands`, with what stands behind them in the map. -/
structure CmpfnOperands where
  v0 : Buffer
  v1 : Buffer

/-- What `memcmp` looks at. -/
def CmpfnOperands.bytes (o : CmpfnOperands) : List (BitVec 8) :=
  o.v0.loadBytes 0 32 ++ o.v1.loadBytes 0 32

/-- A location of the target as the stage finds it: the header that was recorded
for the colorized input, the operands for this and for the test case, read as
values or as the arguments of a function, and the statistics. -/
structure CmpLocation where
  hits : Nat
  shape : Nat
  type : Nat
  attr : Nat
  log : Nat → CmpOperands
  origLog : Nat → CmpOperands
  fnLog : Nat → CmpfnOperands
  origFnLog : Nat → CmpfnOperands
  faileds : Nat
  total : Nat

namespace ItsEnvironment

variable (afl : ItsEnvironment)

def replaceWide (h : WideArguments) : Its Unit := do
  let its ← get
  onlyIf (its.buf.loadBytes h.idx (shapeBytes h.shape) = h.bytes h.pattern ∧
      afl.orig.loadBytes h.idx (shapeBytes h.shape) = h.bytes h.oPattern) <|
    afl.replaceBytes h.idx (h.bytes h.repl)

/-- `cmp_extend_encodingN`, in the order of the input and in the other. -/
def cmpExtendEncodingN (h : WideArguments) : Its Unit :=
  onlyIf (shapeBytes h.shape ≤ afl.itsLen h.idx h.taintLen) do
    afl.replaceWide h
    unlessFound (afl.replaceWide h.reversed)

/-- The position of an input where a tainted range is looked for, with the range
of the moment and those behind it. -/
def atPosition (replace : Nat → Nat → Its Unit) (idx : Nat) :
    List Tainted → Its (ForInStep (List Tainted))
  | [] => pure (.yield [])
  | t :: later =>
      if idx < t.pos then pure (.yield (t :: later))
      else do
        replace idx ((2 ^ 32 + t.pos + t.len - idx) % 2 ^ 32)
        let its ← get
        if its.status = 1 then pure (.done later)
        else if idx = (2 ^ 32 + t.pos + t.len - 1) % 2 ^ 32 then
          pure (.yield later)
        else pure (.yield (t :: later))

/-- The loop over the positions, which the first find ends. -/
def eachPosition (taint : List Tainted) (replace : Nat → Nat → Its Unit) :
    Its Unit := do
  let _ ← forFrom (atPosition replace) 0 afl.len taint.reverse

def tryWide (h : CmpLocation) (o origO : CmpOperands) (idx taintLen : Nat) :
    Its Unit := do
  let v0 := u128 o.v0 o.v0_128
  let v1 := u128 o.v1 o.v1_128
  let origV0 := u128 origO.v0 origO.v0_128
  let origV1 := u128 origO.v1 origO.v1_128
  onlyIf (v0 ≠ origV0 ∧ origV0 ≠ origV1) <|
    afl.cmpExtendEncodingN ⟨h.shape, v0, v1, origV0, idx, taintLen⟩
  unlessFound <| onlyIf (v1 ≠ origV1 ∧ origV1 ≠ origV0) <|
    afl.cmpExtendEncodingN ⟨h.shape, v1, v0, origV1, idx, taintLen⟩

/-- The tries at one position, up to the first find. -/
def tryOperands (h : CmpLocation) (o origO : CmpOperands) (idx taintLen : Nat) :
    Its Unit := do
  setStatus 0
  onlyIf (shapeBytes h.shape ∉ [1, 2, 4, 8]) (afl.tryWide h o origO idx taintLen)
  unlessFound <| onlyIf ((o.v0 ≠ origO.v0 ∨ lvl3 ≤ afl.lvl) ∧ origO.v0 ≠ origO.v1) <|
    afl.cmpExtendEncoding ⟨h.shape, o.v0, o.v1, origO.v0, origO.v1,
      h.attr, idx, taintLen, true⟩
  unlessFound do
    setStatus 0
    onlyIf ((o.v1 ≠ origO.v1 ∨ lvl3 ≤ afl.lvl) ∧ origO.v0 ≠ origO.v1) <|
      afl.cmpExtendEncoding ⟨h.shape, o.v1, o.v0, origO.v1, origO.v0,
        swapA h.attr, idx, taintLen, true⟩

/-- `cmp_fuzz`.  The test for values that were there before looks at the first
one only, for it compares the second one with itself. -/
def cmpFuzz (h : CmpLocation) (taint : List Tainted) : Its Unit := do
  let _ ← forFrom (fun i () => do
    onlyIf (∀ j < i, ¬((h.log j).v0 = (h.log i).v0 ∧ (h.log i).v1 = (h.log i).v1)) <|
      afl.eachPosition taint (afl.tryOperands h (h.log i) (h.origLog i))
    pure (.yield ())) 0 (min h.hits cmpMapH) ()

variable {afl}

variable {orig : Buffer} {visible : ItsState → ItsState → Prop}
    {inside : Nat → Nat → Prop} {idx : Nat}

section

variable (h : WideArguments) (sees : afl.Sees orig visible inside h.idx)
include h sees

theorem accesses_replaceWide (within : shapeBytes h.shape ≤ afl.len - h.idx) :
    afl.Accesses orig visible inside (afl.replaceWide h)
      ({ afl with orig }.replaceWide h) := by
  apply Accesses.look
  intro its other same
  apply Accesses.onlyIf
  · rw [Sees.loadBytes_eq (sees.buf its other same) within,
      Sees.loadBytes_eq sees.orig within]
  · intro _
    apply Accesses.bytes
    rw [WideArguments.bytes, List.length_map, List.length_range]
    exact sees.inside _ within

theorem accesses_cmpExtendEncodingN :
    afl.Accesses orig visible inside (afl.cmpExtendEncodingN h)
      ({ afl with orig }.cmpExtendEncodingN h) := by
  apply Accesses.onlyIf Iff.rfl
  intro fits
  have within := Nat.le_trans fits (Nat.min_le_left _ h.taintLen)
  apply Accesses.bind (accesses_replaceWide h sees within)
  intro _
  exact Accesses.unlessFound sees (accesses_replaceWide h.reversed sees within)

end

theorem keeps_eachPosition (taint : List Tainted)
    {replace : Nat → Nat → Its Unit}
    (keeps : ∀ idx taintLen, Keeps afl.Faithful (replace idx taintLen)) :
    Keeps afl.Faithful (afl.eachPosition taint replace) := by
  have round : ∀ idx later, Keeps afl.Faithful (atPosition replace idx later) := by
    intro idx later
    cases later with
    | nil => exact Keeps.pure _
    | cons t later =>
        apply Keeps.ite
        · intro _
          exact Keeps.pure _
        intro _
        apply Keeps.bind (keeps idx _)
        intro _
        apply Keeps.bind Keeps.get
        intro its
        apply Keeps.ite
        · intro _
          exact Keeps.pure _
        intro _
        apply Keeps.ite
        · intro _
          exact Keeps.pure _
        · intro _
          exact Keeps.pure _
  apply Keeps.bind (Keeps.forFrom round _ _ _)
  intro _
  exact Keeps.pure ()

section

variable (h : CmpLocation) (o origO : CmpOperands) (taintLen : Nat)
    (sees : afl.Sees orig visible inside idx)
include sees

theorem accesses_tryWide :
    afl.Accesses orig visible inside (afl.tryWide h o origO idx taintLen)
      ({ afl with orig }.tryWide h o origO idx taintLen) := by
  apply Accesses.bind
  · apply Accesses.onlyIf Iff.rfl
    intro _
    exact accesses_cmpExtendEncodingN _ sees
  intro _
  apply Accesses.unlessFound sees
  apply Accesses.onlyIf Iff.rfl
  intro _
  exact accesses_cmpExtendEncodingN _ sees

theorem accesses_tryOperands :
    afl.Accesses orig visible inside (afl.tryOperands h o origO idx taintLen)
      ({ afl with orig }.tryOperands h o origO idx taintLen) := by
  apply Accesses.bind (.setStatus 0)
  intro _
  apply Accesses.bind
  · apply Accesses.onlyIf Iff.rfl
    intro _
    exact accesses_tryWide h o origO taintLen sees
  intro _
  apply Accesses.bind
  · apply Accesses.unlessFound sees
    apply Accesses.onlyIf Iff.rfl
    intro _
    exact accesses_cmpExtendEncoding _ sees
  intro _
  apply Accesses.unlessFound sees
  apply Accesses.bind (.setStatus 0)
  intro _
  apply Accesses.onlyIf Iff.rfl
  intro _
  exact accesses_cmpExtendEncoding _ sees

end

theorem Accesses.forFrom {Local : Type} {body body' : Nat → Local → Its (ForInStep Local)}
    {bound : Nat} (round : ∀ i < bound, ∀ locals,
      afl.Accesses orig visible inside (body i locals) (body' i locals))
    (i count : Nat) (total : i + count ≤ bound) (locals : Local) :
    afl.Accesses orig visible inside (forFrom body i count locals)
      (EarlyExit.forFrom body' i count locals) := by
  induction count generalizing i locals with
  | zero => exact .pure i
  | succ count induction =>
      apply Accesses.bind (round i (by omega) locals)
      intro next
      cases next with
      | done => exact .pure i
      | yield next => exact induction (i + 1) (by omega) next

theorem accesses_cmpFuzz (h : CmpLocation) (taint : List Tainted)
    (sees : ∀ idx < afl.len, afl.Sees orig visible inside idx) :
    afl.Accesses orig visible inside (afl.cmpFuzz h taint)
      ({ afl with orig }.cmpFuzz h taint) := by
  have position : ∀ i, ∀ idx < afl.len, ∀ later, afl.Accesses orig visible inside
      (atPosition (afl.tryOperands h (h.log i) (h.origLog i)) idx later)
      (atPosition ({ afl with orig }.tryOperands h (h.log i) (h.origLog i)) idx later) := by
    intro i idx inside later
    cases later with
    | nil => exact .pure _
    | cons t later =>
        apply Accesses.ite Iff.rfl fun _ => .pure _
        intro _
        apply Accesses.bind (accesses_tryOperands h _ _ _ (sees idx inside))
        intro _
        apply Accesses.look
        intro its other same
        apply Accesses.ite (by rw [(sees idx inside).status its other same]) fun _ => .pure _
        intro _
        exact Accesses.ite Iff.rfl (fun _ => .pure _) fun _ => .pure _
  have all : 0 + min h.hits cmpMapH ≤ min h.hits cmpMapH := (Nat.zero_add _).le
  apply Accesses.bind (Accesses.forFrom (fun i _ _ => ?_) 0 _ all ())
  · exact fun _ => .pure _
  apply Accesses.bind
  · apply Accesses.onlyIf Iff.rfl
    intro _
    apply Accesses.bind (Accesses.forFrom (position i) 0 _ (Nat.zero_add _).le _)
    exact fun _ => .pure _
  · exact fun _ => .pure _

theorem keeps_cmpFuzz (h : CmpLocation) (taint : List Tainted) :
    Keeps afl.Faithful (afl.cmpFuzz h taint) :=
  (accesses_cmpFuzz h taint fun idx _ => afl.sees_self idx).keeps

end ItsEnvironment

end AFLPlusPlus.Redqueen
