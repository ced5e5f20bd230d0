import Mathlib.Data.List.TakeWhile
import Mathlib.Tactic.Common

/-!
# The chains of the compare transform pass

`transformCmps` replaces a call of `strcmp` and the like, one argument of which
it takes as constant, by a chain of blocks that compare one byte each.  The
result is the last difference that was computed, an 8-bit subtraction extended
to 32 bits.
-/

namespace AFLPlusPlus

namespace CompareTransform

/-- The third operand of a call, a constant or a value of the run. -/
inductive SizeOperand (width : Nat) where
  | constantInt (value : BitVec width)
  | runtime

/-- The functions that the pass replaces. -/
inductive Callee (width : Nat) where
  | strcmp
  | strcasecmp
  | memcmp (size : SizeOperand width)
  | bcmp (size : SizeOperand width)
  | strncmp (size : SizeOperand width)
  | strncasecmp (size : SizeOperand width)

namespace Callee

variable {width : Nat}

/-- The check of the third operand in the loop that selects the calls, where
`bcmp` counts as `memcmp`. -/
def sizeAccepted : Callee width → Bool
  | .strcmp | .strcasecmp => true
  | .memcmp (.constantInt value) | .bcmp (.constantInt value)
  | .strncmp (.constantInt value) | .strncasecmp (.constantInt value) =>
      2 ≤ value.toNat
  | .memcmp .runtime | .bcmp .runtime => false
  | .strncmp .runtime | .strncasecmp .runtime => true

/-- `isMemcmp` of the loop that emits the chains. -/
def isMemcmp : Callee width → Bool
  | .memcmp _ => true
  | _ => false

def isCaseInsensitive : Callee width → Bool
  | .strcasecmp | .strncasecmp _ => true
  | _ => false

/-- `sizedValue`; there is none for `bcmp`. -/
def sizedValue : Callee width → Option (SizeOperand width)
  | .memcmp size | .strncmp size | .strncasecmp size => some size
  | .strcmp | .strcasecmp | .bcmp _ => none

end Callee

/-- A selected call: whether the constant is its first argument, and the
constant. -/
structure SelectedCall (width : Nat) where
  callee : Callee width
  hasStr1 : Bool
  str : List (BitVec 8)

/-- `tolower` in the C locale. -/
def tolower (byte : BitVec 8) : BitVec 8 :=
  if 65 ≤ byte.toNat ∧ byte.toNat ≤ 90 then byte + 32#8 else byte

/-- The blocks `len_check` and `cmp_added` of a chain.  The first one leaves
the chain when the size is the index, the second one when the byte at the index
differs from the constant. -/
inductive ChainBlock where
  | lenCheck (i : Nat)
  | cmpAdded (i : Nat) (c : BitVec 8)
  deriving DecidableEq, Repr

/-- The result of a chain and the indices of the bytes that it has loaded. -/
structure ChainResult where
  phi : BitVec 32
  loads : List Nat

namespace SelectedCall

variable {width : Nat} (call : SelectedCall width)

/-- `TmpConstStr`, where the call is not left as it is. -/
def tmpConstStr : Option (List (BitVec 8)) :=
  if call.str.length < 2 ∨ (call.str.length = 2 ∧ call.str.getLast? = some 0#8) then
    none
  else if call.callee.isMemcmp then some call.str
  else
    let terminated :=
      if call.str.getLast? = some 0#8 then call.str else call.str ++ [0#8]
    some (terminated.take (terminated.findIdx (· = 0#8) + 1))

def unrollLen (constStr : List (BitVec 8)) : Nat :=
  match call.callee.sizedValue with
  | some (.constantInt value) => min value.toNat constStr.length
  | _ => constStr.length

def checksSize : Bool :=
  match call.callee.sizedValue with
  | some .runtime => true
  | _ => false

def fold (byte : BitVec 8) : BitVec 8 :=
  if call.callee.isCaseInsensitive then tolower byte else byte

/-- The blocks for constants from an index on. -/
def blocksFrom (checked : Bool) (i : Nat) (constStr : List (BitVec 8)) :
    List ChainBlock :=
  (constStr.zipIdx i).flatMap fun (byte, i) =>
    (if checked then [.lenCheck i] else []) ++ [.cmpAdded i (call.fold byte)]

/-- The chain that replaces the call. -/
def chain : Option (List ChainBlock) :=
  if call.callee.sizeAccepted then
    call.tmpConstStr.map fun constStr =>
      call.blocksFrom call.checksSize 0
        (constStr.take (call.unrollLen constStr))
  else none

/-- `isub`, with the operands in the order of the arguments. -/
def isub (c load : BitVec 8) : BitVec 8 :=
  if call.hasStr1 then c - load else load - c

/-- Run a chain with a size, when there is one, on the other argument. -/
def run (size : BitVec width) (varStr : Nat → BitVec 8) : List ChainBlock → ChainResult
  | [] => ⟨0#32, []⟩
  | .lenCheck i :: rest =>
      if size = BitVec.ofNat width i then ⟨0#32, []⟩
      else run size varStr rest
  | .cmpAdded i c :: rest =>
      let isub := call.isub c (call.fold (varStr i))
      if rest = [] ∨ isub ≠ 0#8 then ⟨isub.signExtend 32, [i]⟩
      else
        let later := run size varStr rest
        ⟨later.phi, i :: later.loads⟩

theorem run_cmpAdded (size : BitVec width) (varStr : Nat → BitVec 8) (i : Nat)
    (c : BitVec 8) (rest : List ChainBlock) :
    call.run size varStr (.cmpAdded i c :: rest) =
      if call.isub c (call.fold (varStr i)) = 0#8 then
        ⟨(call.run size varStr rest).phi, i :: (call.run size varStr rest).loads⟩
      else ⟨(call.isub c (call.fold (varStr i))).signExtend 32, [i]⟩ := by
  rw [run]
  by_cases same : call.isub c (call.fold (varStr i)) = 0#8
  · cases rest with
    | nil =>
        rw [same]
        rfl
    | cons block rest => simp [same]
  · simp [same]

theorem isub_eq_zero_iff (c load : BitVec 8) : call.isub c load = 0#8 ↔ c = load := by
  unfold isub
  split
  · rw [BitVec.sub_eq_iff_eq_add, BitVec.zero_add]
  · rw [BitVec.sub_eq_iff_eq_add, BitVec.zero_add, eq_comm]

@[simp] theorem blocksFrom_nil (checked : Bool) (i : Nat) :
    call.blocksFrom checked i [] = [] := rfl

theorem blocksFrom_cons (i : Nat) (byte : BitVec 8)
    (constStr : List (BitVec 8)) :
    call.blocksFrom false i (byte :: constStr) =
      .cmpAdded i (call.fold byte) :: call.blocksFrom false (i + 1) constStr := by
  simp [blocksFrom]

theorem blocksFrom_cons_checked (i : Nat) (byte : BitVec 8)
    (constStr : List (BitVec 8)) :
    call.blocksFrom true i (byte :: constStr) =
      .lenCheck i :: .cmpAdded i (call.fold byte) ::
        call.blocksFrom true (i + 1) constStr := by
  simp [blocksFrom]

/-- The checks of the size shorten a chain to the bytes below the size. -/
theorem run_checked (size : BitVec width) (varStr : Nat → BitVec 8)
    (constStr : List (BitVec 8)) (i left : Nat) (same : size.toNat = i + left) :
    call.run size varStr (call.blocksFrom true i constStr) =
      call.run size varStr (call.blocksFrom false i (constStr.take left)) := by
  induction constStr generalizing i left with
  | nil => rw [List.take_nil, blocksFrom_nil, blocksFrom_nil]
  | cons byte constStr induction =>
      rw [blocksFrom_cons_checked, run]
      cases left with
      | zero =>
          have reached : size = BitVec.ofNat width i := by
            rw [← Nat.add_zero i, ← same, BitVec.ofNat_toNat, BitVec.setWidth_eq]
          rw [if_pos reached, List.take_zero, blocksFrom_nil, run]
      | succ left =>
          have beyond : size ≠ BitVec.ofNat width i := by
            rintro rfl
            rw [BitVec.toNat_ofNat] at same
            have reduced := Nat.mod_le i (2 ^ width)
            omega
          rw [if_neg beyond, List.take_succ_cons, blocksFrom_cons,
            run_cmpAdded, run_cmpAdded, induction (i + 1) left (by omega)]

private theorem take_findIdx_nul {bytes : List (BitVec 8)}
    (member : 0#8 ∈ bytes) :
    bytes.take (bytes.findIdx (· = 0#8) + 1) = bytes.takeWhile (· ≠ 0#8) ++ [0#8] := by
  induction bytes with
  | nil => cases member
  | cons byte bytes induction =>
      rw [List.findIdx_cons]
      by_cases nul : byte = 0#8
      · subst byte
        simp
      · rcases List.mem_cons.mp member with same | later
        · exact absurd same.symm nul
        · simp [nul, induction later]

private theorem takeWhile_append_nul (bytes : List (BitVec 8)) :
    (bytes ++ [0#8]).takeWhile (· ≠ 0#8) = bytes.takeWhile (· ≠ 0#8) := by
  induction bytes with
  | nil => rfl
  | cons byte bytes induction =>
      rw [List.cons_append, List.takeWhile_cons, List.takeWhile_cons, induction]

def text : List (BitVec 8) := call.str.takeWhile (· ≠ 0#8)

theorem text_plain : 0#8 ∉ call.text := by
  intro member
  have plain := List.mem_takeWhile_imp member
  simp at plain

theorem tmpConstStr_string (string : call.callee.isMemcmp = false)
    {constStr : List (BitVec 8)}
    (transformed : call.tmpConstStr = some constStr) :
    constStr = call.text ++ [0#8] := by
  unfold tmpConstStr at transformed
  rw [string] at transformed
  split at transformed
  · cases transformed
  · rw [if_neg Bool.false_ne_true] at transformed
    extract_lets terminated at transformed
    obtain rfl := Option.some.inj transformed
    have member : 0#8 ∈ terminated := by
      unfold terminated
      split
      · rename_i last
        exact List.mem_of_getLast? last
      · exact List.mem_append_right _ (List.mem_singleton_self _)
    rw [take_findIdx_nul member]
    unfold terminated
    split
    · rfl
    · rw [takeWhile_append_nul]
      rfl

end SelectedCall

end CompareTransform

end AFLPlusPlus
