import AFLPlusPlus.Instrumentation.CompareChain

/-!
# String comparisons

The functions of the C library compare the first bytes that differ as unsigned
numbers.  The chain of the pass finds the same bytes, but keeps only eight bits
of their difference and takes them as a signed number.
-/

namespace AFLPlusPlus

/-- The difference of the first bytes that differ, where a string is followed
by its NUL; 0 when there are none. -/
def firstDifference (fold : BitVec 8 → BitVec 8) :
    List (BitVec 8) → List (BitVec 8) → Int
  | [], [] => 0
  | [], second :: _ => -(fold second).toNat
  | first :: _, [] => (fold first).toNat
  | first :: firsts, second :: seconds =>
      if fold first = fold second then firstDifference fold firsts seconds
      else (fold first).toNat - (fold second).toNat

/-- A string in memory. -/
structure TerminatedString where
  memory : Nat → BitVec 8
  text : List (BitVec 8)
  plain : 0#8 ∉ text
  spelled : ∀ i byte, text[i]? = some byte → memory i = byte
  terminated : memory text.length = 0#8

namespace CompareTransform

/-- Whether the function compares strings. -/
def Callee.comparesStrings {width : Nat} : Callee width → Bool
  | .strcmp | .strcasecmp | .strncmp _ | .strncasecmp _ => true
  | .memcmp _ | .bcmp _ => false

/-- How many bytes the function compares at most. -/
def Callee.bound {width : Nat} (callee : Callee width) (size : BitVec width) :
    Option Nat :=
  match callee with
  | .strcmp | .strcasecmp => none
  | .memcmp (.constantInt value) | .bcmp (.constantInt value)
  | .strncmp (.constantInt value) | .strncasecmp (.constantInt value) =>
      some value.toNat
  | .memcmp .runtime | .bcmp .runtime | .strncmp .runtime
  | .strncasecmp .runtime => some size.toNat

/-- The part of a string that is compared. -/
def cut (bound : Option Nat) (text : List (BitVec 8)) : List (BitVec 8) :=
  match bound with
  | none => text
  | some n => text.take n

namespace SelectedCall

variable {width : Nat} (call : SelectedCall width)

/-- The difference between the constant and another string, in the order of the
arguments. -/
def ordered (const other : List (BitVec 8)) : Int :=
  if call.hasStr1 then firstDifference call.fold const other
  else firstDifference call.fold other const

/-- The difference that decides the result of the replaced call. -/
def difference (size : BitVec width) (other : List (BitVec 8)) : Int :=
  call.ordered (cut (call.callee.bound size) call.text)
    (cut (call.callee.bound size) other)

theorem fold_zero : call.fold 0#8 = 0#8 := by
  unfold fold
  split <;> decide

theorem tolower_ne_zero {byte : BitVec 8} (nonzero : byte ≠ 0#8) :
    tolower byte ≠ 0#8 := by
  unfold tolower
  split
  · rename_i upper
    intro zero
    have value := congrArg BitVec.toNat zero
    rw [BitVec.toNat_add] at value
    simp at value
    omega
  · exact nonzero

theorem fold_ne_zero {byte : BitVec 8} (nonzero : byte ≠ 0#8) :
    call.fold byte ≠ 0#8 := by
  unfold fold
  split
  · exact tolower_ne_zero nonzero
  · exact nonzero

def byteDifference (c load : BitVec 8) : Int :=
  if call.hasStr1 then c.toNat - load.toNat else load.toNat - c.toNat

theorem isub_eq_ofInt (c load : BitVec 8) :
    call.isub c load = BitVec.ofInt 8 (call.byteDifference c load) := by
  have difference : ∀ first second : BitVec 8,
      first - second = BitVec.ofInt 8 (first.toNat - second.toNat) := by
    intro first second
    apply BitVec.eq_of_toNat_eq
    rw [BitVec.toNat_sub, BitVec.toNat_ofInt]
    omega
  unfold isub byteDifference
  split
  · exact difference c load
  · exact difference load c

@[simp] theorem ordered_nil : call.ordered [] [] = 0 := by
  simp [ordered, firstDifference]

theorem ordered_nil_cons (byte : BitVec 8) (bytes : List (BitVec 8)) :
    call.ordered [] (byte :: bytes) =
      call.byteDifference (call.fold 0#8) (call.fold byte) := by
  rw [fold_zero]
  simp [ordered, firstDifference, byteDifference]

theorem ordered_cons_nil (byte : BitVec 8) (bytes : List (BitVec 8)) :
    call.ordered (byte :: bytes) [] =
      call.byteDifference (call.fold byte) (call.fold 0#8) := by
  rw [fold_zero]
  simp [ordered, firstDifference, byteDifference]

theorem ordered_cons_cons (const other : BitVec 8)
    (consts others : List (BitVec 8)) :
    call.ordered (const :: consts) (other :: others) =
      if call.fold const = call.fold other then call.ordered consts others
      else call.byteDifference (call.fold const) (call.fold other) := by
  unfold ordered byteDifference
  cases call.hasStr1 with
  | true => rfl
  | false =>
      simp only [firstDifference, Bool.false_eq_true, if_false,
        eq_comm (a := call.fold const)]

/-- The chain without checks of the size ends with the first difference within
its length, and loads nothing behind the end of the string. -/
theorem run_blocksFrom (size : BitVec width) (varStr : Nat → BitVec 8)
    (const other : List (BitVec 8)) (plain : 0#8 ∉ const)
    (otherPlain : 0#8 ∉ other) (i left : Nat)
    (spelled : ∀ k byte, (other ++ [0#8])[k]? = some byte → varStr (i + k) = byte) :
    (call.run size varStr (call.blocksFrom false i ((const ++ [0#8]).take left))).phi =
      (BitVec.ofInt 8
        (call.ordered (const.take left) (other.take left))).signExtend 32 ∧
    ∀ load ∈ (call.run size varStr
        (call.blocksFrom false i ((const ++ [0#8]).take left))).loads,
      load ≤ i + other.length := by
  induction const generalizing other i left with
  | nil =>
      cases left with
      | zero => simp [run]
      | succ left =>
          rw [List.nil_append, List.take_succ_cons, List.take_nil,
            List.take_nil, blocksFrom_cons, run_cmpAdded, blocksFrom_nil, run]
          cases other with
          | nil =>
              have load : varStr i = 0#8 := spelled 0 0#8 rfl
              rw [load, if_pos ((call.isub_eq_zero_iff _ _).mpr rfl)]
              simp
          | cons byte other =>
              have load : varStr i = byte := spelled 0 byte rfl
              have nonzero : byte ≠ 0#8 :=
                fun zero => otherPlain (zero ▸ List.mem_cons_self)
              have differ : call.isub (call.fold 0#8) (call.fold byte) ≠ 0#8 := by
                rw [Ne, isub_eq_zero_iff, fold_zero]
                exact (call.fold_ne_zero nonzero).symm
              rw [load, if_neg differ, List.take_succ_cons, ordered_nil_cons,
                isub_eq_ofInt]
              simp
  | cons byte const induction =>
      cases left with
      | zero => simp [run]
      | succ left =>
          rw [List.cons_append, List.take_succ_cons, List.take_succ_cons,
            blocksFrom_cons, run_cmpAdded]
          cases other with
          | nil =>
              have load : varStr i = 0#8 := spelled 0 0#8 rfl
              have nonzero : byte ≠ 0#8 :=
                fun zero => plain (zero ▸ List.mem_cons_self)
              have differ : call.isub (call.fold byte) (call.fold 0#8) ≠ 0#8 := by
                rw [Ne, isub_eq_zero_iff, fold_zero]
                exact call.fold_ne_zero nonzero
              rw [load, if_neg differ, List.take_nil, ordered_cons_nil, isub_eq_ofInt]
              simp
          | cons first other =>
              have load : varStr i = first := spelled 0 first rfl
              rw [load, List.take_succ_cons, ordered_cons_cons]
              by_cases same : call.fold byte = call.fold first
              · rw [if_pos ((call.isub_eq_zero_iff _ _).mpr same), if_pos same]
                obtain ⟨phi, loads⟩ := induction other
                  (fun member => plain (List.mem_cons_of_mem _ member))
                  (fun member => otherPlain (List.mem_cons_of_mem _ member))
                  (i + 1) left (fun k byte found => by
                    rw [Nat.add_assoc, Nat.add_comm 1]
                    exact spelled (k + 1) byte found)
                refine ⟨phi, fun load member => ?_⟩
                rw [List.length_cons]
                rcases List.mem_cons.mp member with rfl | later
                · omega
                · have bounded := loads load later
                  omega
              · rw [if_neg (mt (call.isub_eq_zero_iff _ _).mp same),
                  if_neg same, isub_eq_ofInt]
                refine ⟨rfl, fun load member => ?_⟩
                rw [List.mem_singleton.mp member]
                exact Nat.le_add_right _ _

/-- The result of a chain for a string function. -/
theorem chain_run (strings : call.callee.comparesStrings = true)
    {blocks : List ChainBlock} (emitted : call.chain = some blocks)
    (size : BitVec width) (other : TerminatedString) :
    (call.run size other.memory blocks).phi =
        (BitVec.ofInt 8 (call.difference size other.text)).signExtend 32 ∧
      ∀ load ∈ (call.run size other.memory blocks).loads,
        load ≤ other.text.length := by
  have spelled : ∀ k byte, (other.text ++ [0#8])[k]? = some byte →
      other.memory (0 + k) = byte := by
    intro k byte found
    rw [Nat.zero_add]
    rcases Nat.lt_or_ge k other.text.length with inside | outside
    · rw [List.getElem?_append_left inside] at found
      exact other.spelled k byte found
    · rw [List.getElem?_append_right outside, List.getElem?_singleton] at found
      split at found
      · rename_i last
        obtain rfl : k = other.text.length := by omega
        rw [other.terminated, Option.some.inj found]
      · cases found
  have run : ∀ left, _ := fun left => call.run_blocksFrom size other.memory
    call.text other.text call.text_plain other.plain 0 left spelled
  simp only [Nat.zero_add] at run
  unfold chain at emitted
  split at emitted
  · obtain ⟨constStr, transformed, rfl⟩ := Option.map_eq_some_iff.mp emitted
    have string : call.callee.isMemcmp = false := by
      cases callee : call.callee <;> rw [callee] at strings <;>
        first
        | rfl
        | cases strings
    obtain rfl := call.tmpConstStr_string string transformed
    unfold difference checksSize unrollLen
    have whole : (call.text ++ [0#8]).take (call.text ++ [0#8]).length =
        (call.text ++ [0#8]).take (call.text.length + 1 + other.text.length) := by
      rw [List.take_length, List.take_of_length_le]
      rw [List.length_append, List.length_singleton]
      omega
    have both := run (call.text.length + 1 + other.text.length)
    rw [List.take_of_length_le (show call.text.length ≤ _ by omega),
      List.take_of_length_le (show other.text.length ≤ _ by omega),
      ← whole] at both
    cases callee : call.callee with
    | strcmp => exact both
    | strcasecmp => exact both
    | memcmp _ => rw [callee] at strings; cases strings
    | bcmp _ => rw [callee] at strings; cases strings
    | strncmp operand | strncasecmp operand =>
        cases operand with
        | constantInt value =>
            dsimp only [Callee.sizedValue, Callee.bound, cut]
            rw [← List.take_eq_take_min]
            exact run value.toNat
        | runtime =>
            dsimp only [Callee.sizedValue, Callee.bound, cut]
            rw [call.run_checked size other.memory _ 0 size.toNat (by omega),
              List.take_length]
            exact run size.toNat
  · cases emitted

theorem firstDifference_bounds (fold : BitVec 8 → BitVec 8)
    (first second : List (BitVec 8)) :
    -255 ≤ firstDifference fold first second ∧
      firstDifference fold first second ≤ 255 := by
  fun_induction firstDifference fold first second with
  | case1 => omega
  | case2 byte _ =>
      have bounded := (fold byte).isLt
      omega
  | case3 byte _ =>
      have bounded := (fold byte).isLt
      omega
  | case4 first _ second _ _ induction => exact induction
  | case5 first _ second _ _ =>
      have bounded := (fold first).isLt
      have otherBounded := (fold second).isLt
      omega

theorem difference_bounds (size : BitVec width) (other : List (BitVec 8)) :
    -255 ≤ call.difference size other ∧ call.difference size other ≤ 255 := by
  unfold difference ordered
  split <;> exact firstDifference_bounds _ _ _

theorem sign_signExtend_iff {difference : Int} (above : -255 ≤ difference)
    (below : difference ≤ 255) :
    ((BitVec.ofInt 8 difference).signExtend 32).toInt.sign = difference.sign ↔
      -128 ≤ difference ∧ difference ≤ 127 := by
  rw [BitVec.toInt_signExtend_of_le (by decide), BitVec.toInt_ofInt]
  constructor
  · intro same
    by_contra outside
    rcases Int.lt_or_le difference 0 with negative | nonnegative
    · have wrapped : difference.bmod (2 ^ 8) = difference + 256 := by
        rw [Int.bmod_def]
        split <;> omega
      rw [wrapped, Int.sign_eq_neg_one_of_neg negative,
        Int.sign_eq_one_of_pos (show 0 < difference + 256 by omega)] at same
      omega
    · have wrapped : difference.bmod (2 ^ 8) = difference - 256 := by
        rw [Int.bmod_def]
        split <;> omega
      rw [wrapped, Int.sign_eq_neg_one_of_neg (show difference - 256 < 0 by omega),
        Int.sign_eq_one_of_pos (show 0 < difference by omega)] at same
      omega
  · rintro ⟨low, high⟩
    have kept : difference.bmod (2 ^ 8) = difference := by
      rw [Int.bmod_def]
      split <;> omega
    rw [kept]

/-- The chain has the sign of the replaced call, and loads no byte behind the
end of the other string. -/
def PreservesOrder (blocks : List ChainBlock) (size : BitVec width)
    (other : TerminatedString) : Prop :=
  (call.run size other.memory blocks).phi.toInt.sign =
      (call.difference size other.text).sign ∧
    ∀ load ∈ (call.run size other.memory blocks).loads, load ≤ other.text.length

/-- The order is preserved exactly when the first difference fits into a signed
byte. -/
theorem chain_preservesOrder_iff
    (strings : call.callee.comparesStrings = true) {blocks : List ChainBlock}
    (emitted : call.chain = some blocks) (size : BitVec width)
    (other : TerminatedString) :
    call.PreservesOrder blocks size other ↔
      -128 ≤ call.difference size other.text ∧
        call.difference size other.text ≤ 127 := by
  obtain ⟨phi, loads⟩ := call.chain_run strings emitted size other
  obtain ⟨above, below⟩ := call.difference_bounds size other.text
  unfold PreservesOrder
  rw [phi, sign_signExtend_iff above below]
  exact and_iff_left loads

/-- `strcmp(x, "ab")` -/
def compareWithAb : SelectedCall 64 where
  callee := .strcmp
  hasStr1 := false
  str := [97#8, 98#8]

/-- A string of one byte. -/
def singleByte (byte : BitVec 8) (nonzero : byte ≠ 0#8) : TerminatedString where
  memory := fun i => if i = 0 then byte else 0#8
  text := [byte]
  plain := fun member => nonzero (List.mem_singleton.mp member).symm
  spelled := by
    intro i other found
    rw [List.getElem?_singleton] at found
    split at found
    · rename_i first
      rw [if_pos first]
      exact Option.some.inj found
    · cases found
  terminated := rfl

theorem chain_preservesOrder_c :
    compareWithAb.PreservesOrder
      [.cmpAdded 0 97#8, .cmpAdded 1 98#8, .cmpAdded 2 0#8] 0#64
      (singleByte 99#8 (by decide)) :=
  (chain_preservesOrder_iff compareWithAb rfl (by decide) 0#64
    (singleByte 99#8 (by decide))).mpr (by decide)

/-- The byte 240 is 143 above the letter `a`, and the chain returns -113. -/
theorem chain_not_preservesOrder_highByte :
    compareWithAb.chain = some [.cmpAdded 0 97#8, .cmpAdded 1 98#8, .cmpAdded 2 0#8] ∧
      ¬compareWithAb.PreservesOrder
        [.cmpAdded 0 97#8, .cmpAdded 1 98#8, .cmpAdded 2 0#8] 0#64
        (singleByte 240#8 (by decide)) := by
  refine ⟨by decide, fun preserves => ?_⟩
  have sign : (-1 : Int) = 1 := preserves.1
  exact absurd sign (by decide)

end SelectedCall

end CompareTransform

end AFLPlusPlus
