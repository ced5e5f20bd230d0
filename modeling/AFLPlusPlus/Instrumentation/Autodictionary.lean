import AFLPlusPlus.Config
import Mathlib.Data.List.Destutter

/-!
# The dictionary the LTO pass writes

`SanitizerCoverageLTO` collects constants of compares and strings of compare
functions, sorts them, and writes those that fit into one array, each with a
length byte before it.
-/

namespace AFLPlusPlus

/-- A token of the dictionary.  The pass collects none that is shorter. -/
structure Token where
  bytes : List (BitVec 8)
  notTooShort : minAutoExtra ≤ bytes.length
  fitsLengthByte : bytes.length ≤ 255
  deriving DecidableEq

/-- The token of a compare with a constant: the first 8 or 4 bytes of `val`. -/
def Token.ofConstant (val : BitVec 64) (wide : Bool) : Token where
  bytes := (List.range (if wide then 8 else 4)).map fun index =>
    val.extractLsb' (8 * index) 8
  notTooShort := by cases wide <;> simp [minAutoExtra]
  fitsLengthByte := by cases wide <;> simp

/-- The token of a compare function: `thestring.substr(0, optLen)`, unless it
is too short. -/
def Token.ofString (thestring : List (BitVec 8)) : Option Token :=
  let optLen := min thestring.length maxAutoExtra
  if long : minAutoExtra ≤ optLen then
    some
      { bytes := thestring.take optLen
        notTooShort := by
          rw [List.length_take_of_le (Nat.min_le_left _ _)]
          exact long
        fitsLengthByte := by
          rw [List.length_take_of_le (Nat.min_le_left _ _)]
          exact Nat.le_trans (Nat.min_le_right _ _) (by decide) }
  else none

/-- A constant or a string, as the pass collects it. -/
def Token.collect : (BitVec 64 × Bool) ⊕ List (BitVec 8) → Option Token
  | .inl (val, wide) => some (ofConstant val wide)
  | .inr thestring => ofString thestring

theorem Token.length_collect {item} {token : Token} (made : collect item = some token) :
    token.bytes.length ≤ maxAutoExtra := by
  rcases item with ⟨val, wide⟩ | thestring
  · cases made
    cases wide <;> simp [ofConstant, maxAutoExtra]
  · simp only [collect, ofString] at made
    split at made
    · cases made
      exact (List.length_take_le _ _).trans (Nat.min_le_right _ _)
    · cases made

/-- `std::sort` and `std::unique` on the collected strings. -/
def sortAndUnique (dictionary : List Token) : List Token :=
  (dictionary.mergeSort fun left right =>
    decide (left.bytes ≤ right.bytes)).destutter (· ≠ ·)

/-- The state of the loop that fills the array. -/
structure DictionaryArray where
  ptr : List (BitVec 8)
  offset : Nat
  count : Nat
  /-- the tokens written so far -/
  kept : List Token

/-- One token in the loop. -/
def DictionaryArray.add (array : DictionaryArray) (token : Token) :
    DictionaryArray :=
  if array.offset + token.bytes.length < 0xfffff0 ∧ array.count < maxAutoExtras then
    { ptr := array.ptr ++ BitVec.ofNat 8 token.bytes.length :: token.bytes
      offset := array.offset + 1 + token.bytes.length
      count := array.count + 1
      kept := array.kept ++ [token] }
  else array

/-- The array written for a collected dictionary. -/
def dictionaryArray (dictionary : List Token) : DictionaryArray :=
  (sortAndUnique dictionary).foldl DictionaryArray.add ⟨[], 0, 0, []⟩

/-- Tokens one after the other, each after its length. -/
def frames (tokens : List (List (BitVec 8))) : List (BitVec 8) :=
  tokens.flatMap fun bytes => BitVec.ofNat 8 bytes.length :: bytes

@[simp] theorem frames_nil : frames [] = [] := rfl

theorem frames_cons (bytes : List (BitVec 8))
    (tokens : List (List (BitVec 8))) :
    frames (bytes :: tokens) =
      BitVec.ofNat 8 bytes.length :: (bytes ++ frames tokens) := by
  simp [frames]

theorem frames_append (first second : List (List (BitVec 8))) :
    frames (first ++ second) = frames first ++ frames second := by
  simp [frames]

/-- The array consists of the tokens kept, and its length is in bounds. -/
structure DictionaryArray.Holds (array : DictionaryArray) : Prop where
  ptr : array.ptr = frames (array.kept.map Token.bytes)
  offset : array.offset = array.ptr.length
  bounded : array.offset ≤ 0xfffff0

theorem DictionaryArray.Holds.add {array : DictionaryArray}
    (holds : array.Holds) (token : Token) : (array.add token).Holds := by
  unfold DictionaryArray.add
  split
  · rename_i fits
    obtain ⟨small, _⟩ := fits
    constructor
    · dsimp only
      rw [List.map_append, frames_append, holds.ptr, List.map_singleton,
        frames_cons, frames_nil, List.append_nil]
    · dsimp only
      rw [List.length_append, List.length_cons, ← holds.offset]
      omega
    · dsimp only
      omega
  · exact holds

theorem DictionaryArray.Holds.foldl {array : DictionaryArray}
    (holds : array.Holds) (tokens : List Token) :
    (tokens.foldl DictionaryArray.add array).Holds := by
  induction tokens generalizing array with
  | nil => exact holds
  | cons token tokens induction => exact induction (holds.add token)

variable (dictionary : List Token)

theorem dictionaryArray_holds : (dictionaryArray dictionary).Holds :=
  DictionaryArray.Holds.foldl ⟨rfl, rfl, by decide⟩ _

theorem DictionaryArray.kept_prefix (tokens : List Token)
    (array : DictionaryArray) :
    array.kept <+: (tokens.foldl DictionaryArray.add array).kept := by
  induction tokens generalizing array with
  | nil => exact List.prefix_refl _
  | cons token tokens induction =>
      have first : array.kept <+: (array.add token).kept := by
        unfold DictionaryArray.add
        split
        · exact List.prefix_append _ _
        · exact List.prefix_refl _
      exact first.trans (induction _)

/-- For tokens of this length the array is never too small. -/
theorem DictionaryArray.kept_foldl {tokens : List Token}
    (short : ∀ token ∈ tokens, token.bytes.length ≤ maxAutoExtra)
    {array : DictionaryArray} (small : array.offset ≤ 33 * array.count) :
    (tokens.foldl DictionaryArray.add array).kept =
      array.kept ++ tokens.take (maxAutoExtras - array.count) := by
  induction tokens generalizing array with
  | nil => simp
  | cons token tokens induction =>
      have later := fun other member => short other (.tail _ member)
      have length : token.bytes.length ≤ 32 := short token List.mem_cons_self
      rw [List.foldl_cons]
      by_cases room : array.count < maxAutoExtras
      · have left : maxAutoExtras - array.count =
            maxAutoExtras - (array.count + 1) + 1 := by omega
        have few : array.count < 8192 := room
        rw [DictionaryArray.add, if_pos ⟨by omega, room⟩, induction later (by simp; omega),
          List.append_assoc, left]
        rfl
      · rw [DictionaryArray.add, if_neg fun both => room both.2, induction later small,
          Nat.sub_eq_zero_of_le (Nat.le_of_not_lt room), List.take_zero, List.take_zero]

theorem dictionaryArray_kept_ne_nil {dictionary : List Token}
    (collected : dictionary ≠ []) :
    (dictionaryArray dictionary).kept ≠ [] := by
  have left : sortAndUnique dictionary ≠ [] := by
    unfold sortAndUnique
    rw [ne_eq, List.destutter_eq_nil, ← List.length_eq_zero_iff,
      List.length_mergeSort, List.length_eq_zero_iff]
    exact collected
  obtain ⟨token, tokens, sorted⟩ := List.exists_cons_of_ne_nil left
  have first : (DictionaryArray.add ⟨[], 0, 0, []⟩ token).kept = [token] := by
    have short := token.fitsLengthByte
    unfold DictionaryArray.add
    rw [if_pos ⟨by dsimp only; omega, by decide⟩]
    rfl
  have keeps := DictionaryArray.kept_prefix tokens
    (DictionaryArray.add ⟨[], 0, 0, []⟩ token)
  rw [first] at keeps
  unfold dictionaryArray
  rw [sorted, List.foldl_cons]
  intro none
  rw [none] at keeps
  exact absurd (List.prefix_nil.mp keeps) (List.cons_ne_nil token [])

theorem dictionaryArray_ptr_eq_nil :
    (dictionaryArray dictionary).ptr = [] ↔ dictionary = [] := by
  constructor
  · intro empty
    by_contra collected
    obtain ⟨token, tokens, kept⟩ :=
      List.exists_cons_of_ne_nil (dictionaryArray_kept_ne_nil collected)
    rw [(dictionaryArray_holds dictionary).ptr, kept, List.map_cons,
      frames_cons] at empty
    cases empty
  · rintro rfl
    simp [dictionaryArray, sortAndUnique]

theorem dictionaryArray_length (collected : dictionary ≠ []) :
    2 ≤ (dictionaryArray dictionary).ptr.length ∧
      (dictionaryArray dictionary).ptr.length ≤ 0xffffff := by
  have holds := dictionaryArray_holds dictionary
  have offset := holds.offset
  have bounded := holds.bounded
  obtain ⟨token, tokens, kept⟩ :=
    List.exists_cons_of_ne_nil (dictionaryArray_kept_ne_nil collected)
  have long := token.notTooShort
  have length := congrArg List.length holds.ptr
  rw [kept, List.map_cons, frames_cons, List.length_cons, List.length_append]
    at length
  unfold minAutoExtra at long
  omega

end AFLPlusPlus
