import AFLPlusPlus.Support.Buffer
import AFLPlusPlus.Support.Loops
import Mathlib.Tactic.IntervalCases

/-!
# Base64

The stage for encoded comparisons turns a token into its base64 text and back.
Both directions work on blocks of three bytes and four characters, and each takes
the length of its result.
-/

namespace AFLPlusPlus.Redqueen

/-- `'='` -/
def base64Pad : BitVec 8 := 61#8

/-- A case of `is_base64`. -/
def isBase64Char (char : BitVec 8) : Bool :=
  (48#8 ≤ char && char ≤ 57#8) || (65#8 ≤ char && char ≤ 90#8) ||
    (97#8 ≤ char && char ≤ 122#8) || char == 43#8 || char == 47#8 ||
      char == base64Pad

/-- `is_base64` tests 4 bytes. -/
def isBase64 (str : Buffer) (location : Nat) : Bool :=
  (List.range 4).all fun i => isBase64Char (str (location + i))

def base64EncodeTable : List (BitVec 8) :=
  ("ABCDEFGHIJKLMNOPQRSTUVWXYZabcdefghijklmnopqrstuvwxyz0123456789+/".toList).map
    fun char => BitVec.ofNat 8 char.toNat

def base64DecodeTable : List (BitVec 8) := [
  62, 0,  0,  0,  63, 52, 53, 54, 55, 56, 57, 58, 59, 60, 61, 0,
  0,  0,  0,  0,  0,  0,  0,  1,  2,  3,  4,  5,  6,  7,  8,  9,
  10, 11, 12, 13, 14, 15, 16, 17, 18, 19, 20, 21, 22, 23, 24, 25,
  0,  0,  0,  0,  0,  0,  26, 27, 28, 29, 30, 31, 32, 33, 34, 35,
  36, 37, 38, 39, 40, 41, 42, 43, 44, 45, 46, 47, 48, 49, 50, 51]

/-- A character is looked up outside of the table. -/
inductive OutOfTable where
  | outOfTable

/-- `base64_decode_table[char - 43]` -/
def base64Digit (char : BitVec 8) : Except OutOfTable (BitVec 32) :=
  if 43 ≤ char.toNat then
    match base64DecodeTable[char.toNat - 43]? with
    | some digit => .ok (digit.setWidth 32)
    | none => .error .outOfTable
  else .error .outOfTable

/-- A character that may be `'='`, behind the ones in front of it. -/
def base64Next (v : BitVec 32) (char : BitVec 8) : Except OutOfTable (BitVec 32) :=
  if char = base64Pad then .ok (v <<< 6)
  else do
    let digit ← base64Digit char
    .ok (v <<< 6 ||| digit)

/-- What `from_base64` writes, and how many bytes. -/
structure FromBase64 where
  dst : Buffer
  ret : BitVec 32

def FromBase64.put (state : FromBase64) (j : Nat) (v : BitVec 32) : FromBase64 where
  dst := Function.update state.dst j ((v &&& 0xff#32).setWidth 8)
  ret := state.ret + 1#32

/-- A round of `from_base64`, on block number `block`. -/
def fromBase64Block (src : Buffer) (block : Nat) (state : FromBase64) :
    Except OutOfTable FromBase64 := do
  let i := 4 * block
  let j := 3 * block
  let v ← base64Digit (src i)
  let digit ← base64Digit (src (i + 1))
  let v := v <<< 6 ||| digit
  let v ← base64Next v (src (i + 2))
  let v ← base64Next v (src (i + 3))
  let state := state.put j (v >>> 16)
  let state :=
    if src (i + 2) ≠ base64Pad then state.put (j + 1) (v >>> 8) else state
  let state := if src (i + 3) ≠ base64Pad then state.put (j + 2) v else state
  .ok state

def fromBase64 (src dst : Buffer) (dstLen : BitVec 32) :
    Except OutOfTable FromBase64 :=
  let len := (dstLen / 3#32) <<< 2
  forRangeM (fromBase64Block src) ((len.toNat + 3) / 4) ⟨dst, 0#32⟩

/-- `base64_encode_table[v & 0x3F]` -/
def base64Char (v : BitVec 32) : BitVec 8 :=
  base64EncodeTable.getD (v &&& 0x3f#32).toNat 0#8

/-- A byte behind the ones in front of it, if it is one of `len` bytes. -/
def byteNext (src : Buffer) (len i : Nat) (v : BitVec 32) : BitVec 32 :=
  if i < len then v <<< 8 ||| (src i).setWidth 32 else v <<< 8

/-- A round of `to_base64`, on block number `block`. -/
def toBase64Block (src : Buffer) (len block : Nat) (dst : Buffer) : Buffer :=
  let i := 3 * block
  let j := 4 * block
  let v := (src i).setWidth 32
  let v := byteNext src len (i + 1) v
  let v := byteNext src len (i + 2) v
  let dst := Function.update dst j (base64Char (v >>> 18))
  let dst := Function.update dst (j + 1) (base64Char (v >>> 12))
  let dst := Function.update dst (j + 2)
    (if i + 1 < len then base64Char (v >>> 6) else base64Pad)
  Function.update dst (j + 3) (if i + 2 < len then base64Char v else base64Pad)

def toBase64 (src dst : Buffer) (dstLen : BitVec 32) : Buffer :=
  let len := (dstLen >>> 2) * 3#32
  forRange (toBase64Block src len.toNat) ((len.toNat + 2) / 3) dst

def digitOf (char : BitVec 8) : BitVec 32 :=
  (base64DecodeTable.getD (char.toNat - 43) 0#8).setWidth 32

theorem base64Digit_eq : ∀ char, isBase64Char char = true →
    base64Digit char = .ok (digitOf char) ∧ (digitOf char).toNat < 64 ∧
      (char ≠ base64Pad → base64Char (digitOf char) = char) := by
  have all : ∀ char, isBase64Char char = true → 43 ≤ char.toNat ∧
      char.toNat - 43 < base64DecodeTable.length ∧
        (digitOf char).toNat < 64 ∧
          (char ≠ base64Pad → base64Char (digitOf char) = char) := by
    decide +kernel
  intro char accepted
  obtain ⟨least, inside, small, encodes⟩ := all char accepted
  refine ⟨?_, small, encodes⟩
  rw [base64Digit, if_pos least, digitOf, List.getD_eq_getElem?_getD,
    List.getElem?_eq_getElem inside]
  rfl

theorem base64Char_digit (v : BitVec 32) :
    isBase64Char (base64Char v) = true ∧ base64Char v ≠ base64Pad ∧
      (digitOf (base64Char v)).toNat = v.toNat % 64 := by
  have all : ∀ digit < 64,
      isBase64Char (base64EncodeTable.getD digit 0#8) = true ∧
        base64EncodeTable.getD digit 0#8 ≠ base64Pad ∧
          (digitOf (base64EncodeTable.getD digit 0#8)).toNat = digit := by
    decide +kernel
  have isMask : (0x3f#32).toNat = 2 ^ 6 - 1 := rfl
  unfold base64Char
  rw [BitVec.toNat_and, isMask, Nat.and_two_pow_sub_one_eq_mod]
  exact all _ (Nat.mod_lt _ (by decide))

theorem toNat_join (shift : Nat) (v : BitVec 32) {digit : BitVec 32}
    (small : digit.toNat < 2 ^ shift)
    (room : v.toNat * 2 ^ shift < 2 ^ 32) :
    (v <<< shift ||| digit).toNat = v.toNat * 2 ^ shift + digit.toNat := by
  rw [BitVec.toNat_or, BitVec.toNat_shiftLeft, Nat.shiftLeft_eq,
    Nat.mod_eq_of_lt room, ← Nat.shiftLeft_eq,
    Nat.shiftLeft_add_eq_or_of_lt small]

/-- The number that four characters without padding stand for. -/
def decodedWord (src : Buffer) (block : Nat) : BitVec 32 :=
  ((digitOf (src (4 * block)) <<< 6 ||| digitOf (src (4 * block + 1))) <<< 6 |||
    digitOf (src (4 * block + 2))) <<< 6 ||| digitOf (src (4 * block + 3))

variable {src : Buffer} {block : Nat}

theorem accepted_char (accepted : isBase64 src (4 * block) = true) {i : Nat}
    (inside : i < 4) :
    isBase64Char (src (4 * block + i)) = true :=
  List.all_eq_true.mp accepted i (List.mem_range.mpr inside)

theorem toNat_decodedWord (accepted : isBase64 src (4 * block) = true) :
    (decodedWord src block).toNat =
      2 ^ 18 * (digitOf (src (4 * block))).toNat +
        2 ^ 12 * (digitOf (src (4 * block + 1))).toNat +
        2 ^ 6 * (digitOf (src (4 * block + 2))).toNat +
        (digitOf (src (4 * block + 3))).toNat := by
  have small : ∀ i < 4, (digitOf (src (4 * block + i))).toNat < 2 ^ 6 :=
    fun i inside => (base64Digit_eq _ (accepted_char accepted inside)).2.1
  have small0 := small 0 (by omega)
  have small1 := small 1 (by omega)
  have small2 := small 2 (by omega)
  rw [Nat.add_zero] at small0
  have two := toNat_join 6 _ small1
    (show (digitOf (src (4 * block))).toNat * 2 ^ 6 < 2 ^ 32 by omega)
  have three := toNat_join 6 _ small2 (by rw [two]; omega)
  rw [decodedWord, toNat_join 6 _ (small 3 (by omega))
    (by rw [three, two]; omega), three, two]
  omega

theorem toNat_byte_shift (v : BitVec 32) (shift : Nat) :
    ((v >>> shift &&& 0xff#32).setWidth 8).toNat = v.toNat / 2 ^ shift % 2 ^ 8 := by
  have isMask : (0xff#32).toNat = 2 ^ 8 - 1 := rfl
  rw [BitVec.toNat_setWidth, BitVec.toNat_and, isMask,
    Nat.and_two_pow_sub_one_eq_mod, Nat.mod_mod, BitVec.toNat_ushiftRight,
    Nat.shiftRight_eq_div_pow]

/-- The bytes of a block that `from_base64` writes. -/
def FromBase64.Wrote (v : BitVec 32) (block : Nat) (next : FromBase64) : Prop :=
  ∀ t < 3, (next.dst (3 * block + t)).toNat = v.toNat / 2 ^ (16 - 8 * t) % 2 ^ 8

/-- What a round of `from_base64` does on characters that are accepted. -/
theorem fromBase64Block_spec (accepted : isBase64 src (4 * block) = true)
    (state : FromBase64) :
    ∃ next, fromBase64Block src block state = .ok next ∧
      next.ret.toNat ≤ state.ret.toNat + 3 ∧
      (∀ address, address < 3 * block ∨ 3 * block + 3 ≤ address →
        next.dst address = state.dst address) ∧
      (src (4 * block + 2) ≠ base64Pad → src (4 * block + 3) ≠ base64Pad →
        next.ret = state.ret + 3#32 ∧ next.Wrote (decodedWord src block) block) := by
  have digit : ∀ i < 4, base64Digit (src (4 * block + i)) =
      .ok (digitOf (src (4 * block + i))) :=
    fun i inside => (base64Digit_eq _ (accepted_char accepted inside)).1
  have digit0 := digit 0 (by omega)
  rw [Nat.add_zero] at digit0
  have next (v : BitVec 32) (i : Nat) (inside : i < 4) :
      base64Next v (src (4 * block + i)) =
        .ok (if src (4 * block + i) = base64Pad then v <<< 6
          else v <<< 6 ||| digitOf (src (4 * block + i))) := by
    unfold base64Next
    split
    · rfl
    · rw [digit i inside]
      rfl
  simp only [fromBase64Block, digit0, digit 1 (by omega), next _ 2 (by omega),
    next _ 3 (by omega), ok_bind]
  refine ⟨_, rfl, ?_, ?_, ?_⟩
  · split_ifs <;> simp only [FromBase64.put] <;> bv_omega
  · intro address outside
    split_ifs <;> simp only [FromBase64.put] <;>
      simp only [Function.update_apply] <;> grind
  · intro second third
    simp only [second, third, if_false, ne_eq, not_false_eq_true, if_true]
    refine ⟨by simp only [FromBase64.put]; bv_omega, ?_⟩
    intro t inside
    rw [← toNat_byte_shift]
    congr 1
    interval_cases t <;> simp [FromBase64.put, decodedWord]

def encodedWord (src : Buffer) (block : Nat) : BitVec 32 :=
  ((src (3 * block)).setWidth 32 <<< 8 |||
    (src (3 * block + 1)).setWidth 32) <<< 8 |||
      (src (3 * block + 2)).setWidth 32

theorem toNat_encodedWord (src : Buffer) (block : Nat) :
    (encodedWord src block).toNat = 2 ^ 16 * (src (3 * block)).toNat +
      2 ^ 8 * (src (3 * block + 1)).toNat + (src (3 * block + 2)).toNat := by
  have wide (byte : BitVec 8) : (byte.setWidth 32).toNat = byte.toNat := by
    have small := byte.isLt
    rw [BitVec.toNat_setWidth, Nat.mod_eq_of_lt (by omega)]
  have small (byte : BitVec 8) : (byte.setWidth 32).toNat < 2 ^ 8 := by
    rw [wide]
    exact byte.isLt
  have first := small (src (3 * block))
  have second := small (src (3 * block + 1))
  have two := toNat_join 8 _ second
    (show ((src (3 * block)).setWidth 32).toNat * 2 ^ 8 < 2 ^ 32 by omega)
  rw [encodedWord, toNat_join 8 _ (small _) (by rw [two]; omega), two, wide,
    wide, wide]
  omega

/-- A round of `to_base64` with three bytes writes four characters. -/
theorem toBase64Block_spec {len : Nat} (inside : 3 * block + 2 < len) (dst : Buffer)
    (address : Nat) :
    toBase64Block src len block dst address =
      if 4 * block ≤ address ∧ address < 4 * block + 4 then
        base64Char (encodedWord src block >>> (18 - 6 * (address - 4 * block)))
      else dst address := by
  have second : 3 * block + 1 < len := by omega
  simp only [toBase64Block, byteNext, inside, second, if_true]
  rw [← encodedWord]
  split
  · rename_i here
    obtain ⟨t, rfl⟩ := Nat.exists_eq_add_of_le here.1
    have below : t < 4 := by omega
    interval_cases t <;> simp
  · simp only [Function.update_apply]
    grind

section Texts

variable {n : Nat} (room : 4 * n < 2 ^ 32)
include room

/-- What `to_base64` writes. -/
theorem toBase64_spec (src dst : Buffer) {t : Nat} (inside : block < n) (below : t < 4) :
    toBase64 src dst (BitVec.ofNat 32 (4 * n)) (4 * block + t) =
      base64Char (encodedWord src block >>> (18 - 6 * t)) := by
  have len : ((BitVec.ofNat 32 (4 * n) >>> 2) * 3#32).toNat = 3 * n := by
    have blocks : 4 * n / 2 ^ 2 = n := by omega
    have three : (3#32).toNat = 3 := rfl
    rw [BitVec.toNat_mul, BitVec.toNat_ushiftRight, BitVec.toNat_ofNat,
      Nat.mod_eq_of_lt room, Nat.shiftRight_eq_div_pow, blocks, three]
    omega
  have rounds : (3 * n + 2) / 3 = n := by omega
  simp only [toBase64, len, rounds]
  refine forRange_invariant _ (fun count out => ∀ block < count, ∀ t < 4,
    out (4 * block + t) = base64Char (encodedWord src block >>> (18 - 6 * t)))
    dst (by omega) n ?_ block inside t below
  intro count less out written block inside t below
  rw [toBase64Block_spec (by omega)]
  split
  · have isLast : block = count := by omega
    rw [isLast, Nat.add_sub_cancel_left]
  · exact written block (by omega) t below

/-- What `from_base64` does on a text that is accepted. -/
theorem fromBase64_spec (dst : Buffer)
    (accepted : ∀ block < n, isBase64 src (4 * block) = true) :
    ∃ out, fromBase64 src dst (BitVec.ofNat 32 (3 * n)) = .ok out ∧
      out.ret.toNat ≤ 3 * n ∧
      (∀ address, 3 * n ≤ address → out.dst address = dst address) ∧
      ((∀ i < 4 * n, src i ≠ base64Pad) → out.ret.toNat = 3 * n ∧
        ∀ block < n, out.Wrote (decodedWord src block) block) := by
  have len : ((BitVec.ofNat 32 (3 * n) / 3#32) <<< 2).toNat = 4 * n := by
    have blocks : 3 * n / 3 = n := by omega
    have three : (3#32).toNat = 3 := rfl
    rw [BitVec.toNat_shiftLeft, BitVec.toNat_udiv, BitVec.toNat_ofNat,
      Nat.mod_eq_of_lt (show 3 * n < 2 ^ 32 by omega), three, blocks,
      Nat.shiftLeft_eq]
    omega
  have rounds : (4 * n + 3) / 4 = n := by omega
  simp only [fromBase64, len, rounds]
  refine (forRangeM_yields (fromBase64Block src) (fun count out =>
    out.ret.toNat ≤ 3 * count ∧
      (∀ address, 3 * count ≤ address → out.dst address = dst address) ∧
      ((∀ i < 4 * count, src i ≠ base64Pad) → out.ret.toNat = 3 * count ∧
        ∀ block < count, out.Wrote (decodedWord src block) block))
    _ ⟨Nat.le_refl _, fun _ _ => rfl, fun _ => ⟨rfl, by omega⟩⟩ n ?_).returns
  intro count less out holds
  obtain ⟨few, kept, whole⟩ := holds
  obtain ⟨next, returns, few', kept', whole'⟩ :=
    fromBase64Block_spec (accepted count less) out
  rw [returns]
  refine ⟨by omega, ?_, ?_⟩
  · intro address above
    rw [kept' address (.inr (by omega)), kept address (by omega)]
  · intro unpadded
    obtain ⟨ret, wrote⟩ := whole fun i inside => unpadded i (by omega)
    obtain ⟨ret', wrote'⟩ := whole' (unpadded _ (by omega))
      (unpadded _ (by omega))
    refine ⟨by rw [ret']; bv_omega, ?_⟩
    intro block inside t below
    by_cases isLast : block = count
    · rw [isLast]
      exact wrote' t below
    · rw [kept' _ (.inl (by omega))]
      exact wrote block (by omega) t below

end Texts

/-- Characters that encode three bytes decode to these. -/
theorem decodedWord_encoded {text : Buffer} (written : ∀ t < 4, text (4 * block + t) =
      base64Char (encodedWord src block >>> (18 - 6 * t))) :
    isBase64 text (4 * block) = true ∧ (∀ t < 4, text (4 * block + t) ≠ base64Pad) ∧
      (decodedWord text block).toNat = (encodedWord src block).toNat := by
  have chars := fun t (below : t < 4) =>
    base64Char_digit (encodedWord src block >>> (18 - 6 * t))
  have accepted : isBase64 text (4 * block) = true := by
    apply List.all_eq_true.mpr
    intro t inside
    have below := List.mem_range.mp inside
    rw [written t below]
    exact (chars t below).1
  have digit : ∀ t < 4, (digitOf (text (4 * block + t))).toNat =
      (encodedWord src block).toNat / 2 ^ (18 - 6 * t) % 64 := by
    intro t below
    rw [written t below, (chars t below).2.2, BitVec.toNat_ushiftRight,
      Nat.shiftRight_eq_div_pow]
  refine ⟨accepted, ?_, ?_⟩
  · intro t below
    rw [written t below]
    exact (chars t below).2.1
  · have digit0 := digit 0 (by omega)
    have bytes := fun i => (src i).isLt
    have bound0 := bytes (3 * block)
    have bound1 := bytes (3 * block + 1)
    have bound2 := bytes (3 * block + 2)
    have word := toNat_encodedWord src block
    rw [Nat.add_zero] at digit0
    rw [toNat_decodedWord accepted, digit0, digit 1 (by omega),
      digit 2 (by omega), digit 3 (by omega)]
    omega

/-- Bytes of decoded characters encode to these. -/
theorem encodedWord_decoded {out : FromBase64}
    (accepted : isBase64 src (4 * block) = true)
    (wrote : out.Wrote (decodedWord src block) block) {t : Nat} (below : t < 4)
    (unpadded : src (4 * block + t) ≠ base64Pad) :
    base64Char (encodedWord out.dst block >>> (18 - 6 * t)) = src (4 * block + t) := by
  have digits := fun t (below : t < 4) =>
    base64Digit_eq _ (accepted_char accepted below)
  have small0 := (digits 0 (by omega)).2.1
  have small1 := (digits 1 (by omega)).2.1
  have small2 := (digits 2 (by omega)).2.1
  have small3 := (digits 3 (by omega)).2.1
  have wrote0 := wrote 0 (by omega)
  have wrote1 := wrote 1 (by omega)
  have wrote2 := wrote 2 (by omega)
  rw [Nat.add_zero] at small0 wrote0
  have word := toNat_decodedWord accepted
  have same : (encodedWord out.dst block).toNat = (decodedWord src block).toNat := by
    rw [toNat_encodedWord, wrote0, wrote1, wrote2]
    omega
  have low : encodedWord out.dst block >>> (18 - 6 * t) &&& 0x3f#32 =
      digitOf (src (4 * block + t)) &&& 0x3f#32 := by
    have isMask : (0x3f#32).toNat = 2 ^ 6 - 1 := rfl
    apply BitVec.eq_of_toNat_eq
    rw [BitVec.toNat_and, BitVec.toNat_and, isMask,
      Nat.and_two_pow_sub_one_eq_mod, Nat.and_two_pow_sub_one_eq_mod,
      BitVec.toNat_ushiftRight, Nat.shiftRight_eq_div_pow, same, word]
    interval_cases t <;> (try simp only [Nat.add_zero]) <;> omega
  rw [base64Char, low]
  exact (digits t below).2.2 unpadded

/-- Decoding what was encoded gives the bytes back, encoding what was decoded
gives an accepted text without padding back, and decoding an accepted text stays
inside of the table and of the room for its bytes. -/
theorem base64_bijective (n : Nat) (room : 4 * n < 2 ^ 32)
    (src encoded decoded : Buffer) :
    (∃ out, fromBase64 (toBase64 src encoded (BitVec.ofNat 32 (4 * n))) decoded
        (BitVec.ofNat 32 (3 * n)) = .ok out ∧ out.ret.toNat = 3 * n ∧
          ∀ i < 3 * n, out.dst i = src i) ∧
      ((∀ block < n, isBase64 src (4 * block) = true) →
        ∃ out, fromBase64 src decoded (BitVec.ofNat 32 (3 * n)) = .ok out ∧
          out.ret.toNat ≤ 3 * n ∧
          (∀ address, 3 * n ≤ address → out.dst address = decoded address) ∧
          ((∀ i < 4 * n, src i ≠ base64Pad) → ∀ i < 4 * n,
            toBase64 out.dst encoded (BitVec.ofNat 32 (4 * n)) i = src i)) := by
  constructor
  · have written := fun block (inside : block < n) =>
      decodedWord_encoded fun t (below : t < 4) =>
        toBase64_spec room src encoded inside below
    obtain ⟨out, returns, -, -, whole⟩ := fromBase64_spec room decoded
      fun block inside => (written block inside).1
    obtain ⟨ret, wrote⟩ := whole fun i inside => by
      have plain := (written (i / 4) (by omega)).2.1 (i % 4) (by omega)
      rwa [Nat.div_add_mod] at plain
    refine ⟨out, returns, ret, fun i inside => ?_⟩
    obtain ⟨block, t, below, rfl⟩ : ∃ block t, t < 3 ∧ i = 3 * block + t :=
      ⟨i / 3, i % 3, by omega, (Nat.div_add_mod i 3).symm⟩
    have isBlock : block < n := by omega
    have byte := wrote block isBlock t below
    have word := toNat_encodedWord src block
    have bytes := fun i => (src i).isLt
    have bound0 := bytes (3 * block)
    have bound1 := bytes (3 * block + 1)
    have bound2 := bytes (3 * block + 2)
    rw [(written _ isBlock).2.2, word] at byte
    apply BitVec.eq_of_toNat_eq
    rw [byte]
    interval_cases t <;> (try simp only [Nat.add_zero]) <;> omega
  · intro accepted
    obtain ⟨out, returns, few, kept, whole⟩ := fromBase64_spec room decoded accepted
    refine ⟨out, returns, few, kept, fun unpadded i inside => ?_⟩
    have block : i / 4 < n := by omega
    have place := Nat.div_add_mod i 4
    have char := toBase64_spec room out.dst encoded block
      (show i % 4 < 4 by omega)
    rw [encodedWord_decoded (accepted _ block) ((whole unpadded).2 _ block)
      (by omega) (unpadded _ (by omega)), place] at char
    exact char

theorem base64_bijective_three :
    ∃ out, fromBase64 (toBase64 (fun _ => 77#8) (fun _ => 0#8) 4#32)
        (fun _ => 0#8) 3#32 = .ok out ∧ out.ret.toNat = 3 ∧
          ∀ i < 3, out.dst i = 77#8 :=
  (base64_bijective 1 (by decide) (fun _ => 77#8) _ _).1

end AFLPlusPlus.Redqueen
