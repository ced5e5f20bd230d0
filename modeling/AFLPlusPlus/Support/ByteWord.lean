import Mathlib.Tactic.Common

/-!
# Byte views of machine words

A machine word of `width` bytes is a bit vector of `8 * width` bits.  Reading
its bytes in address order and assembling a word from bytes are inverse to
each other, and the bitwise operators act on every byte separately.  These
facts let a word-at-a-time program be reasoned about one byte at a time.
-/

namespace ByteWord

variable {width : Nat}

/-- The byte of a little-endian word at address offset `index`. -/
def byte (word : BitVec (8 * width)) (index : Nat) : BitVec 8 :=
  word.extractLsb' (8 * index) 8

/-- The first `count` bytes put into place, each shifted to its address
offset. -/
def assemble (width : Nat) (bytes : Nat → BitVec 8) : Nat → BitVec (8 * width)
  | 0 => 0#(8 * width)
  | count + 1 =>
      assemble width bytes count |||
        (bytes count).setWidth (8 * width) <<< (8 * count)

/-- The little-endian word whose byte at offset `index` is `bytes index`. -/
def ofBytes (width : Nat) (bytes : Nat → BitVec 8) : BitVec (8 * width) :=
  assemble width bytes width

/-- The sixteen-bit half-word at half-word offset `index`. -/
def half (word : BitVec (8 * width)) (index : Nat) : BitVec 16 :=
  word.extractLsb' (16 * index) 16

/-- Apply a table to every half-word, as a program does that copies the word
into an array of half-words and back. -/
def mapHalves (table : BitVec 16 → BitVec 16) (word : BitVec (8 * width)) :
    BitVec (8 * width) :=
  ofBytes width fun index =>
    (table (half word (index / 2))).extractLsb' (8 * (index % 2)) 8

@[simp] theorem and_ff (value : BitVec 8) : value &&& 255#8 = value :=
  BitVec.and_allOnes

variable {bit index : Nat}

variable (word : BitVec (8 * width)) (bytes : Nat → BitVec 8)

@[simp] theorem getElem_byte (index : Nat) (inside : bit < 8) :
    (byte word index)[bit] = word.getLsbD (8 * index + bit) := by
  simp [byte]

private theorem getLsbD_assemble (inside : bit < 8 * width) (count : Nat) :
    (assemble width bytes count).getLsbD bit =
      (decide (bit < 8 * count) && (bytes (bit / 8)).getLsbD (bit % 8)) := by
  induction count with
  | zero => simp [assemble]
  | succ count induction =>
      rw [assemble, BitVec.getLsbD_or, induction, BitVec.getLsbD_shiftLeft,
        BitVec.getLsbD_setWidth]
      have wordBound : bit - 8 * count < 8 * width := by omega
      by_cases placed : bit < 8 * count
      · have later : bit < 8 * (count + 1) := by omega
        simp [placed, later]
      · by_cases last : bit < 8 * (count + 1)
        · have quotient : bit / 8 = count := by omega
          have remainder : bit % 8 = bit - 8 * count := by omega
          simp [placed, last, inside, wordBound, quotient, remainder]
        · have high : 8 ≤ bit - 8 * count := by omega
          simp [placed, last, BitVec.getLsbD_of_ge _ _ high]

theorem getLsbD_ofBytes (inside : bit < 8 * width) :
    (ofBytes width bytes).getLsbD bit = (bytes (bit / 8)).getLsbD (bit % 8) := by
  rw [ofBytes, getLsbD_assemble bytes inside, decide_eq_true inside, Bool.true_and]

@[simp] theorem byte_ofBytes (inside : index < width) :
    byte (ofBytes width bytes) index = bytes index := by
  apply BitVec.eq_of_getElem_eq
  intro bit bitInside
  have bounded : 8 * index + bit < 8 * width := by omega
  have quotient : (8 * index + bit) / 8 = index := by omega
  have remainder : (8 * index + bit) % 8 = bit := by omega
  rw [getElem_byte, getLsbD_ofBytes bytes bounded, quotient, remainder,
    BitVec.getLsbD_eq_getElem]

theorem eq_of_bytes {left right : BitVec (8 * width)}
    (bytes : ∀ index < width, byte left index = byte right index) :
    left = right := by
  apply BitVec.eq_of_getLsbD_eq
  intro bit bitInside
  have equality := bytes (bit / 8) (by omega)
  have bounded : bit % 8 < 8 := Nat.mod_lt _ (by decide)
  have address : 8 * (bit / 8) + bit % 8 = bit := by omega
  have bits : (byte left (bit / 8))[bit % 8] =
      (byte right (bit / 8))[bit % 8] := by rw [equality]
  simpa only [getElem_byte, address] using bits

@[simp] theorem byte_zero (index : Nat) : byte (0#(8 * width)) index = 0#8 := by
  apply BitVec.eq_of_getElem_eq
  intro bit bitInside
  simp

@[simp] theorem byte_and (left right : BitVec (8 * width)) (index : Nat) :
    byte (left &&& right) index = byte left index &&& byte right index := by
  apply BitVec.eq_of_getElem_eq
  intro bit bitInside
  simp

theorem byte_not (inside : index < width) :
    byte (~~~word) index = ~~~(byte word index) := by
  apply BitVec.eq_of_getElem_eq
  intro bit bitInside
  have bounded : 8 * index + bit < 8 * width := by omega
  simp [bounded]

theorem eq_zero_iff :
    word = 0#(8 * width) ↔ ∀ index < width, byte word index = 0#8 := by
  constructor
  · rintro rfl index _
    exact byte_zero index
  · intro zero
    apply eq_of_bytes
    intro index inside
    rw [zero index inside, byte_zero]

theorem ne_zero_iff :
    word ≠ 0#(8 * width) ↔ ∃ index < width, byte word index ≠ 0#8 := by
  simp [eq_zero_iff]

theorem half_low (index : Nat) :
    (half word index).extractLsb' 0 8 = byte word (2 * index) := by
  apply BitVec.eq_of_getElem_eq
  intro bit bitInside
  have bounded : bit < 16 := by omega
  have address : 16 * index + bit = 8 * (2 * index) + bit := by omega
  simp [half, bounded, address]

theorem half_high (index : Nat) :
    (half word index).extractLsb' 8 8 = byte word (2 * index + 1) := by
  apply BitVec.eq_of_getElem_eq
  intro bit bitInside
  have bounded : 8 + bit < 16 := by omega
  have address : 16 * index + (8 + bit) = 8 * (2 * index + 1) + bit := by
    omega
  simp [half, bounded, address]

/-- A table that treats the two bytes of a half-word separately acts on every
byte of a word. -/
theorem byte_mapHalves {table : BitVec 16 → BitVec 16} {image : BitVec 8 → BitVec 8}
    (low : ∀ value, (table value).extractLsb' 0 8 =
      image (value.extractLsb' 0 8)) (high : ∀ value, (table value).extractLsb' 8 8 =
      image (value.extractLsb' 8 8)) (word : BitVec (8 * width))
    (inside : index < width) :
    byte (mapHalves table word) index = image (byte word index) := by
  rw [mapHalves, byte_ofBytes _ inside]
  rcases Nat.mod_two_eq_zero_or_one index with even | odd
  · have address : 2 * (index / 2) = index := by omega
    rw [even, Nat.mul_zero, low, half_low, address]
  · have address : 2 * (index / 2) + 1 = index := by omega
    rw [odd, Nat.mul_one, high, half_high, address]

/-- The `size`-bit mask whose bit `index` is `bits index`. -/
def maskOfBits (size : Nat) (bits : Nat → Bool) : Nat → BitVec size
  | 0 => BitVec.ofNat size 0
  | count + 1 =>
      maskOfBits size bits count |||
        (BitVec.ofBool (bits count)).setWidth size <<< count

theorem getLsbD_maskOfBits {size : Nat} (bits : Nat → Bool) (inside : bit < size)
    (count : Nat) :
    (maskOfBits size bits count).getLsbD bit = (decide (bit < count) && bits bit) := by
  induction count with
  | zero => simp [maskOfBits]
  | succ count induction =>
      have positive : 0 < size := by omega
      rw [maskOfBits, BitVec.getLsbD_or, induction, BitVec.getLsbD_shiftLeft]
      by_cases before : bit < count
      · have later : bit < count + 1 := by omega
        simp [before, later]
      · by_cases here : bit = count
        · subst bit
          simp [inside, positive]
        · have outside : ¬bit < count + 1 := by omega
          have shifted : bit - count ≠ 0 := by omega
          simp [before, outside, shifted, BitVec.getLsbD_ofBool]

/-- A group of mask bits that all repeat one flag is clear exactly when the
flag is. -/
theorem maskOfBits_and_eq_zero_iff {size : Nat} (bits : Nat → Bool)
    (selection : BitVec size) (flag : Bool)
    (group : ∀ bit < size, selection.getLsbD bit = true → bits bit = flag)
    (some : ∃ bit < size, selection.getLsbD bit = true) :
    maskOfBits size bits size &&& selection = BitVec.ofNat size 0 ↔ flag = false := by
  constructor
  · intro clear
    obtain ⟨bit, inside, selected⟩ := some
    have bitClear := congrArg (fun mask => BitVec.getLsbD mask bit) clear
    simp only [BitVec.getLsbD_and, getLsbD_maskOfBits bits inside, inside,
      decide_true, Bool.true_and, selected, Bool.and_true,
      BitVec.getLsbD_zero] at bitClear
    rw [← group bit inside selected, bitClear]
  · intro clear
    apply BitVec.eq_of_getLsbD_eq
    intro bit inside
    rw [BitVec.getLsbD_and, getLsbD_maskOfBits bits inside, BitVec.getLsbD_zero]
    cases selected : selection.getLsbD bit with
    | false => simp
    | true => simp [group bit inside selected, clear]

end ByteWord
