import AFLPlusPlus.Findings.CalibrateCase
import Mathlib.Algebra.BigOperators.Intervals
import Mathlib.Tactic.IntervalCases

/-!
# Counting in a map

`count_bits`, `count_bytes` and `count_non_255_bytes` walk a map in words of
four bytes and add up what each word counts in a `u32`.  The bits of the largest
map that `get_map_size` accepts are one more than a `u32` can count.
-/

namespace AFLPlusPlus

namespace Bitmap

open Buffer ByteWord

/-- The loop over the words of a map. -/
def countWords (ofWord : BitVec 32 → BitVec 32) (mapSize : BitVec 32)
    (mem : Buffer) : BitVec 32 :=
  forRange (fun i ret => ret + ofWord (loadWord 4 mem i))
    (mapSize >>> 2).toNat 0#32

/-- What `count_bits` adds for a word. -/
def bitsOfWord (v : BitVec 32) : BitVec 32 :=
  if v = 0xffffffff#32 then 32#32
  else
    let v := v - ((v >>> 1) &&& 0x55555555#32)
    let v := (v &&& 0x33333333#32) + ((v >>> 2) &&& 0x33333333#32)
    (((v + (v >>> 4)) &&& 0x0f0f0f0f#32) * 0x01010101#32) >>> 24

/-- What `count_bytes` adds for a word. -/
def bytesOfWord (v : BitVec 32) : BitVec 32 :=
  if v = 0#32 then 0#32
  else
    (if v &&& 0x000000ff#32 ≠ 0#32 then 1#32 else 0#32) +
      (if v &&& 0x0000ff00#32 ≠ 0#32 then 1#32 else 0#32) +
      (if v &&& 0x00ff0000#32 ≠ 0#32 then 1#32 else 0#32) +
      (if v &&& 0xff000000#32 ≠ 0#32 then 1#32 else 0#32)

/-- What `count_non_255_bytes` adds for a word. -/
def non255BytesOfWord (v : BitVec 32) : BitVec 32 :=
  if v = 0xffffffff#32 then 0#32
  else
    (if v &&& 0x000000ff#32 ≠ 0x000000ff#32 then 1#32 else 0#32) +
      (if v &&& 0x0000ff00#32 ≠ 0x0000ff00#32 then 1#32 else 0#32) +
      (if v &&& 0x00ff0000#32 ≠ 0x00ff0000#32 then 1#32 else 0#32) +
      (if v &&& 0xff000000#32 ≠ 0xff000000#32 then 1#32 else 0#32)

def countBits : BitVec 32 → Buffer → BitVec 32 := countWords bitsOfWord

def countBytes : BitVec 32 → Buffer → BitVec 32 := countWords bytesOfWord

def countNon255Bytes : BitVec 32 → Buffer → BitVec 32 := countWords non255BytesOfWord

def setBits (value : BitVec 8) : Nat := (List.range 8).countP value.getLsbD

/-- A number for each byte of a map, added up. -/
def total (ofByte : BitVec 8 → Nat) (size : Nat) (mem : Buffer) : Nat :=
  ∑ address ∈ Finset.range size, ofByte (mem address)

/-- A word counts what its bytes count. -/
def Adds (ofWord : BitVec 32 → BitVec 32) (ofByte : BitVec 8 → Nat) : Prop :=
  ∀ v : BitVec (8 * 4), (ofWord v).toNat = ofByte (byte v 0) +
    ofByte (byte v 1) + ofByte (byte v 2) + ofByte (byte v 3)

variable {first second v : BitVec (8 * 4)} {ofWord : BitVec 32 → BitVec 32}

theorem toNat_countWords {ofByte : BitVec 8 → Nat} (adds : Adds ofWord ofByte)
    (mapSize : BitVec 32) (aligned : 4 ∣ mapSize.toNat) (mem : Buffer) :
    (countWords ofWord mapSize mem).toNat =
      total ofByte mapSize.toNat mem % 2 ^ 32 := by
  have words : mapSize.toNat = 4 * (mapSize >>> 2).toNat := by
    rw [BitVec.toNat_ushiftRight, Nat.shiftRight_eq_div_pow]
    exact (Nat.mul_div_cancel' aligned).symm
  rw [words, countWords]
  refine forRange_invariant _ (fun i (ret : BitVec 32) =>
    ret.toNat = total ofByte (4 * i) mem % 2 ^ 32) _ rfl _ ?_
  intro i _ ret counted
  have next : total ofByte (4 * (i + 1)) mem = total ofByte (4 * i) mem +
      (ofWord (loadWord 4 mem i)).toNat := by
    rw [adds, total, Nat.mul_succ, Finset.sum_range_add]
    simp [Finset.sum_range_succ, total, Nat.add_assoc]
  rw [BitVec.toNat_add, counted, next, Nat.mod_add_mod]

theorem toNat_word (v : BitVec (8 * 4)) :
    v.toNat = (byte v 0).toNat + 2 ^ 8 * (byte v 1).toNat +
      2 ^ 16 * (byte v 2).toNat + 2 ^ 24 * (byte v 3).toNat := by
  have bound := v.isLt
  simp only [byte, BitVec.extractLsb'_toNat, Nat.shiftRight_eq_div_pow]
  omega

variable {i : Nat}

theorem byte_shift_and (v mask : BitVec (8 * 4)) {shift : Nat} (kept : ∀ bit < 8,
      (byte mask i).getLsbD bit = true → bit + shift < 8) :
    byte ((v >>> shift) &&& mask) i = (byte v i >>> shift) &&& byte mask i := by
  rw [byte_and]
  apply BitVec.eq_of_getLsbD_eq
  intro bit bitInside
  rw [BitVec.getLsbD_and, BitVec.getLsbD_and]
  cases masked : (byte mask i).getLsbD bit with
  | false => simp
  | true =>
      have stays := kept bit bitInside masked
      have place : shift + (8 * i + bit) = 8 * i + (shift + bit) := by omega
      simp [byte, bitInside, place, show shift + bit < 8 by omega]

theorem byte_add (inside : i < 4)
    (small : ∀ i < 4, (byte first i).toNat + (byte second i).toNat < 2 ^ 8) :
    byte (first + second) i = byte first i + byte second i := by
  have sum := toNat_word (first + second)
  rw [BitVec.toNat_add, toNat_word first, toNat_word second] at sum
  have bounds := fun i => (byte (first + second) i).isLt
  have small0 := small 0 (by omega)
  have small1 := small 1 (by omega)
  have small2 := small 2 (by omega)
  have small3 := small 3 (by omega)
  have bound0 := bounds 0
  have bound1 := bounds 1
  have bound2 := bounds 2
  have bound3 := bounds 3
  apply BitVec.eq_of_toNat_eq
  rw [BitVec.toNat_add, Nat.mod_eq_of_lt (small i inside)]
  interval_cases i <;> omega

theorem byte_sub (inside : i < 4)
    (below : ∀ i < 4, (byte second i).toNat ≤ (byte first i).toNat) :
    byte (first - second) i = byte first i - byte second i := by
  have back (i : Nat) : byte first i - byte second i + byte second i =
      byte first i := BitVec.sub_add_cancel _ _
  have split : ofBytes 4 (fun i => byte first i - byte second i) + second =
      first := by
    apply eq_of_bytes
    intro i inside
    rw [byte_add inside, byte_ofBytes _ inside, back]
    intro i inside
    rw [byte_ofBytes _ inside, BitVec.toNat_sub_of_le (below i inside)]
    have bound := (byte first i).isLt
    have least := below i inside
    omega
  have difference := BitVec.add_sub_cancel
    (ofBytes 4 fun i => byte first i - byte second i) second
  rw [split] at difference
  rw [difference, byte_ofBytes _ inside]

def everyByte (mask : BitVec 8) : BitVec (8 * 4) := ofBytes 4 fun _ => mask

theorem toNat_byte_shift (v : BitVec (8 * 4)) (inside : i < 4) :
    (byte (v >>> 4) i).toNat = (byte v i).toNat / 16 +
      16 * (if i + 1 < 4 then (byte v (i + 1)).toNat % 16 else 0) := by
  have bound := v.isLt
  simp only [byte, BitVec.extractLsb'_toNat, BitVec.toNat_ushiftRight,
    Nat.shiftRight_eq_div_pow]
  interval_cases i <;> simp <;> omega

/-- The sum of a word and the same word a nibble lower has the sum of the nibbles
in each byte. -/
theorem toNat_nibbleSum
    (small : ∀ i < 4, (byte v i).toNat % 16 ≤ 4 ∧ (byte v i).toNat / 16 ≤ 4)
    (inside : i < 4) :
    (byte ((v + (v >>> 4)) &&& everyByte 0x0f#8) i).toNat =
      (byte v i).toNat % 16 + (byte v i).toNat / 16 := by
  have isMask : (0x0f#8).toNat = 2 ^ 4 - 1 := rfl
  have next (i : Nat) :
      (if i + 1 < 4 then (byte v (i + 1)).toNat % 16 else 0) ≤ 4 := by
    split
    · exact (small _ ‹_›).1
    · exact Nat.zero_le 4
  have room : ∀ i < 4, (byte v i).toNat + (byte (v >>> 4) i).toNat < 2 ^ 8 := by
    intro i inside
    have here := small i inside
    have above := next i
    rw [toNat_byte_shift v inside]
    omega
  have here := small i inside
  rw [byte_and, everyByte, byte_ofBytes _ inside, byte_add inside room,
    BitVec.toNat_and, isMask, Nat.and_two_pow_sub_one_eq_mod, BitVec.toNat_add,
    Nat.mod_eq_of_lt (room i inside), toNat_byte_shift v inside]
  omega

/-- The product of `count_bits` has the sum of four small bytes on top. -/
theorem toNat_product (small : ∀ i < 4, (byte v i).toNat ≤ 8) :
    ((v * 0x01010101#32) >>> 24).toNat = (byte v 0).toNat + (byte v 1).toNat +
      (byte v 2).toNat + (byte v 3).toNat := by
  have isFactor : (0x01010101#32).toNat = 16843009 := rfl
  have small0 := small 0 (by omega)
  have small1 := small 1 (by omega)
  have small2 := small 2 (by omega)
  have small3 := small 3 (by omega)
  rw [BitVec.toNat_ushiftRight, BitVec.toNat_mul, toNat_word v, isFactor,
    Nat.shiftRight_eq_div_pow]
  generalize (byte v 0).toNat = b0, (byte v 1).toNat = b1,
    (byte v 2).toNat = b2, (byte v 3).toNat = b3 at *
  have product : (b0 + 2 ^ 8 * b1 + 2 ^ 16 * b2 + 2 ^ 24 * b3) * 16843009 =
      2 ^ 32 * (b1 + b2 + b3 + 2 ^ 8 * (b2 + b3) + 2 ^ 16 * b3) +
        (2 ^ 24 * (b0 + b1 + b2 + b3) +
          (2 ^ 16 * (b0 + b1 + b2) + 2 ^ 8 * (b0 + b1) + b0)) := by omega
  rw [product, Nat.mul_add_mod, Nat.mod_eq_of_lt (by omega),
    Nat.mul_add_div (by decide), Nat.div_eq_of_lt (by omega), Nat.add_zero]

/-- The steps of `count_bits` on one byte. -/
theorem steps_byte (b : BitVec 8) :
    let pairs := b - (b >>> 1 &&& 0x55#8)
    let nibbles := (pairs &&& 0x33#8) + (pairs >>> 2 &&& 0x33#8)
    (b >>> 1 &&& 0x55#8).toNat ≤ b.toNat ∧
      (pairs &&& 0x33#8).toNat + (pairs >>> 2 &&& 0x33#8).toNat < 2 ^ 8 ∧
      (nibbles.toNat % 16 ≤ 4 ∧ nibbles.toNat / 16 ≤ 4) ∧
      nibbles.toNat % 16 + nibbles.toNat / 16 = setBits b := by
  revert b
  decide +kernel

theorem adds_bitsOfWord : Adds bitsOfWord setBits := by
  intro v
  have masks : 0x55555555#32 = everyByte 0x55#8 ∧
      0x33333333#32 = everyByte 0x33#8 ∧ 0x0f0f0f0f#32 = everyByte 0x0f#8 := by decide
  have shifted (word : BitVec (8 * 4)) (mask : BitVec 8) (shift : Nat)
      (kept : ∀ bit < 8, mask.getLsbD bit = true → bit + shift < 8) :
      ∀ i < 4, byte ((word >>> shift) &&& everyByte mask) i =
        byte word i >>> shift &&& mask := by
    intro i inside
    have isMask : byte (everyByte mask) i = mask := byte_ofBytes _ inside
    rw [byte_shift_and _ _ (by rw [isMask]; exact kept), isMask]
  unfold bitsOfWord
  split
  · rename_i full
    subst full
    decide
  · rw [masks.1, masks.2.1, masks.2.2]
    have odd := shifted v 0x55#8 1 (by decide)
    have pairs : ∀ i < 4, byte (v - (v >>> 1 &&& everyByte 0x55#8)) i =
        byte v i - (byte v i >>> 1 &&& 0x55#8) := by
      intro i inside
      rw [byte_sub inside, odd i inside]
      intro i inside
      rw [odd i inside]
      exact (steps_byte (byte v i)).1
    dsimp only
    generalize v - (v >>> 1 &&& everyByte 0x55#8) = word at pairs
    have even := shifted word 0x33#8 0 (by decide)
    have upper := shifted word 0x33#8 2 (by decide)
    rw [BitVec.ushiftRight_zero] at even
    have nibbles : ∀ i < 4, byte ((word &&& everyByte 0x33#8) +
        (word >>> 2 &&& everyByte 0x33#8)) i =
          (byte word i &&& 0x33#8) + (byte word i >>> 2 &&& 0x33#8) := by
      intro i inside
      rw [byte_add inside, even i inside, upper i inside, BitVec.ushiftRight_zero]
      intro i inside
      rw [even i inside, upper i inside, BitVec.ushiftRight_zero, pairs i inside]
      exact (steps_byte (byte v i)).2.1
    generalize (word &&& everyByte 0x33#8) +
      (word >>> 2 &&& everyByte 0x33#8) = word' at nibbles
    have steps : ∀ i < 4,
        ((byte word' i).toNat % 16 ≤ 4 ∧ (byte word' i).toNat / 16 ≤ 4) ∧
          (byte word' i).toNat % 16 + (byte word' i).toNat / 16 =
            setBits (byte v i) := by
      intro i inside
      rw [nibbles i inside, pairs i inside]
      exact (steps_byte (byte v i)).2.2
    have sums : ∀ i < 4, (byte ((word' + word' >>> 4) &&& everyByte 0x0f#8)
        i).toNat = setBits (byte v i) := by
      intro i inside
      rw [toNat_nibbleSum (fun i inside => (steps i inside).1) inside]
      exact (steps i inside).2
    rw [toNat_product, sums 0 (by omega), sums 1 (by omega),
      sums 2 (by omega), sums 3 (by omega)]
    intro i inside
    rw [sums i inside]
    exact List.countP_le_length

def inLane (i : Nat) (value : BitVec 8) : BitVec (8 * 4) :=
  value.setWidth 32 <<< (8 * i)

theorem and_inLane_eq_iff (v : BitVec (8 * 4)) (inside : i < 4) (value : BitVec 8) :
    v &&& inLane i 0xff#8 = inLane i value ↔ byte v i = value := by
  have bytes (value : BitVec 8) : ∀ k < 4,
      byte (inLane i value) k = if k = i then value else 0#8 := by
    intro k below
    apply BitVec.eq_of_toNat_eq
    have bound := value.isLt
    rw [byte, inLane, BitVec.extractLsb'_toNat, BitVec.toNat_shiftLeft,
      BitVec.toNat_setWidth, Nat.shiftRight_eq_div_pow, Nat.shiftLeft_eq]
    interval_cases i <;> interval_cases k <;> simp <;> omega
  constructor
  · intro same
    have atLane := congrArg (byte · i) same
    simp only [byte_and, bytes _ i inside, if_true, and_ff] at atLane
    exact atLane
  · intro same
    apply eq_of_bytes
    intro k below
    rw [byte_and, bytes _ k below, bytes _ k below]
    split
    · rename_i here
      rw [here, same, and_ff]
    · exact BitVec.and_zero

/-- Words whose bytes are compared one by one, after a comparison of the whole
word. -/
theorem adds_of_lanes (value : BitVec 8)
    (isWord : ∀ v, ofWord v = if v = everyByte value then 0#32 else
      (if v &&& inLane 0 0xff#8 ≠ inLane 0 value then 1#32 else 0#32) +
        (if v &&& inLane 1 0xff#8 ≠ inLane 1 value then 1#32 else 0#32) +
        (if v &&& inLane 2 0xff#8 ≠ inLane 2 value then 1#32 else 0#32) +
        (if v &&& inLane 3 0xff#8 ≠ inLane 3 value then 1#32 else 0#32)) :
    Adds ofWord fun byte => if byte ≠ value then 1 else 0 := by
  intro v
  rw [isWord]
  split
  · rename_i all
    have same : ∀ i < 4, byte v i = value := by
      intro i inside
      rw [all, everyByte, byte_ofBytes _ inside]
    simp [same]
  · simp only [ne_eq, and_inLane_eq_iff v (show 0 < 4 by omega),
      and_inLane_eq_iff v (show 1 < 4 by omega),
      and_inLane_eq_iff v (show 2 < 4 by omega),
      and_inLane_eq_iff v (show 3 < 4 by omega)]
    split_ifs <;> rfl

theorem adds_bytesOfWord : Adds bytesOfWord fun byte => if byte ≠ 0#8 then 1 else 0 :=
  adds_of_lanes 0#8 fun _ => rfl

theorem adds_non255BytesOfWord :
    Adds non255BytesOfWord fun byte => if byte ≠ 255#8 then 1 else 0 :=
  adds_of_lanes 255#8 fun _ => rfl

theorem total_ite (holds : BitVec 8 → Prop) [DecidablePred holds] (size : Nat)
    (mem : Buffer) :
    total (fun byte => if holds byte then 1 else 0) size mem =
      (List.range size).countP fun address => holds (mem address) := by
  induction size with
  | zero => rfl
  | succ size induction =>
      unfold total at induction ⊢
      rw [Finset.sum_range_succ, induction, List.range_succ,
        List.countP_append, List.countP_singleton]
      simp

end Bitmap

open Bitmap

/-- The counters are right if and only if the bits that are set are fewer than
2^32. -/
theorem counters_right_iff (mapSize : BitVec 32) (aligned : 4 ∣ mapSize.toNat)
    (mem : Buffer) :
    ((countBits mapSize mem).toNat = total setBits mapSize.toNat mem ∧
      (countBytes mapSize mem).toNat = CalibrateCase.countBytes mapSize.toNat mem ∧
      (countNon255Bytes mapSize mem).toNat =
        (List.range mapSize.toNat).countP fun address =>
          mem address ≠ 255#8) ↔
      total setBits mapSize.toNat mem < 2 ^ 32 := by
  have few (holds : BitVec 8 → Prop) [DecidablePred holds] :
      total (fun byte => if holds byte then 1 else 0) mapSize.toNat mem < 2 ^ 32 := by
    rw [total_ite]
    refine Nat.lt_of_le_of_lt List.countP_le_length ?_
    rw [List.length_range]
    exact mapSize.isLt
  have bytes := toNat_countWords adds_bytesOfWord mapSize aligned mem
  have nonFull := toNat_countWords adds_non255BytesOfWord mapSize aligned mem
  rw [Nat.mod_eq_of_lt (few _), total_ite] at bytes nonFull
  rw [countBits, toNat_countWords adds_bitsOfWord mapSize aligned mem,
    and_iff_left ⟨bytes, nonFull⟩]
  exact ⟨fun same => same ▸ Nat.mod_lt _ (by decide), Nat.mod_eq_of_lt⟩

theorem counters_right_iff_empty :
    4 ∣ (64#32).toNat ∧ (countBits 64#32 fun _ => 0#8).toNat = 0 := by
  have none : total setBits (64#32).toNat (fun _ => 0#8) = 0 := by decide
  have right := (counters_right_iff 64#32 (by decide) fun _ => 0#8).mpr
    (by rw [none]; decide)
  exact ⟨by decide, right.1.trans none⟩

/-- The virgin map at the start, of the largest size that `AFL_MAP_SIZE` may
ask for: all of its 2^32 bits are set, and `count_bits` returns 0. -/
theorem countBits_largestMap :
    (countBits (1#32 <<< 29) fun _ => 255#8).toNat = 0 ∧
      total setBits (1#32 <<< 29).toNat (fun _ => 255#8) = 2 ^ 32 := by
  have size : (1#32 <<< 29).toNat = 2 ^ 29 := by decide
  have all : total setBits (1#32 <<< 29).toNat (fun _ => 255#8) = 2 ^ 32 := by
    rw [size, total, Finset.sum_const, Finset.card_range]
    rfl
  refine ⟨?_, all⟩
  rw [countBits, toNat_countWords adds_bitsOfWord _ (by rw [size]; decide), all,
    Nat.mod_self]

end AFLPlusPlus
