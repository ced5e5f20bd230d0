import AFLPlusPlus.Support.ByteWord
import AFLPlusPlus.Support.Loops
import Mathlib.Tactic.IntervalCases

/-!
# Could an earlier stage have made this value?

`could_be_bitflip`, `could_be_arith` and `could_be_interest`, which the
deterministic stages ask before they execute a candidate.
-/

namespace AFLPlusPlus

def arithMax : Nat := 35

def interestingInts8 : List Int := [-128, -1, 0, 1, 16, 32, 64, 100, 127]

def interestingInts16 : List Int :=
  [-32768, -129, 128, 255, 256, 512, 1000, 1024, 4096, 32767]

def interestingInts32 : List Int :=
  [-2147483648, -100663046, -32769, 32768, 65535, 65536, 100663045, 2147483647]

def interesting8 : List (BitVec 8) := interestingInts8.map (BitVec.ofInt 8)

def interesting16 : List (BitVec 16) :=
  (interestingInts8 ++ interestingInts16).map (BitVec.ofInt 16)

def interesting32 : List (BitVec 32) :=
  (interestingInts8 ++ interestingInts16 ++ interestingInts32).map
    (BitVec.ofInt 32)

def swap16 (word : BitVec 16) : BitVec 16 := word <<< 8 ||| word >>> 8

def swap32 (word : BitVec 32) : BitVec 32 :=
  word <<< 24 ||| word >>> 24 ||| (word <<< 8 &&& 0x00ff0000#32) |||
    (word >>> 8 &&& 0x0000ff00#32)

/-- Shift right until the first bit is set; `fuel` bounds the loop, which
needs at most 31 rounds for a value that is not zero. -/
def shiftToFirstBit : Nat → Nat → BitVec 32 → Nat × BitVec 32
  | 0, sh, xorVal => (sh, xorVal)
  | fuel + 1, sh, xorVal =>
      if xorVal &&& 1#32 = 0#32 then
        shiftToFirstBit fuel (sh + 1) (xorVal >>> 1)
      else (sh, xorVal)

def couldBeBitflip (xorVal : BitVec 32) : Bool :=
  if xorVal = 0#32 then true
  else
    let shifted := shiftToFirstBit 32 0 xorVal
    let sh := shifted.1
    let xorVal := shifted.2
    if xorVal = 1#32 ∨ xorVal = 3#32 ∨ xorVal = 15#32 then true
    else if sh &&& 7 ≠ 0 then false
    else decide
      (xorVal = 0xff#32 ∨ xorVal = 0xffff#32 ∨ xorVal = 0xffffffff#32)

/-- `(value >> (size * i))`, cut to `size` bits. -/
def lane (size i : Nat) (value : BitVec 32) : BitVec size :=
  (value >>> (size * i)).setWidth size

/-- How many lanes differ, and the last ones that do. -/
structure Diffs where
  diffs : Nat
  ov : BitVec 32
  nv : BitVec 32

def Diffs.round (size : Nat) (oldVal newVal : BitVec 32) (i : Nat)
    (state : Diffs) : Diffs :=
  let a := lane size i oldVal
  let b := lane size i newVal
  if a ≠ b then
    { diffs := state.diffs + 1, ov := a.setWidth 32, nv := b.setWidth 32 }
  else state

/-- The difference, in either direction, is at most `ARITH_MAX`. -/
def withinArithMax (size : Nat) (ov nv : BitVec 32) : Bool :=
  decide (((ov - nv).setWidth size).toNat ≤ arithMax) ||
    decide (((nv - ov).setWidth size).toNat ≤ arithMax)

def couldBeArith (oldVal newVal : BitVec 32) (blen : Nat) : Bool :=
  if oldVal = newVal then true
  else
    let bytes := forRange (Diffs.round 8 oldVal newVal) blen
      { diffs := 0, ov := 0#32, nv := 0#32 }
    if bytes.diffs = 1 ∧ withinArithMax 8 bytes.ov bytes.nv = true then true
    else if blen = 1 then false
    else
      let words := forRange (Diffs.round 16 oldVal newVal) (blen / 2)
        { bytes with diffs := 0 }
      let ov := (swap16 (words.ov.setWidth 16)).setWidth 32
      let nv := (swap16 (words.nv.setWidth 16)).setWidth 32
      if words.diffs = 1 ∧ (withinArithMax 16 words.ov words.nv = true ∨
          withinArithMax 16 ov nv = true) then true
      else decide (blen = 4 ∧ (withinArithMax 32 oldVal newVal = true ∨
        withinArithMax 32 (swap32 oldVal) (swap32 newVal) = true))

/-- `tval`: `value` inserted over the bits of `oldVal` from byte `i` on. -/
def insertOver (size : Nat) (oldVal : BitVec 32) (value : BitVec size)
    (i : Nat) : BitVec 32 :=
  (oldVal &&& ~~~((BitVec.allOnes size).setWidth 32 <<< (i * 8))) |||
    value.setWidth 32 <<< (i * 8)

def couldBeInterest (oldVal newVal : BitVec 32) (blen : Nat)
    (checkLe : Bool) : Bool :=
  if oldVal = newVal then true
  else if (List.range blen).any (fun i => interesting8.any (fun value =>
      newVal = insertOver 8 oldVal value i)) then true
  else if blen = 2 ∧ checkLe = false then false
  else if (List.range (blen - 1)).any (fun i => interesting16.any (fun value =>
      newVal = insertOver 16 oldVal value i ∨
        2 < blen ∧ newVal = insertOver 16 oldVal (swap16 value) i)) then true
  else decide (blen = 4 ∧ checkLe = true) && interesting32.any (newVal = ·)

open ByteWord

theorem byte_swap16 (word : BitVec 16) {offset : Nat} (inside : offset < 2) :
    @byte 2 (swap16 word) offset = @byte 2 word (1 - offset) := by
  apply BitVec.eq_of_getLsbD_eq
  intro bit bitInside
  interval_cases offset <;> interval_cases bit <;> simp [byte, swap16]

theorem byte_swap32 (word : BitVec 32) {offset : Nat} (inside : offset < 4) :
    @byte 4 (swap32 word) offset = @byte 4 word (3 - offset) := by
  apply BitVec.eq_of_getLsbD_eq
  intro bit bitInside
  interval_cases offset <;> interval_cases bit <;> simp [byte, swap32]

@[simp] theorem swap16_swap16 (word : BitVec 16) : swap16 (swap16 word) = word := by
  apply @eq_of_bytes 2
  intro offset inside
  have back : 1 - (1 - offset) = offset := by omega
  rw [byte_swap16 _ inside, byte_swap16 _ (by omega), back]

@[simp] theorem swap32_swap32 (word : BitVec 32) : swap32 (swap32 word) = word := by
  apply @eq_of_bytes 4
  intro offset inside
  have back : 3 - (3 - offset) = offset := by omega
  rw [byte_swap32 _ inside, byte_swap32 _ (by omega), back]

theorem swap16_injective : Function.Injective swap16 :=
  Function.LeftInverse.injective swap16_swap16

theorem swap32_injective : Function.Injective swap32 :=
  Function.LeftInverse.injective swap32_swap32

/-- The set bits are those from `start` on, `length` of them. -/
def IsRun {size : Nat} (word : BitVec size) (start length : Nat) : Prop :=
  ∀ bit, word.getLsbD bit = decide (start ≤ bit ∧ bit < start + length)

theorem shiftToFirstBit_toNat (fuel sh : Nat) (xorVal : BitVec 32) :
    ∃ more, (shiftToFirstBit fuel sh xorVal).1 = sh + more ∧
      xorVal.toNat = (shiftToFirstBit fuel sh xorVal).2.toNat * 2 ^ more := by
  induction fuel generalizing sh xorVal with
  | zero => exact ⟨0, rfl, by simp [shiftToFirstBit]⟩
  | succ fuel induction =>
      rw [shiftToFirstBit]
      split
      · rename_i even
        obtain ⟨more, shifts, value⟩ := induction (sh + 1) (xorVal >>> 1)
        refine ⟨more + 1, by omega, ?_⟩
        have lowBit : xorVal.toNat % 2 = 0 := by
          have isZero := congrArg BitVec.toNat even
          rw [BitVec.toNat_and] at isZero
          simpa [Nat.and_one_is_mod] using isZero
        rw [BitVec.toNat_ushiftRight, Nat.shiftRight_eq_div_pow] at value
        rw [Nat.pow_succ, ← Nat.mul_assoc, ← value]
        omega
      · exact ⟨0, rfl, by simp⟩

/-- The lengths of the runs that the bit flip stages make, with the bytes that
they start at. -/
def FlipLength (start length : Nat) : Prop :=
  length ∈ [1, 2, 4] ∨ (start % 8 = 0 ∧ length ∈ [8, 16, 32])

theorem couldBeBitflip_toNat {xorVal : BitVec 32}
    (could : couldBeBitflip xorVal = true) :
    xorVal = 0#32 ∨ ∃ start length, FlipLength start length ∧
      xorVal.toNat = (2 ^ length - 1) * 2 ^ start := by
  unfold couldBeBitflip at could
  split at could
  · rename_i zero
    exact .inl zero
  · right
    obtain ⟨start, shifts, value⟩ := shiftToFirstBit_toNat 32 0 xorVal
    dsimp only at could
    generalize shiftToFirstBit 32 0 xorVal = shifted at could shifts value
    rw [Nat.zero_add] at shifts
    split at could
    · rename_i pattern
      rcases pattern with one | three | fifteen
      · exact ⟨start, 1, .inl (by simp), by rw [value, one]; rfl⟩
      · exact ⟨start, 2, .inl (by simp), by rw [value, three]; rfl⟩
      · exact ⟨start, 4, .inl (by simp), by rw [value, fifteen]; rfl⟩
    · split at could
      · cases could
      · rename_i aligned
        have starts : start % 8 = 0 := by
          rw [shifts, Nat.and_two_pow_sub_one_eq_mod start 3] at aligned
          exact not_not.mp aligned
        rcases of_decide_eq_true could with one | two | four
        · exact ⟨start, 8, .inr ⟨starts, by simp⟩, by rw [value, one]; rfl⟩
        · exact ⟨start, 16, .inr ⟨starts, by simp⟩, by rw [value, two]; rfl⟩
        · exact ⟨start, 32, .inr ⟨starts, by simp⟩, by rw [value, four]; rfl⟩

variable {size : Nat} {new old : BitVec size} {width : Nat}

theorem couldBeBitflip_cases (fits : size ≤ 32) {word : BitVec size}
    (could : couldBeBitflip (word.setWidth 32) = true) :
    word = BitVec.ofNat size 0 ∨
      ∃ start length, FlipLength start length ∧ IsRun word start length := by
  have value : (word.setWidth 32).toNat = word.toNat := by
    rw [BitVec.toNat_setWidth]
    apply Nat.mod_eq_of_lt
    exact Nat.lt_of_lt_of_le word.isLt (Nat.pow_le_pow_right (by omega) fits)
  rcases couldBeBitflip_toNat could with zero | ⟨start, length, flips, isRun⟩
  · left
    apply BitVec.eq_of_toNat_eq
    rw [← value, zero]
    simp
  · right
    refine ⟨start, length, flips, ?_⟩
    intro bit
    rw [← BitVec.testBit_toNat, ← value, isRun, Nat.testBit_mul_two_pow,
      Nat.testBit_two_pow_sub_one]
    by_cases after : start ≤ bit
    · simp [after]
      omega
    · simp [after]

/-- One step of the arithmetic stages leads from one value to the other. -/
def Near {size : Nat} (old new : BitVec size) : Prop :=
  ∃ j, 1 ≤ j ∧ j ≤ arithMax ∧
    (new = old + BitVec.ofNat size j ∨ new = old - BitVec.ofNat size j)

theorem near_of_sub (different : old ≠ new) (small : (old - new).toNat ≤ arithMax) :
    Near old new := by
  refine ⟨(old - new).toNat, ?_, small, .inr ?_⟩
  · rw [Nat.one_le_iff_ne_zero]
    intro zero
    apply different
    have noDifference : old - new = BitVec.ofNat size 0 :=
      BitVec.eq_of_toNat_eq (by simpa)
    grind
  · rw [BitVec.ofNat_toNat, BitVec.setWidth_eq]
    grind

theorem Near.symm (near : Near old new) : Near new old := by
  obtain ⟨j, positive, bounded, up | down⟩ := near
  · exact ⟨j, positive, bounded, .inr (by grind)⟩
  · exact ⟨j, positive, bounded, .inl (by grind)⟩

theorem setWidth_sub_setWidth (fits : size ≤ 32) (first second : BitVec size) :
    (first.setWidth 32 - second.setWidth 32).setWidth size = first - second := by
  rw [BitVec.sub_eq_add_neg, BitVec.setWidth_add _ _ fits,
    BitVec.setWidth_neg_of_le fits, BitVec.setWidth_setWidth_of_le _ fits,
    BitVec.setWidth_setWidth_of_le _ fits, BitVec.setWidth_eq,
    BitVec.setWidth_eq, BitVec.sub_eq_add_neg]

theorem near_of_withinArithMax (fits : size ≤ 32) (different : old ≠ new)
    (within : withinArithMax size (old.setWidth 32) (new.setWidth 32) = true) :
    Near old new := by
  unfold withinArithMax at within
  rw [setWidth_sub_setWidth fits, setWidth_sub_setWidth fits,
    Bool.or_eq_true] at within
  rcases within with down | up
  · exact near_of_sub different (of_decide_eq_true down)
  · exact (near_of_sub different.symm (of_decide_eq_true up)).symm

/-- What the loop over the lanes has found after `count` rounds. -/
structure Diffs.Single (size : Nat) (oldVal newVal : BitVec 32) (count : Nat)
    (state : Diffs) (i : Nat) : Prop where
  inside : i < count
  differs : lane size i oldVal ≠ lane size i newVal
  others : ∀ other < count, other ≠ i → lane size other oldVal = lane size other newVal
  ov_eq : state.ov = (lane size i oldVal).setWidth 32
  nv_eq : state.nv = (lane size i newVal).setWidth 32

theorem Diffs.single_of_diffs (size : Nat) (oldVal newVal : BitVec 32)
    (start : Diffs) (noDiffs : start.diffs = 0) (count : Nat)
    (one : (forRange (Diffs.round size oldVal newVal) count start).diffs = 1) :
    ∃ i, Diffs.Single size oldVal newVal count
      (forRange (Diffs.round size oldVal newVal) count start) i := by
  have searched := forRange_invariant (Diffs.round size oldVal newVal)
    (fun count state =>
      (state.diffs = 0 ∧ ∀ i < count, lane size i oldVal = lane size i newVal) ∨
      (state.diffs = 1 ∧ ∃ i, Diffs.Single size oldVal newVal count state i) ∨
      2 ≤ state.diffs)
    start (.inl ⟨noDiffs, by simp⟩) count
    (by
      intro index inside state soFar
      unfold Diffs.round
      dsimp only
      split
      · rename_i differs
        right
        rcases soFar with ⟨none_, same⟩ | ⟨single, _⟩ | several
        · left
          refine ⟨by simp [none_], index, Nat.lt_succ_self index, differs, ?_,
            rfl, rfl⟩
          intro other below notIndex
          exact same other (by omega)
        · exact .inr (by simp [single])
        · exact .inr (by simp only; omega)
      · rename_i same
        have equal := not_not.mp same
        rcases soFar with ⟨none_, allSame⟩ | ⟨single, i, found⟩ | several
        · left
          refine ⟨none_, ?_⟩
          intro other below
          rcases Nat.lt_succ_iff_lt_or_eq.mp below with before | rfl
          · exact allSame other before
          · exact equal
        · right
          left
          refine ⟨single, i, Nat.lt_succ_of_lt found.inside, found.differs, ?_,
            found.ov_eq, found.nv_eq⟩
          intro other below notI
          rcases Nat.lt_succ_iff_lt_or_eq.mp below with before | rfl
          · exact found.others other before notI
          · exact equal
        · exact .inr (.inr several))
  rcases searched with ⟨none_, _⟩ | ⟨_, found⟩ | several
  · omega
  · exact found
  · omega

theorem lane_setWidth {bits : Nat} (fits : bits ≤ 32) (size i : Nat)
    (word : BitVec bits) :
    lane size i (word.setWidth 32) = word.extractLsb' (size * i) size := by
  apply BitVec.eq_of_getLsbD_eq
  intro bit inside
  simp only [lane, BitVec.getLsbD_setWidth, BitVec.getLsbD_ushiftRight,
    BitVec.getLsbD_extractLsb']
  by_cases narrow : size * i + bit < 32
  · simp [narrow]
  · have outside : word.getLsbD (size * i + bit) = false :=
      BitVec.getLsbD_of_ge _ _ (by omega)
    simp [outside]

/-- `new` differs from `old` only in the bytes from `start` to `stop`. -/
def SameOutside {width : Nat} (old new : BitVec (8 * width))
    (start stop : Nat) : Prop :=
  ∀ offset < width, ¬ (start ≤ offset ∧ offset < stop) →
    byte new offset = byte old offset

/-- An arithmetic step on a word, in either byte order. -/
def NearSwapped {size : Nat} (swap : BitVec size → BitVec size)
    (old new : BitVec size) : Prop :=
  Near old new ∨ Near (swap old) (swap new)

/-- The three ways in which arithmetic on a byte, a word or a double word may
have made a value. -/
inductive ArithOrigin {width : Nat} (old new : BitVec (8 * width)) : Prop
  | same (equal : old = new)
  | byte (m : Nat) (inside : m < width) (near : Near (byte old m) (byte new m))
      (others : SameOutside old new m (m + 1))
  | word (m : Nat) (inside : 2 * m + 2 ≤ width)
      (near : NearSwapped swap16 (half old m) (half new m))
      (others : SameOutside old new (2 * m) (2 * m + 2))
  | dword (isDword : width = 4)
      (near : NearSwapped swap32 (old.setWidth 32) (new.setWidth 32))

theorem couldBeArith_cases (widths : width = 1 ∨ width = 2 ∨ width = 4)
    {old new : BitVec (8 * width)}
    (could : couldBeArith (old.setWidth 32) (new.setWidth 32) width = true) :
    ArithOrigin old new := by
  have fits : 8 * width ≤ 32 := by omega
  unfold couldBeArith at could
  split at could
  · rename_i equal
    apply ArithOrigin.same
    have back := congrArg (BitVec.setWidth (8 * width)) equal
    simpa [BitVec.setWidth_setWidth_of_le _ fits] using back
  · rename_i different
    dsimp only at could
    split at could
    · rename_i single
      obtain ⟨m, found⟩ := Diffs.single_of_diffs 8 _ _ _ rfl _ single.1
      have within := single.2
      rw [found.ov_eq, found.nv_eq] at within
      have near := near_of_withinArithMax (by omega) found.differs within
      rw [lane_setWidth fits, lane_setWidth fits] at near
      refine ArithOrigin.byte m found.inside near ?_
      intro offset inside outside
      have same := found.others offset inside (by omega)
      rw [lane_setWidth fits, lane_setWidth fits] at same
      exact same.symm
    · split at could
      · cases could
      · split at could
        · rename_i single
          obtain ⟨m, found⟩ := Diffs.single_of_diffs 16 _ _ _ rfl _ single.1
          have inside : 2 * m + 2 ≤ width := by
            have below := found.inside
            omega
          refine ArithOrigin.word m inside ?_ ?_
          · have within := single.2
            rw [found.ov_eq, found.nv_eq, BitVec.setWidth_setWidth_of_le _ (by omega),
              BitVec.setWidth_setWidth_of_le _ (by omega), BitVec.setWidth_eq,
              BitVec.setWidth_eq] at within
            have differs := found.differs
            rw [lane_setWidth fits, lane_setWidth fits] at within differs
            rcases within with little | big
            · exact .inl (near_of_withinArithMax (by omega) differs little)
            · refine .inr (near_of_withinArithMax (by omega) ?_ big)
              intro same
              exact differs (swap16_injective same)
          · intro offset inside' outside
            have same := found.others (offset / 2) (by omega) (by omega)
            rw [lane_setWidth fits, lane_setWidth fits] at same
            have half_ : half old (offset / 2) = half new (offset / 2) := same
            rcases Nat.mod_two_eq_zero_or_one offset with even | odd
            · have position : 2 * (offset / 2) = offset := by omega
              rw [← position, ← half_low, ← half_low, half_]
            · have position : 2 * (offset / 2) + 1 = offset := by omega
              rw [← position, ← half_high, ← half_high, half_]
        · obtain ⟨isDword, little | big⟩ := of_decide_eq_true could
          · exact ArithOrigin.dword isDword (.inl
              (near_of_withinArithMax (Nat.le_refl 32) different
                (by simpa only [BitVec.setWidth_eq] using little)))
          · refine ArithOrigin.dword isDword (.inr
              (near_of_withinArithMax (Nat.le_refl 32) ?_
                (by simpa only [BitVec.setWidth_eq] using big)))
            intro same
            exact different (swap32_injective same)

/-- `new` holds the bytes of `value` from byte `m` on and is `old` elsewhere. -/
def Inserts {width : Nat} (size : Nat) (old new : BitVec (8 * width))
    (value : BitVec (8 * size)) (m : Nat) : Prop :=
  (∀ offset < size, byte new (m + offset) = byte value offset) ∧
    SameOutside old new m (m + size)

/-- The ways in which an interesting value may have made a value. -/
inductive InterestOrigin {width : Nat} (old new : BitVec (8 * width))
    (checkLe : Bool) : Prop
  | same (equal : old = new)
  | byte (m : Nat) (inside : m < width) (value : BitVec 8)
      (member : value ∈ interesting8) (inserts : Inserts 1 old new value m)
  | word (m : Nat) (inside : m + 2 ≤ width) (value : BitVec 16)
      (member : value ∈ interesting16) (inserts : Inserts 2 old new value m)
      (checked : width = 2 → checkLe = true)
  | swappedWord (m : Nat) (inside : m + 2 ≤ width) (value : BitVec 16)
      (member : value ∈ interesting16)
      (inserts : Inserts 2 old new (swap16 value) m) (wide : 2 < width)
  | dword (isDword : width = 4) (checked : checkLe = true) (value : BitVec 32)
      (member : value ∈ interesting32) (equal : new.setWidth 32 = value)

theorem inserts_of_insertOver (fits : 8 * width ≤ 32) {old new : BitVec (8 * width)}
    (size : Nat) {value : BitVec (8 * size)} {m : Nat} (inside : m + size ≤ width)
    (equal : new.setWidth 32 = insertOver (8 * size) (old.setWidth 32) value m) :
    Inserts size old new value m := by
  have bits (bit : Nat) (bitInside : bit < 8 * width) :
      new.getLsbD bit =
        if m * 8 ≤ bit ∧ bit < m * 8 + 8 * size then
          value.getLsbD (bit - m * 8)
        else old.getLsbD bit := by
    have narrow : bit < 32 := by omega
    have equalBit := congrArg (BitVec.getLsbD · bit) equal
    simp only [insertOver, BitVec.getLsbD_setWidth, BitVec.getLsbD_or,
      BitVec.getLsbD_and, BitVec.getLsbD_not, BitVec.getLsbD_shiftLeft,
      BitVec.getLsbD_allOnes, narrow, decide_true, Bool.true_and] at equalBit
    rw [equalBit]
    by_cases below : bit < m * 8
    · have notInside : ¬ (m * 8 ≤ bit ∧ bit < m * 8 + 8 * size) := by omega
      simp [below, notInside]
    · by_cases above : bit < m * 8 + 8 * size
      · have isInside : m * 8 ≤ bit ∧ bit < m * 8 + 8 * size := by omega
        have offset : bit - m * 8 < 8 * size := by omega
        have small : bit - m * 8 < 32 := by omega
        simp [below, isInside, offset, small]
      · have notInside : ¬ (m * 8 ≤ bit ∧ bit < m * 8 + 8 * size) := by omega
        have far : value.getLsbD (bit - m * 8) = false :=
          BitVec.getLsbD_of_ge _ _ (by omega)
        have offset : ¬ bit - m * 8 < 8 * size := by omega
        simp [below, notInside, far, offset]
  constructor
  · intro offset offsetInside
    apply BitVec.eq_of_getElem_eq
    intro bit bitInside
    have back : 8 * (m + offset) + bit - m * 8 = 8 * offset + bit := by omega
    rw [getElem_byte, getElem_byte, bits _ (by omega), if_pos (by omega), back]
  · intro offset offsetInside outside
    apply BitVec.eq_of_getElem_eq
    intro bit bitInside
    rw [getElem_byte, getElem_byte, bits _ (by omega), if_neg (by omega)]

theorem couldBeInterest_cases (widths : width = 2 ∨ width = 4)
    {old new : BitVec (8 * width)} {checkLe : Bool}
    (could : couldBeInterest (old.setWidth 32) (new.setWidth 32) width
      checkLe = true) :
    InterestOrigin old new checkLe := by
  have fits : 8 * width ≤ 32 := by omega
  unfold couldBeInterest at could
  split at could
  · rename_i equal
    apply InterestOrigin.same
    have back := congrArg (BitVec.setWidth (8 * width)) equal
    simpa [BitVec.setWidth_setWidth_of_le _ fits] using back
  · split at could
    · rename_i byteFound
      obtain ⟨m, isIndex, anyValue⟩ := List.any_eq_true.mp byteFound
      obtain ⟨value, member, equal⟩ := List.any_eq_true.mp anyValue
      have inside := List.mem_range.mp isIndex
      exact InterestOrigin.byte m inside value member
        (inserts_of_insertOver fits 1 (by omega) (of_decide_eq_true equal))
    · split at could
      · cases could
      · rename_i checked
        split at could
        · rename_i wordFound
          obtain ⟨m, isIndex, anyValue⟩ := List.any_eq_true.mp wordFound
          obtain ⟨value, member, equal⟩ := List.any_eq_true.mp anyValue
          have inside := List.mem_range.mp isIndex
          rcases of_decide_eq_true equal with little | ⟨wide, big⟩
          · refine InterestOrigin.word m (by omega) value member
              (inserts_of_insertOver fits 2 (by omega) little) ?_
            intro isWord
            cases checkLe with
            | false => exact absurd ⟨isWord, rfl⟩ checked
            | true => rfl
          · exact InterestOrigin.swappedWord m (by omega) value member
              (inserts_of_insertOver fits 2 (by omega) big) wide
        · obtain ⟨asked, dwordFound⟩ := Bool.and_eq_true_iff.mp could
          obtain ⟨isDword, isChecked⟩ := of_decide_eq_true asked
          obtain ⟨value, member, equal⟩ := List.any_eq_true.mp dwordFound
          exact InterestOrigin.dword isDword isChecked value member
            (of_decide_eq_true equal)

end AFLPlusPlus
