import AFLPlusPlus.Coverage.NewBits
import AFLPlusPlus.Coverage.Classify

/-!
# The fast path over unclassified traces

`has_new_bits_unclassified` first skims the raw trace without writing
anything and only falls back to `classify_counts` and `has_new_bits` when some
classified word still has bits left in the virgin map.  There are four builds
of `skim`: one on 32-bit words and three on 64-bit words, two of which decide
on vector registers which words of a block are zero.
-/

namespace AFLPlusPlus

open ByteWord Buffer CoverageMaps

/-- The builds of `skim`, by `PACK_SIZE` and instruction set. -/
inductive SkimVariant where
  | words32
  | words64
  | avx2
  | avx512
  deriving DecidableEq, Repr

/-- The word size each build of `skim` is compiled with. -/
def SkimVariant.flavour : SkimVariant → WordSize
  | words32 => .word32
  | words64 => .word64
  | avx2 => .word64
  | avx512 => .word64

def SkimVariant.lanes : SkimVariant → Nat
  | words32 => 4
  | words64 => 4
  | avx2 => 4
  | avx512 => 8

/-- `classify_word(current[index]) & virgin[index]` is not zero. -/
def classifiedNew (width : Nat) (virgin current : Buffer) (index : Nat) :
    Bool :=
  decide (classifyWord width (loadWord width current index) &&&
    loadWord width virgin index ≠ 0#(8 * width))

/-- The condition of the scalar builds:
`current[index] && classify_word(current[index]) & virgin[index]`. -/
def skimWord (width : Nat) (virgin current : Buffer) (index : Nat) : Bool :=
  decide (loadWord width current index ≠ 0#(8 * width)) &&
    classifiedNew width virgin current index

/-- The body of the scalar loops: four words. -/
def skimBlockScalar (width : Nat) (virgin current : Buffer) (index : Nat) :
    Bool :=
  skimWord width virgin current index ||
    skimWord width virgin current (index + 1) ||
    skimWord width virgin current (index + 2) ||
    skimWord width virgin current (index + 3)

abbrev Lanes := Nat → BitVec 64

/-- The lanes of a register loaded from `current[index]`. -/
def loadLanes (bytes : Nat) (current : Buffer) (index : Nat) : Lanes :=
  fun lane => (loadAt bytes current (8 * index)).extractLsb' (64 * lane) 64

/-- `_mm256_cmpeq_epi64`: all ones in the lanes that agree. -/
def mm256CmpeqEpi64 (left right : Lanes) : Lanes :=
  fun lane => if left lane = right lane then BitVec.allOnes 64 else 0#64

/-- `_mm256_movemask_epi8`: the top bit of each of the 32 bytes. -/
def mm256MovemaskEpi8 (value : Lanes) : BitVec 32 :=
  maskOfBits 32 (fun index =>
    (value (index / 8)).getLsbD (8 * (index % 8) + 7)) 32

/-- `_mm512_testn_epi64_mask`: the lanes whose conjunction is zero. -/
def mm512TestnEpi64Mask (left right : Lanes) : BitVec 8 :=
  maskOfBits 8 (fun lane => decide (left lane &&& right lane = 0#64)) 8

def skimBlockAvx2 (virgin current : Buffer) (index : Nat) : Bool :=
  let value := loadLanes 32 current index
  let mask := mm256MovemaskEpi8 (mm256CmpeqEpi64 value fun _ => 0#64)
  if mask = BitVec.allOnes 32 then false
  else
    (decide (mask &&& 0xff#32 = 0#32) && classifiedNew 8 virgin current index) ||
      (decide (mask &&& 0xff00#32 = 0#32) &&
        classifiedNew 8 virgin current (index + 1)) ||
      (decide (mask &&& 0xff0000#32 = 0#32) &&
        classifiedNew 8 virgin current (index + 2)) ||
      (decide (mask &&& 0xff000000#32 = 0#32) &&
        classifiedNew 8 virgin current (index + 3))

/-- `UNROLL(x)` of the AVX-512 loop. -/
def skimUnroll (mask : BitVec 8) (virgin current : Buffer) (index x : Nat) :
    Bool :=
  decide (mask &&& 1#8 <<< x = 0#8) &&
    classifiedNew 8 virgin current (index + x)

def skimBlockAvx512 (virgin current : Buffer) (index : Nat) : Bool :=
  let value := loadLanes 64 current index
  let mask := mm512TestnEpi64Mask value value
  if mask = 0xff#8 then false
  else
    skimUnroll mask virgin current index 0 ||
      skimUnroll mask virgin current index 1 ||
      skimUnroll mask virgin current index 2 ||
      skimUnroll mask virgin current index 3 ||
      skimUnroll mask virgin current index 4 ||
      skimUnroll mask virgin current index 5 ||
      skimUnroll mask virgin current index 6 ||
      skimUnroll mask virgin current index 7

def skimBlock : SkimVariant → Buffer → Buffer → Nat → Bool
  | .words32 => skimBlockScalar 4
  | .words64 => skimBlockScalar 8
  | .avx2 => skimBlockAvx2
  | .avx512 => skimBlockAvx512

/-- The loop condition: `current < current_end`, but `current != current_end`
in the AVX-512 build. -/
def skimMore : SkimVariant → Nat → Nat → Bool
  | .avx512, endIndex, index => decide (index ≠ endIndex)
  | _, endIndex, index => decide (index < endIndex)

/-- `skim`: the loops advance by one block of words. -/
def skim (variant : SkimVariant) (virgin current : Buffer) (mapSize : Nat) :
    Option Nat :=
  let endIndex := mapSize / variant.flavour.bytes
  scanBlocks (skimMore variant endIndex) (skimBlock variant virgin current)
    variant.lanes (endIndex + 1) 0

def hasNewBitsUnclassified (variant : SkimVariant) (afl : CoverageMaps)
    (map : VirginMap) : Option (Nat × CoverageMaps) :=
  match skim variant (afl.virgin map) afl.traceBits afl.mapSize with
  | none => none
  | some 0 => some (0, afl)
  | some _ =>
      some (hasNewBits variant.flavour (classifyCounts variant.flavour afl) map)

variable (variant : SkimVariant) (value : Lanes) (width : Nat) (virgin current : Buffer)
    (index : Nat)

theorem skimWord_eq :
    skimWord width virgin current index =
      classifiedNew width virgin current index := by
  unfold skimWord
  by_cases zero : loadWord width current index = 0#(8 * width)
  · have classified :
        classifyWord width (loadWord width current index) = 0#(8 * width) := by
      rw [zero, eq_zero_iff]
      intro offset inside
      rw [byte_classifyWord _ inside, byte_zero, countClassLookup8_zero]
    simp [classifiedNew, classified]
  · simp [zero]

theorem loadLanes_eq {bytes : Nat} {lane : Nat} (inside : 8 * (lane + 1) ≤ bytes) :
    loadLanes bytes current index lane = loadWord 8 current (index + lane) := by
  have load := lane_loadAt 8 current (8 * index) inside
  rw [loadWord, Nat.mul_add]
  exact load

private theorem mm256_mask_bit (bit : Nat) :
    ((mm256CmpeqEpi64 value fun _ => 0#64) (bit / 8)).getLsbD
        (8 * (bit % 8) + 7) = decide (value (bit / 8) = 0#64) := by
  have bounded : 8 * (bit % 8) + 7 < 64 := by omega
  unfold mm256CmpeqEpi64
  by_cases zero : value (bit / 8) = 0#64
  · rw [if_pos zero, BitVec.getLsbD_allOnes, decide_eq_true bounded,
      decide_eq_true zero]
  · simp [zero]

/-- The eight mask bits of a lane test clear exactly when the lane is not
zero. -/
private theorem avx2_lane (lane : Nat) (selection : BitVec 32)
    (group : ∀ bit < 32, selection.getLsbD bit = true → bit / 8 = lane)
    (some : ∃ bit < 32, selection.getLsbD bit = true) :
    mm256MovemaskEpi8 (mm256CmpeqEpi64 value fun _ => 0#64) &&& selection =
        0#32 ↔ value lane ≠ 0#64 := by
  unfold mm256MovemaskEpi8
  rw [maskOfBits_and_eq_zero_iff _ selection (decide (value lane = 0#64)) _ some]
  · simp
  · intro bit inside selected
    rw [mm256_mask_bit, group bit inside selected]

private theorem avx512_lane {lane : Nat} (inside : lane < 8) :
    mm512TestnEpi64Mask value value &&& 1#8 <<< lane = 0#8 ↔ value lane ≠ 0#64 := by
  have single : ∀ lane < 8, ∀ bit < 8,
      (1#8 <<< lane).getLsbD bit = true → bit = lane := by decide
  have some : ∀ lane < 8, ∃ bit < 8, (1#8 <<< lane).getLsbD bit = true := by
    decide
  unfold mm512TestnEpi64Mask
  rw [maskOfBits_and_eq_zero_iff _ _ (decide (value lane = 0#64)) _ (some lane inside)]
  · simp
  · intro bit bitInside selected
    rw [single lane inside bit bitInside selected, BitVec.and_self]

/-- A zero test on the raw word may be put before the test on the classified
one. -/
private theorem guarded_classifiedNew {virgin current : Buffer} {index : Nat}
    {guard : Prop} [Decidable guard]
    (test : guard ↔ loadWord 8 current index ≠ 0#(8 * 8)) :
    (decide guard && classifiedNew 8 virgin current index) =
      classifiedNew 8 virgin current index := by
  rw [← skimWord_eq, skimWord, ← Bool.and_assoc]
  simp only [test, Bool.and_self]

/-- Some word of the block has new bits after classification. -/
def blockNew (width : Nat) (virgin current : Buffer) (lanes index : Nat) :
    Bool :=
  (List.range lanes).any fun lane =>
    classifiedNew width virgin current (index + lane)

theorem skimBlockScalar_eq :
    skimBlockScalar width virgin current index =
      blockNew width virgin current 4 index := by
  simp only [skimBlockScalar, skimWord_eq]
  simp [blockNew, List.range_succ, Bool.or_assoc]

theorem blockNew_four :
    blockNew width virgin current 4 index =
      (classifiedNew width virgin current (index + 0) ||
        classifiedNew width virgin current (index + 1) ||
        classifiedNew width virgin current (index + 2) ||
        classifiedNew width virgin current (index + 3)) := by
  simp [blockNew, List.range_succ, Bool.or_assoc]

theorem skimBlockAvx2_eq :
    skimBlockAvx2 virgin current index = blockNew 8 virgin current 4 index := by
  have lane : ∀ lane < 4, ∀ selection : BitVec 32,
      (∀ bit < 32, selection.getLsbD bit = true → bit / 8 = lane) →
      (∃ bit < 32, selection.getLsbD bit = true) →
      (decide (mm256MovemaskEpi8 (mm256CmpeqEpi64 (loadLanes 32 current index)
          fun _ => 0#64) &&& selection = 0#32) &&
        classifiedNew 8 virgin current (index + lane)) =
      classifiedNew 8 virgin current (index + lane) := by
    intro lane inside selection group some
    apply guarded_classifiedNew
    rw [avx2_lane _ lane selection group some, loadLanes_eq current index (by omega)]
  have lane0 := lane 0 (by decide) 0xff#32 (by decide) (by decide)
  have lane1 := lane 1 (by decide) 0xff00#32 (by decide) (by decide)
  have lane2 := lane 2 (by decide) 0xff0000#32 (by decide) (by decide)
  have lane3 := lane 3 (by decide) 0xff000000#32 (by decide) (by decide)
  rw [blockNew_four, ← lane0, ← lane1, ← lane2, ← lane3]
  unfold skimBlockAvx2
  dsimp only
  generalize mm256MovemaskEpi8 (mm256CmpeqEpi64 (loadLanes 32 current index)
    fun _ => 0#64) = mask
  by_cases allZero : mask = BitVec.allOnes 32
  · -- Every lane is zero, so no test below can find its byte group clear.
    have group0 : BitVec.allOnes 32 &&& 0xff#32 ≠ 0#32 := by decide
    have group1 : BitVec.allOnes 32 &&& 0xff00#32 ≠ 0#32 := by decide
    have group2 : BitVec.allOnes 32 &&& 0xff0000#32 ≠ 0#32 := by decide
    have group3 : BitVec.allOnes 32 &&& 0xff000000#32 ≠ 0#32 := by decide
    rw [if_pos allZero, allZero, decide_eq_false group0,
      decide_eq_false group1, decide_eq_false group2, decide_eq_false group3]
    rfl
  · rw [if_neg allZero]
    rfl

theorem skimBlockAvx512_eq :
    skimBlockAvx512 virgin current index = blockNew 8 virgin current 8 index := by
  have lane : ∀ lane < 8,
      skimUnroll (mm512TestnEpi64Mask (loadLanes 64 current index)
        (loadLanes 64 current index)) virgin current index lane =
      classifiedNew 8 virgin current (index + lane) := by
    intro lane inside
    apply guarded_classifiedNew
    rw [avx512_lane _ inside, loadLanes_eq current index (by omega)]
  have block : blockNew 8 virgin current 8 index =
      (List.range 8).any fun lane =>
        skimUnroll (mm512TestnEpi64Mask (loadLanes 64 current index)
          (loadLanes 64 current index)) virgin current index lane := by
    unfold blockNew
    rw [Bool.eq_iff_iff, List.any_eq_true, List.any_eq_true]
    constructor
    · rintro ⟨x, inside, found⟩
      exact ⟨x, inside, by rw [lane x (List.mem_range.mp inside), found]⟩
    · rintro ⟨x, inside, found⟩
      exact ⟨x, inside, by rw [← lane x (List.mem_range.mp inside), found]⟩
  rw [block]
  unfold skimBlockAvx512
  dsimp only
  generalize mm512TestnEpi64Mask (loadLanes 64 current index)
    (loadLanes 64 current index) = mask
  by_cases allZero : mask = 0xff#8
  · have selected : ∀ x < 8, 0xff#8 &&& 1#8 <<< x ≠ 0#8 := by decide
    rw [if_pos allZero, allZero]
    symm
    rw [List.any_eq_false]
    intro x inside
    simp [skimUnroll, selected x (List.mem_range.mp inside)]
  · rw [if_neg allZero]
    simp [List.range_succ, Bool.or_assoc]

theorem classifiedNew_iff {width : Nat} :
    classifiedNew width virgin current index = true ↔
      ∃ offset < width,
        countClassLookup8 (current (width * index + offset)) &&&
          virgin (width * index + offset) ≠ 0#8 := by
  rw [classifiedNew, decide_eq_true_iff, ne_zero_iff]
  constructor
  · rintro ⟨offset, inside, nonzero⟩
    rw [byte_and, byte_classifyWord _ inside, byte_loadWord _ _ inside,
      byte_loadWord _ _ inside] at nonzero
    exact ⟨offset, inside, nonzero⟩
  · rintro ⟨offset, inside, nonzero⟩
    refine ⟨offset, inside, ?_⟩
    rw [byte_and, byte_classifyWord _ inside, byte_loadWord _ _ inside,
      byte_loadWord _ _ inside]
    exact nonzero

/-- A block has new bits when one of its bytes has a bucketed count which the
virgin map has not seen. -/
theorem blockNew_iff {width lanes : Nat} (positive : 0 < width)
    (virgin current : Buffer) (block : Nat) :
    blockNew width virgin current lanes (lanes * block) = true ↔
      ∃ offset < width * lanes,
        countClassLookup8 (current (width * lanes * block + offset)) &&&
          virgin (width * lanes * block + offset) ≠ 0#8 := by
  simp only [blockNew, List.any_eq_true, List.mem_range, classifiedNew_iff]
  have address : ∀ lane offset, width * (lanes * block + lane) + offset =
      width * lanes * block + (width * lane + offset) := by
    intro lane offset
    rw [Nat.mul_add, Nat.mul_assoc, Nat.add_assoc]
  constructor
  · rintro ⟨lane, laneInside, offset, inside, fresh⟩
    refine ⟨width * lane + offset, ?_, by rw [← address]; exact fresh⟩
    have lastLane : width * (lane + 1) ≤ width * lanes :=
      Nat.mul_le_mul_left width laneInside
    rw [Nat.mul_succ] at lastLane
    omega
  · rintro ⟨offset, inside, fresh⟩
    refine ⟨offset / width, Nat.div_lt_of_lt_mul inside, offset % width,
      Nat.mod_lt _ positive, ?_⟩
    rw [address, Nat.div_add_mod]
    exact fresh

theorem SkimVariant.block_dvd : variant.flavour.bytes * variant.lanes ∣ 64 := by
  cases variant <;> decide

theorem SkimVariant.lanes_pos : 0 < variant.lanes := by
  cases variant <;> decide

theorem skimMore_below {variant : SkimVariant} {endIndex index : Nat}
    (below : index < endIndex) : skimMore variant endIndex index = true := by
  cases variant <;> simp [skimMore] <;> omega

theorem skimMore_end (endIndex : Nat) : skimMore variant endIndex endIndex = false := by
  cases variant <;> simp [skimMore]

theorem skimBlock_eq :
    skimBlock variant virgin current index =
      blockNew variant.flavour.bytes virgin current variant.lanes index := by
  cases variant with
  | words32 => exact skimBlockScalar_eq 4 virgin current index
  | words64 => exact skimBlockScalar_eq 8 virgin current index
  | avx2 => exact skimBlockAvx2_eq virgin current index
  | avx512 => exact skimBlockAvx512_eq virgin current index

/-- Every build scans the whole map, which is a whole number of blocks, and
finds out whether the bucketed trace has a count new to the virgin map. -/
theorem skim_eq {mapSize : Nat} (aligned : 64 ∣ mapSize) :
    skim variant virgin current mapSize =
      some (if ∃ address < mapSize,
          countClassLookup8 (current address) &&& virgin address ≠ 0#8
        then 1 else 0) := by
  obtain ⟨blocks, size⟩ : variant.flavour.bytes * variant.lanes ∣ mapSize :=
    Nat.dvd_trans variant.block_dvd aligned
  have bytesPositive := variant.flavour.bytes_pos
  have blockPositive := Nat.mul_pos bytesPositive variant.lanes_pos
  have endIndex : mapSize / variant.flavour.bytes = variant.lanes * blocks := by
    rw [size, Nat.mul_assoc, Nat.mul_div_cancel_left _ bytesPositive]
  have enough := Nat.le_mul_of_pos_left blocks variant.lanes_pos
  have scan := scanBlocks_eq
    (skimMore variant (variant.lanes * blocks))
    (skimBlock variant virgin current)
    (fun block inside => skimMore_below
      (Nat.mul_lt_mul_of_pos_left inside variant.lanes_pos))
    (skimMore_end variant _) (variant.lanes * blocks + 1) 0 (Nat.zero_le _)
    (by omega)
  have same : (∃ block, block < blocks ∧ 0 ≤ block ∧
      skimBlock variant virgin current (variant.lanes * block) = true) ↔
      ∃ address < mapSize,
        countClassLookup8 (current address) &&& virgin address ≠ 0#8 := by
    simp only [skimBlock_eq, blockNew_iff bytesPositive]
    constructor
    · rintro ⟨block, blockInside, _, offset, inside, fresh⟩
      refine ⟨_, ?_, fresh⟩
      have last := Nat.mul_le_mul_left
        (variant.flavour.bytes * variant.lanes) blockInside
      rw [Nat.mul_succ] at last
      omega
    · rintro ⟨address, inside, fresh⟩
      refine ⟨address / (variant.flavour.bytes * variant.lanes),
        Nat.div_lt_of_lt_mul (by rwa [← size]), Nat.zero_le _,
        address % (variant.flavour.bytes * variant.lanes),
        Nat.mod_lt _ blockPositive, ?_⟩
      rw [Nat.div_add_mod]
      exact fresh
  rw [Nat.mul_zero] at scan
  rw [skim, endIndex, scan]
  simp only [same]

theorem hasNewBits_classifyCounts_zero (flavour : WordSize)
    (afl : CoverageMaps) (map : VirginMap) :
    (hasNewBits flavour (classifyCounts flavour afl) map).1 = 0 ↔
      ¬∃ address < afl.mapSize, countClassLookup8 (afl.traceBits address) &&&
        afl.virgin map address ≠ 0#8 := by
  have count := (hasNewBits_scanned flavour (classifyCounts flavour afl) map).count
  rw [← not_iff_not, not_not]
  refine count.trans ?_
  rw [classifyCounts_eq]
  constructor
  · rintro ⟨address, inside, fresh⟩
    refine ⟨address, inside, ?_⟩
    simpa [NewCount, bucketed, show address < afl.mapSize from inside]
      using fresh
  · rintro ⟨address, inside, fresh⟩
    refine ⟨address, inside, ?_⟩
    simpa [NewCount, bucketed, show address < afl.mapSize from inside]
      using fresh

theorem hasNewBits_virgin_of_zero (flavour : WordSize) (afl : CoverageMaps)
    (map : VirginMap) (zero : (hasNewBits flavour afl map).1 = 0) :
    (hasNewBits flavour afl map).2.virgin map = afl.virgin map := by
  have count := (hasNewBits_scanned flavour afl map).count
  rw [hasNewBits_virgin]
  funext address
  unfold clearSeen
  split
  · rename_i inside
    have seen : afl.traceBits address &&& afl.virgin map address = 0#8 := by
      by_contra fresh
      exact count.mpr ⟨address, inside, fresh⟩ zero
    apply BitVec.eq_of_getElem_eq
    intro bit bitInside
    have clear := congrArg (fun byte => byte.getLsbD bit) seen
    simp only [BitVec.getLsbD_and, BitVec.getLsbD_zero] at clear
    simp [bitInside] at clear ⊢
    grind
  · rfl

/-- `has_new_bits_unclassified` is the plain path for every build of `skim`:
the same return value, the same virgin map and, unless it returns 0 and leaves
the raw trace as it is, the same state.  Below it, classification is bytewise
bucketing, through the half-word table too. -/
theorem hasNewBitsUnclassified_eq_plain (variant : SkimVariant)
    (afl : CoverageMaps) (map : VirginMap) :
    let plain := hasNewBits variant.flavour
      (classifyCounts variant.flavour afl) map
    (∃ ret left, hasNewBitsUnclassified variant afl map = some (ret, left) ∧
      ret = plain.1 ∧
      left.virgin map = plain.2.virgin map ∧
      (ret = 0 → left = afl) ∧
      (ret ≠ 0 → left = plain.2)) ∧
    (∀ address, (classifyCounts variant.flavour afl).traceBits address =
      if address < afl.mapSize then
        countClassLookup8 (afl.traceBits address)
      else afl.traceBits address) ∧
    (∀ word : BitVec (8 * variant.flavour.bytes),
      ∀ index < variant.flavour.bytes,
        byte (classifyWord _ word) index = countClassLookup8 (byte word index)) ∧
    ∀ high < 256, ∀ low < 256,
      initCountClass16 ((high <<< 8) + low) =
        countClassPair (BitVec.ofNat 8 high) (BitVec.ofNat 8 low) := by
  intro plain
  refine ⟨?_, ?_, fun word index inside => byte_classifyWord word inside,
    fun high highInside low lowInside =>
      initCountClass16_eq highInside lowInside⟩
  · have zero : plain.1 = 0 ↔ _ :=
      hasNewBits_classifyCounts_zero variant.flavour afl map
    have scan := skim_eq variant (afl.virgin map) afl.traceBits afl.aligned
    by_cases fresh : ∃ address < afl.mapSize,
        countClassLookup8 (afl.traceBits address) &&&
          afl.virgin map address ≠ 0#8
    · have nonzero : plain.1 ≠ 0 := fun isZero => zero.mp isZero fresh
      refine ⟨plain.1, plain.2, ?_, rfl, rfl, fun isZero =>
        absurd isZero nonzero, fun _ => rfl⟩
      rw [hasNewBitsUnclassified, scan, if_pos fresh]
      rfl
    · have isZero : plain.1 = 0 := zero.mpr fresh
      refine ⟨0, afl, ?_, isZero.symm, ?_, fun _ => rfl, fun nonzero =>
        absurd rfl nonzero⟩
      · rw [hasNewBitsUnclassified, scan, if_neg fresh]
        rfl
      · have kept := hasNewBits_virgin_of_zero variant.flavour
          (classifyCounts variant.flavour afl) map isZero
        rw [show plain.2.virgin map = _ from kept, classifyCounts_eq]
        cases map <;> rfl
  · intro address
    rw [classifyCounts_eq]
    rfl

end AFLPlusPlus
