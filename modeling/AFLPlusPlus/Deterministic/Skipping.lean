import AFLPlusPlus.Deterministic.Events

/-!
# What the deterministic stages skip

A candidate that a predicate rejects makes a buffer which was executed before,
with the exceptions that the last theorem names.
-/

namespace AFLPlusPlus

open Buffer ByteWord

/-! ## Words that change in their low bytes -/

theorem toNat_byte {width : Nat} (word : BitVec (8 * width)) (index : Nat) :
    (byte word index).toNat = word.toNat / 2 ^ (8 * index) % 2 ^ 8 := by
  rw [byte, BitVec.extractLsb'_toNat, Nat.shiftRight_eq_div_pow]

variable {low : Nat} {narrowSwap : BitVec (8 * low) → BitVec (8 * low)} {event : Event}
    {count i j length order start : Nat} {predicate : Predicate}

theorem byte_eq_of_div {width : Nat} {first second : BitVec (8 * width)}
    (same : first.toNat / 2 ^ (8 * low) = second.toNat / 2 ^ (8 * low)) {index : Nat}
    (above : low ≤ index) :
    byte first index = byte second index := by
  apply BitVec.eq_of_toNat_eq
  have power : 2 ^ (8 * index) = 2 ^ (8 * low) * 2 ^ (8 * (index - low)) := by
    rw [← Nat.pow_add]
    congr 1
    omega
  rw [toNat_byte, toNat_byte, power, ← Nat.div_div_eq_div_mul,
    ← Nat.div_div_eq_div_mul, same]

/-- `new` differs from `old` in its `low` low bytes only, by one arithmetic
step on these. -/
def NearLow {width : Nat} (low : Nat) (old new : BitVec (8 * width)) : Prop :=
  Near (old.setWidth (8 * low)) (new.setWidth (8 * low)) ∧ SameOutside old new 0 low

theorem NearLow.symm {width : Nat} {old new : BitVec (8 * width)}
    (near : NearLow low old new) : NearLow low new old := by
  refine ⟨near.1.symm, ?_⟩
  intro offset inside outside
  exact (near.2 offset inside outside).symm

section

variable {width : Nat} (fits : low ≤ width) (old : BitVec (8 * width)) (positive : 1 ≤ j)
    (bounded : j ≤ arithMax)
include fits old positive bounded

theorem nearLow_up (noCarry : (old.setWidth (8 * low)).toNat + j < 2 ^ (8 * low)) :
    NearLow low old (old + BitVec.ofNat (8 * width) j) := by
  have narrower : 8 * low ≤ 8 * width := by omega
  constructor
  · refine ⟨j, positive, bounded, .inl ?_⟩
    rw [BitVec.setWidth_add _ _ narrower, BitVec.setWidth_ofNat_of_le narrower]
  · rw [BitVec.toNat_setWidth] at noCarry
    have power : 2 ^ (8 * width) = 2 ^ (8 * low) * 2 ^ (8 * (width - low)) := by
      rw [← Nat.pow_add]
      congr 1
      omega
    have lowPositive : 0 < 2 ^ (8 * low) := Nat.two_pow_pos _
    have split := Nat.div_add_mod old.toNat (2 ^ (8 * low))
    have quotient : old.toNat / 2 ^ (8 * low) < 2 ^ (8 * (width - low)) := by
      apply Nat.div_lt_of_lt_mul
      rw [← power]
      exact old.isLt
    have highest : 2 ^ (8 * low) * (old.toNat / 2 ^ (8 * low) + 1) ≤
        2 ^ (8 * width) := by
      rw [power]
      exact Nat.mul_le_mul_left _ quotient
    rw [Nat.mul_succ] at highest
    have value : (old + BitVec.ofNat (8 * width) j).toNat = old.toNat + j := by
      rw [BitVec.toNat_add, BitVec.toNat_ofNat,
        Nat.mod_eq_of_lt (by omega : j < 2 ^ (8 * width)),
        Nat.mod_eq_of_lt (by omega)]
    intro offset inside outside
    have above : low ≤ offset := by omega
    apply byte_eq_of_div _ above
    rw [value]
    generalize old.toNat / 2 ^ (8 * low) = q at split
    rw [← split, Nat.add_assoc, Nat.mul_add_div lowPositive,
      Nat.div_eq_of_lt noCarry, Nat.add_zero]

theorem nearLow_down (noBorrow : j ≤ (old.setWidth (8 * low)).toNat) :
    NearLow low old (old - BitVec.ofNat (8 * width) j) := by
  have narrower : 8 * low ≤ 8 * width := by omega
  have back : old - BitVec.ofNat (8 * width) j + BitVec.ofNat (8 * width) j =
      old := by grind
  have lowBound := (old.setWidth (8 * low)).isLt
  have noCarry : ((old - BitVec.ofNat (8 * width) j).setWidth
      (8 * low)).toNat + j < 2 ^ (8 * low) := by
    have lowPart : (old - BitVec.ofNat (8 * width) j).setWidth (8 * low) =
        old.setWidth (8 * low) - BitVec.ofNat (8 * low) j := by
      rw [BitVec.sub_eq_add_neg, BitVec.setWidth_add _ _ narrower,
        BitVec.setWidth_neg_of_le narrower,
        BitVec.setWidth_ofNat_of_le narrower, ← BitVec.sub_eq_add_neg]
    rw [lowPart, BitVec.toNat_sub_of_le, BitVec.toNat_ofNat,
      Nat.mod_eq_of_lt (by omega)]
    · omega
    · rw [BitVec.le_def, BitVec.toNat_ofNat, Nat.mod_eq_of_lt (by omega)]
      exact noBorrow
  have near := nearLow_up fits _ positive bounded noCarry
  rw [back] at near
  exact near.symm

end

variable {size : Nat} {word : BitVec size}

/-! ## Runs of bits in a buffer -/

theorem IsRun.fits (run : IsRun word start length) (positive : 0 < length) :
    start + length ≤ size := by
  have last := run (start + length - 1)
  rw [decide_eq_true (by omega)] at last
  have inside := BitVec.lt_of_getLsbD last
  omega

/-- The number of a bit in a little-endian buffer grows with its place. -/
theorem bit_storeAt_xor {width : Nat} (buffer : Buffer) (i : Nat)
    {mask : BitVec (8 * width)} {start length : Nat}
    (run : IsRun mask start length) (positive : 0 < length) (address : Nat)
    {place : Nat} (placeInside : place < 8) :
    (storeAt width buffer i (loadAt width buffer i ^^^ mask) address).getLsbD place =
      ((buffer address).getLsbD place ^^
        decide (8 * i + start ≤ 8 * address + place ∧
          8 * address + place < 8 * i + start + length)) := by
  have fits := run.fits positive
  by_cases window : i ≤ address ∧ address < i + width
  · obtain ⟨offset, rfl⟩ := Nat.exists_eq_add_of_le window.1
    have inside : offset < width := by omega
    have bitOf (word : BitVec (8 * width)) :
        (byte word offset).getLsbD place = word.getLsbD (8 * offset + place) := by
      rw [BitVec.getLsbD_eq_getElem placeInside, getElem_byte _ _ placeInside]
    rw [storeAt_inside _ _ _ inside, bitOf, BitVec.getLsbD_xor, ← bitOf,
      byte_loadAt _ _ inside, run]
    congr 1
    rw [decide_eq_decide]
    omega
  · rw [storeAt_outside _ _ _ window]
    have outside : ¬ (8 * i + start ≤ 8 * address + place ∧
        8 * address + place < 8 * i + start + length) := by omega
    rw [decide_eq_false outside, Bool.xor_false]

def crossingRuns : List (BitVec 16) := [0x0180#16, 0x01e0#16, 0x03c0#16, 0x0780#16]

/-- The buffers differ by two or four adjacent bits of a little-endian word
that lie in both of its bytes. -/
def CrossesByte (old new : Buffer) : Prop :=
  ∃ address, ∃ run ∈ crossingRuns,
    new = storeAt 2 old address (loadAt 2 old address ^^^ run)

theorem isRun_of_bits (fits : start + length ≤ size) (bits : ∀ bit < size,
      word.getLsbD bit = decide (start ≤ bit ∧ bit < start + length)) :
    IsRun word start length := by
  intro bit
  by_cases inside : bit < size
  · exact bits bit inside
  · rw [BitVec.getLsbD_of_ge _ _ (by omega), decide_eq_false (by omega)]

theorem isRun_crossing (below : start < 8) (lengths : length = 2 ∨ length = 4)
    (crosses : 8 < start + length) :
    ∃ run ∈ crossingRuns, IsRun run start length := by
  have cases_ : (start = 7 ∧ length = 2) ∨ (start = 5 ∧ length = 4) ∨
      (start = 6 ∧ length = 4) ∨ (start = 7 ∧ length = 4) := by omega
  rcases cases_ with ⟨rfl, rfl⟩ | ⟨rfl, rfl⟩ | ⟨rfl, rfl⟩ | ⟨rfl, rfl⟩
  · exact ⟨0x0180#16, by decide, isRun_of_bits (by decide) (by decide)⟩
  · exact ⟨0x01e0#16, by decide, isRun_of_bits (by decide) (by decide)⟩
  · exact ⟨0x03c0#16, by decide, isRun_of_bits (by decide) (by decide)⟩
  · exact ⟨0x0780#16, by decide, isRun_of_bits (by decide) (by decide)⟩

/-! ## What is covered -/

namespace Setting

/-- The buffer is the input, or one that a run across two bytes makes, or one
that a stage before number `order` executes. -/
def Covered (setting : Setting) (order : Nat) (buffer : Buffer) : Prop :=
  buffer = setting.inBuf ∨ CrossesByte setting.inBuf buffer ∨
    ∃ stage : Stage, stage.order < order ∧ setting.runs stage = true ∧
      ∃ event ∈ setting.stageEvents stage, event.executed ∧ event.buffer = buffer

variable {setting : Setting}

theorem Covered.mono {later : Nat} {buffer : Buffer}
    (covered : setting.Covered order buffer) (notBefore : order ≤ later) :
    setting.Covered later buffer := by
  rcases covered with same | crosses | ⟨stage, before, runs, executed⟩
  · exact .inl same
  · exact .inr (.inl crosses)
  · exact .inr (.inr ⟨stage, by omega, runs, executed⟩)

variable {limit : Nat} {flip : Nat → Buffer → Buffer} {stageCurByte : Nat → Nat}

theorem mem_flipEvents {stage : Stage} {stageCur : Nat} (inside : stageCur < count) :
    (⟨stage, stageCurByte stageCur, .none, flip stageCur setting.inBuf,
      none⟩ : Event) ∈ setting.flipEvents stage stageCurByte flip count :=
  List.mem_map.mpr ⟨stageCur, List.mem_range.mpr inside, rfl⟩

theorem covered_of_flipBits {bit : Nat} (counts : count ∈ [1, 2, 4])
    (inside : bit + count ≤ 8 * setting.len) :
    setting.Covered 3 (flipBits count bit setting.inBuf) := by
  have bits : setting.len <<< 3 = 8 * setting.len := by
    rw [Nat.shiftLeft_eq, Nat.mul_comm]
  right
  right
  simp only [List.mem_cons, List.not_mem_nil, or_false] at counts
  rcases counts with rfl | rfl | rfl
  · exact ⟨.flip1, by decide, rfl, _,
      mem_flipEvents (by omega : bit < setting.len <<< 3), rfl, rfl⟩
  · exact ⟨.flip2, by decide, rfl, _,
      mem_flipEvents (by omega : bit < setting.len <<< 3 - 1), rfl, rfl⟩
  · exact ⟨.flip4, by decide, rfl, _,
      mem_flipEvents (by omega : bit < setting.len <<< 3 - 3), rfl, rfl⟩

theorem covered_of_flipBytes {width : Nat} (widths : width ∈ [1, 2, 4])
    (inside : i + width ≤ setting.len) :
    setting.Covered 6 (flipBytes width i setting.inBuf) := by
  right
  right
  simp only [List.mem_cons, List.not_mem_nil, or_false] at widths
  rcases widths with rfl | rfl | rfl
  · exact ⟨.flip8, by decide, rfl, _,
      mem_flipEvents (by omega : i < setting.len), rfl, rfl⟩
  · exact ⟨.flip16, by decide, rfl, _,
      mem_flipEvents (by omega : i < setting.len - 1), rfl, rfl⟩
  · exact ⟨.flip32, by decide, rfl, _,
      mem_flipEvents (by omega : i < setting.len - 3), rfl, rfl⟩

/-- A candidate that could be a bit flip is one, unless its bits lie in two
bytes: the walking bits go from the most significant bit of a byte to the
least significant one. -/
theorem covered_of_couldBeBitflip {width : Nat} (fits : width ≤ 4)
    (inside : i + width ≤ setting.len) {new : BitVec (8 * width)}
    (could : couldBeBitflip
      ((loadAt width setting.inBuf i ^^^ new).setWidth 32) = true) :
    setting.Covered 6 (storeAt width setting.inBuf i new) := by
  have isXor : new = loadAt width setting.inBuf i ^^^
      (loadAt width setting.inBuf i ^^^ new) := by
    rw [← BitVec.xor_assoc, BitVec.xor_self, BitVec.zero_xor]
  generalize loadAt width setting.inBuf i ^^^ new = mask at could isXor
  subst isXor
  rcases couldBeBitflip_cases (by omega) could with
    zero | ⟨start, length, flips, run⟩
  · left
    rw [zero, BitVec.xor_zero, storeAt_loadAt]
  · have positive : 0 < length := by
      rcases flips with few | ⟨_, many⟩
      · simp at few
        omega
      · simp at many
        omega
    have maskFits := run.fits positive
    have bits := bit_storeAt_xor setting.inBuf i run positive
    rcases flips with few | ⟨aligned, many⟩
    · by_cases sameByte : start % 8 + length ≤ 8
      · have sameBuffer : storeAt width setting.inBuf i
            (loadAt width setting.inBuf i ^^^ mask) =
            flipBits length (8 * (i + start / 8) +
              (8 - start % 8 - length)) setting.inBuf := by
          apply buffer_ext
          intro address place placeInside
          rw [bits address placeInside, bit_flipBits _ _ _ _ placeInside]
          congr 1
          rw [decide_eq_decide]
          omega
        rw [sameBuffer]
        exact (covered_of_flipBits few (by omega)).mono (by omega)
      · have lengths : length = 2 ∨ length = 4 := by
          simp at few
          omega
        obtain ⟨crossing, member, isRun⟩ := isRun_crossing
          (Nat.mod_lt start (by omega)) lengths (by omega)
        right
        left
        refine ⟨i + start / 8, crossing, member, ?_⟩
        apply buffer_ext
        intro address place placeInside
        rw [bits address placeInside, @bit_storeAt_xor 2 _ _ _ _ _ isRun
          positive address place placeInside]
        congr 1
        rw [decide_eq_decide]
        omega
    · obtain ⟨bytes, isBytes, byteCounts⟩ : ∃ bytes, length = 8 * bytes ∧
          bytes ∈ [1, 2, 4] := by
        simp only [List.mem_cons, List.not_mem_nil, or_false] at many
        rcases many with rfl | rfl | rfl
        · exact ⟨1, rfl, by decide⟩
        · exact ⟨2, rfl, by decide⟩
        · exact ⟨4, rfl, by decide⟩
      have allRun : IsRun (BitVec.allOnes (8 * bytes)) 0 (8 * bytes) := by
        intro bit
        simp
      have sameBuffer : storeAt width setting.inBuf i
          (loadAt width setting.inBuf i ^^^ mask) =
          flipBytes bytes (i + start / 8) setting.inBuf := by
        apply buffer_ext
        intro address place placeInside
        rw [bits address placeInside, flipBytes,
          bit_storeAt_xor _ _ allRun (by omega) address placeInside]
        congr 1
        rw [decide_eq_decide]
        omega
      rw [sameBuffer]
      exact covered_of_flipBytes byteCounts (by omega)

/-! ## Arithmetic -/

theorem mem_windowEvents {stage : Stage} {width : Nat}
    {candidates : BitVec (8 * width) → List (Attempt width)} {candidate : Attempt width}
    (positive : 0 < width) (inside : i + width ≤ setting.len)
    (member : candidate ∈ candidates (loadAt width setting.inBuf i))
    (guard : candidate.guard = true) :
    setting.event stage i candidate ∈ setting.windowEvents stage width candidates := by
  apply List.mem_flatMap.mpr
  refine ⟨i, List.mem_range.mpr (by omega), ?_⟩
  apply List.mem_map.mpr
  exact ⟨candidate, List.mem_filter.mpr ⟨member, guard⟩, rfl⟩

theorem mem_arithCandidates {width : Nat}
    {attempts : BitVec (8 * width) → Nat → List (Attempt width)}
    {orig : BitVec (8 * width)} (positive : 1 ≤ j) (bounded : j ≤ arithMax)
    {candidate : Attempt width} (member : candidate ∈ attempts orig j) :
    candidate ∈ arithCandidates attempts orig := by
  apply List.mem_flatMap.mpr
  refine ⟨j - 1, List.mem_range.mpr (by omega), ?_⟩
  have back : j - 1 + 1 = j := by omega
  rw [back]
  exact member

/-- A candidate of an arithmetic stage is executed, or could be a bit flip. -/
theorem covered_of_arithCandidate {stage : Stage} {width : Nat} (fits : width ≤ 4)
    (inside : i + width ≤ setting.len) (runs : setting.runs stage = true)
    (afterFlips : 6 ≤ stage.order) {candidate : Attempt width}
    (member : setting.event stage i candidate ∈ setting.stageEvents stage)
    (checked : candidate.skippedBy =
      checkBitflip (loadAt width setting.inBuf i) candidate.new) :
    setting.Covered (stage.order + 1)
      (storeAt width setting.inBuf i candidate.new) := by
  unfold checkBitflip at checked
  split at checked
  · rename_i could
    exact (covered_of_couldBeBitflip fits inside could).mono (by omega)
  · right
    right
    exact ⟨stage, Nat.lt_succ_self _, runs, _, member, checked, rfl⟩

theorem covered_arith8 (arithOn : setting.noArith = false) (inside : i + 1 ≤ setting.len)
    {new : BitVec (8 * 1)} (near : Near (loadAt 1 setting.inBuf i) new) :
    setting.Covered 7 (storeAt 1 setting.inBuf i new) := by
  have runs : setting.runs .arith8 = true := by simp [runs, arithOn]
  obtain ⟨j, positive, bounded, direction⟩ := near
  have covered (candidate : Attempt 1)
      (member : candidate ∈ arith8Attempts (loadAt 1 setting.inBuf i) j)
      (guard : candidate.guard = true)
      (checked : candidate.skippedBy =
        checkBitflip (loadAt 1 setting.inBuf i) candidate.new) :
      setting.Covered 7 (storeAt 1 setting.inBuf i candidate.new) :=
    covered_of_arithCandidate (by omega) inside runs (by decide)
      (mem_windowEvents Nat.one_pos inside
        (mem_arithCandidates positive bounded member) guard) checked
  rcases direction with up | down
  · rw [up]
    exact covered _ List.mem_cons_self rfl rfl
  · rw [down]
    exact covered _ (List.mem_cons_of_mem _ List.mem_cons_self) rfl rfl

/-- `swap` reverses the bytes of a word. -/
def Reverses {width : Nat} (swap : BitVec (8 * width) → BitVec (8 * width)) :
    Prop :=
  ∀ word, ∀ offset < width, byte (swap word) offset = byte word (width - 1 - offset)

theorem byte_setWidth {width : Nat} (word : BitVec (8 * width)) {offset : Nat}
    (inside : offset < low) :
    byte (word.setWidth (8 * low)) offset = byte word offset := by
  apply BitVec.eq_of_getElem_eq
  intro bit bitInside
  rw [getElem_byte _ _ bitInside, getElem_byte _ _ bitInside,
    BitVec.getLsbD_setWidth, decide_eq_true (by omega), Bool.true_and]

section

variable {width : Nat} (fits : low ≤ width)
include fits

/-- A step on the low bytes is a step of the stage for these, in the byte
order of the step. -/
theorem covered_of_nearLow (inside : i + width ≤ setting.len)
    (narrower : ∀ i, i + low ≤ setting.len → ∀ part : BitVec (8 * low),
      NearSwapped narrowSwap (loadAt low setting.inBuf i) part →
      setting.Covered order (storeAt low setting.inBuf i part)) {new : BitVec (8 * width)}
    (near : NearLow low (loadAt width setting.inBuf i) new) :
    setting.Covered order (storeAt width setting.inBuf i new) := by
  have narrow : storeAt width setting.inBuf i new =
      storeAt low setting.inBuf (i + 0) (new.setWidth (8 * low)) := by
    apply storeAt_narrow _ _ _ _ _ (by omega)
    · intro offset offsetInside
      rw [byte_setWidth _ offsetInside, Nat.zero_add]
    · intro offset offsetInside outside
      rw [near.2 offset offsetInside (by omega), byte_loadAt _ _ offsetInside]
  rw [narrow]
  apply narrower i (by omega)
  left
  have lowPart : (loadAt width setting.inBuf i).setWidth (8 * low) =
      loadAt low setting.inBuf i := by
    apply eq_of_bytes
    intro offset offsetInside
    rw [byte_setWidth _ offsetInside, byte_loadAt _ _ (by omega),
      byte_loadAt _ _ offsetInside]
  rw [← lowPart]
  exact near.1

theorem covered_of_nearLow_swapped (inside : i + width ≤ setting.len)
    {swap : BitVec (8 * width) → BitVec (8 * width)} (reverses : Reverses swap)
    (narrowReverses : Reverses narrowSwap)
    (narrower : ∀ i, i + low ≤ setting.len → ∀ part : BitVec (8 * low),
      NearSwapped narrowSwap (loadAt low setting.inBuf i) part →
      setting.Covered order (storeAt low setting.inBuf i part))
    {step : BitVec (8 * width)}
    (near : NearLow low (swap (loadAt width setting.inBuf i)) step) :
    setting.Covered order (storeAt width setting.inBuf i (swap step)) := by
  have narrow : storeAt width setting.inBuf i (swap step) =
      storeAt low setting.inBuf (i + (width - low))
        (narrowSwap (step.setWidth (8 * low))) := by
    apply storeAt_narrow _ _ _ _ _ (by omega)
    · intro offset offsetInside
      have mirrored : width - 1 - (width - low + offset) = low - 1 - offset := by omega
      rw [reverses _ _ (by omega), narrowReverses _ _ offsetInside,
        byte_setWidth _ (by omega), mirrored]
    · intro offset offsetInside outside
      have mirrored : width - 1 - (width - 1 - offset) = offset := by omega
      rw [reverses _ _ offsetInside, near.2 (width - 1 - offset) (by omega) (by omega),
        reverses _ _ (by omega), mirrored, byte_loadAt _ _ offsetInside]
  rw [narrow]
  apply narrower (i + (width - low)) (by omega)
  right
  have lowPart : narrowSwap (loadAt low setting.inBuf (i + (width - low))) =
      (swap (loadAt width setting.inBuf i)).setWidth (8 * low) := by
    apply eq_of_bytes
    intro offset offsetInside
    have position : i + (width - low) + (low - 1 - offset) =
        i + (width - 1 - offset) := by omega
    rw [narrowReverses _ _ offsetInside, byte_loadAt _ _ (by omega),
      byte_setWidth _ offsetInside, reverses _ _ (by omega),
      byte_loadAt _ _ (by omega), position]
  have back : narrowSwap (narrowSwap (step.setWidth (8 * low))) =
      step.setWidth (8 * low) := by
    apply eq_of_bytes
    intro offset offsetInside
    have mirrored : low - 1 - (low - 1 - offset) = offset := by omega
    rw [narrowReverses _ _ offsetInside, narrowReverses _ _ (by omega), mirrored]
  rw [lowPart, back]
  exact near.1

/-- A stage for wide windows covers the arithmetic on these: what its guards
leave out changes the low bytes only. -/
theorem covered_wide {stage : Stage} (small : width ≤ 4) (positive : 0 < width)
    (inside : i + width ≤ setting.len) {swap : BitVec (8 * width) → BitVec (8 * width)}
    (reverses : Reverses swap) (narrowReverses : Reverses narrowSwap)
    {lowPart lowBe : BitVec (8 * width) → Nat}
    (lowPart_eq : ∀ orig, lowPart orig = (orig.setWidth (8 * low)).toNat)
    (lowBe_eq : ∀ orig, lowBe orig = ((swap orig).setWidth (8 * low)).toNat)
    (limit_eq : limit + 1 = 2 ^ (8 * low)) (runs : setting.runs stage = true)
    (afterFlips : 6 ≤ stage.order)
    (events : setting.stageEvents stage = setting.windowEvents stage width
      (arithCandidates (wideAttempts width swap lowPart lowBe limit)))
    (narrower : ∀ i, i + low ≤ setting.len → ∀ part : BitVec (8 * low),
      NearSwapped narrowSwap (loadAt low setting.inBuf i) part →
      setting.Covered stage.order (storeAt low setting.inBuf i part))
    {new : BitVec (8 * width)}
    (near : NearSwapped swap (loadAt width setting.inBuf i) new) :
    setting.Covered (stage.order + 1) (storeAt width setting.inBuf i new) := by
  have involutive (word : BitVec (8 * width)) : swap (swap word) = word := by
    apply eq_of_bytes
    intro offset offsetInside
    have mirrored : width - 1 - (width - 1 - offset) = offset := by omega
    rw [reverses _ _ offsetInside, reverses _ _ (by omega), mirrored]
  have covered {j : Nat} (atLeast : 1 ≤ j) (bounded : j ≤ arithMax)
      (candidate : Attempt width)
      (member : candidate ∈ wideAttempts width swap lowPart lowBe limit
        (loadAt width setting.inBuf i) j)
      (guard : candidate.guard = true)
      (checked : candidate.skippedBy =
        checkBitflip (loadAt width setting.inBuf i) candidate.new) :
      setting.Covered (stage.order + 1)
        (storeAt width setting.inBuf i candidate.new) := by
    apply covered_of_arithCandidate small inside runs afterFlips _ checked
    rw [events]
    exact mem_windowEvents positive inside
      (mem_arithCandidates atLeast bounded member) guard
  generalize isOrig : loadAt width setting.inBuf i = orig at near covered
  rcases near with ⟨j, atLeast, bounded, up | down⟩ |
    ⟨j, atLeast, bounded, up | down⟩
  · subst up
    by_cases guard : limit < lowPart orig + j
    · exact covered atLeast bounded _ List.mem_cons_self
        (decide_eq_true guard) rfl
    · rw [lowPart_eq] at guard
      apply Covered.mono _ (Nat.le_succ _)
      apply covered_of_nearLow fits inside narrower
      rw [isOrig]
      exact nearLow_up fits orig atLeast bounded (by omega)
  · subst down
    by_cases guard : lowPart orig < j
    · exact covered atLeast bounded _
        (List.mem_cons_of_mem _ List.mem_cons_self) (decide_eq_true guard) rfl
    · rw [lowPart_eq] at guard
      apply Covered.mono _ (Nat.le_succ _)
      apply covered_of_nearLow fits inside narrower
      rw [isOrig]
      exact nearLow_down fits orig atLeast bounded (by omega)
  · rw [← involutive new, up]
    by_cases guard : limit < lowBe orig + j
    · exact covered atLeast bounded _
        (List.mem_cons_of_mem _ (List.mem_cons_of_mem _ List.mem_cons_self))
        (decide_eq_true guard) rfl
    · rw [lowBe_eq] at guard
      apply Covered.mono _ (Nat.le_succ _)
      apply covered_of_nearLow_swapped fits inside reverses narrowReverses
        narrower
      rw [isOrig]
      exact nearLow_up fits (swap orig) atLeast bounded (by omega)
  · rw [← involutive new, down]
    by_cases guard : lowBe orig < j
    · exact covered atLeast bounded _
        (List.mem_cons_of_mem _ (List.mem_cons_of_mem _
          (List.mem_cons_of_mem _ List.mem_cons_self)))
        (decide_eq_true guard) rfl
    · rw [lowBe_eq] at guard
      apply Covered.mono _ (Nat.le_succ _)
      apply covered_of_nearLow_swapped fits inside reverses narrowReverses
        narrower
      rw [isOrig]
      exact nearLow_down fits (swap orig) atLeast bounded (by omega)

end

theorem reverses_swap16 : @Reverses 2 swap16 := by
  intro word offset inside
  exact byte_swap16 word inside

theorem reverses_swap32 : @Reverses 4 swap32 := by
  intro word offset inside
  exact byte_swap32 word inside

theorem covered_arith16 (arithOn : setting.noArith = false) (inside : i + 2 ≤ setting.len)
    {new : BitVec (8 * 2)} (near : NearSwapped swap16 (loadAt 2 setting.inBuf i) new) :
    setting.Covered 8 (storeAt 2 setting.inBuf i new) := by
  have single : @Reverses 1 id := by
    intro word offset offsetInside
    have zero : offset = 0 := by omega
    subst zero
    rfl
  change setting.Covered (Stage.arith16.order + 1) _
  apply covered_wide (by omega : 1 ≤ 2) (by omega) (by omega) inside
    reverses_swap16 single _ _ rfl (by simp [runs, arithOn]) (by decide) rfl _
    near
  · intro orig
    rw [BitVec.toNat_and, BitVec.toNat_setWidth]
    exact Nat.and_two_pow_sub_one_eq_mod orig.toNat 8
  · intro orig
    have highByte : (swap16 orig).setWidth (8 * 1) = @byte 2 orig 1 := by
      rw [← byte_swap16 orig (by omega : 0 < 2), byte]
      apply BitVec.eq_of_getLsbD_eq
      intro bit _
      rw [BitVec.getLsbD_setWidth, BitVec.getLsbD_extractLsb', Nat.mul_zero,
        Nat.zero_add]
    have bound := orig.isLt
    rw [highByte, toNat_byte, BitVec.toNat_ushiftRight, Nat.shiftRight_eq_div_pow]
    omega
  · intro i inside part near
    apply covered_arith8 arithOn inside
    rcases near with near | near
    · exact near
    · exact near

theorem covered_arith32 (arithOn : setting.noArith = false) (inside : i + 4 ≤ setting.len)
    {new : BitVec (8 * 4)} (near : NearSwapped swap32 (loadAt 4 setting.inBuf i) new) :
    setting.Covered 9 (storeAt 4 setting.inBuf i new) := by
  have lowPart (word : BitVec 32) : (word &&& 0xffff#32).toNat =
      (word.setWidth (8 * 2)).toNat := by
    rw [BitVec.toNat_and, BitVec.toNat_setWidth]
    exact Nat.and_two_pow_sub_one_eq_mod word.toNat 16
  change setting.Covered (Stage.arith32.order + 1) _
  apply covered_wide (by omega : 2 ≤ 4) (by omega) (by omega) inside
    reverses_swap32 reverses_swap16 lowPart
    (fun orig => lowPart (swap32 orig)) rfl (by simp [runs, arithOn])
    (by decide) rfl _ near
  intro i inside part near
  exact covered_arith16 arithOn inside near

/-- What a change of some bytes covers, covers the same change in a window. -/
theorem covered_of_part {width narrow m : Nat} (fits : m + narrow ≤ width)
    {new : BitVec (8 * width)} (part : BitVec (8 * narrow))
    (isPart : ∀ offset < narrow, byte new (m + offset) = byte part offset)
    (others : SameOutside (loadAt width setting.inBuf i) new m (m + narrow))
    (covered : setting.Covered order (storeAt narrow setting.inBuf (i + m) part)) :
    setting.Covered order (storeAt width setting.inBuf i new) := by
  rw [storeAt_narrow setting.inBuf i m new part fits isPart]
  · exact covered
  · intro offset inside outside
    rw [others offset inside outside, byte_loadAt _ _ inside]

/-- With the arithmetic stages on, what could be arithmetic is covered. -/
theorem covered_of_couldBeArith (arithOn : setting.noArith = false) {width : Nat}
    (widths : width = 1 ∨ width = 2 ∨ width = 4) (inside : i + width ≤ setting.len)
    {new : BitVec (8 * width)}
    (could : couldBeArith ((loadAt width setting.inBuf i).setWidth 32)
      (new.setWidth 32) width = true) :
    setting.Covered 9 (storeAt width setting.inBuf i new) := by
  cases couldBeArith_cases widths could with
  | same equal =>
      left
      rw [← equal, storeAt_loadAt]
  | byte m byteInside near others =>
      apply covered_of_part (by omega : m + 1 ≤ width) (byte new m) _ others
      · apply Covered.mono _ (by omega : 7 ≤ 9)
        apply covered_arith8 arithOn (by omega)
        rw [loadAt_one, ← byte_loadAt setting.inBuf i byteInside]
        exact near
      · intro offset offsetInside
        rw [byte_single _ offsetInside, Nat.lt_one_iff.mp offsetInside, Nat.add_zero]
  | word m wordInside near others =>
      apply covered_of_part (by omega : 2 * m + 2 ≤ width) (half new m) _ others
      · apply Covered.mono _ (by omega : 8 ≤ 9)
        apply covered_arith16 arithOn (by omega)
        rw [loadAt_half _ _ wordInside]
        exact near
      · intro offset offsetInside
        exact (byte_half new m offsetInside).symm
  | dword isDword near =>
      subst isDword
      rw [BitVec.setWidth_eq, BitVec.setWidth_eq] at near
      exact covered_arith32 arithOn inside near

/-! ## Interesting values -/

theorem mem_interestCandidates {width : Nat}
    {attempts : BitVec (8 * width) → BitVec (8 * width) → List (Attempt width)}
    {values : List (BitVec (8 * width))} {orig value : BitVec (8 * width)}
    (isValue : value ∈ values) {candidate : Attempt width}
    (member : candidate ∈ attempts orig value) :
    candidate ∈ interestCandidates attempts values orig :=
  List.mem_flatMap.mpr ⟨value, isValue, member⟩

/-- Why a candidate of the stages for interesting values is skipped. -/
theorem covered_of_skipped (arithOn : setting.noArith = false) {width : Nat}
    (widths : width = 1 ∨ width = 2 ∨ width = 4) (inside : i + width ≤ setting.len)
    (afterArith : 9 ≤ order) {new : BitVec (8 * width)} {interest : Bool}
    (skipped : checkInterest (loadAt width setting.inBuf i) new interest =
      some predicate) (covered : interest = true →
      setting.Covered order (storeAt width setting.inBuf i new)) :
    setting.Covered order (storeAt width setting.inBuf i new) := by
  unfold checkInterest at skipped
  split at skipped
  · rename_i could
    exact (covered_of_couldBeBitflip (by omega) inside could).mono (by omega)
  · split at skipped
    · rename_i could
      exact (covered_of_couldBeArith arithOn widths inside could).mono
        afterArith
    · split at skipped
      · rename_i could
        exact covered could
      · cases skipped

/-- A candidate is executed or skipped. -/
theorem covered_of_candidate {stage : Stage} {width : Nat}
    (runs : setting.runs stage = true) {candidate : Attempt width}
    (member : setting.event stage i candidate ∈ setting.stageEvents stage)
    (skipped : ∀ predicate, candidate.skippedBy = some predicate →
      setting.Covered stage.order
        (storeAt width setting.inBuf i candidate.new)) :
    setting.Covered (stage.order + 1)
      (storeAt width setting.inBuf i candidate.new) := by
  cases outcome : candidate.skippedBy with
  | none =>
      right
      right
      exact ⟨stage, Nat.lt_succ_self _, runs, _, member, outcome, rfl⟩
  | some predicate => exact (skipped predicate outcome).mono (Nat.le_succ _)

/-- A value of a stage for wide windows is skipped for one of the reasons that
cover it, or because it is one of the values itself. -/
def InterestCovered (setting : Setting) (stage : Stage) (width : Nat)
    (values : List (BitVec (8 * width))) : Prop :=
  ∀ i, i + width ≤ setting.len → ∀ (new : BitVec (8 * width)) (checkLe : Bool),
    couldBeInterest ((loadAt width setting.inBuf i).setWidth 32)
      (new.setWidth 32) width checkLe = true →
    setting.Covered stage.order (storeAt width setting.inBuf i new) ∨
      (checkLe = true ∧ new ∈ values)

/-- What the lemmas about a stage for wide windows share. -/
structure InterestStage (setting : Setting) (stage : Stage) (width : Nat)
    (swap : BitVec (8 * width) → BitVec (8 * width))
    (values : List (BitVec (8 * width))) : Prop where
  arithOn : setting.noArith = false
  widths : width = 2 ∨ width = 4
  afterArith : 9 ≤ stage.order
  runs : setting.runs stage = true
  events : setting.stageEvents stage = setting.windowEvents stage width
    (interestCandidates (wideInterest width swap) values)
  origins : InterestCovered setting stage width values

namespace InterestStage

variable {stage : Stage} {width : Nat}
  {swap : BitVec (8 * width) → BitVec (8 * width)}
  {values : List (BitVec (8 * width))}

/-- The candidate in little endian. -/
def little (orig value : BitVec (8 * width)) : Attempt width :=
  ⟨true, .le, value, checkInterest orig value
    (couldBeInterest (orig.setWidth 32) (value.setWidth 32) width false)⟩

variable {value : BitVec (8 * width)}

section

variable (interest : InterestStage setting stage width swap values)
    (inside : i + width ≤ setting.len)
include interest inside

theorem mem_little (isValue : value ∈ values) :
    setting.event stage i (little (loadAt width setting.inBuf i) value) ∈
      setting.stageEvents stage := by
  rw [interest.events]
  have positive : 0 < width := by
    have widths := interest.widths
    omega
  exact mem_windowEvents positive inside
    (mem_interestCandidates isValue List.mem_cons_self) rfl

theorem skipped_little
    (skipped : (little (loadAt width setting.inBuf i) value).skippedBy =
      some predicate) :
    setting.Covered stage.order (storeAt width setting.inBuf i value) := by
  apply covered_of_skipped interest.arithOn (.inr interest.widths) inside
    interest.afterArith skipped
  intro could
  rcases interest.origins i inside value false could with
    covered | ⟨checked, _⟩
  · exact covered
  · cases checked

theorem covered_little (isValue : value ∈ values) :
    setting.Covered (stage.order + 1)
      (storeAt width setting.inBuf i value) := by
  apply covered_of_candidate interest.runs (interest.mem_little inside isValue)
  intro predicate skipped
  exact interest.skipped_little inside skipped

/-- A big-endian candidate is skipped because it was made before, or because
it is a little-endian value of the same stage. -/
theorem skipped_big {new : BitVec (8 * width)}
    (skipped : checkInterest (loadAt width setting.inBuf i) new
      (couldBeInterest ((loadAt width setting.inBuf i).setWidth 32)
        (new.setWidth 32) width true) = some predicate) :
    setting.Covered stage.order (storeAt width setting.inBuf i new) ∨
      new ∈ values := by
  by_cases isValue : new ∈ values
  · exact .inr isValue
  · left
    apply covered_of_skipped interest.arithOn (.inr interest.widths) inside
      interest.afterArith skipped
    intro could
    rcases interest.origins i inside new true could with
      covered | ⟨_, member⟩
    · exact covered
    · exact absurd member isValue

theorem covered_big (isValue : value ∈ values) :
    setting.Covered (stage.order + 1)
      (storeAt width setting.inBuf i (swap value)) := by
  have positive : 0 < width := by
    have widths := interest.widths
    omega
  by_cases palindrome : value = swap value
  · rw [← palindrome]
    exact interest.covered_little inside isValue
  · by_cases isSwapped : swap value ∈ values
    · exact interest.covered_little inside isSwapped
    · have member : setting.event stage i
          ⟨decide (value ≠ swap value), .be, swap value,
            checkInterest (loadAt width setting.inBuf i) (swap value)
              (couldBeInterest ((loadAt width setting.inBuf i).setWidth 32)
                ((swap value).setWidth 32) width true)⟩ ∈
          setting.stageEvents stage := by
        rw [interest.events]
        exact mem_windowEvents positive inside
          (mem_interestCandidates isValue (List.mem_cons_of_mem _ List.mem_cons_self))
          (decide_eq_true palindrome)
      apply covered_of_candidate interest.runs member
      intro predicate skipped
      exact (interest.skipped_big inside skipped).resolve_right isSwapped

end

end InterestStage

section

variable (arithOn : setting.noArith = false)
include arithOn

theorem covered_int8 (inside : i + 1 ≤ setting.len) {value : BitVec 8}
    (isValue : value ∈ interesting8) :
    setting.Covered 10 (storeAt 1 setting.inBuf i value) := by
  have member : setting.event .int8 i
      (int8Attempt (loadAt 1 setting.inBuf i) value) ∈
      setting.stageEvents .int8 :=
    mem_windowEvents Nat.one_pos inside
      (mem_interestCandidates isValue List.mem_cons_self) rfl
  apply covered_of_candidate (rfl : setting.runs .int8 = true) member
  intro predicate skipped
  apply covered_of_skipped arithOn (.inl rfl) inside (by decide) skipped
  intro interest
  cases interest

theorem interestStage_int16 : InterestStage setting .int16 2 swap16 interesting16 where
  arithOn := arithOn
  widths := .inl rfl
  afterArith := by decide
  runs := by simp [runs, arithOn]
  events := rfl
  origins := by
    intro i inside new checkLe could
    cases couldBeInterest_cases (.inl rfl) could with
    | same equal =>
        left
        left
        rw [← equal, storeAt_loadAt]
    | byte m byteInside value member inserts =>
        left
        exact covered_of_part (by omega) value inserts.1 inserts.2
          (covered_int8 arithOn (by omega) member)
    | word m wordInside value member inserts checked =>
        right
        have zero : m = 0 := by omega
        subst zero
        have equal : new = value := by
          apply @eq_of_bytes 2
          intro offset offsetInside
          rw [← inserts.1 offset offsetInside, Nat.zero_add]
        rw [equal]
        exact ⟨checked rfl, member⟩
    | swappedWord m wordInside value member inserts wide => omega
    | dword isDword checked value member equal => omega

theorem interestStage_int32 : InterestStage setting .int32 4 swap32 interesting32 where
  arithOn := arithOn
  widths := .inr rfl
  afterArith := by decide
  runs := by simp [runs, arithOn]
  events := rfl
  origins := by
    have words := interestStage_int16 arithOn
    intro i inside new checkLe could
    cases couldBeInterest_cases (.inr rfl) could with
    | same equal =>
        left
        left
        rw [← equal, storeAt_loadAt]
    | byte m byteInside value member inserts =>
        left
        apply covered_of_part (by omega) value inserts.1 inserts.2
        exact (covered_int8 arithOn (by omega) member).mono (by decide)
    | word m wordInside value member inserts checked =>
        left
        exact covered_of_part (by omega) value inserts.1 inserts.2
          (words.covered_little (by omega) member)
    | swappedWord m wordInside value member inserts wide =>
        left
        apply covered_of_part (by omega) (swap16 value) inserts.1 inserts.2
        exact words.covered_big (by omega) member
    | dword isDword checked value member equal =>
        right
        rw [BitVec.setWidth_eq] at equal
        rw [equal]
        exact ⟨checked, member⟩

end

/-! ## Skipped candidates -/

/-- The little-endian half of a stage makes the buffer of an event at the same
place. -/
def MadeLittle (setting : Setting) (event : Event) : Prop :=
  event.stageValType = .be ∧ ∃ other ∈ setting.stageEvents event.stage,
    other.executed ∧ other.stageCurByte = event.stageCurByte ∧
      other.stageValType = .le ∧ other.buffer = event.buffer

theorem exists_of_mem_windowEvents {stage : Stage} {width : Nat} (positive : 0 < width)
    {candidates : BitVec (8 * width) → List (Attempt width)}
    (member : event ∈ setting.windowEvents stage width candidates) :
    ∃ i, i + width ≤ setting.len ∧
      ∃ candidate ∈ candidates (loadAt width setting.inBuf i),
        candidate.guard = true ∧ setting.event stage i candidate = event := by
  obtain ⟨i, isWindow, attempted⟩ := List.mem_flatMap.mp member
  obtain ⟨candidate, kept, isEvent⟩ := List.mem_map.mp attempted
  obtain ⟨isCandidate, guard⟩ := List.mem_filter.mp kept
  have inside := List.mem_range.mp isWindow
  exact ⟨i, by omega, candidate, isCandidate, guard, isEvent⟩

theorem executed_of_mem_flipEvents {stage : Stage}
    (member : event ∈ setting.flipEvents stage stageCurByte flip count) :
    event.executed := by
  obtain ⟨stageCur, _, rfl⟩ := List.mem_map.mp member
  rfl

theorem skipped_arith {stage : Stage} {width : Nat} (positive : 0 < width)
    (fits : width ≤ 4) (afterFlips : 6 ≤ stage.order)
    {attempts : BitVec (8 * width) → Nat → List (Attempt width)}
    (checked : ∀ orig j, ∀ candidate ∈ attempts orig j,
      candidate.skippedBy = checkBitflip orig candidate.new) (member : event ∈
      setting.windowEvents stage width (arithCandidates attempts))
    (skipped : event.skippedBy = some predicate) :
    setting.Covered stage.order event.buffer := by
  obtain ⟨i, inside, candidate, isCandidate, _, rfl⟩ :=
    exists_of_mem_windowEvents positive member
  obtain ⟨j, _, isAttempt⟩ := List.mem_flatMap.mp isCandidate
  have check : checkBitflip (loadAt width setting.inBuf i) candidate.new =
      some predicate := by
    rw [← checked _ _ candidate isAttempt]
    exact skipped
  unfold checkBitflip at check
  split at check
  · rename_i could
    exact (covered_of_couldBeBitflip fits inside could).mono afterFlips
  · cases check

theorem checked_arith8 (orig : BitVec (8 * 1)) (j : Nat) :
    ∀ candidate ∈ arith8Attempts orig j,
      candidate.skippedBy = checkBitflip orig candidate.new := by
  intro candidate member
  simp only [arith8Attempts, List.mem_cons, List.not_mem_nil, or_false]
    at member
  rcases member with rfl | rfl
  · rfl
  · rfl

theorem checked_wide {width : Nat} {swap : BitVec (8 * width) → BitVec (8 * width)}
    {lowPart lowBe : BitVec (8 * width) → Nat} (orig : BitVec (8 * width)) (j : Nat) :
    ∀ candidate ∈ wideAttempts width swap lowPart lowBe limit orig j,
      candidate.skippedBy = checkBitflip orig candidate.new := by
  intro candidate member
  simp only [wideAttempts, List.mem_cons, List.not_mem_nil, or_false]
    at member
  rcases member with rfl | rfl | rfl | rfl
  · rfl
  · rfl
  · rfl
  · rfl

theorem skipped_int8 (member : event ∈ setting.stageEvents .int8)
    (skipped : event.skippedBy = some predicate)
    (arithRan : setting.noArith = true → predicate ≠ .arith) :
    setting.Covered 9 event.buffer := by
  obtain ⟨i, inside, candidate, isCandidate, _, rfl⟩ :=
    exists_of_mem_windowEvents Nat.one_pos member
  obtain ⟨value, _, isAttempt⟩ := List.mem_flatMap.mp isCandidate
  have isInt8 := List.mem_singleton.mp isAttempt
  subst isInt8
  have check : checkInterest (loadAt 1 setting.inBuf i) value false =
      some predicate := skipped
  unfold checkInterest at check
  split at check
  · rename_i could
    exact (covered_of_couldBeBitflip (by omega) inside could).mono (by omega)
  · split at check
    · rename_i could
      cases noArith : setting.noArith with
      | true =>
          have isArith := Option.some.inj check
          exact absurd isArith.symm (arithRan noArith)
      | false => exact covered_of_couldBeArith noArith (.inl rfl) inside could
    · cases check

theorem InterestStage.skipped {stage : Stage} {width : Nat}
    {swap : BitVec (8 * width) → BitVec (8 * width)} {values : List (BitVec (8 * width))}
    (interest : InterestStage setting stage width swap values)
    (member : event ∈ setting.stageEvents stage)
    (skipped : event.skippedBy = some predicate) :
    setting.Covered stage.order event.buffer ∨ setting.MadeLittle event := by
  have positive : 0 < width := by
    have widths := interest.widths
    omega
  rw [interest.events] at member
  obtain ⟨i, inside, candidate, isCandidate, _, rfl⟩ :=
    exists_of_mem_windowEvents positive member
  obtain ⟨value, isValue, isAttempt⟩ := List.mem_flatMap.mp isCandidate
  rcases List.mem_cons.mp isAttempt with isLittle | isBig
  · subst isLittle
    exact .inl (interest.skipped_little inside skipped)
  · have isBig := List.mem_singleton.mp isBig
    subst isBig
    rcases interest.skipped_big inside skipped with covered | isSwapped
    · exact .inl covered
    · -- the value in the other byte order is one of the stage's own
      cases outcome : (InterestStage.little (loadAt width setting.inBuf i)
          (swap value)).skippedBy with
      | some other =>
          exact .inl (interest.skipped_little inside outcome)
      | none =>
          refine .inr ⟨rfl, _, interest.mem_little inside isSwapped, outcome,
            rfl, rfl, rfl⟩

theorem skipped_stage {stage : Stage} (runs : setting.runs stage = true)
    (member : event ∈ setting.stageEvents stage)
    (skipped : event.skippedBy = some predicate)
    (arithRan : setting.noArith = true → predicate ≠ .arith) :
    setting.Covered stage.order event.buffer ∨ setting.MadeLittle event := by
  have notExecuted : ¬ event.executed := by
    intro executed
    rw [Event.executed, skipped] at executed
    cases executed
  cases stage with
  | flip1 => exact absurd (executed_of_mem_flipEvents member) notExecuted
  | flip2 => exact absurd (executed_of_mem_flipEvents member) notExecuted
  | flip4 => exact absurd (executed_of_mem_flipEvents member) notExecuted
  | flip8 => exact absurd (executed_of_mem_flipEvents member) notExecuted
  | flip16 => exact absurd (executed_of_mem_flipEvents member) notExecuted
  | flip32 => exact absurd (executed_of_mem_flipEvents member) notExecuted
  | arith8 =>
      exact .inl (skipped_arith Nat.one_pos (by omega) (by decide)
        checked_arith8 member skipped)
  | arith16 =>
      exact .inl (skipped_arith Nat.two_pos (by omega) (by decide)
        checked_wide member skipped)
  | arith32 =>
      exact .inl (skipped_arith (by omega) (by omega) (by decide)
        checked_wide member skipped)
  | int8 => exact .inl (skipped_int8 member skipped arithRan)
  | int16 =>
      have arithOn : setting.noArith = false := by simpa [Setting.runs] using runs
      exact (interestStage_int16 arithOn).skipped member skipped
  | int32 =>
      have arithOn : setting.noArith = false := by simpa [Setting.runs] using runs
      exact (interestStage_int32 arithOn).skipped member skipped

/-! ## The order of the events -/

theorem stage_of_mem {stage : Stage} (member : event ∈ setting.stageEvents stage) :
    event.stage = stage := by
  have flips {stage : Stage} {stageCurByte : Nat → Nat}
      {flip : Nat → Buffer → Buffer} {count : Nat}
      (member : event ∈ setting.flipEvents stage stageCurByte flip count) :
      event.stage = stage := by
    obtain ⟨stageCur, _, rfl⟩ := List.mem_map.mp member
    rfl
  have windows {stage : Stage} {width : Nat} (positive : 0 < width)
      {candidates : BitVec (8 * width) → List (Attempt width)}
      (member : event ∈ setting.windowEvents stage width candidates) :
      event.stage = stage := by
    obtain ⟨_, _, _, _, _, rfl⟩ := exists_of_mem_windowEvents positive member
    rfl
  cases stage with
  | flip1 => exact flips member
  | flip2 => exact flips member
  | flip4 => exact flips member
  | flip8 => exact flips member
  | flip16 => exact flips member
  | flip32 => exact flips member
  | arith8 => exact windows (by omega) member
  | arith16 => exact windows (by omega) member
  | arith32 => exact windows (by omega) member
  | int8 => exact windows (by omega) member
  | int16 => exact windows (by omega) member
  | int32 => exact windows (by omega) member

theorem mem_fuzzOne (full : setting.Full) :
    event ∈ setting.fuzzOne.events ↔
      ∃ stage, setting.runs stage = true ∧ event ∈ setting.stageEvents stage := by
  rw [fuzzOne_events full, List.mem_flatMap]
  constructor
  · rintro ⟨stage, _, member⟩
    split at member
    · rename_i runs
      exact ⟨stage, runs, member⟩
    · cases member
  · rintro ⟨stage, runs, member⟩
    refine ⟨stage, ?_, by rw [if_pos runs]; exact member⟩
    cases stage with
    | flip1 | flip2 | flip4 | flip8 | flip16 | flip32 | arith8 | arith16
      | arith32 | int8 | int16 | int32 => simp

theorem fuzzOne_ordered (full : setting.Full) :
    setting.fuzzOne.events.Pairwise
      (fun first second => first.stage.order ≤ second.stage.order) := by
  have ofStage {stage : Stage} {event : Event}
      (member : event ∈ if setting.runs stage = true then
        setting.stageEvents stage else []) : event.stage = stage := by
    split at member
    · exact stage_of_mem member
    · cases member
  rw [fuzzOne_events full, List.pairwise_flatMap]
  constructor
  · intro stage _
    apply List.pairwise_of_forall_mem_list
    intro first isFirst second isSecond
    rw [ofStage isFirst, ofStage isSecond]
  · have ordered : [Stage.flip1, .flip2, .flip4, .flip8, .flip16, .flip32,
        .arith8, .arith16, .arith32, .int8, .int16, .int32].Pairwise
        (fun first second => first.order ≤ second.order) := by decide
    apply ordered.imp
    intro first second inOrder event isEvent other isOther
    rw [ofStage isEvent, ofStage isOther]
    exact inOrder

theorem mem_before (full : setting.Full) {before after : List Event} {earlier : Event}
    (split : setting.fuzzOne.events = before ++ event :: after)
    (member : earlier ∈ setting.fuzzOne.events)
    (isEarlier : earlier.stage.order < event.stage.order) :
    earlier ∈ before := by
  have ordered := fuzzOne_ordered full
  rw [split] at ordered member
  rcases List.mem_append.mp member with isBefore | notBefore
  · exact isBefore
  · have rest := (List.pairwise_append.mp ordered).2.1
    rcases List.mem_cons.mp notBefore with same | isAfter
    · subst same
      omega
    · have inOrder := (List.pairwise_cons.mp rest).1 earlier isAfter
      omega

end Setting

/-! ## Skipping is sound -/

/-- With the effector map full, a candidate that a predicate rejects leaves
the input as it is, or makes a buffer that an earlier stage executed, or one
that the little-endian half of its stage executes at the same place. A run of
bits across two bytes is left out, and so is what could be arithmetic when the
arithmetic stages are off. -/
theorem Setting.skipped_covered {setting : Setting} (full : setting.Full)
    {before after : List Event} {event : Event}
    (split : setting.fuzzOne.events = before ++ event :: after)
    {predicate : Predicate} (skipped : event.skippedBy = some predicate)
    (withinBytes : ¬ CrossesByte setting.inBuf event.buffer)
    (arithRan : setting.noArith = true → predicate ≠ .arith) :
    event.buffer = setting.inBuf ∨
      (∃ earlier ∈ before, earlier.executed ∧ earlier.stage.order < event.stage.order ∧
        earlier.buffer = event.buffer) ∨
      (event.stageValType = .be ∧ ∃ other ∈ setting.fuzzOne.events,
        other.executed ∧ other.stage = event.stage ∧
          other.stageCurByte = event.stageCurByte ∧
          other.stageValType = .le ∧ other.buffer = event.buffer) := by
  have isEvent : event ∈ setting.fuzzOne.events := by
    rw [split]
    exact List.mem_append_right before List.mem_cons_self
  obtain ⟨stage, runs, inStage⟩ := (mem_fuzzOne full).mp isEvent
  have isStage := stage_of_mem inStage
  rcases skipped_stage runs inStage skipped arithRan with
    (same | crosses | ⟨earlierStage, isEarlier, earlierRuns, earlier,
      inEarlier, executed, sameBuffer⟩) |
    ⟨bigEndian, other, inSame, executed, sameByte, little, sameBuffer⟩
  · exact .inl same
  · exact absurd crosses withinBytes
  · right
    left
    have before_ : earlier.stage.order < event.stage.order := by
      rw [stage_of_mem inEarlier, isStage]
      exact isEarlier
    have member := (mem_fuzzOne full).mpr ⟨earlierStage, earlierRuns, inEarlier⟩
    exact ⟨earlier, mem_before full split member before_, executed, before_,
      sameBuffer⟩
  · right
    right
    have sameStage := stage_of_mem inSame
    rw [isStage] at inSame
    exact ⟨bigEndian, other, (mem_fuzzOne full).mpr ⟨stage, runs, inSame⟩,
      executed, sameStage, sameByte, little, sameBuffer⟩

/-- An input of one zero byte. -/
def zeroByte : Setting where
  len := 1
  nonempty := by decide
  bounded := by decide
  inBuf := fun _ => 0#8
  effMap := fun _ => true
  noArith := false

theorem full_zeroByte : zeroByte.Full := by
  intro i _
  rfl

/-- Writing -128 is skipped, after the walking bit has executed it. -/
theorem Setting.skipped_covered_zeroByte :
    ∃ before after event,
      zeroByte.fuzzOne.events = before ++ event :: after ∧
        event.skippedBy = some .bitflip ∧ event.buffer 0 = 0x80#8 ∧
        ∃ earlier ∈ before, earlier.executed ∧ earlier.buffer 0 = 0x80#8 := by
  have member : zeroByte.event .int8 0
      (int8Attempt (loadAt 1 zeroByte.inBuf 0) 0x80#8) ∈
      zeroByte.stageEvents .int8 :=
    mem_windowEvents Nat.one_pos (by decide)
      (mem_interestCandidates (by decide) List.mem_cons_self) rfl
  generalize isEvent : zeroByte.event .int8 0
    (int8Attempt (loadAt 1 zeroByte.inBuf 0) 0x80#8) = event at member
  obtain ⟨before, after, split⟩ := List.append_of_mem
    ((mem_fuzzOne full_zeroByte).mpr ⟨.int8, rfl, member⟩)
  have skipped : event.skippedBy = some .bitflip := by
    rw [← isEvent]
    decide
  have buffer : event.buffer 0 = 0x80#8 := by
    rw [← isEvent]
    decide
  have withinBytes : ¬ CrossesByte zeroByte.inBuf event.buffer := by
    rintro ⟨address, run, isRun, changed⟩
    have next := congrFun changed (address + 1)
    rw [storeAt_inside _ _ _ (by omega : 1 < 2), ← isEvent] at next
    have untouched : (zeroByte.event .int8 0
        (int8Attempt (loadAt 1 zeroByte.inBuf 0) 0x80#8)).buffer
        (address + 1) = 0#8 := by
      change storeAt 1 zeroByte.inBuf 0 0x80#8 (address + 1) = 0#8
      rw [storeAt_outside _ _ _ (by omega)]
      rfl
    have noInput : loadAt 2 zeroByte.inBuf address = 0#16 := by
      apply @eq_of_bytes 2
      intro offset inside
      rw [byte_loadAt _ _ inside, byte_zero]
      rfl
    rw [untouched, noInput, BitVec.zero_xor] at next
    simp only [crossingRuns, List.mem_cons, List.not_mem_nil, or_false] at isRun
    rcases isRun with rfl | rfl | rfl | rfl
    · exact absurd next (by decide)
    · exact absurd next (by decide)
    · exact absurd next (by decide)
    · exact absurd next (by decide)
  refine ⟨before, after, event, split, skipped, buffer, ?_⟩
  rcases Setting.skipped_covered full_zeroByte split skipped withinBytes
      (by decide) with
    same | ⟨earlier, isBefore, executed, _, sameBuffer⟩ | ⟨bigEndian, _⟩
  · rw [same] at buffer
    exact absurd buffer (by decide)
  · exact ⟨earlier, isBefore, executed, by rw [sameBuffer, buffer]⟩
  · rw [← isEvent] at bigEndian
    cases bigEndian

/-- Writing 0 over a zero byte is skipped, and no stage executes the input. -/
theorem Setting.skipped_covered_fails_for_same_value :
    ∃ setting : Setting, setting.Full ∧ setting.noArith = false ∧
      ∃ before after event,
        setting.fuzzOne.events = before ++ event :: after ∧
          event.skippedBy = some .bitflip ∧
          ∀ earlier ∈ before, earlier.executed → earlier.buffer ≠ event.buffer := by
  have found : (zeroByte.fuzzOne.events.map fun event =>
      (event.buffer 0, event.skippedBy))[93]? = some (0#8, some .bitflip) := by
    decide +kernel
  have others : ∀ earlier ∈ zeroByte.fuzzOne.events.take 93,
      earlier.executed → earlier.buffer 0 ≠ 0#8 := by
    decide +kernel
  rw [List.getElem?_map, Option.map_eq_some_iff] at found
  obtain ⟨event, isEvent, facts⟩ := found
  obtain ⟨inside, atIndex⟩ := List.getElem?_eq_some_iff.mp isEvent
  have split : zeroByte.fuzzOne.events =
      zeroByte.fuzzOne.events.take 93 ++ event :: zeroByte.fuzzOne.events.drop 94 := by
    rw [← atIndex, List.getElem_cons_drop, List.take_append_drop]
  refine ⟨zeroByte, full_zeroByte, rfl, _, _, event, split,
    congrArg Prod.snd facts, ?_⟩
  intro earlier isEarlier executed same
  apply others earlier isEarlier executed
  rw [same]
  exact congrArg Prod.fst facts

end AFLPlusPlus
