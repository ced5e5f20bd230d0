import AFLPlusPlus.Coverage.Maps

/-!
# Bucketing of hit counts

`classify_counts` replaces every hit count in the trace by its bucket.  The
byte table `count_class_lookup8` is applied through `count_class_lookup16`, a
table on half-words which `init_count_class16` fills at start-up.
-/

namespace AFLPlusPlus

open ByteWord Buffer CoverageMaps

/-- `count_class_lookup8`.  An initialiser `TIMESn` writes `n` entries, so the
entries 64 to 127 and 192 to 255 keep the 0 that the table starts with. -/
def countClassLookup8 (count : BitVec 8) : BitVec 8 :=
  let n := count.toNat
  if n = 0 then 0#8
  else if n = 1 then 1#8
  else if n = 2 then 2#8
  else if n = 3 then 4#8
  else if n < 4 + 4 then 8#8
  else if n < 8 + 8 then 16#8
  else if n < 16 + 16 then 32#8
  else if n < 32 + 32 then 64#8
  else if n < 128 then 0#8
  else if n < 128 + 64 then 128#8
  else 0#8

@[simp] theorem countClassLookup8_zero : countClassLookup8 0#8 = 0#8 := rfl

/-- The entry which `init_count_class16` stores for a pair of bytes. -/
def countClassPair (high low : BitVec 8) : BitVec 16 :=
  (countClassLookup8 high).setWidth 16 <<< 8 |||
    (countClassLookup8 low).setWidth 16

/-- The inner loop body of `init_count_class16`: one assignment. -/
def initCountClass16Entry (b1 b2 : Nat) (table : Nat → BitVec 16) : Nat → BitVec 16 :=
  Function.update table ((b1 <<< 8) + b2)
    (countClassPair (BitVec.ofNat 8 b1) (BitVec.ofNat 8 b2))

/-- `init_count_class16`: the table `count_class_lookup16` it leaves. -/
def initCountClass16 : Nat → BitVec 16 :=
  forRange (fun b1 => forRange (initCountClass16Entry b1) 256) 256
    fun _ => 0#16

def countClassLookup16 (index : BitVec 16) : BitVec 16 := initCountClass16 index.toNat

/-- `classify_word`: the lookup applied to every half-word. -/
def classifyWord (width : Nat) (word : BitVec (8 * width)) : BitVec (8 * width) :=
  mapHalves countClassLookup16 word

/-- One round of the loop of `classify_counts`. -/
def classifyCountsRound (width : Nat) (index : Nat) (trace : Buffer) :
    Buffer :=
  let word := loadWord width trace index
  if word ≠ 0#(8 * width) then
    storeWord width trace index (classifyWord width word)
  else trace

/-- `classify_counts` of either flavour. -/
def classifyCounts (flavour : WordSize) (afl : CoverageMaps) : CoverageMaps :=
  { afl with
    traceBits := forRange (classifyCountsRound flavour.bytes)
      (afl.mapSize / flavour.bytes) afl.traceBits }

private theorem initCountClass16_row (b1 count : Nat) (counted : count ≤ 256)
    (table : Nat → BitVec 16) (row column : Nat) (columnInside : column < 256) :
    forRange (initCountClass16Entry b1) count table (256 * row + column) =
      if row = b1 ∧ column < count then
        countClassPair (BitVec.ofNat 8 b1) (BitVec.ofNat 8 column)
      else table (256 * row + column) := by
  induction count with
  | zero => simp [forRange]
  | succ count induction =>
      have address : (b1 <<< 8) + count = 256 * b1 + count := by
        rw [Nat.shiftLeft_eq]
        omega
      rw [forRange, initCountClass16Entry, address]
      by_cases here : row = b1 ∧ column = count
      · obtain ⟨rfl, rfl⟩ := here
        simp
      · have elsewhere : 256 * row + column ≠ 256 * b1 + count := by
          omega
        rw [Function.update_of_ne elsewhere, induction (by omega)]
        have same : (row = b1 ∧ column < count) ↔
            (row = b1 ∧ column < count + 1) := by omega
        simp only [same]

private theorem initCountClass16_rows (count : Nat) (row column : Nat)
    (columnInside : column < 256) :
    forRange (fun b1 => forRange (initCountClass16Entry b1) 256) count
        (fun _ => 0#16) (256 * row + column) =
      if row < count then
        countClassPair (BitVec.ofNat 8 row) (BitVec.ofNat 8 column)
      else 0#16 := by
  induction count with
  | zero => simp [forRange]
  | succ count induction =>
      rw [forRange, initCountClass16_row count 256 (Nat.le_refl _) _ row
        column columnInside, induction]
      by_cases here : row = count
      · subst row
        simp [columnInside]
      · have same : row < count ↔ row < count + 1 := by omega
        simp only [here, false_and, if_false, same]

theorem initCountClass16_eq {high low : Nat} (highInside : high < 256)
    (lowInside : low < 256) :
    initCountClass16 ((high <<< 8) + low) =
      countClassPair (BitVec.ofNat 8 high) (BitVec.ofNat 8 low) := by
  have address : (high <<< 8) + low = 256 * high + low := by
    rw [Nat.shiftLeft_eq]
    omega
  rw [initCountClass16, address,
    initCountClass16_rows 256 high low lowInside, if_pos highInside]

theorem countClassLookup16_eq (index : BitVec 16) :
    countClassLookup16 index =
      countClassPair (index.extractLsb' 8 8) (index.extractLsb' 0 8) := by
  have bounded := index.isLt
  have address : index.toNat = ((index.toNat / 256) <<< 8) + index.toNat % 256 := by
    rw [Nat.shiftLeft_eq]
    omega
  have high : BitVec.ofNat 8 (index.toNat / 256) = index.extractLsb' 8 8 := by
    apply BitVec.eq_of_toNat_eq
    simp [BitVec.extractLsb'_toNat, Nat.shiftRight_eq_div_pow]
  have low : BitVec.ofNat 8 (index.toNat % 256) = index.extractLsb' 0 8 := by
    apply BitVec.eq_of_toNat_eq
    simp [BitVec.extractLsb'_toNat]
  rw [countClassLookup16, address,
    initCountClass16_eq (by omega) (Nat.mod_lt _ (by decide)), high, low]

theorem countClassPair_low (high low : BitVec 8) :
    (countClassPair high low).extractLsb' 0 8 = countClassLookup8 low := by
  unfold countClassPair
  generalize countClassLookup8 high = first
  generalize countClassLookup8 low = second
  apply BitVec.eq_of_getElem_eq
  intro bit inside
  have wide : bit < 16 := by omega
  simp [inside, wide]

theorem countClassPair_high (high low : BitVec 8) :
    (countClassPair high low).extractLsb' 8 8 = countClassLookup8 high := by
  unfold countClassPair
  generalize countClassLookup8 high = first
  generalize countClassLookup8 low = second
  apply BitVec.eq_of_getElem_eq
  intro bit inside
  have wide : 8 + bit < 16 := by omega
  simp [inside, wide]

theorem byte_classifyWord {width : Nat} (word : BitVec (8 * width))
    {index : Nat} (inside : index < width) :
    byte (classifyWord width word) index = countClassLookup8 (byte word index) := by
  apply byte_mapHalves _ _ word inside
  · intro value
    rw [countClassLookup16_eq, countClassPair_low]
  · intro value
    rw [countClassLookup16_eq, countClassPair_high]

/-- The trace with every hit count below `size` bucketed. -/
def bucketed (size : Nat) (trace : Buffer) : Buffer :=
  fun address =>
    if address < size then countClassLookup8 (trace address)
    else trace address

private theorem classifyCountsRound_bucketed {width : Nat}
    (positive : 0 < width) (trace : Buffer) (index : Nat) :
    classifyCountsRound width index (bucketed (width * index) trace) =
      bucketed (width * (index + 1)) trace := by
  have traceBytes : ∀ offset < width,
      bucketed (width * index) trace (width * index + offset) =
        trace (width * index + offset) := by
    intro offset _
    have after : ¬width * index + offset < width * index := by omega
    simp only [bucketed, after, if_false]
  have stored : storeWord width (bucketed (width * index) trace) index
      (classifyWord width (loadWord width (bucketed (width * index) trace) index)) =
      bucketed (width * (index + 1)) trace := by
    funext address
    rw [storeWord_bytewise _ _ _
      (fun address => countClassLookup8 (trace address)) positive]
    · by_cases here : address / width = index
      · have inside := ((address_range _ _ positive).mp here).2
        simp [bucketed, here, inside]
      · have same : address < width * index ↔ address < width * (index + 1) := by
          have range := address_range address index positive
          rw [Nat.mul_succ] at *
          omega
        simp only [bucketed, here, if_false, same]
    · intro offset inside
      rw [byte_classifyWord _ inside, byte_loadWord _ _ inside,
        traceBytes offset inside]
  unfold classifyCountsRound
  by_cases hit : loadWord width (bucketed (width * index) trace) index ≠ 0#(8 * width)
  · rw [if_pos hit]
    exact stored
  · -- A word of zeros is skipped; the table maps 0 to 0.
    rw [if_neg hit]
    funext address
    simp only [bucketed]
    by_cases inside : address < width * (index + 1)
    · by_cases before : address < width * index
      · simp [before, inside]
      · have zero : trace address = 0#8 := by
          by_contra nonzero
          apply hit
          refine (loadWord_ne_zero_iff _ index).mpr
            ⟨address - width * index, by rw [Nat.mul_succ] at inside; omega, ?_⟩
          rw [Nat.add_sub_cancel' (Nat.le_of_not_lt before)]
          simpa [bucketed, before] using nonzero
        simp [before, inside, zero]
    · have outside : ¬address < width * index := by
        rw [Nat.mul_succ] at inside
        omega
      simp [inside, outside]

theorem classifyCounts_eq (flavour : WordSize) (afl : CoverageMaps) :
    classifyCounts flavour afl =
      { afl with traceBits := bucketed afl.mapSize afl.traceBits } := by
  have run := forRange_invariant
    (classifyCountsRound flavour.bytes)
    (fun index trace => trace = bucketed (flavour.bytes * index) afl.traceBits)
    afl.traceBits
    (by funext address; simp [bucketed])
    (afl.mapSize / flavour.bytes)
    (fun index _ trace reached => by
      rw [reached]
      exact classifyCountsRound_bucketed flavour.bytes_pos afl.traceBits index)
  rw [afl.wordCount_exact flavour] at run
  rw [classifyCounts, run]

end AFLPlusPlus
