import AFLPlusPlus.Coverage.Maps

/-!
# New coverage in a trace

`has_new_bits` compares the trace of one execution with a virgin map, a word
at a time, and clears the bits it has seen.  This file proves the byte-level
law of that scan for both word sizes and transports it along every sequence
of executions.
-/

namespace AFLPlusPlus

open ByteWord Buffer CoverageMaps

/-- `discover_word` on words of `width` bytes: clear the bits of `current` from
`virgin` and report in `ret` whether a new count or a new tuple is seen. -/
def discoverWord (width : Nat) (ret : Nat) (current virgin : BitVec (8 * width)) :
    Nat × BitVec (8 * width) :=
  if current &&& virgin ≠ 0#(8 * width) then
    let verdict :=
      if ret < 2 then
        if ∃ index < width,
            byte current index ≠ 0#8 ∧ byte virgin index = 0xff#8 then 2
        else 1
      else ret
    (verdict, virgin &&& ~~~current)
  else (ret, virgin)

/-- `discover_word` of `coverage-32.h`. -/
abbrev discoverWord32 := discoverWord 4

/-- `discover_word` of `coverage-64.h`. -/
abbrev discoverWord64 := discoverWord 8

/-- One round of the loop of `has_new_bits`: the word at which `current` and
`virgin` point.  The loop carries `ret` and the virgin map. -/
def hasNewBitsRound (width : Nat) (trace : Buffer) (index : Nat)
    (state : Nat × Buffer) : Nat × Buffer :=
  let current := loadWord width trace index
  if current ≠ 0#(8 * width) then
    let discovered := discoverWord width state.1 current (loadWord width state.2 index)
    (discovered.1, storeWord width state.2 index discovered.2)
  else state

/-- `has_new_bits`: the trace against one of the virgin maps. -/
def hasNewBits (flavour : WordSize) (afl : CoverageMaps) (map : VirginMap) :
    Nat × CoverageMaps :=
  let scan := forRange (hasNewBitsRound flavour.bytes afl.traceBits)
    (afl.mapSize / flavour.bytes) (0, afl.virgin map)
  let scanned := afl.setVirgin map scan.2
  (scan.1,
    if scan.1 ≠ 0 ∧ map = .bits then { scanned with bitmapChanged := true }
    else scanned)

def NewTuple (trace virgin : Buffer) (address : Nat) : Prop :=
  trace address ≠ 0#8 ∧ virgin address = 0xff#8

def NewCount (trace virgin : Buffer) (address : Nat) : Prop :=
  trace address &&& virgin address ≠ 0#8

instance (trace virgin : Buffer) (address : Nat) :
    Decidable (NewTuple trace virgin address) :=
  inferInstanceAs (Decidable (_ ∧ _))

instance (trace virgin : Buffer) (address : Nat) :
    Decidable (NewCount trace virgin address) :=
  inferInstanceAs (Decidable (_ ≠ _))

/-- What the scan has to answer, read off byte by byte. -/
def newBitsVerdict (size : Nat) (trace virgin : Buffer) : Nat :=
  if ∃ address < size, NewTuple trace virgin address then 2
  else if ∃ address < size, NewCount trace virgin address then 1
  else 0

/-- What the scan has to leave behind in the virgin map. -/
def clearSeen (size : Nat) (trace virgin : Buffer) : Buffer :=
  fun address =>
    if address < size then virgin address &&& ~~~(trace address)
    else virgin address

variable {trace virgin : Buffer} {width : Nat}

theorem NewTuple.newCount {address : Nat} (tuple : NewTuple trace virgin address) :
    NewCount trace virgin address := by
  obtain ⟨hit, pristine⟩ := tuple
  intro vanished
  rw [pristine] at vanished
  exact hit (by simpa using vanished)

/-- The state of the scan after the bytes below `size`. -/
structure Scanned (trace virgin : Buffer) (size : Nat)
    (state : Nat × Buffer) : Prop where
  bounded : state.1 ≤ 2
  tuple : state.1 = 2 ↔ ∃ address < size, NewTuple trace virgin address
  count : state.1 ≠ 0 ↔ ∃ address < size, NewCount trace virgin address
  cleared : state.2 = clearSeen size trace virgin

theorem Scanned.verdict {size : Nat} {state : Nat × Buffer}
    (scanned : Scanned trace virgin size state) :
    state.1 = newBitsVerdict size trace virgin := by
  unfold newBitsVerdict
  have bounded := scanned.bounded
  have tuple := scanned.tuple
  have count := scanned.count
  split
  · rename_i some
    exact tuple.mpr some
  · rename_i none
    have notTwo : state.1 ≠ 2 := mt tuple.mp none
    split
    · rename_i some
      have nonzero := count.mpr some
      omega
    · rename_i none
      by_contra nonzero
      exact none (count.mp nonzero)

theorem discoverWord_virgin (width ret : Nat)
    (current virgin : BitVec (8 * width)) :
    (discoverWord width ret current virgin).2 = virgin &&& ~~~current := by
  unfold discoverWord
  split
  · rfl
  · rename_i disjoint
    have disjoint : current &&& virgin = 0#(8 * width) := not_not.mp disjoint
    apply BitVec.eq_of_getElem_eq
    intro bit inside
    have bits := congrArg (fun word => BitVec.getLsbD word bit) disjoint
    rw [BitVec.getLsbD_and, BitVec.getLsbD_zero,
      BitVec.getLsbD_eq_getElem inside, BitVec.getLsbD_eq_getElem inside]
      at bits
    rw [BitVec.getElem_and, BitVec.getElem_not]
    cases hit : current[bit] with
    | false => simp
    | true =>
        rw [hit, Bool.true_and] at bits
        simp [bits]

/-- The answer of `discover_word` joins the answer so far with the answer for
the word: 2 needs a new tuple, and anything needs a new count. -/
theorem discoverWord_ret (width : Nat) {ret : Nat} (bounded : ret ≤ 2)
    (current virgin : BitVec (8 * width)) :
    (discoverWord width ret current virgin).1 ≤ 2 ∧
      ((discoverWord width ret current virgin).1 = 2 ↔
        ret = 2 ∨ ∃ index < width,
          byte current index ≠ 0#8 ∧ byte virgin index = 0xff#8) ∧
      ((discoverWord width ret current virgin).1 ≠ 0 ↔
        ret ≠ 0 ∨ ∃ index < width,
          byte current index &&& byte virgin index ≠ 0#8) := by
  have overlap : current &&& virgin ≠ 0#(8 * width) ↔
      ∃ index < width, byte current index &&& byte virgin index ≠ 0#8 := by
    simp [ne_zero_iff]
  have tupleOverlaps : (∃ index < width,
      byte current index ≠ 0#8 ∧ byte virgin index = 0xff#8) →
        current &&& virgin ≠ 0#(8 * width) := by
    rintro ⟨index, inside, hit, pristine⟩
    refine overlap.mpr ⟨index, inside, ?_⟩
    rw [pristine]
    intro vanished
    exact hit (by simpa using vanished)
  rw [← overlap]
  unfold discoverWord
  by_cases overlapping : current &&& virgin ≠ 0#(8 * width)
  · rw [if_pos overlapping]
    by_cases undecided : ret < 2
    · by_cases tuple : ∃ index < width,
          byte current index ≠ 0#8 ∧ byte virgin index = 0xff#8
      · simp [undecided, tuple, overlapping]
      · have notTwo : ret ≠ 2 := by omega
        simp [undecided, tuple, notTwo, overlapping]
    · have two : ret = 2 := by omega
      simp [two]
  · have noTuple := mt tupleOverlaps overlapping
    rw [if_neg overlapping]
    simp [bounded, noTuple, overlapping]

/-- Bytes below the end of word `index` are the bytes before it and its own. -/
private theorem exists_below_succ {index : Nat} {property : Nat → Prop} :
    (∃ address < width * (index + 1), property address) ↔
      (∃ address < width * index, property address) ∨
        ∃ offset < width, property (width * index + offset) := by
  rw [Nat.mul_succ]
  constructor
  · rintro ⟨address, inside, holds⟩
    by_cases before : address < width * index
    · exact .inl ⟨address, before, holds⟩
    · refine .inr ⟨address - width * index, by omega, ?_⟩
      rwa [Nat.add_sub_cancel' (Nat.le_of_not_lt before)]
  · rintro (⟨address, before, holds⟩ | ⟨offset, inside, holds⟩)
    · exact ⟨address, by omega, holds⟩
    · exact ⟨width * index + offset, by omega, holds⟩

private theorem clearSeen_store (positive : 0 < width) (trace virgin : Buffer)
    (index : Nat) (word : BitVec (8 * width))
    (bytes : ∀ offset < width, byte word offset =
      virgin (width * index + offset) &&&
        ~~~(trace (width * index + offset))) :
    storeWord width (clearSeen (width * index) trace virgin) index word =
      clearSeen (width * (index + 1)) trace virgin := by
  funext address
  rw [storeWord_bytewise _ _ _
    (fun address => virgin address &&& ~~~(trace address)) positive bytes]
  by_cases here : address / width = index
  · have inside := ((address_range _ _ positive).mp here).2
    simp [clearSeen, here, inside]
  · by_cases before : address < width * index
    · have inside : address < width * (index + 1) := by
        rw [Nat.mul_succ]
        omega
      simp [clearSeen, here, before, inside]
    · have outside : ¬address < width * (index + 1) := by
        intro inside
        exact here ((address_range _ _ positive).mpr ⟨by omega, inside⟩)
      simp [clearSeen, here, before, outside]

theorem hasNewBitsRound_scanned (positive : 0 < width) (trace virgin : Buffer)
    (index : Nat) (state : Nat × Buffer)
    (scanned : Scanned trace virgin (width * index) state) :
    Scanned trace virgin (width * (index + 1))
      (hasNewBitsRound width trace index state) := by
  obtain ⟨ret, memory⟩ := state
  obtain ⟨bounded, tuple, count, cleared⟩ := scanned
  simp only at bounded tuple count cleared
  subst memory
  have virginBytes : ∀ offset < width,
      byte (loadWord width (clearSeen (width * index) trace virgin) index)
        offset = virgin (width * index + offset) := by
    intro offset inside
    have after : ¬width * index + offset < width * index := by omega
    rw [byte_loadWord _ _ inside, clearSeen, if_neg after]
  have traceBytes : ∀ offset < width,
      byte (loadWord width trace index) offset = trace (width * index + offset) := by
    intro offset inside
    simp [inside]
  unfold hasNewBitsRound
  by_cases hit : loadWord width trace index ≠ 0#(8 * width)
  · rw [if_pos hit]
    obtain ⟨boundedNext, tupleNext, countNext⟩ :=
      discoverWord_ret width bounded (loadWord width trace index)
        (loadWord width (clearSeen (width * index) trace virgin) index)
    refine ⟨boundedNext, ?_, ?_, ?_⟩
    · rw [tupleNext, tuple, exists_below_succ]
      refine or_congr_right (exists_congr fun offset => and_congr_right ?_)
      intro inside
      rw [traceBytes offset inside, virginBytes offset inside, NewTuple]
    · rw [countNext, count, exists_below_succ]
      refine or_congr_right (exists_congr fun offset => and_congr_right ?_)
      intro inside
      rw [traceBytes offset inside, virginBytes offset inside, NewCount]
    · apply clearSeen_store positive
      intro offset inside
      rw [discoverWord_virgin, byte_and, byte_not _ inside,
        traceBytes offset inside, virginBytes offset inside]
  · -- A word without hits is skipped; it has no bits to clear either.
    have silent : ∀ offset < width, trace (width * index + offset) = 0#8 := by
      intro offset inside
      by_contra nonzero
      exact hit ((loadWord_ne_zero_iff trace index).mpr ⟨offset, inside, nonzero⟩)
    have noTuple : ¬∃ offset < width,
        NewTuple trace virgin (width * index + offset) := by
      rintro ⟨offset, inside, nonzero, _⟩
      exact nonzero (silent offset inside)
    have noCount : ¬∃ offset < width,
        NewCount trace virgin (width * index + offset) := by
      rintro ⟨offset, inside, nonzero⟩
      exact nonzero (by simp [silent offset inside])
    rw [if_neg hit]
    refine ⟨bounded, ?_, ?_, ?_⟩
    · rw [exists_below_succ, tuple, or_iff_left noTuple]
    · rw [exists_below_succ, count, or_iff_left noCount]
    · funext address
      simp only [clearSeen]
      by_cases before : address < width * index
      · have inside : address < width * (index + 1) := by
          rw [Nat.mul_succ]
          omega
        simp [before, inside]
      · by_cases inside : address < width * (index + 1)
        · have zero := silent (address - width * index) (by
            rw [Nat.mul_succ] at inside
            omega)
          rw [Nat.add_sub_cancel' (Nat.le_of_not_lt before)] at zero
          simp [before, inside, zero]
        · simp [before, inside]

variable (flavour : WordSize) (afl : CoverageMaps) (map : VirginMap)

theorem hasNewBits_scanned :
    Scanned afl.traceBits (afl.virgin map) afl.mapSize
      (forRange (hasNewBitsRound flavour.bytes afl.traceBits)
        (afl.mapSize / flavour.bytes) (0, afl.virgin map)) := by
  have run := forRange_invariant
    (hasNewBitsRound flavour.bytes afl.traceBits)
    (fun index state =>
      Scanned afl.traceBits (afl.virgin map) (flavour.bytes * index) state)
    (0, afl.virgin map)
    { bounded := by simp
      tuple := by simp
      count := by simp
      cleared := by funext address; simp [clearSeen] }
    (afl.mapSize / flavour.bytes)
    (fun index _ state scanned =>
      hasNewBitsRound_scanned flavour.bytes_pos afl.traceBits
        (afl.virgin map) index state scanned)
  rwa [afl.wordCount_exact flavour] at run

theorem hasNewBits_ret :
    (hasNewBits flavour afl map).1 =
      newBitsVerdict afl.mapSize afl.traceBits (afl.virgin map) :=
  (hasNewBits_scanned flavour afl map).verdict

/-- Everything `has_new_bits` writes: the virgin map it was given and, when it
found something in `virgin_bits`, the flag that the bitmap changed. -/
theorem hasNewBits_state :
    (hasNewBits flavour afl map).2 =
      { afl.setVirgin map (clearSeen afl.mapSize afl.traceBits (afl.virgin map)) with
        bitmapChanged := afl.bitmapChanged ||
          decide ((hasNewBits flavour afl map).1 ≠ 0 ∧ map = .bits) } := by
  have cleared := (hasNewBits_scanned flavour afl map).cleared
  unfold hasNewBits
  simp only [cleared]
  split
  · rename_i found
    rw [decide_eq_true found, Bool.or_true]
  · rename_i quiet
    rw [decide_eq_false quiet, Bool.or_false,
      ← bitmapChanged_setVirgin afl map
        (clearSeen afl.mapSize afl.traceBits (afl.virgin map))]

@[simp] theorem hasNewBits_virgin :
    (hasNewBits flavour afl map).2.virgin map =
      clearSeen afl.mapSize afl.traceBits (afl.virgin map) := by
  rw [hasNewBits_state, virgin_bitmapChanged, virgin_setVirgin]

@[simp] theorem hasNewBits_mapSize :
    (hasNewBits flavour afl map).2.mapSize = afl.mapSize := by
  simp [hasNewBits_state]

@[simp] theorem hasNewBits_traceBits :
    (hasNewBits flavour afl map).2.traceBits = afl.traceBits := by
  simp [hasNewBits_state]

theorem newBitsVerdict_clearSeen (size : Nat) (trace virgin : Buffer) :
    newBitsVerdict size trace (clearSeen size trace virgin) = 0 := by
  have noCount : ¬∃ address < size,
      NewCount trace (clearSeen size trace virgin) address := by
    rintro ⟨address, inside, remaining⟩
    apply remaining
    rw [clearSeen, if_pos inside, BitVec.and_comm, BitVec.and_assoc,
      BitVec.and_comm _ (trace address), BitVec.and_not_self]
    exact BitVec.and_zero
  have noTuple : ¬∃ address < size,
      NewTuple trace (clearSeen size trace virgin) address := by
    rintro ⟨address, inside, tuple⟩
    exact noCount ⟨address, inside, tuple.newCount⟩
  rw [newBitsVerdict, if_neg noTuple, if_neg noCount]

theorem clearSeen_right_comm (size : Nat) (virgin first second : Buffer) :
    clearSeen size second (clearSeen size first virgin) =
      clearSeen size first (clearSeen size second virgin) := by
  funext address
  by_cases inside : address < size
  · simp only [clearSeen, inside, if_true]
    rw [BitVec.and_assoc, BitVec.and_assoc, BitVec.and_comm (~~~(first address))]
  · simp [clearSeen, inside]

/-- Executions whose traces are handed to `has_new_bits` one after another. -/
def runTraces (flavour : WordSize) (map : VirginMap) (traces : List Buffer)
    (afl : CoverageMaps) : CoverageMaps :=
  traces.foldl (fun current trace =>
    (hasNewBits flavour { current with traceBits := trace } map).2) afl

@[simp] theorem runTraces_mapSize (traces : List Buffer) (afl : CoverageMaps) :
    (runTraces flavour map traces afl).mapSize = afl.mapSize := by
  induction traces generalizing afl with
  | nil => rfl
  | cons trace traces induction =>
      rw [runTraces, List.foldl_cons, ← runTraces, induction]
      simp

theorem runTraces_virgin (traces : List Buffer) (afl : CoverageMaps) :
    (runTraces flavour map traces afl).virgin map =
      traces.foldl (fun virgin trace => clearSeen afl.mapSize trace virgin)
        (afl.virgin map) := by
  induction traces generalizing afl with
  | nil => rfl
  | cons trace traces induction =>
      rw [runTraces, List.foldl_cons, ← runTraces, induction, List.foldl_cons]
      simp

/-- The law of `has_new_bits` over a whole campaign.  Whatever the virgin map
holds at the start (0xff everywhere in the program), each call answers what
the bytes say, clears the bytes it saw and has nothing left to find in the
same trace; and the map in the end does not depend on the order. -/
theorem hasNewBits_sequence (flavour : WordSize) (map : VirginMap)
    (afl : CoverageMaps) (traces : List Buffer) :
    (∀ seen trace later, traces = seen ++ trace :: later →
      let before := { runTraces flavour map seen afl with traceBits := trace }
      let call := hasNewBits flavour before map
      call.1 = newBitsVerdict afl.mapSize trace (before.virgin map) ∧
        (∀ address < afl.mapSize, call.2.virgin map address =
          before.virgin map address &&& ~~~(trace address)) ∧
        (hasNewBits flavour call.2 map).1 = 0) ∧
    (∀ order : List Buffer, order.Perm traces →
      (runTraces flavour map order afl).virgin map =
        (runTraces flavour map traces afl).virgin map) := by
  constructor
  · intro seen trace later _
    refine ⟨?_, ?_, ?_⟩
    · simp [hasNewBits_ret]
    · intro address inside
      simp [clearSeen, inside]
    · rw [hasNewBits_ret, hasNewBits_virgin, hasNewBits_traceBits,
        hasNewBits_mapSize, newBitsVerdict_clearSeen]
  · intro order permutation
    rw [runTraces_virgin, runTraces_virgin]
    exact permutation.foldl_eq' (fun first _ second _ virgin =>
      clearSeen_right_comm afl.mapSize virgin first second) _

end AFLPlusPlus
