import AFLPlusPlus.Deterministic.Stages

/-!
# What a pass records

Every stage leaves the buffer as it found it, so that its candidates are
changes of the input, and the events of the pass can be listed stage by stage.
-/

namespace AFLPlusPlus

open Buffer

/-- From a buffer as in `pre`, `run` adds `events` and leaves a buffer as in
`post`. -/
def Records (pre post : Buffer → Prop) (run : Pass → Pass)
    (events : List Event) : Prop :=
  ∀ pass, pre pass.outBuf → post (run pass).outBuf ∧
    (run pass).events = pass.events ++ events

variable {events : List Event} {i width : Nat}

namespace Records

variable {pre middle post : Buffer → Prop}

theorem id : Records pre pre id [] := by
  intro pass shape
  exact ⟨shape, (List.append_nil pass.events).symm⟩

theorem comp {first second : Pass → Pass} {more : List Event}
    (records : Records pre middle first events)
    (recordsMore : Records middle post second more) :
    Records pre post (fun pass => second (first pass)) (events ++ more) := by
  intro pass shape
  obtain ⟨between, added⟩ := records pass shape
  obtain ⟨after, addedMore⟩ := recordsMore (first pass) between
  exact ⟨after, by rw [addedMore, added, List.append_assoc]⟩

theorem loop {body : Nat → Pass → Pass} {events : Nat → List Event}
    {count : Nat}
    (records : ∀ index < count, Records pre pre (body index) (events index)) :
    Records pre pre (forRange body count)
      ((List.range count).flatMap events) := by
  induction count with
  | zero => exact Records.id
  | succ count induction =>
      rw [List.range_succ, List.flatMap_append, List.flatMap_singleton]
      have before := induction fun index inside => records index (by omega)
      exact before.comp (records count (Nat.lt_succ_self count))

theorem fold {Item : Type} {body : Pass → Item → Pass}
    {events : Item → List Event}
    (records : ∀ item, Records pre pre (body · item) (events item))
    (items : List Item) :
    Records pre pre (items.foldl body) (items.flatMap events) := by
  induction items with
  | nil => exact Records.id
  | cons item items induction =>
      rw [List.flatMap_cons]
      exact (records item).comp induction

end Records

variable (stage : Stage) (count bit : Nat) (buffer : Buffer)

theorem bit_flipBit (address : Nat) {place : Nat} (inside : place < 8) :
    (flipBit bit buffer address).getLsbD place =
      ((buffer address).getLsbD place ^^
        decide (bit = 8 * address + (7 - place))) := by
  have byteOf : bit >>> 3 = bit / 8 := Nat.shiftRight_eq_div_pow bit 3
  have bitOf : bit &&& 7 = bit % 8 := Nat.and_two_pow_sub_one_eq_mod bit 3
  have small : bit % 8 < 8 := Nat.mod_lt bit (by omega)
  have mask : (128#8 >>> (bit % 8)).getLsbD place = decide (bit % 8 = 7 - place) := by
    have all : ∀ place < 8, ∀ shift < 8,
        (128#8 >>> shift).getLsbD place = decide (shift = 7 - place) := by
      decide
    exact all place inside (bit % 8) small
  unfold flipBit
  rw [byteOf, bitOf, Function.update_apply]
  split
  · rename_i isByte
    rw [BitVec.getLsbD_xor, mask, isByte]
    congr 2
    apply propext
    omega
  · rename_i notByte
    have elsewhere : ¬ bit = 8 * address + (7 - place) := by omega
    simp [elsewhere]

/-- The bits from `bit` on are flipped, most significant first. -/
theorem bit_flipBits (address : Nat) {place : Nat} (inside : place < 8) :
    (flipBits count bit buffer address).getLsbD place =
      ((buffer address).getLsbD place ^^
        decide (bit ≤ 8 * address + (7 - place) ∧
          8 * address + (7 - place) < bit + count)) := by
  unfold flipBits
  induction count with
  | zero =>
      have nothing : ¬ (bit ≤ 8 * address + (7 - place) ∧
          8 * address + (7 - place) < bit + 0) := by omega
      rw [forRange, decide_eq_false nothing, Bool.xor_false]
  | succ count induction =>
      rw [forRange, bit_flipBit _ _ _ inside, induction, Bool.xor_assoc]
      congr 1
      by_cases isLast : bit + count = 8 * address + (7 - place)
      · have notBefore : ¬ (bit ≤ 8 * address + (7 - place) ∧
            8 * address + (7 - place) < bit + count) := by omega
        have now : bit ≤ 8 * address + (7 - place) ∧
            8 * address + (7 - place) < bit + (count + 1) := by omega
        rw [decide_eq_false notBefore, decide_eq_true isLast,
          decide_eq_true now, Bool.false_xor]
      · have same : (bit ≤ 8 * address + (7 - place) ∧
            8 * address + (7 - place) < bit + count) ↔
            (bit ≤ 8 * address + (7 - place) ∧
              8 * address + (7 - place) < bit + (count + 1)) := by omega
        rw [decide_eq_false isLast, Bool.xor_false, decide_eq_decide]
        exact same

theorem buffer_ext {first second : Buffer}
    (bits : ∀ address, ∀ place < 8,
      (first address).getLsbD place = (second address).getLsbD place) :
    first = second := by
  funext address
  exact BitVec.eq_of_getLsbD_eq (bits address)

theorem flipBits_flipBits :
    flipBits count bit (flipBits count bit buffer) = buffer := by
  apply buffer_ext
  intro address place inside
  rw [bit_flipBits _ _ _ _ inside, bit_flipBits _ _ _ _ inside,
    Bool.xor_assoc, Bool.xor_self, Bool.xor_false]

theorem flipBytes_flipBytes (width i : Nat) (buffer : Buffer) :
    flipBytes width i (flipBytes width i buffer) = buffer := by
  have stored : loadAt width (flipBytes width i buffer) i =
      loadAt width buffer i ^^^ BitVec.allOnes (8 * width) := by
    apply ByteWord.eq_of_bytes
    intro offset inside
    rw [byte_loadAt _ _ inside, flipBytes, storeAt_inside _ _ _ inside]
  rw [flipBytes, stored, flipBytes, storeAt_storeAt, BitVec.xor_assoc,
    BitVec.xor_self, BitVec.xor_zero, storeAt_loadAt]

namespace Setting

variable (setting : Setting)

def Full : Prop := ∀ i < setting.len, setting.effMap (effApos i) = true

def IsInput (buffer : Buffer) : Prop := buffer = setting.inBuf

def IsWindow (width i : Nat) (buffer : Buffer) : Prop :=
  ∃ word, buffer = storeAt width setting.inBuf i word

/-- The events of a stage that flips something `count` times. -/
def flipEvents (stage : Stage) (stageCurByte : Nat → Nat)
    (flip : Nat → Buffer → Buffer) (count : Nat) : List Event :=
  (List.range count).map fun stageCur =>
    ⟨stage, stageCurByte stageCur, .none, flip stageCur setting.inBuf, none⟩

/-- The event of a candidate. -/
def event (stage : Stage) (i : Nat) {width : Nat}
    (candidate : Attempt width) : Event :=
  ⟨stage, i, candidate.stageValType,
    storeAt width setting.inBuf i candidate.new, candidate.skippedBy⟩

/-- The events of the candidates that pass their guard. -/
def attemptEvents (stage : Stage) (i : Nat) {width : Nat}
    (candidates : List (Attempt width)) : List Event :=
  (candidates.filter (·.guard)).map (setting.event stage i)

/-- The events of a stage that looks at every window of `width` bytes. -/
def windowEvents (stage : Stage) (width : Nat)
    (candidates : BitVec (8 * width) → List (Attempt width)) : List Event :=
  (List.range (setting.len - (width - 1))).flatMap fun i =>
    setting.attemptEvents stage i
      (candidates (loadAt width setting.inBuf i))

/-- The candidates of a window in an arithmetic stage. -/
def arithCandidates {width : Nat}
    (attempts : BitVec (8 * width) → Nat → List (Attempt width))
    (orig : BitVec (8 * width)) : List (Attempt width) :=
  (List.range arithMax).flatMap fun j => attempts orig (j + 1)

/-- The candidates of a window in a stage for interesting values. -/
def interestCandidates {width : Nat}
    (attempts : BitVec (8 * width) → BitVec (8 * width) → List (Attempt width))
    (values : List (BitVec (8 * width))) (orig : BitVec (8 * width)) :
    List (Attempt width) :=
  values.flatMap (attempts orig)

def stageEvents : Stage → List Event
  | .flip1 => setting.flipEvents .flip1 (· >>> 3) (flipBits 1)
      (setting.len <<< 3)
  | .flip2 => setting.flipEvents .flip2 (· >>> 3) (flipBits 2)
      (setting.len <<< 3 - 1)
  | .flip4 => setting.flipEvents .flip4 (· >>> 3) (flipBits 4)
      (setting.len <<< 3 - 3)
  | .flip8 => setting.flipEvents .flip8 id (flipBytes 1) setting.len
  | .flip16 => setting.flipEvents .flip16 id (flipBytes 2) (setting.len - 1)
  | .flip32 => setting.flipEvents .flip32 id (flipBytes 4) (setting.len - 3)
  | .arith8 => setting.windowEvents .arith8 1 (arithCandidates arith8Attempts)
  | .arith16 =>
      setting.windowEvents .arith16 2 (arithCandidates arith16Attempts)
  | .arith32 =>
      setting.windowEvents .arith32 4 (arithCandidates arith32Attempts)
  | .int8 => setting.windowEvents .int8 1
      (interestCandidates (fun orig value => [int8Attempt orig value]) interesting8)
  | .int16 => setting.windowEvents .int16 2
      (interestCandidates int16Attempts interesting16)
  | .int32 => setting.windowEvents .int32 4
      (interestCandidates int32Attempts interesting32)

theorem effective_of_full {setting : Setting} (full : setting.Full) (positive : 0 < width)
    (inside : i < setting.len) :
    setting.effective width i = true := by
  apply List.any_eq_true.mpr
  exact ⟨0, List.mem_range.mpr positive, full i inside⟩

theorem isWindow_inBuf (width i : Nat) : setting.IsWindow width i setting.inBuf :=
  ⟨loadAt width setting.inBuf i, (storeAt_loadAt _ _).symm⟩

theorem records_flipped {stage : Stage} {stageCurByte : Nat}
    {flip : Buffer → Buffer} (involutive : ∀ buffer, flip (flip buffer) = buffer) :
    Records setting.IsInput setting.IsInput
      (Pass.flipped stage stageCurByte flip)
      [⟨stage, stageCurByte, .none, flip setting.inBuf, none⟩] := by
  intro pass isInput
  have start : pass.outBuf = setting.inBuf := isInput
  constructor
  · change flip (flip pass.outBuf) = setting.inBuf
    rw [involutive, start]
  · change pass.events ++ _ = _
    rw [← start]

theorem records_walkBits (stageMax : Nat) :
    Records setting.IsInput setting.IsInput
      (Pass.walkBits stage count stageMax)
      (setting.flipEvents stage (· >>> 3) (flipBits count) stageMax) := by
  unfold flipEvents
  rw [List.map_eq_flatMap]
  apply Records.loop
  intro stageCur _
  exact setting.records_flipped (flipBits_flipBits count stageCur)

theorem records_flip8 :
    Records setting.IsInput setting.IsInput (Pass.flip8 setting)
      (setting.flipEvents .flip8 id (flipBytes 1) setting.len) := by
  unfold flipEvents
  rw [List.map_eq_flatMap]
  apply Records.loop
  intro stageCur _
  exact setting.records_flipped (flipBytes_flipBytes 1 stageCur)

theorem records_walkBytes {setting : Setting} (full : setting.Full) (stage : Stage)
    (positive : 0 < width) :
    Records setting.IsInput setting.IsInput
      (Pass.walkBytes setting stage width)
      (setting.flipEvents stage id (flipBytes width) (setting.len - (width - 1))) := by
  unfold flipEvents
  rw [List.map_eq_flatMap]
  apply Records.loop
  intro i inside
  have effective := effective_of_full full positive (by omega : i < setting.len)
  simp only [effective, if_true]
  exact setting.records_flipped (flipBytes_flipBytes width i)

theorem records_attempt (i : Nat) (candidate : Attempt width) :
    Records (setting.IsWindow width i) (setting.IsWindow width i)
      (Pass.attempt stage i · candidate)
      (setting.attemptEvents stage i [candidate]) := by
  intro pass isWindow
  obtain ⟨word, shape⟩ := isWindow
  have buffer : storeAt width pass.outBuf i candidate.new =
      storeAt width setting.inBuf i candidate.new := by
    rw [shape, storeAt_storeAt]
  unfold Pass.attempt attemptEvents
  dsimp only
  cases guard : candidate.guard with
  | false =>
      rw [if_neg Bool.false_ne_true, List.filter_cons_of_neg (by simp [guard])]
      exact ⟨⟨word, shape⟩, (List.append_nil _).symm⟩
  | true =>
      rw [if_pos rfl, List.filter_cons_of_pos guard, buffer]
      unfold event
      cases skipped : candidate.skippedBy with
      | none =>
          refine ⟨⟨candidate.new, rfl⟩, ?_⟩
          simp [Pass.commonFuzzStuff, skipped]
      | some predicate =>
          refine ⟨⟨word, shape⟩, ?_⟩
          simp [skipped]

theorem attemptEvents_flatMap {Item : Type} (i : Nat)
    (candidates : Item → List (Attempt width)) (items : List Item) :
    setting.attemptEvents stage i (items.flatMap candidates) =
      items.flatMap fun item =>
        setting.attemptEvents stage i (candidates item) := by
  unfold attemptEvents
  rw [List.filter_flatMap, List.map_flatMap]

theorem records_attempts (i : Nat) (candidates : List (Attempt width)) :
    Records (setting.IsWindow width i) (setting.IsWindow width i)
      (candidates.foldl (Pass.attempt stage i))
      (setting.attemptEvents stage i candidates) := by
  have records := Records.fold
    (setting.records_attempt stage i) candidates
  rw [← attemptEvents_flatMap, List.flatMap_singleton'] at records
  exact records

theorem records_restore (width i : Nat) :
    Records (setting.IsWindow width i) setting.IsInput
      (Pass.restore width i (loadAt width setting.inBuf i)) [] := by
  intro pass isWindow
  obtain ⟨word, shape⟩ := isWindow
  constructor
  · change storeAt width pass.outBuf i _ = setting.inBuf
    rw [shape, storeAt_storeAt, storeAt_loadAt]
  · exact (List.append_nil _).symm

theorem records_enter {post : Buffer → Prop} {run : Pass → Pass}
    (records : Records (setting.IsWindow width i) post run events) :
    Records setting.IsInput post run events := by
  intro pass isInput
  have start : pass.outBuf = setting.inBuf := isInput
  exact records pass (by rw [start]; exact setting.isWindow_inBuf width i)

/-- The stages read the original value from the buffer. -/
theorem records_orig {post : Buffer → Prop} (run : BitVec (8 * width) → Pass → Pass)
    (records : Records setting.IsInput post
      (run (loadAt width setting.inBuf i)) events) :
    Records setting.IsInput post
      (fun pass => run (loadAt width pass.outBuf i) pass) events := by
  intro pass isInput
  have start : pass.outBuf = setting.inBuf := isInput
  have recorded := records pass isInput
  dsimp only
  rw [start]
  exact recorded

section

variable {setting : Setting} (full : setting.Full)
include full

theorem records_arith (stage : Stage) (positive : 0 < width)
    (attempts : BitVec (8 * width) → Nat → List (Attempt width)) :
    Records setting.IsInput setting.IsInput
      (Pass.arith setting stage attempts)
      (setting.windowEvents stage width (arithCandidates attempts)) := by
  apply Records.loop
  intro i inside
  have effective := effective_of_full full positive (by omega : i < setting.len)
  simp only [effective, if_true]
  apply setting.records_orig (fun orig pass => forRange
    (fun j pass => Pass.restore width i orig
      ((attempts orig (j + 1)).foldl (Pass.attempt stage i) pass))
    arithMax pass)
  unfold arithCandidates
  rw [attemptEvents_flatMap]
  apply Records.loop
  intro j _
  have records := (setting.records_attempts stage i
    (attempts (loadAt width setting.inBuf i) (j + 1))).comp
    (setting.records_restore width i)
  rw [List.append_nil] at records
  exact setting.records_enter records

theorem records_int8 :
    Records setting.IsInput setting.IsInput (Pass.int8 setting)
      (setting.windowEvents .int8 1
        (interestCandidates (fun orig value => [int8Attempt orig value])
          interesting8)) := by
  apply Records.loop
  intro i inside
  have effective := effective_of_full full Nat.one_pos
    (by omega : i < setting.len)
  simp only [effective, if_true]
  apply setting.records_orig (fun orig pass => interesting8.foldl
    (fun pass value => Pass.restore 1 i orig
      (Pass.attempt .int8 i pass (int8Attempt orig value))) pass)
  unfold interestCandidates
  rw [attemptEvents_flatMap]
  apply Records.fold
  intro value
  have records := (setting.records_attempt .int8 i
    (int8Attempt (loadAt 1 setting.inBuf i) value)).comp (setting.records_restore 1 i)
  rw [List.append_nil] at records
  exact setting.records_enter records

theorem records_interest (stage : Stage) (positive : 0 < width)
    (attempts : BitVec (8 * width) → BitVec (8 * width) →
      List (Attempt width)) (values : List (BitVec (8 * width))) :
    Records setting.IsInput setting.IsInput
      (Pass.interest setting stage attempts values)
      (setting.windowEvents stage width (interestCandidates attempts values)) := by
  apply Records.loop
  intro i inside
  have effective := effective_of_full full positive (by omega : i < setting.len)
  simp only [effective, if_true]
  apply setting.records_orig (fun orig pass => Pass.restore width i orig
    (values.foldl (fun pass value =>
      (attempts orig value).foldl (Pass.attempt stage i) pass) pass))
  have tries : Records (setting.IsWindow width i) (setting.IsWindow width i)
      (values.foldl (fun pass value =>
        (attempts (loadAt width setting.inBuf i) value).foldl
          (Pass.attempt stage i) pass))
      (values.flatMap fun value => setting.attemptEvents stage i
        (attempts (loadAt width setting.inBuf i) value)) := by
    apply Records.fold
    intro value
    exact setting.records_attempts stage i _
  have records := tries.comp (setting.records_restore width i)
  rw [List.append_nil, ← attemptEvents_flatMap] at records
  exact setting.records_enter records

end

def runs : Stage → Bool
  | .arith8 | .arith16 | .arith32 | .int16 | .int32 => !setting.noArith
  | _ => true

theorem windowEvents_of_short (short : setting.len < width) (stage : Stage)
    (candidates : BitVec (8 * width) → List (Attempt width)) :
    setting.windowEvents stage width candidates = [] := by
  have noWindow : setting.len - (width - 1) = 0 := by omega
  rw [windowEvents, noWindow, List.range_zero, List.flatMap_nil]

theorem flipEvents_zero {count : Nat} (zero : count = 0) (stage : Stage)
    (stageCurByte : Nat → Nat) (flip : Nat → Buffer → Buffer) :
    setting.flipEvents stage stageCurByte flip count = [] := by
  rw [flipEvents, zero, List.range_zero, List.map_nil]

section

variable {setting : Setting} (full : setting.Full)
include full

theorem records_bitflips :
    Records setting.IsInput setting.IsInput (Pass.bitflips setting)
      ([.flip1, .flip2, .flip4, .flip8, .flip16, .flip32].flatMap
        setting.stageEvents) := by
  have bit : Records _ _ (Pass.flip1 setting) _ :=
    setting.records_walkBits .flip1 1 (setting.len <<< 3)
  have twoBits : Records _ _ (Pass.flip2 setting) _ :=
    setting.records_walkBits .flip2 2 (setting.len <<< 3 - 1)
  have fourBits : Records _ _ (Pass.flip4 setting) _ :=
    setting.records_walkBits .flip4 4 (setting.len <<< 3 - 3)
  have bytes := ((bit.comp twoBits).comp fourBits).comp setting.records_flip8
  have words : Records _ _ (Pass.flip16 setting) _ :=
    records_walkBytes full .flip16 Nat.two_pos
  have dwords : Records _ _ (Pass.flip32 setting) _ :=
    records_walkBytes full .flip32 (by omega : 0 < 4)
  simp only [List.append_assoc] at bytes
  simp only [List.flatMap_cons, List.flatMap_nil, stageEvents, List.append_nil]
  unfold Pass.bitflips
  split
  · rw [setting.flipEvents_zero (by omega : setting.len - 1 = 0),
      setting.flipEvents_zero (by omega : setting.len - 3 = 0),
      List.append_nil, List.append_nil]
    exact bytes
  · have upToWords := bytes.comp words
    simp only [List.append_assoc] at upToWords
    split
    · rw [setting.flipEvents_zero (by omega : setting.len - 3 = 0), List.append_nil]
      exact upToWords
    · have upToDwords := upToWords.comp dwords
      simp only [List.append_assoc] at upToDwords
      exact upToDwords

theorem records_ariths :
    Records setting.IsInput setting.IsInput (Pass.ariths setting)
      (if setting.noArith = true then []
      else [.arith8, .arith16, .arith32].flatMap setting.stageEvents) := by
  have bytes : Records _ _ (Pass.arith8 setting) _ :=
    records_arith full .arith8 Nat.one_pos arith8Attempts
  have words : Records _ _ (Pass.arith16 setting) _ :=
    records_arith full .arith16 Nat.two_pos arith16Attempts
  have dwords : Records _ _ (Pass.arith32 setting) _ :=
    records_arith full .arith32 (by omega : 0 < 4) arith32Attempts
  simp only [List.flatMap_cons, List.flatMap_nil, stageEvents, List.append_nil]
  unfold Pass.ariths
  split
  · exact Records.id
  · split
    · rw [setting.windowEvents_of_short (by omega : setting.len < 2),
        setting.windowEvents_of_short (by omega : setting.len < 4),
        List.append_nil, List.append_nil]
      exact bytes
    · split
      · rw [setting.windowEvents_of_short (by omega : setting.len < 4),
          List.append_nil]
        exact bytes.comp words
      · rw [← List.append_assoc]
        exact (bytes.comp words).comp dwords

theorem records_interests :
    Records setting.IsInput setting.IsInput (Pass.interests setting)
      (setting.stageEvents .int8 ++
        if setting.noArith = true then []
        else [.int16, .int32].flatMap setting.stageEvents) := by
  have bytes := records_int8 full
  have words : Records _ _ (Pass.int16 setting) _ :=
    records_interest full .int16 Nat.two_pos int16Attempts interesting16
  have dwords : Records _ _ (Pass.int32 setting) _ :=
    records_interest full .int32 (by omega : 0 < 4) int32Attempts
      interesting32
  simp only [List.flatMap_cons, List.flatMap_nil, stageEvents, List.append_nil]
  unfold Pass.interests
  by_cases noArith : setting.noArith = true
  · simp only [noArith, true_or, if_true, List.append_nil]
    exact bytes
  · simp only [noArith, Bool.false_eq_true, false_or, if_false]
    split
    · rw [setting.windowEvents_of_short (by omega : setting.len < 2),
        setting.windowEvents_of_short (by omega : setting.len < 4),
        List.append_nil, List.append_nil]
      exact bytes
    · split
      · rw [setting.windowEvents_of_short (by omega : setting.len < 4),
          List.append_nil]
        exact bytes.comp words
      · rw [← List.append_assoc]
        exact (bytes.comp words).comp dwords

/-- A pass records the events of its stages, one stage after the other. -/
theorem fuzzOne_events :
    setting.fuzzOne.events =
      [.flip1, .flip2, .flip4, .flip8, .flip16, .flip32, .arith8, .arith16,
        .arith32, .int8, .int16, .int32].flatMap fun stage =>
          if setting.runs stage = true then setting.stageEvents stage
          else [] := by
  have recorded := ((records_bitflips full).comp (records_ariths full)).comp
    (records_interests full)
  have events := (recorded { outBuf := setting.inBuf, events := [] } rfl).2
  rw [List.nil_append] at events
  refine events.trans ?_
  cases noArith : setting.noArith with
  | true => simp [runs, noArith]
  | false => simp [runs, noArith]

end

end Setting

end AFLPlusPlus
