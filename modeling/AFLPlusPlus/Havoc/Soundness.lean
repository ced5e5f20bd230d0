import AFLPlusPlus.Havoc.Stage

/-!
# The buffers of the havoc stage stay sound

Every mutation keeps the length of the buffer between 1 and `MAX_FILE` and
inside of the allocation, whatever numbers are drawn.  The rules below take the
draws and the accesses out of the way.
-/

namespace AFLPlusPlus

open EarlyExit

def longer (queue : List (List (BitVec 8))) : Nat :=
  queue.countP fun entry => 4 < entry.length

/-- What is seen of a sound stage. -/
def HavocEvent.Sound : HavocEvent → Prop
  | .step tempLen => 1 ≤ tempLen ∧ tempLen ≤ maxFile
  | .restored outBuf inBuf => outBuf = inBuf
  | .split splitAt len targetLen => splitAt < min len targetLen

variable {before : HavocState → Prop} {bytes : List (BitVec 8)} {count start width : Nat}

namespace HavocSetting

/-- The buffers of the stage are sound, and so is all that has been seen. The
queue that was there when it began has only become longer. -/
structure Sound (begun state : HavocState) : Prop where
  faultless : state.fault = none
  events : ∀ event ∈ state.events, event.Sound
  positive : 0 < state.tempLen
  bounded : state.tempLen ≤ maxFile
  fits : state.tempLen ≤ state.outBuf.room
  inPositive : 0 < state.inBuf.length
  inBounded : state.inBuf.length ≤ maxFile
  entries : ∀ entry ∈ state.queue, 0 < entry.length ∧ entry.length ≤ maxFile
  counted : state.readyForSplicingCount ≤ longer state.queue
  grown : ∃ added, state.queue = begun.queue ++ added ∧
    state.readyForSplicingCount = begun.readyForSplicingCount + longer added

variable (afl : HavocSetting)

/-- There is an entry to splice with, if one is needed. -/
def Partnered (needed : Prop) (state : HavocState) : Prop :=
  needed → ∃ tid < state.queue.length, afl.Partner state.queue tid

/-- A sound state between two mutations. -/
structure Going (begun : HavocState) (needed : Prop) (state : HavocState) : Prop where
  sound : Sound begun state
  partnered : afl.Partnered needed state

/-- A sound state with a buffer of length `n`, where two of the allocations have
some room. -/
structure Within (begun : HavocState) (needed : Prop) (n out scratch : Nat)
    (state : HavocState) : Prop where
  going : afl.Going begun needed state
  length : state.tempLen = n
  outRoom : out ≤ state.outBuf.room
  scratchRoom : scratch ≤ state.outScratchBuf.room

variable {afl} {needed : Prop} {n out scratch : Nat} {Value : Type}
  {after : Value → HavocState → Prop} {left : HavocState → Prop}
  {begun state next : HavocState}

/-- What most operations do not change. -/
def frame (state : HavocState) :=
  (state.fault, state.events, state.tempLen, state.inBuf, state.queue,
    state.readyForSplicingCount)

theorem Going.changed (going : afl.Going begun needed state)
    (same : frame next = frame state)
    (fits : state.tempLen ≤ next.outBuf.room) :
    afl.Going begun needed next := by
  cases next
  cases same
  exact ⟨{ going.sound with fits }, going.partnered⟩

variable {rest : HavocState → Havoc Value} {inBuf : List (BitVec 8)}
    {extras : List Dictionary.Token} {position r size : Nat}

theorem Within.look (next : ∀ state, afl.Within begun needed n out scratch state →
      state.tempLen = n →
      Triple (afl.Within begun needed n out scratch) (rest state) after left) :
    Triple (afl.Within begun needed n out scratch) (get >>= rest) after
      left := by
  apply Triple.get.bind
  intro looked state holds
  obtain ⟨same, within⟩ := holds
  subst same
  exact next looked within within.length looked within

theorem Going.look (next : ∀ state, 0 < state.tempLen → state.tempLen ≤ maxFile →
      Triple (afl.Within begun needed state.tempLen state.tempLen 0)
        (rest state) after left) :
    Triple (afl.Going begun needed) (get >>= rest) after left := by
  apply Triple.get.bind
  intro looked state holds
  obtain ⟨same, going⟩ := holds
  subst same
  exact next looked going.sound.positive going.sound.bounded looked
    ⟨going, rfl, going.sound.fits, Nat.zero_le _⟩

theorem triple_randBelow
    (ignores : ∀ state draws, before state → before { state with draws }) (limit : Nat) :
    Triple before (afl.randBelow limit)
      (fun drawn state => before state ∧ (0 < limit → drawn < limit))
      left := by
  intro state holds
  by_cases single : limit ≤ 1
  · have ran : (afl.randBelow limit).run state = (some 0, state) := if_pos single
    rw [ran]
    exact ⟨holds, id⟩
  · have ran : (afl.randBelow limit).run state =
        (some (afl.random state.draws % limit),
          { state with draws := state.draws + 1 }) := if_neg single
    rw [ran]
    exact ⟨ignores state _ holds, Nat.mod_lt _⟩

theorem Within.draw {limit : Nat} {rest : Nat → Havoc Value}
    (next : ∀ drawn, (0 < limit → drawn < limit) →
      Triple (afl.Within begun needed n out scratch) (rest drawn) after left) :
    Triple (afl.Within begun needed n out scratch)
      (afl.randBelow limit >>= rest) after left := by
  have drawn : Triple (afl.Within begun needed n out scratch)
      (afl.randBelow limit)
      (fun drawn state => afl.Within begun needed n out scratch state ∧
        (0 < limit → drawn < limit)) left := by
    apply triple_randBelow
    intro state draws within
    exact { within with going := within.going.changed rfl within.going.sound.fits }
  apply drawn.bind
  intro drawn
  apply Triple.given
  exact next drawn

theorem Within.randBelow {limit : Nat} (positive : 0 < limit)
    {rest : Nat → Havoc Value}
    (next : ∀ drawn < limit, Triple (afl.Within begun needed n out scratch)
      (rest drawn) after left) :
    Triple (afl.Within begun needed n out scratch)
      (afl.randBelow limit >>= rest) after left :=
  Within.draw fun drawn below => next drawn (below positive)

theorem triple_inside {condition : Prop} [Decidable condition] (holds : condition) :
    Triple before (Havoc.inside condition) (fun _ => before) left := by
  unfold Havoc.inside
  rw [if_pos holds]
  exact Triple.pure () fun _ holds => holds

theorem Within.readOut (fits : start + count ≤ out) {rest : List (BitVec 8) → Havoc Value}
    (next : ∀ bytes, bytes.length = count →
      Triple (afl.Within begun needed n out scratch) (rest bytes) after left) :
    Triple (afl.Within begun needed n out scratch)
      (Havoc.readOut start count >>= rest) after left := by
  have read : Triple (afl.Within begun needed n out scratch)
      (Havoc.readOut start count)
      (fun bytes state => afl.Within begun needed n out scratch state ∧
        bytes.length = count) left := by
    apply Within.look
    intro state within _
    apply (triple_inside (fits.trans within.outRoom)).bind
    intro _
    exact Triple.pure _ fun _ holds => ⟨holds, Buffer.length_loadBytes ..⟩
  apply read.bind
  intro bytes state holds
  exact next bytes holds.2 state holds.1

theorem triple_writeOut (fits : start + bytes.length ≤ out) :
    Triple (afl.Within begun needed n out scratch) (Havoc.writeOut start bytes)
      (fun _ => afl.Within begun needed n out scratch) left := by
  apply Within.look
  intro state within _
  apply (triple_inside (fits.trans within.outRoom)).bind
  intro _
  apply Triple.modify
  intro state within
  exact { within with going := within.going.changed rfl within.going.sound.fits }

theorem triple_writeScratch (fits : start + bytes.length ≤ scratch) :
    Triple (afl.Within begun needed n out scratch)
      (Havoc.writeScratch start bytes)
      (fun _ => afl.Within begun needed n out scratch) left := by
  apply Within.look
  intro state within _
  apply (triple_inside (fits.trans within.scratchRoom)).bind
  intro _
  apply Triple.modify
  intro state within
  exact { within with going := within.going.changed rfl within.going.sound.fits }

theorem triple_reallocScratch (small : size < 2 ^ 32) :
    Triple (afl.Within begun needed n out scratch) (Havoc.reallocScratch size)
      (fun _ => afl.Within begun needed n out size) left := by
  apply Triple.modify
  intro state within
  exact ⟨within.going.changed rfl within.going.sound.fits, within.length,
    within.outRoom, AflBuf.le_room_realloc _ small⟩

theorem triple_swapBufs (fits : n ≤ scratch) :
    Triple (afl.Within begun needed n out scratch) Havoc.swapBufs
      (fun _ => afl.Within begun needed n scratch out) left := by
  apply Triple.modify
  intro state within
  refine ⟨within.going.changed rfl ?_, within.length, within.scratchRoom,
    within.outRoom⟩
  rw [within.length]
  exact fits.trans within.scratchRoom

theorem triple_reallocOut (small : size < 2 ^ 32) :
    Triple (afl.Within begun needed n out scratch) (Havoc.reallocOut size)
      (fun _ => afl.Within begun needed n size scratch) left := by
  apply Triple.modify
  intro state within
  exact ⟨within.going.changed rfl
      (within.going.sound.fits.trans (AflBuf.room_le_realloc _ small)),
    within.length, AflBuf.le_room_realloc _ small, within.scratchRoom⟩

theorem triple_setTempLen {tempLen : Nat} (positive : 0 < tempLen)
    (bounded : tempLen ≤ maxFile) (fits : tempLen ≤ out) :
    Triple (afl.Within begun needed n out scratch) (Havoc.setTempLen tempLen)
      (fun _ => afl.Going begun needed) left := by
  apply Triple.modify
  intro state within
  have sound := within.going.sound
  exact ⟨{ sound with positive, bounded, fits := fits.trans within.outRoom },
    within.going.partnered⟩

theorem havocBlkXl_eq : havocBlkXl = 32768 := by
  unfold havocBlkXl
  rfl

theorem triple_blockLimits :
    Triple (afl.Within begun needed n out scratch) afl.blockLimits
      (fun limits state => afl.Within begun needed n out scratch state ∧
        0 < limits.1 ∧ limits.1 ≤ limits.2 ∧ limits.2 ≤ havocBlkXl) left := by
  have ends : ∀ limits : Nat × Nat,
      0 < limits.1 ∧ limits.1 ≤ limits.2 ∧ limits.2 ≤ havocBlkXl →
      Triple (afl.Within begun needed n out scratch)
        (pure limits : Havoc (Nat × Nat))
        (fun limits state => afl.Within begun needed n out scratch state ∧
          0 < limits.1 ∧ limits.1 ≤ limits.2 ∧ limits.2 ≤ havocBlkXl) left :=
    fun limits bounds => Triple.pure limits fun _ within => ⟨within, bounds⟩
  apply Within.look
  intro state _ _
  apply Within.draw
  intro drawn _
  apply Triple.ite
  · intro _
    apply ends
    rw [havocBlkXl_eq]
    decide
  · intro _
    apply Triple.ite
    · intro _
      apply ends
      rw [havocBlkXl_eq]
      decide
    · intro _
      apply Within.draw
      intro likely _
      apply Triple.ite
      · intro _
        apply ends
        rw [havocBlkXl_eq]
        decide
      · intro _
        apply ends
        rw [havocBlkXl_eq]
        decide

/-- A length of a block is chosen. -/
theorem Within.chooseBlockLen {limit : Nat} (positive : 0 < limit)
    {rest : Nat → Havoc Value}
    (next : ∀ len, 0 < len → len ≤ limit → len ≤ havocBlkXl →
      Triple (afl.Within begun needed n out scratch) (rest len) after left) :
    Triple (afl.Within begun needed n out scratch)
      (afl.chooseBlockLen limit >>= rest) after left := by
  have chosen : Triple (afl.Within begun needed n out scratch)
      (afl.chooseBlockLen limit)
      (fun len state => afl.Within begun needed n out scratch state ∧
        0 < len ∧ len ≤ limit ∧ len ≤ havocBlkXl) left := by
    apply triple_blockLimits.bind
    intro limits
    apply Triple.given
    intro bounds
    obtain ⟨least, ordered, most⟩ := bounds
    rw [havocBlkXl_eq] at *
    by_cases single : limit ≤ limits.1
    · rw [if_pos single]
      dsimp only
      rw [minus_eq (by omega) (by omega)]
      apply Within.randBelow (by omega)
      intro above less
      exact Triple.pure _ fun _ within => ⟨within, by omega⟩
    · rw [if_neg single]
      dsimp only
      rw [minus_eq (by omega) (by omega)]
      apply Within.randBelow (by omega)
      intro above less
      exact Triple.pure _ fun _ within => ⟨within, by omega⟩
  apply chosen.bind
  intro len
  apply Triple.given
  intro bounds
  exact next len bounds.1 bounds.2.1 bounds.2.2

theorem triple_going {program : Havoc Unit}
    (keeps : Triple (afl.Within begun needed n out scratch) program
      (fun _ => afl.Within begun needed n out scratch) left) :
    Triple (afl.Within begun needed n out scratch) program
      (fun _ => afl.Going begun needed) left :=
  keeps.ending fun _ _ within => within.going

theorem triple_changeWord {change : BitVec (8 * width) → BitVec (8 * width)}
    (fits : position + width ≤ out) :
    Triple (afl.Within begun needed n out scratch)
      (changeWord width position change)
      (fun _ => afl.Within begun needed n out scratch) left := by
  apply Within.look
  intro state within _
  apply (triple_inside (fits.trans within.outRoom)).bind
  intro _
  apply triple_writeOut
  rw [Buffer.length_wordBytes]
  exact fits

theorem maxFile_lt : maxFile < 2 ^ 31 := by decide

/-- A value that stands for a change is drawn. -/
def DrawsOnly (afl : HavocSetting) {Item : Type} (program : Havoc Item) :
    Prop :=
  ∀ begun needed n out scratch left,
    Triple (afl.Within begun needed n out scratch) program
      (fun _ => afl.Within begun needed n out scratch) left

theorem triple_changeSomeWord {change : Havoc (BitVec (8 * width) → BitVec (8 * width))}
    (draws : afl.DrawsOnly change) (room : width ≤ n) (small : n ≤ maxFile) :
    Triple (afl.Within begun needed n n scratch)
      (afl.changeSomeWord width change)
      (fun _ => afl.Going begun needed) left := by
  have bound := maxFile_lt
  apply triple_going
  apply Within.look
  intro state _ length
  rw [length, minus_eq (by omega) (by omega)]
  apply Within.randBelow (by omega)
  intro position less
  apply (draws begun needed n n scratch left).bind
  intro change
  exact triple_changeWord (by omega)

theorem triple_ifRoom {change : Havoc (BitVec (8 * width) → BitVec (8 * width))}
    (draws : afl.DrawsOnly change) :
    Triple (afl.Going begun needed)
      (ifRoom width (afl.changeSomeWord width change))
      (fun _ => afl.Going begun needed) left := by
  apply Going.look
  intro state _ small
  apply Triple.onlyIf fun _ within => within.going
  intro room
  exact triple_changeSomeWord draws room small

theorem triple_changeSomeByte
    {change : Havoc (BitVec (8 * 1) → BitVec (8 * 1))}
    (draws : afl.DrawsOnly change) :
    Triple (afl.Going begun needed) (afl.changeSomeWord 1 change)
      (fun _ => afl.Going begun needed) left := by
  intro state going
  exact triple_changeSomeWord draws going.sound.positive
    going.sound.bounded state ⟨going, rfl, going.sound.fits, Nat.zero_le _⟩

theorem triple_element {Item : Type} {array : List Item} {index : Nat}
    (inside : index < array.length) :
    Triple before (Havoc.element array index) (fun item state =>
      before state ∧ array[index]? = some item) left := by
  intro state holds
  have found := List.getElem?_eq_getElem inside
  have ran : (Havoc.element array index).run state = (some array[index], state) := by
    unfold Havoc.element
    rw [found]
    rfl
  rw [ran]
  exact ⟨holds, found⟩

theorem drawsOnly_someValue {width : Nat} {values : List (BitVec (8 * width))}
    (order : BitVec (8 * width) → BitVec (8 * width))
    (nonempty : 0 < values.length) :
    afl.DrawsOnly (afl.someValue values order) := by
  intro begun needed n out scratch left
  apply Within.randBelow nonempty
  intro index less
  apply (triple_element less).bind
  intro value
  exact Triple.pure _ fun _ holds => holds.1

theorem drawsOnly_someNumber (width : Nat)
    (change : BitVec (8 * width) → BitVec (8 * width) → BitVec (8 * width)) :
    afl.DrawsOnly (afl.someNumber width change) := by
  intro begun needed n out scratch left
  apply Within.randBelow (by decide)
  intro drawn _
  exact Triple.pure _ fun _ within => within

theorem triple_flipSomeBit :
    Triple (afl.Going begun needed) afl.flipSomeBit
      (fun _ => afl.Going begun needed) left := by
  apply Going.look
  intro state positive _
  have bits : state.tempLen <<< 3 = 8 * state.tempLen := by
    rw [Nat.shiftLeft_eq, Nat.mul_comm]
  rw [bits]
  apply Within.randBelow (by omega)
  intro bit less
  apply triple_going
  apply triple_changeWord
  rw [Nat.shiftRight_eq_div_pow]
  omega

theorem triple_randomByte :
    Triple (afl.Going begun needed) afl.randomByte
      (fun _ => afl.Going begun needed) left := by
  apply triple_changeSomeByte
  intro begun needed n out scratch left
  apply Within.randBelow (by decide)
  intro drawn _
  exact Triple.pure _ fun _ within => within

theorem triple_insertBlock {more : Nat} (inside : position ≤ n) (positive : 0 < n)
    (fits : n + bytes.length ≤ maxFile) (few : more ≤ 1) :
    Triple (afl.Within begun needed n n scratch)
      (insertBlock more position bytes)
      (fun _ => afl.Going begun needed) left := by
  have bound := maxFile_lt
  apply Within.look
  intro state _ length
  rw [length]
  apply (triple_reallocScratch (by omega)).bind
  intro _
  apply Within.readOut (by omega)
  intro head headLength
  apply (triple_writeScratch (by omega)).bind
  intro _
  apply (triple_writeScratch (by omega)).bind
  intro _
  rw [minus_eq inside (by omega)]
  apply Within.readOut (by omega)
  intro tail tailLength
  apply (triple_writeScratch (by omega)).bind
  intro _
  apply (triple_swapBufs (by omega)).bind
  intro _
  exact triple_setTempLen (by omega) fits (by omega)

theorem triple_cloneBytes :
    Triple (afl.Going begun needed) afl.cloneBytes
      (fun _ => afl.Going begun needed) left := by
  have bound := maxFile_lt
  apply Going.look
  intro state positive small
  apply Triple.onlyIf fun _ within => within.going
  intro room
  apply Within.chooseBlockLen positive
  intro cloneLen least most atMost
  rw [minus_eq (by omega) (by omega)]
  apply Within.randBelow (by omega)
  intro cloneFrom fromLess
  apply Within.randBelow positive
  intro cloneTo toLess
  apply Within.readOut (by omega)
  intro bytes length
  exact triple_insertBlock (by omega) positive (by omega) (Nat.zero_le 1)

theorem Within.someByte {rest : BitVec 8 → Havoc Value} (positive : 0 < n)
    (inside : n ≤ out)
    (next : ∀ byte, Triple (afl.Within begun needed n out scratch) (rest byte)
      after left) :
    Triple (afl.Within begun needed n out scratch) (afl.someByte >>= rest)
      after left := by
  have drawn : Triple (afl.Within begun needed n out scratch) afl.someByte
      (fun _ => afl.Within begun needed n out scratch) left := by
    apply Within.look
    intro state within length
    apply Within.draw
    intro random _
    apply Triple.ite
    · intro _
      apply Within.draw
      intro byte _
      exact Triple.pure _ fun _ within => within
    · intro _
      rw [length]
      apply Within.randBelow positive
      intro position less
      apply (triple_inside (by have room := within.outRoom; omega)).bind
      intro _
      exact Triple.pure _ fun _ within => within
  exact drawn.bind next

theorem triple_insertConstant :
    Triple (afl.Going begun needed) afl.insertConstant
      (fun _ => afl.Going begun needed) left := by
  have large : 0 < havocBlkXl := by
    rw [havocBlkXl_eq]
    decide
  apply Going.look
  intro state positive small
  apply Triple.onlyIf fun _ within => within.going
  intro room
  apply Within.chooseBlockLen large
  intro cloneLen _ _ atMost
  apply Within.randBelow positive
  intro cloneTo less
  apply Within.someByte positive (Nat.le_refl _)
  intro byte
  apply triple_insertBlock (by omega) positive _ (Nat.zero_le 1)
  rw [List.length_replicate]
  omega

theorem triple_overwriteCopy :
    Triple (afl.Going begun needed) afl.overwriteCopy
      (fun _ => afl.Going begun needed) left := by
  have bound := maxFile_lt
  apply Going.look
  intro state positive small
  apply Triple.onlyIf fun _ within => within.going
  intro two
  rw [minus_eq (by omega) (by omega)]
  apply Within.chooseBlockLen (by omega)
  intro copyLen _ most _
  rw [minus_eq (by omega) (by omega)]
  apply Within.randBelow (by omega)
  intro copyFrom fromLess
  apply Within.randBelow (by omega)
  intro copyTo toLess
  apply Triple.onlyIf fun _ within => within.going
  intro _
  apply Within.readOut (by omega)
  intro bytes length
  apply triple_going
  exact triple_writeOut (by omega)

theorem triple_overwriteFixed :
    Triple (afl.Going begun needed) afl.overwriteFixed
      (fun _ => afl.Going begun needed) left := by
  have bound := maxFile_lt
  apply Going.look
  intro state positive small
  apply Triple.onlyIf fun _ within => within.going
  intro two
  rw [minus_eq (by omega) (by omega)]
  apply Within.chooseBlockLen (by omega)
  intro copyLen _ most _
  rw [minus_eq (by omega) (by omega)]
  apply Within.randBelow (by omega)
  intro copyTo less
  apply Within.someByte positive (Nat.le_refl _)
  intro byte
  apply triple_going
  apply triple_writeOut
  rw [List.length_replicate]
  omega

theorem triple_deleteBytes :
    Triple (afl.Going begun needed) afl.deleteBytes
      (fun _ => afl.Going begun needed) left := by
  have bound := maxFile_lt
  apply Going.look
  intro state positive small
  apply Triple.onlyIf fun _ within => within.going
  intro two
  rw [minus_eq (by omega) (by omega)]
  apply Within.chooseBlockLen (by omega)
  intro delLen _ most _
  rw [minus_eq (by omega) (by omega)]
  apply Within.randBelow (by omega)
  intro delFrom less
  rw [@minus_eq state.tempLen delFrom (by omega) (by omega),
    minus_eq (by omega) (by omega)]
  apply Within.readOut (by omega)
  intro tail length
  apply (triple_writeOut (by omega)).bind
  intro _
  rw [minus_eq (by omega) (by omega)]
  exact triple_setTempLen (by omega) (by omega) (by omega)

theorem triple_overwriteExtra (nonempty : extras ≠ []) :
    Triple (afl.Going begun needed) (afl.overwriteExtra extras)
      (fun _ => afl.Going begun needed) left := by
  have bound := maxFile_lt
  apply Going.look
  intro state positive small
  apply Within.randBelow (List.length_pos_iff.mpr nonempty)
  intro useExtra less
  apply (triple_element less).bind
  intro extra
  apply Triple.given
  intro _
  apply Triple.onlyIf fun _ within => within.going
  intro fits
  rw [minus_eq (by omega) (by omega)]
  apply Within.randBelow (by omega)
  intro insertAt inside
  apply triple_going
  exact triple_writeOut (by omega)

theorem triple_insertExtra (nonempty : extras ≠ []) :
    Triple (afl.Going begun needed) (afl.insertExtra extras)
      (fun _ => afl.Going begun needed) left := by
  have bound := maxFile_lt
  apply Going.look
  intro state positive small
  apply Within.randBelow (List.length_pos_iff.mpr nonempty)
  intro useExtra less
  apply (triple_element less).bind
  intro extra
  apply Triple.given
  intro _
  apply Triple.onlyIf fun _ within => within.going
  intro fits
  apply Within.randBelow (by omega)
  intro insertAt inside
  apply (triple_reallocOut (by omega)).bind
  intro _
  rw [minus_eq (by omega) (by omega)]
  apply Within.readOut (by omega)
  intro tail length
  apply (triple_writeOut (by omega)).bind
  intro _
  apply (triple_writeOut (by omega)).bind
  intro _
  exact triple_setTempLen (by omega) (by omega) (by omega)

/-- A sound state with a known queue and a known input. -/
structure Queued (afl : HavocSetting) (begun : HavocState) (needed : Prop)
    (queue : List (List (BitVec 8))) (inBuf : List (BitVec 8))
    (state : HavocState) : Prop where
  going : afl.Going begun needed state
  same : state.queue = queue
  input : state.inBuf = inBuf

/-- A sound state with a known input. -/
structure Given (afl : HavocSetting) (begun : HavocState) (needed : Prop)
    (inBuf : List (BitVec 8)) (state : HavocState) : Prop where
  going : afl.Going begun needed state
  input : state.inBuf = inBuf

theorem triple_drawPartner {queue : List (List (BitVec 8))} (nonempty : 0 < queue.length)
    (patience : Nat) :
    Triple (afl.Queued begun needed queue inBuf) (afl.drawPartner patience)
      (fun entry state => afl.Given begun needed inBuf state ∧
        4 ≤ entry.length ∧ entry.length ≤ maxFile) (Sound begun) := by
  induction patience with
  | zero => exact fun state queued => queued.going.sound
  | succ patience induction =>
      apply Triple.get.bind
      intro looked
      have drawn : Triple
          (fun state => looked = state ∧ afl.Queued begun needed queue inBuf state)
          (afl.randBelow looked.queue.length)
          (fun tid state => afl.Queued begun needed queue inBuf state ∧
            tid < looked.queue.length ∧ looked.queue = queue)
          (Sound begun) := by
        have any : Triple
            (fun state => looked.queue = queue ∧
              afl.Queued begun needed queue inBuf state)
            (afl.randBelow looked.queue.length)
            (fun tid state => (looked.queue = queue ∧
              afl.Queued begun needed queue inBuf state) ∧
                (0 < looked.queue.length → tid < looked.queue.length))
            (Sound begun) := by
          apply triple_randBelow
          intro state draws holds
          exact ⟨holds.1, holds.2.going.changed rfl
            holds.2.going.sound.fits, holds.2.same, holds.2.input⟩
        apply Triple.ending (any.starting _)
        · intro tid state holds
          obtain ⟨⟨same, queued⟩, below⟩ := holds
          exact ⟨queued, below (same ▸ nonempty), same⟩
        · intro state holds
          obtain ⟨same, queued⟩ := holds
          subst same
          exact ⟨queued.same, queued⟩
      apply drawn.bind
      intro tid
      apply Triple.given
      intro facts
      obtain ⟨inside, same⟩ := facts
      apply (triple_element inside).bind
      intro entry
      apply Triple.ite
      · intro _
        exact induction.starting fun _ holds => holds.1
      · intro fits
        apply Triple.pure
        intro state holds
        obtain ⟨queued, found⟩ := holds
        rw [same, ← queued.same] at found
        have member := List.mem_of_getElem? found
        refine ⟨⟨queued.going, queued.input⟩, ?_,
          (queued.going.sound.entries _ member).2⟩
        exact Nat.not_lt.mp (not_or.mp fits).2

theorem triple_pickPartner (necessary : needed) :
    Triple (afl.Given begun needed inBuf) afl.pickPartner
      (fun entry state => afl.Given begun needed inBuf state ∧
        4 ≤ entry.length ∧ entry.length ≤ maxFile) (Sound begun) := by
  apply Triple.get.bind
  intro looked
  apply Triple.ite
  · intro partner
    obtain ⟨tid, inside, _⟩ := partner
    apply (triple_drawPartner (Nat.zero_lt_of_lt inside) afl.patience).starting
    intro state holds
    obtain ⟨same, given⟩ := holds
    subst same
    exact ⟨given.going, rfl, given.input⟩
  · intro none state holds
    obtain ⟨same, given⟩ := holds
    subst same
    exact absurd (given.going.partnered necessary) none

theorem triple_part (inside : start + count ≤ bytes.length) :
    Triple before (Havoc.part bytes start count)
      (fun taken state => before state ∧ taken.length = count) left := by
  apply (triple_inside inside).bind
  intro _
  apply Triple.pure
  intro state holds
  refine ⟨holds, ?_⟩
  rw [List.length_take, List.length_drop]
  omega

theorem Within.part (inside : start + count ≤ bytes.length)
    {rest : List (BitVec 8) → Havoc Value} (next : ∀ taken, taken.length = count →
      Triple (afl.Within begun needed n out scratch) (rest taken) after left) :
    Triple (afl.Within begun needed n out scratch)
      (Havoc.part bytes start count >>= rest) after left := by
  apply (triple_part inside).bind
  intro bytes
  apply Triple.given
  exact next bytes

theorem triple_spliceChunk (necessary : needed) (r : Nat) :
    Triple (afl.Going begun needed) (afl.spliceChunk r)
      (fun _ => afl.Going begun needed) (Sound begun) := by
  have bound := maxFile_lt
  have picked : Triple (afl.Going begun needed) afl.pickPartner
      (fun entry state => afl.Going begun needed state ∧
        4 ≤ entry.length ∧ entry.length ≤ maxFile) (Sound begun) := by
    intro state going
    apply (triple_pickPartner necessary).ending _ state ⟨going, rfl⟩
    intro entry next holds
    exact ⟨holds.1.going, holds.2⟩
  apply picked.bind
  intro newBuf
  apply Triple.given
  intro lengths
  obtain ⟨long, fits⟩ := lengths
  apply Going.look
  intro state positive small
  apply Triple.ite
  · intro _
    rw [minus_eq (by omega) (by omega)]
    apply Within.chooseBlockLen (by omega)
    intro chosen least most _
    have copyLess : (if state.tempLen < chosen then state.tempLen
        else chosen) ≤ state.tempLen ∧
        (if state.tempLen < chosen then state.tempLen else chosen) ≤
          newBuf.length := by
      split
      · omega
      · omega
    generalize (if state.tempLen < chosen then state.tempLen else chosen) =
      copyLen at copyLess
    dsimp only
    rw [minus_eq (by omega) (by omega)]
    apply Within.randBelow (by omega)
    intro copyFrom fromLess
    rw [minus_eq (by omega) (by omega)]
    apply Within.randBelow (by omega)
    intro copyTo toLess
    apply Within.part (by omega)
    intro bytes length
    apply triple_going
    exact triple_writeOut (by omega)
  · intro room
    apply Within.chooseBlockLen (by omega)
    intro cloneLen least most atMost
    rw [minus_eq (by omega) (by omega)]
    apply Within.randBelow (by omega)
    intro cloneFrom fromLess
    apply Within.randBelow (by omega)
    intro cloneTo toLess
    apply Within.part (by omega)
    intro bytes length
    exact triple_insertBlock (by omega) positive (by omega) (Nat.le_refl 1)

theorem triple_expensive (listed : r < (if afl.extras ≠ [] then 4 else 0) +
      (if afl.aExtras ≠ [] then 4 else 0) ∨ needed) :
    Triple (afl.Going begun needed) (afl.expensive r)
      (fun _ => afl.Going begun needed)
      (Sound begun) := by
  apply Triple.ite
  · intro extra
    exact triple_overwriteExtra extra.1
  · intro notOverwrite
    apply Triple.ite
    · intro extra
      exact triple_insertExtra extra.1
    · intro notInsert
      apply Triple.ite
      · intro extra
        exact triple_overwriteExtra extra.1
      · intro notOverwriteAuto
        apply Triple.ite
        · intro extra
          exact triple_insertExtra extra.1
        · intro notInsertAuto
          apply triple_spliceChunk
          apply listed.resolve_left
          intro less
          by_cases extras : afl.extras ≠ []
          · by_cases aExtras : afl.aExtras ≠ []
            · rw [if_pos extras] at less notOverwriteAuto notInsertAuto
              rw [if_pos aExtras] at less
              have small : r - 4 < 4 := by omega
              exact notInsertAuto ⟨aExtras, small⟩
            · rw [if_pos extras, if_neg aExtras] at less
              exact notInsert ⟨extras, less⟩
          · by_cases aExtras : afl.aExtras ≠ []
            · rw [if_neg extras, if_pos aExtras] at less
              rw [if_neg extras] at notInsertAuto
              exact notInsertAuto ⟨aExtras, by omega⟩
            · rw [if_neg extras, if_neg aExtras] at less
              exact absurd less (Nat.not_lt_zero r)

theorem triple_mutate
    (listed : r < maxHavocEntry + 1 + (if afl.extras ≠ [] then 4 else 0) +
      (if afl.aExtras ≠ [] then 4 else 0) ∨ needed) :
    Triple (afl.Going begun needed) (afl.mutate r)
      (fun _ => afl.Going begun needed)
      (Sound begun) := by
  unfold mutate
  apply Triple.ite fun _ => triple_flipSomeBit
  intro _
  apply Triple.ite fun _ => triple_changeSomeByte
    (@drawsOnly_someValue afl 1 interesting8 id (by decide))
  intro _
  apply Triple.ite fun _ => triple_ifRoom
    (@drawsOnly_someValue afl 2 interesting16 id (by decide))
  intro _
  apply Triple.ite fun _ => triple_ifRoom
    (@drawsOnly_someValue afl 2 interesting16 swap16 (by decide))
  intro _
  apply Triple.ite fun _ => triple_ifRoom
    (@drawsOnly_someValue afl 4 interesting32 id (by decide))
  intro _
  apply Triple.ite fun _ => triple_ifRoom
    (@drawsOnly_someValue afl 4 interesting32 swap32 (by decide))
  intro _
  apply Triple.ite fun _ => triple_changeSomeByte (drawsOnly_someNumber 1 _)
  intro _
  apply Triple.ite fun _ => triple_changeSomeByte (drawsOnly_someNumber 1 _)
  intro _
  apply Triple.ite fun _ => triple_ifRoom (drawsOnly_someNumber 2 _)
  intro _
  apply Triple.ite fun _ => triple_ifRoom (drawsOnly_someNumber 2 _)
  intro _
  apply Triple.ite fun _ => triple_ifRoom (drawsOnly_someNumber 2 _)
  intro _
  apply Triple.ite fun _ => triple_ifRoom (drawsOnly_someNumber 2 _)
  intro _
  apply Triple.ite fun _ => triple_ifRoom (drawsOnly_someNumber 4 _)
  intro _
  apply Triple.ite fun _ => triple_ifRoom (drawsOnly_someNumber 4 _)
  intro _
  apply Triple.ite fun _ => triple_ifRoom (drawsOnly_someNumber 4 _)
  intro _
  apply Triple.ite fun _ => triple_ifRoom (drawsOnly_someNumber 4 _)
  intro _
  apply Triple.ite fun _ => triple_randomByte
  intro _
  apply Triple.ite fun _ => triple_cloneBytes
  intro _
  apply Triple.ite fun _ => triple_insertConstant
  intro _
  apply Triple.ite fun _ => triple_overwriteCopy
  intro _
  apply Triple.ite fun _ => triple_overwriteFixed
  intro _
  apply Triple.ite fun _ => triple_deleteBytes
  intro large
  apply triple_expensive
  apply listed.imp_left
  intro less
  omega

end HavocSetting

end AFLPlusPlus
