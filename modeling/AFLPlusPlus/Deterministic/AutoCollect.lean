import AFLPlusPlus.Deterministic.Events
import AFLPlusPlus.Support.MaximalRuns
import AFLPlusPlus.Support.Stores

/-!
# Tokens that the walking bit finds

While the lowest bit of each byte is flipped, bytes for which the checksum of the
trace stays the same are collected, and passed to `maybe_add_auto` when it
changes.  What is passed are the maximal runs of a checksum.
-/

namespace AFLPlusPlus

open MaximalRuns

/-- Why the stage does not come to its end: the entry is abandoned, or a byte is
written behind `a_collect`. -/
inductive CollectFault where
  | abandoned
  | outOfBounds

/-- The entry, with what an execution comes to: the checksum of its trace, or
the entry is abandoned. -/
structure CollectSetting where
  len : Nat
  inBuf : Buffer
  execCksum : BitVec 64
  nonInstrumentedMode : Bool
  execute : Nat → List (BitVec 8) → Option (BitVec 64)

/-- The variables of the stage, and what was passed to `maybe_add_auto`. -/
structure CollectState where
  outBuf : Buffer
  aCollect : List (BitVec 8)
  aLen : Nat
  prevCksum : BitVec 64
  passed : List (List (BitVec 8))

namespace CollectState

variable (state : CollectState)

/-- One more byte, which is counted also if there is no room for it. -/
def collect (byte : BitVec 8) : Except CollectFault CollectState :=
  if state.aLen < maxAutoExtra then
    if state.aLen < state.aCollect.length then
      .ok { state with
        aCollect := state.aCollect.set state.aLen byte
        aLen := state.aLen + 1 }
    else .error .outOfBounds
  else .ok { state with aLen := state.aLen + 1 }

/-- `maybe_add_auto` if the length is right. -/
def pass : CollectState :=
  if minAutoExtra ≤ state.aLen ∧ state.aLen ≤ maxAutoExtra then
    { state with passed := state.passed ++ [state.aCollect.take state.aLen] }
  else state

variable {state} in
theorem collect_ok (room : state.aCollect.length = maxAutoExtra)
    (byte : BitVec 8) :
    ∃ next, state.collect byte = .ok next ∧ next.passed = state.passed := by
  unfold collect
  split
  · rw [if_pos (by omega)]
    exact ⟨_, rfl, rfl⟩
  · exact ⟨_, rfl, rfl⟩

end CollectState

namespace CollectSetting

variable (afl : CollectSetting)

/-- What is made of a checksum. -/
def learn (stageCur : Nat) (cksum : BitVec 64) (state : CollectState) :
    Except CollectFault CollectState := do
  let byte := state.outBuf (stageCur >>> 3)
  let state ←
    if stageCur = afl.len <<< 3 - 1 ∧ cksum = state.prevCksum then do
      let collected ← state.collect byte
      pure collected.pass
    else if cksum ≠ state.prevCksum then
      pure { state.pass with aLen := 0, prevCksum := cksum }
    else pure state
  if cksum ≠ afl.execCksum then state.collect byte else pure state

/-- One round of the stage.  `common_fuzz_stuff` may abandon the entry. -/
def flipRound (stageCur : Nat) (state : CollectState) :
    Except CollectFault CollectState :=
  let flipped := flipBit stageCur state.outBuf
  match afl.execute stageCur (flipped.loadBytes 0 afl.len) with
  | none => .error .abandoned
  | some cksum =>
      let restored := { state with outBuf := flipBit stageCur flipped }
      if afl.nonInstrumentedMode = false ∧ stageCur &&& 7 = 7 then
        afl.learn stageCur cksum restored
      else .ok restored

/-- The stage `bitflip 1/1`, in `fuzz_one_original` and in
`mopt_common_fuzzing`.  The bytes of `a_collect` are not initialized. -/
def bitflip1 (aCollect : List (BitVec 8)) : Except CollectFault CollectState :=
  forRangeM afl.flipRound (afl.len <<< 3)
    ⟨afl.inBuf, aCollect, 0, afl.execCksum, []⟩

/-- The checksum for byte `k`, computed when its lowest bit is flipped. -/
def cksumAt (k : Nat) : BitVec 64 :=
  (afl.execute (8 * k + 7)
    ((flipBit (8 * k + 7) afl.inBuf).loadBytes 0 afl.len)).getD 0#64

/-- The bytes from `first` to `last` are a token. -/
def IsToken (first last : Nat) : Prop :=
  MaximalRun afl.cksumAt afl.len first last ∧ afl.cksumAt first ≠ afl.execCksum ∧
    minAutoExtra ≤ last - first + 1 ∧ last - first + 1 ≤ maxAutoExtra

instance (first last : Nat) : Decidable (afl.IsToken first last) :=
  inferInstanceAs (Decidable (_ ∧ _))

/-- The tokens that end at a byte, in order of their starts. -/
def tokensTo (last : Nat) : List (List (BitVec 8)) :=
  (List.range (last + 1)).filterMap fun first =>
    if afl.IsToken first last then
      some (afl.inBuf.loadBytes first (last - first + 1))
    else none

def tokens : List (List (BitVec 8)) := (List.range afl.len).flatMap afl.tokensTo

/-- Where the run of byte `k` begins. -/
def start (k : Nat) : Nat := runStart afl.cksumAt k

theorem tokensTo_eq (last : Nat) :
    afl.tokensTo last =
      if afl.IsToken (afl.start last) last then
        [afl.inBuf.loadBytes (afl.start last) (last - afl.start last + 1)]
      else [] := by
  refine filterMap_range_eq
    (fun first => afl.inBuf.loadBytes first (last - first + 1))
    (runStart_le afl.cksumAt last) ?_
  intro first token
  exact (maximalRun_iff.mp token.1).2.1

def prevAt : Nat → BitVec 64
  | 0 => afl.execCksum
  | k + 1 => afl.cksumAt k

/-- How many bytes are collected after `k` bytes. -/
def collectedAt : Nat → Nat
  | 0 => 0
  | k + 1 =>
      if afl.cksumAt k = afl.execCksum then 0 else k + 1 - afl.start k

/-- The last bytes that were looked at are collected, as far as there is room. -/
structure Holds (k : Nat) (state : CollectState) : Prop where
  outBuf : state.outBuf = afl.inBuf
  room : state.aCollect.length = maxAutoExtra
  short : state.aLen ≤ k
  bytes : ∀ i < state.aLen, i < maxAutoExtra →
    state.aCollect[i]? = some (afl.inBuf (k - state.aLen + i))

/-- The stage after `k` bytes, unless it has come to its end: one run is being
collected, and those before it were passed. -/
structure Collecting (k : Nat) (state : CollectState) : Prop where
  held : afl.Holds k state
  prevCksum : state.prevCksum = afl.prevAt k
  aLen : state.aLen = afl.collectedAt k
  passed : state.passed = (List.range (k - 1)).flatMap afl.tokensTo

variable {afl} {k : Nat} {state : CollectState}

theorem Holds.collect (held : afl.Holds k state) :
    ∃ next, state.collect (afl.inBuf k) = .ok next ∧
      afl.Holds (k + 1) next ∧ next.aLen = state.aLen + 1 ∧
      next.prevCksum = state.prevCksum ∧ next.passed = state.passed := by
  have short := held.short
  have room := held.room
  have place : k + 1 - (state.aLen + 1) = k - state.aLen := by omega
  unfold CollectState.collect
  by_cases fits : state.aLen < maxAutoExtra
  · rw [if_pos fits, if_pos (by omega)]
    refine ⟨_, rfl, ⟨held.outBuf, ?_, by simpa using short, ?_⟩, rfl, rfl, rfl⟩
    · simpa using room
    · intro i less inside
      dsimp only at less ⊢
      rw [place, List.getElem?_set]
      by_cases last : state.aLen = i
      · subst last
        rw [if_pos rfl, if_pos (by omega)]
        congr 2
        omega
      · rw [if_neg last]
        exact held.bytes i (by omega) inside
  · rw [if_neg fits]
    refine ⟨_, rfl, ⟨held.outBuf, room, by simpa using short, ?_⟩, rfl, rfl, rfl⟩
    intro i less inside
    dsimp only at less ⊢
    rw [place]
    exact held.bytes i (by omega) inside

/-- What is passed at the end of a run is its token, if it is one. -/
theorem Holds.pass (held : afl.Holds (k + 1) state) (inside : k < afl.len)
    (ends : k + 1 = afl.len ∨ afl.cksumAt (k + 1) ≠ afl.cksumAt k)
    (noOp : afl.cksumAt k = afl.execCksum → state.aLen < minAutoExtra)
    (run : afl.cksumAt k ≠ afl.execCksum → state.aLen = k + 1 - afl.start k) :
    state.pass = { state with passed := state.passed ++ afl.tokensTo k } := by
  have small : afl.start k ≤ k := runStart_le afl.cksumAt k
  have same : afl.cksumAt (afl.start k) = afl.cksumAt k :=
    (values_runStart afl.cksumAt k k (Nat.le_refl k) small).symm
  have maximal : MaximalRun afl.cksumAt afl.len (afl.start k) k :=
    maximalRun_iff.mpr ⟨inside, rfl, ends⟩
  have isToken : afl.IsToken (afl.start k) k ↔
      minAutoExtra ≤ state.aLen ∧ state.aLen ≤ maxAutoExtra := by
    unfold IsToken
    rw [same]
    by_cases exec : afl.cksumAt k = afl.execCksum
    · have few := noOp exec
      simp only [exec, ne_eq, not_true_eq_false, false_and, and_false,
        false_iff, not_and]
      omega
    · rw [run exec]
      simp only [maximal, exec, ne_eq, not_false_eq_true, true_and]
      omega
  rw [CollectState.pass, tokensTo_eq]
  by_cases token : minAutoExtra ≤ state.aLen ∧ state.aLen ≤ maxAutoExtra
  · rw [if_pos token, if_pos (isToken.mpr token)]
    have length : state.aLen = k - afl.start k + 1 := by
      by_cases exec : afl.cksumAt k = afl.execCksum
      · exact absurd (noOp exec) (Nat.not_lt.mpr token.1)
      · rw [run exec]
        omega
    have bytes : state.aCollect.take state.aLen =
        afl.inBuf.loadBytes (afl.start k) (k - afl.start k + 1) := by
      rw [← length]
      apply List.ext_getElem?
      intro i
      by_cases early : i < state.aLen
      · have here : k + 1 - state.aLen + i = afl.start k + i := by omega
        rw [List.getElem?_take, if_pos early, held.bytes i early (by omega),
          here, Buffer.loadBytes, List.getElem?_map,
          List.getElem?_range early]
        rfl
      · rw [List.getElem?_eq_none (by
            rw [List.length_take]
            omega),
          List.getElem?_eq_none (by
            rw [Buffer.length_loadBytes]
            omega)]
    rw [bytes]
  · rw [if_neg token, if_neg (mt isToken.mp token), List.append_nil]

theorem tokens_succ (k : Nat) :
    (List.range (k + 1)).flatMap afl.tokensTo =
      (List.range k).flatMap afl.tokensTo ++ afl.tokensTo k := by
  rw [List.range_succ, List.flatMap_append, List.flatMap_singleton]

theorem collectedAt_noOp (noOp : afl.cksumAt k = afl.execCksum) :
    afl.collectedAt (k + 1) = 0 :=
  if_pos noOp

theorem collectedAt_run (differs : afl.cksumAt k ≠ afl.execCksum) :
    afl.collectedAt (k + 1) = k + 1 - afl.start k :=
  if_neg differs

theorem start_changed (changed : afl.cksumAt k ≠ afl.prevAt k) : afl.start k = k := by
  cases k with
  | zero => rfl
  | succ j => exact if_neg changed

section Same

variable (same : afl.cksumAt k = afl.prevAt k)
include same

theorem tokens_same (inside : k < afl.len) :
    (List.range (k - 1)).flatMap afl.tokensTo =
      (List.range k).flatMap afl.tokensTo := by
  cases k with
  | zero => rfl
  | succ j =>
      have none : afl.tokensTo j = [] := by
        rw [tokensTo_eq, if_neg]
        intro token
        rcases (maximalRun_iff.mp token.1).2.2 with last | different
        · omega
        · exact different same
      rw [Nat.add_sub_cancel, tokens_succ, none, List.append_nil]

theorem collectedAt_same (differs : afl.cksumAt k ≠ afl.execCksum) :
    afl.collectedAt (k + 1) = afl.collectedAt k + 1 := by
  rw [collectedAt_run differs]
  cases k with
  | zero => exact absurd same differs
  | succ j =>
      have before : afl.cksumAt j ≠ afl.execCksum := fun equal =>
        differs (same.trans equal)
      have goesOn : afl.start (j + 1) = afl.start j := if_pos same
      have begun : afl.start j ≤ j := runStart_le afl.cksumAt j
      rw [collectedAt_run before, goesOn]
      omega

theorem collectedAt_same_noOp (noOp : afl.cksumAt k = afl.execCksum) :
    afl.collectedAt k = 0 := by
  cases k with
  | zero => rfl
  | succ j => exact collectedAt_noOp (same.symm.trans noOp)

end Same

theorem Collecting.pass (collecting : afl.Collecting k state)
    (inside : k < afl.len) (changed : afl.cksumAt k ≠ afl.prevAt k) :
    state.pass = { state with
      passed := (List.range k).flatMap afl.tokensTo } := by
  have aLen := collecting.aLen
  have passed := collecting.passed
  cases k with
  | zero =>
      have none : state.aLen = 0 := aLen
      rw [CollectState.pass, if_neg (by rw [none]; decide), ← passed]
  | succ j =>
      have ends : afl.cksumAt (j + 1) ≠ afl.cksumAt j := changed
      rw [collecting.held.pass (by omega) (.inr ends), passed,
        Nat.add_sub_cancel, ← tokens_succ]
      · intro noOp
        rw [aLen, collectedAt_noOp noOp]
        decide
      · intro differs
        rw [aLen, collectedAt_run differs]

theorem byteOf (k : Nat) : (8 * k + 7) >>> 3 = k := by
  rw [Nat.shiftRight_eq_div_pow]
  omega

theorem Holds.byte (held : afl.Holds k state) :
    state.outBuf ((8 * k + 7) >>> 3) = afl.inBuf k := by
  rw [byteOf, held.outBuf]

theorem lastBit_iff (inside : k < afl.len) :
    8 * k + 7 = afl.len <<< 3 - 1 ↔ k + 1 = afl.len := by
  rw [Nat.shiftLeft_eq]
  omega

section

variable (collecting : afl.Collecting k state)
include collecting

theorem Collecting.learn_changed (inside : k < afl.len)
    (changed : afl.cksumAt k ≠ afl.prevAt k) :
    ∃ next, afl.learn (8 * k + 7) (afl.cksumAt k) state = .ok next ∧
      afl.Collecting (k + 1) next := by
  have held := collecting.held
  have changed' := changed
  rw [← collecting.prevCksum] at changed'
  let reset : CollectState := { state with
    passed := (List.range k).flatMap afl.tokensTo
    aLen := 0
    prevCksum := afl.cksumAt k }
  have empty : afl.Holds k reset := ⟨held.outBuf, held.room, Nat.zero_le k,
    fun _ less => absurd less (Nat.not_lt_zero _)⟩
  have learned : afl.learn (8 * k + 7) (afl.cksumAt k) state =
      if afl.cksumAt k ≠ afl.execCksum then reset.collect (afl.inBuf k)
      else .ok reset := by
    rw [learn, if_neg (fun last => changed' last.2), if_pos changed',
      collecting.pass inside changed, held.byte]
    rfl
  rw [learned]
  by_cases noOp : afl.cksumAt k = afl.execCksum
  · refine ⟨_, if_neg (not_not.mpr noOp), ?_, rfl, ?_, rfl⟩
    · exact ⟨held.outBuf, held.room, Nat.zero_le _,
        fun _ less => absurd less (Nat.not_lt_zero _)⟩
    · exact (collectedAt_noOp noOp).symm
  · obtain ⟨next, stored, heldNext, aLen, prev, passed⟩ := empty.collect
    refine ⟨next, (if_pos noOp).trans stored, heldNext, prev, ?_, passed⟩
    have one : next.aLen = 1 := aLen
    rw [one, collectedAt_run noOp, start_changed changed]
    omega

theorem Collecting.learn_same (inside : k + 1 < afl.len)
    (same : afl.cksumAt k = afl.prevAt k) :
    ∃ next, afl.learn (8 * k + 7) (afl.cksumAt k) state = .ok next ∧
      afl.Collecting (k + 1) next := by
  have held := collecting.held
  have isSame := same.trans collecting.prevCksum.symm
  have notLast : ¬8 * k + 7 = afl.len <<< 3 - 1 := by
    rw [lastBit_iff (by omega)]
    omega
  have learned : afl.learn (8 * k + 7) (afl.cksumAt k) state =
      if afl.cksumAt k ≠ afl.execCksum then state.collect (afl.inBuf k)
      else .ok state := by
    rw [learn, if_neg (fun last => notLast last.1),
      if_neg (not_not.mpr isSame), held.byte]
    rfl
  have passed := tokens_same same (by omega)
  rw [learned]
  by_cases noOp : afl.cksumAt k = afl.execCksum
  · have none := collecting.aLen.trans (collectedAt_same_noOp same noOp)
    refine ⟨state, if_neg (not_not.mpr noOp), ⟨held.outBuf, held.room,
      by omega, ?_⟩, isSame.symm, ?_, collecting.passed.trans passed⟩
    · intro i less
      omega
    · exact none.trans (collectedAt_noOp noOp).symm
  · obtain ⟨next, stored, heldNext, length, prev, kept⟩ := held.collect
    refine ⟨next, (if_pos noOp).trans stored, heldNext, prev.trans isSame.symm, ?_, ?_⟩
    · rw [length, collecting.aLen, collectedAt_same same noOp]
    · exact kept.trans (collecting.passed.trans passed)

theorem Collecting.learn_last (last : k + 1 = afl.len) :
    ∃ next, afl.learn (8 * k + 7) (afl.cksumAt k) state = .ok next ∧
      next.passed = afl.tokens := by
  have held := collecting.held
  have all : afl.tokens = (List.range k).flatMap afl.tokensTo ++ afl.tokensTo k := by
    rw [tokens, ← last, tokens_succ]
  by_cases same : afl.cksumAt k = afl.prevAt k
  · obtain ⟨next, stored, heldNext, length, prev, kept⟩ := held.collect
    have isLast : 8 * k + 7 = afl.len <<< 3 - 1 := (lastBit_iff (by omega)).mpr last
    have isSame := same.trans collecting.prevCksum.symm
    have final : next.pass =
        { next with passed := next.passed ++ afl.tokensTo k } := by
      refine heldNext.pass (by omega) (.inl last) ?_ ?_
      · intro noOp
        rw [length, collecting.aLen, collectedAt_same_noOp same noOp]
        decide
      · intro differs
        rw [length, collecting.aLen, ← collectedAt_same same differs,
          collectedAt_run differs]
    have result : next.passed ++ afl.tokensTo k = afl.tokens := by
      rw [kept, collecting.passed, tokens_same same (by omega), all]
    have learned : afl.learn (8 * k + 7) (afl.cksumAt k) state =
        if afl.cksumAt k ≠ afl.execCksum then
          next.pass.collect (afl.inBuf k)
        else .ok next.pass := by
      rw [learn, if_pos ⟨isLast, isSame⟩, held.byte, stored]
      rfl
    rw [learned, final]
    by_cases noOp : afl.cksumAt k = afl.execCksum
    · exact ⟨_, if_neg (not_not.mpr noOp), result⟩
    · obtain ⟨ended, again, passed⟩ := @CollectState.collect_ok
        { next with passed := next.passed ++ afl.tokensTo k }
        heldNext.room (afl.inBuf k)
      exact ⟨ended, (if_pos noOp).trans again, passed.trans result⟩
  · obtain ⟨next, learned, later⟩ := collecting.learn_changed (by omega) same
    refine ⟨next, learned, ?_⟩
    have none : afl.tokensTo k = [] := by
      rw [tokensTo_eq, start_changed same, if_neg]
      intro token
      have long := token.2.2.1
      unfold minAutoExtra at long
      omega
    rw [later.passed, all, none, List.append_nil, Nat.add_sub_cancel]

end

/-- The stage after a number of bits: as many bytes as were done are behind it,
or it has come to its end. -/
def At (afl : CollectSetting) (bits : Nat) (state : CollectState) : Prop :=
  if bits = afl.len <<< 3 then state.passed = afl.tokens
  else afl.Collecting (bits / 8) state

/-- The only fault there can be. -/
def Abandons (afl : CollectSetting) (fault : CollectFault) : Prop :=
  fault = .abandoned ∧ ∃ stageCur buffer, afl.execute stageCur buffer = none

theorem Collecting.learn_at (collecting : afl.Collecting k state)
    (inside : k < afl.len) :
    ∃ next, afl.learn (8 * k + 7) (afl.cksumAt k) state = .ok next ∧
      At afl (8 * k + 7 + 1) next := by
  have whole : afl.len <<< 3 = 8 * afl.len := by
    rw [Nat.shiftLeft_eq, Nat.mul_comm]
  have next : (8 * k + 7 + 1) / 8 = k + 1 := by omega
  by_cases last : k + 1 = afl.len
  · obtain ⟨final, learned, passed⟩ := collecting.learn_last last
    refine ⟨final, learned, ?_⟩
    rw [At, if_pos (by omega)]
    exact passed
  · have later : ∃ next, afl.learn (8 * k + 7) (afl.cksumAt k) state =
        .ok next ∧ afl.Collecting (k + 1) next := by
      by_cases same : afl.cksumAt k = afl.prevAt k
      · exact collecting.learn_same (by omega) same
      · exact collecting.learn_changed inside same
    obtain ⟨final, learned, holds⟩ := later
    refine ⟨final, learned, ?_⟩
    rw [At, if_neg (by omega), next]
    exact holds

theorem flipRound_yields (instrumented : afl.nonInstrumentedMode = false)
    {stageCur : Nat} (inside : stageCur < afl.len <<< 3)
    (here : At afl stageCur state) :
    Yields (Abandons afl) (At afl (stageCur + 1))
      (afl.flipRound stageCur state) := by
  rw [At, if_neg (Nat.ne_of_lt inside)] at here
  have whole : afl.len <<< 3 = 8 * afl.len := by
    rw [Nat.shiftLeft_eq, Nat.mul_comm]
  have outBuf := here.held.outBuf
  have twice : flipBit stageCur (flipBit stageCur state.outBuf) =
      state.outBuf := flipBits_flipBits 1 stageCur state.outBuf
  have bitOf : stageCur &&& 7 = stageCur % 8 :=
    Nat.and_two_pow_sub_one_eq_mod stageCur 3
  unfold flipRound
  dsimp only
  cases executed : afl.execute stageCur
    ((flipBit stageCur state.outBuf).loadBytes 0 afl.len) with
  | none => exact ⟨rfl, stageCur, _, executed⟩
  | some cksum =>
      dsimp only
      rw [twice]
      by_cases lowest : stageCur &&& 7 = 7
      · rw [if_pos ⟨instrumented, lowest⟩]
        obtain ⟨k, rfl⟩ : ∃ k, stageCur = 8 * k + 7 := ⟨stageCur / 8, by omega⟩
        have byte : (8 * k + 7) / 8 = k := by omega
        rw [byte] at here
        have isCksum : cksum = afl.cksumAt k := by
          rw [outBuf] at executed
          rw [cksumAt, executed]
          rfl
        obtain ⟨next, learned, later⟩ := here.learn_at (by omega)
        rw [isCksum]
        change Yields _ _ (afl.learn _ _ state)
        rw [learned]
        exact later
      · rw [if_neg (fun both => lowest both.2)]
        have same : (stageCur + 1) / 8 = stageCur / 8 := by omega
        change At afl (stageCur + 1) state
        rw [At, if_neg (by omega), same]
        exact here

theorem bitflip1_yields (instrumented : afl.nonInstrumentedMode = false)
    {aCollect : List (BitVec 8)} (room : aCollect.length = maxAutoExtra) :
    Yields (Abandons afl) (fun final => final.passed = afl.tokens)
      (afl.bitflip1 aCollect) := by
  have begun : At afl 0 ⟨afl.inBuf, aCollect, 0, afl.execCksum, []⟩ := by
    unfold At
    split
    · rename_i empty
      have none : afl.len = 0 := by
        rw [Nat.shiftLeft_eq] at empty
        omega
      rw [tokens, none]
      rfl
    · exact ⟨⟨rfl, room, Nat.le_refl 0,
        fun _ less => absurd less (Nat.not_lt_zero _)⟩, rfl, rfl, rfl⟩
  have run := forRangeM_yields afl.flipRound (At afl) _ begun (afl.len <<< 3)
    fun stageCur inside _ here => flipRound_yields instrumented inside here
  refine run.mono fun final ended => ?_
  rw [At, if_pos rfl] at ended
  exact ended

/-- Whatever the checksums are: no byte is written behind `a_collect`, the stage
ends unless an execution abandons the entry, and what it has passed then are the
tokens. -/
theorem bitflip1_passes (instrumented : afl.nonInstrumentedMode = false)
    {aCollect : List (BitVec 8)} (room : aCollect.length = maxAutoExtra) :
    (∀ fault, afl.bitflip1 aCollect = .error fault → fault = .abandoned) ∧
      (∀ final, afl.bitflip1 aCollect = .ok final → final.passed = afl.tokens) ∧
      ((∀ stageCur buffer, afl.execute stageCur buffer ≠ none) →
        ∃ final, afl.bitflip1 aCollect = .ok final) := by
  have run := bitflip1_yields instrumented room
  cases ended : afl.bitflip1 aCollect with
  | error fault =>
      rw [ended] at run
      obtain ⟨isAbandoned, stageCur, buffer, abandons⟩ := run
      refine ⟨fun other same => ?_, fun final same => ?_, fun never => ?_⟩
      · cases same
        exact isAbandoned
      · cases same
      · exact absurd abandons (never stageCur buffer)
  | ok final =>
      rw [ended] at run
      refine ⟨fun other same => ?_, fun other same => ?_, fun _ =>
        ⟨final, rfl⟩⟩
      · cases same
      · cases same
        exact run

end CollectSetting

/-- Four bytes, the last three of which are checked together. -/
def checkedBytes : CollectSetting where
  len := 4
  inBuf := fun address => if address = 0 then 120#8 else 65#8
  execCksum := 1#64
  nonInstrumentedMode := false
  execute := fun stageCur _ => if stageCur < 8 then some 1#64 else some 2#64

theorem bitflip1_passes_threeBytes :
    (∀ final, checkedBytes.bitflip1 (List.replicate 32 0#8) = .ok final →
        final.passed = checkedBytes.tokens) ∧
      ∃ final, checkedBytes.bitflip1 (List.replicate 32 0#8) = .ok final := by
  have passes := @CollectSetting.bitflip1_passes checkedBytes rfl
    (List.replicate 32 0#8) rfl
  refine ⟨passes.2.1, passes.2.2 fun stageCur buffer => ?_⟩
  change (if stageCur < 8 then some 1#64 else some 2#64) ≠ none
  split <;> exact Option.some_ne_none _

example : checkedBytes.tokens = [[65#8, 65#8, 65#8]] := by decide

end AFLPlusPlus
