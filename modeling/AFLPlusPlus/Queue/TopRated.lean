import AFLPlusPlus.Queue.State

/-!
# The table of top rated entries

`update_bitmap_score` lets a queue entry compete for every byte of the map that
its trace has hit.  An entry keeps its packed trace, `trace_mini`, as long as
it has won some byte, counted by `tc_ref`.
-/

namespace AFLPlusPlus

/-- `next_pow2` of `alloc-inl.h`. -/
def nextPow2 (value : BitVec 64) : BitVec 64 :=
  let out := value - 1#64
  let out := out ||| out >>> 1
  let out := out ||| out >>> 2
  let out := out ||| out >>> 4
  let out := out ||| out >>> 8
  let out := out ||| out >>> 16
  out + 1#64

/-- `ck_alloc`: zeroed memory, or NULL for no bytes at all. -/
def ckAlloc (size : Nat) : Option Buffer :=
  if size = 0 then none else some fun _ => 0#8

/-- The loop body of `minimize_bits`. -/
def minimizeBitsRound (src : Buffer) (i : Nat) (dst : Buffer) : Buffer :=
  if src i ≠ 0#8 then
    Function.update dst (i >>> 3) (dst (i >>> 3) ||| 1#8 <<< (i &&& 7))
  else dst

def minimizeBits (mapSize : Nat) (dst src : Buffer) : Buffer :=
  forRange (minimizeBitsRound src) mapSize dst

namespace QueueState

variable (afl : QueueState)

/-- `fuzz_p2` of the entry that competes. -/
def fuzzP2 (q : QueueEntry) : BitVec 64 :=
  if Schedule.fast.number ≤ afl.schedule.number ∧
      afl.schedule.number < Schedule.rare.number then
    0#64
  else if afl.schedule = .rare then
    nextPow2 ((afl.nFuzz q.nFuzzEntry).setWidth 64)
  else q.fuzzLevel.setWidth 64

def topRatedFuzzP2 (topRated : QueueEntry) : BitVec 64 :=
  if Schedule.fast.number ≤ afl.schedule.number ∧
      afl.schedule.number ≤ Schedule.rare.number then
    nextPow2 ((afl.nFuzz topRated.nFuzzEntry).setWidth 64)
  else topRated.fuzzLevel.setWidth 64

/-- `fav_factor` and `top_rated_fav_factor`; `len << 2` is a 32-bit shift. -/
def favFactor (q : QueueEntry) : BitVec 64 :=
  if Schedule.rare.number ≤ afl.schedule.number ∨ afl.fixedSeed = true then
    (q.len <<< 2).setWidth 64
  else q.execUs * q.len.setWidth 64

/-- The `continue` statements of the loop: the previous winner stays. -/
def keepsWinner (fuzzP2 favFactor : BitVec 64) (topRated : QueueEntry) :
    Bool :=
  if afl.topRatedFuzzP2 topRated < fuzzP2 then true
  else if fuzzP2 = afl.topRatedFuzzP2 topRated ∧
      afl.favFactor topRated < favFactor then
    true
  else decide (afl.favFactor topRated < favFactor)

/-- Decrease the reference count of the previous winner and discard its trace
if necessary. -/
def releaseWinner (topRated : Nat) : QueueState :=
  afl.modify topRated fun entry =>
    { entry with
      tcRef := entry.tcRef - 1#32
      traceMini :=
        if entry.tcRef - 1#32 = 0#32 then none else entry.traceMini }

/-- Insert an entry as the new winner. -/
def insertWinner (q i : Nat) : QueueState :=
  { afl.modify q fun entry =>
      { entry with
        tcRef := entry.tcRef + 1#32
        traceMini :=
          match entry.traceMini with
          | some traceMini => some traceMini
          | none => (ckAlloc (afl.mapSize >>> 3)).map fun memory =>
              minimizeBits afl.mapSize memory afl.traceBits } with
    topRated := Function.update afl.topRated i (some q)
    scoreChanged := true }

/-- One index of the loop of `update_bitmap_score`. -/
def updateBitmapScoreRound (q : Nat) (fuzzP2 favFactor : BitVec 64) (i : Nat)
    (afl : QueueState) : QueueState :=
  if afl.traceBits i = 0#8 then afl
  else
    match afl.topRated i with
    | none => afl.insertWinner q i
    | some topRated =>
        if afl.keepsWinner fuzzP2 favFactor (afl.queueBuf topRated) then afl
        else (afl.releaseWinner topRated).insertWinner q i

def updateBitmapScore (q : Nat) : QueueState :=
  forRange (updateBitmapScoreRound q (afl.fuzzP2 (afl.queueBuf q))
    (afl.favFactor (afl.queueBuf q))) afl.mapSize afl

/-- The table points into the queue, `tc_ref` counts the indices an entry has
won, and an entry has a packed trace exactly when it has won one. -/
structure RatedInvariant : Prop where
  rated : ∀ i id, afl.topRated i = some id → i < afl.mapSize ∧ id < afl.queuedPaths
  tcRef : ∀ id, (afl.queueBuf id).tcRef = BitVec.ofNat 32 (afl.ratedCount id)
  traceMini : ∀ id, (afl.queueBuf id).traceMini.isSome = true ↔ 0 < afl.ratedCount id

def clearSlot (i : Nat) : QueueState :=
  { afl with topRated := Function.update afl.topRated i none }

theorem ratedCount_bounded (id : Nat) : afl.ratedCount id < 2 ^ 32 :=
  Nat.lt_of_le_of_lt (Nat.count_le _) afl.bounded

variable {afl}

variable {i q topRated : Nat}

theorem ratedCount_clearSlot (inside : i < afl.mapSize)
    (winner : afl.topRated i = some topRated) (id : Nat) :
    afl.ratedCount id =
      (afl.clearSlot i).ratedCount id + if id = topRated then 1 else 0 := by
  have other : ∀ index < afl.mapSize, index ≠ i →
      (afl.topRated index = some id ↔ (afl.clearSlot i).topRated index = some id) := by
    intro index _ different
    simp [clearSlot, different]
  have gone : ¬(afl.clearSlot i).topRated i = some id := by
    simp [clearSlot]
  by_cases same : id = topRated
  · rw [if_pos same]
    exact Counting.count_remove inside other (by rw [winner, same]) gone
  · rw [if_neg same, Nat.add_zero]
    refine Counting.count_keep other fun _ => iff_of_false ?_ gone
    rw [winner]
    exact fun equality => same (Option.some.inj equality).symm

theorem ratedCount_insertWinner (inside : i < afl.mapSize) (empty : afl.topRated i = none)
    (q id : Nat) :
    (afl.insertWinner q i).ratedCount id =
      afl.ratedCount id + if id = q then 1 else 0 := by
  have other : ∀ index < afl.mapSize, index ≠ i →
      (afl.topRated index = some id ↔
        (afl.insertWinner q i).topRated index = some id) := by
    intro index _ different
    simp [insertWinner, different]
  have absent : ¬afl.topRated i = some id := by
    rw [empty]
    exact fun equality => by cases equality
  by_cases same : id = q
  · rw [if_pos same]
    exact Counting.count_add inside other absent (by simp [insertWinner, same])
  · rw [if_neg same, Nat.add_zero]
    refine (Counting.count_keep other fun _ => iff_of_false absent ?_).symm
    simp only [insertWinner, Function.update_self]
    exact fun equality => same (Option.some.inj equality).symm

theorem RatedInvariant.releaseWinner (invariant : afl.RatedInvariant)
    (winner : afl.topRated i = some topRated) :
    ((afl.releaseWinner topRated).clearSlot i).RatedInvariant := by
  obtain ⟨inside, _⟩ := invariant.rated i topRated winner
  have counts : ∀ id, afl.ratedCount id =
      ((afl.releaseWinner topRated).clearSlot i).ratedCount id +
        if id = topRated then 1 else 0 :=
    ratedCount_clearSlot inside winner
  constructor
  · intro index id found
    by_cases same : index = i
    · simp [clearSlot, same] at found
    · apply invariant.rated index id
      simpa [clearSlot, same, QueueState.releaseWinner] using found
  · intro id
    have count := counts id
    have reference := invariant.tcRef id
    by_cases same : id = topRated
    · subst id
      rw [if_pos rfl] at count
      have entry : (((afl.releaseWinner topRated).clearSlot i).queueBuf
          topRated).tcRef = (afl.queueBuf topRated).tcRef - 1#32 := by
        simp [clearSlot, QueueState.releaseWinner]
      rw [entry, reference, count, BitVec.ofNat_add]
      exact BitVec.add_sub_cancel _ _
    · rw [if_neg same, Nat.add_zero] at count
      rw [← count, ← reference]
      simp [clearSlot, QueueState.releaseWinner, modify_queueBuf, same]
  · intro id
    have count := counts id
    have trace := invariant.traceMini id
    by_cases same : id = topRated
    · subst id
      rw [if_pos rfl] at count
      have bounded := afl.ratedCount_bounded topRated
      have last : (afl.queueBuf topRated).tcRef - 1#32 = 0#32 ↔
          ((afl.releaseWinner topRated).clearSlot i).ratedCount topRated =
            0 := by
        rw [invariant.tcRef topRated, count, BitVec.ofNat_add,
          show BitVec.ofNat 32 1 = 1#32 from rfl, BitVec.add_sub_cancel]
        constructor
        · intro zero
          have value := congrArg BitVec.toNat zero
          simp at value
          omega
        · intro zero
          rw [zero]
      have kept : (afl.queueBuf topRated).traceMini.isSome = true :=
        trace.mpr (by omega)
      have entry : (((afl.releaseWinner topRated).clearSlot i).queueBuf
          topRated).traceMini =
          if (afl.queueBuf topRated).tcRef - 1#32 = 0#32 then none
          else (afl.queueBuf topRated).traceMini := by
        simp [clearSlot, QueueState.releaseWinner]
      rw [entry]
      by_cases discarded : (afl.queueBuf topRated).tcRef - 1#32 = 0#32
      · rw [if_pos discarded, last.mp discarded]
        simp
      · rw [if_neg discarded]
        have remaining := mt last.mpr discarded
        exact iff_of_true kept (Nat.pos_of_ne_zero remaining)
    · rw [if_neg same, Nat.add_zero] at count
      rw [← count, ← trace]
      simp [clearSlot, QueueState.releaseWinner, modify_queueBuf, same]

theorem RatedInvariant.insertWinner (invariant : afl.RatedInvariant)
    (inside : i < afl.mapSize) (empty : afl.topRated i = none)
    (queued : q < afl.queuedPaths) : (afl.insertWinner q i).RatedInvariant := by
  have counts := ratedCount_insertWinner inside empty q
  constructor
  · intro index id found
    by_cases same : index = i
    · have isQ : q = id := by
        simpa [QueueState.insertWinner, same] using found
      subst index
      subst id
      exact ⟨inside, queued⟩
    · apply invariant.rated index id
      simpa [QueueState.insertWinner, same] using found
  · intro id
    have reference := invariant.tcRef id
    rw [counts]
    by_cases same : id = q
    · subst id
      have entry : ((afl.insertWinner q i).queueBuf q).tcRef =
          (afl.queueBuf q).tcRef + 1#32 := by
        simp [QueueState.insertWinner, modify]
      rw [entry, reference, if_pos rfl, BitVec.ofNat_add]
    · rw [if_neg same, Nat.add_zero, ← reference]
      simp [QueueState.insertWinner, modify, same]
  · intro id
    have trace := invariant.traceMini id
    rw [counts]
    by_cases same : id = q
    · subst id
      rw [if_pos rfl]
      refine iff_of_true ?_ (Nat.succ_pos _)
      have positive : afl.mapSize >>> 3 ≠ 0 := by
        have aligned := afl.aligned
        rw [Nat.shiftRight_eq_div_pow]
        omega
      simp only [QueueState.insertWinner, modify, Function.update_self,
        ckAlloc, if_neg positive]
      split <;> rfl
    · rw [if_neg same, Nat.add_zero, ← trace]
      simp [QueueState.insertWinner, modify, same]

/-- The invariant is about the table, the traces and their counts only. -/
theorem RatedInvariant.of_same {before after : QueueState}
    (invariant : before.RatedInvariant)
    (mapSize : after.mapSize = before.mapSize)
    (topRated : after.topRated = before.topRated)
    (queued : before.queuedPaths ≤ after.queuedPaths)
    (tcRef : ∀ id, (after.queueBuf id).tcRef = (before.queueBuf id).tcRef)
    (traceMini : ∀ id,
      (after.queueBuf id).traceMini = (before.queueBuf id).traceMini) :
    after.RatedInvariant := by
  have counts : ∀ id, after.ratedCount id = before.ratedCount id := by
    intro id
    unfold ratedCount
    rw [mapSize]
    exact Counting.count_congr fun index _ => by rw [topRated]
  constructor
  · intro i id found
    rw [topRated] at found
    obtain ⟨inside, wasQueued⟩ := invariant.rated i id found
    exact ⟨by rw [mapSize]; exact inside, Nat.lt_of_lt_of_le wasQueued queued⟩
  · intro id
    rw [tcRef, counts, invariant.tcRef]
  · intro id
    rw [traceMini, counts, invariant.traceMini]

theorem insertWinner_clearSlot (q i : Nat) :
    (afl.clearSlot i).insertWinner q i = afl.insertWinner q i := by
  simp [insertWinner, clearSlot, modify]

/-- What no index of the loop changes. -/
structure SameQueue (before after : QueueState) : Prop where
  mapSize : after.mapSize = before.mapSize
  queuedPaths : after.queuedPaths = before.queuedPaths
  activePaths : after.activePaths = before.activePaths
  pendingNotFuzzed : after.pendingNotFuzzed = before.pendingNotFuzzed
  queuedFavored : after.queuedFavored = before.queuedFavored
  pendingFavored : after.pendingFavored = before.pendingFavored
  entries : ∀ id, { after.queueBuf id with
      traceMini := (before.queueBuf id).traceMini
      tcRef := (before.queueBuf id).tcRef } = before.queueBuf id

theorem SameQueue.refl (afl : QueueState) : SameQueue afl afl := by
  constructor <;> simp

theorem SameQueue.trans {first second third : QueueState}
    (step : SameQueue first second) (rest : SameQueue second third) :
    SameQueue first third := by
  constructor
  · rw [rest.mapSize, step.mapSize]
  · rw [rest.queuedPaths, step.queuedPaths]
  · rw [rest.activePaths, step.activePaths]
  · rw [rest.pendingNotFuzzed, step.pendingNotFuzzed]
  · rw [rest.queuedFavored, step.queuedFavored]
  · rw [rest.pendingFavored, step.pendingFavored]
  · intro id
    rw [← step.entries id, ← rest.entries id]

theorem sameQueue_insertWinner (afl : QueueState) (q i : Nat) :
    SameQueue afl (afl.insertWinner q i) := by
  constructor <;> try rfl
  intro id
  by_cases same : id = q
  · subst id
    simp [insertWinner, modify]
  · simp [insertWinner, modify, same]

theorem sameQueue_releaseWinner (afl : QueueState) (topRated : Nat) :
    SameQueue afl (afl.releaseWinner topRated) := by
  constructor <;> try rfl
  intro id
  by_cases same : id = topRated
  · subst id
    simp [QueueState.releaseWinner, modify]
  · simp [QueueState.releaseWinner, modify, same]

theorem updateBitmapScoreRound_sameQueue (q : Nat)
    (fuzzP2 favFactor : BitVec 64) (i : Nat) (afl : QueueState) :
    SameQueue afl (updateBitmapScoreRound q fuzzP2 favFactor i afl) := by
  unfold updateBitmapScoreRound
  split
  · exact SameQueue.refl afl
  · split
    · exact sameQueue_insertWinner afl q i
    · rename_i topRated winner
      split
      · exact SameQueue.refl afl
      · exact (sameQueue_releaseWinner afl topRated).trans
          (sameQueue_insertWinner _ q i)

theorem updateBitmapScore_sameQueue (afl : QueueState) (q : Nat) :
    SameQueue afl (afl.updateBitmapScore q) := by
  refine forRange_invariant _ (fun _ current => SameQueue afl current) afl
    (SameQueue.refl afl) afl.mapSize ?_
  intro index _ current same
  exact same.trans (updateBitmapScoreRound_sameQueue _ _ _ _ _)

theorem updateBitmapScoreRound_invariant (fuzzP2 favFactor : BitVec 64)
    (invariant : afl.RatedInvariant) (inside : i < afl.mapSize)
    (queued : q < afl.queuedPaths) :
    (updateBitmapScoreRound q fuzzP2 favFactor i afl).RatedInvariant := by
  unfold updateBitmapScoreRound
  split
  · exact invariant
  · split
    · rename_i empty
      exact invariant.insertWinner inside empty queued
    · rename_i topRated winner
      split
      · exact invariant
      · have released := invariant.releaseWinner winner
        have inserted := released.insertWinner (q := q) (i := i) inside
          (by simp [clearSlot]) queued
        rw [insertWinner_clearSlot] at inserted
        exact inserted

theorem RatedInvariant.updateBitmapScore (invariant : afl.RatedInvariant)
    (queued : q < afl.queuedPaths) :
    (afl.updateBitmapScore q).RatedInvariant := by
  have loop := forRange_invariant
    (updateBitmapScoreRound q (afl.fuzzP2 (afl.queueBuf q))
      (afl.favFactor (afl.queueBuf q)))
    (fun _ current => current.RatedInvariant ∧ SameQueue afl current) afl
    ⟨invariant, SameQueue.refl afl⟩ afl.mapSize
    (by
      rintro index inside current ⟨currentInvariant, same⟩
      refine ⟨updateBitmapScoreRound_invariant _ _ currentInvariant ?_ ?_,
        same.trans (updateBitmapScoreRound_sameQueue _ _ _ _ _)⟩
      · rw [same.mapSize]
        exact inside
      · rw [same.queuedPaths]
        exact queued)
  exact loop.1

end QueueState

end AFLPlusPlus
