import AFLPlusPlus.Cache.Calls

/-!
# Eviction from the test case cache

The loop of `queue_testcase_get` draws slots until it finds an entry that is not
being fuzzed, and evicts entries until the new one fits.  There has to be such
an entry whenever the loop is entered.
-/

namespace AFLPlusPlus

variable {oldCached tid : Nat}

namespace TestcaseCache

variable {fits : Prop} {afl before after : TestcaseCache} {len : BitVec 32}

/-- A slot below `max_cache_count` holds an entry that may be evicted. -/
def HasVictim (afl : TestcaseCache) : Prop :=
  ∃ tid < afl.maxCacheCount.toNat, ∃ id, afl.cache tid = some id ∧
    afl.queueCur ≠ some id

/-- One round of the loop, with any random numbers. -/
def EvictionRound (len : BitVec 32) (before after : TestcaseCache) : Prop :=
  before.full len = true ∧ ∃ learned random tid oldCached rest,
    before.learnEntries len = .ok learned ∧
    learned.randomVictim random = .ok (tid, oldCached, rest) ∧
    after = learned.evict tid oldCached

def EvictionRounds (len : BitVec 32) : Nat → TestcaseCache → TestcaseCache → Prop
  | 0, before, after => before = after
  | rounds + 1, before, after => ∃ next, EvictionRound len before next ∧
      EvictionRounds len rounds next after

/-- Every remainder is drawn again and again. -/
def FairDraws (draws : Nat → Nat) : Prop :=
  ∀ limit value start, value < limit →
    ∃ position, start ≤ position ∧ draws position % limit = value

def drawn (draws : Nat → Nat) (start count : Nat) : List Nat :=
  (List.range' start count).map draws

/-- The eviction loop finds a victim in every round, makes no more rounds than
there are entries in the cache, and ends with room for `len` bytes. -/
structure Evicts (len : BitVec 32) (afl : TestcaseCache) : Prop where
  victim : ∀ rounds reached, EvictionRounds len rounds afl reached →
    reached.full len = true → reached.HasVictim
  bounded : ∀ rounds reached, EvictionRounds len rounds afl reached →
    rounds ≤ afl.cacheCount.toNat
  ends : ∀ draws, FairDraws draws → ∀ start tid, ∃ enough,
    ∀ count, enough ≤ count →
      Yields (fun failure => failure ≠ .endless)
        (fun room => room.2.full len = false)
        (makeRoom len (count + 1) (drawn draws start count) tid afl)

def OnlyCurrent (afl : TestcaseCache) : Prop :=
  ∀ tid id, afl.cache tid = some id → afl.queueCur = some id

/-- What is needed beside the entry that is being fuzzed, as long as it is
cached. -/
structure RoomBeside (len : BitVec 32) (afl : TestcaseCache) : Prop where
  entries : afl.maxCacheEntries ≠ 1#32
  alone : len.toNat < afl.maxCacheSize.toNat
  pinned : ∀ tid cur, afl.cache tid = some cur → afl.queueCur = some cur →
    afl.maxCacheEntries ≠ 2#32 ∧
      (afl.entries cur).len.toNat + len.toNat < afl.maxCacheSize.toNat

theorem OnlyCurrent.occupied_le (only : afl.OnlyCurrent)
    (invariant : CacheInvariant fits afl) : afl.occupied ≤ 1 := by
  unfold occupied
  rw [Nat.count_eq_card_filter_range]
  refine Finset.card_le_one.mpr fun one member other also => ?_
  obtain ⟨first, isFirst⟩ :=
    Option.isSome_iff_exists.mp (Finset.mem_filter.mp member).2
  obtain ⟨second, isSecond⟩ :=
    Option.isSome_iff_exists.mp (Finset.mem_filter.mp also).2
  have same : first = second := Option.some.inj
    ((only one first isFirst).symm.trans (only other second isSecond))
  rw [← same] at isSecond
  exact invariant.unique one other first isFirst isSecond

theorem OnlyCurrent.cachedLength_cases (only : afl.OnlyCurrent)
    (invariant : CacheInvariant fits afl) :
    afl.cachedLength = 0 ∧ afl.occupied = 0 ∨
      ∃ tid cur, afl.cache tid = some cur ∧ afl.queueCur = some cur ∧
        afl.cachedLength = (afl.entries cur).len.toNat := by
  have uncached : ∀ id < afl.queuedPaths, afl.queueCur ≠ some id →
      cachedLen (afl.entries id) = 0 := by
    intro id queued other
    unfold cachedLen
    rw [if_neg]
    intro cached
    obtain ⟨tid, found⟩ := invariant.slot id queued cached
    exact other (only tid id found)
  by_cases some : ∃ tid id, afl.cache tid = Option.some id
  · obtain ⟨tid, cur, found⟩ := some
    obtain ⟨_, queued, cached⟩ := invariant.inside tid cur found
    have current := only tid cur found
    refine .inr ⟨tid, cur, found, current, ?_⟩
    unfold cachedLength
    rw [Finset.sum_eq_single cur]
    · exact if_pos cached
    · intro id inside other
      refine uncached id (Finset.mem_range.mp inside) fun isCurrent => ?_
      exact other (Option.some.inj (isCurrent.symm.trans current))
    · exact fun outside => absurd (Finset.mem_range.mpr queued) outside
  · have none : ∀ tid id, afl.cache tid ≠ Option.some id :=
      fun tid id found => some ⟨tid, id, found⟩
    refine .inl ⟨?_, ?_⟩
    · refine Finset.sum_eq_zero fun id inside => ?_
      unfold cachedLen
      rw [if_neg]
      intro cached
      obtain ⟨tid, found⟩ := invariant.slot id (Finset.mem_range.mp inside) cached
      exact none tid id found
    · unfold occupied
      rw [Nat.count_iff_forall_not]
      intro tid _ used
      obtain ⟨id, found⟩ := Option.isSome_iff_exists.mp used
      exact none tid id found

theorem sizeReached_iff (invariant : CacheInvariant fits afl)
    (small : afl.cachedLength < 2 ^ 32) :
    afl.sizeReached len = true ↔
      afl.maxCacheSize.toNat ≤ afl.cachedLength + len.toNat := by
  have limit := len.isLt
  unfold sizeReached
  rw [decide_eq_true_iff, BitVec.le_def, BitVec.toNat_add,
    invariant.cacheSize_toNat, BitVec.toNat_setWidth,
    Nat.mod_eq_of_lt (Nat.lt_of_lt_of_le limit (by decide)),
    Nat.mod_eq_of_lt (by omega)]

section

variable (only : afl.OnlyCurrent) (invariant : CacheInvariant fits afl)
    (room : RoomBeside len afl)
include only invariant room

theorem OnlyCurrent.not_sizeReached : ¬afl.sizeReached len = true := by
  rcases only.cachedLength_cases invariant with
    ⟨none, _⟩ | ⟨tid, cur, found, current, length⟩
  · rw [sizeReached_iff invariant (by omega), none]
    have alone := room.alone
    omega
  · have limit := (afl.entries cur).len.isLt
    rw [sizeReached_iff invariant (by omega), length]
    have pinned := (room.pinned tid cur found current).2
    omega

theorem OnlyCurrent.not_full : afl.full len = false := by
  have size := only.not_sizeReached invariant room
  have count := invariant.cacheCount_toNat
  have few := only.occupied_le invariant
  have learned := invariant.occupied_le.trans invariant.learned
  have limit := afl.maxCacheEntries.isLt
  have notOne : afl.maxCacheEntries.toNat ≠ 1 := fun one =>
    room.entries (BitVec.eq_of_toNat_eq one)
  have minus : (afl.maxCacheEntries - 1#32).toNat =
      (2 ^ 32 - 1 + afl.maxCacheEntries.toNat) % 2 ^ 32 := by
    rw [BitVec.toNat_sub]
    rfl
  have notCount : ¬afl.maxCacheEntries - 1#32 ≤ afl.cacheCount := by
    rw [BitVec.le_def, minus, count]
    rcases only.cachedLength_cases invariant with
      ⟨_, none⟩ | ⟨tid, cur, found, current, _⟩
    · omega
    · have notTwo : afl.maxCacheEntries.toNat ≠ 2 := fun two =>
        (room.pinned tid cur found current).1 (BitVec.eq_of_toNat_eq two)
      omega
  rw [full, Bool.eq_false_iff.mpr size, decide_eq_false notCount]
  rfl

end

theorem RoomBeside.hasVictim (room : RoomBeside len afl)
    (invariant : CacheInvariant fits afl) (full : afl.full len = true) :
    afl.HasVictim := by
  by_contra none
  have only : afl.OnlyCurrent := by
    intro tid id found
    by_contra other
    exact none ⟨tid, (invariant.inside tid id found).1, id, found, other⟩
  exact absurd ((only.not_full invariant room).symm.trans full)
    Bool.false_ne_true

/-- What the size of the cache and the lengths of the entries are. -/
structure SameLengths (before after : TestcaseCache) : Prop where
  maxCacheSize : after.maxCacheSize = before.maxCacheSize
  len : ∀ id, (after.entries id).len = (before.entries id).len

theorem SameLengths.refl (afl : TestcaseCache) : SameLengths afl afl :=
  ⟨rfl, fun _ => rfl⟩

theorem SameLengths.trans {middle : TestcaseCache}
    (first : SameLengths before middle) (second : SameLengths middle after) :
    SameLengths before after :=
  ⟨second.maxCacheSize.trans first.maxCacheSize, fun id =>
    (second.len id).trans (first.len id)⟩

theorem sameLengths_modify (afl : TestcaseCache) (q : Nat)
    (testcaseBuf : Option Buffer) :
    SameLengths afl (afl.modify q fun entry =>
      { entry with testcaseBuf := testcaseBuf }) := by
  refine ⟨rfl, fun id => ?_⟩
  by_cases same : id = q
  · subst same
    rw [modify_entries_self]
  · rw [modify_entries_of_ne _ _ _ same]

theorem sameLengths_evict (afl : TestcaseCache) (tid oldCached : Nat) :
    SameLengths afl (afl.evict tid oldCached) :=
  ⟨rfl, (sameLengths_modify afl oldCached none).len⟩

/-- What is learned leaves all but the limits alone. -/
theorem learnEntries_rest {learned : TestcaseCache}
    (learns : afl.learnEntries len = .ok learned) :
    SameEntries afl learned ∧ SameLengths afl learned ∧
      learned.cacheCount = afl.cacheCount ∧
      learned.maxCacheCount = afl.maxCacheCount ∧
      (∀ tid id, learned.cache tid = some id → afl.cache tid = some id) ∧
      (∀ tid < learned.slots, learned.cache tid = afl.cache tid) ∧
      (learned.maxCacheEntries = afl.maxCacheEntries ∨ afl.sizeReached len = true ∧
        afl.maxCacheCount < afl.maxCacheEntries ∧
        learned.maxCacheEntries = afl.learnedEntries) := by
  unfold learnEntries at learns
  split at learns
  · rename_i allowed
    split at learns
    · cases learns
    · cases learns
      refine ⟨⟨rfl, rfl, rfl⟩, ⟨rfl, fun _ => rfl⟩, rfl, rfl, ?_,
        fun tid inside => if_pos inside,
        .inr ⟨allowed.1, allowed.2.1.2, rfl⟩⟩
      intro tid id found
      change (if tid < afl.learnedSlots then afl.cache tid else none) = _
        at found
      split at found
      · exact found
      · cases found
  · cases learns
    exact ⟨⟨rfl, rfl, rfl⟩, .refl afl, rfl, rfl, fun _ _ found => found,
      fun _ _ => rfl, .inl rfl⟩

theorem RoomBeside.learnEntries (room : RoomBeside len afl)
    (invariant : CacheInvariant fits afl) {learned : TestcaseCache}
    (learns : afl.learnEntries len = .ok learned) :
    RoomBeside len learned := by
  obtain ⟨same, lengths, _, _, slots, _, limit⟩ := learnEntries_rest learns
  have alone : len.toNat < learned.maxCacheSize.toNat := by
    rw [lengths.maxCacheSize]
    exact room.alone
  have pinned : ∀ tid cur, learned.cache tid = some cur →
      learned.queueCur = some cur → afl.cache tid = some cur ∧
        afl.queueCur = some cur ∧ afl.maxCacheEntries ≠ 2#32 ∧
        (learned.entries cur).len.toNat + len.toNat < learned.maxCacheSize.toNat := by
    intro tid cur found current
    rw [same.queueCur] at current
    rw [same.entries, lengths.maxCacheSize]
    have found := slots tid cur found
    exact ⟨found, current, room.pinned tid cur found current⟩
  rcases limit with old | ⟨reached, below, new⟩
  · refine ⟨old ▸ room.entries, alone, fun tid cur found current => ?_⟩
    rw [old]
    exact (pinned tid cur found current).2.2
  · have number := invariant.learnedEntries_toNat below
    rw [← new] at number
    -- The size is not reached where there is nothing but the current entry.
    have others : ¬afl.OnlyCurrent := fun only =>
      only.not_sizeReached invariant room reached
    refine ⟨fun one => ?_, alone, fun tid cur found current => ?_⟩
    · rw [one] at number
      refine others fun tid id found => ?_
      have inside := (invariant.inside tid id found).1
      change 1 = _ at number
      omega
    · obtain ⟨found, current, _, fitting⟩ := pinned tid cur found current
      refine ⟨fun two => ?_, fitting⟩
      rw [two] at number
      refine others fun other id alsoFound => ?_
      have first := (invariant.inside tid cur found).1
      have second := (invariant.inside other id alsoFound).1
      change 2 = _ at number
      have same : other = tid := by omega
      rw [same, found] at alsoFound
      rw [current, alsoFound]

theorem RoomBeside.evict (room : RoomBeside len afl) :
    RoomBeside len (afl.evict tid oldCached) := by
  have lengths := sameLengths_evict afl tid oldCached
  refine ⟨room.entries, room.alone, fun slot cur found current => ?_⟩
  rw [lengths.len, lengths.maxCacheSize]
  refine room.pinned slot cur ?_ current
  by_cases same : slot = tid
  · simp [TestcaseCache.evict, same] at found
  · simpa [TestcaseCache.evict, same] using found

/-- What holds in every round. -/
structure Evicting (fits : Prop) (len : BitVec 32) (afl : TestcaseCache) : Prop where
  invariant : CacheInvariant fits afl
  room : RoomBeside len afl

theorem learnEntries_invariant (invariant : CacheInvariant fits afl)
    {learned : TestcaseCache} (learns : afl.learnEntries len = .ok learned) :
    CacheInvariant fits learned := by
  have yields := invariant.learnEntries len
  rw [learns] at yields
  exact yields.1

theorem Evicting.learned (evicting : Evicting fits len afl)
    {learned : TestcaseCache} (learns : afl.learnEntries len = .ok learned) :
    Evicting fits len learned :=
  ⟨learnEntries_invariant evicting.invariant learns,
    evicting.room.learnEntries evicting.invariant learns⟩

theorem Evicting.evict (evicting : Evicting fits len afl)
    (found : afl.cache tid = some oldCached) :
    Evicting fits len (afl.evict tid oldCached) :=
  ⟨evicting.invariant.evict found, evicting.room.evict⟩

theorem evict_cacheCount (invariant : CacheInvariant fits afl)
    (found : afl.cache tid = some oldCached) :
    (afl.evict tid oldCached).cacheCount.toNat + 1 = afl.cacheCount.toNat := by
  have inside := (invariant.inside tid oldCached found).1
  have some : 0 < afl.occupied := by
    have used : (afl.cache tid).isSome = true := by
      rw [found]
      rfl
    exact Nat.lt_of_le_of_lt (Nat.zero_le _)
      (Nat.count_strict_mono used (inside.trans_le invariant.learned))
  rw [← invariant.cacheCount_toNat] at some
  have limit := afl.cacheCount.isLt
  change (afl.cacheCount - 1#32).toNat + 1 = _
  rw [BitVec.toNat_sub]
  change (2 ^ 32 - 1 + afl.cacheCount.toNat) % 2 ^ 32 + 1 = _
  omega

variable {op : CacheOp} {random : List Nat} {draws : Nat → Nat}

theorem randomVictim_found {rest : List Nat}
    (draws : afl.randomVictim random = .ok (tid, oldCached, rest)) :
    afl.cache tid = some oldCached ∧ afl.queueCur ≠ some oldCached := by
  induction random with
  | nil => cases draws
  | cons first random induction =>
      unfold randomVictim at draws
      dsimp only at draws
      split at draws
      · split at draws
        · exact induction draws
        · rename_i old found
          split at draws
          · exact induction draws
          · rename_i unused
            cases draws
            exact ⟨found, unused⟩
      · cases draws

theorem Evicting.round (evicting : Evicting fits len before)
    (round : EvictionRound len before after) :
    Evicting fits len after ∧
      after.cacheCount.toNat + 1 = before.cacheCount.toNat := by
  obtain ⟨_, learned, random, tid, oldCached, rest, learns, draws, rfl⟩ := round
  have found := (randomVictim_found draws).1
  have next := evicting.learned learns
  refine ⟨next.evict found, ?_⟩
  rw [evict_cacheCount next.invariant found, (learnEntries_rest learns).2.2.1]

theorem Evicting.rounds (evicting : Evicting fits len before) {rounds : Nat}
    (reaches : EvictionRounds len rounds before after) :
    Evicting fits len after ∧
      after.cacheCount.toNat + rounds = before.cacheCount.toNat := by
  induction rounds generalizing before with
  | zero =>
      cases reaches
      exact ⟨evicting, rfl⟩
  | succ rounds induction =>
      obtain ⟨next, first, rest⟩ := reaches
      obtain ⟨holds, less⟩ := evicting.round first
      obtain ⟨last, count⟩ := induction holds rest
      exact ⟨last, by omega⟩

theorem drawn_succ (draws : Nat → Nat) (start count : Nat) :
    drawn draws start (count + 1) = draws start :: drawn draws (start + 1) count := rfl

/-- A victim is found after some draws, however many more there are. -/
theorem randomVictim_fair (invariant : CacheInvariant fits afl) (some : afl.HasVictim)
    (fair : FairDraws draws) (start : Nat) :
    ∃ used tid oldCached, 0 < used ∧ ∀ count, used ≤ count →
      afl.randomVictim (drawn draws start count) =
        .ok (tid, oldCached, drawn draws (start + used) (count - used)) := by
  obtain ⟨slot, inside, victim, holds, unused⟩ := some
  obtain ⟨position, later, hits⟩ := fair _ slot start inside
  have below : ∀ value, randBelow afl.maxCacheCount value =
      value % afl.maxCacheCount.toNat := by
    intro value
    unfold randBelow
    split
    · rename_i one
      rw [BitVec.le_def] at one
      change _ ≤ 1 at one
      have isOne : afl.maxCacheCount.toNat = 1 := by omega
      rw [isOne, Nat.mod_one]
    · rfl
  obtain ⟨distance, isPosition⟩ := Nat.exists_eq_add_of_le later
  clear later
  induction distance generalizing start with
  | zero =>
      rw [Nat.add_zero] at isPosition
      subst isPosition
      refine ⟨1, slot, victim, Nat.one_pos, fun count enough => ?_⟩
      obtain ⟨rest, isCount⟩ := Nat.exists_eq_add_of_le' enough
      rw [isCount, drawn_succ, randomVictim, below, hits,
        if_pos (inside.trans_le invariant.written), holds]
      dsimp only
      rw [if_neg unused, Nat.add_sub_cancel]
  | succ distance induction =>
      obtain ⟨used, tid, oldCached, positive, finds⟩ :=
        induction (start + 1) (by omega)
      -- The first draw may find a victim itself.
      have first : draws start % afl.maxCacheCount.toNat < afl.slots :=
        (Nat.mod_lt _ (Nat.lt_of_le_of_lt (Nat.zero_le _) inside)).trans_le
          invariant.written
      have skips : (∀ id, afl.cache (draws start % afl.maxCacheCount.toNat) =
          Option.some id → afl.queueCur = Option.some id) →
          ∃ used tid oldCached, 0 < used ∧ ∀ count, used ≤ count →
            afl.randomVictim (drawn draws start count) =
              .ok (tid, oldCached, drawn draws (start + used) (count - used)) := by
        intro useless
        refine ⟨used + 1, tid, oldCached, Nat.succ_pos used, fun count enough => ?_⟩
        obtain ⟨rest, isCount⟩ := Nat.exists_eq_add_of_le' enough
        have step : afl.randomVictim (drawn draws start (rest + used + 1)) =
            afl.randomVictim (drawn draws (start + 1) (rest + used)) := by
          rw [drawn_succ, randomVictim]
          rw [below, if_pos first]
          split
          · rfl
          · rename_i id found
            rw [if_pos (useless id found)]
        rw [isCount, ← Nat.add_assoc, step, finds _ (Nat.le_add_left _ _)]
        congr 4 <;> omega
      cases found : afl.cache (draws start % afl.maxCacheCount.toNat) with
      | none =>
          refine skips fun id isSome => ?_
          rw [found] at isSome
          cases isSome
      | some id =>
          by_cases current : afl.queueCur = Option.some id
          · refine skips fun other isSome => ?_
            rw [found] at isSome
            rw [current, isSome]
          · refine ⟨1, draws start % afl.maxCacheCount.toNat, id,
              Nat.one_pos, fun count enough => ?_⟩
            obtain ⟨rest, isCount⟩ := Nat.exists_eq_add_of_le' enough
            rw [isCount, drawn_succ, randomVictim, below, if_pos first, found]
            dsimp only
            rw [if_neg current, Nat.add_sub_cancel]

theorem HasVictim.learned (some : afl.HasVictim)
    (invariant : CacheInvariant fits afl) {learned : TestcaseCache}
    (learns : afl.learnEntries len = .ok learned) : learned.HasVictim := by
  obtain ⟨same, _, _, maxCount, _, slots, _⟩ := learnEntries_rest learns
  have written := (learnEntries_invariant invariant learns).written
  obtain ⟨tid, inside, id, found, unused⟩ := some
  refine ⟨tid, by rwa [maxCount], id, ?_, by rwa [same.queueCur]⟩
  rw [← maxCount] at inside
  rw [slots tid (inside.trans_le written)]
  exact found

theorem Evicting.ends (evicting : Evicting fits len afl) (fair : FairDraws draws)
    (start tid : Nat) :
    ∃ enough, ∀ count, enough ≤ count → ∀ fuel, count < fuel →
      Yields (fun failure => failure ≠ .endless)
        (fun room => room.2.full len = false)
        (makeRoom len fuel (drawn draws start count) tid afl) := by
  induction isCount : afl.cacheCount.toNat generalizing afl start tid with
  | zero =>
      refine ⟨0, fun count _ fuel more => ?_⟩
      obtain ⟨fuel, rfl⟩ := Nat.exists_eq_succ_of_ne_zero
        (Nat.ne_of_gt (Nat.lt_of_le_of_lt (Nat.zero_le count) more))
      have fitting : afl.full len = false := by
        rw [Bool.eq_false_iff]
        intro full
        obtain ⟨slot, _, id, found, _⟩ :=
          evicting.room.hasVictim evicting.invariant full
        have fewer := evict_cacheCount evicting.invariant found
        omega
      rw [makeRoom, fitting, if_neg Bool.false_ne_true]
      exact fitting
  | succ left induction =>
      by_cases full : afl.full len = true
      · cases learns : afl.learnEntries len with
        | error failure =>
            have fails := evicting.invariant.learnEntries len
            rw [learns] at fails
            refine ⟨0, fun count _ fuel more => ?_⟩
            obtain ⟨fuel, rfl⟩ := Nat.exists_eq_succ_of_ne_zero
              (Nat.ne_of_gt (Nat.lt_of_le_of_lt (Nat.zero_le count) more))
            rw [makeRoom, if_pos full, learns]
            intro endless
            cases fails.symm.trans endless
        | ok learned =>
            have next := evicting.learned learns
            have some := (evicting.room.hasVictim evicting.invariant
              full).learned evicting.invariant learns
            obtain ⟨used, slot, oldCached, positive, finds⟩ :=
              randomVictim_fair next.invariant some fair start
            have found := (randomVictim_found (finds used (Nat.le_refl used))).1
            have fewer := evict_cacheCount next.invariant found
            rw [(learnEntries_rest learns).2.2.1, isCount] at fewer
            obtain ⟨enough, rest⟩ := induction (next.evict found)
              (start + used) slot (Nat.succ.inj fewer)
            refine ⟨used + enough, fun count all fuel more => ?_⟩
            obtain ⟨fuel, rfl⟩ := Nat.exists_eq_succ_of_ne_zero
              (Nat.ne_of_gt (Nat.lt_of_le_of_lt (Nat.zero_le count) more))
            rw [makeRoom, if_pos full, learns]
            have draws := finds count (by omega)
            change Yields _ _ (learned.randomVictim _ >>= _)
            rw [draws]
            exact rest (count - used) (by omega) fuel (by omega)
      · refine ⟨0, fun count _ fuel more => ?_⟩
        obtain ⟨fuel, rfl⟩ := Nat.exists_eq_succ_of_ne_zero
          (Nat.ne_of_gt (Nat.lt_of_le_of_lt (Nat.zero_le count) more))
        rw [makeRoom, if_neg full]
        exact Bool.eq_false_iff.mpr full

theorem Evicting.evicts (evicting : Evicting fits len afl) : Evicts len afl where
  victim := by
    intro rounds reached reaches full
    have holds := (evicting.rounds reaches).1
    exact holds.room.hasVictim holds.invariant full
  bounded := by
    intro rounds reached reaches
    have count := (evicting.rounds reaches).2
    omega
  ends := by
    intro draws fair start tid
    obtain ⟨enough, all⟩ := evicting.ends fair start tid
    exact ⟨enough, fun count more =>
      all count more (count + 1) (Nat.lt_succ_self count)⟩

theorem makeRoom_lengths {fuel : Nat} {room : Nat × TestcaseCache}
    (makes : makeRoom len fuel random tid afl = .ok room) :
    SameLengths afl room.2 := by
  induction fuel generalizing random tid afl with
  | zero => cases makes
  | succ fuel induction =>
      unfold makeRoom at makes
      split at makes
      · cases learns : afl.learnEntries len with
        | error failure =>
            rw [learns] at makes
            cases makes
        | ok learned =>
            rw [learns] at makes
            cases draws : learned.randomVictim random with
            | error failure =>
                change learned.randomVictim random >>= _ = _ at makes
                rw [draws] at makes
                cases makes
            | ok victim =>
                change learned.randomVictim random >>= _ = _ at makes
                rw [draws] at makes
                exact ((learnEntries_rest learns).2.1.trans
                  (sameLengths_evict learned _ _)).trans (induction makes)
      · cases makes
        exact .refl afl

theorem sameLengths_register (afl : TestcaseCache) (q tid : Nat)
    (buf : Buffer) : SameLengths afl (afl.register q tid buf) :=
  ⟨rfl, (sameLengths_modify afl q (some buf)).len⟩

theorem queueTestcaseGet_lengths (afl : TestcaseCache) (q : Nat)
    (environment : CacheEnvironment) :
    Yields (fun _ => True) (fun result => SameLengths afl result.2)
      (afl.queueTestcaseGet q environment) := by
  unfold queueTestcaseGet
  split
  · split
    · exact .refl afl
    · trivial
  · split
    · exact .refl afl
    · cases makes : makeRoom (afl.entries q).len
          (environment.random.length + 1) environment.random
          afl.maxCacheCount.toNat afl with
      | error failure => trivial
      | ok room =>
          have kept := makeRoom_lengths makes
          change Yields _ _ (room.2.findFree _ _ >>= _)
          cases room.2.findFree (room.2.slots + 1) _ with
          | error failure => trivial
          | ok found =>
              change Yields _ _ (ite _ _ _)
              split
              · exact kept.trans (sameLengths_register room.2 q found _)
              · trivial

theorem queueTestcaseStoreMem_lengths (afl : TestcaseCache) (q : Nat)
    (mem : Buffer) (environment : CacheEnvironment) :
    Yields (fun _ => True) (SameLengths afl)
      (afl.queueTestcaseStoreMem q mem environment) := by
  unfold queueTestcaseStoreMem
  split
  · exact .refl afl
  · cases afl.findFree (afl.slots + 1) _ with
    | error failure => trivial
    | ok found =>
        change Yields _ _ (ite _ _ _)
        split
        · exact sameLengths_register afl q found mem
        · trivial

/-- No entry is longer than `MAX_FILE`. -/
structure Bounded (limits : CacheLimits) (afl : TestcaseCache) : Prop where
  maxCacheSize : afl.maxCacheSize = limits.maxCacheSize
  len : ∀ id, (afl.entries id).len.toNat ≤ maxFile

variable {limits : CacheLimits}

theorem Bounded.same (bounded : Bounded limits before)
    (same : SameLengths before after) : Bounded limits after :=
  ⟨same.maxCacheSize.trans bounded.maxCacheSize, fun id =>
    (same.len id).symm ▸ bounded.len id⟩

theorem Bounded.trimmed (bounded : Bounded limits afl) (q : Nat)
    (small : len.toNat ≤ maxFile) (file : Buffer) :
    Bounded limits (afl.trimmed q len file) := by
  refine ⟨bounded.maxCacheSize, fun id => ?_⟩
  unfold TestcaseCache.trimmed
  by_cases same : id = q
  · subst same
    rw [modify_entries_self]
    exact small
  · rw [modify_entries_of_ne _ _ _ same]
    exact bounded.len id

theorem sameLengths_replaceBuffer (afl : TestcaseCache) (q : Nat)
    (testcaseBuf : Buffer) (cacheSize : BitVec 64) :
    SameLengths afl (afl.replaceBuffer q testcaseBuf cacheSize) :=
  ⟨rfl, (sameLengths_modify afl q (some testcaseBuf)).len⟩

/-- When an entry has to be loaded, there is room for it beside the entry that
is being fuzzed, in bytes and in entries. -/
structure LeavesRoom (afl : TestcaseCache) (q : Nat) : Prop where
  entries : afl.maxCacheEntries ≠ 1#32
  beside : ∀ cur < afl.queuedPaths, afl.queueCur = some cur →
    (afl.entries cur).testcaseBuf.isSome = true →
    afl.maxCacheEntries ≠ 2#32 ∧
      (afl.entries cur).len.toNat + (afl.entries q).len.toNat < afl.maxCacheSize.toNat

/-- The entry is not in memory, and the cache is used. -/
def HasToLoad (afl : TestcaseCache) (q : Nat) : Prop :=
  q < afl.queuedPaths ∧ afl.maxCacheSize ≠ 0#64 ∧ (afl.entries q).testcaseBuf = none

/-- What is asked of an operation: test cases of at most `MAX_FILE` bytes, what
the bookkeeping needs, and room where an entry has to be loaded. -/
def Leaves (afl : TestcaseCache) (op : CacheOp) : Prop :=
  afl.StepMeets op ∧
    match op with
    | .addToQueue len _ => len.toNat ≤ maxFile
    | .retake _ len _ _ => len.toNat ≤ maxFile
    | .retakeMem _ len _ _ _ => len.toNat ≤ maxFile
    | .get q _ => afl.HasToLoad q → afl.LeavesRoom q
    | _ => True

/-- Every operation of a run leaves room. -/
def LeavesAll (afl : TestcaseCache) : List CacheOp → Prop
  | [] => True
  | op :: ops => afl.Leaves op ∧ ∀ next, afl.step op = .ok next → next.LeavesAll ops

theorem Bounded.step (bounded : Bounded limits afl) (leaves : afl.Leaves op) :
    Yields (fun _ => True) (Bounded limits) (afl.step op) := by
  cases op with
  | addToQueue len file =>
      refine ⟨bounded.maxCacheSize, fun id => ?_⟩
      by_cases new : id = afl.queuedPaths
      · simp only [addToQueue, new, Function.update_self]
        exact leaves.2
      · simp only [addToQueue, Function.update_of_ne new]
        exact bounded.len id
  | fuzz queueCur => exact ⟨bounded.maxCacheSize, bounded.len⟩
  | get q environment =>
      refine yields_onEntry bounded fun _ => yields_snd ?_
      exact (afl.queueTestcaseGet_lengths q environment).mono
        fun _ same => bounded.same same
  | storeMem q mem environment =>
      refine yields_onEntry bounded fun _ => ?_
      exact (afl.queueTestcaseStoreMem_lengths q mem environment).mono
        fun _ same => bounded.same same
  | retake q len file environment =>
      refine yields_onEntry bounded fun _ => ?_
      have shorter := bounded.trimmed q leaves.2 file
      unfold queueTestcaseRetake
      split
      · exact shorter
      · dsimp only
        split
        · exact shorter.same (sameLengths_replaceBuffer _ q _ _)
        · trivial
  | retakeMem q len file input environment =>
      refine yields_onEntry bounded fun _ => ?_
      have shorter := bounded.trimmed q leaves.2 file
      change Bounded limits _
      unfold queueTestcaseRetakeMem
      split
      · exact shorter
      · exact shorter.same (sameLengths_replaceBuffer _ q _ _)

theorem run_bounded (invariant : CacheInvariant fits afl) (bounded : Bounded limits afl)
    {ops : List CacheOp} (leaves : afl.LeavesAll (ops ++ [op]))
    (runs : afl.run ops = .ok after) :
    CacheInvariant fits after ∧ Bounded limits after ∧ after.Leaves op := by
  induction ops generalizing afl with
  | nil =>
      cases runs
      exact ⟨invariant, bounded, leaves.1⟩
  | cons first ops induction =>
      obtain ⟨here, later⟩ := leaves
      have holds := invariant.step first here.1
      have bounds := bounded.step here
      unfold TestcaseCache.run at runs
      cases steps : afl.step first with
      | error failure =>
          rw [steps] at runs
          cases runs
      | ok next =>
          rw [steps] at runs holds bounds
          exact induction holds bounds (later next steps) runs

/-- In a run whose operations all leave room, each call that has to load an
entry evicts until it fits. -/
theorem run_evicts (limits : CacheLimits) {ops : List CacheOp} {q : Nat}
    {environment : CacheEnvironment}
    (leaves : limits.start.LeavesAll (ops ++ [.get q environment]))
    {reached : TestcaseCache} (runs : limits.start.run ops = .ok reached)
    (loads : reached.HasToLoad q) :
    Evicts (reached.entries q).len reached := by
  have start : Bounded limits limits.start := ⟨rfl, fun _ => Nat.zero_le maxFile⟩
  obtain ⟨invariant, bounded, here⟩ :=
    run_bounded (start_invariant limits) start leaves runs
  have room := here.2 loads
  refine Evicting.evicts ⟨invariant, room.entries, ?_, ?_⟩
  · have size : 2 * maxFile ≤ reached.maxCacheSize.toNat := by
      rw [bounded.maxCacheSize]
      exact limits.enough.resolve_left (bounded.maxCacheSize ▸ loads.2.1)
    have small := bounded.len q
    have some : 0 < maxFile := by decide
    omega
  · intro tid cur found current
    obtain ⟨_, queued, cached⟩ := invariant.inside tid cur found
    exact room.beside cur queued current cached

theorem threeSlots_enough :
    52428800#64 = 0#64 ∨ 2 * maxFile ≤ (52428800#64).toNat := .inr (by decide)

theorem threeSlots_allocated : pointerBytes 3#32 ≤ maxAlloc := by decide

/-- Two entries, with room for three. -/
def threeSlots : CacheLimits :=
  { maxCacheSize := 52428800#64
    maxCacheEntries := 3#32
    enough := threeSlots_enough
    allocated := threeSlots_allocated }

def loadTwo : List CacheOp :=
  [.addToQueue 5#32 fun _ => 1#8, .addToQueue 3#32 fun _ => 2#8,
    .get 0 ⟨[], true, true⟩, .fuzz (some 0)]

theorem run_evicts_beside :
    ∃ reached, threeSlots.start.run loadTwo = .ok reached ∧
      Evicts (reached.entries 1).len reached := by
  have leaves : threeSlots.start.LeavesAll
      (loadTwo ++ [.get 1 ⟨[], true, true⟩]) := by
    refine ⟨⟨trivial, by decide⟩, fun _ added => ?_⟩
    cases added
    refine ⟨⟨trivial, by decide⟩, fun _ added => ?_⟩
    cases added
    refine ⟨⟨trivial, fun _ => ⟨by decide, fun cur _ current => ?_⟩⟩,
      fun _ loaded => ?_⟩
    · cases current
    cases loaded
    refine ⟨⟨trivial, trivial⟩, fun _ fuzzed => ?_⟩
    cases fuzzed
    refine ⟨⟨trivial, fun _ => ⟨by decide, ?_⟩⟩, fun _ _ => trivial⟩
    intro cur _ current _
    cases current
    decide
  exact ⟨_, rfl, @run_evicts threeSlots loadTwo 1 ⟨[], true, true⟩ leaves
    _ rfl ⟨by decide, by decide, rfl⟩⟩

theorem OnlyCurrent.endless (only : afl.OnlyCurrent)
    (written : ∀ value, randBelow afl.maxCacheCount value < afl.slots)
    (random : List Nat) : afl.randomVictim random = .error .endless := by
  induction random with
  | nil => rfl
  | cons value random induction =>
      unfold randomVictim
      rw [if_pos (written value)]
      split
      · exact induction
      · rename_i id found
        rw [if_pos (only _ id found)]
        exact induction

/-- The only cached entry is being fuzzed, and there may be no second one. -/
theorem run_evicts_fails_for_twoSlots :
    ∃ reached, twoSlots.start.run loadTwo = .ok reached ∧ reached.HasToLoad 1 ∧
      reached.full (reached.entries 1).len = true ∧ ¬reached.HasVictim ∧
      ∀ random opens allocates, reached.queueTestcaseGet 1
        ⟨random, allocates, opens⟩ = .error .endless := by
  obtain ⟨reached, runs, slot, others, current, maxCount, slots, loads, full,
      learns, max⟩ : ∃ reached, twoSlots.start.run loadTwo = .ok reached ∧
      reached.cache 0 = some 0 ∧
      (∀ tid, tid ≠ 0 → reached.cache tid = none) ∧
      reached.queueCur = some 0 ∧ reached.maxCacheCount = 1#32 ∧
      reached.slots = 2 ∧ reached.HasToLoad 1 ∧
      reached.full (reached.entries 1).len = true ∧
      reached.learnEntries (reached.entries 1).len = .ok reached ∧
      reached.maxCacheSize ≠ 0#64 := by
    refine ⟨_, rfl, rfl, fun tid other => ?_, rfl, rfl, rfl,
      ⟨by decide, by decide, rfl⟩, by decide, ?_, by decide⟩
    · exact Function.update_of_ne other _ _
    · rfl
  have only : reached.OnlyCurrent := by
    intro tid id found
    by_cases first : tid = 0
    · rw [first, slot] at found
      rw [current, found]
    · rw [others tid first] at found
      cases found
  refine ⟨reached, runs, loads, full, ?_, fun random opens allocates => ?_⟩
  · rintro ⟨tid, _, id, found, unused⟩
    exact unused (only tid id found)
  · have draws := only.endless (fun value => by
      rw [maxCount, slots]
      exact (by decide : 0 < 2)) random
    unfold queueTestcaseGet
    rw [if_neg max, loads.2.2]
    dsimp only
    rw [makeRoom, if_pos full, learns]
    change (reached.randomVictim random >>= _) >>= _ = _
    rw [draws]
    rfl

end TestcaseCache

end AFLPlusPlus
