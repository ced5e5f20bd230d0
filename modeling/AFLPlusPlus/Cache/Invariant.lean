import AFLPlusPlus.Cache.Testcases
import Mathlib.Algebra.Order.BigOperators.Group.Finset

/-!
# The invariant of the test case cache

The slots and the cached entries are in bijection, and the size, the count, the
learned maximum and the smallest free slot are what their names say.  The
condition `fits` is that the array is as long as the number of entries asked for.
-/

namespace AFLPlusPlus

namespace TestcaseCache

def cachedLen (entry : CachedEntry) : Nat :=
  if entry.testcaseBuf.isSome then entry.len.toNat else 0

def cachedLength (afl : TestcaseCache) : Nat :=
  ∑ id ∈ Finset.range afl.queuedPaths, cachedLen (afl.entries id)

def occupied (afl : TestcaseCache) : Nat :=
  Nat.count (fun tid => (afl.cache tid).isSome = true)
    afl.maxCacheEntries.toNat

structure CacheInvariant (fits : Prop) (afl : TestcaseCache) : Prop where
  inside : ∀ tid id, afl.cache tid = some id →
    tid < afl.maxCacheCount.toNat ∧ id < afl.queuedPaths ∧
      (afl.entries id).testcaseBuf.isSome = true
  slot : ∀ id < afl.queuedPaths, (afl.entries id).testcaseBuf.isSome = true →
    ∃ tid, afl.cache tid = some id
  unique : ∀ tid other id, afl.cache tid = some id →
    afl.cache other = some id → tid = other
  learned : afl.maxCacheCount.toNat ≤ afl.maxCacheEntries.toNat
  written : afl.maxCacheCount.toNat ≤ afl.slots
  allocated : afl.slots ≤ maxAlloc / 8
  empty : afl.maxCacheEntries = 0#32 → afl.slots = 0
  room : fits → afl.maxCacheEntries ≠ 0#32 ∧ afl.maxCacheEntries.toNat ≤ afl.slots
  cacheSize : afl.cacheSize = BitVec.ofNat 64 afl.cachedLength
  cacheCount : afl.cacheCount = BitVec.ofNat 32 afl.occupied
  smallestFree : ∀ tid, afl.cache tid = none → afl.smallestFree.toNat ≤ tid

variable {fits : Prop} {afl : TestcaseCache}

section

variable (invariant : CacheInvariant fits afl)
include invariant

theorem CacheInvariant.free {tid : Nat} (above : afl.maxCacheCount.toNat ≤ tid) :
    afl.cache tid = none := by
  cases found : afl.cache tid with
  | none => rfl
  | some id =>
      have inside := (invariant.inside tid id found).1
      omega

theorem CacheInvariant.occupied_eq :
    afl.occupied = Nat.count (fun tid => (afl.cache tid).isSome = true)
      afl.maxCacheCount.toNat := by
  apply Counting.count_extend invariant.learned
  intro tid above _
  simp [invariant.free above]

theorem CacheInvariant.occupied_le : afl.occupied ≤ afl.maxCacheCount.toNat := by
  rw [invariant.occupied_eq]
  exact Nat.count_le _

theorem CacheInvariant.cacheCount_toNat : afl.cacheCount.toNat = afl.occupied := by
  have bound := invariant.occupied_le
  have small := afl.maxCacheCount.isLt
  rw [invariant.cacheCount, BitVec.toNat_ofNat, Nat.mod_eq_of_lt]
  omega

theorem CacheInvariant.cached_card :
    ((Finset.range afl.queuedPaths).filter fun id =>
      (afl.entries id).testcaseBuf.isSome = true).card ≤
      afl.maxCacheCount.toNat := by
  have slots : ∀ id ∈ (Finset.range afl.queuedPaths).filter (fun id =>
      (afl.entries id).testcaseBuf.isSome = true),
      ∃ tid, afl.cache tid = some id := by
    intro id cached
    rw [Finset.mem_filter, Finset.mem_range] at cached
    exact invariant.slot id cached.1 cached.2
  choose! slotOf slotOf_spec using slots
  have card := Finset.card_le_card_of_injOn slotOf
    (t := Finset.range afl.maxCacheCount.toNat)
    (s := (Finset.range afl.queuedPaths).filter fun id =>
      (afl.entries id).testcaseBuf.isSome = true)
    (by
      intro id cached
      have inside := (invariant.inside _ _ (slotOf_spec id cached)).1
      simpa using inside)
    (by
      intro first firstCached second secondCached same
      have one := slotOf_spec first firstCached
      have other := slotOf_spec second secondCached
      rw [same, other] at one
      exact (Option.some.inj one).symm)
  rw [Finset.card_range] at card
  exact card

theorem CacheInvariant.cachedLength_lt : afl.cachedLength < 2 ^ 64 := by
  have card := invariant.cached_card
  have small := afl.maxCacheCount.isLt
  unfold cachedLength cachedLen
  rw [← Finset.sum_filter]
  have bound := Finset.sum_le_card_nsmul
    ((Finset.range afl.queuedPaths).filter fun id =>
      (afl.entries id).testcaseBuf.isSome = true)
    (fun id => (afl.entries id).len.toNat) (2 ^ 32 - 1)
    (by
      intro id _
      have small := (afl.entries id).len.isLt
      omega)
  rw [Nat.nsmul_eq_mul] at bound
  have product := Nat.mul_le_mul_right (2 ^ 32 - 1)
    (Nat.le_trans card (Nat.le_sub_one_of_lt small))
  omega

theorem CacheInvariant.cacheSize_toNat : afl.cacheSize.toNat = afl.cachedLength := by
  rw [invariant.cacheSize, BitVec.toNat_ofNat,
    Nat.mod_eq_of_lt invariant.cachedLength_lt]

end

/-- Only one entry changes its contribution to the size. -/
theorem cachedLength_change {before : TestcaseCache} (after : TestcaseCache)
    {q : Nat}
    (queued : q < before.queuedPaths)
    (queuedPaths : after.queuedPaths = before.queuedPaths)
    (same : ∀ id ≠ q, after.entries id = before.entries id) :
    after.cachedLength + cachedLen (before.entries q) =
      before.cachedLength + cachedLen (after.entries q) := by
  unfold cachedLength
  rw [queuedPaths]
  refine Counting.sum_change (fun id => cachedLen (before.entries id))
    (fun id => cachedLen (after.entries id)) queued fun id _ different => ?_
  rw [same id different]

/-- What the size counter becomes when a length is added and another one taken
away. -/
theorem cacheSize_of_change (lengthBefore lengthAfter : Nat)
    (len oldLen : BitVec 32)
    (change : lengthAfter + oldLen.toNat = lengthBefore + len.toNat) :
    BitVec.ofNat 64 lengthBefore + len.setWidth 64 - oldLen.setWidth 64 =
      BitVec.ofNat 64 lengthAfter := by
  have widen : ∀ value : BitVec 32,
      value.setWidth 64 = BitVec.ofNat 64 value.toNat := by
    intro value
    apply BitVec.eq_of_toNat_eq
    simp
  rw [widen, widen, ← BitVec.ofNat_add, ← change, BitVec.ofNat_add,
    BitVec.add_sub_cancel]

section Modify

variable (afl : TestcaseCache) (id : Nat) (change : CachedEntry → CachedEntry)

@[simp] theorem modify_entries_self :
    (afl.modify id change).entries id = change (afl.entries id) := by
  simp [modify]

theorem modify_entries_of_ne {other : Nat} (different : other ≠ id) :
    (afl.modify id change).entries other = afl.entries other := by
  simp [modify, different]

end Modify

/-- Which entries are cached, and where, is the same. -/
structure SameSlots (before after : TestcaseCache) : Prop where
  queuedPaths : after.queuedPaths = before.queuedPaths
  maxCacheEntries : after.maxCacheEntries = before.maxCacheEntries
  maxCacheCount : after.maxCacheCount = before.maxCacheCount
  cacheCount : after.cacheCount = before.cacheCount
  smallestFree : after.smallestFree = before.smallestFree
  cache : after.cache = before.cache
  slots : after.slots = before.slots
  cached : ∀ id, (after.entries id).testcaseBuf.isSome =
    (before.entries id).testcaseBuf.isSome

section

variable (invariant : CacheInvariant fits afl)
include invariant

theorem CacheInvariant.of_sameSlots {after : TestcaseCache} (same : SameSlots afl after)
    (cacheSize : after.cacheSize = BitVec.ofNat 64 after.cachedLength) :
    CacheInvariant fits after := by
  constructor
  · intro tid id found
    rw [same.cache] at found
    rw [same.maxCacheCount, same.queuedPaths, same.cached]
    exact invariant.inside tid id found
  · intro id queued cached
    rw [same.queuedPaths] at queued
    rw [same.cached] at cached
    rw [same.cache]
    exact invariant.slot id queued cached
  · rw [same.cache]
    exact invariant.unique
  · rw [same.maxCacheCount, same.maxCacheEntries]
    exact invariant.learned
  · rw [same.maxCacheCount, same.slots]
    exact invariant.written
  · rw [same.slots]
    exact invariant.allocated
  · rw [same.maxCacheEntries, same.slots]
    exact invariant.empty
  · rw [same.maxCacheEntries, same.slots]
    exact invariant.room
  · exact cacheSize
  · rw [same.cacheCount, invariant.cacheCount]
    unfold occupied
    rw [same.cache, same.maxCacheEntries]
  · rw [same.cache, same.smallestFree]
    exact invariant.smallestFree

theorem CacheInvariant.evict {tid oldCached : Nat}
    (found : afl.cache tid = some oldCached) :
    CacheInvariant fits (afl.evict tid oldCached) := by
  obtain ⟨used, queued, cached⟩ := invariant.inside tid oldCached found
  have tidSmall : tid < 2 ^ 32 := Nat.lt_trans used afl.maxCacheCount.isLt
  have others : ∀ id ≠ oldCached,
      (afl.evict tid oldCached).entries id = afl.entries id :=
    fun id different => modify_entries_of_ne afl oldCached
      (fun entry => { entry with testcaseBuf := none }) different
  have own : (afl.evict tid oldCached).entries oldCached =
      { afl.entries oldCached with testcaseBuf := none } := by
    simp [TestcaseCache.evict]
  have slots : ∀ slot id, (afl.evict tid oldCached).cache slot = some id →
      slot ≠ tid ∧ afl.cache slot = some id := by
    intro slot id rest
    by_cases same : slot = tid
    · simp [TestcaseCache.evict, same] at rest
    · simp only [TestcaseCache.evict, Function.update_of_ne same] at rest
      exact ⟨same, rest⟩
  constructor
  · intro slot id rest
    obtain ⟨different, before⟩ := slots slot id rest
    obtain ⟨wasUsed, wasQueued, wasCached⟩ := invariant.inside slot id before
    refine ⟨wasUsed, wasQueued, ?_⟩
    rw [others id ?_]
    · exact wasCached
    · rintro rfl
      exact different (invariant.unique slot tid id before found)
  · intro id isQueued isCached
    by_cases same : id = oldCached
    · subst id
      rw [own] at isCached
      cases isCached
    · rw [others id same] at isCached
      obtain ⟨slot, before⟩ := invariant.slot id isQueued isCached
      refine ⟨slot, ?_⟩
      have different : slot ≠ tid := by
        rintro rfl
        rw [found] at before
        exact same (Option.some.inj before).symm
      simp [TestcaseCache.evict, different, before]
  · intro slot other id first second
    exact invariant.unique slot other id (slots slot id first).2
      (slots other id second).2
  · exact invariant.learned
  · exact invariant.written
  · exact invariant.allocated
  · exact invariant.empty
  · exact invariant.room
  · have change := cachedLength_change (afl.evict tid oldCached) queued
      rfl others
    rw [own] at change
    simp only [cachedLen, cached, if_true, Option.isSome_none,
      Bool.false_eq_true, if_false, Nat.add_zero] at change
    have size := cacheSize_of_change afl.cachedLength
      (afl.evict tid oldCached).cachedLength 0#32
      (afl.entries oldCached).len (by simpa using change)
    rw [← invariant.cacheSize] at size
    simpa [TestcaseCache.evict] using size
  · have count : afl.occupied = (afl.evict tid oldCached).occupied + 1 := by
      refine Counting.count_remove
        (Nat.lt_of_lt_of_le used invariant.learned) ?_ ?_ ?_
      · intro slot _ different
        simp [TestcaseCache.evict, different]
      · simp [found]
      · simp [TestcaseCache.evict]
    have counter : (afl.evict tid oldCached).cacheCount = afl.cacheCount - 1#32 := rfl
    rw [counter, invariant.cacheCount, count, BitVec.ofNat_add]
    exact BitVec.add_sub_cancel _ _
  · intro slot rest
    have bound : (afl.evict tid oldCached).smallestFree.toNat =
        min tid afl.smallestFree.toNat := by
      have value : (BitVec.ofNat 32 tid).toNat = tid := by
        rw [BitVec.toNat_ofNat, Nat.mod_eq_of_lt tidSmall]
      simp only [TestcaseCache.evict, BitVec.lt_def, value]
      split
      · rw [value, Nat.min_eq_left (by omega)]
      · rw [Nat.min_eq_right (by omega)]
    rw [bound]
    by_cases same : slot = tid
    · omega
    · simp only [TestcaseCache.evict, Function.update_of_ne same] at rest
      have before := invariant.smallestFree slot rest
      omega

theorem CacheInvariant.register {q tid : Nat} (queued : q < afl.queuedPaths)
    (uncached : (afl.entries q).testcaseBuf = none) (free : afl.cache tid = none)
    (below : tid < afl.maxCacheEntries.toNat) (written : tid < afl.slots) (buf : Buffer) :
    CacheInvariant fits (afl.register q tid buf) := by
  have limit := afl.maxCacheEntries.isLt
  have value : (BitVec.ofNat 32 tid).toNat = tid := by
    rw [BitVec.toNat_ofNat, Nat.mod_eq_of_lt (by omega)]
  have others : ∀ id ≠ q, (afl.register q tid buf).entries id = afl.entries id :=
    fun id different => modify_entries_of_ne afl q
      (fun entry => { entry with testcaseBuf := some buf }) different
  have own : (afl.register q tid buf).entries q =
      { afl.entries q with testcaseBuf := some buf } := by
    simp [TestcaseCache.register]
  have slots : ∀ slot id, (afl.register q tid buf).cache slot = some id →
      slot = tid ∧ id = q ∨ slot ≠ tid ∧ afl.cache slot = some id := by
    intro slot id found
    by_cases same : slot = tid
    · simp only [TestcaseCache.register, same, Function.update_self] at found
      exact .inl ⟨same, (Option.some.inj found).symm⟩
    · simp only [TestcaseCache.register, Function.update_of_ne same] at found
      exact .inr ⟨same, found⟩
  have maximum : (afl.register q tid buf).maxCacheCount.toNat =
      max afl.maxCacheCount.toNat (tid + 1) := by
    simp only [TestcaseCache.register, BitVec.le_def, value]
    split
    · rw [BitVec.toNat_add, value]
      simp
      omega
    · omega
  -- The entry was in no slot, since it was not cached.
  have absent : ∀ slot, afl.cache slot ≠ some q := by
    intro slot found
    have cached := (invariant.inside slot q found).2.2
    rw [uncached] at cached
    cases cached
  constructor
  · intro slot id found
    rw [maximum]
    rcases slots slot id found with ⟨rfl, rfl⟩ | ⟨_, before⟩
    · refine ⟨by omega, queued, ?_⟩
      rw [own]
      rfl
    · obtain ⟨used, wasQueued, cached⟩ := invariant.inside slot id before
      refine ⟨by omega, wasQueued, ?_⟩
      rw [others id ?_]
      · exact cached
      · rintro rfl
        exact absent slot before
  · intro id isQueued cached
    by_cases same : id = q
    · subst id
      exact ⟨tid, by simp [TestcaseCache.register]⟩
    · rw [others id same] at cached
      obtain ⟨slot, before⟩ := invariant.slot id isQueued cached
      refine ⟨slot, ?_⟩
      have different : slot ≠ tid := by
        rintro rfl
        rw [free] at before
        cases before
      simp [TestcaseCache.register, different, before]
  · intro slot other id first second
    rcases slots slot id first with ⟨rfl, rfl⟩ | ⟨_, firstBefore⟩
    · rcases slots other id second with ⟨rfl, _⟩ | ⟨_, secondBefore⟩
      · rfl
      · exact absurd secondBefore (absent other)
    · rcases slots other id second with ⟨rfl, rfl⟩ | ⟨_, secondBefore⟩
      · exact absurd firstBefore (absent slot)
      · exact invariant.unique slot other id firstBefore secondBefore
  · rw [maximum]
    exact Nat.max_le.mpr ⟨invariant.learned, below⟩
  · rw [maximum]
    exact Nat.max_le.mpr ⟨invariant.written, written⟩
  · exact invariant.allocated
  · exact invariant.empty
  · exact invariant.room
  · have change := cachedLength_change (afl.register q tid buf) queued
      rfl others
    rw [own] at change
    simp only [cachedLen, uncached, Option.isSome_none, Bool.false_eq_true,
      if_false, Option.isSome_some, if_true] at change
    have size := cacheSize_of_change afl.cachedLength
      (afl.register q tid buf).cachedLength (afl.entries q).len 0#32 (by simpa using change)
    rw [← invariant.cacheSize] at size
    simpa [TestcaseCache.register] using size
  · have count : (afl.register q tid buf).occupied = afl.occupied + 1 := by
      refine Counting.count_add below ?_ ?_ ?_
      · intro slot _ different
        simp [TestcaseCache.register, different]
      · simp [free]
      · simp [TestcaseCache.register]
    have counter : (afl.register q tid buf).cacheCount = afl.cacheCount + 1#32 := rfl
    rw [counter, invariant.cacheCount, count, BitVec.ofNat_add]
  · intro slot rest
    have different : slot ≠ tid := by
      rintro rfl
      simp [TestcaseCache.register] at rest
    simp only [TestcaseCache.register, Function.update_of_ne different] at rest
    have before := invariant.smallestFree slot rest
    simp only [TestcaseCache.register]
    split
    · exact before
    · split
      · rename_i smallest
        rw [← smallest, value] at before
        rw [BitVec.toNat_add, value]
        simp
        omega
      · exact before

theorem CacheInvariant.learnedEntries_toNat
    (below : afl.maxCacheCount < afl.maxCacheEntries) :
    afl.learnedEntries.toNat = afl.maxCacheCount.toNat + 1 := by
  have count := invariant.cacheCount_toNat
  have bound := invariant.occupied_le
  have limit := afl.maxCacheEntries.isLt
  rw [BitVec.lt_def] at below
  unfold learnedEntries
  simp only [BitVec.lt_def]
  split
  · rw [BitVec.toNat_add]
    simp
    omega
  · rw [BitVec.toNat_add]
    simp
    omega

theorem CacheInvariant.learnedSlots_eq (below : afl.maxCacheCount < afl.maxCacheEntries) :
    afl.learnedSlots = min afl.slots (afl.maxCacheCount.toNat + 2) := by
  have learned := invariant.learnedEntries_toNat below
  have written := invariant.written
  have allocated := invariant.allocated
  simp only [maxAlloc] at allocated
  have next : (afl.learnedEntries + 1#32).toNat = afl.maxCacheCount.toNat + 2 := by
    rw [BitVec.toNat_add, learned]
    simp
    omega
  unfold learnedSlots pointerBytes
  rw [next]
  omega

end

/-- The entries, and which one is fuzzed. -/
structure SameEntries (before after : TestcaseCache) : Prop where
  queuedPaths : after.queuedPaths = before.queuedPaths
  queueCur : after.queueCur = before.queueCur
  entries : after.entries = before.entries

theorem CacheInvariant.learnEntries (invariant : CacheInvariant fits afl)
    (len : BitVec 32) :
    Yields (fun failure => failure = .fatal)
      (fun learned => CacheInvariant fits learned ∧ SameEntries afl learned ∧
        learned.maxCacheCount = afl.maxCacheCount)
      (afl.learnEntries len) := by
  unfold TestcaseCache.learnEntries
  split
  · rename_i learns
    have below := learns.2.1.2
    have entries := invariant.learnedEntries_toNat below
    have slots := invariant.learnedSlots_eq below
    have written := invariant.written
    have belowNat := below
    rw [BitVec.lt_def] at belowNat
    split
    · exact rfl
    -- The slots that are cut off are free.
    have cache : ∀ tid, (if tid < afl.learnedSlots then afl.cache tid
        else none) = afl.cache tid := by
      intro tid
      split
      · rfl
      · rw [invariant.free]
        omega
    refine ⟨?_, ⟨rfl, rfl, rfl⟩, rfl⟩
    simp only [cache]
    constructor
    · exact invariant.inside
    · exact invariant.slot
    · exact invariant.unique
    · exact Nat.le_trans (Nat.le_succ _) (Nat.le_of_eq entries.symm)
    · change afl.maxCacheCount.toNat ≤ afl.learnedSlots
      omega
    · have allocated := invariant.allocated
      change afl.learnedSlots ≤ maxAlloc / 8
      omega
    · intro none
      have zero : afl.learnedEntries.toNat = 0 := by
        change afl.learnedEntries = 0#32 at none
        rw [none]
        rfl
      omega
    · intro holds
      have room := (invariant.room holds).2
      change afl.learnedEntries ≠ 0#32 ∧ afl.learnedEntries.toNat ≤ afl.learnedSlots
      refine ⟨?_, by omega⟩
      intro none
      rw [none] at entries
      simp at entries
    · exact invariant.cacheSize
    · have count : Nat.count (fun tid => (afl.cache tid).isSome = true)
          afl.learnedEntries.toNat = afl.occupied := by
        rw [invariant.occupied_eq, entries, Nat.count_succ,
          invariant.free (Nat.le_refl _)]
        simp
      refine invariant.cacheCount.trans (congrArg _ ?_)
      exact count.symm
    · exact invariant.smallestFree
  · exact ⟨invariant, ⟨rfl, rfl, rfl⟩, rfl⟩

end TestcaseCache

end AFLPlusPlus
