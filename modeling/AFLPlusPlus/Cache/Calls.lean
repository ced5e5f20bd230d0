import AFLPlusPlus.Cache.Invariant

/-!
# Calls of the test case cache

Every call that returns keeps the invariant, and the entry that is being fuzzed
stays in memory.
-/

namespace AFLPlusPlus

variable {q tid : Nat} {after : TestcaseCache}

namespace TestcaseCache

variable {fits : Prop} {afl : TestcaseCache}

def Allowed (fits : Prop) (failure : CacheFailure) : Prop :=
  failure = .badAccess → ¬fits

theorem toNat_pos {value : BitVec 32} (nonzero : value ≠ 0#32) : 0 < value.toNat :=
  Nat.pos_of_ne_zero fun zero => nonzero (BitVec.eq_of_toNat_eq zero)

theorem randBelow_lt {limit : BitVec 32} {drawn bound : Nat}
    (positive : 0 < bound) (within : limit.toNat ≤ bound) :
    randBelow limit drawn < bound := by
  unfold randBelow
  split
  · exact positive
  · rename_i above
    rw [BitVec.le_def] at above
    have limited := Nat.mod_lt drawn (y := limit.toNat) (by
      simp at above
      omega)
    omega

theorem CacheInvariant.randomVictim (invariant : CacheInvariant fits afl)
    (random : List Nat) :
    Yields (Allowed fits)
      (fun victim => afl.cache victim.1 = some victim.2.1 ∧
        afl.queueCur ≠ some victim.2.1)
      (afl.randomVictim random) := by
  induction random with
  | nil =>
      intro endless
      cases endless
  | cons drawn random induction =>
      unfold TestcaseCache.randomVictim
      dsimp only
      split
      · split
        · exact induction
        · rename_i oldCached found
          split
          · exact induction
          · rename_i unused
            exact ⟨found, unused⟩
      · rename_i outside
        intro _ holds
        obtain ⟨nonempty, within⟩ := invariant.room holds
        have positive := toNat_pos nonempty
        exact outside (randBelow_lt (by omega) invariant.written)

/-- Entries other than the one being fuzzed are forgotten, and nothing else. -/
structure OnlyEvicts (before after : TestcaseCache) : Prop where
  queuedPaths : after.queuedPaths = before.queuedPaths
  queueCur : after.queueCur = before.queueCur
  forgotten : ∀ id, after.entries id = before.entries id ∨
    after.entries id = { before.entries id with testcaseBuf := none }
  current : ∀ id, before.queueCur = some id → after.entries id = before.entries id

variable {len : BitVec 32} {allowed : CacheFailure → Prop} {before : TestcaseCache}
    {post : TestcaseCache → Prop}

theorem SameEntries.onlyEvicts (same : SameEntries before after) :
    OnlyEvicts before after :=
  ⟨same.queuedPaths, same.queueCur, fun _ => .inl (by rw [same.entries]),
    fun _ _ => by rw [same.entries]⟩

theorem onlyEvicts_evict {oldCached : Nat} (unused : afl.queueCur ≠ some oldCached) :
    OnlyEvicts afl (afl.evict tid oldCached) := by
  have others : ∀ id ≠ oldCached,
      (afl.evict tid oldCached).entries id = afl.entries id :=
    fun id different => modify_entries_of_ne afl oldCached
      (fun entry => { entry with testcaseBuf := none }) different
  refine ⟨rfl, rfl, ?_, ?_⟩
  · intro id
    by_cases same : id = oldCached
    · subst id
      exact .inr (by simp [evict])
    · exact .inl (others id same)
  · intro id current
    apply others
    rintro rfl
    exact unused current

theorem OnlyEvicts.trans {first second third : TestcaseCache}
    (step : OnlyEvicts first second) (rest : OnlyEvicts second third) :
    OnlyEvicts first third := by
  refine ⟨rest.queuedPaths.trans step.queuedPaths,
    rest.queueCur.trans step.queueCur, ?_, ?_⟩
  · intro id
    rcases step.forgotten id with before | before <;>
      rcases rest.forgotten id with after | after
    · exact .inl (after.trans before)
    · exact .inr (by rw [after, before])
    · exact .inr (after.trans before)
    · exact .inr (by rw [after, before])
  · intro id current
    rw [rest.current id (step.queueCur.trans current), step.current id current]

/-- The slot at which the scan may start: the first one never in use, or one
that was freed. -/
def Candidate (afl : TestcaseCache) (tid : Nat) : Prop :=
  tid = afl.maxCacheCount.toNat ∨ tid < afl.maxCacheCount.toNat ∧ afl.cache tid = none

theorem CacheInvariant.makeRoom (invariant : CacheInvariant fits afl) (len : BitVec 32)
    (fuel : Nat) (random : List Nat) (candidate : afl.Candidate tid) :
    Yields (Allowed fits)
      (fun room => CacheInvariant fits room.2 ∧ OnlyEvicts afl room.2 ∧
        room.2.full len = false ∧ room.2.Candidate room.1)
      (makeRoom len fuel random tid afl) := by
  induction fuel generalizing afl random tid with
  | zero =>
      intro endless
      cases endless
  | succ fuel induction =>
      unfold TestcaseCache.makeRoom
      split
      · have learning : Yields (Allowed fits) (fun learned =>
            CacheInvariant fits learned ∧ SameEntries afl learned)
            (afl.learnEntries len) := by
          have learns := invariant.learnEntries len
          cases learned : afl.learnEntries len with
          | error failure =>
              rw [learned] at learns
              intro bad
              rw [learns] at bad
              cases bad
          | ok next =>
              rw [learned] at learns
              exact ⟨learns.1, learns.2.1⟩
        refine learning.bind ?_
        rintro learned ⟨holds, same⟩
        refine (holds.randomVictim random).bind ?_
        rintro ⟨victim, oldCached, rest⟩ ⟨found, unused⟩
        have freed : (learned.evict victim oldCached).Candidate victim :=
          .inr ⟨(holds.inside victim oldCached found).1, by simp [TestcaseCache.evict]⟩
        refine (induction (holds.evict found) rest freed).mono ?_
        rintro room ⟨roomHolds, evicts, fitting, roomCandidate⟩
        exact ⟨roomHolds,
          same.onlyEvicts.trans ((onlyEvicts_evict unused).trans evicts),
          fitting, roomCandidate⟩
      · rename_i fitting
        rw [Bool.not_eq_true] at fitting
        exact ⟨invariant, SameEntries.onlyEvicts ⟨rfl, rfl, rfl⟩, fitting, candidate⟩

/-- The scan finds a slot no later than any free one from where it starts. -/
theorem findFree_spec {goal : Nat} (free : afl.cache goal = none)
    (fuel tid : Nat) (before : tid ≤ goal) (enough : afl.slots < tid + fuel) :
    Yields (fun failure => failure = .badAccess ∧ afl.slots ≤ goal)
      (fun found => found ≤ goal ∧ found < afl.slots ∧ afl.cache found = none)
      (afl.findFree fuel tid) := by
  induction fuel generalizing tid with
  | zero => exact ⟨rfl, by omega⟩
  | succ fuel induction =>
      unfold findFree
      split
      · rename_i inside
        split
        · rename_i found
          exact ⟨before, inside, found⟩
        · rename_i id used
          have different : tid ≠ goal := by
            rintro rfl
            rw [free] at used
            cases used
          exact induction (tid + 1) (by omega) (by omega)
      · exact ⟨rfl, by omega⟩

theorem CacheInvariant.exists_free (invariant : CacheInvariant fits afl)
    (fitting : afl.full len = false) (nonempty : afl.maxCacheEntries ≠ 0#32) :
    ∃ tid < afl.maxCacheEntries.toNat, afl.cache tid = none := by
  have count := invariant.cacheCount_toNat
  have fewer : afl.occupied < afl.maxCacheEntries.toNat := by
    simp only [full, Bool.or_eq_false_iff, decide_eq_false_iff_not,
      BitVec.le_def] at fitting
    have positive := toNat_pos nonempty
    have minus : (afl.maxCacheEntries - 1#32).toNat =
        afl.maxCacheEntries.toNat - 1 := by
      have limit := afl.maxCacheEntries.isLt
      rw [BitVec.toNat_sub]
      simp
      omega
    omega
  obtain ⟨tid, below, absent⟩ := Counting.exists_absent fewer
  refine ⟨tid, below, ?_⟩
  simpa using absent

/-- From a candidate, or from the smallest free slot where the candidate lies
behind the last slot, the scan ends at a free slot. -/
theorem CacheInvariant.findFree (invariant : CacheInvariant fits afl)
    (fitting : afl.full len = false) (candidate : afl.Candidate tid) :
    Yields (Allowed fits)
      (fun found => afl.cache found = none ∧ found < afl.slots ∧
        found < afl.maxCacheEntries.toNat)
      (afl.findFree (afl.slots + 1)
        (if afl.maxCacheEntries.toNat ≤ tid then afl.smallestFree.toNat
        else tid)) := by
  by_cases none : afl.maxCacheEntries = 0#32
  · have slots := invariant.empty none
    unfold TestcaseCache.findFree
    rw [if_neg (by omega)]
    intro _ holds
    exact (invariant.room holds).1 none
  have learned := invariant.learned
  have written := invariant.written
  have goal : ∃ goal, afl.cache goal = Option.none ∧ goal < afl.maxCacheEntries.toNat ∧
      (if afl.maxCacheEntries.toNat ≤ tid then afl.smallestFree.toNat
        else tid) ≤ goal := by
    split
    · obtain ⟨goal, below, free⟩ := invariant.exists_free fitting none
      exact ⟨goal, free, below, invariant.smallestFree goal free⟩
    · rename_i inside
      refine ⟨tid, ?_, by omega, Nat.le_refl _⟩
      rcases candidate with rfl | ⟨_, free⟩
      · exact invariant.free (Nat.le_refl _)
      · exact free
  obtain ⟨goal, free, below, start⟩ := goal
  have scan := findFree_spec free (afl.slots + 1) _ start (by omega)
  cases result : afl.findFree (afl.slots + 1)
      (if afl.maxCacheEntries.toNat ≤ tid then afl.smallestFree.toNat
        else tid) with
  | error failure =>
      rw [result] at scan
      intro _ holds
      have within := (invariant.room holds).2
      have short := scan.2
      omega
  | ok found =>
      rw [result] at scan
      obtain ⟨early, inside, isFree⟩ := scan
      exact ⟨isFree, inside, by omega⟩

/-- The entry being fuzzed stays in memory. -/
def KeepsCurrent (before after : TestcaseCache) : Prop :=
  ∀ id < before.queuedPaths, before.queueCur = some id →
    (before.entries id).testcaseBuf.isSome = true →
      (after.entries id).testcaseBuf.isSome = true

theorem keepsCurrent_modify (q : Nat) (change : CachedEntry → CachedEntry)
    (entries : after.entries = (before.modify q change).entries)
    (cached : (before.entries q).testcaseBuf.isSome = true →
      (change (before.entries q)).testcaseBuf.isSome = true) :
    KeepsCurrent before after := by
  intro id _ _ wasCached
  rw [entries]
  by_cases same : id = q
  · subst id
    rw [modify_entries_self]
    exact cached wasCached
  · rw [modify_entries_of_ne _ _ _ same]
    exact wasCached

theorem CacheInvariant.queueTestcaseGet (invariant : CacheInvariant fits afl)
    (queued : q < afl.queuedPaths) (environment : CacheEnvironment) :
    Yields (Allowed fits)
      (fun result => CacheInvariant fits result.2 ∧ KeepsCurrent afl result.2)
      (afl.queueTestcaseGet q environment) := by
  have fatal : Allowed fits .fatal := fun bad => by cases bad
  unfold TestcaseCache.queueTestcaseGet
  split
  · split
    · exact ⟨invariant, fun _ _ _ cached => cached⟩
    · exact fatal
  split
  · exact ⟨invariant, fun _ _ _ cached => cached⟩
  rename_i uncached
  refine (invariant.makeRoom _ _ _ (.inl rfl)).bind ?_
  rintro ⟨tid, room⟩ ⟨holds, evicts, fitting, candidate⟩
  refine (holds.findFree fitting candidate).bind ?_
  rintro found ⟨free, written, below⟩
  dsimp only
  split
  · have stillUncached : (room.entries q).testcaseBuf = none := by
      rcases evicts.forgotten q with same | same
      · rw [same, uncached]
      · rw [same]
    refine ⟨holds.register (by rw [evicts.queuedPaths]; exact queued)
      stillUncached free below written _, ?_⟩
    intro id inQueue current cached
    have kept := evicts.current id current
    rw [← kept] at cached
    rw [← evicts.queuedPaths] at inQueue
    have keeps : KeepsCurrent room _ := keepsCurrent_modify q
      (fun entry => { entry with testcaseBuf := some (afl.entries q).file })
      rfl fun _ => rfl
    exact keeps id inQueue (evicts.queueCur.trans current) cached
  · exact fatal

/-- Storing is for entries that are not cached. -/
theorem CacheInvariant.queueTestcaseStoreMem (invariant : CacheInvariant fits afl)
    (queued : q < afl.queuedPaths) (uncached : (afl.entries q).testcaseBuf = none)
    (mem : Buffer) (environment : CacheEnvironment) :
    Yields (Allowed fits) (CacheInvariant fits)
      (afl.queueTestcaseStoreMem q mem environment) := by
  unfold TestcaseCache.queueTestcaseStoreMem
  split
  · exact invariant
  · rename_i fitting
    rw [Bool.not_eq_true] at fitting
    simp only [BitVec.le_def]
    refine (invariant.findFree fitting (.inl rfl)).bind ?_
    rintro found ⟨free, written, below⟩
    split
    · exact invariant.register queued uncached free below written mem
    · intro bad
      cases bad

theorem queueTestcaseStoreMem_keepsCurrent (q : Nat) (mem : Buffer)
    (environment : CacheEnvironment) :
    Yields (fun _ => True) (KeepsCurrent afl)
      (afl.queueTestcaseStoreMem q mem environment) := by
  unfold queueTestcaseStoreMem
  split
  · exact fun _ _ _ cached => cached
  · cases afl.findFree (afl.slots + 1) _ with
    | error failure => trivial
    | ok found =>
        change Yields _ _ (ite _ _ _)
        split
        · exact keepsCurrent_modify q
            (fun entry => { entry with testcaseBuf := some mem })
            rfl fun _ => rfl
        · trivial

theorem resized_same (len : BitVec 32) : afl.resized len len = afl.cacheSize :=
  BitVec.add_sub_cancel _ _

/-- One entry changes its length, and the size follows if it is cached. -/
theorem CacheInvariant.of_length (invariant : CacheInvariant fits afl)
    (queued : q < afl.queuedPaths) (same : SameSlots afl after)
    (others : ∀ id ≠ q, after.entries id = afl.entries id)
    (cacheSize : after.cacheSize =
      if (afl.entries q).testcaseBuf.isSome then
        afl.resized (after.entries q).len (afl.entries q).len
      else afl.cacheSize) :
    CacheInvariant fits after := by
  refine invariant.of_sameSlots same ?_
  have change := cachedLength_change after queued same.queuedPaths others
  rw [cacheSize]
  cases cached : (afl.entries q).testcaseBuf.isSome with
  | true =>
      have stillCached := same.cached q
      rw [cached] at stillCached
      simp only [cachedLen, cached, stillCached, if_true] at change
      rw [if_pos rfl, resized, invariant.cacheSize]
      exact cacheSize_of_change _ _ _ _ change
  | false =>
      have stillUncached := same.cached q
      rw [cached] at stillUncached
      simp only [cachedLen, cached, stillUncached, Bool.false_eq_true,
        if_false, Nat.add_zero] at change
      rw [if_neg Bool.false_ne_true, invariant.cacheSize, change]

theorem CacheInvariant.trimmed (invariant : CacheInvariant fits afl)
    (queued : q < afl.queuedPaths) (uncached : (afl.entries q).testcaseBuf = none)
    (len : BitVec 32) (file : Buffer) : CacheInvariant fits (afl.trimmed q len file) := by
  have others : ∀ id ≠ q, (afl.trimmed q len file).entries id =
      afl.entries id := fun id different =>
    modify_entries_of_ne afl q
      (fun entry => { entry with len, file }) different
  refine invariant.of_length queued ⟨rfl, rfl, rfl, rfl, rfl, rfl, rfl, ?_⟩
    others ?_
  · intro id
    by_cases same : id = q
    · subst id
      simp [TestcaseCache.trimmed]
    · rw [others id same]
  · rw [uncached]
    rfl

theorem trimmed_keepsCurrent (q : Nat) (len : BitVec 32) (file : Buffer) :
    KeepsCurrent afl (afl.trimmed q len file) :=
  keepsCurrent_modify q (fun entry => { entry with len, file }) rfl id

theorem trimmed_replaceBuffer_entries_of_ne {id : Nat} (different : id ≠ q)
    (len : BitVec 32) (file testcaseBuf : Buffer) (cacheSize : BitVec 64) :
    ((afl.trimmed q len file).replaceBuffer q testcaseBuf cacheSize).entries
      id = afl.entries id := by
  simp [TestcaseCache.trimmed, replaceBuffer, modify, different]

/-- A cached entry changes its length, and the size of the cache with it. -/
theorem CacheInvariant.replaceBuffer (invariant : CacheInvariant fits afl)
    (queued : q < afl.queuedPaths) (cached : (afl.entries q).testcaseBuf.isSome = true)
    (len : BitVec 32) (file testcaseBuf : Buffer) {cacheSize : BitVec 64}
    (follows : cacheSize = afl.resized len (afl.entries q).len) :
    CacheInvariant fits
      ((afl.trimmed q len file).replaceBuffer q testcaseBuf cacheSize) := by
  refine invariant.of_length queued ⟨rfl, rfl, rfl, rfl, rfl, rfl, rfl, ?_⟩
    (fun id different => trimmed_replaceBuffer_entries_of_ne different _ _ _ _)
    ?_
  · intro id
    by_cases same : id = q
    · subst id
      simp [TestcaseCache.trimmed, TestcaseCache.replaceBuffer, cached]
    · rw [trimmed_replaceBuffer_entries_of_ne same]
  · rw [cached, if_pos rfl]
    simp [TestcaseCache.trimmed, TestcaseCache.replaceBuffer, follows]

theorem replaceBuffer_keepsCurrent (q : Nat) (len : BitVec 32)
    (file testcaseBuf : Buffer) (cacheSize : BitVec 64) :
    KeepsCurrent afl
      ((afl.trimmed q len file).replaceBuffer q testcaseBuf cacheSize) := by
  intro id _ _ cached
  by_cases same : id = q
  · subst id
    simp [replaceBuffer]
  · rw [trimmed_replaceBuffer_entries_of_ne same]
    exact cached

@[simp] theorem trimmed_entries_self (q : Nat) (len : BitVec 32)
    (file : Buffer) :
    (afl.trimmed q len file).entries q = { afl.entries q with len, file } := by
  simp [trimmed]

theorem CacheInvariant.retake (invariant : CacheInvariant fits afl) {q : Nat}
    (queued : q < afl.queuedPaths) (len : BitVec 32) (file : Buffer)
    (environment : CacheEnvironment) :
    Yields (Allowed fits)
      (fun next => CacheInvariant fits next ∧ KeepsCurrent afl next)
      ((afl.trimmed q len file).queueTestcaseRetake q (afl.entries q).len
        environment) := by
  unfold queueTestcaseRetake
  rw [trimmed_entries_self]
  dsimp only
  split
  · rename_i uncached
    exact ⟨invariant.trimmed queued uncached len file, trimmed_keepsCurrent q len file⟩
  · rename_i testcaseBuf cached
    have isCached : (afl.entries q).testcaseBuf.isSome = true := by
      rw [cached]
      rfl
    split
    · refine ⟨invariant.replaceBuffer queued isCached len file file ?_,
        replaceBuffer_keepsCurrent q len file file _⟩
      split
      · rfl
      · rename_i unchanged
        rw [ne_eq, not_not] at unchanged
        rw [unchanged, resized_same]
        rfl
    · intro bad
      cases bad

/-- The size follows the length as long as `realloc` finds memory. -/
theorem CacheInvariant.retakeMem (invariant : CacheInvariant fits afl)
    (queued : q < afl.queuedPaths) (len : BitVec 32) (file : Buffer)
    (input : Option Buffer) (environment : CacheEnvironment)
    (allocates : (afl.entries q).testcaseBuf.isSome = true →
      len ≠ (afl.entries q).len → environment.allocates = true) :
    CacheInvariant fits ((afl.trimmed q len file).queueTestcaseRetakeMem q
      input len (afl.entries q).len environment) := by
  unfold queueTestcaseRetakeMem
  rw [trimmed_entries_self]
  dsimp only
  split
  · rename_i uncached
    exact invariant.trimmed queued uncached len file
  · rename_i testcaseBuf cached
    have isCached : (afl.entries q).testcaseBuf.isSome = true := by
      rw [cached]
      rfl
    refine invariant.replaceBuffer queued isCached len file _ ?_
    by_cases unchanged : len = (afl.entries q).len
    · rw [if_neg (fun resizes => resizes.1 unchanged), ← unchanged, resized_same]
      rfl
    · rw [if_pos ⟨unchanged, allocates isCached unchanged⟩]
      rfl

theorem retakeMem_keepsCurrent (q : Nat) (len : BitVec 32) (file : Buffer)
    (input : Option Buffer) (environment : CacheEnvironment) :
    KeepsCurrent afl ((afl.trimmed q len file).queueTestcaseRetakeMem q input
      len (afl.entries q).len environment) := by
  unfold queueTestcaseRetakeMem
  split
  · exact trimmed_keepsCurrent q len file
  · exact replaceBuffer_keepsCurrent q len file _ _

theorem CacheInvariant.addToQueue (invariant : CacheInvariant fits afl)
    (len : BitVec 32) (file : Buffer) :
    CacheInvariant fits (afl.addToQueue len file) := by
  have old : ∀ id < afl.queuedPaths,
      (afl.addToQueue len file).entries id = afl.entries id := by
    intro id queued
    have different : id ≠ afl.queuedPaths := by omega
    simp [TestcaseCache.addToQueue, different]
  constructor
  · intro tid id found
    obtain ⟨used, queued, cached⟩ := invariant.inside tid id found
    refine ⟨used, Nat.lt_succ_of_lt queued, ?_⟩
    rw [old id queued]
    exact cached
  · intro id queued cached
    have bound : id < afl.queuedPaths + 1 := queued
    by_cases new : id = afl.queuedPaths
    · subst id
      simp [TestcaseCache.addToQueue] at cached
    · rw [old id (by omega)] at cached
      exact invariant.slot id (by omega) cached
  · exact invariant.unique
  · exact invariant.learned
  · exact invariant.written
  · exact invariant.allocated
  · exact invariant.empty
  · exact invariant.room
  · have length : (afl.addToQueue len file).cachedLength = afl.cachedLength := by
      have bound : (afl.addToQueue len file).queuedPaths = afl.queuedPaths + 1 := rfl
      unfold cachedLength
      rw [bound, Finset.sum_range_succ]
      have last : cachedLen
          ((afl.addToQueue len file).entries afl.queuedPaths) = 0 := by
        simp [TestcaseCache.addToQueue, cachedLen]
      rw [last, Nat.add_zero]
      apply Finset.sum_congr rfl
      intro id queued
      rw [old id (Finset.mem_range.mp queued)]
    rw [length]
    exact invariant.cacheSize
  · exact invariant.cacheCount
  · exact invariant.smallestFree

/-- What the callers and the system have to provide: only an entry that is not
cached is stored, and `realloc` finds memory for a trimmed test case. -/
def StepMeets (afl : TestcaseCache) : CacheOp → Prop
  | .storeMem q _ _ => q < afl.queuedPaths → (afl.entries q).testcaseBuf = none
  | .retakeMem q len _ _ environment => q < afl.queuedPaths →
      (afl.entries q).testcaseBuf.isSome = true →
        len ≠ (afl.entries q).len → environment.allocates = true
  | _ => True

/-- Every operation of a run meets its condition. -/
def MeetsAll (afl : TestcaseCache) : List CacheOp → Prop
  | [] => True
  | op :: ops => afl.StepMeets op ∧ ∀ next, afl.step op = .ok next → next.MeetsAll ops

theorem yields_snd {Value : Type} {call : Except CacheFailure (Value × TestcaseCache)}
    (yields : Yields allowed (fun result => post result.2) call) :
    Yields allowed post (call.map Prod.snd) := by
  cases call with
  | error failure => exact yields
  | ok result => exact yields

theorem yields_onEntry {call : Except CacheFailure TestcaseCache} (unchanged : post afl)
    (yields : q < afl.queuedPaths → Yields allowed post call) :
    Yields allowed post (afl.onEntry q call) := by
  unfold onEntry
  split
  · rename_i queued
    exact yields queued
  · exact unchanged

section

variable (invariant : CacheInvariant fits afl)
include invariant

theorem CacheInvariant.step (op : CacheOp) (meets : afl.StepMeets op) :
    Yields (Allowed fits) (CacheInvariant fits) (afl.step op) := by
  cases op with
  | addToQueue len file => exact invariant.addToQueue len file
  | fuzz queueCur =>
      exact invariant.of_sameSlots
        ⟨rfl, rfl, rfl, rfl, rfl, rfl, rfl, fun _ => rfl⟩ invariant.cacheSize
  | get q environment =>
      exact yields_onEntry invariant fun queued => yields_snd
        ((invariant.queueTestcaseGet queued environment).mono fun _ kept => kept.1)
  | storeMem q mem environment =>
      exact yields_onEntry invariant fun queued =>
        invariant.queueTestcaseStoreMem queued (meets queued) mem environment
  | retake q len file environment =>
      exact yields_onEntry invariant fun queued =>
        (invariant.retake queued len file environment).mono
          fun _ kept => kept.1
  | retakeMem q len file input environment =>
      exact yields_onEntry invariant fun queued =>
        invariant.retakeMem queued len file input environment (meets queued)

theorem CacheInvariant.step_keepsCurrent {op : CacheOp} {next : TestcaseCache}
    (stepped : afl.step op = .ok next) :
    KeepsCurrent afl next := by
  have same : KeepsCurrent afl afl := fun _ _ _ cached => cached
  have kept : Yields (fun _ => True) (KeepsCurrent afl) (afl.step op) := by
    cases op with
    | addToQueue len file =>
        intro id queued _ cached
        have old : id ≠ afl.queuedPaths := by omega
        simp [TestcaseCache.addToQueue, old, cached]
    | fuzz queueCur => exact same
    | get q environment =>
        exact yields_onEntry same fun queued => yields_snd
          ((invariant.queueTestcaseGet queued environment).mono
            fun _ kept => kept.2).anyFailure
    | storeMem q mem environment =>
        exact yields_onEntry same fun _ =>
          queueTestcaseStoreMem_keepsCurrent q mem environment
    | retake q len file environment =>
        exact yields_onEntry same fun queued =>
          ((invariant.retake queued len file environment).mono
            fun _ kept => kept.2).anyFailure
    | retakeMem q len file input environment =>
        exact yields_onEntry same fun _ =>
          retakeMem_keepsCurrent q len file input environment
  rw [stepped] at kept
  exact kept

theorem CacheInvariant.run (ops : List CacheOp) (meets : afl.MeetsAll ops) :
    Yields (Allowed fits) (CacheInvariant fits) (afl.run ops) := by
  induction ops generalizing afl with
  | nil => exact invariant
  | cons op ops induction =>
      obtain ⟨first, rest⟩ := meets
      have stepped := invariant.step op first
      unfold TestcaseCache.run
      cases result : afl.step op with
      | error failure =>
          rw [result] at stepped
          exact stepped
      | ok next =>
          rw [result] at stepped
          exact induction stepped (rest next result)

end

/-- `ck_alloc` provides all the slots asked for. -/
def WholeArray (limits : CacheLimits) : Prop :=
  limits.maxCacheEntries ≠ 0#32 ∧ limits.maxCacheEntries.toNat < 2 ^ 29

theorem start_invariant (limits : CacheLimits) :
    CacheInvariant (WholeArray limits) limits.start := by
  have small := limits.maxCacheEntries.isLt
  constructor
  · intro tid id none
    cases none
  · intro id queued
    cases queued
  · intro tid other id none
    cases none
  · exact Nat.zero_le _
  · exact Nat.zero_le _
  · exact Nat.div_le_div_right limits.allocated
  · intro none
    change limits.maxCacheEntries = 0#32 at none
    change pointerBytes limits.maxCacheEntries / 8 = 0
    rw [none]
    rfl
  · rintro ⟨nonempty, below⟩
    refine ⟨nonempty, ?_⟩
    change limits.maxCacheEntries.toNat ≤ pointerBytes limits.maxCacheEntries / 8
    unfold pointerBytes
    omega
  · rfl
  · have none : limits.start.occupied = 0 := by
      unfold occupied
      rw [Nat.count_iff_forall_not]
      intro tid _ used
      cases used
    rw [none]
    rfl
  · intro tid _
    exact Nat.zero_le _

/-- The bookkeeping of the cache is right. -/
structure Consistent (afl : TestcaseCache) : Prop where
  cacheSize : afl.cacheSize.toNat = afl.cachedLength
  cacheCount : afl.cacheCount.toNat = afl.occupied
  slot : ∀ id < afl.queuedPaths,
    (afl.entries id).testcaseBuf.isSome = true ↔ ∃! tid, afl.cache tid = some id
  below : ∀ tid id, afl.cache tid = some id → tid < afl.maxCacheEntries.toNat
  smallestFree : ∀ tid, afl.cache tid = none → afl.smallestFree.toNat ≤ tid
  current : ∀ op next, afl.step op = .ok next → KeepsCurrent afl next

theorem CacheInvariant.consistent (invariant : CacheInvariant fits afl) :
    afl.Consistent := by
  refine ⟨invariant.cacheSize_toNat, invariant.cacheCount_toNat, ?_, ?_,
    invariant.smallestFree, fun _ _ => invariant.step_keepsCurrent⟩
  · intro id queued
    constructor
    · intro cached
      obtain ⟨tid, found⟩ := invariant.slot id queued cached
      exact ⟨tid, found, fun other alsoFound =>
        invariant.unique other tid id alsoFound found⟩
    · rintro ⟨tid, found, _⟩
      exact (invariant.inside tid id found).2.2
  · intro tid id found
    exact Nat.lt_of_lt_of_le (invariant.inside tid id found).1
      invariant.learned

/-- In a run whose operations all meet their condition, the bookkeeping is right
in the state reached, and the array is not left unless it is too short. -/
theorem run_consistent (limits : CacheLimits) (ops : List CacheOp)
    (meets : limits.start.MeetsAll ops) :
    match limits.start.run ops with
    | .error failure => failure = .badAccess →
        limits.maxCacheEntries = 0#32 ∨ 2 ^ 29 ≤ limits.maxCacheEntries.toNat
    | .ok reached => reached.Consistent := by
  have reached := (start_invariant limits).run ops meets
  cases result : limits.start.run ops with
  | error failure =>
      rw [result] at reached
      intro bad
      have short := reached bad
      by_contra whole
      rw [not_or, Nat.not_le] at whole
      exact short whole
  | ok afl =>
      rw [result] at reached
      exact reached.consistent

/-- Room for two entries, of which one stays free. -/
def twoSlots : CacheLimits :=
  { maxCacheSize := 52428800#64
    maxCacheEntries := 2#32
    enough := .inr (by decide)
    allocated := by decide }

/-- An entry of five bytes is loaded, trimmed to four, and evicted for an entry
of three. -/
def trimAndEvict (allocates : Bool) : List CacheOp :=
  [.addToQueue 5#32 fun _ => 1#8, .addToQueue 3#32 fun _ => 2#8,
    .get 0 ⟨[], true, true⟩,
    .retakeMem 0 4#32 (fun _ => 1#8) none ⟨[], allocates, true⟩,
    .get 1 ⟨[0], true, true⟩]

theorem run_consistent_trimAndEvict :
    twoSlots.start.MeetsAll (trimAndEvict true) ∧
      match twoSlots.start.run (trimAndEvict true) with
      | .error failure => failure = .badAccess →
          twoSlots.maxCacheEntries = 0#32 ∨ 2 ^ 29 ≤ twoSlots.maxCacheEntries.toNat
      | .ok reached => reached.Consistent := by
  have meets : twoSlots.start.MeetsAll (trimAndEvict true) :=
    ⟨trivial, fun _ _ => ⟨trivial, fun _ _ => ⟨trivial, fun _ _ =>
      ⟨fun _ _ _ => rfl, fun _ _ => ⟨trivial, fun _ _ => trivial⟩⟩⟩⟩⟩
  exact ⟨meets, run_consistent twoSlots (trimAndEvict true) meets⟩

/-- Without memory from `realloc` the entry shrinks and the size does not, so
that one byte too many is counted from then on. -/
theorem run_consistent_fails_without_memory :
    ∃ reached, twoSlots.start.run (trimAndEvict false) = .ok reached ∧
      reached.cacheSize.toNat = 4 ∧ reached.cachedLength = 3 := by
  refine ⟨_, rfl, ?_, ?_⟩
  · decide
  · decide

end TestcaseCache

end AFLPlusPlus
