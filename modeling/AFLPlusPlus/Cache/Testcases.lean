import AFLPlusPlus.Config
import AFLPlusPlus.Support.Buffer
import AFLPlusPlus.Support.Counting
import AFLPlusPlus.Support.Loops

/-!
# The test case cache

The contents of queue entries are kept in memory up to a total size and up to a
number of entries, in an array of slots.  The prefix `q_testcase_` of the fields
is left out, and a pointer to a queue entry is its index in the queue.
-/

namespace AFLPlusPlus

/-- The part of a queue entry behind the cache: its length, the file it comes
from, and its contents while they are in memory. -/
structure CachedEntry where
  len : BitVec 32
  file : Buffer
  testcaseBuf : Option Buffer

/-- The cache.  Of the array `q_testcase_cache` the first `slots` elements are
allocated and have been written. -/
structure TestcaseCache where
  entries : Nat → CachedEntry
  queuedPaths : Nat
  queueCur : Option Nat
  maxCacheSize : BitVec 64
  maxCacheEntries : BitVec 32
  cacheSize : BitVec 64
  maxCacheCount : BitVec 32
  cacheCount : BitVec 32
  smallestFree : BitVec 32
  evictions : BitVec 32
  cache : Nat → Option Nat
  slots : Nat
  /-- the static variable `do_once` of `queue_testcase_get` -/
  doOnce : Bool

/-- Why a call does not return: an access outside the written part of the array,
a fatal error, or a loop that never finds an entry to evict. -/
inductive CacheFailure where
  | badAccess
  | fatal
  | endless
  deriving DecidableEq, Repr

/-- What a call meets: the random numbers it draws, whether memory is available,
and whether the file can be read. -/
structure CacheEnvironment where
  random : List Nat
  allocates : Bool
  opens : Bool

def maxAlloc : Nat := 0x40000000

/-- The number of bytes of an array of pointers, as the parameter of type `u32`
of `ck_alloc` and `ck_realloc` receives it. -/
def pointerBytes (count : BitVec 32) : Nat := count.toNat * 8 % 2 ^ 32

/-- `rand_below`, with the number drawn. -/
def randBelow (limit : BitVec 32) (drawn : Nat) : Nat :=
  if limit ≤ 1#32 then 0 else drawn % limit.toNat

namespace TestcaseCache

/-- An assignment to fields of one queue entry. -/
def modify (afl : TestcaseCache) (id : Nat)
    (change : CachedEntry → CachedEntry) : TestcaseCache :=
  { afl with
    entries := Function.update afl.entries id (change (afl.entries id)) }

/-- The cache has no room for another `len` bytes. -/
def sizeReached (afl : TestcaseCache) (len : BitVec 32) : Bool :=
  decide (afl.maxCacheSize ≤ afl.cacheSize + len.setWidth 64)

def full (afl : TestcaseCache) (len : BitVec 32) : Bool :=
  afl.sizeReached len || decide (afl.maxCacheEntries - 1#32 ≤ afl.cacheCount)

/-- The maximum number of entries that is learned. -/
def learnedEntries (afl : TestcaseCache) : BitVec 32 :=
  if afl.cacheCount < afl.maxCacheCount then afl.maxCacheCount + 1#32
  else afl.cacheCount + 1#32

/-- The number of slots that are left of the array by `ck_realloc`. -/
def learnedSlots (afl : TestcaseCache) : Nat :=
  min afl.slots (pointerBytes (afl.learnedEntries + 1#32) / 8)

/-- Once the cache is filled by size, its number of entries is the maximum. -/
def learnEntries (afl : TestcaseCache) (len : BitVec 32) :
    Except CacheFailure TestcaseCache :=
  if afl.sizeReached len = true ∧
      (afl.cacheCount < afl.maxCacheEntries ∧
        afl.maxCacheCount < afl.maxCacheEntries) ∧
      afl.doOnce = false then
    if maxAlloc < pointerBytes (afl.learnedEntries + 1#32) then .error .fatal
    else .ok
      { afl with
        maxCacheEntries := afl.learnedEntries
        doOnce := true
        slots := afl.learnedSlots
        cache := fun tid =>
          if tid < afl.learnedSlots then afl.cache tid else none }
  else .ok afl

/-- A random slot with an entry that is not in use, its entry, and the random
numbers that are left. -/
def randomVictim (afl : TestcaseCache) :
    List Nat → Except CacheFailure (Nat × Nat × List Nat)
  | [] => .error .endless
  | drawn :: random =>
      let tid := randBelow afl.maxCacheCount drawn
      if tid < afl.slots then
        match afl.cache tid with
        | none => afl.randomVictim random
        | some oldCached =>
            if afl.queueCur = some oldCached then afl.randomVictim random
            else .ok (tid, oldCached, random)
      else .error .badAccess

/-- Forget the contents of an entry and free its slot. -/
def evict (afl : TestcaseCache) (tid oldCached : Nat) : TestcaseCache :=
  { afl.modify oldCached fun entry => { entry with testcaseBuf := none } with
    cacheSize := afl.cacheSize - (afl.entries oldCached).len.setWidth 64
    cache := Function.update afl.cache tid none
    cacheCount := afl.cacheCount - 1#32
    evictions := afl.evictions + 1#32
    smallestFree :=
      if BitVec.ofNat 32 tid < afl.smallestFree then BitVec.ofNat 32 tid
      else afl.smallestFree }

/-- The loop that evicts entries until `len` bytes fit, with the slot `tid` that
was freed last.  Every round draws a number at least. -/
def makeRoom (len : BitVec 32) :
    Nat → List Nat → Nat → TestcaseCache → Except CacheFailure (Nat × TestcaseCache)
  | 0, _, _, _ => .error .endless
  | fuel + 1, random, tid, afl =>
      if afl.full len then do
        let learned ← afl.learnEntries len
        let victim ← learned.randomVictim random
        makeRoom len fuel victim.2.2 victim.1
          (learned.evict victim.1 victim.2.1)
      else .ok (tid, afl)

/-- The scan for a free slot, upwards from `tid`. -/
def findFree (afl : TestcaseCache) : Nat → Nat → Except CacheFailure Nat
  | 0, _ => .error .badAccess
  | fuel + 1, tid =>
      if tid < afl.slots then
        match afl.cache tid with
        | none => .ok tid
        | some _ => afl.findFree fuel (tid + 1)
      else .error .badAccess

def register (afl : TestcaseCache) (q tid : Nat) (buf : Buffer) :
    TestcaseCache :=
  { afl.modify q fun entry => { entry with testcaseBuf := some buf } with
    cache := Function.update afl.cache tid (some q)
    cacheSize := afl.cacheSize + (afl.entries q).len.setWidth 64
    cacheCount := afl.cacheCount + 1#32
    maxCacheCount :=
      if afl.maxCacheCount ≤ BitVec.ofNat 32 tid then
        BitVec.ofNat 32 tid + 1#32
      else afl.maxCacheCount
    smallestFree :=
      if afl.maxCacheCount ≤ BitVec.ofNat 32 tid then afl.smallestFree
      else if BitVec.ofNat 32 tid = afl.smallestFree then
        BitVec.ofNat 32 tid + 1#32
      else afl.smallestFree }

def queueTestcaseGet (afl : TestcaseCache) (q : Nat)
    (environment : CacheEnvironment) :
    Except CacheFailure (Buffer × TestcaseCache) :=
  if afl.maxCacheSize = 0#64 then
    if environment.allocates = true ∧ environment.opens = true then
      .ok ((afl.entries q).file, afl)
    else .error .fatal
  else
    match (afl.entries q).testcaseBuf with
    | some testcaseBuf => .ok (testcaseBuf, afl)
    | none => do
        let room ← makeRoom (afl.entries q).len
          (environment.random.length + 1) environment.random
          afl.maxCacheCount.toNat afl
        let tid ← room.2.findFree (room.2.slots + 1)
          (if room.2.maxCacheEntries.toNat ≤ room.1 then
            room.2.smallestFree.toNat
          else room.1)
        if environment.allocates = true ∧ environment.opens = true then
          .ok ((afl.entries q).file, room.2.register q tid (afl.entries q).file)
        else .error .fatal

def queueTestcaseStoreMem (afl : TestcaseCache) (q : Nat) (mem : Buffer)
    (environment : CacheEnvironment) : Except CacheFailure TestcaseCache :=
  if afl.full (afl.entries q).len then .ok afl
  else do
    let tid ← afl.findFree (afl.slots + 1)
      (if afl.maxCacheEntries ≤ afl.maxCacheCount then afl.smallestFree.toNat
      else afl.maxCacheCount.toNat)
    if environment.allocates = true then .ok (afl.register q tid mem)
    else .error .fatal

/-- The new size of the cache after a cached entry has changed its length. -/
def resized (afl : TestcaseCache) (len oldLen : BitVec 32) : BitVec 64 :=
  afl.cacheSize + len.setWidth 64 - oldLen.setWidth 64

/-- Give a cached entry another buffer, with the new size of the cache. -/
def replaceBuffer (afl : TestcaseCache) (q : Nat) (testcaseBuf : Buffer)
    (cacheSize : BitVec 64) : TestcaseCache :=
  { afl.modify q fun entry =>
      { entry with testcaseBuf := some testcaseBuf } with cacheSize }

/-- `queue_testcase_retake`: the new contents are in the file. -/
def queueTestcaseRetake (afl : TestcaseCache) (q : Nat) (oldLen : BitVec 32)
    (environment : CacheEnvironment) : Except CacheFailure TestcaseCache :=
  match (afl.entries q).testcaseBuf with
  | none => .ok afl
  | some _ =>
      let len := (afl.entries q).len
      if (len ≠ oldLen → environment.allocates = true) ∧ environment.opens = true then
        .ok (afl.replaceBuffer q (afl.entries q).file
          (if len ≠ oldLen then afl.resized len oldLen else afl.cacheSize))
      else .error .fatal

/-- `memcpy`, of the first `len` bytes. -/
def memcpy (destination source : Buffer) (len : BitVec 32) : Buffer :=
  fun address =>
    if address < len.toNat then source address else destination address

/-- `queue_testcase_retake_mem`.  The new contents are in `input`, or in the
buffer of the entry itself.  Where `realloc` returns NULL, the old buffer and
the old size stay. -/
def queueTestcaseRetakeMem (afl : TestcaseCache) (q : Nat)
    (input : Option Buffer) (len oldLen : BitVec 32)
    (environment : CacheEnvironment) : TestcaseCache :=
  match (afl.entries q).testcaseBuf with
  | none => afl
  | some testcaseBuf =>
      afl.replaceBuffer q
        (match input with
        | none => testcaseBuf
        | some source => memcpy testcaseBuf source len)
        (if len ≠ oldLen ∧ environment.allocates = true then
          afl.resized len oldLen
        else afl.cacheSize)

end TestcaseCache

/-- The limits of a cache as `afl-fuzz` accepts them. -/
structure CacheLimits where
  maxCacheSize : BitVec 64
  maxCacheEntries : BitVec 32
  enough : maxCacheSize = 0#64 ∨ 2 * maxFile ≤ maxCacheSize.toNat
  allocated : pointerBytes maxCacheEntries ≤ maxAlloc

/-- The empty cache, with the array from `ck_alloc`. -/
def CacheLimits.start (limits : CacheLimits) : TestcaseCache :=
  { entries := fun _ => ⟨0#32, fun _ => 0#8, none⟩
    queuedPaths := 0
    queueCur := none
    maxCacheSize := limits.maxCacheSize
    maxCacheEntries := limits.maxCacheEntries
    cacheSize := 0#64
    maxCacheCount := 0#32
    cacheCount := 0#32
    smallestFree := 0#32
    evictions := 0#32
    cache := fun _ => none
    slots := pointerBytes limits.maxCacheEntries / 8
    doOnce := false }

/-- One operation: the queue grows, another entry is fuzzed, or the cache is
used.  The retaking calls come after the length of the entry was set to `len`,
and pass the length it had before. -/
inductive CacheOp where
  | addToQueue (len : BitVec 32) (file : Buffer)
  | fuzz (queueCur : Option Nat)
  | get (q : Nat) (environment : CacheEnvironment)
  | storeMem (q : Nat) (mem : Buffer) (environment : CacheEnvironment)
  | retake (q : Nat) (len : BitVec 32) (file : Buffer)
      (environment : CacheEnvironment)
  | retakeMem (q : Nat) (len : BitVec 32) (file : Buffer)
      (input : Option Buffer) (environment : CacheEnvironment)

namespace TestcaseCache

/-- A new entry of the queue is not cached. -/
def addToQueue (afl : TestcaseCache) (len : BitVec 32) (file : Buffer) :
    TestcaseCache :=
  { afl with
    entries := Function.update afl.entries afl.queuedPaths ⟨len, file, none⟩
    queuedPaths := afl.queuedPaths + 1 }

/-- The trimmed test case is written to its file. -/
def trimmed (afl : TestcaseCache) (q : Nat) (len : BitVec 32)
    (file : Buffer) : TestcaseCache :=
  afl.modify q fun entry => { entry with len, file }

/-- A call for an entry of the queue. -/
def onEntry (afl : TestcaseCache) (q : Nat)
    (call : Except CacheFailure TestcaseCache) :
    Except CacheFailure TestcaseCache :=
  if q < afl.queuedPaths then call else .ok afl

def step (afl : TestcaseCache) : CacheOp → Except CacheFailure TestcaseCache
  | .addToQueue len file => .ok (afl.addToQueue len file)
  | .fuzz queueCur => .ok { afl with queueCur }
  | .get q environment =>
      afl.onEntry q ((afl.queueTestcaseGet q environment).map Prod.snd)
  | .storeMem q mem environment =>
      afl.onEntry q (afl.queueTestcaseStoreMem q mem environment)
  | .retake q len file environment =>
      afl.onEntry q ((afl.trimmed q len file).queueTestcaseRetake q
        (afl.entries q).len environment)
  | .retakeMem q len file input environment =>
      afl.onEntry q (.ok ((afl.trimmed q len file).queueTestcaseRetakeMem q
        input len (afl.entries q).len environment))

/-- A sequence of operations, up to the first call that does not return. -/
def run (afl : TestcaseCache) : List CacheOp → Except CacheFailure TestcaseCache
  | [] => .ok afl
  | op :: ops => afl.step op >>= fun next => next.run ops

end TestcaseCache

end AFLPlusPlus
