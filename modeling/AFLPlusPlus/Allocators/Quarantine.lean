import AFLPlusPlus.Support.BoundedFifo
import AFLPlusPlus.Support.Transitions

/-!
# The quarantine of libqasan

Chunks that the program frees are linked into a list, and the oldest ones should
go back to the backend when the list grows too large.  Nothing is ever added to
the size of the list or made its end, so a chunk that was linked stays there.
-/

namespace AFLPlusPlus.Libqasan

def quarantineMaxBytes : BitVec 64 := 52428800#64

/-- `sizeof(struct chunk_begin)` -/
def chunkBeginSize : Nat := 4 * 8 + 128

def tmpZoneSize : Nat := 4096

/-- `struct chunk_begin` without its redzone; a pointer that is `NULL` is 0. -/
structure Chunk where
  requestedSize : BitVec 64
  alignedOrig : Nat
  next : Nat
  prev : Nat

/-- A chunk that was freed: its size, and what the backend gave for it. -/
structure Freed where
  chunk : Nat
  size : BitVec 64
  origin : Nat
  deriving DecidableEq

/-- The chunks and the quarantine; and what the program has in use and has freed,
and what went back to the backend. -/
structure State where
  chunks : Nat → Chunk
  quarantineTop : Nat
  quarantineEnd : Nat
  quarantineBytes : BitVec 64
  locked : Bool
  live : List Nat
  freed : List Freed
  released : List Nat

inductive Move
  | malloc (p : Nat) (size : BitVec 64)
  | posixMemalign (p orig : Nat) (len : BitVec 64)
  | free (ptr : Nat)

/-- What the backend gave for a chunk. -/
def origin (state : State) (p : Nat) : Nat :=
  if (state.chunks p).alignedOrig ≠ 0 then (state.chunks p).alignedOrig else p

def backendFree (p : Nat) (state : State) : State :=
  { state with released := state.released ++ [origin state p] }

def updateChunk (chunks : Nat → Chunk) (p : Nat) (change : Chunk → Chunk) :
    Nat → Chunk := fun q =>
  if q = p then change (chunks q) else chunks q

/-- The loop of `quanratine_push`, for some rounds at most; `none` where it reads
through `NULL`. -/
def evict (size : BitVec 64) : Nat → State → Option State
  | 0, _ => none
  | rounds + 1, state =>
      if quarantineMaxBytes ≤ size + state.quarantineBytes then
        let tmp := state.quarantineEnd
        if tmp = 0 then none
        else
          evict size rounds (backendFree tmp { state with
            quarantineEnd := (state.chunks tmp).prev
            quarantineBytes :=
              state.quarantineBytes - (state.chunks tmp).requestedSize })
      else some state

section Steps

variable (tmpZone rounds : Nat)

def quanratinePush (ck : Nat) (state : State) : Option (Bool × State) :=
  let size := (state.chunks ck).requestedSize
  if quarantineMaxBytes ≤ size then some (false, state)
  else if state.locked then some (false, state)
  else
    (evict size rounds { state with locked := true }).map fun state =>
      let chunks := updateChunk state.chunks ck fun chunk =>
        { chunk with next := state.quarantineTop }
      (true, { state with
        chunks :=
          if state.quarantineTop ≠ 0 then
            updateChunk chunks state.quarantineTop fun chunk =>
              { chunk with prev := ck }
          else chunks
        quarantineTop := ck
        locked := false })

/-- `__libqasan_free` on a pointer to a chunk in use. -/
def libqasanFree (ptr : Nat) (state : State) : Option State :=
  if ptr = 0 then some state
  else if tmpZone ≤ ptr ∧ ptr < tmpZone + tmpZoneSize then some state
  else
    let p := ptr - chunkBeginSize
    if p ∈ state.live then
      let freed : Freed := ⟨p, (state.chunks p).requestedSize, origin state p⟩
      (quanratinePush rounds p { state with
        live := state.live.erase p
        freed := state.freed ++ [freed] }).map fun (pushed, state) =>
          if pushed then state else backendFree p state
    else none

/-- A chunk of the choice of the backend. -/
def step (move : Move) (state : State) : Option State :=
  match move with
  | .malloc p size =>
      if p = 0 then none
      else
        some { state with
          chunks := updateChunk state.chunks p fun _ =>
            { requestedSize := size, alignedOrig := 0, next := 0, prev := 0 }
          live := p :: state.live }
  | .posixMemalign p orig len =>
      if p = 0 then none
      else
        some { state with
          chunks := updateChunk state.chunks p fun chunk =>
            { chunk with requestedSize := len, alignedOrig := orig }
          live := p :: state.live }
  | .free ptr => libqasanFree tmpZone rounds ptr state

end Steps

def start (chunks : Nat → Chunk) : State where
  chunks := chunks
  quarantineTop := 0
  quarantineEnd := 0
  quarantineBytes := 0
  locked := false
  live := []
  freed := []
  released := []

/-- A bounded queue of the chunks that were freed. -/
def quarantine (freed : List Freed) : BoundedFifo Freed :=
  BoundedFifo.offers (fun chunk => chunk.size.toNat) quarantineMaxBytes.toNat
    freed

/-- The quarantine is a bounded queue. -/
structure IsFifo (state : State) : Prop where
  bytes : state.quarantineBytes.toNat =
    BoundedFifo.load (fun chunk => chunk.size.toNat)
      (quarantine state.freed).queue
  limit : state.quarantineBytes < quarantineMaxBytes
  oldest : state.quarantineEnd =
    ((quarantine state.freed).queue.head?.map Freed.chunk).getD 0
  released : state.released = (quarantine state.freed).released.map Freed.origin

/-- Only chunks that are too large for the quarantine go back to the backend. -/
structure Invariant (state : State) : Prop where
  end_ : state.quarantineEnd = 0
  bytes : state.quarantineBytes = 0
  unlocked : state.locked = false
  live : ∀ p ∈ state.live, p ≠ 0
  freed : ∀ chunk ∈ state.freed, chunk.chunk ≠ 0
  released : state.released =
    (state.freed.filter fun chunk =>
      decide (quarantineMaxBytes ≤ chunk.size)).map Freed.origin

theorem evict_nothing {size : BitVec 64} {state : State} (rounds : Nat)
    (bytes : state.quarantineBytes = 0)
    (small : ¬quarantineMaxBytes ≤ size) :
    evict size (rounds + 1) state = some state := by
  have same : size + 0 = size := BitVec.add_zero size
  rw [evict, bytes, same, if_neg small]

section Free

variable {tmpZone : Nat} {state next : State}

/-- Freeing a chunk in use returns, and keeps what is known. -/
theorem libqasanFree_spec (rounds : Nat) (invariant : Invariant state)
    {ptr : Nat} (nonnull : ptr ≠ 0)
    (allocated : ¬(tmpZone ≤ ptr ∧ ptr < tmpZone + tmpZoneSize))
    (member : ptr - chunkBeginSize ∈ state.live) :
    ∃ next, libqasanFree tmpZone (rounds + 1) ptr state = some next ∧
      Invariant next := by
  rw [libqasanFree, if_neg nonnull, if_neg allocated]
  simp only [member, if_true]
  have live : ∀ p ∈ state.live.erase (ptr - chunkBeginSize), p ≠ 0 :=
    fun p inside => invariant.live p (List.mem_of_mem_erase inside)
  have freed : ∀ chunk ∈ state.freed ++
      [⟨ptr - chunkBeginSize, (state.chunks (ptr - chunkBeginSize)).requestedSize,
        origin state (ptr - chunkBeginSize)⟩], chunk.chunk ≠ 0 := by
    intro chunk inside
    rcases List.mem_append.mp inside with older | last
    · exact invariant.freed chunk older
    · rw [List.mem_singleton.mp last]
      exact invariant.live _ member
  rw [quanratinePush]
  by_cases large : quarantineMaxBytes ≤
      (state.chunks (ptr - chunkBeginSize)).requestedSize
  · simp only [large, if_true, Option.map_some]
    refine ⟨_, rfl, invariant.end_, invariant.bytes, invariant.unlocked, live,
      freed, ?_⟩
    simp only [Bool.false_eq_true, if_false, backendFree]
    rw [invariant.released, List.filter_append, List.map_append]
    simp [large, origin]
  · simp only [large, if_false, invariant.unlocked, Bool.false_eq_true]
    rw [evict_nothing rounds (by exact invariant.bytes) large]
    refine ⟨_, rfl, invariant.end_, invariant.bytes, rfl, live, freed, ?_⟩
    simp only [if_true]
    rw [invariant.released, List.filter_append, List.map_append]
    simp [large]

theorem Invariant.step (rounds : Nat) (invariant : Invariant state)
    {move : Move}
    (stepped : step tmpZone (rounds + 1) move state = some next) :
    Invariant next := by
  have allocated : ∀ p chunks, p ≠ 0 →
      Invariant { state with chunks := chunks, live := p :: state.live } := by
    intro p chunks nonzero
    refine { invariant with live := ?_ }
    intro q inside
    rcases List.mem_cons.mp inside with rfl | older
    · exact nonzero
    · exact invariant.live q older
  cases move with
  | malloc p size =>
      simp only [Libqasan.step] at stepped
      split at stepped
      · cases stepped
      · rename_i nonzero
        cases stepped
        exact allocated p _ nonzero
  | posixMemalign p orig len =>
      simp only [Libqasan.step] at stepped
      split at stepped
      · cases stepped
      · rename_i nonzero
        cases stepped
        exact allocated p _ nonzero
  | free ptr =>
      change libqasanFree tmpZone (rounds + 1) ptr state = some next at stepped
      by_cases null : ptr = 0
      · rw [libqasanFree, if_pos null] at stepped
        cases stepped
        exact invariant
      · by_cases static : tmpZone ≤ ptr ∧ ptr < tmpZone + tmpZoneSize
        · rw [libqasanFree, if_neg null, if_pos static] at stepped
          cases stepped
          exact invariant
        · by_cases member : ptr - chunkBeginSize ∈ state.live
          · obtain ⟨next', returns, holds⟩ :=
              libqasanFree_spec rounds invariant null static member
            cases stepped.symm.trans returns
            exact holds
          · rw [libqasanFree, if_neg null, if_neg static] at stepped
            simp only [member, if_false, reduceCtorEq] at stepped

end Free

theorem Invariant.isFifo_iff {state : State} (invariant : Invariant state) :
    IsFifo state ↔ ∀ chunk ∈ state.freed, quarantineMaxBytes ≤ chunk.size := by
  constructor
  · intro isFifo chunk member
    by_contra small
    have nonempty : (quarantine state.freed).queue ≠ [] :=
      BoundedFifo.queue_ne_nil ⟨chunk, member, Nat.lt_of_not_le small⟩
    obtain ⟨oldest, rest, isQueue⟩ := List.exists_cons_of_ne_nil nonempty
    have queued : oldest ∈ (quarantine state.freed).released ++
        (quarantine state.freed).queue := by
      rw [isQueue]
      exact List.mem_append_right _ List.mem_cons_self
    have isEnd := isFifo.oldest
    rw [invariant.end_, isQueue] at isEnd
    exact invariant.freed oldest
      ((BoundedFifo.offers_perm state.freed).mem_iff.mp queued) isEnd.symm
  · intro large
    have empty : quarantine state.freed = ⟨[], state.freed⟩ :=
      BoundedFifo.offers_large large
    refine ⟨?_, ?_, ?_, ?_⟩
    · rw [invariant.bytes, empty]
      rfl
    · rw [invariant.bytes]
      decide
    · rw [invariant.end_, empty]
      rfl
    · rw [invariant.released, empty, List.filter_eq_self.mpr]
      intro chunk member
      exact decide_eq_true (large chunk member)

/-- After every run the quarantine is a bounded queue exactly if no chunk was
small enough for it. -/
theorem run_isFifo_iff (tmpZone rounds : Nat) {chunks : Nat → Chunk}
    {moves : List Move} {reached : State}
    (runs : runMoves (step tmpZone (rounds + 1)) moves (start chunks) = some reached) :
    IsFifo reached ↔ ∀ chunk ∈ reached.freed, quarantineMaxBytes ≤ chunk.size := by
  have started : Invariant (start chunks) := ⟨rfl, rfl, rfl, nofun, nofun, rfl⟩
  have invariant := runMoves_invariant Invariant
    (fun _ _ _ holds stepped => holds.step rounds stepped) started runs
  exact invariant.isFifo_iff

def noChunks : Nat → Chunk := fun _ => ⟨0, 0, 0, 0⟩

theorem run_isFifo_iff_large :
    ∃ reached,
      runMoves (step 0 1) [.malloc 8192 52428800#64, .free 8352]
          (start noChunks) = some reached ∧
      (IsFifo reached ↔ ∀ chunk ∈ reached.freed, quarantineMaxBytes ≤ chunk.size) := by
  have runs : ∃ reached,
      runMoves (step 0 1) [.malloc 8192 52428800#64, .free 8352]
          (start noChunks) = some reached := ⟨_, rfl⟩
  obtain ⟨reached, runs⟩ := runs
  exact ⟨reached, runs, run_isFifo_iff 0 0 runs⟩

/-- A chunk of 16 bytes is freed: it is not the end of the quarantine. -/
theorem run_smallChunk :
    ∃ reached,
      runMoves (step 0 1) [.malloc 8192 16#64, .free 8352] (start noChunks) =
        some reached ∧
      reached.quarantineTop = 8192 ∧ reached.quarantineEnd = 0 ∧
      reached.quarantineBytes = 0 ∧ ¬IsFifo reached := by
  refine ⟨_, rfl, rfl, rfl, rfl, fun isFifo => ?_⟩
  have isEnd := isFifo.oldest
  exact absurd isEnd (by decide)

end AFLPlusPlus.Libqasan
