import AFLPlusPlus.Allocators.DislocatorBlocks
import Mathlib.Algebra.BigOperators.Group.List.Basic

/-!
# Runs of libdislocator

Calls and stores of the program keep what is known of the blocks in use, and
the accounting.
-/

namespace AFLPlusPlus.Libdislocator

open Buffer

variable {block : Block}

variable {len ret : BitVec 64} {first : Nat}

section Runs

variable {config : Config} {heap heap' : Heap} {live : List Block}

def requested (live : List Block) : Nat := (live.map fun block => block.len.toNat).sum

/-- What is known of the allocator and of the blocks in use. -/
structure Invariant (config : Config) (heap : Heap) (live : List Block) : Prop where
  held : ∀ block ∈ live, Held config heap block
  apart : live.Pairwise (Block.Apart config)
  total : heap.totalMem.toNat = requested live
  limit : heap.totalMem ≤ config.maxMem
  short : ∀ block ∈ live, block.len.toNat < 2 ^ 32

section

variable (invariant : Invariant config heap live)
include invariant

theorem Invariant.perm {other : List Block} (same : live.Perm other) :
    Invariant config heap other where
  held block member := invariant.held block (same.mem_iff.mpr member)
  apart := (same.pairwise_iff fun apart => apart.symm).mp invariant.apart
  total := invariant.total.trans
    (List.Perm.sum_eq (same.map fun block : Block => block.len.toNat))
  limit := invariant.limit
  short block member := invariant.short block (same.mem_iff.mpr member)

theorem Invariant.allocated (allocated : Allocated config heap block heap')
    (short : block.len.toNat < 2 ^ 32) :
    Invariant config heap' (block :: live) := by
  have total : heap'.totalMem.toNat = requested (block :: live) := by
    rw [allocated.total, invariant.total]
    exact Nat.add_comm _ _
  refine ⟨?_, ?_, total, ?_, ?_⟩
  · intro other member
    rcases List.mem_cons.mp member with rfl | older
    · exact allocated.held
    · exact allocated.keeps (invariant.held other older)
  · refine List.pairwise_cons.mpr ⟨fun other member => ?_, invariant.apart⟩
    exact (allocated.apart (invariant.held other member)).symm
  · rw [BitVec.le_def, allocated.total]
    exact allocated.accepted
  · intro other member
    rcases List.mem_cons.mp member with rfl | older
    · exact short
    · exact invariant.short other older

theorem Invariant.acquire (outcome : Outcome config heap len first ret heap')
    (short : ret ≠ 0 → Accepted config heap len.toNat → len.toNat < 2 ^ 32) :
    Invariant config heap' (acquire ret len first live) := by
  unfold Libdislocator.acquire
  rcases outcome with ⟨zero, rfl⟩ | ⟨nonzero, allocated⟩
  · rwa [if_pos zero]
  · rw [if_neg nonzero]
    exact invariant.allocated allocated 
      (short nonzero allocated.accepted)

end

theorem Invariant.freed (invariant : Invariant config heap (block :: live)) :
    Invariant config
      (({ heap with totalMem := heap.totalMem - block.len } : Heap).guarded
        block.first (block.pages config)) live := by
  have apart := List.pairwise_cons.mp invariant.apart
  have total := invariant.total
  have limit := invariant.limit
  have sum : requested (block :: live) = block.len.toNat + requested live := rfl
  rw [BitVec.le_def] at limit
  have rest : (heap.totalMem - block.len).toNat = requested live := by
    rw [BitVec.toNat_sub_of_le (by
      rw [BitVec.le_def]
      omega)]
    omega
  refine ⟨?_, apart.2, rest, ?_, fun other member =>
    invariant.short other (List.mem_cons_of_mem _ member)⟩
  · intro other member
    have held := invariant.held other (List.mem_cons_of_mem _ member)
    have away := apart.1 other member
    unfold Block.Apart at away
    refine held.frame (fun _ _ _ _ => rfl) fun i inside => ?_
    exact if_neg (by omega)
  · rw [BitVec.le_def]
    change (heap.totalMem - block.len).toNat ≤ _
    omega

theorem Invariant.store (invariant : Invariant config heap (block :: live)) {offset : Nat}
    (inside : offset < block.len.toNat) (byte : BitVec 8) :
    Invariant config { heap with
      memory := heap.memory.storeBytes (block.ptr.toNat + offset) [byte] }
      (block :: live) := by
  have held := invariant.held block List.mem_cons_self
  have ends := held.ends
  have rounded := held.rounded
  obtain ⟨starts, _, _⟩ := held.start
  have apart := (List.pairwise_cons.mp invariant.apart).1
  refine ⟨?_, invariant.apart, invariant.total, invariant.limit, invariant.short⟩
  intro other member
  refine (invariant.held other member).frame ?_ fun _ _ => rfl
  intro address from_ before outside
  apply storeBytes_outside
  rw [List.length_singleton]
  rcases List.mem_cons.mp member with rfl | away
  · omega
  · rcases apart other away with low | high
    · have pages := Nat.mul_le_mul_right pageSize (Nat.le_of_lt low)
      omega
    · have pages := Nat.mul_le_mul_right pageSize (Nat.le_of_lt high)
      omega

theorem release_some {ptr : BitVec 64} {rest : List Block}
    (released : release ptr live = some (block, rest)) :
    block.ptr = ptr ∧ live.Perm (block :: rest) := by
  induction live generalizing rest with
  | nil => cases released
  | cons head live induction =>
      unfold release at released
      split at released
      · rename_i found
        cases released
        exact ⟨found, .refl _⟩
      · obtain ⟨⟨found, others⟩, behind, same⟩ := Option.map_eq_some_iff.mp released
        cases same
        obtain ⟨isPtr, perm⟩ := induction behind
        exact ⟨isPtr, (perm.cons head).trans (.swap _ _ _)⟩

/-- Accepted lengths fit the header, and blocks that are freed fit the arithmetic
of `free`. -/
def Move.Fits (config : Config) (state : State) : Move → Prop
  | .malloc len _ =>
      Accepted config state.heap len.toNat → len.toNat < 2 ^ 32
  | .calloc elemLen elemCnt _ =>
      Accepted config state.heap (elemLen.toNat * elemCnt.toNat) →
        elemLen.toNat * elemCnt.toNat < 2 ^ 32
  | .realloc ptr len _ => Accepted config state.heap len.toNat →
      len.toNat < 2 ^ 32 ∧
        ∀ block ∈ state.live, block.ptr = ptr → FreeFits config block
  | .free ptr => ∀ block ∈ state.live, block.ptr = ptr → FreeFits config block
  | .store .. => True

theorem realloc_null (returns : realloc config 0 len first heap = some (ret, heap')) :
    malloc config len first heap = some (ret, heap') := by
  obtain ⟨⟨ret', middle⟩, allocates, rest⟩ := Option.bind_eq_some_iff.mp returns
  simp only [ne_eq, not_true_eq_false, and_false, if_false] at rest
  cases rest
  exact allocates

variable {state next : State}

theorem Invariant.step (bound : config.maxMem.toNat + 2 ^ 20 ≤ 2 ^ 64)
    (invariant : Invariant config state.heap state.live) {move : Move}
    (fits : move.Fits config state)
    (stepped : step config move state = some next) :
    Invariant config next.heap next.live := by
  have limit := invariant.limit
  cases move with
  | malloc len first =>
      obtain ⟨⟨ret, heap'⟩, returns, rfl⟩ := Option.map_eq_some_iff.mp stepped
      exact invariant.acquire (malloc_outcome bound limit returns)
        fun _ => fits
  | calloc elemLen elemCnt first =>
      obtain ⟨⟨ret, heap'⟩, returns, rfl⟩ := Option.map_eq_some_iff.mp stepped
      obtain ⟨outcome, exact_⟩ := calloc_outcome bound limit returns
      apply invariant.acquire outcome
      intro nonzero accepted
      rw [exact_ nonzero] at accepted ⊢
      exact fits accepted
  | realloc ptr len first =>
      simp only [Libdislocator.step] at stepped
      split at stepped
      · obtain ⟨⟨ret, heap'⟩, returns, rfl⟩ := Option.map_eq_some_iff.mp stepped
        exact invariant.acquire
          (malloc_outcome bound limit (realloc_null returns))
          fun _ accepted => (fits accepted).1
      · obtain ⟨⟨block, rest⟩, released, moved⟩ := Option.bind_eq_some_iff.mp stepped
        obtain ⟨⟨ret, heap'⟩, returns, rfl⟩ := Option.map_eq_some_iff.mp moved
        obtain ⟨rfl, perm⟩ := release_some released
        have member := perm.mem_iff.mpr List.mem_cons_self
        have held := invariant.held block member
        rcases realloc_cases bound limit held
          (fun accepted => (fits accepted).2 block member rfl) returns with
          ⟨zero, same⟩ | ⟨nonzero, middle, allocated, _, same⟩
        · rw [same]
          simp only [zero, if_true]
          exact invariant
        · rw [same]
          simp only [nonzero, if_false, Libdislocator.acquire]
          have both := (invariant.perm perm).allocated allocated
            (fits allocated.accepted).1
          exact (both.perm (.swap _ _ _)).freed
  | free ptr =>
      simp only [Libdislocator.step] at stepped
      split at stepped
      · cases stepped
        exact invariant
      · obtain ⟨⟨block, rest⟩, released, freed⟩ := Option.bind_eq_some_iff.mp stepped
        obtain ⟨heap', returns, rfl⟩ := Option.map_eq_some_iff.mp freed
        obtain ⟨rfl, perm⟩ := release_some released
        have member := perm.mem_iff.mpr List.mem_cons_self
        rw [free_held (invariant.held block member) (fits block member rfl)]
          at returns
        cases returns
        exact (invariant.perm perm).freed
  | store ptr offset byte =>
      obtain ⟨⟨block, rest⟩, released, stored⟩ := Option.bind_eq_some_iff.mp stepped
      obtain ⟨rfl, perm⟩ := release_some released
      simp only at stored
      split at stored
      · rename_i inside
        cases stored
        exact ((invariant.perm perm).store inside byte).perm perm.symm
      · cases stored

theorem Held.ptr_ne {other : Block} (held : Held config heap block)
    (otherHeld : Held config heap other) (apart : block.Apart config other) :
    block.ptr ≠ other.ptr := by
  intro same
  have starts := held.start.1
  have otherStarts := otherHeld.start.1
  have ends := held.ends
  have otherEnds := otherHeld.ends
  rw [same] at starts ends
  rcases apart with low | high
  · have pages := Nat.mul_le_mul_right pageSize (Nat.le_of_lt low)
    omega
  · have pages := Nat.mul_le_mul_right pageSize (Nat.le_of_lt high)
    omega

theorem Invariant.release (invariant : Invariant config heap live)
    (member : block ∈ live) :
    ∃ rest, release block.ptr live = some (block, rest) := by
  have held := invariant.held
  have apart := invariant.apart
  clear invariant
  induction live with
  | nil => cases member
  | cons head live induction =>
      have inLive := List.mem_cons.mp member
      obtain ⟨away, apart⟩ := List.pairwise_cons.mp apart
      rw [Libdislocator.release]
      rcases inLive with rfl | behind
      · exact ⟨live, if_pos rfl⟩
      · have other := (held head List.mem_cons_self).ptr_ne
          (held block member) (away block behind)
        obtain ⟨rest, released⟩ := induction behind
          (fun block member => held block (List.mem_cons_of_mem _ member)) apart
        exact ⟨head :: rest, by rw [if_neg other, released]; rfl⟩

/-- The accounting is right, every block in use ends at its guard page, with its
length below it, and `free` and `realloc` do to it what they should. -/
structure Sound (config : Config) (state : State) : Prop where
  total : state.heap.totalMem.toNat = requested state.live
  limit : state.heap.totalMem ≤ config.maxMem
  guarded : ∀ block ∈ state.live,
    block.ptr.toNat + block.rlen config =
        (block.first + block.pages config) * pageSize ∧
      state.heap.pages (block.first + block.pages config) = .noAccess ∧
      ∀ address, block.ptr.toNat - 8 ≤ address →
        address < block.ptr.toNat + block.rlen config →
        block.first ≤ address / pageSize ∧
          state.heap.pages (address / pageSize) = .readWrite
  header : ∀ block ∈ state.live,
    (ptrL state.heap.memory block.ptr).toNat = block.len.toNat
  product : ∀ elemLen elemCnt first next,
    step config (.calloc elemLen elemCnt first) state = some next →
    next.result ≠ 0 → (elemLen * elemCnt).toNat = elemLen.toNat * elemCnt.toNat
  freed : ∀ block ∈ state.live, FreeFits config block →
    ∃ next, step config (.free block.ptr) state = some next ∧
      ∀ page, next.heap.pages page =
        if block.first ≤ page ∧ page < block.first + block.pages config then
          .noAccess
        else state.heap.pages page
  moved : ∀ block ∈ state.live, ∀ len first next,
    (Move.realloc block.ptr len first).Fits config state →
    step config (.realloc block.ptr len first) state = some next →
    (next.result = 0 ∧ next.heap = state.heap ∧ next.live = state.live) ∨
      (next.result ≠ 0 ∧ ⟨next.result, len, first⟩ ∈ next.live ∧
        next.heap.memory.loadBytes next.result.toNat
            (min block.len.toNat len.toNat) =
          state.heap.memory.loadBytes block.ptr.toNat
            (min block.len.toNat len.toNat))

theorem Held.accessible_address (held : Held config heap block) {address : Nat}
    (from_ : block.ptr.toNat - 8 ≤ address)
    (before : address < block.ptr.toNat + block.rlen config) :
    block.first ≤ address / pageSize ∧
      heap.pages (address / pageSize) = .readWrite := by
  have starts := held.start.1
  have low : block.first ≤ address / pageSize :=
    (Nat.le_div_iff_mul_le (by decide)).mpr (by omega)
  have high : address / pageSize < block.first + block.pages config :=
    (Nat.div_lt_iff_lt_mul (by decide)).mpr (held.ends ▸ before)
  have accessible := held.accessible (address / pageSize - block.first)
    (by omega)
  rw [Nat.add_sub_cancel' low] at accessible
  exact ⟨low, accessible⟩

theorem Invariant.sound (bound : config.maxMem.toNat + 2 ^ 20 ≤ 2 ^ 64)
    (invariant : Invariant config state.heap state.live) :
    Sound config state := by
  have limit := invariant.limit
  refine ⟨invariant.total, limit, ?_, ?_, ?_, ?_, ?_⟩
  · intro block member
    have held := invariant.held block member
    exact ⟨held.ends, held.guard, fun address from_ before =>
      held.accessible_address from_ before⟩
  · intro block member
    rw [(invariant.held block member).header, BitVec.toNat_setWidth]
    exact Nat.mod_eq_of_lt (invariant.short block member)
  · intro elemLen elemCnt first next stepped nonzero
    obtain ⟨⟨ret, heap'⟩, returns, rfl⟩ := Option.map_eq_some_iff.mp stepped
    exact (calloc_outcome bound limit returns).2 nonzero
  · intro block member fits
    have held := invariant.held block member
    obtain ⟨rest, released⟩ := invariant.release member
    refine ⟨⟨({ state.heap with
      totalMem := state.heap.totalMem - block.len } : Heap).guarded
        block.first (block.pages config), rest, 0⟩, ?_, fun _ => rfl⟩
    rw [Libdislocator.step, if_neg held.ptr_ne_zero, released,
      Option.bind_some, free_held held fits]
    rfl
  · intro block member len first next fits stepped
    have held := invariant.held block member
    obtain ⟨rest, released⟩ := invariant.release member
    rw [Libdislocator.step, if_neg held.ptr_ne_zero, released,
      Option.bind_some] at stepped
    obtain ⟨⟨ret, heap'⟩, returns, rfl⟩ := Option.map_eq_some_iff.mp stepped
    rcases realloc_cases bound limit held
      (fun accepted => (fits accepted).2 block member rfl) returns with
      ⟨zero, same⟩ | ⟨nonzero, middle, allocated, copied, same⟩
    · exact .inl ⟨zero, same, if_pos zero⟩
    · refine .inr ⟨nonzero, ?_, ?_⟩
      · simp only [nonzero, if_false, Libdislocator.acquire]
        exact List.mem_cons_self
      · rw [same]
        exact copied

/-- Every run in which the lengths fit is sound. -/
theorem run_sound {limitMb : Option (BitVec 64)}
    (accepted : dislocatorInit limitMb = some config.maxMem)
    {memory : Buffer} {pages : Nat → Page} {moves : List Move}
    {reached : State}
    (meet : MovesMeet (step config) (fun before move => move.Fits config before)
      moves (start memory pages))
    (runs : runMoves (step config) moves (start memory pages) = some reached) :
    Sound config reached := by
  have bound := dislocatorInit_bound accepted
  have started : Invariant config (start memory pages).heap
      (start memory pages).live :=
    ⟨nofun, List.Pairwise.nil, rfl, Nat.zero_le _, nofun⟩
  have invariant := runMoves_invariant_of_meets
    (fun state => Invariant config state.heap state.live)
    (fun _ _ _ holds fits stepped => holds.step bound fits stepped) started
    meet runs
  exact invariant.sound bound

end Runs

/-- No alignment, and a limit of so many bytes. -/
def plainConfig (maxMem : BitVec 64) : Config where
  maxMem := maxMem
  hardFail := false
  noCallocOver := false
  alignAllocations := false
  allocCanary := 0xAACCAACC#32

def emptyStart : State := start (fun _ => 0#8) fun _ => .unmapped

def growingMoves : List Move := [.malloc 100#64 1, .realloc 8092#64 200#64 3]

theorem growingMoves_meet :
    MovesMeet (step (plainConfig 0x40000000#64))
      (fun before move => move.Fits (plainConfig 0x40000000#64) before)
      growingMoves emptyStart := by
  refine ⟨fun _ => by decide, ?_⟩
  rintro next stepped
  refine ⟨fun _ => ⟨by decide, ?_⟩, fun _ _ => trivial⟩
  have live : next.live = [⟨8092#64, 100#64, 1⟩] := by
    cases stepped
    rfl
  intro block member _
  rw [live] at member
  obtain rfl := List.mem_singleton.mp member
  change (100 : Nat) + 8 + 4095 < 2 ^ 32
  decide

theorem run_sound_growing :
    ∃ reached,
      runMoves (step (plainConfig 0x40000000#64)) growingMoves emptyStart =
          some reached ∧
      reached.live = [⟨16184#64, 200#64, 3⟩] ∧
      Sound (plainConfig 0x40000000#64) reached := by
  have runs : ∃ reached,
      runMoves (step (plainConfig 0x40000000#64)) growingMoves emptyStart =
          some reached ∧
      reached.live = [⟨16184#64, 200#64, 3⟩] :=
    ⟨_, rfl, rfl⟩
  obtain ⟨reached, runs, live⟩ := runs
  exact ⟨reached, runs, live, @run_sound _ none rfl _ _ _ _ growingMoves_meet runs⟩

/-- The header of a block of 4 GB holds zero: `free` takes nothing off
`total_mem` and protects the first page of the block only. -/
theorem run_longBlock :
    dislocatorInit (some 8192#64) = some 0x200000000#64 ∧
      ∃ reached,
        runMoves (step (plainConfig 0x200000000#64))
            [.malloc 0x100000000#64 1, .free 8192#64] emptyStart =
          some reached ∧
        reached.live = [] ∧ reached.heap.totalMem = 0x100000000#64 ∧
        reached.heap.pages 2 = .readWrite := by
  refine ⟨by decide, ?_⟩
  have limit : emptyStart.heap.totalMem ≤
      (plainConfig 0x200000000#64).maxMem := by decide
  have accepted : Accepted (plainConfig 0x200000000#64) emptyStart.heap
      (0x100000000#64).toNat := show _ ≤ _ by decide
  have room : Room emptyStart.heap 1 (1 + pagesFor
      (roundedLen (plainConfig 0x200000000#64) 0x100000000#64).toNat) :=
    ⟨by decide, by decide, fun _ _ => rfl⟩
  obtain ⟨ret, allocated, allocates, nonzero, _⟩ :=
    (dislocatorAlloc_accepted (by decide) limit accepted 1).2 room
  have returns : ∃ heap,
      malloc (plainConfig 0x200000000#64) 0x100000000#64 1 emptyStart.heap =
        some (ret, heap) := by
    rw [malloc, allocates]
    exact ⟨_, congrArg some (if_pos ⟨nonzero, by decide⟩)⟩
  obtain ⟨heap, returns⟩ := returns
  rcases malloc_outcome (by decide) limit returns with ⟨zero, _⟩ | ⟨_, new⟩
  · exact absurd zero nonzero
  · have held := new.held
    obtain rfl : ret = 8192#64 := by
      apply BitVec.eq_of_toNat_eq
      have ends := held.ends
      have len : ∀ ret, Block.rlen (plainConfig 0x200000000#64)
          ⟨ret, 0x100000000#64, 1⟩ = 4294967296 := fun _ => rfl
      have end_ : ∀ ret, (1 + Block.pages (plainConfig 0x200000000#64)
          ⟨ret, 0x100000000#64, 1⟩) * pageSize = 4294975488 := by
        intro ret
        rw [Block.pages, len]
        decide
      rw [len, end_] at ends
      change ret.toNat + 4294967296 = 4294975488 at ends
      change ret.toNat = 8192
      omega
    have header : ptrL heap.memory 8192#64 = 0#32 := held.header
    have canary := held.canary
    have total := new.total
    have frees : free (plainConfig 0x200000000#64) 8192#64 heap =
        some (({ heap with totalMem := heap.totalMem - 0 } : Heap).guarded 1 1) := by
      rw [free, if_neg (by decide), canary, if_neg (not_not.mpr rfl)]
      simp only [header]
      have exact_ : ¬Rounds (plainConfig 0x200000000#64)
          ((0#32).setWidth 64) := by
        rintro ⟨aligned, _⟩
        cases aligned
      rw [if_neg exact_, Option.bind_some]
      apply mprotect_eq _ 1 (by decide)
      intro i inside
      rw [held.accessible i (Nat.lt_of_lt_of_le inside (by decide))]
      intro same
      cases same
    refine ⟨⟨({ heap with totalMem := heap.totalMem - 0 } : Heap).guarded 1 1,
      [], 0⟩, ?_, rfl, ?_, ?_⟩
    · have allocates : step (plainConfig 0x200000000#64)
          (.malloc 0x100000000#64 1) emptyStart =
            some ⟨heap, [⟨8192#64, 0x100000000#64, 1⟩], 8192#64⟩ := by
        rw [step, returns]
        rfl
      rw [runMoves, allocates]
      simp only [runMoves, step]
      rw [if_neg (by decide), release, if_pos rfl, Option.bind_some, frees]
      rfl
    · apply BitVec.eq_of_toNat_eq
      change (heap.totalMem - 0#64).toNat = _
      rw [BitVec.sub_zero, total]
      rfl
    · have second := held.accessible 1 (by
        rw [Block.pages, Block.rlen]
        decide)
      simp only [Heap.guarded]
      rw [if_neg (by omega)]
      exact second

end AFLPlusPlus.Libdislocator
