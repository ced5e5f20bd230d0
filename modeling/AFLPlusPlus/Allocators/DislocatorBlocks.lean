import AFLPlusPlus.Allocators.Dislocator

/-!
# The blocks of libdislocator

What is known of a block in use, what an allocation makes of the address space,
and that `free` and `realloc` find the pages of a block again, as long as its
length fits the 32 bits that `free` computes with.
-/

namespace AFLPlusPlus.Libdislocator

open Buffer

theorem toNat_small {bits value : Nat} (small : value < 2 ^ bits) :
    (BitVec.ofNat bits value).toNat = value := by
  rw [BitVec.toNat_ofNat, Nat.mod_eq_of_lt small]

theorem toNat_pgCount {bits : Nat} (l : BitVec bits)
    (size : pageSize < 2 ^ bits)
    (fits : l.toNat + (pageSize - 1) < 2 ^ bits) :
    (pgCount l).toNat = (l.toNat + (pageSize - 1)) / pageSize := by
  have one : (1 : BitVec bits).toNat = 1 := toNat_small (Nat.lt_trans (by decide) size)
  have page := toNat_small size
  have last : (BitVec.ofNat bits pageSize - 1).toNat = pageSize - 1 := by
    rw [BitVec.toNat_sub_of_le (by
      rw [BitVec.le_def, one, page]
      decide), one, page]
  rw [pgCount, BitVec.toNat_udiv, page, BitVec.toNat_add_of_lt (by rwa [last]), last]

def pagesFor (rlen : Nat) : Nat := (rlen + 8 + (pageSize - 1)) / pageSize

theorem pagesFor_bounds (rlen : Nat) :
    rlen + 8 ≤ pagesFor rlen * pageSize ∧
      pagesFor rlen * pageSize < rlen + 8 + pageSize ∧ 0 < pagesFor rlen := by
  unfold pagesFor pageSize
  omega

section Widths

variable {bits : Nat} {rlen : BitVec bits}
  (fits : rlen.toNat + 8 + (pageSize - 1) < 2 ^ bits)

include fits

theorem toNat_add_eight : (rlen + 8).toNat = rlen.toNat + 8 := by
  have eight : (8 : BitVec bits).toNat = 8 := @toNat_small _ 8 (by omega)
  rw [BitVec.toNat_add_of_lt (by omega), eight]

theorem toNat_pgCount_eight : (pgCount (rlen + 8)).toNat = pagesFor rlen.toNat := by
  rw [toNat_pgCount _ (by omega) (by
    rw [toNat_add_eight fits]
    omega), toNat_add_eight fits, pagesFor]

theorem toNat_pageGap :
    (pageGap rlen).toNat = pagesFor rlen.toNat * pageSize - rlen.toNat - 8 := by
  obtain ⟨enough, tight, _⟩ := pagesFor_bounds rlen.toNat
  have big : 8 < pageSize := by decide
  have eight : (8 : BitVec bits).toNat = 8 := @toNat_small _ 8 (by omega)
  have page : (BitVec.ofNat bits pageSize).toNat = pageSize := toNat_small (by omega)
  have product : (BitVec.ofNat bits pageSize * pgCount (rlen + 8)).toNat =
      pagesFor rlen.toNat * pageSize := by
    rw [BitVec.toNat_mul, page, toNat_pgCount_eight fits, Nat.mul_comm,
      Nat.mod_eq_of_lt (by omega)]
  have first : (BitVec.ofNat bits pageSize * pgCount (rlen + 8) - rlen).toNat =
      pagesFor rlen.toNat * pageSize - rlen.toNat := by
    rw [BitVec.toNat_sub_of_le (by
      rw [BitVec.le_def, product]
      omega), product]
  rw [pageGap, BitVec.toNat_sub_of_le (by
    rw [BitVec.le_def, eight, first]
    omega), first, eight]

end Widths

theorem low_bits (len : BitVec 64) :
    len &&& ~~~(allocAlignSize - 1) = (len >>> 4) <<< 4 := by
  apply BitVec.eq_of_getLsbD_eq
  intro bit inside
  have mask : ∀ bit < 64,
      (~~~(allocAlignSize - 1)).getLsbD bit = decide (4 ≤ bit) := by
    decide
  rw [BitVec.getLsbD_and, mask bit inside, BitVec.getLsbD_shiftLeft,
    BitVec.getLsbD_ushiftRight]
  by_cases high : 4 ≤ bit
  · simp [high, inside, Nat.not_lt.mpr high]
  · simp [high, Nat.lt_of_not_le high]

theorem toNat_alignUp {len : BitVec 64} (fits : len.toNat + 16 < 2 ^ 64) :
    (alignUp len).toNat = len.toNat / 16 * 16 + 16 := by
  have size : allocAlignSize.toNat = 16 := rfl
  have low : ((len >>> 4) <<< 4).toNat = len.toNat / 16 * 16 := by
    rw [BitVec.toNat_shiftLeft, BitVec.toNat_ushiftRight, Nat.shiftLeft_eq,
      Nat.shiftRight_eq_div_pow, Nat.mod_eq_of_lt (by omega)]
  rw [alignUp, low_bits, BitVec.toNat_add_of_lt (by
    rw [low, size]
    omega), low, size]

theorem roundedLen_bounds (config : Config) (len : BitVec 64)
    (fits : len.toNat + 16 < 2 ^ 64) :
    len.toNat ≤ (roundedLen config len).toNat ∧
      (roundedLen config len).toNat ≤ len.toNat + 16 := by
  unfold roundedLen
  split
  · rw [toNat_alignUp fits]
    omega
  · omega

theorem dislocatorInit_bound {limitMb : Option (BitVec 64)}
    {maxMem : BitVec 64} (accepted : dislocatorInit limitMb = some maxMem) :
    maxMem.toNat + 2 ^ 20 ≤ 2 ^ 64 := by
  unfold dislocatorInit at accepted
  split at accepted
  · obtain rfl := Option.some.inj accepted
    decide
  · rename_i mmem
    split at accepted
    · cases accepted
    · rename_i small
      obtain rfl := Option.some.inj accepted
      have bound : mmem.toNat ≤ 17592186044415 := by
        have most : BitVec.allOnes 64 / 1024 / 1024 = 17592186044415#64 := by
          decide
        rw [most, BitVec.lt_def] at small
        simpa using small
      have kilo : (1024 : BitVec 64).toNat = 1024 := rfl
      have first : (mmem * 1024).toNat = mmem.toNat * 1024 := by
        rw [BitVec.toNat_mul, kilo, Nat.mod_eq_of_lt (by omega)]
      rw [BitVec.toNat_mul, first, kilo, Nat.mod_eq_of_lt (by omega)]
      omega

variable {memory : Buffer} {address : Nat}

variable {tlen : BitVec 64} {new : Block} {memory' : Buffer} {count : Nat}

section Blocks

variable (config : Config)

def Block.rlen (block : Block) : Nat := (roundedLen config block.len).toNat

def Block.pages (block : Block) : Nat := pagesFor (block.rlen config)

/-- A block whose owner may use it. -/
structure Held (heap : Heap) (block : Block) : Prop where
  positive : 0 < block.first
  inside : (block.first + block.pages config + 1) * pageSize ≤ 2 ^ 64
  ends : block.ptr.toNat + block.rlen config =
    (block.first + block.pages config) * pageSize
  rounded : block.len.toNat ≤ block.rlen config
  header : ptrL heap.memory block.ptr = block.len.setWidth 32
  canary : ptrC heap.memory block.ptr = config.allocCanary
  tail : ∀ i, block.len.toNat ≤ i → i < block.rlen config →
    heap.memory (block.ptr.toNat + i) = tailAllocCanary
  accessible : ∀ i < block.pages config, heap.pages (block.first + i) = .readWrite
  guard : heap.pages (block.first + block.pages config) = .noAccess

variable {config} {heap heap' : Heap} {block : Block}

theorem Held.start (held : Held config heap block) :
    block.first * pageSize + 8 ≤ block.ptr.toNat ∧
      (block.ptr - 8).toNat = block.ptr.toNat - 8 ∧
      (block.ptr - 4).toNat = block.ptr.toNat - 4 := by
  have ends := held.ends
  obtain ⟨enough, _, _⟩ := pagesFor_bounds (block.rlen config)
  have first : block.first * pageSize + 8 ≤ block.ptr.toNat := by
    rw [Nat.add_mul] at ends
    unfold Block.pages at ends
    omega
  have eight : (8 : BitVec 64).toNat = 8 := rfl
  have four : (4 : BitVec 64).toNat = 4 := rfl
  refine ⟨first, ?_, ?_⟩
  · rw [BitVec.toNat_sub_of_le (by
      rw [BitVec.le_def, eight]
      omega), eight]
  · rw [BitVec.toNat_sub_of_le (by
      rw [BitVec.le_def, four]
      omega), four]

theorem Held.ptr_ne_zero (held : Held config heap block) : block.ptr ≠ 0 := by
  intro zero
  have starts := held.start.1
  rw [zero] at starts
  exact absurd starts (by
    change ¬_ ≤ 0
    omega)

theorem loadAt_congr {width : Nat}
    (same : ∀ i < width, memory' (address + i) = memory (address + i)) :
    memory'.loadAt width address = memory.loadAt width address := by
  apply ByteWord.eq_of_bytes
  intro i inside
  rw [byte_loadAt _ _ inside, byte_loadAt _ _ inside, same i inside]

/-- A block is held as long as its pages and what surrounds it on them stay. -/
theorem Held.frame (held : Held config heap block)
    (memory : ∀ address, block.first * pageSize ≤ address →
      address < (block.first + block.pages config) * pageSize →
      (address < block.ptr.toNat ∨ block.ptr.toNat + block.len.toNat ≤ address) →
      heap'.memory address = heap.memory address)
    (pages : ∀ i ≤ block.pages config,
      heap'.pages (block.first + i) = heap.pages (block.first + i)) :
    Held config heap' block := by
  obtain ⟨first, eight, four⟩ := held.start
  have ends := held.ends
  refine ⟨held.positive, held.inside, held.ends, held.rounded, ?_, ?_, ?_, ?_, ?_⟩
  · rw [← held.header]
    apply loadAt_congr
    intro i inside
    rw [eight]
    exact memory _ (by omega) (by omega) (.inl (by omega))
  · rw [← held.canary]
    apply loadAt_congr
    intro i inside
    rw [four]
    exact memory _ (by omega) (by omega) (.inl (by omega))
  · intro i from_ before
    rw [memory _ (by omega) (by omega) (.inr (by omega))]
    exact held.tail i from_ before
  · intro i inside
    rw [pages i (Nat.le_of_lt inside)]
    exact held.accessible i inside
  · rw [pages _ (Nat.le_refl _)]
    exact held.guard

/-- Two blocks have no page in common. -/
def Block.Apart (config : Config) (block other : Block) : Prop :=
  block.first + block.pages config < other.first ∨
    other.first + other.pages config < block.first

theorem Block.Apart.symm {other : Block} (apart : block.Apart config other) :
    other.Apart config block := Or.symm apart

end Blocks

section Allocation

variable {config : Config} {heap heap' : Heap} {len ret : BitVec 64}
  {first : Nat}

/-- The request is within the limit. -/
def Accepted (config : Config) (heap : Heap) (len : Nat) : Prop :=
  heap.totalMem.toNat + len ≤ config.maxMem.toNat

/-- `mmap` can put this many pages there. -/
def Room (heap : Heap) (first count : Nat) : Prop :=
  0 < first ∧ (first + count) * pageSize ≤ 2 ^ 64 ∧
    ∀ i < count, heap.pages (first + i) = .unmapped

/-- A new block, and what it leaves of the rest. -/
structure Allocated (config : Config) (heap : Heap) (block : Block)
    (heap' : Heap) : Prop where
  accepted : Accepted config heap block.len.toNat
  room : Room heap block.first (1 + block.pages config)
  held : Held config heap' block
  total : heap'.totalMem.toNat = heap.totalMem.toNat + block.len.toNat
  memory : ∀ address,
    (address < block.first * pageSize ∨
      (block.first + block.pages config + 1) * pageSize ≤ address) →
    heap'.memory address = heap.memory address
  pages : ∀ page, (page < block.first ∨ block.first + block.pages config < page) →
    heap'.pages page = heap.pages page

theorem accepted_iff (bound : config.maxMem.toNat + 2 ^ 20 ≤ 2 ^ 64)
    (limit : heap.totalMem ≤ config.maxMem) :
    Accepted config heap len.toNat ↔
      ¬(config.maxMem < heap.totalMem + len ∨
        heap.totalMem + len < heap.totalMem) := by
  rw [BitVec.le_def] at limit
  rw [Accepted, BitVec.lt_def, BitVec.lt_def, BitVec.toNat_add]
  have small := len.isLt
  rcases Nat.lt_or_ge (heap.totalMem.toNat + len.toNat) (2 ^ 64) with
    fits | wraps
  · rw [Nat.mod_eq_of_lt fits]
    omega
  · have wrapped : (heap.totalMem.toNat + len.toNat) % 2 ^ 64 =
        heap.totalMem.toNat + len.toNat - 2 ^ 64 := by omega
    rw [wrapped]
    omega

theorem storeBytes_outside {here : Nat} {bytes : List (BitVec 8)}
    (outside : here < address ∨ address + bytes.length ≤ here) :
    memory.storeBytes address bytes here = memory here := by
  unfold storeBytes
  split
  · rw [List.getElem?_eq_none (by omega)]
    rfl
  · rfl

/-- The words below a block, and the bytes behind it. -/
theorem writeMetadata_spec (memory : Buffer)
    (below : 8 ≤ ret.toNat) (rounded : len.toNat ≤ (roundedLen config len).toNat) :
    ptrL (writeMetadata config memory ret len) ret = len.setWidth 32 ∧
      ptrC (writeMetadata config memory ret len) ret = config.allocCanary ∧
      (∀ i, len.toNat ≤ i → i < (roundedLen config len).toNat →
        writeMetadata config memory ret len (ret.toNat + i) = tailAllocCanary) ∧
      ∀ address, (address < ret.toNat - 8 ∨
          ret.toNat + (roundedLen config len).toNat ≤ address) →
        writeMetadata config memory ret len address = memory address := by
  have eight : (ret - 8).toNat = ret.toNat - 8 := by
    rw [BitVec.toNat_sub_of_le (by
      rw [BitVec.le_def]
      exact below)]
    rfl
  have four : (ret - 4).toNat = ret.toNat - 4 := by
    rw [BitVec.toNat_sub_of_le (by
      rw [BitVec.le_def]
      exact Nat.le_trans (by decide) below)]
    rfl
  unfold ptrL ptrC writeMetadata
  rw [eight, four]
  refine ⟨?_, ?_, ?_, ?_⟩
  · apply Spells.loadAt_eq
    apply Spells.storeBytes
    · apply Spells.storeBytes (spells_storeBytes _ _ _)
      unfold Apart
      simp only [length_wordBytes]
      omega
    · unfold Apart
      simp only [length_wordBytes]
      omega
  · apply Spells.loadAt_eq
    apply Spells.storeBytes (spells_storeBytes _ _ _)
    unfold Apart
    simp only [length_wordBytes]
    omega
  · intro i from_ before
    have found := spells_storeBytes
      ((memory.storeBytes (ret.toNat - 8)
        (wordBytes 4 (len.setWidth 32))).storeBytes (ret.toNat - 4)
          (wordBytes 4 config.allocCanary))
      (ret.toNat + len.toNat)
      (List.replicate ((roundedLen config len).toNat - len.toNat)
        tailAllocCanary) (i - len.toNat) tailAllocCanary (by
          rw [List.getElem?_replicate, if_pos (by omega)])
    rwa [show ret.toNat + len.toNat + (i - len.toNat) = ret.toNat + i by omega]
      at found
  · intro address outside
    rw [storeBytes_outside (by
        rw [List.length_replicate]
        omega),
      storeBytes_outside (by
        rw [length_wordBytes]
        omega),
      storeBytes_outside (by
        rw [length_wordBytes]
        omega)]

theorem dislocatorAlloc_refused
    (bound : config.maxMem.toNat + 2 ^ 20 ≤ 2 ^ 64)
    (limit : heap.totalMem ≤ config.maxMem)
    (refused : ¬Accepted config heap len.toNat) :
    dislocatorAlloc config len first heap =
      if config.hardFail then none else some (0, heap) := by
  rw [accepted_iff bound limit, not_not] at refused
  rw [dislocatorAlloc, if_pos refused]

/-- What `mmap` makes of the heap. -/
def Heap.mapped (heap : Heap) (first count : Nat) : Heap :=
  { heap with
    memory := heap.memory.storeBytes (first * pageSize)
      (List.replicate (count * pageSize) 0#8)
    pages := fun page =>
      if first ≤ page ∧ page < first + count then .readWrite
      else heap.pages page }

/-- What `mprotect` makes of the heap. -/
def Heap.guarded (heap : Heap) (first count : Nat) : Heap :=
  { heap with
    pages := fun page =>
      if first ≤ page ∧ page < first + count then .noAccess
      else heap.pages page }

theorem pages_of_size (count : Nat) :
    (count * pageSize + (pageSize - 1)) / pageSize = count := by
  unfold pageSize
  omega

theorem mmap_room (isLen : tlen.toNat = count * pageSize) (room : Room heap first count) :
    mmap first tlen heap = some (heap.mapped first count) := by
  rw [mmap, isLen, pages_of_size]
  exact if_pos room

theorem mmap_noRoom (isLen : tlen.toNat = count * pageSize)
    (noRoom : ¬Room heap first count) :
    mmap first tlen heap = none := by
  rw [mmap, isLen, pages_of_size]
  exact if_neg noRoom

theorem mprotect_eq (heap : Heap) {address : BitVec 64} (count : Nat)
    (isAddress : address.toNat = first * pageSize)
    (mapped : ∀ i < count, heap.pages (first + i) ≠ .unmapped) :
    mprotect address (count * pageSize) heap = some (heap.guarded first count) := by
  have page : first * pageSize / pageSize = first := Nat.mul_div_cancel _ (by decide)
  rw [mprotect, isAddress, pages_of_size, page]
  exact if_pos ⟨Nat.mul_mod_left _ _, mapped⟩

/-- The addresses that `__dislocator_alloc` computes. -/
theorem alloc_addresses (first : Nat) {rlen : BitVec 64}
    (fits : rlen.toNat + 8 + pageSize + pageSize < 2 ^ 64) :
    ((1 + pgCount (rlen + 8)) * BitVec.ofNat 64 pageSize).toNat =
        (1 + pagesFor rlen.toNat) * pageSize ∧
      ((first + (1 + pagesFor rlen.toNat)) * pageSize ≤ 2 ^ 64 →
        (BitVec.ofNat 64 (first * pageSize) +
            pgCount (rlen + 8) * BitVec.ofNat 64 pageSize).toNat =
          (first + pagesFor rlen.toNat) * pageSize ∧
        (BitVec.ofNat 64 (first * pageSize) + pageGap rlen + 8).toNat + rlen.toNat =
          (first + pagesFor rlen.toNat) * pageSize) := by
  have isCount := @toNat_pgCount_eight _ rlen (by omega)
  have isGap := @toNat_pageGap _ rlen (by omega)
  obtain ⟨enough, tight, positive⟩ := pagesFor_bounds rlen.toNat
  have isSize : (BitVec.ofNat 64 pageSize).toNat = pageSize := rfl
  have big : 8 < pageSize := by decide
  have isProduct : (pgCount (rlen + 8) * BitVec.ofNat 64 pageSize).toNat =
      pagesFor rlen.toNat * pageSize := by
    rw [BitVec.toNat_mul, isCount, isSize, Nat.mod_eq_of_lt (by omega)]
  refine ⟨?_, fun inside => ?_⟩
  · have one : (1 : BitVec 64) * BitVec.ofNat 64 pageSize =
        BitVec.ofNat 64 pageSize := BitVec.one_mul _
    rw [BitVec.add_mul, one, BitVec.toNat_add_of_lt (by
      rw [isSize, isProduct]
      omega), isSize, isProduct, Nat.add_mul, Nat.one_mul]
  · rw [Nat.add_mul, Nat.add_mul, Nat.one_mul] at inside
    have isBase : (BitVec.ofNat 64 (first * pageSize)).toNat =
        first * pageSize := toNat_small (by omega)
    have isStart : (BitVec.ofNat 64 (first * pageSize) + pageGap rlen).toNat =
        first * pageSize + (pagesFor rlen.toNat * pageSize - rlen.toNat - 8) := by
      rw [BitVec.toNat_add_of_lt (by
        rw [isBase, isGap]
        omega), isBase, isGap]
    have eight : (8 : BitVec 64).toNat = 8 := rfl
    refine ⟨?_, ?_⟩
    · rw [BitVec.toNat_add_of_lt (by
        rw [isBase, isProduct]
        omega), isBase, isProduct, Nat.add_mul]
    · rw [BitVec.toNat_add_of_lt (by
        rw [isStart, eight]
        omega), isStart, eight, Nat.add_mul]
      omega

/-- An accepted request gets a block if `mmap` has room for it. -/
theorem dislocatorAlloc_accepted
    (bound : config.maxMem.toNat + 2 ^ 20 ≤ 2 ^ 64)
    (limit : heap.totalMem ≤ config.maxMem)
    (accepted : Accepted config heap len.toNat) (first : Nat) :
    (¬Room heap first (1 + pagesFor (roundedLen config len).toNat) →
        dislocatorAlloc config len first heap = none) ∧
      (Room heap first (1 + pagesFor (roundedLen config len).toNat) →
        ∃ ret heap', dislocatorAlloc config len first heap = some (ret, heap') ∧
          ret ≠ 0 ∧ Allocated config heap ⟨ret, len, first⟩ heap') := by
  have small : len.toNat + 2 ^ 20 ≤ 2 ^ 64 := by
    unfold Accepted at accepted
    omega
  obtain ⟨atLeast, atMost⟩ := roundedLen_bounds config len (by omega)
  have fits : (roundedLen config len).toNat + 8 + pageSize + pageSize < 2 ^ 64 := by
    unfold pageSize
    omega
  obtain ⟨enough, _, positive⟩ := pagesFor_bounds (roundedLen config len).toNat
  obtain ⟨isLen, placed⟩ := alloc_addresses first fits
  have checked := (accepted_iff bound limit).mp accepted
  refine ⟨fun noRoom => ?_, fun room => ?_⟩
  · rw [dislocatorAlloc, if_neg checked]
    simp only [mmap_noRoom isLen noRoom, Option.bind_none]
  · obtain ⟨nonzero, inside, unmapped⟩ := id room
    obtain ⟨isGuard, isEnd⟩ := placed inside
    have guarded := mprotect_eq
        (heap.mapped first (1 + pagesFor (roundedLen config len).toNat)) 1
        isGuard (by
      intro i inside
      obtain rfl : i = 0 := by omega
      simp only [Heap.mapped]
      rw [if_pos (by omega)]
      exact nofun)
    rw [Nat.one_mul] at guarded
    rw [dislocatorAlloc, if_neg checked]
    simp only [mmap_room isLen room, Option.bind_some, guarded, Option.map_some]
    generalize BitVec.ofNat 64 (first * pageSize) +
      pageGap (roundedLen config len) + 8 = ret at isEnd ⊢
    rw [Nat.add_mul] at isEnd
    obtain ⟨header, canary, tail, elsewhere⟩ :=
      writeMetadata_spec
        (heap.mapped first (1 + pagesFor (roundedLen config len).toNat)).memory
        (show 8 ≤ ret.toNat by omega) atLeast
    refine ⟨ret, _, rfl, ?_, accepted, room, ⟨nonzero, ?_, ?_, atLeast, header,
      canary, tail, ?_, ?_⟩, ?_, ?_, ?_⟩
    · rintro rfl
      have zero : (0 : BitVec 64).toNat = 0 := rfl
      rw [zero] at isEnd
      omega
    · rw [Nat.add_assoc, Nat.add_comm _ 1]
      exact inside
    · rw [Nat.add_mul]
      exact isEnd
    · intro i before
      change i < pagesFor (roundedLen config len).toNat at before
      simp only [Heap.guarded, Heap.mapped]
      rw [if_neg (by omega), if_pos (by omega)]
    · simp only [Heap.guarded, Heap.mapped]
      exact if_pos ⟨Nat.le_refl _, Nat.lt_succ_self _⟩
    · unfold Accepted at accepted
      exact BitVec.toNat_add_of_lt
        (show heap.totalMem.toNat + len.toNat < 2 ^ 64 by omega)
    · intro address outside
      change address < first * pageSize ∨
        (first + pagesFor (roundedLen config len).toNat + 1) * pageSize ≤
          address at outside
      rw [Nat.add_mul, Nat.add_mul, Nat.one_mul] at outside
      refine (elsewhere address (by omega)).trans (storeBytes_outside ?_)
      rw [List.length_replicate, Nat.add_mul, Nat.one_mul]
      omega
    · intro page outside
      change page < first ∨
        first + pagesFor (roundedLen config len).toNat < page at outside
      simp only [Heap.guarded, Heap.mapped]
      rw [if_neg (by omega), if_neg (by omega)]

/-- An allocation returns nothing and changes nothing, or it returns a new
block. -/
def Outcome (config : Config) (heap : Heap) (len : BitVec 64) (first : Nat)
    (ret : BitVec 64) (heap' : Heap) : Prop :=
  (ret = 0 ∧ heap' = heap) ∨ (ret ≠ 0 ∧ Allocated config heap ⟨ret, len, first⟩ heap')

theorem dislocatorAlloc_outcome
    (bound : config.maxMem.toNat + 2 ^ 20 ≤ 2 ^ 64)
    (limit : heap.totalMem ≤ config.maxMem)
    (returns : dislocatorAlloc config len first heap = some (ret, heap')) :
    Outcome config heap len first ret heap' := by
  by_cases accepted : Accepted config heap len.toNat
  · obtain ⟨none, some⟩ := dislocatorAlloc_accepted bound limit accepted
      first
    by_cases room : Room heap first
        (1 + pagesFor (roundedLen config len).toNat)
    · obtain ⟨_, _, same, nonzero, allocated⟩ := some room
      cases returns.symm.trans same
      exact .inr ⟨nonzero, allocated⟩
    · cases returns.symm.trans (none room)
  · rw [dislocatorAlloc_refused bound limit accepted] at returns
    split at returns
    · cases returns
    · cases returns
      exact .inl ⟨rfl, rfl⟩

theorem Allocated.store {block : Block}
    (allocated : Allocated config heap block heap') (offset : Nat)
    (bytes : List (BitVec 8))
    (inside : offset + bytes.length ≤ block.len.toNat) :
    Allocated config heap block { heap' with
      memory := heap'.memory.storeBytes (block.ptr.toNat + offset) bytes } := by
  have held := allocated.held
  have ends := held.ends
  have rounded := held.rounded
  obtain ⟨starts, _, _⟩ := held.start
  refine ⟨allocated.accepted, allocated.room, held.frame ?_ fun _ _ => rfl,
    allocated.total, ?_, allocated.pages⟩
  · intro address _ _ outside
    exact storeBytes_outside (by omega)
  · intro address outside
    refine (storeBytes_outside ?_).trans (allocated.memory address outside)
    rw [Nat.add_mul _ 1] at outside
    omega

section

variable (bound : config.maxMem.toNat + 2 ^ 20 ≤ 2 ^ 64)
    (limit : heap.totalMem ≤ config.maxMem)
include bound limit

theorem malloc_outcome (returns : malloc config len first heap = some (ret, heap')) :
    Outcome config heap len first ret heap' := by
  obtain ⟨⟨ret', middle⟩, allocates, same⟩ := Option.map_eq_some_iff.mp returns
  have outcome := dislocatorAlloc_outcome bound limit allocates
  simp only at same
  split at same
  · rename_i nonzero
    cases same
    rcases outcome with ⟨zero, _⟩ | ⟨_, allocated⟩
    · exact absurd zero nonzero.1
    · have stored := allocated.store 0
        (List.replicate len.toNat allocClobber) (by simp)
      exact .inr ⟨nonzero.1, stored⟩
  · cases same
    exact outcome

/-- `calloc` has blocks for products that do not overflow only. -/
theorem calloc_outcome {elemLen elemCnt : BitVec 64}
    (returns : calloc config elemLen elemCnt first heap = some (ret, heap')) :
    Outcome config heap (elemLen * elemCnt) first ret heap' ∧
      (ret ≠ 0 → (elemLen * elemCnt).toNat = elemLen.toNat * elemCnt.toNat) := by
  unfold calloc at returns
  simp only at returns
  split at returns
  · split at returns
    · cases returns
      exact ⟨.inl ⟨rfl, rfl⟩, fun nonzero => absurd rfl nonzero⟩
    · cases returns
  · rename_i exact_
    refine ⟨dislocatorAlloc_outcome bound limit returns, fun _ => ?_⟩
    rw [BitVec.toNat_mul]
    apply Nat.mod_eq_of_lt
    by_cases zero : elemCnt = 0
    · rw [zero]
      exact Nat.two_pow_pos 64
    · have divides : elemLen * elemCnt / elemCnt = elemLen := by
        by_contra other
        exact exact_ ⟨zero, other⟩
      have isQuotient := congrArg BitVec.toNat divides
      rw [BitVec.toNat_udiv] at isQuotient
      have product := Nat.div_mul_le_self (elemLen * elemCnt).toNat
        elemCnt.toNat
      rw [isQuotient] at product
      exact Nat.lt_of_le_of_lt product (elemLen * elemCnt).isLt

end

end Allocation

section Release

variable {config : Config} {heap : Heap} {block : Block}

/-- The length of a block, rounded, and the numbers of its pages have 32
bits. -/
def FreeFits (config : Config) (block : Block) : Prop :=
  block.rlen config + 8 + (pageSize - 1) < 2 ^ 32

theorem checkTail_all {ptr rlen : BitVec 64} (short : rlen.toNat < 2 ^ 32)
    (inside : ptr.toNat + rlen.toNat < 2 ^ 64) {fuel : Nat} {len : BitVec 32}
    (before : len.toNat ≤ rlen.toNat) (enough : rlen.toNat < len.toNat + fuel)
    (tail : ∀ i, len.toNat ≤ i → i < rlen.toNat →
      memory (ptr.toNat + i) = tailAllocCanary) :
    checkTail memory ptr rlen fuel len = some (rlen.setWidth 32) := by
  induction fuel generalizing len with
  | zero => omega
  | succ fuel induction =>
      have wide : (len.setWidth 64).toNat = len.toNat := by
        rw [BitVec.toNat_setWidth, Nat.mod_eq_of_lt (by omega)]
      by_cases more : len.toNat < rlen.toNat
      · have next : (len + 1).toNat = len.toNat + 1 :=
          BitVec.toNat_add_of_lt (by
            change len.toNat + 1 < 2 ^ 32
            omega)
        have address : (ptr + len.setWidth 64).toNat = ptr.toNat + len.toNat := by
          rw [BitVec.toNat_add_of_lt (by omega), wide]
        rw [checkTail, if_pos (by rwa [BitVec.lt_def, wide]), address,
          tail _ (Nat.le_refl _) more, if_pos rfl]
        apply induction (by omega) (by omega)
        intro i from_ lower
        exact tail i (by omega) lower
      · rw [checkTail, if_neg (by rwa [BitVec.lt_def, wide])]
        congr 1
        apply BitVec.eq_of_toNat_eq
        rw [BitVec.toNat_setWidth, Nat.mod_eq_of_lt (by omega)]
        omega

/-- The length that `free` ends up with is the rounded one. -/
theorem free_length (held : Held config heap block)
    (fits : FreeFits config block) :
    (if Rounds config block.len then
      checkTail heap.memory block.ptr (alignUp block.len)
        (allocAlignSize.toNat + 1) (block.len.setWidth 32)
    else some (block.len.setWidth 32)) =
      some ((roundedLen config block.len).setWidth 32) := by
  have rounded := held.rounded
  have ends := held.ends
  have inside := held.inside
  have tail := held.tail
  unfold FreeFits at fits
  unfold Block.rlen at *
  have len32 : (block.len.setWidth 32).toNat = block.len.toNat := by
    rw [BitVec.toNat_setWidth, Nat.mod_eq_of_lt (by omega)]
  have atMost := (roundedLen_bounds config block.len (by omega)).2
  have size : allocAlignSize.toNat = 16 := rfl
  split
  · rename_i rounds
    rw [roundedLen, if_pos rounds] at *
    rw [Nat.add_mul _ 1] at inside
    apply checkTail_all (by omega) (by
      have big : 0 < pageSize := by decide
      omega) (by rwa [len32]) (by
      rw [len32, size]
      omega)
    rwa [len32]
  · rename_i exact_
    rw [roundedLen, if_neg exact_]

theorem free_held (held : Held config heap block)
    (fits : FreeFits config block) :
    free config block.ptr heap =
      some (({ heap with totalMem := heap.totalMem - block.len } : Heap).guarded
        block.first (block.pages config)) := by
  have rounded := held.rounded
  have ends := held.ends
  have fits' := fits
  unfold FreeFits at fits'
  have wide : (block.len.setWidth 32).setWidth 64 = block.len := by
    apply BitVec.eq_of_toNat_eq
    rw [BitVec.toNat_setWidth, BitVec.toNat_setWidth,
      Nat.mod_eq_of_lt (a := _ % _) (by omega), Nat.mod_eq_of_lt (by omega)]
  have length := free_length held fits
  generalize isLen' : (roundedLen config block.len).setWidth 32 = len'
    at length
  have rlen : len'.toNat = block.rlen config := by
    rw [← isLen', BitVec.toNat_setWidth, Nat.mod_eq_of_lt]
    · rfl
    · change block.rlen config < 2 ^ 32
      omega
  rw [← rlen] at fits'
  have isGap := toNat_pageGap fits'
  have isCount := toNat_pgCount_eight fits'
  rw [rlen] at isGap isCount
  obtain ⟨enough, tight, _⟩ := pagesFor_bounds (block.rlen config)
  have isSize : (BitVec.ofNat 32 pageSize).toNat = pageSize := rfl
  have big : 0 < pageSize := by decide
  have isLength : (pgCount (len' + 8) * BitVec.ofNat 32 pageSize).toNat =
      block.pages config * pageSize := by
    rw [BitVec.toNat_mul, isCount, isSize, Nat.mod_eq_of_lt (by omega)]
    rfl
  have isAddress : (block.ptr - (pageGap len').setWidth 64 - 8).toNat =
      block.first * pageSize := by
    have eight : (8 : BitVec 64).toNat = 8 := rfl
    have wideGap : ((pageGap len').setWidth 64).toNat =
        pagesFor (block.rlen config) * pageSize - block.rlen config - 8 := by
      rw [BitVec.toNat_setWidth, isGap, Nat.mod_eq_of_lt (by omega)]
    rw [Nat.add_mul, Block.pages] at ends
    have below : (block.ptr - (pageGap len').setWidth 64).toNat =
        block.first * pageSize + 8 := by
      rw [BitVec.toNat_sub_of_le (by
        rw [BitVec.le_def, wideGap]
        omega), wideGap]
      omega
    rw [BitVec.toNat_sub_of_le (by
      rw [BitVec.le_def, below, eight]
      omega), below, eight, Nat.add_sub_cancel]
  rw [free, if_neg held.ptr_ne_zero, held.canary, if_neg (not_not.mpr rfl)]
  simp only [held.header, wide, length, Option.bind_some]
  rw [isLength]
  apply mprotect_eq _ _ isAddress
  intro i inside
  rw [held.accessible i inside]
  exact nofun

theorem Allocated.apart {new : Block} {heap' : Heap}
    (allocated : Allocated config heap new heap')
    (held : Held config heap block) : block.Apart config new := by
  obtain ⟨_, _, unmapped⟩ := allocated.room
  have mapped : ∀ i ≤ block.pages config,
      heap.pages (block.first + i) ≠ .unmapped := by
    intro i inside
    rcases Nat.lt_or_eq_of_le inside with before | last
    · rw [held.accessible i before]
      exact nofun
    · rw [last, held.guard]
      exact nofun
  by_contra overlap
  unfold Block.Apart at overlap
  rcases Nat.le_total block.first new.first with before | behind
  · apply mapped (new.first - block.first) (by omega)
    have first := unmapped 0 (by omega)
    rwa [Nat.add_zero, ← Nat.add_sub_cancel' before] at first
  · apply mapped 0 (Nat.zero_le _)
    have common := unmapped (block.first - new.first) (by omega)
    rwa [Nat.add_sub_cancel' behind] at common

section

variable {heap' : Heap} (allocated : Allocated config heap new heap')
    (held : Held config heap block)
include allocated held

/-- An address of a block in use is not on the pages of a new one. -/
theorem Allocated.outside (from_ : block.first * pageSize ≤ address)
    (before : address < (block.first + block.pages config) * pageSize) :
    address < new.first * pageSize ∨
      (new.first + new.pages config + 1) * pageSize ≤ address := by
  rcases allocated.apart held with low | high
  · exact .inl (Nat.lt_of_lt_of_le before (Nat.mul_le_mul_right _ (Nat.le_of_lt low)))
  · exact .inr (Nat.le_trans (Nat.mul_le_mul_right _ high) from_)

theorem Allocated.keeps : Held config heap' block := by
  apply held.frame
  · intro address from_ before _
    exact allocated.memory address (allocated.outside held from_ before)
  · intro i inside
    apply allocated.pages
    have apart := allocated.apart held
    unfold Block.Apart at apart
    omega

end

theorem loadBytes_congr {len : Nat}
    (same : ∀ i < len, memory' (address + i) = memory (address + i)) :
    memory'.loadBytes address len = memory.loadBytes address len := by
  apply List.map_congr_left
  intro i member
  exact same i (List.mem_range.mp member)

/-- A call of `realloc` on a block fails and changes nothing, or moves the block
to a new one. -/
theorem realloc_cases {ret len : BitVec 64} {first : Nat} {heap' : Heap}
    (bound : config.maxMem.toNat + 2 ^ 20 ≤ 2 ^ 64)
    (limit : heap.totalMem ≤ config.maxMem) (held : Held config heap block)
    (fits : Accepted config heap len.toNat → FreeFits config block)
    (returns : realloc config block.ptr len first heap = some (ret, heap')) :
    (ret = 0 ∧ heap' = heap) ∨
      (ret ≠ 0 ∧ ∃ middle, Allocated config heap ⟨ret, len, first⟩ middle ∧
        middle.memory.loadBytes ret.toNat (min block.len.toNat len.toNat) =
          heap.memory.loadBytes block.ptr.toNat
            (min block.len.toNat len.toNat) ∧
        heap' = ({ middle with
          totalMem := middle.totalMem - block.len } : Heap).guarded
            block.first (block.pages config)) := by
  obtain ⟨⟨ret', middle⟩, allocates, rest⟩ := Option.bind_eq_some_iff.mp returns
  have outcome := malloc_outcome bound limit allocates
  obtain ⟨starts, _, _⟩ := held.start
  have ends := held.ends
  have rounded := held.rounded
  rcases outcome with ⟨zero, same⟩ | ⟨nonzero, allocated⟩
  · simp only [zero, ne_eq, not_true_eq_false, false_and, if_false] at rest
    cases rest
    exact .inl ⟨rfl, same⟩
  · have fits := fits allocated.accepted
    have inMiddle := allocated.keeps held
    have wide : (block.len.setWidth 32).setWidth 64 = block.len := by
      unfold FreeFits at fits
      apply BitVec.eq_of_toNat_eq
      rw [BitVec.toNat_setWidth, BitVec.toNat_setWidth,
        Nat.mod_eq_of_lt (a := _ % _) (by omega), Nat.mod_eq_of_lt (by omega)]
    simp only [ne_eq, nonzero, held.ptr_ne_zero, not_false_eq_true, and_self, if_true,
      inMiddle.canary, not_true_eq_false, if_false, inMiddle.header,
      wide] at rest
    have copied : (if len < block.len then len else block.len).toNat =
        min block.len.toNat len.toNat := by
      split
      · rename_i less
        rw [BitVec.lt_def] at less
        omega
      · rename_i notLess
        rw [BitVec.lt_def] at notLess
        omega
    rw [copied] at rest
    have stored := allocated.store 0
      (middle.memory.loadBytes block.ptr.toNat (min block.len.toNat len.toNat)) (by
        rw [length_loadBytes]
        simp)
    rw [Nat.add_zero] at stored
    have frees := free_held (stored.keeps held) fits
    rw [frees, Option.map_some] at rest
    cases rest
    refine .inr ⟨nonzero, _, stored, ?_, rfl⟩
    have loaded := (spells_storeBytes middle.memory ret.toNat
      (middle.memory.loadBytes block.ptr.toNat
        (min block.len.toNat len.toNat))).loadBytes_eq
    rw [length_loadBytes] at loaded
    refine loaded.trans (loadBytes_congr fun i inside => ?_)
    exact allocated.memory _ (allocated.outside held (by omega) (by omega))

end Release

end AFLPlusPlus.Libdislocator
